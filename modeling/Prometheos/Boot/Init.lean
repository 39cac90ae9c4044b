import Prometheos.Boot.Model
import Prometheos.Pmm.Ownership

/-!
# What `mm::init` seeds

`seedEntries_ok` says which frames the loop of `mm::init` adds to the free set: usable ones that do
not hold the order bytes, and not frame 0. `init_ok` says it of the allocator that `mm::init`
returns.
-/

namespace Prometheos.Boot

open Pmm Dyadic

/-! ## Seeding -/

/-- The frames `mm::init` seeds: usable ones that do not hold the order bytes, and not
frame 0. -/
def seedFrames (orderFirst orderLast : ℕ) (memmap : List Entry) : Set ℕ :=
  {g | 1 ≤ g ∧ (g < orderFirst ∨ orderLast ≤ g) ∧ ∃ e ∈ memmap, e.kind = .usable ∧
    e.base / 2 ^ frameShift ≤ g ∧ g < (e.base + e.length) / 2 ^ frameShift}

/-- No entry of the map reaches past the end of the 64-bit address space. -/
def EndsFit (memmap : List Entry) : Prop := ∀ e ∈ memmap, e.base + e.length < 2 ^ 64

theorem seedPiece_ok {s s' : Phys} {first last : ℕ} {u : Unit} (hI : Inv s)
    (hlast : last ≤ 2 ^ 52) (h : (seedPiece first last).run s = .ok u s') :
    Grew s s' (Set.Ico (max first 1) last) := by
  unfold seedPiece at h
  by_cases hle : last ≤ first
  · rw [if_pos hle] at h
    cases h
    rw [Set.Ico_eq_empty (by omega)]
    exact Grew.refl hI
  rw [if_neg hle] at h
  have hstart : (if first = 0 then 1 else first) = max first 1 := by
    split <;> omega
  dsimp only at h
  rw [hstart] at h
  by_cases hgt : last > max first 1
  · rw [if_pos hgt] at h
    have hsum : max first 1 + (last - max first 1) = last := by omega
    have hA := addRange_ok (last - max first 1) (max first 1) hI (by omega) h
    rwa [hsum] at hA
  · rw [if_neg hgt] at h
    cases h
    rw [Set.Ico_eq_empty (by omega)]
    exact Grew.refl hI

theorem seedEntry_ok {s s' : Phys} {orderFirst orderLast : ℕ} {entry : Entry} {u : Unit}
    (hI : Inv s) (horder : orderFirst ≤ orderLast)
    (h : (seedEntry orderFirst orderLast entry).run s = .ok u s') :
    Grew s s' (seedFrames orderFirst orderLast [entry]) := by
  unfold seedEntry at h
  by_cases hk : entry.kind ≠ .usable
  · rw [if_pos hk] at h
    cases h
    have hempty : seedFrames orderFirst orderLast [entry] = ∅ := by
      rw [Set.eq_empty_iff_forall_notMem]
      rintro g ⟨-, -, e, he, hu, -⟩
      rw [List.mem_singleton.1 he] at hu
      exact hk hu
    rw [hempty]
    exact Grew.refl hI
  rw [if_neg hk] at h
  rcases Prog.bind_ok_iff.1 h with ⟨_, t₁, ht₁, h₁⟩
  rcases addU64_ok_iff.1 ht₁ with ⟨hfit, rfl, rfl⟩
  rcases Prog.bind_ok_iff.1 h₁ with ⟨_, t₂, ht₂, h₂⟩
  have hend : (entry.base + entry.length) / 2 ^ frameShift ≤ 2 ^ 52 := by
    unfold frameShift
    omega
  have hlow := seedPiece_ok hI ((Nat.min_le_left _ _).trans hend) ht₂
  have hhigh := seedPiece_ok hlow.inv hend h₂
  -- the two pieces are what lies before and behind the order bytes
  have hset : seedFrames orderFirst orderLast [entry] =
      Set.Ico (max (entry.base / 2 ^ frameShift) 1)
          (min ((entry.base + entry.length) / 2 ^ frameShift) orderFirst) ∪
        Set.Ico (max (max (entry.base / 2 ^ frameShift) orderLast) 1)
          ((entry.base + entry.length) / 2 ^ frameShift) := by
    ext g
    simp only [Set.mem_union, Set.mem_Ico]
    constructor
    · rintro ⟨hpos, hside, e, he, -, h1, h2⟩
      rw [List.mem_singleton.1 he] at h1 h2
      omega
    · intro hg
      exact ⟨by omega, by omega, entry, List.mem_singleton.2 rfl, not_not.1 hk, by omega,
        by omega⟩
  rw [hset]
  exact hlow.trans hhigh

theorem seedFrames_cons (orderFirst orderLast : ℕ) (entry : Entry) (memmap : List Entry) :
    seedFrames orderFirst orderLast (entry :: memmap) =
      seedFrames orderFirst orderLast [entry] ∪ seedFrames orderFirst orderLast memmap := by
  ext g
  constructor
  · rintro ⟨h1, h2, e, he, h3⟩
    rcases List.mem_cons.1 he with rfl | he
    · exact Or.inl ⟨h1, h2, e, List.mem_singleton.2 rfl, h3⟩
    · exact Or.inr ⟨h1, h2, e, he, h3⟩
  · rintro (⟨h1, h2, e, he, h3⟩ | ⟨h1, h2, e, he, h3⟩)
    · exact ⟨h1, h2, e, List.mem_cons.2 (Or.inl (List.mem_singleton.1 he)), h3⟩
    · exact ⟨h1, h2, e, List.mem_cons_of_mem _ he, h3⟩

/-- The seeding loop, where it returns, has added the seed frames. -/
theorem seedEntries_ok {orderFirst orderLast : ℕ} (horder : orderFirst ≤ orderLast) :
    ∀ (memmap : List Entry) {s s' : Phys} {u : Unit}, Inv s →
      (seedEntries orderFirst orderLast memmap).run s = .ok u s' →
      Grew s s' (seedFrames orderFirst orderLast memmap) := by
  intro memmap
  induction memmap with
  | nil =>
      intro s s' u hI h
      cases h
      have hempty : seedFrames orderFirst orderLast [] = ∅ := by
        rw [Set.eq_empty_iff_forall_notMem]
        rintro g ⟨-, -, e, he, -⟩
        exact List.not_mem_nil he
      rw [hempty]
      exact Grew.refl hI
  | cons entry memmap ih =>
      intro s s' u hI h
      rcases Prog.bind_ok_iff.1 h with ⟨_, t, ht, h'⟩
      have hentry := seedEntry_ok hI horder ht
      rw [seedFrames_cons]
      exact hentry.trans (ih hentry.inv h')

/-! ## `mm::init` -/

theorem highestEnd_ok {σ : Type} : ∀ (memmap : List Entry) {n n' : ℕ} {s s' : σ},
    (highestEnd memmap n : Run σ ℕ).run s = .ok n' s' → EndsFit memmap := by
  intro memmap
  induction memmap with
  | nil =>
      intro n n' s s' _ e he
      exact absurd he List.not_mem_nil
  | cons entry memmap ih =>
      intro n n' s s' h
      rcases Prog.bind_ok_iff.1 h with ⟨_, t, ht, h'⟩
      rcases addU64_ok_iff.1 ht with ⟨hfit, rfl, rfl⟩
      intro e he
      rcases List.mem_cons.1 he with rfl | he
      · exact hfit
      · exact ih h' e he

theorem alignUp_ok {σ : Type} {a n r : ℕ} {s s' : σ}
    (h : (alignUp a n : Run σ ℕ).run s = .ok r s') : r < 2 ^ 64 ∧ s' = s := by
  unfold alignUp subU64 at h
  rcases Prog.bind_ok_iff.1 h with ⟨_, t₁, ht₁, h₁⟩
  rcases Prog.require_ok_iff.1 ht₁ with ⟨-, rfl⟩
  rcases Prog.bind_ok_iff.1 h₁ with ⟨_, t₂, ht₂, h₂⟩
  rcases addU64_ok_iff.1 ht₂ with ⟨hlt, rfl, rfl⟩
  rcases Prog.bind_ok_iff.1 h₂ with ⟨_, t₃, ht₃, h₃⟩
  rcases Prog.bind_ok_iff.1 ht₃ with ⟨_, t₄, ht₄, h₄⟩
  rcases Prog.require_ok_iff.1 ht₄ with ⟨-, rfl⟩
  cases h₄
  cases h₃
  refine ⟨Nat.lt_of_le_of_lt Nat.and_le_left ?_, rfl⟩
  omega

theorem onLocal_ok {pmm : Phys} {x : Run Phys Unit} {m m' : Mem} {s : Phys}
    (h : (onLocal pmm x).run m = .ok s m') : x.run pmm = .ok () s := by
  unfold onLocal at h
  dsimp only at h
  cases hx : x.run pmm with
  | ok u t =>
      rw [hx] at h
      cases h
      rfl
  | stop e t =>
      rw [hx] at h
      cases h

/-- Where `mm::init` returns an allocator, it holds the seed frames. -/
theorem init_ok {memmap : List Entry} {hhdm : ℕ} {m m' : Mem} {s : Phys}
    (h : (init memmap hhdm).run m = .ok s m') :
    EndsFit memmap ∧ Inv s ∧ s.pmm.hhdmOffset = hhdm ∧
      ∃ orderFirst orderLast, freeSet s = seedFrames orderFirst orderLast memmap := by
  unfold init at h
  rcases Prog.bind_ok_iff.1 h with ⟨highest, m₁, hm₁, h₁⟩
  have hfit := highestEnd_ok memmap hm₁
  rcases Prog.bind_ok_iff.1 h₁ with ⟨top, m₂, hm₂, h₂⟩
  rcases alignUp_ok hm₂ with ⟨htop, -⟩
  rcases Prog.bind_ok_iff.1 h₂ with ⟨orderBytes, m₃, hm₃, h₃⟩
  rcases Prog.bind_ok_iff.1 h₃ with ⟨_, m₄, hm₄, h₄⟩
  rcases Prog.bind_ok_iff.1 h₄ with ⟨_, m₅, hm₅, h₅⟩
  rcases Prog.bind_ok_iff.1 h₅ with ⟨pmm, m₆, hm₆, h₆⟩
  rcases Prog.bind_ok_iff.1 h₆ with ⟨orderLast, m₇, hm₇, h₇⟩
  rcases addU64_ok_iff.1 hm₇ with ⟨-, rfl, -⟩
  have hnew : pmm.pmm.hhdmOffset = hhdm ∧ m₆ = m₅ := by
    unfold new at hm₆
    rcases Prog.bind_ok_iff.1 hm₆ with ⟨_, t, ht, hp⟩
    rcases Prog.require_ok_iff.1 ht with ⟨-, rfl⟩
    cases hp
    exact ⟨rfl, rfl⟩
  have hfresh : Fresh pmm := by
    refine ⟨_, _, _, m₅, ?_, hnew.2 ▸ hm₆⟩
    have hdiv : top / 2 ^ frameShift ≤ top := Nat.div_le_self _ _
    omega
  have hG := seedEntries_ok (Nat.le_add_right _ _) memmap hfresh.inv (onLocal_ok h₇)
  have hfree := hG.free_eq
  rw [hfresh.freeSet_eq, Set.empty_union] at hfree
  exact ⟨hfit, hG.inv, hG.hhdm.trans hnew.1, _, _, hfree⟩

end Prometheos.Boot
