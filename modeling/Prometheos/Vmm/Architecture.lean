import Prometheos.Vmm.Exact

/-!
# `translate` and the processor

`archTranslate` is the walk of an x86-64 processor with four levels: the page base is in bits
51 to 12 of a 4 KiB leaf, 51 to 21 of a 2 MiB leaf, and 51 to 30 of a 1 GiB leaf; bit 12 of
the larger ones selects the memory type. `translate` takes bits 51 to 12 of every leaf. It finds
a leaf exactly when the processor does, but gives its address only if the bits in between are
clear (`translate_agrees_iff`), as they are in the leaves that `map` writes.
-/

namespace Prometheos.Vmm

open Pmm

/-! ## The walk of the processor -/

/-- The address field of an entry for pages of `2 ^ k` bytes: bits `k` to 51. -/
def archField (k : ℕ) (w : Word) : ℕ := w.toNat / 2 ^ k % 2 ^ (52 - k)

/-- Bits 63 to 47 are all equal. -/
def ArchCanonical (virt : ℕ) : Prop := virt < 2 ^ 47 ∨ 2 ^ 64 - 2 ^ 47 ≤ virt ∧ virt < 2 ^ 64

/-- The leaf that the processor finds for an address, with its level, from a table of level `l`
on: the levels are 3 for the PML4, which has no leaves, down to 0 for a PT. -/
def archLeaf (m : Mem) (virt : ℕ) : ℕ → ℕ → Option (ℕ × Word)
  | 0, table =>
      let w := m table (virt / 2 ^ 12 % 512)
      if w.getLsbD 0 then some (0, w) else none
  | l + 1, table =>
      let w := m table (virt / 2 ^ (12 + 9 * (l + 1)) % 512)
      if w.getLsbD 0 then
        if l + 1 < 3 ∧ w.getLsbD 7 then some (l + 1, w)
        else archLeaf m virt l (archField 12 w)
      else none

/-- The physical address that a leaf gives to an address of its page. -/
def archAddress (virt : ℕ) : ℕ × Word → ℕ
  | (l, w) => archField (12 + 9 * l) w * 2 ^ (12 + 9 * l) + virt % 2 ^ (12 + 9 * l)

instance (virt : ℕ) : Decidable (ArchCanonical virt) := inferInstanceAs (Decidable (_ ∨ _ ∧ _))

/-- The physical address of an address, with the PML4 in the frame `pml4`. -/
def archTranslate (m : Mem) (pml4 virt : ℕ) : Option ℕ :=
  if ArchCanonical virt then (archLeaf m virt 3 pml4).map (archAddress virt) else none

/-! ## The two walks meet the same leaf -/

/-- The indices of an address, from a level on. -/
def pathFrom (virt : ℕ) : ℕ → List (Fin 512)
  | 0 => [idx 0 virt]
  | l + 1 => idx (l + 1) virt :: pathFrom virt l

/-- The processor reads the entries that the walk along the indices reads. -/
theorem archLeaf_eq_walk (m : Mem) (virt : ℕ) : ∀ {l : ℕ} (table : ℕ), l ≤ 3 →
    archLeaf m virt l table = Radix.walk kind (entries m) l table (pathFrom virt l) := by
  intro l
  induction l with
  | zero =>
      intro table _
      have hentry : m table (virt / 2 ^ 12 % 512) = entries m table (idx 0 virt) := rfl
      unfold archLeaf pathFrom
      dsimp only
      rw [hentry]
      cases hk : kind 0 (entries m table (idx 0 virt)) with
      | absent => rw [Radix.walk_cons_of_absent hk, kind_eq_absent_iff.1 hk, if_neg nofun]
      | leaf => rw [Radix.walk_cons_of_leaf hk, if_pos (kind_eq_leaf_iff.1 hk).1]
      | table n => exact absurd hk (kind_zero_ne_table _ n)
  | succ l ih =>
      intro table hl
      have hentry : m table (virt / 2 ^ (12 + 9 * (l + 1)) % 512) =
          entries m table (idx (l + 1) virt) := rfl
      unfold archLeaf pathFrom
      dsimp only
      rw [hentry]
      cases hk : kind (l + 1) (entries m table (idx (l + 1) virt)) with
      | absent => rw [Radix.walk_cons_of_absent hk, kind_eq_absent_iff.1 hk, if_neg nofun]
      | leaf =>
          rcases kind_eq_leaf_iff.1 hk with ⟨h0, hpage⟩
          have hps : l + 1 < 3 ∧ (entries m table (idx (l + 1) virt)).getLsbD 7 = true := by
            rcases hpage with hzero | ⟨hle, h7⟩
            · omega
            · exact ⟨by omega, h7⟩
          rw [Radix.walk_cons_of_leaf hk, if_pos h0, if_pos hps]
      | table n =>
          rcases kind_eq_table_iff.1 hk with ⟨h0, hpage, hframe⟩
          have hps : ¬ (l + 1 < 3 ∧ (entries m table (idx (l + 1) virt)).getLsbD 7 = true) := by
            rintro ⟨hlt, h7⟩
            exact hpage (Or.inr ⟨by omega, h7⟩)
          have hfield : archField 12 (entries m table (idx (l + 1) virt)) = n := hframe
          rw [Radix.walk_cons_of_table hk, if_pos h0, if_neg hps, hfield]
          exact ih n (by omega)

/-- There are no leaves in the PML4. -/
theorem walk_level_le {s : Vm} {q : List (Fin 512)} {l : ℕ} {w : Word}
    (h : walk s q = some (l, w)) : l ≤ 2 := by
  rcases Radix.exists_of_walk h with ⟨p, i, r, n, -, -, hk, hlevel, -⟩
  have hpage := (kind_eq_leaf_iff.1 hk).2
  omega

/-- The two addresses are the same if the leaf has no bit between bit 12 and its address
field. -/
theorem leafView_eq_archAddress [X86] (virt : ℕ) {l : ℕ} (hl : l ≤ 2) (w : Word) :
    (leafView virt (l, w)).1 = archAddress virt (l, w) ↔ w.toNat / 2 ^ 12 % 2 ^ (9 * l) = 0 := by
  change frameOf w * 4096 + virt % 2 ^ (12 + 9 * l) =
    archField (12 + 9 * l) w * 2 ^ (12 + 9 * l) + virt % 2 ^ (12 + 9 * l) ↔ _
  rw [Nat.add_left_inj]
  unfold frameOf archField
  have hcases : l = 0 ∨ l = 1 ∨ l = 2 := by omega
  rcases hcases with rfl | rfl | rfl
  · simp only [Nat.mul_zero, Nat.add_zero]
    omega
  · simp only [Nat.mul_one, Nat.reduceAdd]
    omega
  · simp only [Nat.reduceMul, Nat.reduceAdd]
    omega

/-! ## Agreement -/

section

variable {s : Vm}

/-- Tables can be read if the direct map has room for every frame that an entry can name. -/
theorem readable_of_fits (hhdm : s.hhdmOffset = s.phys.pmm.hhdmOffset)
    (htop : s.topLevel = root s * frameSize) (hroot : root s < 2 ^ 40)
    (hfits : s.hhdmOffset + 2 ^ 52 ≤ 2 ^ 64) : Readable s := by
  refine ⟨hhdm, htop, ?_⟩
  intro p f hp
  have hlt : f < 2 ^ 40 := by
    rcases List.eq_nil_or_concat p with rfl | ⟨q, i, rfl⟩
    · cases hp
      exact hroot
    · rw [List.concat_eq_append] at hp
      rcases tableAt_snoc_iff.1 hp with ⟨n, -, hk⟩
      rw [← (kind_eq_table_iff.1 hk).2.2]
      exact frameOf_lt _
  unfold blockPtr
  omega

/-- `translate` finds no page exactly when the processor finds none, and it gives the
processor's address if and only if the leaf has no bit set between bit 12 and its address
field: bits 12 to 20 of a 2 MiB leaf, bits 12 to 29 of a 1 GiB leaf. -/
theorem translate_agrees_iff [X86] (hR : Readable s) (virt : ℕ) :
    ∃ r, (translate virt).run s = .ok r s ∧
      (r = none ↔ ¬ ArchCanonical virt ∨ archLeaf s.phys.mem virt 3 (root s) = none) ∧
      (r.map Prod.fst = archTranslate s.phys.mem (root s) virt ↔
        ∀ l w, ArchCanonical virt → archLeaf s.phys.mem virt 3 (root s) = some (l, w) →
          w.toNat / 2 ^ 12 % 2 ^ (9 * l) = 0) := by
  have hleaf : archLeaf s.phys.mem virt 3 (root s) = walk s (pagePath virt .base) :=
    archLeaf_eq_walk s.phys.mem virt (root s) (le_refl 3)
  have hcanonical : isCanonical virt = true ↔ ArchCanonical virt := isCanonical_iff
  refine ⟨translation s virt, translate_spec hR virt, ?_⟩
  unfold translation archTranslate
  rw [hleaf]
  by_cases hcan : ArchCanonical virt
  · rw [if_pos (hcanonical.2 hcan), if_pos hcan]
    cases hwalk : walk s (pagePath virt .base) with
    | none => simp
    | some x =>
        rcases x with ⟨l, w⟩
        have haddr := leafView_eq_archAddress virt (walk_level_le hwalk) w
        refine ⟨by simp [hcan], ?_⟩
        simp only [Option.map_some, Option.some.injEq, haddr]
        constructor
        · intro hclear l' w' _ hx
          cases hx
          exact hclear
        · exact fun h => h l w hcan rfl
  · rw [if_neg fun h => hcan (hcanonical.1 h), if_neg hcan]
    simp [hcan]

end

/-- A PML4 in frame 1, a PDPT in frame 2 and two leaves of 1 GiB, for the first gibibyte with
the PAT bit and for the second without. -/
def patVm : Vm :=
  { phys := ⟨⟨[], [], 0, 0, 4096⟩, fun f i =>
      if f = 1 ∧ i = 0 then 0x2003
      else if f = 2 ∧ i = 0 then 0x1083
      else if f = 2 ∧ i = 1 then 0x40000083
      else 0⟩
    hhdmOffset := 4096
    topLevel := 4096
    trace := [] }

theorem readable_patVm : Readable patVm :=
  readable_of_fits rfl rfl (by decide) (by decide)

/-- The first gibibyte is mapped to physical address 0, and `translate` says 4096. -/
theorem translate_pat_bit : letI := X86.documented
    Readable patVm ∧ archTranslate patVm.phys.mem (root patVm) 0 = some 0 ∧
      ∃ flags, (translate 0).run patVm = .ok (some (4096, flags)) patVm :=
  ⟨readable_patVm, rfl, _, rfl⟩

/-- In the second gibibyte `translate` gives the right address. -/
theorem translate_agrees_second_gibibyte : letI := X86.documented
    Readable patVm ∧ ∃ r, (translate (2 ^ 30 + 5)).run patVm = .ok r patVm ∧
      r.map Prod.fst = archTranslate patVm.phys.mem (root patVm) (2 ^ 30 + 5) := by
  rcases @translate_agrees_iff patVm X86.documented readable_patVm (2 ^ 30 + 5) with
    ⟨r, hrun, -, hagrees⟩
  refine ⟨readable_patVm, r, hrun, hagrees.2 ?_⟩
  intro l w _ hleaf
  have hsecond : archLeaf patVm.phys.mem (2 ^ 30 + 5) 3 (root patVm) = some (2, 0x40000083) := by
    decide
  cases hsecond.symm.trans hleaf
  decide

end Prometheos.Vmm
