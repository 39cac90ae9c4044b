import Prometheos.Acpi.Model
import Prometheos.Vmm.Ranges

/-!
# A request of uACPI

`uacpi_kernel_map` goes through the pages of a request. It maps a page that is not mapped, and
passes over one that is. While it succeeds, the state is that from before the call with the
pages on top of it that were not mapped then (`Upto`). If a page cannot be mapped, the call
returns the null pointer, and leaves the pages there that it has mapped.

* `uacpiKernelMap_covers`: a call that succeeds makes all bytes of the request available at their
  place in the direct map, maps no page that the request does not need, and takes nothing away;
* `failed_map_unchanged_iff`: a call that fails changes nothing if and only if the pages before one
  that cannot be mapped were mapped already. A request of two pages of which the second one finds
  no memory is not of this kind (`half_mapped_request`).
-/

namespace Prometheos.Acpi

open Pmm Vmm Boot

/-! ## The pages that were passed -/

/-- A page from `lo` to `hi`. -/
def PageOf (lo hi p : ℕ) : Prop := lo ≤ p ∧ p < hi ∧ p % 4096 = 0

/-- The path of the place of a page in the direct map. -/
def placePath (s : Vm) (p : ℕ) : List (Fin 512) := pagePath (p + s.hhdmOffset) .base

/-- The pages from `lo` to `hi` that are not mapped, with the leaves they get. -/
def newPages [X86] (s : Vm) (lo hi : ℕ) : Set (List (Fin 512) × Word) :=
  {x | ∃ p, PageOf lo hi p ∧ walk s (placePath s p) = none ∧
    x = (placePath s p, leafEntry p mapFlags .base)}

/-- In `t` the pages up to `phys` are mapped that were not in `s`. -/
structure Upto [X86] (init : List ℕ) (others : List (ℕ × ℕ)) (s t : Vm) (lo phys : ℕ) : Prop where
  tree : ∃ held, Tree init others t held
  hhdm : t.hhdmOffset = s.hhdmOffset
  laid : Laid s t (newPages s lo phys)
  accepted : ∀ p, PageOf lo phys p → Accepted (p + s.hhdmOffset) p .base
  phys_lt : ∀ p, PageOf lo phys p → walk s (placePath s p) = none → p < 2 ^ 52

/-- The loop came from `s` to `t`. Until it mapped a page it was in `s`. -/
structure Passed [X86] (init : List ℕ) (others : List (ℕ × ℕ)) (s t : Vm) (lo phys : ℕ) : Prop
    extends Upto init others s t lo phys where
  same : newPages s lo phys = ∅ → t = s
  first : ∀ p, PageOf lo phys p → newPages s lo p = ∅ → ∃ r t',
    (Vmm.map (p + s.hhdmOffset) p mapFlags .base).run s = .ok r t' ∧ isMapped r = true

section

variable {lo phys p : ℕ}

theorem pageOf_add_iff (hlo : lo ≤ phys) (hal : phys % 4096 = 0) :
    PageOf lo (phys + 4096) p ↔ PageOf lo phys p ∨ p = phys := by
  unfold PageOf
  omega

theorem not_pageOf_self : ¬ PageOf lo lo p := by
  unfold PageOf
  omega

variable [X86] {s : Vm}

theorem newPages_eq_empty_iff :
    newPages s lo phys = ∅ ↔ ∀ p, PageOf lo phys p → walk s (placePath s p) ≠ none := by
  constructor
  · intro hempty p hp hnone
    have hmem : (placePath s p, leafEntry p mapFlags .base) ∈ newPages s lo phys :=
      ⟨p, hp, hnone, rfl⟩
    rw [hempty] at hmem
    exact hmem
  · intro hall
    rw [Set.eq_empty_iff_forall_notMem]
    rintro _ ⟨p, hp, hnone, rfl⟩
    exact hall p hp hnone

/-- There is nothing to map if all pages are translated. -/
theorem newPages_eq_empty (h : ∀ p, PageOf lo phys p → translation s (p + s.hhdmOffset) ≠ none) :
    newPages s lo phys = ∅ := by
  refine newPages_eq_empty_iff.2 fun p hp hnone => h p hp ?_
  change walk s (pagePath (p + s.hhdmOffset) .base) = none at hnone
  unfold translation
  rw [hnone]
  exact ite_self none

theorem newPages_add_of_none (hlo : lo ≤ phys) (hal : phys % 4096 = 0)
    (hnone : walk s (placePath s phys) = none) : newPages s lo (phys + 4096) =
      insert (placePath s phys, leafEntry phys mapFlags .base) (newPages s lo phys) := by
  ext x
  constructor
  · rintro ⟨p, hp, hwalk, rfl⟩
    rcases (pageOf_add_iff hlo hal).1 hp with hp | rfl
    · exact Or.inr ⟨p, hp, hwalk, rfl⟩
    · exact Or.inl rfl
  · rintro (rfl | ⟨p, hp, hwalk, rfl⟩)
    · exact ⟨phys, (pageOf_add_iff hlo hal).2 (Or.inr rfl), hnone, rfl⟩
    · exact ⟨p, (pageOf_add_iff hlo hal).2 (Or.inl hp), hwalk, rfl⟩

theorem newPages_add_of_some (hlo : lo ≤ phys) (hal : phys % 4096 = 0)
    (hsome : walk s (placePath s phys) ≠ none) :
    newPages s lo (phys + 4096) = newPages s lo phys := by
  ext x
  constructor
  · rintro ⟨p, hp, hwalk, rfl⟩
    rcases (pageOf_add_iff hlo hal).1 hp with hp | rfl
    · exact ⟨p, hp, hwalk, rfl⟩
    · exact absurd hwalk hsome
  · rintro ⟨p, hp, hwalk, rfl⟩
    exact ⟨p, (pageOf_add_iff hlo hal).2 (Or.inl hp), hwalk, rfl⟩

end

/-! ## The loop -/

section

variable [X86] {init held : List ℕ} {others : List (ℕ × ℕ)} {s t s' : Vm} {lo last phys : ℕ}

omit [X86] in
/-- There is no table below a PT. -/
theorem walk_of_occupied {virt : ℕ} (h : Occupied s (pagePath virt .base)) :
    walk s (pagePath virt .base) ≠ none := by
  rcases h with hwalk | htable
  · exact hwalk
  · rcases Option.ne_none_iff_exists'.1 htable with ⟨f, hf⟩
    have hlen : 4 ≤ 3 := length_of_tableAt hf
    omega

/-- The two ways to pass a page. -/
theorem map_of_isMapped {virt : ℕ} {r : Except MapError Unit}
    (h : MapPost s virt phys mapFlags .base r s') (hr : isMapped r = true) :
    Accepted virt phys .base ∧
      (phys < 2 ^ 52 ∧ Mapped s s' (pagePath virt .base) (leafEntry phys mapFlags .base) ∨
        walk s (pagePath virt .base) ≠ none ∧ s' = s) := by
  cases r with
  | ok _ => exact ⟨h.1, Or.inl h.2⟩
  | error e =>
      cases e with
      | alreadyMapped => exact ⟨h.1, Or.inr ⟨walk_of_occupied h.2.1, h.2.2⟩⟩
      | outOfMemory => cases hr
      | nonCanonical => cases hr
      | misaligned => cases hr

/-- A page that cannot be mapped changes nothing. -/
theorem restored_of_error {virt : ℕ} {e : MapError} (hT : Tree init others t held)
    (hrun : (Vmm.map virt phys mapFlags .base).run t = .ok (.error e) s') :
    Restored t s' ∧ ∃ held', Tree init others s' held' := by
  rcases map_of_ok hT hrun with ⟨htree, -, hpost⟩
  exact ⟨hpost.restored, htree⟩

/-- A turn of the loop: the page is passed, or the loop ends. -/
theorem mapLoop_turn {page hhdm n : ℕ} {done : Bool} (hlt : phys < last)
    (hrun : (mapLoop page hhdm last (n + 1) phys).run t = .ok done s') :
    ∃ r t', (Vmm.map (phys + hhdm) phys mapFlags .base).run t = .ok r t' ∧
      (isMapped r = true ∧ (mapLoop page hhdm last n (phys + page)).run t' = .ok done s' ∨
        ∃ e, r = .error e ∧ e ≠ .alreadyMapped ∧ done = false ∧ s' = t') := by
  unfold mapLoop at hrun
  rw [if_pos hlt] at hrun
  rcases Prog.bind_ok_iff.1 hrun with ⟨virt, t₁, hadd, hrun₁⟩
  rcases addU64_ok_iff.1 hadd with ⟨-, rfl, rfl⟩
  rcases Prog.bind_ok_iff.1 hrun₁ with ⟨r, t', hmap, hrun₂⟩
  refine ⟨r, t', hmap, ?_⟩
  by_cases hr : isMapped r = true
  · rw [if_pos hr] at hrun₂
    rcases Prog.bind_ok_iff.1 hrun₂ with ⟨next, t₂, hadd₁, hloop⟩
    rcases addU64_ok_iff.1 hadd₁ with ⟨-, rfl, rfl⟩
    exact Or.inl ⟨hr, hloop⟩
  · rw [if_neg hr] at hrun₂
    cases hrun₂
    cases r with
    | ok u => exact absurd rfl hr
    | error e =>
        refine Or.inr ⟨e, rfl, ?_, rfl, rfl⟩
        rintro rfl
        exact hr rfl

theorem Passed.zero (hT : Tree init others s held) (lo : ℕ) : Passed init others s s lo lo := by
  have hempty : newPages s lo lo = ∅ :=
    newPages_eq_empty_iff.2 fun p hp => absurd hp not_pageOf_self
  refine ⟨⟨⟨held, hT⟩, rfl, ?_, ?_, ?_⟩, fun _ => rfl, ?_⟩
  · rw [hempty]
    exact Laid.refl s
  · exact fun p hp => absurd hp not_pageOf_self
  · exact fun p hp => absurd hp not_pageOf_self
  · exact fun p hp => absurd hp not_pageOf_self

/-- The pages before it do not reach the page that comes next. -/
theorem Upto.walk_place_eq (h : Upto init others s t lo phys)
    (hcan : isCanonical (phys + s.hhdmOffset) = true) (hal : phys % 4096 = 0) :
    walk t (placePath s phys) = walk s (placePath s phys) := by
  refine h.laid.other _ ?_
  rintro _ ⟨p, hp, -, rfl⟩ hpre
  rcases h.accepted p hp with ⟨hcan', hal', -⟩
  have hlt : phys + s.hhdmOffset < p + s.hhdmOffset + 4096 :=
    ((isPrefix_iff_inPage hcan' hcan hal').1 hpre).2
  rcases hp with ⟨-, hbefore, hmod⟩
  omega

/-- One more page is passed. -/
theorem Passed.turn {r : Except MapError Unit} (h : Passed init others s t lo phys)
    (hlo : lo ≤ phys) (hal : phys % 4096 = 0)
    (hrun : (Vmm.map (phys + s.hhdmOffset) phys mapFlags .base).run t = .ok r s')
    (hr : isMapped r = true) : Passed init others s s' lo (phys + 4096) := by
  rcases h.tree with ⟨held, hT⟩
  rcases map_of_ok hT hrun with ⟨htree, hmoved, hpost⟩
  rcases map_of_isMapped hpost hr with ⟨hacc, hcase⟩
  have haccepted : ∀ p, PageOf lo (phys + 4096) p → Accepted (p + s.hhdmOffset) p .base := by
    intro p hp
    rcases (pageOf_add_iff hlo hal).1 hp with hp | rfl
    · exact h.accepted p hp
    · exact hacc
  have hfirst : ∀ p, PageOf lo (phys + 4096) p → newPages s lo p = ∅ → ∃ r t',
      (Vmm.map (p + s.hhdmOffset) p mapFlags .base).run s = .ok r t' ∧ isMapped r = true := by
    intro p hp hempty
    rcases (pageOf_add_iff hlo hal).1 hp with hp | rfl
    · exact h.first p hp hempty
    · rw [h.same hempty] at hrun
      exact ⟨r, s', hrun, hr⟩
  rcases hcase with ⟨hphys, hM⟩ | ⟨hsome, rfl⟩
  · -- the page is new
    have hlaid := h.laid.insert hM hmoved
    have hnone := hlaid.vacant _ (Set.mem_insert _ _) []
    rw [List.append_nil] at hnone
    have hnew := newPages_add_of_none hlo hal hnone
    refine ⟨⟨htree, hM.hhdm.trans h.hhdm, ?_, haccepted, ?_⟩, ?_, hfirst⟩
    · rw [hnew]
      exact hlaid
    · intro p hp hwalk
      rcases (pageOf_add_iff hlo hal).1 hp with hp | rfl
      · exact h.phys_lt p hp hwalk
      · exact hphys
    · intro hempty
      rw [hnew] at hempty
      exact absurd hempty (Set.insert_nonempty _ _).ne_empty
  · -- it was there, also before the call
    have hold : walk s (placePath s phys) ≠ none := h.walk_place_eq hacc.1 hal ▸ hsome
    have hnew := newPages_add_of_some hlo hal hold
    refine ⟨⟨h.tree, h.hhdm, ?_, haccepted, ?_⟩, ?_, hfirst⟩
    · rw [hnew]
      exact h.laid
    · intro p hp hwalk
      rcases (pageOf_add_iff hlo hal).1 hp with hp | rfl
      · exact h.phys_lt p hp hwalk
      · exact absurd hwalk hold
    · rw [hnew]
      exact h.same

/-- A page that cannot be mapped leaves the others. -/
theorem Upto.failed {e : MapError} (h : Upto init others s t lo phys)
    (hrun : (Vmm.map (phys + s.hhdmOffset) phys mapFlags .base).run t = .ok (.error e) s') :
    Upto init others s s' lo phys := by
  rcases h.tree with ⟨held, hT⟩
  rcases restored_of_error hT hrun with ⟨hR, held', hT'⟩
  exact ⟨⟨held', hT'⟩, hR.hhdm.trans h.hhdm, h.laid.restored hR hT, h.accepted, h.phys_lt⟩

/-- How the loop fails: it has passed the pages up to one that cannot be mapped. -/
def FailsAt (init : List ℕ) (others : List (ℕ × ℕ)) (s s' : Vm) (lo p : ℕ) : Prop :=
  ∃ t e, Passed init others s t lo p ∧ e ≠ .alreadyMapped ∧
    (Vmm.map (p + s.hhdmOffset) p mapFlags .base).run t = .ok (.error e) s'

/-- The loop of `uacpi_kernel_map` passes all pages, or fails at one. -/
theorem mapLoop_run (hlast : last % 4096 = 0) :
    ∀ {n phys : ℕ} {t : Vm} {done : Bool}, lo ≤ phys → phys % 4096 = 0 → phys ≤ last →
    last ≤ phys + n → Passed init others s t lo phys →
    (mapLoop 4096 s.hhdmOffset last n phys).run t = .ok done s' →
    done = true ∧ Passed init others s s' lo last ∨
      done = false ∧ ∃ p, PageOf lo last p ∧ FailsAt init others s s' lo p := by
  intro n
  induction n with
  | zero =>
      intro phys t done _ _ hle hn h hrun
      cases hrun
      cases (by omega : phys = last)
      exact Or.inl ⟨rfl, h⟩
  | succ n ih =>
      intro phys t done hlo hal hle hn h hrun
      by_cases hlt : phys < last
      · rcases mapLoop_turn hlt hrun with ⟨r, t', hmap, ⟨hr, hloop⟩ | ⟨e, rfl, he, rfl, rfl⟩⟩
        · exact ih (by omega) (by omega) (by omega) (by omega) (h.turn hlo hal hmap hr) hloop
        · exact Or.inr ⟨rfl, phys, ⟨hlo, hlt, hal⟩, t, e, h, he, hmap⟩
      · cases (by omega : phys = last)
        unfold mapLoop at hrun
        rw [if_neg hlt] at hrun
        cases hrun
        exact Or.inl ⟨rfl, h⟩

/-- The loop returns if no address leaves `u64`, and every physical address fits into an entry. -/
theorem mapLoop_returns {page hhdm : ℕ} (hhigh : last + hhdm < 2 ^ 64)
    (hpage : last + page < 2 ^ 64) (hlast : last ≤ 2 ^ 52) :
    ∀ {n phys : ℕ} {t : Vm} {held : List ℕ}, Tree init others t held →
    ∃ done s', (mapLoop page hhdm last n phys).run t = .ok done s' := by
  intro n
  induction n with
  | zero =>
      intro phys t held _
      exact ⟨true, t, rfl⟩
  | succ n ih =>
      intro phys t held hT
      unfold mapLoop
      by_cases hlt : phys < last
      · rcases map_spec hT (phys + hhdm) (hlt.trans_le hlast) mapFlags .base with
          ⟨r, t', held', hmap, hT', -⟩
        rw [if_pos hlt, Prog.bind_of_ok (addU64_of_lt (by omega) t), Prog.bind_of_ok hmap]
        by_cases hr : isMapped r = true
        · rw [if_pos hr, Prog.bind_of_ok (addU64_of_lt (by omega) t')]
          exact ih hT'
        · rw [if_neg hr]
          exact ⟨false, t', rfl⟩
      · rw [if_neg hlt]
        exact ⟨true, t, rfl⟩

/-! ## The call -/

variable {addr len virt : ℕ}

/-- The call, with its rounding done. -/
theorem uacpiKernelMap_eq (hlt : addr + len + 4096 < 2 ^ 64) :
    (uacpiKernelMap addr len).run s = (mapLoop 4096 s.hhdmOffset (pagesTo addr len)
      (pagesTo addr len - pagesFrom addr) (pagesFrom addr) >>= fun done =>
        if done then addU64 addr s.hhdmOffset else pure 0).run s := by
  unfold uacpiKernelMap basePageSize
  rw [Prog.gets_bind, Prog.bind_of_ok (alignDown_page (by omega) s),
    Prog.bind_of_ok (addU64_of_lt (by omega) s), Prog.bind_of_ok (alignUp_page hlt s)]
  rfl

omit [X86] in
/-- The end of the pages of a range is computed only if there is room for it. -/
theorem lt_of_pagesTo {α : Type} {x : α} {rest : ℕ → Run Vm α}
    (hrun : (addU64 addr len >>= fun sum => alignUp sum basePageSize >>= rest).run s = .ok x s') :
    addr + len + 4096 < 2 ^ 64 := by
  rcases Prog.bind_ok_iff.1 hrun with ⟨sum, _, hadd, hend⟩
  rcases Prog.bind_ok_iff.1 hend with ⟨last, _, hup, -⟩
  rw [(addU64_ok_iff.1 hadd).2.1] at hup
  unfold basePageSize at hup
  exact alignUp_lt hup

theorem lt_of_uacpiKernelMap (hrun : (uacpiKernelMap addr len).run s = .ok virt s') :
    addr + len + 4096 < 2 ^ 64 := by
  unfold uacpiKernelMap at hrun
  rw [Prog.gets_bind] at hrun
  rcases Prog.bind_ok_iff.1 hrun with ⟨_, _, -, hsum⟩
  exact lt_of_pagesTo hsum

/-- A call that returns has passed all pages of the request, or failed at one. -/
theorem uacpiKernelMap_run (hT : Tree init others s held)
    (hrun : (uacpiKernelMap addr len).run s = .ok virt s') :
    virt = addr + s.hhdmOffset ∧ Passed init others s s' (pagesFrom addr) (pagesTo addr len) ∨
      virt = 0 ∧ ∃ p, PageOf (pagesFrom addr) (pagesTo addr len) p ∧
        FailsAt init others s s' (pagesFrom addr) p := by
  rw [uacpiKernelMap_eq (lt_of_uacpiKernelMap hrun)] at hrun
  rcases Prog.bind_ok_iff.1 hrun with ⟨done, t, hloop, hend⟩
  have hle : pagesFrom addr ≤ pagesTo addr len := by
    unfold pagesFrom pagesTo
    omega
  rcases mapLoop_run (Nat.mul_mod_left _ _) (le_refl _) (Nat.mul_mod_left _ _) hle le_add_tsub
    (Passed.zero hT _) hloop with ⟨rfl, h⟩ | ⟨rfl, h⟩
  · rcases addU64_ok_iff.1 hend with ⟨-, rfl, rfl⟩
    exact Or.inl ⟨rfl, h⟩
  · cases hend
    exact Or.inr ⟨rfl, h⟩

/-- A call that returns leaves the ownership of the tables in order. -/
theorem uacpiKernelMap_tree (hT : Tree init others s held)
    (hrun : (uacpiKernelMap addr len).run s = .ok virt s') :
    ∃ held', Tree init others s' held' := by
  rcases uacpiKernelMap_run hT hrun with ⟨-, h⟩ | ⟨-, p, -, t, e, h, -, hmap⟩
  · exact h.tree
  · exact (h.toUpto.failed hmap).tree

/-- The call returns if no address leaves `u64`, and the request is one of physical memory. -/
theorem uacpiKernelMap_returns (hT : Tree init others s held) (hrange : addr + len ≤ 2 ^ 52)
    (hfits : s.hhdmOffset + addr + len + 4095 < 2 ^ 64) :
    ∃ virt s', (uacpiKernelMap addr len).run s = .ok virt s' := by
  have hhigh : pagesTo addr len + s.hhdmOffset < 2 ^ 64 := by
    unfold pagesTo
    omega
  have hpage : pagesTo addr len + 4096 < 2 ^ 64 := by
    unfold pagesTo
    omega
  have hlast : pagesTo addr len ≤ 2 ^ 52 := by
    unfold pagesTo
    omega
  rcases mapLoop_returns hhigh hpage hlast hT with ⟨done, t, hloop⟩
  rw [uacpiKernelMap_eq (by omega), Prog.bind_of_ok hloop]
  cases done with
  | true => exact ⟨_, t, addU64_of_lt (by omega) t⟩
  | false => exact ⟨0, t, rfl⟩

/-! ## What is translated -/

/-- What was mapped stays. -/
theorem Upto.keeps (h : Upto init others s t lo phys) {a : ℕ} {x : ℕ × PTFlags}
    (hx : translation s a = some x) : translation t a = some x := by
  have hcan := isCanonical_of_translation hx
  unfold translation at hx ⊢
  rw [if_pos hcan] at hx ⊢
  rcases Option.map_eq_some_iff.1 hx with ⟨y, hy, rfl⟩
  rw [h.laid.walk_eq hy, Option.map_some]

/-- The pages that were passed are mapped. -/
theorem Upto.there (h : Upto init others s t lo phys) {p a : ℕ} (hp : PageOf lo phys p)
    (ha : InPage (p + s.hhdmOffset) .base a) : translation t a ≠ none := by
  rcases h.accepted p hp with ⟨hcan, hal, -⟩
  have hwalk : ∃ x, ∀ r, walk t (placePath s p ++ r) = some x := by
    cases hold : walk s (placePath s p) with
    | none => exact ⟨_, h.laid.mapped _ ⟨p, hp, hold, rfl⟩⟩
    | some x => exact ⟨x, fun r => h.laid.walk_eq (Radix.walk_append_of_some hold r)⟩
  rcases hwalk with ⟨x, hx⟩
  rw [translation_of_inPage hcan hal hx ha]
  exact Option.some_ne_none _

/-- What was not mapped before is a page that was passed, and leads to its place. -/
theorem Upto.adds (h : Upto init others s t lo phys) {a : ℕ} {x : ℕ × PTFlags}
    (hnone : translation s a = none) (hx : translation t a = some x) :
    ∃ p, PageOf lo phys p ∧ InPage (p + s.hhdmOffset) .base a ∧
      x.1 = p + (a - (p + s.hhdmOffset)) := by
  have hcan' := isCanonical_of_translation hx
  by_cases hnew : ∃ y ∈ newPages s lo phys, y.1 <+: pagePath a .base
  · rcases hnew with ⟨_, ⟨p, hp, hold, rfl⟩, hpre⟩
    rcases h.accepted p hp with ⟨hcan, hal, hmod⟩
    have ha := (isPrefix_iff_inPage hcan hcan' hal).1 hpre
    have hmapped := h.laid.mapped _ ⟨p, hp, hold, rfl⟩
    refine ⟨p, hp, ha, ?_⟩
    rw [translation_of_inPage hcan hal hmapped ha] at hx
    cases hx
    rcases leafView_leafEntry mapFlags hmod (h.phys_lt p hp hold) hal ha with ⟨f, hview, -⟩
    exact congrArg Prod.fst hview
  · -- the walk of another address is the one from before
    have hsame : translation t a = translation s a :=
      translation_congr fun _ => h.laid.other _ fun y hy hpre => hnew ⟨y, hy, hpre⟩
    cases hnone.symm.trans (hsame.symm.trans hx)

end

/-! ## A call that succeeds -/

/-- `uacpi_kernel_map` covers the request, if no page of it leads elsewhere. It returns. If the
pointer that it returns is not null, then it is the place of `addr` in the direct map; from
there on `len` bytes lead to the bytes of the request; what is mapped now and was not before is
the place of a page with a byte of the request, or with `addr`; and what was mapped stays. -/
theorem uacpiKernelMap_covers [X86] {init held : List ℕ} {others : List (ℕ × ℕ)} {s : Vm}
    {addr len : ℕ} (hT : Tree init others s held) (hrange : addr + len ≤ 2 ^ 52)
    (hfits : s.hhdmOffset + addr + len + 4095 < 2 ^ 64)
    (hplace : ∀ p, PageOf (pagesFrom addr) (pagesTo addr len) p → ∀ x,
      (Vmm.translate (p + s.hhdmOffset)).run s = .ok (some x) s → x.1 = p) :
    ∃ v s', (uacpiKernelMap addr len).run s = .ok v s' ∧ (v ≠ 0 →
      v = s.hhdmOffset + addr ∧
      (∀ k < len, ∃ f, (Vmm.translate (v + k)).run s' = .ok (some (addr + k, f)) s') ∧
      (∀ a x, (Vmm.translate a).run s = .ok none s → (Vmm.translate a).run s' = .ok (some x) s' →
        ∃ p, p % 4096 = 0 ∧ InPage (p + s.hhdmOffset) .base a ∧ x.1 + s.hhdmOffset = a ∧
          ∃ b, (addr ≤ b ∧ b < addr + len ∨ b = addr) ∧ p ≤ b ∧ b < p + 4096) ∧
      ∀ a x, (Vmm.translate a).run s = .ok (some x) s →
        (Vmm.translate a).run s' = .ok (some x) s') := by
  rcases uacpiKernelMap_returns hT hrange hfits with ⟨v, s', hrun⟩
  refine ⟨v, s', hrun, fun hv => ?_⟩
  rcases uacpiKernelMap_run hT hrun with ⟨rfl, h⟩ | ⟨hnull, -⟩
  · rcases h.tree with ⟨held', hT'⟩
    simp only [translate_eq_iff hT, translate_eq_iff hT'] at hplace ⊢
    refine ⟨Nat.add_comm _ _, ?_, ?_, fun a x => h.keeps⟩
    · intro k hk
      -- the page of the byte
      set p := (addr + k) / 4096 * 4096 with hpdef
      have hp : PageOf (pagesFrom addr) (pagesTo addr len) p := by
        unfold PageOf pagesFrom pagesTo
        omega
      have ha : InPage (p + s.hhdmOffset) .base (addr + s.hhdmOffset + k) := by
        change p + s.hhdmOffset ≤ _ ∧ _ < p + s.hhdmOffset + 4096
        omega
      rcases Option.ne_none_iff_exists'.1 (h.there hp ha) with ⟨x, hx⟩
      refine ⟨x.2, hx.trans (congrArg some (Prod.ext ?_ rfl))⟩
      rcases h.accepted p hp with ⟨hcan, hal, -⟩
      cases hold : translation s (addr + s.hhdmOffset + k) with
      | none =>
          rcases h.adds hold hx with ⟨q, -, ⟨hle, -⟩, hfst⟩
          rw [hfst]
          omega
      | some y =>
          -- the page led to its place before the call
          cases hx.symm.trans (h.keeps hold)
          rw [translation_of_page hcan hal ha] at hold
          rcases Option.map_eq_some_iff.1 hold with ⟨z, hz, rfl⟩
          have hfst := hplace p hp z hz
          change z.1 + (addr + s.hhdmOffset + k - (p + s.hhdmOffset)) = addr + k
          omega
    · intro a x hnone hx
      rcases h.adds hnone hx with ⟨p, ⟨hlo, hhi, hmod⟩, ha, hfst⟩
      have hlt : a < p + s.hhdmOffset + 4096 := ha.2
      have hle := ha.1
      unfold pagesFrom at hlo
      unfold pagesTo at hhi
      refine ⟨p, hmod, ha, ?_, ?_⟩
      · rw [hfst]
        omega
      · by_cases hbefore : p ≤ addr
        · exact ⟨addr, Or.inr rfl, by omega, by omega⟩
        · exact ⟨p, Or.inl ⟨by omega, by omega⟩, by omega, by omega⟩
  · exact absurd hnull hv

/-- The example of the documentation of `uacpi_kernel_map`: two pages for `0xF00` bytes. -/
theorem misaligned_request_run : letI := X86.documented
    ∃ s₁, (addRange 1 4).run (freshPhys 5) = .ok () s₁ ∧ ∃ s₂,
      (allocPages 0).run s₁ = .ok (some (4 * frameSize)) s₂ ∧ s₂.pmm.totalFrames = 5 ∧
      s₂.pmm.hhdmOffset = 4096 ∧ ∃ s',
      (uacpiKernelMap 0x1ABC 0xF00).run (emptyVm s₂ 4) = .ok 0x2ABC s' := by
  unfold addRange
  unfold addRange
  unfold addRange
  unfold addRange
  exact ⟨_, rfl, _, rfl, rfl, rfl, _, rfl⟩

/-- The last byte of the request, which is in the second page, is available. -/
theorem uacpiKernelMap_covers_misaligned : letI := X86.documented
    ∃ s s' : Vm, s.hhdmOffset = 4096 ∧
      (uacpiKernelMap 0x1ABC 0xF00).run s = .ok 0x2ABC s' ∧
      ∃ f, (Vmm.translate (0x2ABC + 0xEFF)).run s' = .ok (some (0x1ABC + 0xEFF, f)) s' := by
  let := X86.documented
  rcases misaligned_request_run with ⟨s₁, hseed, s₂, halloc, htotal, hhdm, s', hrun⟩
  have hT := (seeded_start (by decide) (by decide) hseed halloc htotal).tree
  change (emptyVm s₂ 4).hhdmOffset = 4096 at hhdm
  -- nothing is mapped before
  have hplace : ∀ p, PageOf (pagesFrom 0x1ABC) (pagesTo 0x1ABC 0xF00) p → ∀ x,
      (Vmm.translate (p + (emptyVm s₂ 4).hhdmOffset)).run (emptyVm s₂ 4) =
        .ok (some x) (emptyVm s₂ 4) → x.1 = p := by
    intro p _ x hx
    rw [translate_eq_iff hT, translation_emptyVm] at hx
    cases hx
  have hfits : (emptyVm s₂ 4).hhdmOffset + 0x1ABC + 0xF00 + 4095 < 2 ^ 64 := by
    rw [hhdm]
    decide
  rcases uacpiKernelMap_covers hT (by decide) hfits hplace with ⟨v, t, hrun', hcovers⟩
  cases hrun.symm.trans hrun'
  exact ⟨_, s', hhdm, hrun, (hcovers (by decide)).2.1 0xEFF (by decide)⟩

/-! ## A call that fails -/

/-- The page cannot be mapped: its place in the direct map is not the address of a page, or nothing
is mapped there and there are fewer free frames than tables that are missing on the way. -/
def Unmappable (s : Vm) (p : ℕ) : Prop :=
  isCanonical (p + s.hhdmOffset) = false ∨ (p + s.hhdmOffset) % 4096 ≠ 0 ∨
    walk s (placePath s p) = none ∧ s.phys.pmm.freeFrames < missing s (placePath s p)

section

variable [X86] {init held : List ℕ} {others : List (ℕ × ℕ)} {s t : Vm} {p : ℕ}

/-- Such a page makes `map` fail. -/
theorem unmappable_of_error {e : MapError} (hT : Tree init others s held) (hp : p % 4096 = 0)
    (he : e ≠ .alreadyMapped)
    (hrun : (Vmm.map (p + s.hhdmOffset) p mapFlags .base).run s = .ok (.error e) t) :
    Unmappable s p := by
  rcases map_of_ok hT hrun with ⟨-, -, hpost⟩
  cases e with
  | alreadyMapped => exact absurd rfl he
  | nonCanonical => exact Or.inl hpost.2
  | misaligned =>
      rcases hpost.2 with hvirt | hphys
      · exact Or.inr (Or.inl hvirt)
      · exact absurd hp hphys
  | outOfMemory =>
      rcases hpost with ⟨-, ⟨-, hvacant⟩, hshort, -⟩
      refine Or.inr (Or.inr ⟨?_, hshort⟩)
      by_contra hwalk
      exact hvacant (Or.inl hwalk)

/-- A page that was passed is none. -/
theorem not_unmappable_of_isMapped {r : Except MapError Unit} (hT : Tree init others s held)
    (hrun : (Vmm.map (p + s.hhdmOffset) p mapFlags .base).run s = .ok r t)
    (hr : isMapped r = true) : ¬ Unmappable s p := by
  rcases map_of_ok hT hrun with ⟨⟨held', hT'⟩, hmoved, hpost⟩
  rcases map_of_isMapped hpost hr with ⟨⟨hcan, hal, -⟩, hcase⟩
  rintro (hnot | hnot | ⟨hnone, hshort⟩)
  · exact Bool.false_ne_true (hnot.symm.trans hcan)
  · exact hnot hal
  · rcases hcase with ⟨-, hM⟩ | ⟨hsome, -⟩
    · exact Nat.not_lt.2 (hM.missing_le hmoved (le_refl 4) hT hT') hshort
    · exact hsome hnone

end

/-- A call of `uacpi_kernel_map` that returns the null pointer has left every translation and the
free frames as they were if and only if there is a page of the request that cannot be mapped, and
the pages before it were all translated already: the call did not come to map a page. -/
theorem failed_map_unchanged_iff [X86] {init held : List ℕ} {others : List (ℕ × ℕ)} {s s' : Vm}
    {addr len : ℕ} (hT : Tree init others s held)
    (hrun : (uacpiKernelMap addr len).run s = .ok 0 s') :
    ((∀ a, ∃ o, (Vmm.translate a).run s' = .ok o s' ∧ (Vmm.translate a).run s = .ok o s) ∧
      freeSet s'.phys = freeSet s.phys) ↔
    ∃ p, PageOf (pagesFrom addr) (pagesTo addr len) p ∧ Unmappable s p ∧
      ∀ q, PageOf (pagesFrom addr) p q → ∃ x,
        (Vmm.translate (q + s.hhdmOffset)).run s = .ok (some x) s := by
  have hpos : 0 < s.hhdmOffset := hT.hhdm_eq ▸ hT.holds.direct.offset_pos
  rcases uacpiKernelMap_run hT hrun with ⟨hv, -⟩ | ⟨-, p, hp, t, e, h, he, hmap⟩
  · omega
  have hfailed := h.toUpto.failed hmap
  rcases hfailed.tree with ⟨held', hT'⟩
  simp only [translate_eq_iff hT, translate_eq_iff hT']
  constructor
  · rintro ⟨hsame, -⟩
    -- a page that was mapped would be translated now, and was not before
    have hold : ∀ q, PageOf (pagesFrom addr) p q →
        ∃ x, translation s (q + s.hhdmOffset) = some x := by
      intro q hq
      have hthere := hfailed.there hq ⟨le_refl _, Nat.lt_add_of_pos_right (by decide)⟩
      rcases hsame (q + s.hhdmOffset) with ⟨o, ho', ho⟩
      rw [ho', ← ho] at hthere
      exact Option.ne_none_iff_exists'.1 hthere
    have hempty : newPages s (pagesFrom addr) p = ∅ :=
      newPages_eq_empty fun q hq => Option.ne_none_iff_exists'.2 (hold q hq)
    rw [h.same hempty] at hmap
    exact ⟨p, hp, unmappable_of_error hT hp.2.2 he hmap, hold⟩
  · rintro ⟨q, hq, hnot, hold⟩
    by_cases hle : p ≤ q
    · -- nothing was to be mapped before `p`, and the failure itself changed nothing
      have hempty : newPages s (pagesFrom addr) p = ∅ := by
        refine newPages_eq_empty fun q' hq' => Option.ne_none_iff_exists'.2 (hold q' ?_)
        exact ⟨hq'.1, hq'.2.1.trans_le hle, hq'.2.2⟩
      rw [h.same hempty] at hmap
      rcases restored_of_error hT hmap with ⟨hR, -⟩
      exact ⟨fun a => ⟨_, translation_congr fun _ => hR.walks _, rfl⟩, hR.free_eq⟩
    · -- the loop cannot have come past `q`
      have hempty : newPages s (pagesFrom addr) q = ∅ :=
        newPages_eq_empty fun q' hq' => Option.ne_none_iff_exists'.2 (hold q' hq')
      rcases h.first q ⟨hq.1, Nat.lt_of_not_le hle, hq.2.2⟩ hempty with ⟨r, u, hmap', hr⟩
      exact absurd hnot (not_unmappable_of_isMapped hT hmap' hr)

/-- The two pages of a request need two PTs, and there is memory for the tables of the first.
The same request is then made again. -/
theorem half_mapped_run : letI := X86.documented
    ∃ s₁, (addRange 1 4).run (freshPhys 5) = .ok () s₁ ∧ ∃ s₂,
      (allocPages 0).run s₁ = .ok (some (4 * frameSize)) s₂ ∧ s₂.pmm.totalFrames = 5 ∧
      s₂.pmm.freeFrames = 3 ∧ ∃ s',
      (uacpiKernelMap 0x1FE000 0x2000).run (emptyVm s₂ 4) = .ok 0 s' ∧
      s'.hhdmOffset = 4096 ∧ s'.phys.pmm.freeFrames = 0 ∧
      (∃ x, (Vmm.translate 0x1FF000).run s' = .ok (some x) s') ∧
      (∃ t, (Vmm.map 0x200000 0x1FF000 mapFlags .base).run s' = .ok (.error .outOfMemory) t) ∧
      ∃ s'', (uacpiKernelMap 0x1FE000 0x2000).run s' = .ok 0 s'' := by
  unfold addRange
  unfold addRange
  unfold addRange
  unfold addRange
  exact ⟨_, rfl, _, rfl, rfl, rfl, _, rfl, rfl, rfl, ⟨_, rfl⟩, ⟨_, rfl⟩, _, rfl⟩

/-- The second time the first page is there already, and nothing changes. -/
theorem failed_map_unchanged_again : letI := X86.documented
    ∃ s s' : Vm, (uacpiKernelMap 0x1FE000 0x2000).run s = .ok 0 s' ∧
      (∀ a, ∃ o, (Vmm.translate a).run s' = .ok o s' ∧ (Vmm.translate a).run s = .ok o s) ∧
      freeSet s'.phys = freeSet s.phys := by
  let := X86.documented
  rcases half_mapped_run with
    ⟨s₁, hseed, s₂, halloc, htotal, -, s', hrun, hhdm, -, ⟨x, hx⟩, ⟨t, hmap⟩, s'', hagain⟩
  have hT := (seeded_start (by decide) (by decide) hseed halloc htotal).tree
  rcases uacpiKernelMap_tree hT hrun with ⟨held', hT'⟩
  refine ⟨s', s'', hagain, (failed_map_unchanged_iff hT' hagain).2 ?_⟩
  refine ⟨0x1FF000, ⟨by decide, by decide, by decide⟩, ?_, ?_⟩
  · refine unmappable_of_error (t := t) (e := .outOfMemory) hT' (by decide) (by decide) ?_
    rw [hhdm]
    exact hmap
  · rintro q ⟨hlo, hhi, hmod⟩
    change 0x1FE000 ≤ q at hlo
    cases (by omega : q = 0x1FE000)
    rw [hhdm]
    exact ⟨x, hx⟩

/-- The first time the call returns the null pointer, the first page stays mapped, and the three
frames of its tables are gone. -/
theorem half_mapped_request : letI := X86.documented
    ∃ (s s' : Vm) (held : List ℕ), Tree [4] [] s held ∧ NoEmpty s ∧
      (uacpiKernelMap 0x1FE000 0x2000).run s = .ok 0 s' ∧
      (Vmm.translate 0x1FF000).run s = .ok none s ∧
      (∃ x, (Vmm.translate 0x1FF000).run s' = .ok (some x) s') ∧
      s.phys.pmm.freeFrames = 3 ∧ s'.phys.pmm.freeFrames = 0 ∧
      freeSet s'.phys ≠ freeSet s.phys := by
  let := X86.documented
  rcases half_mapped_run with
    ⟨s₁, hseed, s₂, halloc, htotal, hfree, s', hrun, -, hfree', htrans, -⟩
  have hT := (seeded_start (by decide) (by decide) hseed halloc htotal).tree
  rcases uacpiKernelMap_tree hT hrun with ⟨held', hT'⟩
  refine ⟨_, s', _, hT, noEmpty_emptyVm s₂ 4, hrun, ?_, htrans, hfree, hfree', ?_⟩
  · rw [translate_eq_iff hT, translation_emptyVm]
  · intro hsame
    have hcount := hT'.holds.inv.count
    rw [hsame, ← hT.holds.inv.count, hfree'] at hcount
    exact absurd (hcount.trans hfree) (by decide)

end Prometheos.Acpi
