import Mathlib.Data.Set.Finite.List
import Prometheos.Vmm.Space

/-!
# The tables that an address space needs

The tables on the way to the entries of the pages are needed, and no others: if no table but the
PML4 is empty, then the tables there are are those that the pages need (`tableAt_iff_needs`). How
many frames the tables take depends on the pages alone, and not on how they came about. Hence
`map` takes as many frames as the page needs tables that no other page needed (`map_takes`), and
fails exactly if there are not as many (`map_outOfMemory_iff`).
-/

namespace Prometheos.Vmm

open Pmm

namespace Space

variable {A : Space} {P : Page}

/-- The tables that the pages need: those on the way to their entries. -/
def Needs (A : Space) (p : List (Fin 512)) : Prop :=
  p = [] ∨ ∃ P, A.pages P ≠ none ∧ p <+: P.path ∧ p ≠ P.path

/-- The number of tables that the page needs and that are not needed yet. -/
noncomputable def missing (A : Space) (P : Page) : ℕ :=
  {p | p <+: P.path ∧ p ≠ P.path ∧ ¬ A.Needs p}.ncard

theorem needs_finite (A : Space) : {p | A.Needs p}.Finite := by
  refine (List.finite_length_le (Fin 512) 4).subset ?_
  rintro p (rfl | ⟨P, -, hpre, -⟩)
  · exact Nat.zero_le 4
  · exact hpre.length_le.trans (pagePath_length_le P.start P.size)

/-- A page that is added needs the tables on the way to it. -/
theorem ncard_needs_insert {x : ℕ × PTFlags} (hfree : A.Free P) :
    {p | (A.insert P x hfree).Needs p}.ncard = {p | A.Needs p}.ncard + A.missing P := by
  have hunion : {p | (A.insert P x hfree).Needs p} =
      {p | A.Needs p} ∪ {p | p <+: P.path ∧ p ≠ P.path ∧ ¬ A.Needs p} := by
    ext p
    constructor
    · intro hp
      by_cases hold : A.Needs p
      · exact Or.inl hold
      · right
        obtain rfl | ⟨Q, hQ, hpre, hne⟩ := hp
        · exact absurd (Or.inl rfl) hold
        · by_cases hQP : Q = P
          · subst hQP
            exact ⟨hpre, hne, hold⟩
          · have hQ' : A.pages Q ≠ none := by
              change Function.update A.pages P (some x) Q ≠ none at hQ
              rwa [Function.update_of_ne hQP] at hQ
            exact absurd (Or.inr ⟨Q, hQ', hpre, hne⟩) hold
    · rintro ((rfl | ⟨Q, hQ, hpre, hne⟩) | ⟨hpre, hne, -⟩)
      · exact Or.inl rfl
      · refine Or.inr ⟨Q, ?_, hpre, hne⟩
        change Function.update A.pages P (some x) Q ≠ none
        by_cases hQP : Q = P
        · subst hQP
          rw [Function.update_self]
          exact Option.some_ne_none x
        · rwa [Function.update_of_ne hQP]
      · refine Or.inr ⟨P, ?_, hpre, hne⟩
        change Function.update A.pages P (some x) P ≠ none
        rw [Function.update_self]
        exact Option.some_ne_none x
  have hfinite : {p | p <+: P.path ∧ p ≠ P.path ∧ ¬ A.Needs p}.Finite :=
    (hunion ▸ (A.insert P x hfree).needs_finite).subset Set.subset_union_right
  rw [hunion, Set.ncard_union_eq ?_ A.needs_finite hfinite]
  · rfl
  · rw [Set.disjoint_right]
    rintro p ⟨-, -, hnot⟩
    exact hnot

/-- A page that is taken away can be added again. -/
theorem free_erase {x : ℕ × PTFlags} (hP : A.pages P = some x) : (A.erase P).Free P := by
  intro Q hQ
  change Function.update A.pages P none Q ≠ none at hQ
  by_cases hQP : Q = P
  · subst hQP
    rw [Function.update_self] at hQ
    exact absurd rfl hQ
  · rw [Function.update_of_ne hQP] at hQ
    refine A.apart P Q ?_ hQ (Ne.symm hQP)
    rw [hP]
    exact Option.some_ne_none x

theorem insert_erase {x : ℕ × PTFlags} (hP : A.pages P = some x) :
    (A.erase P).insert P x (free_erase hP) = A := by
  refine Space.ext fun Q => ?_
  change Function.update (Function.update A.pages P none) P (some x) Q = A.pages Q
  rw [Function.update_idem, ← hP, Function.update_eq_self]

end Space

section

variable [X86] {s s' : Vm} {P : Page} {init held : List ℕ} {others : List (ℕ × ℕ)} {phys : ℕ}
  {flags : PTFlags}

omit [X86] in
/-- Four indices are the path of an address. -/
theorem exists_pagePath_eq {q : List (Fin 512)} (hlen : q.length = 4) :
    ∃ a, isCanonical a = true ∧ pagePath a .base = q := by
  obtain ⟨i, q, rfl⟩ := List.exists_cons_of_length_eq_add_one hlen
  obtain ⟨j, k, l, rfl⟩ := List.length_eq_three.1 (Nat.succ.inj hlen)
  have hi := i.isLt
  have hj := j.isLt
  have hk := k.isLt
  have hl := l.isLt
  -- the upper half of the addresses is at the end of `u64`
  refine ⟨(if i.val < 256 then 0 else 2 ^ 64 - 2 ^ 48) + i.val * 2 ^ 39 + j.val * 2 ^ 30 +
    k.val * 2 ^ 21 + l.val * 2 ^ 12, ?_, ?_⟩
  · rw [isCanonical_iff]
    split <;> omega
  · simp only [pagePath, List.cons.injEq, idx, Fin.ext_iff, and_true]
    split <;> omega

omit [X86] in
/-- Without empty tables, every table but the PML4 is on the way to a page. -/
theorem exists_page_of_tableAt {p : List (Fin 512)} {n : ℕ} (hno : NoEmpty s)
    (hp : tableAt s p = some n) (hne : p ≠ []) :
    ∃ P : Page, (∃ w, walk s P.path = some (pageLevel P.size, w)) ∧ p <+: P.path ∧ p ≠ P.path := by
  obtain ⟨r, hr⟩ := hno.walk_below hp hne
  obtain ⟨⟨l, w⟩, hw⟩ := Option.ne_none_iff_exists'.1 hr
  have hlen := length_of_tableAt hp
  have hfull := walk_take hw (List.replicate 4 0)
  have hfour : ((p ++ r ++ List.replicate 4 0).take 4).length = 4 := by
    rw [List.length_take, List.length_append, List.length_replicate]
    omega
  obtain ⟨a, hcan, hpath⟩ := exists_pagePath_eq hfour
  rw [← hpath] at hfull
  obtain ⟨P, ha, hP, -⟩ := exists_page_of_walk hcan hfull
  have hpre : p <+: pagePath a .base := by
    rw [hpath, List.append_assoc, List.take_append, List.take_of_length_le (by omega)]
    exact List.prefix_append _ _
  -- the walk does not end before the table
  have hnot : ¬ P.path <+: p := by
    rintro ⟨r', hr'⟩
    have hleaf : walk s (P.path ++ r') = _ := Radix.walk_append_of_some hP r'
    have hnone : walk s p = none := Radix.walk_of_tableAt hp
    rw [hr', hnone] at hleaf
    cases hleaf
  rcases List.prefix_or_prefix_of_prefix hpre ((Page.path_isPrefix_iff hcan).2 ha) with h | h
  · exact ⟨P, ⟨w, hP⟩, h, fun heq => hnot (heq ▸ List.prefix_rfl)⟩
  · exact absurd h hnot

/-- The tables there are are those that the pages need. -/
theorem tableAt_iff_needs (hno : NoEmpty s) {p : List (Fin 512)} :
    (∃ f, tableAt s p = some f) ↔ (spaceOf s).Needs p := by
  constructor
  · rintro ⟨f, hf⟩
    by_cases hne : p = []
    · exact Or.inl hne
    · obtain ⟨P, hP, hpre, hpne⟩ := exists_page_of_tableAt hno hf hne
      exact Or.inr ⟨P, pageLeaf_ne_none_iff.2 hP, hpre, hpne⟩
  · rintro (rfl | ⟨P, hP, hpre, hne⟩)
    · exact ⟨root s, tableAt_nil s⟩
    · obtain ⟨w, hw⟩ := pageLeaf_ne_none_iff.1 hP
      rw [← P.level_eq] at hw
      exact exists_tableAt_of_leaf (P.path_length ▸ by omega) hw hpre hne

/-- There are as many tables as the pages need. -/
theorem Tree.ncard_needs (hT : Tree init others s held) (hno : NoEmpty s) :
    {p | (spaceOf s).Needs p}.ncard = held.length := by
  have hpaths : {p | (spaceOf s).Needs p} = {p | ∃ f, tableAt s p = some f} := by
    ext p
    exact (tableAt_iff_needs hno).symm
  rw [hpaths, hT.ncard_paths]

/-- A page that is mapped takes the frames for the tables it needs, and no more. -/
theorem map_takes (h : Tidy init others s)
    (hrun : (map P.start phys flags P.size).run s = .ok (.ok ()) s') :
    s'.phys.pmm.freeFrames + (spaceOf s).missing P = s.phys.pmm.freeFrames := by
  obtain ⟨⟨held, hT⟩, hno⟩ := h
  obtain ⟨⟨held', hT'⟩, hmoved, ⟨-, -, hmod⟩, hphys, hM⟩ := map_of_ok hT hrun
  have hfree : (spaceOf s).Free P := by
    rw [free_iff_not_occupied hno, Occupied, not_or, not_not, not_not]
    exact hM.vacant
  have hcount := Space.ncard_needs_insert (x := (phys,
    X86.ptTruncate (leafEntry phys flags P.size))) hfree
  rw [← spaceOf_mapped hmod hphys hM hfree, hT.ncard_needs hno,
    hT'.ncard_needs (hmoved.noEmpty hno)] at hcount
  have hpool := hT'.ncard_pool
  rw [hmoved.pool_eq, hT.ncard_pool] at hpool
  omega

/-- A page that is unmapped gives back the frames of the tables that only it needed. -/
theorem unmap_gives (h : Tidy init others s)
    (hrun : (unmap P.start P.size).run s = .ok (.ok ()) s') :
    s'.phys.pmm.freeFrames = s.phys.pmm.freeFrames + (spaceOf s').missing P := by
  obtain ⟨⟨held, hT⟩, hno⟩ := h
  obtain ⟨r', t, held', hrun', hT', hmoved, hpost⟩ := unmap_run hT P.start P.size
  cases hrun.symm.trans hrun'
  obtain ⟨⟨w, hw⟩, hU⟩ := hpost
  rw [length_pagePath] at hw
  have hP : (spaceOf s).pages P = some (frameOf w * 4096, X86.ptTruncate w) :=
    pageLeaf_eq_some_iff.2 ⟨w, hw, rfl⟩
  have herase : spaceOf s' = (spaceOf s).erase P :=
    spaceOf_unmapped (pageLeaf_ne_none_iff.2 ⟨w, hw⟩) hU
  have hcount := Space.ncard_needs_insert (x := (frameOf w * 4096, X86.ptTruncate w))
    (Space.free_erase hP)
  rw [Space.insert_erase hP, ← herase, hT.ncard_needs hno, hT'.ncard_needs (hmoved.noEmpty hno)]
    at hcount
  have hpool := hT'.ncard_pool
  rw [hmoved.pool_eq, hT.ncard_pool] at hpool
  omega

/-- The tables that `map` finds missing. -/
theorem missing_eq (hno : NoEmpty s) (P : Page) : missing s P.path = (spaceOf s).missing P := by
  rw [missing_eq_ncard]
  unfold Space.missing
  congr 1
  ext p
  constructor
  · rintro ⟨hpre, hne, hnone⟩
    refine ⟨hpre, hne, fun hneed => ?_⟩
    obtain ⟨f, hf⟩ := (tableAt_iff_needs hno).2 hneed
    exact Option.some_ne_none f (hf.symm.trans hnone)
  · rintro ⟨hpre, hne, hnot⟩
    refine ⟨hpre, hne, Option.eq_none_iff_forall_ne_some.2 ?_⟩
    exact fun f hf => hnot ((tableAt_iff_needs hno).1 ⟨f, hf⟩)

/-- A free page cannot be mapped if and only if there are not enough frames for the tables that it
needs. -/
theorem map_outOfMemory_iff {r : Except MapError Unit} (h : Tidy init others s)
    (hmod : phys % P.size.bytes = 0) (hfree : (spaceOf s).Free P)
    (hrun : (map P.start phys flags P.size).run s = .ok r s') :
    r = .error .outOfMemory ↔ s.phys.pmm.freeFrames < (spaceOf s).missing P := by
  have htidy := h
  obtain ⟨⟨held, hT⟩, hno⟩ := h
  obtain ⟨-, -, hpost⟩ := map_of_ok hT hrun
  constructor
  · rintro rfl
    rw [← missing_eq hno]
    exact hpost.2.2.1
  · intro hlt
    cases r with
    | ok _ =>
        have htakes := map_takes htidy hrun
        omega
    | error e =>
        cases e with
        | outOfMemory => rfl
        | alreadyMapped => exact absurd hpost.2.1 ((free_iff_not_occupied hno).1 hfree)
        | nonCanonical => exact absurd (hpost.2.symm.trans P.canonical) Bool.false_ne_true
        | misaligned =>
            exact absurd (hpost.2.resolve_left (not_not_intro P.aligned)) (not_not_intro hmod)

end

end Prometheos.Vmm
