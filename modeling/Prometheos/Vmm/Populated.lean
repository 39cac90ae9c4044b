import Prometheos.Vmm.Exact

/-!
# No empty tables

`map` refuses a page if it finds a table where the page's leaf would go. That a table there
means that something is mapped below it is a property of whole runs: no table but the PML4 is
ever empty between two calls (`NoEmpty`). `map` creates a table only on the way to a leaf that
it then stores, or takes it back; `unmap` gives back a table that it emptied, and then looks at
the table above it. The one table that may be empty moves down with the first and up with the
second (`Moved`).

* `occupied_iff`: without empty tables, a page is occupied if and only if one of its addresses
  is translated;
* `alreadyMapped_iff`: in every run `map` says `AlreadyMapped` exactly for these pages.
-/

namespace Prometheos.Vmm

open Pmm

/-- Every table but the PML4 has a present entry. -/
def NoEmpty (s : Vm) : Prop :=
  ∀ p n, tableAt s p = some n → p ≠ [] → ∃ i : Fin 512, (s.phys.mem n i).getLsbD 0 = true

section

variable {s s' : Vm} {p q : List (Fin 512)} {n : ℕ}

theorem Moved.noEmpty (h : Moved s [] s' []) (hno : NoEmpty s) : NoEmpty s' := by
  have hpop : Populated s [] := fun q n hq hne _ => hno q n hq hne
  intro q n hq hne
  exact h.populated hpop q n hq hne hne

/-- In the words of the library. -/
theorem NoEmpty.entry (hno : NoEmpty s) (p : List (Fin 512)) (n : ℕ) (hp : tableAt s p = some n)
    (hne : p ≠ []) : ∃ i, kind (3 - p.length) (entries s.phys.mem n i) ≠ .absent := by
  rcases hno p n hp hne with ⟨i, hi⟩
  refine ⟨i, ?_⟩
  intro habs
  have hbit : (s.phys.mem n i).getLsbD 0 = false := kind_eq_absent_iff.1 habs
  exact Bool.false_ne_true (hbit.symm.trans hi)

/-- There is a leaf below every table. -/
theorem NoEmpty.walk_below (hno : NoEmpty s) (hp : tableAt s p = some n) (hne : p ≠ []) :
    ∃ r, walk s (p ++ r) ≠ none :=
  Radix.exists_walk_below kind_zero_ne_table hno.entry hp hne

/-! ## Addresses below a path -/

/-- The paths below a page are those of its addresses. -/
theorem exists_inPage {virt : ℕ} {size : PageSize} (hal : virt % size.bytes = 0)
    {r : List (Fin 512)} (hr : r.length = pageLevel size) :
    ∃ a, InPage virt size a ∧ pagePath a .base = pagePath virt size ++ r := by
  cases size with
  | base =>
      cases r with
      | nil => exact ⟨virt, ⟨le_refl virt, Nat.lt_add_of_pos_right (by decide)⟩, rfl⟩
      | cons i r => cases hr
  | large =>
      rcases List.length_eq_one_iff.1 hr with ⟨i, rfl⟩
      change virt % 2 ^ 21 = 0 at hal
      have hi := i.isLt
      refine ⟨virt + i.val * 2 ^ 12, ⟨Nat.le_add_right _ _, ?_⟩, ?_⟩
      · change _ < virt + 2 ^ 21
        omega
      · simp only [pagePath, List.cons_append, List.nil_append, List.cons.injEq, idx, Fin.ext_iff,
          and_true]
        omega
  | huge =>
      rcases List.length_eq_two.1 hr with ⟨i, j, rfl⟩
      change virt % 2 ^ 30 = 0 at hal
      have hi := i.isLt
      have hj := j.isLt
      refine ⟨virt + i.val * 2 ^ 21 + j.val * 2 ^ 12, ⟨by omega, ?_⟩, ?_⟩
      · change _ < virt + 2 ^ 30
        omega
      · simp only [pagePath, List.cons_append, List.nil_append, List.cons.injEq, idx, Fin.ext_iff,
          and_true]
        omega

/-- A leaf below a path is met on every way down to it, which needs no more than four indices. -/
theorem walk_take {x : ℕ × Word} (h : walk s q = some x) (r : List (Fin 512)) :
    walk s ((q ++ r).take 4) = some x := by
  rcases x with ⟨l, w⟩
  rcases Radix.exists_of_walk h with ⟨p, i, rest, n, rfl, hp, hk, rfl, rfl⟩
  have hlen := length_of_tableAt hp
  have hsplit : (p ++ i :: rest ++ r).take 4 = p ++ i :: (rest ++ r).take (3 - p.length) := by
    rw [List.append_assoc, List.cons_append, List.take_append, List.take_of_length_le (by omega),
      show 4 - p.length = 3 - p.length + 1 by omega, List.take_succ_cons]
  rw [hsplit]
  exact walk_append_leaf hp hk _

end

section

variable [X86] {s : Vm} {virt phys : ℕ} {size : PageSize}

/-- A leaf below the path of a page translates one of its addresses. -/
theorem exists_translation {r : List (Fin 512)} (hcan : isCanonical virt = true)
    (hal : virt % size.bytes = 0) (h : walk s (pagePath virt size ++ r) ≠ none) :
    ∃ a, InPage virt size a ∧ translation s a ≠ none := by
  rcases Option.ne_none_iff_exists'.1 h with ⟨x, hx⟩
  -- the path is cut off, or filled up, to the length of the path of an address
  have hlen : (pagePath virt size).length + pageLevel size = 4 := by
    have hle := pagePath_length_le virt size
    have hlevel := length_pagePath virt size
    omega
  have hfull := walk_take hx (List.replicate (pageLevel size) 0)
  have hr : ((r ++ List.replicate (pageLevel size) 0).take (pageLevel size)).length =
      pageLevel size := by
    rw [List.length_take, List.length_append, List.length_replicate]
    omega
  rw [List.append_assoc, ← hlen, List.take_length_add_append] at hfull
  rcases exists_inPage hal hr with ⟨a, ha, hpath⟩
  refine ⟨a, ha, ?_⟩
  unfold translation
  rw [if_pos (ha.isCanonical hcan hal), hpath, hfull]
  exact Option.some_ne_none _

/-- Without empty tables, a page is occupied if one of its addresses is translated. -/
theorem occupied_iff (hno : NoEmpty s) (hcan : isCanonical virt = true)
    (hal : virt % size.bytes = 0) :
    Occupied s (pagePath virt size) ↔ ∃ a, InPage virt size a ∧ translation s a ≠ none := by
  constructor
  · rintro (hwalk | htable)
    · -- the page, or a larger one around it, is mapped
      refine exists_translation (r := []) hcan hal ?_
      rw [List.append_nil]
      exact hwalk
    · -- there is a table with a leaf below it
      rcases Option.ne_none_iff_exists'.1 htable with ⟨n, hn⟩
      have hne : pagePath virt size ≠ [] := by
        cases size with
        | base => exact List.cons_ne_nil _ _
        | large => exact List.cons_ne_nil _ _
        | huge => exact List.cons_ne_nil _ _
      rcases hno.walk_below hn hne with ⟨r, hr⟩
      exact exists_translation hcan hal hr
  · rintro ⟨a, ha, htrans⟩
    have hcan' := ha.isCanonical hcan hal
    rcases (isPrefix_iff_inPage hcan hcan' hal).2 ha with ⟨r, hr⟩
    by_contra hvacant
    rw [Occupied, not_or, not_not, not_not] at hvacant
    unfold translation at htrans
    rw [if_pos hcan', ← hr, walk, Radix.walk_append_of_none hvacant.1 hvacant.2 r] at htrans
    exact htrans rfl

/-- `map` says `AlreadyMapped` exactly for the pages that are occupied. -/
theorem MapPost.alreadyMapped_iff_occupied {flags : PTFlags} {r : Except MapError Unit} {s' : Vm}
    (h : MapPost s virt phys flags size r s') (hacc : Accepted virt phys size) :
    r = .error .alreadyMapped ↔ Occupied s (pagePath virt size) := by
  cases r with
  | ok _ =>
      refine iff_of_false (by simp) ?_
      rw [Occupied, not_or, not_not, not_not]
      exact h.2.2.vacant
  | error e =>
      cases e with
      | alreadyMapped => exact iff_of_true rfl h.2.1
      | outOfMemory => exact iff_of_false (by simp) h.2.1.2
      | nonCanonical => exact absurd (h.2.symm.trans hacc.1) Bool.false_ne_true
      | misaligned =>
          rcases h.2 with hv | hp
          · exact absurd hacc.2.1 hv
          · exact absurd hacc.2.2 hp

theorem alreadyMapped_iff_occupied {init held : List ℕ} {others : List (ℕ × ℕ)}
    (hT : Tree init others s held) (flags : PTFlags) (hacc : Accepted virt phys size) :
    (∃ s', (map virt phys flags size).run s = .ok (.error .alreadyMapped) s') ↔
      Occupied s (pagePath virt size) := by
  rcases map_run hT virt phys flags size with
    ⟨r, s', held', hrun, -, -, hpost⟩ | ⟨hvac, -, e, s', hstop⟩
  · rw [← hpost.alreadyMapped_iff_occupied hacc, hrun]
    simp
  · -- a page that is free, with an address that is too wide
    rw [hstop]
    exact iff_of_false (by simp) hvac.2

end

/-! ## Frames for tables -/

section

variable {init held held' : List ℕ} {others : List (ℕ × ℕ)} {s s' : Vm}

theorem Tree.ncard_tables (hT : Tree init others s held) :
    {f | ∃ p, tableAt s p = some f}.ncard = held.length := by
  have heq : {f | ∃ p, tableAt s p = some f} = {f | f ∈ held} := by
    ext f
    exact (hT.mem_iff f).symm
  rw [heq, ← List.toFinset_card_of_nodup hT.held_nodup, ← Set.ncard_coe_finset,
    List.coe_toFinset]

/-- There is one path to each table. -/
theorem Tree.ncard_paths (hT : Tree init others s held) :
    {p | ∃ f, tableAt s p = some f}.ncard = held.length := by
  have hunshared : Radix.Unshared kind (entries s.phys.mem) 3 (root s) := hT.unshared
  rw [← hT.ncard_tables]
  exact hunshared.ncard_tables.symm

/-- A frame of the pool is free or a table, and not both. -/
theorem Tree.ncard_pool (hT : Tree init others s held) :
    (pool s).ncard = s.phys.pmm.freeFrames + held.length := by
  rcases hT.holds.inv.rep with ⟨L, hR, -⟩
  have hunion : pool s = freeSet s.phys ∪ {f | ∃ p, tableAt s p = some f} := rfl
  have hdisj : Disjoint (freeSet s.phys) {f | ∃ p, tableAt s p = some f} := by
    rw [Set.disjoint_right]
    rintro f ⟨p, hp⟩
    exact hT.notFree hp
  have hfinite : {f | ∃ p, tableAt s p = some f}.Finite := by
    refine held.finite_toSet.subset ?_
    rintro f ⟨p, hp⟩
    exact hT.mem_of_tableAt hp
  rw [hunion, Set.ncard_union_eq hdisj hR.freeSet_finite hfinite, hT.ncard_tables,
    hT.holds.inv.count]

/-- The tables that are missing, by their paths. -/
theorem missing_eq_ncard (s : Vm) (p : List (Fin 512)) :
    missing s p = {q | q <+: p ∧ q ≠ p ∧ tableAt s q = none}.ncard := by
  have himage : {q | q <+: p ∧ q ≠ p ∧ tableAt s q = none} =
      (fun k => p.take k) '' {k | k < p.length ∧ tableAt s (p.take k) = none} := by
    ext q
    constructor
    · rintro ⟨hpre, hne, hnone⟩
      have htake : p.take q.length = q := (List.prefix_iff_eq_take.1 hpre).symm
      have hlt : q.length < p.length :=
        lt_of_le_of_ne hpre.length_le fun hlen => hne (hpre.eq_of_length hlen)
      exact ⟨q.length, ⟨hlt, by rw [htake, hnone]⟩, htake⟩
    · rintro ⟨k, ⟨hk, hnone⟩, rfl⟩
      refine ⟨List.take_prefix k _, ?_, hnone⟩
      intro heq
      have hlen := congrArg List.length heq
      rw [List.length_take] at hlen
      omega
  have hinj : Set.InjOn (fun k => p.take k) {k | k < p.length ∧ tableAt s (p.take k) = none} := by
    rintro k ⟨hk, -⟩ k' ⟨hk', -⟩ heq
    have hlen := congrArg List.length heq
    simp only [List.length_take] at hlen
    omega
  have hset : {k | k < p.length ∧ tableAt s (p.take k) = none} =
      ((Finset.range p.length).filter fun k => tableAt s (p.take k) = none : Finset ℕ) := by
    ext k
    simp
  unfold missing
  rw [himage, hinj.ncard_image, hset, Set.ncard_coe_finset, List.countP_eq_length_filter]
  rfl

/-- There are tables on the way to a leaf. -/
theorem exists_tableAt_of_leaf {p q : List (Fin 512)} {w : Word} (hlen : p.length ≤ 4)
    (hw : walk s p = some (4 - p.length, w)) (hpre : q <+: p) (hne : q ≠ p) :
    ∃ f, tableAt s q = some f := by
  rcases hpre with ⟨r, rfl⟩
  rcases List.eq_nil_or_concat r with rfl | ⟨r', i, rfl⟩
  · exact absurd (List.append_nil q).symm hne
  · rw [List.concat_eq_append, ← List.append_assoc, List.length_append, List.length_singleton]
      at hw hlen
    rw [show 4 - ((q ++ r').length + 1) = 3 - (q ++ r').length by omega] at hw
    rcases leaf_of_walk (by omega) hw with ⟨n, hn, -⟩
    rcases Radix.tableAt_of_append hn with ⟨f, hf, -⟩
    exact ⟨f, hf⟩

/-- A page that is mapped took a frame for each table that was missing. -/
theorem Mapped.missing_le {p : List (Fin 512)} {leaf : Word} (hM : Mapped s s' p leaf)
    (hmoved : Moved s [] s' []) (hlen : p.length ≤ 4) (hT : Tree init others s held)
    (hT' : Tree init others s' held') : missing s p ≤ s.phys.pmm.freeFrames := by
  have hleaf : walk s' p = some (4 - p.length, leaf) := by
    have hbelow := hM.below []
    rwa [List.append_nil] at hbelow
  have hfinite : {q | ∃ f, tableAt s' q = some f}.Finite :=
    Radix.paths_finite (m := entries s'.phys.mem) kind_zero_ne_table
  -- the tables from before and those that were missing are tables now
  have hsub : {q | q <+: p ∧ q ≠ p ∧ tableAt s q = none} ∪ {q | ∃ f, tableAt s q = some f} ⊆
      {q | ∃ f, tableAt s' q = some f} := by
    rintro q (⟨hpre, hne, -⟩ | ⟨f, hf⟩)
    · exact exists_tableAt_of_leaf hlen hleaf hpre hne
    · exact ⟨f, hM.tables q f hf⟩
  have hdisj : Disjoint {q | q <+: p ∧ q ≠ p ∧ tableAt s q = none}
      {q | ∃ f, tableAt s q = some f} := by
    rw [Set.disjoint_left]
    rintro q ⟨-, -, hnone⟩ ⟨f, hf⟩
    exact Option.some_ne_none f (hf.symm.trans hnone)
  have hcount := Set.ncard_le_ncard hsub hfinite
  rw [Set.ncard_union_eq hdisj (hfinite.subset (Set.subset_union_left.trans hsub))
    (hfinite.subset (Set.subset_union_right.trans hsub)), hT.ncard_paths, hT'.ncard_paths,
    ← missing_eq_ncard] at hcount
  have hpool := hT'.ncard_pool
  rw [hmoved.pool_eq, hT.ncard_pool] at hpool
  omega

theorem length_pagePath_le (virt : ℕ) (size : PageSize) : (pagePath virt size).length ≤ 4 := by
  cases size with
  | base => exact le_refl 4
  | large => exact (by decide : 3 ≤ 4)
  | huge => exact (by decide : 2 ≤ 4)

/-- `map` succeeds exactly for a free page if there are frames for its tables. -/
theorem map_succeeds_iff [X86] {virt phys : ℕ} {size : PageSize} (hT : Tree init others s held)
    (hphys : phys < 2 ^ 52) (flags : PTFlags) :
    (∃ s', (map virt phys flags size).run s = .ok (.ok ()) s') ↔
      Vacant s virt phys size ∧ missing s (pagePath virt size) ≤ s.phys.pmm.freeFrames := by
  constructor
  · rintro ⟨s', hrun⟩
    rcases map_of_ok hT hrun with ⟨⟨held', hT'⟩, hmoved, hacc, -, hM⟩
    refine ⟨⟨hacc, ?_⟩, hM.missing_le hmoved (length_pagePath_le virt size) hT hT'⟩
    rw [Occupied, not_or, not_not, not_not]
    exact hM.vacant
  · rintro ⟨⟨hacc, hvacant⟩, hle⟩
    rcases map_spec hT virt hphys flags size with ⟨r, s', held', hrun, -, hpost⟩
    cases r with
    | ok u => exact ⟨s', hrun⟩
    | error e =>
        cases e with
        | alreadyMapped => exact absurd hpost.2.1 hvacant
        | outOfMemory => exact absurd hpost.2.2.1 (Nat.not_lt.2 hle)
        | nonCanonical => exact absurd (hpost.2.symm.trans hacc.1) Bool.false_ne_true
        | misaligned =>
            rcases hpost.2 with hvirt | hphys'
            · exact absurd hacc.2.1 hvirt
            · exact absurd hacc.2.2 hphys'

end

/-! ## Turns of the range calls -/

section

variable [X86] {s s' : Vm} {virt phys n i : ℕ} {flags : PTFlags} {size : PageSize}

/-- A turn of `map_range`: the page is mapped, or the pages before it are unmapped. -/
theorem mapPages_turn {r : Except MapError Unit}
    (hrun : (mapPages virt phys flags size (n + 1) i).run s = .ok r s') :
    ∃ res t, (map (virt + i * size.bytes) (phys + i * size.bytes) flags size).run s = .ok res t ∧
      (res = .ok () ∧ (mapPages virt phys flags size n (i + 1)).run t = .ok r s' ∨
        ∃ e, res = .error e ∧ r = .error e ∧ (unmapBefore virt size i).run t = .ok () s') := by
  unfold mapPages at hrun
  rcases Prog.bind_ok_iff.1 hrun with ⟨step, s₁, hmul, hrun₁⟩
  rcases mulU64_ok_iff.1 hmul with ⟨-, rfl, rfl⟩
  rcases Prog.bind_ok_iff.1 hrun₁ with ⟨v, s₂, hv, hrun₂⟩
  rcases addU64_ok_iff.1 hv with ⟨-, rfl, rfl⟩
  rcases Prog.bind_ok_iff.1 hrun₂ with ⟨p, s₃, hp, hrun₃⟩
  rcases addU64_ok_iff.1 hp with ⟨-, rfl, rfl⟩
  rcases Prog.bind_ok_iff.1 hrun₃ with ⟨res, t, hcall, hrest⟩
  refine ⟨res, t, hcall, ?_⟩
  cases res with
  | ok _ => exact Or.inl ⟨rfl, hrest⟩
  | error e =>
      rcases Prog.bind_ok_iff.1 hrest with ⟨_, t', hundo, hpure⟩
      cases hpure
      exact Or.inr ⟨e, rfl, rfl, hundo⟩

/-- A turn of `unmap_range`. -/
theorem unmapPages_turn {r : Except UnmapError Unit}
    (hrun : (unmapPages virt size (n + 1) i).run s = .ok r s') :
    ∃ res t, (unmap (virt + i * size.bytes) size).run s = .ok res t ∧
      (res = .ok () ∧ (unmapPages virt size n (i + 1)).run t = .ok r s' ∨
        ∃ e, res = .error e ∧ r = .error e ∧ s' = t) := by
  unfold unmapPages at hrun
  rcases Prog.bind_ok_iff.1 hrun with ⟨step, s₁, hmul, hrun₁⟩
  rcases mulU64_ok_iff.1 hmul with ⟨-, rfl, rfl⟩
  rcases Prog.bind_ok_iff.1 hrun₁ with ⟨v, s₂, hv, hrun₂⟩
  rcases addU64_ok_iff.1 hv with ⟨-, rfl, rfl⟩
  rcases Prog.bind_ok_iff.1 hrun₂ with ⟨res, t, hcall, hrest⟩
  refine ⟨res, t, hcall, ?_⟩
  cases res with
  | ok _ => exact Or.inl ⟨rfl, hrest⟩
  | error e =>
      cases hrest
      exact Or.inr ⟨e, rfl, rfl, rfl⟩

/-- The rollback of `map_range` is a loop of `unmap` calls. -/
theorem unmapBefore_of_ok {I : ℕ → Vm → Prop} {k : ℕ} {u : Unit}
    (hrun : (unmapBefore virt size k).run s = .ok u s') (hinit : I 0 s)
    (hstep : ∀ j < k, ∀ r t t', I j t → (unmap (virt + j * size.bytes) size).run t = .ok r t' →
      I (j + 1) t') : I k s' := by
  unfold unmapBefore at hrun
  refine Prog.forRange_of_ok hrun hinit ?_
  intro j hj t t' hI hturn
  rcases Prog.bind_ok_iff.1 hturn with ⟨back, t₁, hmul, hturn₁⟩
  rcases mulU64_ok_iff.1 hmul with ⟨-, rfl, rfl⟩
  rcases Prog.bind_ok_iff.1 hturn₁ with ⟨v, t₂, hv, hturn₂⟩
  rcases addU64_ok_iff.1 hv with ⟨-, rfl, rfl⟩
  rcases Prog.bind_ok_iff.1 hturn₂ with ⟨res, t₃, hcall, hpure⟩
  cases hpure
  exact hstep j hj _ _ _ hI hcall

variable {I : Vm → Prop}

/-- What every `map` and every `unmap` keeps is kept by `map_range`. -/
theorem mapPages_invariant
    (hmap : ∀ v p r t t', I t → (map v p flags size).run t = .ok r t' → I t')
    (hunmap : ∀ v r t t', I t → (unmap v size).run t = .ok r t' → I t') :
    ∀ {n i : ℕ} {s s' : Vm} {r : Except MapError Unit}, I s →
    (mapPages virt phys flags size n i).run s = .ok r s' → I s' := by
  intro n
  induction n with
  | zero =>
      intro i s s' r hI hrun
      cases hrun
      exact hI
  | succ n ih =>
      intro i s s' r hI hrun
      rcases mapPages_turn hrun with ⟨res, t, hcall, ⟨-, hrest⟩ | ⟨e, -, -, hundo⟩⟩
      · exact ih (hmap _ _ _ _ _ hI hcall) hrest
      · exact unmapBefore_of_ok (I := fun _ t => I t) hundo (hmap _ _ _ _ _ hI hcall)
          fun _ _ _ _ _ => hunmap _ _ _ _

/-- What every `unmap` keeps is kept by `unmap_range`. -/
theorem unmapPages_invariant
    (hunmap : ∀ v r t t', I t → (unmap v size).run t = .ok r t' → I t') :
    ∀ {n i : ℕ} {s s' : Vm} {r : Except UnmapError Unit}, I s →
    (unmapPages virt size n i).run s = .ok r s' → I s' := by
  intro n
  induction n with
  | zero =>
      intro i s s' r hI hrun
      cases hrun
      exact hI
  | succ n ih =>
      intro i s s' r hI hrun
      rcases unmapPages_turn hrun with ⟨res, t, hcall, ⟨-, hrest⟩ | ⟨e, -, -, rfl⟩⟩
      · exact ih (hunmap _ _ _ _ hI hcall) hrest
      · exact hunmap _ _ _ _ hI hcall

end

/-! ## Runs -/

section

variable [X86] {init held : List ℕ} {others : List (ℕ × ℕ)}

/-- The ownership invariant, without empty tables. -/
def Tidy (init : List ℕ) (others : List (ℕ × ℕ)) (s : Vm) : Prop :=
  (∃ held, Tree init others s held) ∧ NoEmpty s

theorem Tidy.map {v p : ℕ} {flags : PTFlags} {size : PageSize} {r : Except MapError Unit}
    {t t' : Vm} (h : Tidy init others t) (hrun : (map v p flags size).run t = .ok r t') :
    Tidy init others t' := by
  rcases h with ⟨⟨held, hT⟩, hno⟩
  rcases map_of_ok hT hrun with ⟨htree, hM, -⟩
  exact ⟨htree, hM.noEmpty hno⟩

theorem Tidy.unmap {v : ℕ} {size : PageSize} {r : Except UnmapError Unit} {t t' : Vm}
    (h : Tidy init others t) (hrun : (unmap v size).run t = .ok r t') :
    Tidy init others t' := by
  rcases h with ⟨⟨held, hT⟩, hno⟩
  rcases unmap_run hT v size with ⟨r', u, held', hrun', hT', hM, -⟩
  cases hrun.symm.trans hrun'
  exact ⟨⟨held', hT'⟩, hM.noEmpty hno⟩

theorem World.Step.tidy {w w' : World} (h : w.Step w') (hs : Tidy init w.others w.vm) :
    Tidy init w'.others w'.vm := by
  rcases h with h | h
  · cases h with
    | map virt phys flags size hrun => exact hs.map hrun
    | unmap virt size hrun => exact hs.unmap hrun
    | mapRange virt phys pages flags size hrun =>
        exact mapPages_invariant (I := Tidy init w.others) (fun _ _ _ _ _ h hrun => h.map hrun)
          (fun _ _ _ _ h hrun => h.unmap hrun) hs hrun
    | unmapRange virt pages size hrun =>
        exact unmapPages_invariant (I := Tidy init w.others) (fun _ _ _ _ h hrun => h.unmap hrun)
          hs hrun
  · cases h with
    | step hstep =>
        rcases hs with ⟨⟨held, hT⟩, hno⟩
        refine ⟨⟨held, hT.foreign hstep⟩, ?_⟩
        -- the other clients write to no table
        intro q n hq hne
        rw [hT.foreign_tableAt hstep] at hq
        rcases hno q n hq hne with ⟨i, hi⟩
        exact ⟨i, (congrFun (hT.foreign_mem hstep hq) i).symm ▸ hi⟩

end

/-- In every run no table but the PML4 is empty, and `map` returns `AlreadyMapped` if and only
if one of the addresses of the page is translated. It does return if the physical address fits
into an entry. -/
theorem alreadyMapped_iff [X86] {init : List ℕ} {w₀ w : World} (hstart : World.Start init w₀)
    (hno : NoEmpty w₀.vm) (hrun : Relation.ReflTransGen World.Step w₀ w) :
    NoEmpty w.vm ∧ ∀ (virt phys : ℕ) (flags : PTFlags) (size : PageSize),
      isCanonical virt = true → virt % size.bytes = 0 → phys % size.bytes = 0 →
      ((∃ s', (map virt phys flags size).run w.vm = .ok (.error .alreadyMapped) s') ↔
        ∃ a, virt ≤ a ∧ a < virt + size.bytes ∧
          ∃ x, (translate a).run w.vm = .ok (some x) w.vm) ∧
      (phys < 2 ^ 52 → ∃ r s', (map virt phys flags size).run w.vm = .ok r s') := by
  have hstep : ∀ t t' : World, t.Step t' → Tidy init t.others t.vm →
      Tidy init t'.others t'.vm := fun _ _ hstep hs => hstep.tidy hs
  have htidy : Tidy init w.others w.vm :=
    reach_invariant hstep hrun ⟨⟨init, hstart.tree⟩, hno⟩
  rcases htidy with ⟨⟨held, hT⟩, hno'⟩
  refine ⟨hno', ?_⟩
  intro virt phys flags size hcan hal hmod
  constructor
  · rw [alreadyMapped_iff_occupied hT flags ⟨hcan, hal, hmod⟩, occupied_iff hno' hcan hal]
    refine exists_congr fun a => ?_
    rw [InPage, and_assoc, translate_spec hT.readable a, Option.ne_none_iff_exists']
    simp
  · intro hphys
    rcases map_spec hT virt hphys flags size with ⟨r, s', -, hmap, -⟩
    exact ⟨r, s', hmap⟩

theorem noEmpty_emptyVm (s : Phys) (f : ℕ) : NoEmpty (emptyVm s f) := by
  intro p n hp hne
  exact absurd (tableAt_emptyVm.1 hp).1 hne

/-- Four frames hold the tables of a page at address 0, and none is left. -/
theorem huge_over_base_run : letI := X86.documented
    ∃ s₁, (addRange 1 4).run (freshPhys 5) = .ok () s₁ ∧ ∃ s₂,
      (allocPages 0).run s₁ = .ok (some (4 * frameSize)) s₂ ∧ s₂.pmm.totalFrames = 5 ∧ ∃ s',
      (map 0 0 ⟨flagRW, rfl⟩ .base).run (emptyVm s₂ 4) = .ok (.ok ()) s' ∧
        ∃ x, (translate 0).run s' = .ok (some x) s' := by
  unfold addRange
  unfold addRange
  unfold addRange
  unfold addRange
  exact ⟨_, rfl, _, rfl, rfl, _, rfl, _, rfl⟩

/-- A huge page over the page at address 0 is refused as `AlreadyMapped`. -/
theorem alreadyMapped_huge_over_base : letI := X86.documented
    ∃ s s' : Vm, NoEmpty s ∧
      (map 0 0 ⟨flagRW, rfl⟩ .huge).run s = .ok (.error .alreadyMapped) s' := by
  let := X86.documented
  rcases huge_over_base_run with ⟨s₁, hseed, s₂, halloc, htotal, s, hmap, x, hx⟩
  have hstart := seeded_start (by decide) (by decide) hseed halloc htotal
  have hstep : Relation.ReflTransGen World.Step ⟨emptyVm s₂ 4, []⟩ ⟨s, []⟩ :=
    Relation.ReflTransGen.single (Or.inl (.map 0 0 ⟨flagRW, rfl⟩ .base hmap))
  rcases alreadyMapped_iff hstart (noEmpty_emptyVm s₂ 4) hstep with ⟨hno, hall⟩
  rcases (hall 0 0 ⟨flagRW, rfl⟩ .huge (by decide) (by decide) (by decide)).1.2
    ⟨0, le_refl 0, by decide, x, hx⟩ with ⟨s', hrun⟩
  exact ⟨s, s', hno, hrun⟩

end Prometheos.Vmm
