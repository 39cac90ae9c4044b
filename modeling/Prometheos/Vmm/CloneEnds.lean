import Prometheos.Vmm.Architecture
import Prometheos.Vmm.CloneUndo
import Prometheos.Vmm.Populated

/-!
# Cloning returns

`clone_table` and `free_cloned_table` follow the entries of tables to other tables, which the
kernel has not made itself. They return if each table they come to has a pointer in the direct
map: the copies, because their frames were free (`freeClonedTable_ends`), and the tables of the
source, if they do (`cloneTable_ends`).

The copy translates every address as the source does, with the same flags (`clone_preserves`).

A table of the source is copied once for each path to it. The copy fails exactly if there are
fewer free frames than such paths (`cloneTable_short`, `Copying.ncard_freeSet`), and that is when
`take_ownership` does (`takeOwnership_ends`).
-/

namespace Prometheos.Vmm

open Pmm

/-! ## `free_cloned_table` -/

/-- A call that frees tables of level `l` returns. -/
def FreesEnds (hhdm l : ℕ) (x : ℕ → Run Phys Unit) : Prop :=
  ∀ {d : ℕ} {t : Phys}, Inv t → DirectMap t → t.pmm.hhdmOffset = hhdm → Taken t l d →
    (∀ g ∈ tablesIn t.mem l d, g < t.pmm.totalFrames) → ∃ t', (x (d * frameSize)).run t = .ok () t'

section

variable {hhdm l d : ℕ} {child : ℕ → Run Phys Unit} {t : Phys}

/-- A turn of the loop returns. -/
theorem freeEntry_ends {i : ℕ} {u : Phys} (hends : l ≠ 0 → FreesEnds hhdm (l - 1) child)
    (hdirect : DirectMap t) (hh : t.pmm.hhdmOffset = hhdm) (hT : Taken t l d)
    (hlt : ∀ g ∈ tablesIn t.mem l d, g < t.pmm.totalFrames) (hi : i < 512)
    (hG : Grew t u (tablesBelow t.mem l d i)) :
    ∃ u', (freeEntry l child (blockPtr hhdm d) i).run u = .ok () u' := by
  unfold freeEntry
  rw [Prog.bind_of_ok (hT.readAt_entry hh hG hi)]
  split_ifs with habsent hleaf
  · exact ⟨u, rfl⟩
  · exact ⟨u, rfl⟩
  · -- the entry refers to a table, and the tree below it is still there
    have hl : l ≠ 0 := fun h => hleaf (isLeaf_iff.2 (Or.inl h))
    have hk : kind l (t.mem d i) = .table (frameOf (t.mem d i)) := by
      rw [kind_eq_table_iff, ← isLeaf_iff]
      refine ⟨?_, hleaf, rfl⟩
      rwa [and_one_eq_zero_iff, Bool.not_eq_false] at habsent
    obtain ⟨htables, hTc⟩ := hT.child hG hi hk
    rw [toNat_and_addrMask]
    apply hends hl hG.inv (hdirect.congr hG.total hG.hhdm) (hG.hhdm.trans hh) hTc
    intro g hg
    rw [htables] at hg
    obtain ⟨p, hp⟩ := hg
    rw [hG.total]
    exact hlt g ⟨⟨i, hi⟩ :: p, Radix.tableAt_cons_iff.2 ⟨_, hk, hp⟩⟩

/-- The loop over the entries returns. -/
theorem freeEntries_ends (hchild : l ≠ 0 → Frees hhdm (l - 1) child)
    (hends : l ≠ 0 → FreesEnds hhdm (l - 1) child) (hI : Inv t) (hdirect : DirectMap t)
    (hh : t.pmm.hhdmOffset = hhdm) (hT : Taken t l d)
    (hlt : ∀ g ∈ tablesIn t.mem l d, g < t.pmm.totalFrames) :
    ∃ t', (freeEntries l child (blockPtr hhdm d)).run t = .ok () t' ∧
      Grew t t' (tablesBelow t.mem l d 512) := by
  rw [freeEntries_eq]
  refine Prog.forRange_ok (I := fun i u => Grew t u (tablesBelow t.mem l d i))
    (grew_none_below hI) ?_
  intro i hi u hG
  obtain ⟨u', hrun⟩ := freeEntry_ends hends hdirect hh hT hlt hi hG
  exact ⟨u', hrun, freeEntry_ok hchild hh hT hi hG hrun⟩

/-- `free_cloned_table` returns. -/
theorem freeClonedTable_ends : ∀ l, FreesEnds hhdm l (freeClonedTable hhdm l) := by
  -- the loop, and then the table itself
  have hcall : ∀ {l : ℕ} {child : ℕ → Run Phys Unit} {d : ℕ} {t : Phys},
      (l ≠ 0 → Frees hhdm (l - 1) child) → (l ≠ 0 → FreesEnds hhdm (l - 1) child) → Inv t →
      DirectMap t → t.pmm.hhdmOffset = hhdm → Taken t l d →
      (∀ g ∈ tablesIn t.mem l d, g < t.pmm.totalFrames) →
      ∃ t', (do
        let table ← addU64 (d * frameSize) hhdm
        freeEntries l child table
        freePages (d * frameSize) 0 : Run Phys Unit).run t = .ok () t' := by
    intro l child d t hchild hends hI hdirect hh hT hlt
    have hd := hlt d (self_mem_tablesIn t.mem l d)
    have hptr : d * frameSize + hhdm < 2 ^ 64 := hh ▸ (hdirect.ptrsOk d hd).2
    obtain ⟨t₁, hloop, hbelow⟩ := freeEntries_ends hchild hends hI hdirect hh hT hlt
    have hreturn : Returnable t₁ 0 d := by
      refine ⟨Nat.zero_le _, one_dvd d, ?_, ?_⟩
      · rw [hbelow.total]
        exact hd
      · intro g hg
        rw [Dyadic.block_zero, Set.mem_singleton_iff] at hg
        subst hg
        rw [hbelow.free_eq]
        rintro (hfree | hin)
        · exact hT.notFree g (self_mem_tablesIn t.mem l g) hfree
        · exact hT.self_notMem 512 hin
    have hdirect₁ : DirectMap t₁ := hdirect.congr hbelow.total hbelow.hhdm
    obtain ⟨_, t', hfree, -⟩ := (freePages_spec hbelow.inv hreturn (hd.trans_le
      hdirect.total_le)).exists_ok (not_not_intro hdirect₁.ptrsOk)
    have hadd : (addU64 (d * frameSize) hhdm).run t = .ok (blockPtr hhdm d) t :=
      addU64_of_lt hptr t
    refine ⟨t', ?_⟩
    rw [Prog.bind_of_ok hadd, Prog.bind_of_ok hloop]
    exact hfree
  intro l
  induction l with
  | zero =>
      intro d t hI hdirect hh hT hlt
      exact hcall (fun h => absurd rfl h) (fun h => absurd rfl h) hI hdirect hh hT hlt
  | succ l ih =>
      intro d t hI hdirect hh hT hlt
      exact hcall (fun _ => freeClonedTable_ok l) (fun _ => ih) hI hdirect hh hT hlt

end

/-! ## `clone_table` -/

/-- A call that copies tables of level `l` returns, if the direct map reaches the source. -/
def ClonesEnds (m₀ : Mem) (F₀ : Set ℕ) (hhdm l : ℕ) (x : ℕ → Run Phys (Option ℕ)) : Prop :=
  ∀ {n : ℕ} {t : Phys}, (∀ g ∈ tablesIn m₀ l n, g ∉ F₀) →
    (∀ g ∈ tablesIn m₀ l n, blockPtr hhdm g < 2 ^ 64) → Inv t → DirectMap t →
    t.pmm.hhdmOffset = hhdm → t.pmm.totalFrames ≤ 2 ^ 40 → Source m₀ F₀ t →
    ∃ r t', (x (n * frameSize)).run t = .ok r t'

section

variable {m₀ : Mem} {F₀ : Set ℕ} {hhdm l n d : ℕ} {t₀ t : Phys}
  {child : ℕ → Run Phys (Option ℕ)}

/-- The loop over the entries returns. -/
theorem cloneEntries_ends (hchild : l ≠ 0 → Clones m₀ F₀ hhdm (l - 1) child)
    (hends : l ≠ 0 → ClonesEnds m₀ F₀ hhdm (l - 1) child)
    (hsrc : ∀ g ∈ tablesIn m₀ l n, g ∉ F₀)
    (hptr : ∀ g ∈ tablesIn m₀ l n, blockPtr hhdm g < 2 ^ 64) (hS : Source m₀ F₀ t₀)
    (hdirect : DirectMap t₀) (hhdm₀ : t₀.pmm.hhdmOffset = hhdm)
    (htotal : t₀.pmm.totalFrames ≤ 2 ^ 40) :
    ∀ {k i : ℕ} {t : Phys}, i + k = 512 → Copying m₀ l n t₀ t d i →
    ∃ done t', (cloneEntries l child (blockPtr hhdm n) (blockPtr hhdm d) k i).run t =
      .ok done t' := by
  intro k
  induction k with
  | zero =>
      intro i t _ _
      exact ⟨true, t, rfl⟩
  | succ k ih =>
      intro i t hik hC
      have hi : i < 512 := by omega
      have hh : t.pmm.hhdmOffset = hhdm := hC.hhdm.trans hhdm₀
      unfold cloneEntries
      rw [Prog.bind_of_ok (hC.readAt_source hsrc hS hhdm₀ hi)]
      cases hk : kind l (m₀ n i) with
      | absent =>
          rw [if_pos ((and_one_eq_zero_iff _).2 (kind_eq_absent_iff.1 hk))]
          exact ih (by omega) (hC.skip hi hk)
      | leaf =>
          obtain ⟨h0, hleaf⟩ := kind_eq_leaf_iff.1 hk
          have hwrite : (writeAt (blockPtr hhdm d + 8 * i) (m₀ n i)).run t =
              .ok () (putWord t d i (m₀ n i)) := writeAt_slot hh hi _
          rw [if_neg (present_ne h0), if_pos (isLeaf_iff.2 hleaf), Prog.bind_of_ok hwrite]
          exact ih (by omega) (hC.leaf hi hk)
      | table f =>
          obtain ⟨h0, hleaf, hf⟩ := kind_eq_table_iff.1 hk
          have hl : l ≠ 0 := fun h => hleaf (Or.inl h)
          have hbelow : ∀ g ∈ tablesIn m₀ (l - 1) f, g ∈ tablesIn m₀ l n := by
            intro g hg
            obtain ⟨q, hq⟩ := hg
            exact ⟨⟨i, hi⟩ :: q, Radix.tableAt_cons_iff.2 ⟨f, hk, hq⟩⟩
          have hsrcf : ∀ g ∈ tablesIn m₀ (l - 1) f, g ∉ F₀ := fun g hg => hsrc g (hbelow g hg)
          have htotalt : t.pmm.totalFrames ≤ 2 ^ 40 := hC.total.trans_le htotal
          rw [if_neg (present_ne h0), if_neg fun h => hleaf (isLeaf_iff.1 h), toNat_and_addrMask,
            hf]
          obtain ⟨r, t₁, hcall⟩ := hends hl hsrcf (fun g hg => hptr g (hbelow g hg)) hC.inv
            (hdirect.congr hC.total hC.hhdm) hh htotalt (hC.source hS)
          change (child (f * 4096)).run t = .ok r t₁ at hcall
          rw [Prog.bind_of_ok hcall]
          cases r with
          | none => exact ⟨false, t₁, rfl⟩
          | some r =>
              obtain ⟨c, rfl, hc, hsub⟩ :=
                hchild hl hsrcf hC.inv hh htotalt (hC.source hS) hcall
              have hwrite : (writeAt (blockPtr hhdm d + 8 * i) (copyEntry c (m₀ n i))).run t₁ =
                  .ok () (putWord t₁ d i (copyEntry c (m₀ n i))) :=
                writeAt_slot (hsub.hhdm.trans hh) hi _
              obtain ⟨done, t', hrest⟩ := ih (by omega) (hC.graft hi hk hc hsub)
              exact ⟨done, t', (Prog.bind_of_ok hwrite).trans hrest⟩

/-- A partial copy is freed. -/
theorem Copying.freeClonedTable_ends {t' : Phys} {i : ℕ} (hC : Copying m₀ l n t₀ t d i)
    (hU : Undone t t') (hI : Inv t₀) (hdirect : DirectMap t₀) :
    ∃ t'', (freeClonedTable t₀.pmm.hhdmOffset l (d * frameSize)).run t' = .ok () t'' := by
  obtain ⟨htables, hT⟩ := hC.taken hU
  have htotal : t'.pmm.totalFrames = t₀.pmm.totalFrames := hU.total.trans hC.total
  have hhdm : t'.pmm.hhdmOffset = t₀.pmm.hhdmOffset := hU.hhdm.trans hC.hhdm
  apply Vmm.freeClonedTable_ends l hU.inv (hdirect.congr htotal hhdm) hhdm hT
  intro g hg
  rw [htables] at hg
  rw [htotal]
  obtain ⟨L, hR, -⟩ := hI.rep
  exact hR.freeSet_lt (hC.fresh hg)

/-- A call returns if the calls for the level below do. -/
theorem cloneCall_ends (hchild : l ≠ 0 → Clones m₀ F₀ hhdm (l - 1) child)
    (hundo : l ≠ 0 → Undoes m₀ F₀ hhdm (l - 1) child)
    (hends : l ≠ 0 → ClonesEnds m₀ F₀ hhdm (l - 1) child) :
    ClonesEnds m₀ F₀ hhdm l (cloneCall hhdm l child) := by
  intro n t hsrc hptr hI hdirect hh htotal hS
  obtain ⟨frame, t₁, halloc, hpost⟩ := (allocPages_spec hI (Nat.zero_le maxOrder)).exists_ok
    (not_not_intro hdirect.ptrsOk)
  unfold cloneCall
  rw [Prog.bind_of_ok halloc]
  cases frame with
  | none => exact ⟨none, t₁, rfl⟩
  | some addr =>
      obtain ⟨d, rfl, htook⟩ := hpost
      have hd : d < t.pmm.totalFrames := by
        have hend := (htook.returnable hI (Nat.zero_le maxOrder)).in_range
        rwa [htook.total] at hend
      have hdst : blockPtr hhdm d < 2 ^ 64 := hh ▸ (hdirect.ptrsOk d hd).2
      have hsrcPtr : blockPtr hhdm n < 2 ^ 64 := hptr n (self_mem_tablesIn m₀ l n)
      have hC : Copying m₀ l n t { t₁ with mem := zeroMem t₁.mem d } d 0 :=
        Copying.start htook (hh ▸ hsrcPtr) (hh ▸ hdst)
      obtain ⟨done, t₃, hloop⟩ := cloneEntries_ends hchild hends hsrc hptr hS hdirect hh htotal
        (Nat.zero_add 512) hC
      have hzero : (zeroFrame (d * frameSize) hhdm).run t₁ =
          .ok () { t₁ with mem := zeroMem t₁.mem d } := zeroFrame_frame (htook.hhdm.trans hh) hdst
      have hsrcAdd : ∀ u : Phys, (addU64 (n * frameSize) hhdm).run u = .ok (blockPtr hhdm n) u :=
        addU64_of_lt hsrcPtr
      have hdstAdd : ∀ u : Phys, (addU64 (d * frameSize) hhdm).run u = .ok (blockPtr hhdm d) u :=
        addU64_of_lt hdst
      change ∃ r t', (cloneInto hhdm l child (n * frameSize) (d * frameSize)).run t₁ = .ok r t'
      unfold cloneInto
      rw [Prog.bind_of_ok hzero, Prog.bind_of_ok (hsrcAdd _), Prog.bind_of_ok (hdstAdd _),
        Prog.bind_of_ok hloop]
      cases done with
      | true => exact ⟨some (d * frameSize), t₃, rfl⟩
      | false =>
          obtain ⟨i, t₄, hC', hU⟩ := cloneEntries_failed hchild hundo hsrc hS hh htotal
            (Nat.zero_add 512) hC hloop
          obtain ⟨t', hfree⟩ := hC'.freeClonedTable_ends hU hI hdirect
          rw [hh] at hfree
          exact ⟨none, t', Prog.bind_of_ok hfree⟩

/-- `clone_table` returns. -/
theorem cloneTable_ends : ∀ l, ClonesEnds m₀ F₀ hhdm l (cloneTable hhdm l) := by
  intro l
  induction l with
  | zero =>
      exact cloneCall_ends (fun h => absurd rfl h) (fun h => absurd rfl h) fun h => absurd rfl h
  | succ l ih =>
      exact cloneCall_ends (fun _ => cloneTable_ok l) (fun _ => cloneTable_none l) fun _ => ih

end

/-! ## How many frames it takes -/

/-- The paths to the tables below a table, itself included. -/
def tablePaths (m : Mem) (l n : ℕ) : Set (List (Fin 512)) := Radix.paths kind (entries m) l n

theorem tablePaths_finite (m : Mem) (l n : ℕ) : (tablePaths m l n).Finite :=
  Radix.paths_finite kind_zero_ne_table

section

variable {m₀ : Mem} {F₀ : Set ℕ} {hhdm l n d i f : ℕ} {t₀ t t' : Phys}
  {child : ℕ → Run Phys (Option ℕ)}

/-- A copy has the paths of its source. -/
theorem Copy.tablePaths_eq {m m' : Mem} (h : Copy hhdm m m' l n d) :
    tablePaths m' l d = tablePaths m l n := by
  ext p
  constructor
  · rintro ⟨f', hp⟩
    obtain ⟨f, hf, -⟩ := h.tableAt_source hp
    exact ⟨f, hf⟩
  · rintro ⟨f, hp⟩
    obtain ⟨f', hf', -⟩ := h p f hp
    exact ⟨f', hf'⟩

/-- The paths of a partial copy are paths of the source, through the entries copied so far. -/
theorem Copying.mem_tablePaths (hC : Copying m₀ l n t₀ t d i) {p : List (Fin 512)}
    (hp : p ∈ tablePaths t.mem l d) :
    p ∈ tablePaths m₀ l n ∧ ∀ j q, p = j :: q → j.val < i := by
  cases p with
  | nil => exact ⟨⟨n, rfl⟩, fun j q h => by cases h⟩
  | cons j p =>
      obtain ⟨c, hk, hrest⟩ := Radix.cons_mem_paths_iff.1 hp
      change kind l (t.mem d j) = .table c at hk
      have hj : j.val < i := by
        by_contra hge
        rw [hC.rest j (not_lt.1 hge), kind_zero_word] at hk
        cases hk
      have hcopy := hC.copied j hj
      refine ⟨?_, fun j' q h => (List.cons.inj h).1 ▸ hj⟩
      cases hsrc : kind l (m₀ n j) with
      | absent =>
          rw [hcopy.absent hsrc, kind_zero_word] at hk
          cases hk
      | leaf =>
          rw [hcopy.leaf hsrc, hsrc] at hk
          cases hk
      | table f =>
          obtain ⟨c', hk', hbelow⟩ := hC.below j hj f hsrc
          cases hk.symm.trans hk'
          refine Radix.cons_mem_paths_iff.2 ⟨f, hsrc, ?_⟩
          change p ∈ tablePaths m₀ (l - 1) f
          rw [← hbelow.tablePaths_eq]
          exact hrest

/-- The copy is made of frames that were free. -/
theorem Copying.ncard_freeSet (hC : Copying m₀ l n t₀ t d i) (hI : Inv t₀) :
    (freeSet t).ncard + (tablePaths t.mem l d).ncard = (freeSet t₀).ncard := by
  obtain ⟨L, hR, -⟩ := hI.rep
  have hcount : (tablesIn t.mem l d).ncard = (tablePaths t.mem l d).ncard :=
    hC.unshared.ncard_tables
  rw [← hcount, hC.free_eq]
  exact Set.ncard_sdiff_add_ncard_of_subset hC.fresh hR.freeSet_finite

/-- If there are too few frames for a table that the source refers to, there are too few for the
source. -/
theorem Copying.short (hC : Copying m₀ l n t₀ t d i) (hI : Inv t₀) (hi : i < 512)
    (hk : kind l (m₀ n i) = .table f)
    (hshort : (freeSet t).ncard < (tablePaths m₀ (l - 1) f).ncard) :
    (freeSet t₀).ncard < (tablePaths m₀ l n).ncard := by
  have hcons : Function.Injective (List.cons (⟨i, hi⟩ : Fin 512)) := List.cons_injective
  have hdisj : Disjoint (tablePaths t.mem l d)
      (List.cons (⟨i, hi⟩ : Fin 512) '' tablePaths m₀ (l - 1) f) := by
    rw [Set.disjoint_right]
    rintro _ ⟨q, -, rfl⟩ hp
    exact lt_irrefl i ((hC.mem_tablePaths hp).2 _ q rfl)
  have hsub : tablePaths t.mem l d ∪ List.cons (⟨i, hi⟩ : Fin 512) '' tablePaths m₀ (l - 1) f ⊆
      tablePaths m₀ l n := by
    rintro p (hp | ⟨q, hq, rfl⟩)
    · exact (hC.mem_tablePaths hp).1
    · exact Radix.cons_mem_paths_iff.2 ⟨f, hk, hq⟩
  have hle := Set.ncard_le_ncard hsub (tablePaths_finite m₀ l n)
  rw [Set.ncard_union_eq hdisj (tablePaths_finite t.mem l d)
    ((tablePaths_finite m₀ (l - 1) f).image _), Set.ncard_image_of_injective _ hcons] at hle
  have hfree := hC.ncard_freeSet hI
  omega

/-- A call that copies tables of level `l` fails only if there are too few frames. -/
def FailsShort (m₀ : Mem) (F₀ : Set ℕ) (hhdm l : ℕ) (x : ℕ → Run Phys (Option ℕ)) : Prop :=
  ∀ {n : ℕ} {t t' : Phys}, (∀ g ∈ tablesIn m₀ l n, g ∉ F₀) → Inv t → t.pmm.hhdmOffset = hhdm →
    t.pmm.totalFrames ≤ 2 ^ 40 → Source m₀ F₀ t → (x (n * frameSize)).run t = .ok none t' →
    (freeSet t).ncard < (tablePaths m₀ l n).ncard

theorem cloneEntries_short (hchild : l ≠ 0 → Clones m₀ F₀ hhdm (l - 1) child)
    (hfails : l ≠ 0 → FailsShort m₀ F₀ hhdm (l - 1) child)
    (hsrc : ∀ g ∈ tablesIn m₀ l n, g ∉ F₀) (hI : Inv t₀) (hS : Source m₀ F₀ t₀)
    (hhdm₀ : t₀.pmm.hhdmOffset = hhdm) (htotal : t₀.pmm.totalFrames ≤ 2 ^ 40) :
    ∀ {k i : ℕ} {t t' : Phys}, i + k = 512 → Copying m₀ l n t₀ t d i →
    (cloneEntries l child (blockPtr hhdm n) (blockPtr hhdm d) k i).run t = .ok false t' →
    (freeSet t₀).ncard < (tablePaths m₀ l n).ncard := by
  intro k
  induction k with
  | zero =>
      intro i t t' _ _ hrun
      cases hrun
  | succ k ih =>
      intro i t t' hik hC hrun
      have hi : i < 512 := by omega
      rcases cloneEntries_step hchild hsrc hS hhdm₀ htotal hi hC hrun with
        ⟨t₁, hC₁, hrest⟩ | ⟨-, hl, f, hk, hbelow, hcall⟩
      · exact ih (by omega) hC₁ hrest
      · exact hC.short hI hi hk (hfails hl hbelow hC.inv (hC.hhdm.trans hhdm₀)
          (hC.total.trans_le htotal) (hC.source hS) hcall)

theorem cloneCall_short (hchild : l ≠ 0 → Clones m₀ F₀ hhdm (l - 1) child)
    (hfails : l ≠ 0 → FailsShort m₀ F₀ hhdm (l - 1) child) :
    FailsShort m₀ F₀ hhdm l (cloneCall hhdm l child) := by
  intro n t t' hsrc hI hh htotal hS hrun
  rcases cloneCall_run hI hrun with ⟨-, -, hempty⟩ | ⟨d, t₁, htook, -, hinto⟩
  · -- the table itself needs a frame
    rw [hempty, Set.ncard_empty, Set.ncard_pos (tablePaths_finite m₀ l n)]
    exact ⟨[], n, rfl⟩
  · obtain ⟨t₂, t₃, done, hC, hloop, ⟨-, hr, -⟩ | ⟨rfl, -, -⟩⟩ := cloneInto_run m₀ htook hh hinto
    · cases hr
    · exact cloneEntries_short hchild hfails hsrc hI hS hh htotal (Nat.zero_add 512) hC hloop

theorem cloneTable_short : ∀ l, FailsShort m₀ F₀ hhdm l (cloneTable hhdm l) := by
  intro l
  induction l with
  | zero => exact cloneCall_short (fun h => absurd rfl h) fun h => absurd rfl h
  | succ l ih => exact cloneCall_short (fun _ => cloneTable_ok l) fun _ => ih

end

/-! ## What the copy keeps -/

section

variable {m₀ : Mem} {n d : ℕ} {t₀ t : Phys}

/-- The processor finds the same leaves. -/
theorem Copying.archLeaf_eq (hC : Copying m₀ 3 n t₀ t d 512) (virt : ℕ) :
    archLeaf t.mem virt 3 d = archLeaf m₀ virt 3 n := by
  rw [archLeaf_eq_walk _ _ _ le_rfl, archLeaf_eq_walk _ _ _ le_rfl, hC.copy.walk_eq]

/-- If the source has no empty tables, neither has the copy. -/
theorem Copying.noEmpty (hC : Copying m₀ 3 n t₀ t d 512)
    (hno : ∀ p f, Radix.tableAt kind (entries m₀) 3 n p = some f → p ≠ [] →
      ∃ i : Fin 512, (m₀ f i).getLsbD 0 = true) : NoEmpty (vmAt t (d * frameSize)) := by
  intro p f' hp hne
  rw [tableAt_vmAt] at hp
  obtain ⟨f, hf, htwin⟩ := hC.copy.tableAt_source hp
  obtain ⟨i, hi⟩ := hno p f hf hne
  exact ⟨i, (htwin.copy i).present hi⟩

end

/-! ## What the copy means -/

/-- Cloning preserves meaning, whatever the source is, as long as none of its tables is
free: the copy translates every address as the source does, its entries that refer to
tables keep all bits but the address, and it is a tree in exactly the frames that the call
took. No table of the source is written. -/
theorem clone_preserves [X86] {s s' : Phys} {src dst : ℕ} (hI : Inv s)
    (htotal : s.pmm.totalFrames ≤ 2 ^ 40)
    (hsrc : ∀ p f, tableAt (vmAt s (src * frameSize)) p = some f → f ∉ freeSet s)
    (hrun : (cloneTable s.pmm.hhdmOffset 3 (src * frameSize)).run s = .ok (some dst) s') :
    (∀ virt, ∃ r, (translate virt).run (vmAt s' dst) = .ok r (vmAt s' dst) ∧
      (translate virt).run (vmAt s (src * frameSize)) = .ok r (vmAt s (src * frameSize)) ∧
      (translate virt).run (vmAt s' (src * frameSize)) = .ok r (vmAt s' (src * frameSize))) ∧
    (∀ p n f (i : Fin 512), tableAt (vmAt s (src * frameSize)) p = some n →
      kind (3 - p.length) (s.mem n i) = .table f →
      ∃ n' f', tableAt (vmAt s' dst) p = some n' ∧
        kind (3 - p.length) (s'.mem n' i) = .table f' ∧
        s'.mem n' i &&& ~~~addrMask = s.mem n i &&& ~~~addrMask) ∧
    (∀ p q f, tableAt (vmAt s' dst) p = some f → tableAt (vmAt s' dst) q = some f → p = q) ∧
    (∀ f, (∃ p, tableAt (vmAt s' dst) p = some f) ↔ f ∈ freeSet s ∧ f ∉ freeSet s') ∧
    freeSet s' ⊆ freeSet s ∧
    (∀ p q f, tableAt (vmAt s' dst) p = some f →
      tableAt (vmAt s (src * frameSize)) q ≠ some f) ∧
    (∀ p f, tableAt (vmAt s (src * frameSize)) p = some f → s'.mem f = s.mem f) := by
  simp only [tableAt_vmAt] at hsrc
  have hsource : ∀ g ∈ tablesIn s.mem 3 src, g ∉ freeSet s := by
    rintro g ⟨p, hp⟩
    exact hsrc p g hp
  rcases cloneTable_ok 3 hsource hI rfl htotal ⟨subset_rfl, fun _ _ => rfl⟩ hrun with
    ⟨d, rfl, -, hC⟩
  have hcopy := hC.copy
  have hkept : ∀ p f, Radix.tableAt kind (entries s.mem) 3 src p = some f → s'.mem f = s.mem f :=
    fun p f hp => hC.mem_eq f (hsrc p f hp)
  have hsrcPtr : ∀ p f, Radix.tableAt kind (entries s.mem) 3 src p = some f →
      blockPtr s.pmm.hhdmOffset f < 2 ^ 64 := by
    intro p f hp
    rcases hcopy p f hp with ⟨f', -, htwin⟩
    exact htwin.src_lt
  have hreadSrc : Readable (vmAt s (src * frameSize)) := readable_vmAt hsrcPtr
  have hreadSrc' : Readable (vmAt s' (src * frameSize)) := by
    refine readable_vmAt ?_
    intro p f hp
    -- the source is the same structure before and after the call
    rw [tableAt_of_kept hkept] at hp
    rw [hC.hhdm]
    exact hsrcPtr p f hp
  have hreadDst : Readable (vmAt s' (d * frameSize)) := by
    refine readable_vmAt ?_
    intro p f hp
    rcases hcopy.tableAt_source hp with ⟨f₀, -, htwin⟩
    rw [hC.hhdm]
    exact htwin.dst_lt
  simp only [tableAt_vmAt]
  refine ⟨?_, ?_, hC.unshared, ?_, hC.free_sub, ?_, hkept⟩
  · intro virt
    refine ⟨translation (vmAt s' (d * frameSize)) virt, translate_spec hreadDst virt, ?_, ?_⟩
    · rw [translate_spec hreadSrc virt]
      unfold translation
      rw [walk_vmAt, walk_vmAt, hcopy.walk_eq]
    · rw [translate_spec hreadSrc' virt]
      unfold translation
      rw [walk_vmAt, walk_vmAt, hcopy.walk_eq, walk_of_kept hkept]
  · intro p n f i hp hk
    exact hcopy.table_entry hp hk
  · intro f
    constructor
    · intro hf
      exact ⟨hC.fresh hf, hC.notFree hf⟩
    · rintro ⟨hf, hnot⟩
      rw [hC.free_eq] at hnot
      by_contra hno
      exact hnot ⟨hf, hno⟩
  · intro p q f hp hq
    exact hsrc q f hq (hC.fresh ⟨p, hp⟩)

/-- The tables of the manager can be copied if there are as many free frames. -/
theorem Tree.clone_returns {s : Vm} {init held : List ℕ} {others : List (ℕ × ℕ)}
    (hT : Tree init others s held) (henough : held.length ≤ s.phys.pmm.freeFrames) :
    ∃ d t, (cloneTable s.phys.pmm.hhdmOffset 3 (root s * frameSize)).run s.phys =
      .ok (some (d * frameSize)) t := by
  have hsrc : ∀ f ∈ tablesIn s.phys.mem 3 (root s), f ∉ freeSet s.phys := by
    rintro f ⟨p, hp⟩
    exact hT.notFree hp
  have hptr : ∀ f ∈ tablesIn s.phys.mem 3 (root s), blockPtr s.phys.pmm.hhdmOffset f < 2 ^ 64 := by
    rintro f ⟨p, hp⟩
    exact hT.hhdm_eq ▸ (hT.ptr_ok hp).2
  have hI := hT.holds.inv
  have hS : Source s.phys.mem (freeSet s.phys) s.phys := ⟨subset_rfl, fun _ _ => rfl⟩
  obtain ⟨r, t, hclone⟩ := cloneTable_ends 3 hsrc hptr hI hT.holds.direct rfl hT.total_le hS
  cases r with
  | none =>
      -- there is one path to each table, and the tables are the frames held
      have hshort := cloneTable_short 3 hsrc hI rfl hT.total_le hS hclone
      have hpaths : (tablePaths s.phys.mem 3 (root s)).ncard = held.length := hT.ncard_paths
      rw [hpaths, ← hI.count] at hshort
      exact absurd hshort (Nat.not_lt.2 henough)
  | some dst =>
      obtain ⟨d, rfl, -⟩ := cloneTable_ok 3 hsrc hI rfl hT.total_le hS hclone
      exact ⟨d, t, hclone⟩

set_option maxRecDepth 20000 in
/-- A page of 4 KiB and one of 1 GiB take four tables, and four frames are left. -/
theorem two_leaves_run : letI := X86.documented
    ∃ s₁, (addRange 1 8).run (freshPhys 9) = .ok () s₁ ∧ ∃ s₂,
      (allocPages 0).run s₁ = .ok (some (8 * frameSize)) s₂ ∧ s₂.pmm.totalFrames = 9 ∧ ∃ s,
      (map 0 0x5000 ⟨0x202, rfl⟩ .base).run (emptyVm s₂ 8) = .ok (.ok ()) s ∧ ∃ s',
      (map 0x40000000 0x80000000 ⟨0x102, rfl⟩ .huge).run s = .ok (.ok ()) s' ∧ root s' = 8 ∧
        (∃ held, holdings [8] s'.trace = some held ∧ held.length = 4) ∧
        s'.phys.pmm.freeFrames = 4 ∧ TranslatedBy s' 0 .base ∧ TranslatedBy s' 0x40000000 .huge ∧
        (translate 0x123).run (vmAt s'.phys (8 * frameSize)) =
          .ok (some (0x5123, ⟨0x203, rfl⟩)) (vmAt s'.phys (8 * frameSize)) ∧
        (translate 0x40000123).run (vmAt s'.phys (8 * frameSize)) =
          .ok (some (0x80000123, ⟨0x103, rfl⟩)) (vmAt s'.phys (8 * frameSize)) := by
  unfold addRange
  unfold addRange
  unfold addRange
  unfold addRange
  unfold addRange
  exact ⟨_, rfl, _, rfl, rfl, _, rfl, _, rfl, rfl, ⟨_, rfl, rfl⟩, rfl, ⟨_, rfl⟩, ⟨_, rfl⟩, rfl, rfl⟩

/-- Both pages are there in the copy, with their flags. -/
theorem clone_preserves_two_leaves : letI := X86.documented
    ∃ (s : Vm) (s' : Phys) (dst : ℕ), TranslatedBy s 0 .base ∧ TranslatedBy s 0x40000000 .huge ∧
      (cloneTable s.phys.pmm.hhdmOffset 3 (8 * frameSize)).run s.phys = .ok (some dst) s' ∧
      (translate 0x123).run (vmAt s' dst) =
        .ok (some (0x5123, ⟨0x203, rfl⟩)) (vmAt s' dst) ∧
      (translate 0x40000123).run (vmAt s' dst) =
        .ok (some (0x80000123, ⟨0x103, rfl⟩)) (vmAt s' dst) := by
  let := X86.documented
  obtain ⟨s₁, hseed, s₂, halloc, htotal, s, hbase, s', hhuge, hroot, ⟨held, hheld, hlen⟩, hfree,
    hpt, hpdpt, htrans, htrans'⟩ := two_leaves_run
  have hT₀ := (seeded_start (by decide) (by decide) hseed halloc htotal).tree
  obtain ⟨⟨held₁, hT₁⟩, -⟩ := map_of_ok hT₀ hbase
  obtain ⟨⟨held₂, hT⟩, -⟩ := map_of_ok hT₁ hhuge
  have henough : held₂.length ≤ s'.phys.pmm.freeFrames := by
    rw [Option.some.inj (hT.ledger.symm.trans hheld), hlen, hfree]
  obtain ⟨d, t, hclone⟩ := hT.clone_returns henough
  rw [hroot] at hclone
  have hsrc : ∀ p f, tableAt (vmAt s'.phys (8 * frameSize)) p = some f → f ∉ freeSet s'.phys := by
    intro p f hp
    rw [tableAt_vmAt, ← hroot] at hp
    exact hT.notFree hp
  have hsame := (clone_preserves hT.holds.inv hT.total_le hsrc hclone).1
  obtain ⟨r, hdst, hold, -⟩ := hsame 0x123
  obtain ⟨r', hdst', hold', -⟩ := hsame 0x40000123
  cases hold.symm.trans htrans
  cases hold'.symm.trans htrans'
  exact ⟨s', t, _, hpt, hpdpt, hclone, hdst, hdst'⟩

/-! ## `take_ownership` -/

/-- `take_ownership` returns. There is a frame for each path to a table of the bootloader, and the
tables are copied; or there is not, and everything is as before. -/
theorem takeOwnership_ends {c : Cpu} (hI : Inv c.phys) (hdirect : DirectMap c.phys)
    (htotal : c.phys.pmm.totalFrames ≤ 2 ^ 40)
    (hsrc : ∀ f ∈ tablesIn c.phys.mem 3 (frameOf c.cr3), f ∉ freeSet c.phys)
    (hptr : ∀ f ∈ tablesIn c.phys.mem 3 (frameOf c.cr3),
      blockPtr c.phys.pmm.hhdmOffset f < 2 ^ 64) :
    (c.phys.pmm.freeFrames < (tablePaths c.phys.mem 3 (frameOf c.cr3)).ncard ∧
      ∃ t, (takeOwnership c.phys.pmm.hhdmOffset).run c = .ok none ⟨t, c.cr3⟩ ∧
        Undone c.phys t) ∨
    ((tablePaths c.phys.mem 3 (frameOf c.cr3)).ncard ≤ c.phys.pmm.freeFrames ∧
      ∃ d t, (takeOwnership c.phys.pmm.hhdmOffset).run c =
          .ok (some (d * frameSize)) ⟨t, copyEntry d c.cr3⟩ ∧
        Copying c.phys.mem 3 (frameOf c.cr3) c.phys t d 512) := by
  have hS : Source c.phys.mem (freeSet c.phys) c.phys := ⟨subset_rfl, fun _ _ => rfl⟩
  obtain ⟨r, t, hclone⟩ := cloneTable_ends 3 hsrc hptr hI hdirect rfl htotal hS
  have hzoom : (Prog.zoom Cpu.phys (fun p s => { s with phys := p })
      (cloneTable c.phys.pmm.hhdmOffset 3 (frameOf c.cr3 * frameSize))).run c =
        .ok r ⟨t, c.cr3⟩ := Prog.zoom_of_ok hclone
  cases r with
  | none =>
      left
      have hrun : (takeOwnership c.phys.pmm.hhdmOffset).run c = .ok none ⟨t, c.cr3⟩ := by
        unfold takeOwnership
        rw [Prog.gets_bind, toNat_and_addrMask]
        exact Prog.bind_of_ok hzoom
      have hshort := cloneTable_short 3 hsrc hI rfl htotal hS hclone
      rw [← hI.count] at hshort
      exact ⟨hshort, t, hrun, cloneTable_none 3 hsrc hI rfl htotal hS hclone⟩
  | some dst =>
      right
      obtain ⟨d, rfl, -, hC⟩ := cloneTable_ok 3 hsrc hI rfl htotal hS hclone
      have hrun : (takeOwnership c.phys.pmm.hhdmOffset).run c =
          .ok (some (d * frameSize)) ⟨t, copyEntry d c.cr3⟩ := by
        unfold takeOwnership
        rw [Prog.gets_bind, toNat_and_addrMask]
        exact Prog.bind_of_ok hzoom
      have hcount := hC.ncard_freeSet hI
      rw [hC.copy.tablePaths_eq, ← hI.count] at hcount
      exact ⟨by omega, d, t, hrun, hC⟩

end Prometheos.Vmm
