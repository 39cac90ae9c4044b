import Mathlib.Algebra.Notation.Indicator
import Prometheos.Vmm.Clone

/-!
# A clone that fails

When `clone_table` runs out of frames, `free_cloned_table` finds the tables of the partial copy
again from its entries, and frees them. The frames that are free are then those from before the
call (`cloneTable_none`).

To say that every frame was given back once, the code of `clone_table` is run on the state of
the manager, whose trace records the frames that are allocated and freed (`Traced.cloneTable`).
Without the trace these are the runs of `cloneTable` (`cloneTable_follows`). A call that fails
has freed what it had allocated, each frame once, and nothing else (`failed_clone_leaks_nothing`).
-/

namespace Prometheos.Vmm

open Pmm
open Radix (Unshared)

/-! ## `free_cloned_table` -/

/-- The tables below the first `i` entries of the table `d`. -/
def tablesBelow (m : Mem) (l d i : ℕ) : Set ℕ :=
  {g | ∃ j : Fin 512, j.val < i ∧ ∃ c, kind l (m d j) = .table c ∧ g ∈ tablesIn m (l - 1) c}

theorem mem_tablesIn_iff {m : Mem} {l d g : ℕ} :
    g ∈ tablesIn m l d ↔ g = d ∨ g ∈ tablesBelow m l d 512 := by
  constructor
  · rintro ⟨p, hp⟩
    cases p with
    | nil => exact Or.inl (Option.some.inj hp).symm
    | cons j p =>
        rcases Radix.tableAt_cons_iff.1 hp with ⟨c, hk, hrest⟩
        exact Or.inr ⟨j, j.isLt, c, hk, p, hrest⟩
  · rintro (rfl | ⟨j, -, c, hk, p, hp⟩)
    · exact self_mem_tablesIn m l g
    · exact ⟨j :: p, Radix.tableAt_cons_iff.2 ⟨c, hk, hp⟩⟩

/-- The entry `i` adds the tables below it, if it refers to one. -/
theorem tablesBelow_succ {m : Mem} {l d i : ℕ} (hi : i < 512) {F : Set ℕ}
    (hF : ∀ g, g ∈ F ↔ ∃ c, kind l (m d i) = .table c ∧ g ∈ tablesIn m (l - 1) c) :
    tablesBelow m l d (i + 1) = tablesBelow m l d i ∪ F := by
  ext g
  constructor
  · rintro ⟨j, hj, hbelow⟩
    by_cases hji : j.val < i
    · exact Or.inl ⟨j, hji, hbelow⟩
    · have heq : j.val = i := by omega
      rw [heq] at hbelow
      exact Or.inr ((hF g).2 hbelow)
  · rintro (⟨j, hj, hbelow⟩ | hg)
    · exact ⟨j, by omega, hbelow⟩
    · exact ⟨⟨i, hi⟩, Nat.lt_succ_self i, (hF g).1 hg⟩

/-- A tree of tables, none of which is free. -/
structure Taken (t : Phys) (l d : ℕ) : Prop where
  unshared : Unshared kind (entries t.mem) l d
  notFree : ∀ g ∈ tablesIn t.mem l d, g ∉ freeSet t

section

variable {t u : Phys} {l d i c : ℕ}

theorem Taken.self_notMem (hT : Taken t l d) (i : ℕ) : d ∉ tablesBelow t.mem l d i := by
  rintro ⟨j, -, c, hk, p, hp⟩
  cases hT.unshared [] (j :: p) d rfl (Radix.tableAt_cons_iff.2 ⟨c, hk, hp⟩)

/-- While the tables below other entries are freed, the tree below an entry stays. -/
theorem Taken.child (hT : Taken t l d) (hG : Grew t u (tablesBelow t.mem l d i)) (hi : i < 512)
    (hk : kind l (t.mem d i) = .table c) :
    tablesIn u.mem (l - 1) c = tablesIn t.mem (l - 1) c ∧ Taken u (l - 1) c := by
  have hpath : ∀ {p g}, Radix.tableAt kind (entries t.mem) (l - 1) c p = some g →
      Radix.tableAt kind (entries t.mem) l d (⟨i, hi⟩ :: p) = some g :=
    fun hp => Radix.tableAt_cons_iff.2 ⟨c, hk, hp⟩
  have hnot : ∀ g ∈ tablesIn t.mem (l - 1) c, g ∉ freeSet u := by
    rintro g ⟨p, hp⟩ hfree
    rw [hG.free_eq] at hfree
    rcases hfree with hfree | ⟨j, hj, c', hk', p', hp'⟩
    · exact hT.notFree g ⟨_, hpath hp⟩ hfree
    · -- it would be reached along two paths
      have hsame := hT.unshared _ (j :: p') g (hpath hp) (Radix.tableAt_cons_iff.2 ⟨c', hk', hp'⟩)
      cases hsame
      exact lt_irrefl i hj
  have hkept : ∀ p g, Radix.tableAt kind (entries t.mem) (l - 1) c p = some g →
      u.mem g = t.mem g := fun p g hp => hG.mem_eq g (hnot g ⟨p, hp⟩)
  have htables : tablesIn u.mem (l - 1) c = tablesIn t.mem (l - 1) c := by
    ext g
    exact exists_congr fun p => by rw [tableAt_of_kept hkept]
  refine ⟨htables, ?_, ?_⟩
  · intro a b g ha hb
    rw [tableAt_of_kept hkept] at ha hb
    exact (List.cons.inj (hT.unshared _ _ g (hpath ha) (hpath hb))).2
  · rw [htables]
    exact hnot

end

/-- What a call that frees tables of level `l` does: it frees the tree. -/
def Frees (hhdm l : ℕ) (x : ℕ → Run Phys Unit) : Prop :=
  ∀ {d : ℕ} {t t' : Phys}, Inv t → t.pmm.hhdmOffset = hhdm → Taken t l d →
    (x (d * frameSize)).run t = .ok () t' → Grew t t' (tablesIn t.mem l d)

section

variable {hhdm l d : ℕ} {child : ℕ → Run Phys Unit} {t t' : Phys}

/-- A turn of the loop of `free_cloned_table`. -/
def freeEntry (level : ℕ) (child : ℕ → Run Phys Unit) (table i : ℕ) : Run Phys Unit := do
  let entry ← readAt (table + 8 * i)
  if entry &&& 1 = 0 then pure ()
  else if isLeaf level entry then pure ()
  else child (entry &&& addrMask).toNat

theorem freeEntries_eq (level : ℕ) (child : ℕ → Run Phys Unit) (table : ℕ) :
    freeEntries level child table = Prog.forRange 512 (freeEntry level child table) := by
  unfold freeEntries
  rfl

/-- The table itself is not freed before its entries are read. -/
theorem Taken.readAt_entry {i : ℕ} {u : Phys} (hT : Taken t l d) (hh : t.pmm.hhdmOffset = hhdm)
    (hG : Grew t u (tablesBelow t.mem l d i)) (hi : i < 512) :
    (readAt (blockPtr hhdm d + 8 * i)).run u = .ok (t.mem d i) u := by
  have hentry : u.mem d i = t.mem d i := by
    refine congrFun (hG.mem_eq d ?_) i
    rw [hG.free_eq]
    rintro (hfree | hbelow)
    · exact hT.notFree d (self_mem_tablesIn t.mem l d) hfree
    · exact hT.self_notMem i hbelow
  rw [← hentry]
  exact readAt_slot (hG.hhdm.trans hh) hi

/-- A turn frees the tables below its entry. -/
theorem freeEntry_ok {i : ℕ} {u u' : Phys} (hchild : l ≠ 0 → Frees hhdm (l - 1) child)
    (hh : t.pmm.hhdmOffset = hhdm) (hT : Taken t l d) (hi : i < 512)
    (hG : Grew t u (tablesBelow t.mem l d i))
    (hbody : (freeEntry l child (blockPtr hhdm d) i).run u = .ok () u') :
    Grew t u' (tablesBelow t.mem l d (i + 1)) := by
  unfold freeEntry at hbody
  rw [Prog.bind_of_ok (hT.readAt_entry hh hG hi)] at hbody
  cases hk : kind l (t.mem d i) with
  | absent =>
      rw [if_pos ((and_one_eq_zero_iff _).2 (kind_eq_absent_iff.1 hk))] at hbody
      cases hbody
      rw [tablesBelow_succ hi (F := ∅) (by simp [hk]), Set.union_empty]
      exact hG
  | leaf =>
      rcases kind_eq_leaf_iff.1 hk with ⟨h0, hleaf⟩
      rw [if_neg (present_ne h0), if_pos (isLeaf_iff.2 hleaf)] at hbody
      cases hbody
      rw [tablesBelow_succ hi (F := ∅) (by simp [hk]), Set.union_empty]
      exact hG
  | table c =>
      rcases kind_eq_table_iff.1 hk with ⟨h0, hleaf, hc⟩
      have hl : l ≠ 0 := fun h => hleaf (Or.inl h)
      rw [if_neg (present_ne h0), if_neg fun h => hleaf (isLeaf_iff.1 h), toNat_and_addrMask,
        hc] at hbody
      rcases hT.child hG hi hk with ⟨htables, hTc⟩
      have hgrew := hchild hl hG.inv (hG.hhdm.trans hh) hTc hbody
      rw [htables] at hgrew
      rw [tablesBelow_succ hi (F := tablesIn t.mem (l - 1) c) (by simp [hk])]
      exact hG.trans hgrew

/-- Before the first turn. -/
theorem grew_none_below (hI : Inv t) : Grew t t (tablesBelow t.mem l d 0) := by
  have hempty : tablesBelow t.mem l d 0 = ∅ := by
    rw [Set.eq_empty_iff_forall_notMem]
    rintro g ⟨j, hj, -⟩
    exact Nat.not_lt_zero _ hj
  rw [hempty]
  exact Grew.refl hI

/-- The loop over the entries frees the tables below them. -/
theorem freeEntries_ok (hchild : l ≠ 0 → Frees hhdm (l - 1) child) (hI : Inv t)
    (hh : t.pmm.hhdmOffset = hhdm) (hT : Taken t l d)
    (hrun : (freeEntries l child (blockPtr hhdm d)).run t = .ok () t') :
    Grew t t' (tablesBelow t.mem l d 512) := by
  rw [freeEntries_eq] at hrun
  refine Prog.forRange_of_ok (I := fun i u => Grew t u (tablesBelow t.mem l d i)) hrun
    (grew_none_below hI) ?_
  intro i hi u u' hG hbody
  exact freeEntry_ok hchild hh hT hi hG hbody

/-- `free_cloned_table` frees the tables of the tree. -/
theorem freeClonedTable_ok : ∀ l, Frees hhdm l (freeClonedTable hhdm l) := by
  -- the loop, and then the table itself
  have hcall : ∀ {l : ℕ} {child : ℕ → Run Phys Unit} {d : ℕ} {t t' : Phys},
      (l ≠ 0 → Frees hhdm (l - 1) child) → Inv t → t.pmm.hhdmOffset = hhdm → Taken t l d →
      (do
        let table ← addU64 (d * frameSize) hhdm
        freeEntries l child table
        freePages (d * frameSize) 0 : Run Phys Unit).run t = .ok () t' →
      Grew t t' (tablesIn t.mem l d) := by
    intro l child d t t' hchild hI hh hT hrun
    rcases Prog.bind_ok_iff.1 hrun with ⟨table, t₁, hadd, hrun⟩
    rcases addU64_ok_iff.1 hadd with ⟨hlt, htable, rfl⟩
    change table = blockPtr hhdm d at htable
    subst htable
    rcases Prog.bind_ok_iff.1 hrun with ⟨_, t₂, hloop, hfree⟩
    have hbelow := freeEntries_ok hchild hI hh hT hloop
    rcases freePages_ok hbelow.inv (by omega) hfree with ⟨f, hf, -, hself⟩
    have hfd : f = d := (Nat.eq_of_mul_eq_mul_right (by decide : 0 < frameSize) hf).symm
    rw [hfd, Dyadic.block_zero] at hself
    have hset : tablesIn t₁.mem l d = tablesBelow t₁.mem l d 512 ∪ {d} := by
      ext g
      rw [mem_tablesIn_iff, Set.mem_union, Set.mem_singleton_iff, or_comm]
    rw [hset]
    exact hbelow.trans hself
  intro l
  induction l with
  | zero =>
      intro d t t' hI hh hT hrun
      exact hcall (fun h => absurd rfl h) hI hh hT hrun
  | succ l ih =>
      intro d t t' hI hh hT hrun
      exact hcall (fun _ => ih) hI hh hT hrun

end

/-! ## A failed `clone_table` -/

/-- Every frame that was free is free again, and the others were not written. -/
structure Undone (t t' : Phys) : Prop where
  inv : Inv t'
  hhdm : t'.pmm.hhdmOffset = t.pmm.hhdmOffset
  total : t'.pmm.totalFrames = t.pmm.totalFrames
  free_eq : freeSet t' = freeSet t
  mem_eq : ∀ g, g ∉ freeSet t → t'.mem g = t.mem g

theorem Undone.refl {t : Phys} (hI : Inv t) : Undone t t := ⟨hI, rfl, rfl, rfl, fun _ _ => rfl⟩

/-- What a call that copies tables of level `l` does when it fails. -/
def Undoes (m₀ : Mem) (F₀ : Set ℕ) (hhdm l : ℕ) (x : ℕ → Run Phys (Option ℕ)) : Prop :=
  ∀ {n : ℕ} {t t' : Phys}, (∀ g ∈ tablesIn m₀ l n, g ∉ F₀) → Inv t → t.pmm.hhdmOffset = hhdm →
    t.pmm.totalFrames ≤ 2 ^ 40 → Source m₀ F₀ t → (x (n * frameSize)).run t = .ok none t' →
    Undone t t'

section

variable {m₀ : Mem} {F₀ : Set ℕ} {hhdm l n d i : ℕ} {t₀ t : Phys}
  {child : ℕ → Run Phys (Option ℕ)}

/-- The partial copy is a tree of its own, also after a call that was undone. -/
theorem Copying.taken {t' : Phys} (hC : Copying m₀ l n t₀ t d i) (hU : Undone t t') :
    tablesIn t'.mem l d = tablesIn t.mem l d ∧ Taken t' l d := by
  have hkept : ∀ p g, Radix.tableAt kind (entries t.mem) l d p = some g → t'.mem g = t.mem g :=
    fun p g hp => hU.mem_eq g (hC.notFree ⟨p, hp⟩)
  have htables : tablesIn t'.mem l d = tablesIn t.mem l d := by
    ext g
    exact exists_congr fun p => by rw [tableAt_of_kept hkept]
  refine ⟨htables, ?_, ?_⟩
  · intro a b g ha hb
    rw [tableAt_of_kept hkept] at ha hb
    exact hC.unshared a b g ha hb
  · intro g hg
    rw [htables] at hg
    rw [hU.free_eq]
    exact hC.notFree hg

/-- The loop that fails leaves a partial copy. -/
theorem cloneEntries_failed (hchild : l ≠ 0 → Clones m₀ F₀ hhdm (l - 1) child)
    (hundo : l ≠ 0 → Undoes m₀ F₀ hhdm (l - 1) child) (hsrc : ∀ g ∈ tablesIn m₀ l n, g ∉ F₀)
    (hS : Source m₀ F₀ t₀) (hhdm₀ : t₀.pmm.hhdmOffset = hhdm)
    (htotal : t₀.pmm.totalFrames ≤ 2 ^ 40) :
    ∀ {k i : ℕ} {t t' : Phys}, i + k = 512 → Copying m₀ l n t₀ t d i →
    (cloneEntries l child (blockPtr hhdm n) (blockPtr hhdm d) k i).run t = .ok false t' →
    ∃ i₁ t₁, Copying m₀ l n t₀ t₁ d i₁ ∧ Undone t₁ t' := by
  intro k
  induction k with
  | zero =>
      intro i t t' _ _ hrun
      cases hrun
  | succ k ih =>
      intro i t t' hi hC hrun
      rcases cloneEntries_step hchild hsrc hS hhdm₀ htotal (by omega) hC hrun with
        ⟨t₁, hC₁, hrest⟩ | ⟨-, hl, f, -, hbelow, hcall⟩
      · exact ih (by omega) hC₁ hrest
      · refine ⟨i, t, hC, ?_⟩
        exact hundo hl hbelow hC.inv (hC.hhdm.trans hhdm₀) (hC.total.trans_le htotal)
          (hC.source hS) hcall

/-- A partial copy that is freed leaves nothing behind. -/
theorem Copying.undo {t₁ t₂ t' : Phys} (hC : Copying m₀ l n t₀ t₁ d i) (hU : Undone t₁ t₂)
    (hG : Grew t₂ t' (tablesIn t₂.mem l d)) : Undone t₀ t' := by
  have htables := (hC.taken hU).1
  have hfree : freeSet t' = freeSet t₀ := by
    rw [hG.free_eq, hU.free_eq, hC.free_eq, htables]
    exact Set.sdiff_union_of_subset hC.fresh
  refine ⟨hG.inv, (hG.hhdm.trans hU.hhdm).trans hC.hhdm, (hG.total.trans hU.total).trans hC.total,
    hfree, ?_⟩
  intro g hg
  have h₁ : g ∉ freeSet t₁ := fun h => hg (hC.free_sub h)
  rw [hG.mem_eq g (hfree ▸ hg), hU.mem_eq g h₁, hC.mem_eq g hg]

/-- A call that fails is undone, if the calls for the level below are. -/
theorem cloneCall_undoes (hchild : l ≠ 0 → Clones m₀ F₀ hhdm (l - 1) child)
    (hundo : l ≠ 0 → Undoes m₀ F₀ hhdm (l - 1) child) :
    Undoes m₀ F₀ hhdm l (cloneCall hhdm l child) := by
  intro n t t' hsrc hI hh htotal hS hrun
  rcases cloneCall_run hI hrun with ⟨-, rfl, -⟩ | ⟨d, t₁, htook, -, hinto⟩
  · exact Undone.refl hI
  · rcases cloneInto_run m₀ htook hh hinto with
      ⟨t₂, t₃, done, hC, hloop, ⟨-, hr, -⟩ | ⟨rfl, -, hfree⟩⟩
    · cases hr
    · rcases cloneEntries_failed hchild hundo hsrc hS hh htotal (Nat.zero_add 512) hC hloop with
        ⟨i, t₄, hC', hU⟩
      have hhdm₃ : t₃.pmm.hhdmOffset = hhdm := (hU.hhdm.trans hC'.hhdm).trans hh
      exact hC'.undo hU (freeClonedTable_ok l hU.inv hhdm₃ (hC'.taken hU).2 hfree)

/-- A `clone_table` that fails is undone. -/
theorem cloneTable_none : ∀ l, Undoes m₀ F₀ hhdm l (cloneTable hhdm l) := by
  intro l
  induction l with
  | zero => exact cloneCall_undoes (fun h => absurd rfl h) fun h => absurd rfl h
  | succ l ih => exact cloneCall_undoes (fun _ => cloneTable_ok l) fun _ => ih

end

/-! ## The same code with a trace -/

namespace Traced

/-- `freeEntries` with a trace. -/
def freeEntries (level : ℕ) (child : ℕ → Run Vm Unit) (table : ℕ) : Run Vm Unit :=
  Prog.forRange 512 fun i => do
    let entry ← readEntry (table + 8 * i)
    if entry &&& 1 = 0 then pure ()
    else if isLeaf level entry then pure ()
    else child (entry &&& addrMask).toNat

/-- `freeClonedTable` with a trace. -/
def freeClonedTable (hhdm : ℕ) : ℕ → ℕ → Run Vm Unit
  | 0, phys => do
      let table ← addU64 phys hhdm
      freeEntries 0 (fun _ => pure ()) table
      freeFrame phys
  | level + 1, phys => do
      let table ← addU64 phys hhdm
      freeEntries (level + 1) (freeClonedTable hhdm level) table
      freeFrame phys

/-- `cloneEntries` with a trace. -/
def cloneEntries (level : ℕ) (child : ℕ → Run Vm (Option ℕ)) (src dst : ℕ) :
    ℕ → ℕ → Run Vm Bool
  | 0, _ => pure true
  | n + 1, i => do
      let entry ← readEntry (src + 8 * i)
      if entry &&& 1 = 0 then cloneEntries level child src dst n (i + 1)
      else if isLeaf level entry then do
        writeEntry (dst + 8 * i) entry
        cloneEntries level child src dst n (i + 1)
      else do
        let newChild ← child (entry &&& addrMask).toNat
        match newChild with
        | none => pure false
        | some c => do
            writeEntry (dst + 8 * i) ((BitVec.ofNat 64 c &&& addrMask) ||| (entry &&& ~~~addrMask))
            cloneEntries level child src dst n (i + 1)

/-- `cloneInto` with a trace. -/
def cloneInto (hhdm level : ℕ) (child : ℕ → Run Vm (Option ℕ)) (srcPhys dstFrame : ℕ) :
    Run Vm (Option ℕ) := do
  onPhys (zeroFrame dstFrame hhdm)
  let src ← addU64 srcPhys hhdm
  let dst ← addU64 dstFrame hhdm
  let done ← cloneEntries level child src dst 512 0
  if done then pure (some dstFrame)
  else do
    freeClonedTable hhdm level dstFrame
    pure none

/-- `cloneCall` with a trace. -/
def cloneCall (hhdm level : ℕ) (child : ℕ → Run Vm (Option ℕ)) (srcPhys : ℕ) :
    Run Vm (Option ℕ) := do
  let frame ← allocFrame
  match frame with
  | none => pure none
  | some dstFrame => cloneInto hhdm level child srcPhys dstFrame

/-- `cloneTable` with a trace. -/
def cloneTable (hhdm : ℕ) : ℕ → ℕ → Run Vm (Option ℕ)
  | 0, srcPhys => cloneCall hhdm 0 (fun _ => pure none) srcPhys
  | level + 1, srcPhys => cloneCall hhdm (level + 1) (cloneTable hhdm level) srcPhys

/-! ## Without the trace -/

theorem addU64_follows (a b : ℕ) :
    Prog.Follows Vm.phys (addU64 a b : Run Vm ℕ) (addU64 a b : Run Phys ℕ) :=
  (Prog.follows_require _ _).bind fun _ => Prog.follows_pure _

theorem note_follows (e : Event) : Prog.Follows Vm.phys (note e) (pure ()) :=
  Prog.follows_update fun _ => rfl

theorem onPhys_follows {α : Type} (x : Run Phys α) : Prog.Follows Vm.phys (onPhys x) x :=
  Prog.follows_zoom (fun _ _ => rfl) x

theorem writeEntry_follows (p : ℕ) (w : Word) :
    Prog.Follows Vm.phys (writeEntry p w) (writeAt p w) :=
  (onPhys_follows _).bind_pure fun _ => Prog.follows_update fun _ => rfl

theorem allocFrame_follows : Prog.Follows Vm.phys allocFrame (allocPages 0) := by
  refine (onPhys_follows _).bind_pure ?_
  intro frame
  cases frame with
  | none => exact Prog.follows_pure none
  | some addr => exact (note_follows _).bind fun _ => Prog.follows_pure (some addr)

theorem freeFrame_follows (addr : ℕ) : Prog.Follows Vm.phys (freeFrame addr) (freePages addr 0) :=
  (onPhys_follows _).bind_pure fun _ => note_follows _

theorem freeEntries_follows {level table : ℕ} {child : ℕ → Run Vm Unit}
    {child' : ℕ → Run Phys Unit} (h : ∀ a, Prog.Follows Vm.phys (child a) (child' a)) :
    Prog.Follows Vm.phys (freeEntries level child table) (Vmm.freeEntries level child' table) := by
  refine Prog.follows_forRange ?_ 512
  intro i
  refine (onPhys_follows _).bind ?_
  intro entry
  split
  · exact Prog.follows_pure ()
  · split
    · exact Prog.follows_pure ()
    · exact h _

theorem freeClonedTable_follows (hhdm : ℕ) : ∀ level phys,
    Prog.Follows Vm.phys (freeClonedTable hhdm level phys)
      (Vmm.freeClonedTable hhdm level phys) := by
  intro level
  induction level with
  | zero =>
      intro phys
      refine (addU64_follows _ _).bind fun table => ?_
      have hloop : Prog.Follows Vm.phys (freeEntries 0 (fun _ => pure ()) table)
          (Vmm.freeEntries 0 (fun _ => pure ()) table) :=
        freeEntries_follows fun _ => Prog.follows_pure ()
      exact hloop.bind fun _ => freeFrame_follows phys
  | succ level ih =>
      intro phys
      refine (addU64_follows _ _).bind fun table => ?_
      exact (freeEntries_follows ih).bind fun _ => freeFrame_follows phys

theorem cloneEntries_follows {level src dst : ℕ} {child : ℕ → Run Vm (Option ℕ)}
    {child' : ℕ → Run Phys (Option ℕ)} (h : ∀ a, Prog.Follows Vm.phys (child a) (child' a)) :
    ∀ n i, Prog.Follows Vm.phys (cloneEntries level child src dst n i)
      (Vmm.cloneEntries level child' src dst n i) := by
  intro n
  induction n with
  | zero => exact fun _ => Prog.follows_pure true
  | succ n ih =>
      intro i
      unfold cloneEntries Vmm.cloneEntries
      refine (onPhys_follows _).bind ?_
      intro entry
      split
      · exact ih (i + 1)
      · split
        · exact (writeEntry_follows _ _).bind fun _ => ih (i + 1)
        · refine (h _).bind ?_
          intro newChild
          cases newChild with
          | none => exact Prog.follows_pure false
          | some c => exact (writeEntry_follows _ _).bind fun _ => ih (i + 1)

theorem cloneCall_follows {hhdm level src : ℕ} {child : ℕ → Run Vm (Option ℕ)}
    {child' : ℕ → Run Phys (Option ℕ)} (h : ∀ a, Prog.Follows Vm.phys (child a) (child' a)) :
    Prog.Follows Vm.phys (cloneCall hhdm level child src)
      (Vmm.cloneCall hhdm level child' src) := by
  refine allocFrame_follows.bind ?_
  intro frame
  cases frame with
  | none => exact Prog.follows_pure none
  | some dst =>
      refine (onPhys_follows _).bind fun _ => ?_
      refine (addU64_follows _ _).bind fun srcPtr => ?_
      refine (addU64_follows _ _).bind fun dstPtr => ?_
      refine (cloneEntries_follows h 512 0).bind fun done => ?_
      cases done with
      | true => exact Prog.follows_pure _
      | false =>
          exact (freeClonedTable_follows hhdm level dst).bind fun _ => Prog.follows_pure none

/-- Without the trace, the code is that of `clone_table`. -/
theorem cloneTable_follows (hhdm : ℕ) : ∀ level src,
    Prog.Follows Vm.phys (cloneTable hhdm level src) (Vmm.cloneTable hhdm level src) := by
  intro level
  induction level with
  | zero => exact fun src => cloneCall_follows fun _ => Prog.follows_pure none
  | succ level ih => exact fun src => cloneCall_follows ih

end Traced

/-! ## The account of the frames -/

/-- The frames that were allocated, the latest first. -/
def allocs : List Event → List ℕ
  | [] => []
  | .alloc f :: t => f :: allocs t
  | .free _ :: t => allocs t
  | .store _ :: t => allocs t
  | .flush :: t => allocs t

/-- The frames that were freed, the latest first. -/
def frees : List Event → List ℕ
  | [] => []
  | .alloc _ :: t => frees t
  | .free f :: t => f :: frees t
  | .store _ :: t => frees t
  | .flush :: t => frees t

theorem allocs_append (t t' : List Event) : allocs (t ++ t') = allocs t ++ allocs t' := by
  induction t with
  | nil => rfl
  | cons e t ih =>
      cases e with
      | alloc f => exact congrArg (f :: ·) ih
      | free f => exact ih
      | store m => exact ih
      | flush => exact ih

theorem frees_append (t t' : List Event) : frees (t ++ t') = frees t ++ frees t' := by
  induction t with
  | nil => rfl
  | cons e t ih =>
      cases e with
      | alloc f => exact ih
      | free f => exact congrArg (f :: ·) ih
      | store m => exact ih
      | flush => exact ih

/-- One more element counts once. -/
theorem count_add_indicator {A : Set ℕ} {d : ℕ} (hd : d ∉ A) (f : ℕ) :
    [d].count f + A.indicator 1 f = (insert d A).indicator 1 f := by
  by_cases hfd : f = d
  · subst hfd
    rw [Set.indicator_of_notMem hd, Set.indicator_of_mem (Set.mem_insert f A),
      List.count_singleton_self, Nat.add_zero, Pi.one_apply]
  · have hcount : [d].count f = 0 := List.count_eq_zero.2 fun h => hfd (List.mem_singleton.1 h)
    rw [hcount, Nat.zero_add]
    by_cases hf : f ∈ A
    · rw [Set.indicator_of_mem hf, Set.indicator_of_mem (Set.mem_insert_of_mem d hf)]
    · rw [Set.indicator_of_notMem hf, Set.indicator_of_notMem]
      rintro (h | h)
      · exact hfd h
      · exact hf h

/-- From `s` to `s'` the events `log` were recorded, and they account for the frames that
became free or were taken. -/
structure Recorded (s s' : Vm) (log : List Event) : Prop where
  inv : Inv s'.phys
  hhdm : s'.phys.pmm.hhdmOffset = s.phys.pmm.hhdmOffset
  trace : s'.trace = log ++ s.trace
  count : ∀ f, (frees log).count f + (freeSet s.phys).indicator 1 f =
    (allocs log).count f + (freeSet s'.phys).indicator 1 f

/-- Frames were only taken. -/
def OnlyTook (s s' : Vm) : Prop := ∃ log, Recorded s s' log ∧ frees log = []

/-- Frames were only given back. -/
def OnlyGave (s s' : Vm) : Prop := ∃ log, Recorded s s' log ∧ allocs log = []

section

variable {s s₁ s' : Vm} {log log' : List Event} {d : ℕ}

theorem Recorded.refl (hI : Inv s.phys) : Recorded s s [] := ⟨hI, rfl, rfl, fun _ => rfl⟩

theorem Recorded.trans (h : Recorded s s₁ log) (h' : Recorded s₁ s' log') :
    Recorded s s' (log' ++ log) := by
  refine ⟨h'.inv, h'.hhdm.trans h.hhdm, ?_, ?_⟩
  · rw [h'.trace, h.trace, List.append_assoc]
  · intro f
    have hf := h.count f
    have hf' := h'.count f
    rw [allocs_append, frees_append, List.count_append, List.count_append]
    omega

theorem OnlyTook.trans (h : OnlyTook s s₁) (h' : OnlyTook s₁ s') : OnlyTook s s' := by
  rcases h with ⟨log, hlog, hnone⟩
  rcases h' with ⟨log', hlog', hnone'⟩
  exact ⟨_, hlog.trans hlog', by rw [frees_append, hnone, hnone', List.append_nil]⟩

theorem OnlyGave.trans (h : OnlyGave s s₁) (h' : OnlyGave s₁ s') : OnlyGave s s' := by
  rcases h with ⟨log, hlog, hnone⟩
  rcases h' with ⟨log', hlog', hnone'⟩
  exact ⟨_, hlog.trans hlog', by rw [allocs_append, hnone, hnone', List.append_nil]⟩

/-- Where frames were only taken, each was taken once, from the free ones. -/
theorem Recorded.allocs_spec (h : Recorded s s' log) (hnone : frees log = []) :
    (allocs log).Nodup ∧ (∀ f ∈ allocs log, f ∈ freeSet s.phys ∧ f ∉ freeSet s'.phys) ∧
      freeSet s'.phys ⊆ freeSet s.phys := by
  have hcount : ∀ f, (freeSet s.phys).indicator 1 f =
      (allocs log).count f + (freeSet s'.phys).indicator 1 f := by
    intro f
    have hf := h.count f
    rw [hnone, List.count_nil, Nat.zero_add] at hf
    exact hf
  have hle : ∀ f, (freeSet s.phys).indicator 1 f ≤ 1 := by
    intro f
    rcases Set.indicator_eq_zero_or_self (freeSet s.phys) (1 : ℕ → ℕ) f with h | h
    · exact h.trans_le (Nat.zero_le 1)
    · exact h.le
  refine ⟨List.nodup_iff_count_le_one.2 fun f => ?_, fun f hf => ?_, fun f hf => ?_⟩
  · have hf := hcount f
    have hf' := hle f
    omega
  · have hpos := List.count_pos_iff.2 hf
    have hf' := hle f
    have hf := hcount f
    constructor
    · by_contra hnot
      rw [Set.indicator_of_notMem hnot] at hf
      omega
    · intro hmem
      rw [Set.indicator_of_mem hmem, Pi.one_apply] at hf
      omega
  · by_contra hnot
    have hf' := hcount f
    rw [Set.indicator_of_notMem hnot, Set.indicator_of_mem hf, Pi.one_apply] at hf'
    omega

/-- Where as many frames are free as before, each allocated frame was freed. -/
theorem Recorded.perm (h : Recorded s s' log) (hfree : freeSet s'.phys = freeSet s.phys) :
    (frees log).Perm (allocs log) := by
  rw [List.perm_iff_count]
  intro f
  have hf := h.count f
  rw [hfree] at hf
  omega

/-- What is written to a frame that is not free changes nothing for the account. -/
theorem Recorded.write {m : Mem} (hI : Inv s.phys) (hd : d ∉ freeSet s.phys)
    (hm : ∀ g, g ≠ d → m g = s.phys.mem g) (log : List Event) (ha : allocs log = [])
    (hf : frees log = []) :
    Recorded s { s with phys := { s.phys with mem := m }, trace := log ++ s.trace } log := by
  refine ⟨hI.write fun g hg => hm g fun h => hd (h ▸ hg), rfl, rfl, ?_⟩
  intro f
  rw [ha, hf]
  rfl

theorem allocFrame_recorded {frame : Option ℕ} (hI : Inv s.phys)
    (hrun : allocFrame.run s = .ok frame s') :
    frame = none ∧ s' = s ∨ ∃ d, frame = some (d * frameSize) ∧ d < 2 ^ 52 ∧
      d ∉ freeSet s'.phys ∧ Recorded s s' [.alloc d] := by
  rcases Prog.bind_ok_iff.1 hrun with ⟨r, s₁, halloc, hrun⟩
  rcases Prog.zoom_ok_iff.1 halloc with ⟨t, hpages, rfl⟩
  rcases allocPages_ok hI hpages with ⟨-, hpost⟩
  cases r with
  | none =>
      cases hrun
      exact Or.inl ⟨rfl, by rw [hpost.1]⟩
  | some addr =>
      rcases hpost with ⟨d, rfl, htook⟩
      cases hrun
      have hfree := htook.free_eq
      rw [Dyadic.block_zero] at hfree
      have hd : d ∈ freeSet s.phys := htook.subset (by rw [Dyadic.block_zero]; rfl)
      have hd' : d ∉ freeSet t := by simp [hfree]
      refine Or.inr ⟨d, rfl, htook.addr_lt, hd', htook.inv, htook.hhdm, ?_, ?_⟩
      · rw [Nat.mul_div_cancel d (by decide)]
        rfl
      · intro f
        have hinsert : freeSet s.phys = insert d (freeSet t) := by
          rw [hfree, Set.insert_sdiff_singleton, Set.insert_eq_of_mem hd]
        have hcount := count_add_indicator hd' f
        rw [← hinsert] at hcount
        exact (Nat.zero_add _).trans hcount.symm

theorem freeFrame_recorded {addr : ℕ} {u : Unit} (hI : Inv s.phys) (haddr : addr < 2 ^ 64)
    (hrun : (freeFrame addr).run s = .ok u s') : OnlyGave s s' := by
  rcases Prog.bind_ok_iff.1 hrun with ⟨r, s₁, hfree, hrun⟩
  rcases Prog.zoom_ok_iff.1 hfree with ⟨t, hpages, rfl⟩
  rcases freePages_ok hI haddr hpages with ⟨d, rfl, hr, hgrew⟩
  cases hrun
  have hset := hgrew.free_eq
  rw [Dyadic.block_zero] at hset
  have hd : d ∉ freeSet s.phys := hr.unused d (by rw [Dyadic.block_zero]; rfl)
  refine ⟨[.free d], ⟨hgrew.inv, hgrew.hhdm, ?_, ?_⟩, rfl⟩
  · rw [Nat.mul_div_cancel d (by decide)]
    rfl
  · intro f
    have hcount := count_add_indicator hd f
    rw [← Set.union_singleton, ← hset] at hcount
    exact hcount.trans (Nat.zero_add _).symm

theorem OnlyTook.refl (hI : Inv s.phys) : OnlyTook s s := ⟨[], Recorded.refl hI, rfl⟩

theorem OnlyGave.refl (hI : Inv s.phys) : OnlyGave s s := ⟨[], Recorded.refl hI, rfl⟩

theorem OnlyTook.inv (h : OnlyTook s s') : Inv s'.phys := by
  rcases h with ⟨log, hlog, -⟩
  exact hlog.inv

theorem OnlyTook.hhdm (h : OnlyTook s s') :
    s'.phys.pmm.hhdmOffset = s.phys.pmm.hhdmOffset := by
  rcases h with ⟨log, hlog, -⟩
  exact hlog.hhdm

theorem OnlyTook.free_sub (h : OnlyTook s s') : freeSet s'.phys ⊆ freeSet s.phys := by
  rcases h with ⟨log, hlog, hnone⟩
  exact (hlog.allocs_spec hnone).2.2

theorem OnlyGave.inv (h : OnlyGave s s') : Inv s'.phys := by
  rcases h with ⟨log, hlog, -⟩
  exact hlog.inv

theorem readEntry_same {p : ℕ} {w : Word} (hrun : (readEntry p).run s = .ok w s') : s' = s := by
  rcases Prog.zoom_ok_iff.1 hrun with ⟨t, hread, rfl⟩
  rcases Prog.bind_ok_iff.1 hread with ⟨hhdm, t₁, hgets, hload⟩
  cases hgets
  rcases Prog.zoom_ok_iff.1 hload with ⟨m, hload', rfl⟩
  rcases Prog.bind_ok_iff.1 hload' with ⟨_, m₁, hrequire, hgets⟩
  rcases Prog.require_ok_iff.1 hrequire with ⟨-, rfl⟩
  cases hgets
  rfl

theorem onlyTook_writeEntry {hhdm i : ℕ} {w : Word} {u : Unit} (hI : Inv s.phys)
    (hh : s.phys.pmm.hhdmOffset = hhdm) (hi : i < 512) (hd : d ∉ freeSet s.phys)
    (hrun : (writeEntry (blockPtr hhdm d + 8 * i) w).run s = .ok u s') : OnlyTook s s' := by
  have hwrite : (onPhys (writeAt (blockPtr hhdm d + 8 * i) w)).run s = .ok () _ :=
    onPhys_of_ok (writeAt_slot hh hi w)
  unfold writeEntry at hrun
  rw [Prog.bind_of_ok hwrite] at hrun
  cases hrun
  have hmem : ∀ g, g ≠ d → s.phys.mem.set d i w g = s.phys.mem g :=
    fun g hg => Mem.set_frame_ne _ _ _ hg
  exact ⟨_, Recorded.write hI hd hmem [.store (s.phys.mem.set d i w)] rfl rfl, rfl⟩

end

namespace Traced

/-- A call that only gives frames back. -/
def Gives (x : ℕ → Run Vm Unit) : Prop :=
  ∀ (a : ℕ) (s s' : Vm), a < 2 ^ 64 → Inv s.phys → (x a).run s = .ok () s' → OnlyGave s s'

/-- A call that only takes frames when it succeeds. -/
def Takes (hhdm : ℕ) (x : ℕ → Run Vm (Option ℕ)) : Prop :=
  ∀ (a c : ℕ) (s s' : Vm), Inv s.phys → s.phys.pmm.hhdmOffset = hhdm →
    (x a).run s = .ok (some c) s' → OnlyTook s s'

/-- Each frame was allocated once, and was free before. -/
def TookOnce (s s' : Vm) : Prop :=
  ∃ log, Recorded s s' log ∧ (allocs log).Nodup ∧ ∀ f ∈ allocs log, f ∈ freeSet s.phys

/-- A call that allocates no frame twice when it fails. -/
def Fails (hhdm : ℕ) (x : ℕ → Run Vm (Option ℕ)) : Prop :=
  ∀ (a : ℕ) (s s' : Vm), Inv s.phys → s.phys.pmm.hhdmOffset = hhdm →
    (x a).run s = .ok none s' → TookOnce s s'

section

variable {s s' : Vm} {hhdm l : ℕ}

theorem TookOnce.refl (hI : Inv s.phys) : TookOnce s s :=
  ⟨[], Recorded.refl hI, List.nodup_nil, fun _ h => absurd h List.not_mem_nil⟩

/-- Frames taken before are not free any more, so that a call after them takes others. -/
theorem TookOnce.of_took {s₁ : Vm} (htook : OnlyTook s s₁) (h : TookOnce s₁ s') :
    TookOnce s s' := by
  rcases htook with ⟨log, hlog, hnone⟩
  rcases h with ⟨log', hlog', hnodup', hfree'⟩
  rcases hlog.allocs_spec hnone with ⟨hnodup, hfree, hsub⟩
  refine ⟨log' ++ log, hlog.trans hlog', ?_, ?_⟩
  · rw [allocs_append, List.nodup_append]
    refine ⟨hnodup', hnodup, ?_⟩
    intro f hf' g hg hfg
    exact (hfree g hg).2 (hfg ▸ hfree' f hf')
  · intro f hf
    rw [allocs_append, List.mem_append] at hf
    rcases hf with hf | hf
    · exact hsub (hfree' f hf)
    · exact (hfree f hf).1

theorem TookOnce.gave {s₁ : Vm} (h : TookOnce s s₁) (hgave : OnlyGave s₁ s') : TookOnce s s' := by
  rcases h with ⟨log, hlog, hnodup, hfree⟩
  rcases hgave with ⟨log', hlog', hnone⟩
  have hallocs : allocs (log' ++ log) = allocs log := by rw [allocs_append, hnone, List.nil_append]
  exact ⟨_, hlog.trans hlog', hallocs ▸ hnodup, hallocs ▸ hfree⟩

theorem TookOnce.inv (h : TookOnce s s') : Inv s'.phys := by
  rcases h with ⟨log, hlog, -⟩
  exact hlog.inv

/-- The rollback only gives frames back. -/
theorem freeEntries_gave {table : ℕ} {child : ℕ → Run Vm Unit} {v : Unit} (hchild : Gives child)
    (hI : Inv s.phys) (hrun : (freeEntries l child table).run s = .ok v s') : OnlyGave s s' := by
  unfold freeEntries at hrun
  refine Prog.forRange_of_ok (I := fun _ u => OnlyGave s u) hrun (OnlyGave.refl hI) ?_
  intro i _ u u' hgave hbody
  rcases Prog.bind_ok_iff.1 hbody with ⟨entry, u₁, hread, hbody⟩
  cases readEntry_same hread
  split at hbody
  · cases hbody
    exact hgave
  · split at hbody
    · cases hbody
      exact hgave
    · exact hgave.trans (hchild _ _ _ (BitVec.isLt _) hgave.inv hbody)

theorem freeClonedTable_gives : ∀ l, Gives (freeClonedTable hhdm l) := by
  have hcall : ∀ (l : ℕ) (child : ℕ → Run Vm Unit), Gives child → Gives fun a => (do
      let table ← addU64 a hhdm
      freeEntries l child table
      freeFrame a) := by
    intro l child hchild a s s' ha hI hrun
    rcases Prog.bind_ok_iff.1 hrun with ⟨table, s₁, hadd, hrest⟩
    rcases addU64_ok_iff.1 hadd with ⟨-, -, rfl⟩
    rcases Prog.bind_ok_iff.1 hrest with ⟨_, s₂, hloop, hfree⟩
    have hgave := freeEntries_gave hchild hI hloop
    exact hgave.trans (freeFrame_recorded hgave.inv ha hfree)
  intro l
  induction l with
  | zero =>
      refine hcall 0 (fun _ => pure ()) ?_
      intro _ s s' _ hI hpure
      cases hpure
      exact OnlyGave.refl hI
  | succ l ih => exact hcall (l + 1) (freeClonedTable hhdm l) ih

/-- The loop only takes frames, up to a call that fails. -/
theorem cloneEntries_took {src d : ℕ} {child : ℕ → Run Vm (Option ℕ)}
    (hchild : Takes hhdm child) :
    ∀ {k i : ℕ} {s s' : Vm} {done : Bool}, i + k = 512 → Inv s.phys →
    s.phys.pmm.hhdmOffset = hhdm → d ∉ freeSet s.phys →
    (cloneEntries l child src (blockPtr hhdm d) k i).run s = .ok done s' →
    done = true ∧ OnlyTook s s' ∨
      done = false ∧ ∃ a s₁, OnlyTook s s₁ ∧ (child a).run s₁ = .ok none s' := by
  intro k
  induction k with
  | zero =>
      intro i s s' done _ hI _ _ hrun
      cases hrun
      exact Or.inl ⟨rfl, OnlyTook.refl hI⟩
  | succ k ih =>
      intro i s s' done hi hI hh hd hrun
      -- what a turn took comes before what the rest of the loop takes
      have hrest : ∀ {s₁ : Vm}, OnlyTook s s₁ →
          (cloneEntries l child src (blockPtr hhdm d) k (i + 1)).run s₁ = .ok done s' →
          done = true ∧ OnlyTook s s' ∨
            done = false ∧ ∃ a s₁, OnlyTook s s₁ ∧ (child a).run s₁ = .ok none s' := by
        intro s₁ htook hrun
        rcases ih (by omega) htook.inv (htook.hhdm.trans hh) (fun h => hd (htook.free_sub h))
          hrun with ⟨hdone, h⟩ | ⟨hdone, a, s₂, h, hcall⟩
        · exact Or.inl ⟨hdone, htook.trans h⟩
        · exact Or.inr ⟨hdone, a, s₂, htook.trans h, hcall⟩
      unfold cloneEntries at hrun
      rcases Prog.bind_ok_iff.1 hrun with ⟨entry, s₁, hread, hrun⟩
      cases readEntry_same hread
      split at hrun
      · exact hrest (OnlyTook.refl hI) hrun
      · split at hrun
        · rcases Prog.bind_ok_iff.1 hrun with ⟨_, s₂, hwrite, hrun⟩
          exact hrest (onlyTook_writeEntry hI hh (by omega) hd hwrite) hrun
        · rcases Prog.bind_ok_iff.1 hrun with ⟨newChild, s₂, hcall, hrun⟩
          cases newChild with
          | none =>
              cases hrun
              exact Or.inr ⟨rfl, _, _, OnlyTook.refl hI, hcall⟩
          | some c =>
              rcases Prog.bind_ok_iff.1 hrun with ⟨_, s₃, hwrite, hrun⟩
              have htook := hchild _ _ _ _ hI hh hcall
              refine hrest (htook.trans ?_) hrun
              exact onlyTook_writeEntry htook.inv (htook.hhdm.trans hh) (by omega)
                (fun h => hd (htook.free_sub h)) hwrite

/-- What a call can do: it finds no frame, it copies the table, or a call for the level below
fails and the partial copy is freed. -/
theorem cloneCall_cases {src : ℕ} {r : Option ℕ} {child : ℕ → Run Vm (Option ℕ)}
    (hchild : Takes hhdm child) (hI : Inv s.phys) (hh : s.phys.pmm.hhdmOffset = hhdm)
    (hrun : (cloneCall hhdm l child src).run s = .ok r s') :
    r = none ∧ s' = s ∨ (∃ c, r = some c) ∧ OnlyTook s s' ∨
      r = none ∧ ∃ a s₁ s₂, OnlyTook s s₁ ∧ (child a).run s₁ = .ok none s₂ ∧
        (Inv s₂.phys → OnlyGave s₂ s') := by
  rcases Prog.bind_ok_iff.1 hrun with ⟨frame, s₁, halloc, hinto⟩
  rcases allocFrame_recorded hI halloc with ⟨rfl, rfl⟩ | ⟨d, rfl, hd, hfresh, htook⟩
  · cases hinto
    exact Or.inl ⟨rfl, rfl⟩
  · right
    have hh₁ := htook.hhdm.trans hh
    rcases Prog.bind_ok_iff.1 hinto with ⟨_, s₂, hzero, hrest⟩
    rcases Prog.zoom_ok_iff.1 hzero with ⟨t, hzeroed, rfl⟩
    rcases zeroFrame_ok hh₁ hzeroed with ⟨-, rfl⟩
    -- the new table is written to from here on, and it is not free
    have hmem : ∀ g, g ≠ d →
        (fun j => if g = d ∧ j < 512 then 0 else s₁.phys.mem g j) = s₁.phys.mem g := by
      intro g hg
      funext j
      exact if_neg fun h => hg h.1
    have hwrite := Recorded.write htook.inv hfresh hmem [] rfl rfl
    have hstart : OnlyTook s _ := ⟨_, htook.trans hwrite, rfl⟩
    rcases Prog.bind_ok_iff.1 hrest with ⟨srcPtr, _, hp, hrest⟩
    rcases addU64_ok_iff.1 hp with ⟨-, -, rfl⟩
    rcases Prog.bind_ok_iff.1 hrest with ⟨dstPtr, _, hp', hloop⟩
    rcases addU64_ok_iff.1 hp' with ⟨-, hdst, rfl⟩
    change dstPtr = blockPtr hhdm d at hdst
    subst hdst
    rcases Prog.bind_ok_iff.1 hloop with ⟨done, s₃, hentries, hend⟩
    rcases cloneEntries_took hchild (Nat.zero_add 512) hwrite.inv hh₁ hfresh hentries with
      ⟨rfl, hall⟩ | ⟨rfl, a, s₄, hpart, hcall⟩
    · cases hend
      exact Or.inl ⟨⟨_, rfl⟩, hstart.trans hall⟩
    · rcases Prog.bind_ok_iff.1 hend with ⟨_, s₅, hfree, hnone⟩
      cases hnone
      refine Or.inr ⟨rfl, a, s₄, s₃, hstart.trans hpart, hcall, ?_⟩
      intro hI₃
      have haddr : d * frameSize < 2 ^ 64 := by
        unfold frameSize
        omega
      exact freeClonedTable_gives l _ _ _ haddr hI₃ hfree

/-- A `clone_table` only takes frames when it succeeds, and none twice when it fails. -/
theorem cloneTable_account : ∀ l,
    Takes hhdm (cloneTable hhdm l) ∧ Fails hhdm (cloneTable hhdm l) := by
  have hcall : ∀ (l : ℕ) (child : ℕ → Run Vm (Option ℕ)), Takes hhdm child → Fails hhdm child →
      Takes hhdm (cloneCall hhdm l child) ∧ Fails hhdm (cloneCall hhdm l child) := by
    intro l child hchild hfail
    constructor
    · intro a c s s' hI hh hrun
      rcases cloneCall_cases hchild hI hh hrun with ⟨hnone, -⟩ | ⟨-, htook⟩ | ⟨hnone, -⟩
      · cases hnone
      · exact htook
      · cases hnone
    · intro a s s' hI hh hrun
      rcases cloneCall_cases hchild hI hh hrun with
        ⟨-, rfl⟩ | ⟨⟨c, hc⟩, -⟩ | ⟨-, b, s₁, s₂, htook, hbelow, hgave⟩
      · exact TookOnce.refl hI
      · cases hc
      · have hfailed := hfail _ _ _ htook.inv (htook.hhdm.trans hh) hbelow
        exact (TookOnce.of_took htook hfailed).gave (hgave hfailed.inv)
  intro l
  induction l with
  | zero =>
      refine hcall 0 (fun _ => pure none) ?_ ?_
      · intro a c s s' _ _ hrun
        cases hrun
      · intro a s s' hI _ hrun
        cases hrun
        exact TookOnce.refl hI
  | succ l ih => exact hcall (l + 1) (cloneTable hhdm l) ih.1 ih.2

end

end Traced

/-! ## Nothing is leaked -/

/-- A `clone_table` of a level whose source tables are not free and that returns `None` has freed
every frame that it allocated, each once, and no other frame. The frames that are free, and
`free_frames`, are those from before. -/
theorem failed_clone_leaks_nothing {s s' : Vm} {hhdm level n : ℕ} (hI : Inv s.phys)
    (htotal : s.phys.pmm.totalFrames ≤ 2 ^ 40) (hhdm_eq : s.phys.pmm.hhdmOffset = hhdm)
    (hsrc : ∀ g ∈ tablesIn s.phys.mem level n, g ∉ freeSet s.phys)
    (hrun : (Traced.cloneTable hhdm level (n * frameSize)).run s = .ok none s') :
    (cloneTable hhdm level (n * frameSize)).run s.phys = .ok none s'.phys ∧
      (∃ log, s'.trace = log ++ s.trace ∧ (allocs log).Nodup ∧ (frees log).Perm (allocs log) ∧
        ∀ f ∈ allocs log, f ∈ freeSet s.phys) ∧
      freeSet s'.phys = freeSet s.phys ∧ s'.phys.pmm.freeFrames = s.phys.pmm.freeFrames := by
  have hplain := (Traced.cloneTable_follows hhdm level (n * frameSize)).of_ok hrun
  have hundone := cloneTable_none level hsrc hI hhdm_eq htotal ⟨subset_rfl, fun _ _ => rfl⟩ hplain
  rcases (Traced.cloneTable_account level).2 _ _ _ hI hhdm_eq hrun with ⟨log, hlog, hnodup, hfree⟩
  refine ⟨hplain, ⟨log, hlog.trace, hnodup, hlog.perm hundone.free_eq, hfree⟩, hundone.free_eq, ?_⟩
  rw [hundone.inv.count, hI.count, hundone.free_eq]

set_option maxRecDepth 20000 in
/-- Of five frames four hold the tables of a page, and the copy of the PML4 takes the fifth. -/
theorem clone_fails_run : letI := X86.documented
    ∃ s₁, (addRange 1 5).run (freshPhys 6) = .ok () s₁ ∧ ∃ s₂,
      (allocPages 0).run s₁ = .ok (some (1 * frameSize)) s₂ ∧ s₂.pmm.totalFrames = 6 ∧ ∃ s,
      (map 0 0 ⟨flagRW, rfl⟩ .base).run (emptyVm s₂ 1) = .ok (.ok ()) s ∧
        s.phys.pmm.hhdmOffset = 4096 ∧ root s = 1 ∧ ∃ s',
        (Traced.cloneTable 4096 3 (1 * frameSize)).run s = .ok none s' ∧
          (allocs s'.trace).length = (allocs s.trace).length + 1 := by
  unfold addRange
  unfold addRange
  unfold addRange
  unfold addRange
  exact ⟨_, rfl, _, rfl, rfl, _, rfl, rfl, rfl, _, rfl, rfl⟩

/-- There the fifth frame is free again. -/
theorem failed_clone_leaks_nothing_one_frame : ∃ s s' : Vm,
    (Traced.cloneTable 4096 3 (1 * frameSize)).run s = .ok none s' ∧
    (cloneTable 4096 3 (1 * frameSize)).run s.phys = .ok none s'.phys ∧
    (allocs s'.trace).length = (allocs s.trace).length + 1 ∧
    (∃ log, s'.trace = log ++ s.trace ∧ (allocs log).Nodup ∧ (frees log).Perm (allocs log) ∧
      ∀ f ∈ allocs log, f ∈ freeSet s.phys) ∧ freeSet s'.phys = freeSet s.phys := by
  let := X86.documented
  rcases clone_fails_run with
    ⟨s₁, hseed, s₂, halloc, htotal, s, hmap, hhdm, hroot, s', hclone, hlen⟩
  have hstart := seeded_start (by decide) (by decide) hseed halloc htotal
  rcases map_of_ok hstart.tree hmap with ⟨⟨held, hT⟩, -⟩
  have hsrc : ∀ g ∈ tablesIn s.phys.mem 3 1, g ∉ freeSet s.phys := by
    rintro g ⟨p, hp⟩
    refine hT.notFree (p := p) ?_
    unfold tableAt
    rw [hroot]
    exact hp
  have hleak := failed_clone_leaks_nothing hT.holds.inv hT.total_le hhdm hsrc hclone
  exact ⟨s, s', hclone, hleak.1, hlen, hleak.2.1, hleak.2.2.1⟩

end Prometheos.Vmm
