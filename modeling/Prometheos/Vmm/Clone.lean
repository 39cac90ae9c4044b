import Prometheos.Vmm.Runs

/-!
# Cloning the tables

`clone_table` copies a table and everything below it. The source is arbitrary: its tables
may be shared, or refer to themselves, as long as none of them is free. The copy is a tree
in frames that were free before, and it mirrors the source (`cloneTable_ok`). So
`take_ownership` starts the manager with the ownership invariant (`takeOwnership_start`).
-/

namespace Prometheos.Vmm

open Pmm
open Radix (Unshared Outside Mirror)

/-! ## Entries -/

/-- The copy of an entry that refers to a table, when the copy of that table is `c`. -/
def copyEntry (c : ℕ) (w : Word) : Word :=
  (BitVec.ofNat 64 (c * frameSize) &&& addrMask) ||| (w &&& ~~~addrMask)

/-- `w'` is what `clone_table` makes of the entry `w` of a table of level `l`. -/
structure CopyOf (l : ℕ) (w w' : Word) : Prop where
  absent : kind l w = .absent → w' = 0
  leaf : kind l w = .leaf → w' = w
  table : ∀ f, kind l w = .table f → w' &&& ~~~addrMask = w &&& ~~~addrMask

section

variable {l c f : ℕ} {w w' : Word}

theorem present_ne (h : w.getLsbD 0 = true) : ¬ w &&& 1 = 0 := by
  rw [and_one_eq_zero_iff, h]
  exact Bool.noConfusion

theorem isLeaf_iff : isLeaf l w = true ↔ l = 0 ∨ l ≤ 2 ∧ w.getLsbD 7 = true := by
  have hbit : w &&& flagPS ≠ 0 ↔ w.getLsbD 7 = true := by
    rw [show flagPS = BitVec.twoPow 64 7 from rfl, BitVec.and_twoPow]
    cases w.getLsbD 7 with
    | false => simp
    | true =>
        simp only [if_true, ne_eq, iff_true]
        decide
  unfold isLeaf
  rw [decide_eq_true_iff, hbit]

theorem getLsbD_copyEntry {i : ℕ} (hi : i < 12) (c : ℕ) (w : Word) :
    (copyEntry c w).getLsbD i = w.getLsbD i := by
  have hmask : ∀ j < 12, addrMask.getLsbD j = false := by decide
  unfold copyEntry
  rw [BitVec.getLsbD_or, BitVec.getLsbD_and, BitVec.getLsbD_and, BitVec.getLsbD_not, hmask i hi]
  simp [show i < 64 by omega]

theorem frameOf_copyEntry (hc : c < 2 ^ 40) (w : Word) : frameOf (copyEntry c w) = c := by
  have hself : BitVec.ofNat 64 (c * frameSize) &&& addrMask = BitVec.ofNat 64 (c * frameSize) := by
    have hframe : frameOf (BitVec.ofNat 64 (c * 4096) ||| 0#64) = c := frameOf_or hc rfl
    rw [BitVec.or_zero] at hframe
    apply BitVec.eq_of_toNat_eq
    rw [toNat_and_addrMask]
    change frameOf (BitVec.ofNat 64 (c * 4096)) * 4096 = (BitVec.ofNat 64 (c * 4096)).toNat
    rw [hframe, BitVec.toNat_ofNat, Nat.mod_eq_of_lt (by omega)]
  unfold copyEntry
  rw [hself]
  refine frameOf_or hc ?_
  rw [BitVec.and_assoc, BitVec.and_comm (~~~addrMask), BitVec.and_not_self]
  exact BitVec.and_zero

theorem copyEntry_flags (c : ℕ) (w : Word) :
    copyEntry c w &&& ~~~addrMask = w &&& ~~~addrMask := by
  unfold copyEntry
  apply BitVec.eq_of_getLsbD_eq
  intro i hi
  simp only [BitVec.getLsbD_and, BitVec.getLsbD_or, BitVec.getLsbD_not]
  cases addrMask.getLsbD i with
  | false => simp
  | true => simp

theorem kind_copyEntry (hc : c < 2 ^ 40) (h : kind l w = .table f) :
    kind l (copyEntry c w) = .table c := by
  rcases kind_eq_table_iff.1 h with ⟨h0, hleaf, -⟩
  rw [kind_eq_table_iff, getLsbD_copyEntry (by decide), getLsbD_copyEntry (by decide)]
  exact ⟨h0, hleaf, frameOf_copyEntry hc w⟩

end

/-- A present entry has a present copy. -/
theorem CopyOf.present {l : ℕ} {w w' : Word} (h : CopyOf l w w') (h0 : w.getLsbD 0 = true) :
    w'.getLsbD 0 = true := by
  cases hk : kind l w with
  | absent =>
      rw [kind_eq_absent_iff.1 hk] at h0
      cases h0
  | leaf =>
      rw [h.leaf hk]
      exact h0
  | table f =>
      have hbit : ∀ v : Word, (v &&& ~~~addrMask).getLsbD 0 = v.getLsbD 0 := by
        intro v
        rw [BitVec.getLsbD_and, BitVec.getLsbD_not, show addrMask.getLsbD 0 = false from rfl]
        simp
      rw [← hbit, h.table f hk, hbit]
      exact h0

/-! ## The loop over the entries -/

/-- The table `f'` is a copy of the table `f`, and both can be reached through the direct
map. -/
structure Twin (hhdm : ℕ) (m m' : Mem) (l f f' : ℕ) : Prop where
  copy : ∀ i : Fin 512, CopyOf l (m f i) (m' f' i)
  src_lt : blockPtr hhdm f < 2 ^ 64
  dst_lt : blockPtr hhdm f' < 2 ^ 64

/-- The tree at `c` in `m'` is a copy of the structure at `f` in `m`. -/
def Copy (hhdm : ℕ) (m m' : Mem) (l f c : ℕ) : Prop :=
  Mirror kind (Twin hhdm m m') (entries m) (entries m') l f c

/-- A copy stays one while its tables are not written. -/
theorem Copy.keep {hhdm : ℕ} {m m' m'' : Mem} {l f c : ℕ} (h : Copy hhdm m m' l f c)
    (hkeep : ∀ g ∈ tablesIn m' l c, m'' g = m' g) : Copy hhdm m m'' l f c := by
  refine Mirror.congr h ?_ ?_
  · intro g hg
    funext j
    exact congrFun (hkeep g hg) j
  · intro k f₁ f₁' hf₁' htwin
    refine ⟨fun j => ?_, htwin.src_lt, htwin.dst_lt⟩
    rw [hkeep f₁' hf₁']
    exact htwin.copy j

/-- Since the state `t₀` the entries before `i` of the table `n` were copied to the new
table `d`: the frames of the copy were free, and nothing else was written. The source is
read in the memory `m₀`. -/
structure Copying (m₀ : Mem) (l n : ℕ) (t₀ t : Phys) (d i : ℕ) : Prop where
  inv : Inv t
  hhdm : t.pmm.hhdmOffset = t₀.pmm.hhdmOffset
  total : t.pmm.totalFrames = t₀.pmm.totalFrames
  mem_eq : ∀ g, g ∉ freeSet t₀ → t.mem g = t₀.mem g
  fresh : tablesIn t.mem l d ⊆ freeSet t₀
  free_eq : freeSet t = freeSet t₀ \ tablesIn t.mem l d
  unshared : Unshared kind (entries t.mem) l d
  src_lt : blockPtr t₀.pmm.hhdmOffset n < 2 ^ 64
  dst_lt : blockPtr t₀.pmm.hhdmOffset d < 2 ^ 64
  copied : ∀ j : Fin 512, j.val < i → CopyOf l (m₀ n j) (t.mem d j)
  below : ∀ j : Fin 512, j.val < i → ∀ f, kind l (m₀ n j) = .table f →
    ∃ c, kind l (t.mem d j) = .table c ∧ Copy t₀.pmm.hhdmOffset m₀ t.mem (l - 1) f c
  rest : ∀ j : Fin 512, i ≤ j.val → t.mem d j = 0

section

variable {m₀ : Mem} {l n d i : ℕ} {t₀ t t' : Phys}

/-- The tables of the copy are not free any more. -/
theorem Copying.notFree (hC : Copying m₀ l n t₀ t d i) {g : ℕ} (hg : g ∈ tablesIn t.mem l d) :
    g ∉ freeSet t := by
  rw [hC.free_eq]
  exact fun h => h.2 hg

theorem Copying.free_sub (hC : Copying m₀ l n t₀ t d i) : freeSet t ⊆ freeSet t₀ := by
  rw [hC.free_eq]
  exact Set.sdiff_subset

/-- A new table, before the first entry. -/
theorem Copying.start {t₁ : Phys} (htook : Took t₀ t₁ 0 d)
    (hsrc : blockPtr t₀.pmm.hhdmOffset n < 2 ^ 64) (hdst : blockPtr t₀.pmm.hhdmOffset d < 2 ^ 64) :
    Copying m₀ l n t₀ { t₁ with mem := zeroMem t₁.mem d } d 0 := by
  have hfree : freeSet t₁ = freeSet t₀ \ {d} := by
    rw [htook.free_eq, Dyadic.block_zero]
  have hfresh : d ∈ freeSet t₀ := htook.subset (Dyadic.self_mem_block 0 d)
  have hzero : ∀ j : Fin 512, zeroMem t₁.mem d d j = 0 := fun j => if_pos ⟨rfl, j.isLt⟩
  have hpaths : ∀ {p g}, Radix.tableAt kind (entries (zeroMem t₁.mem d)) l d p = some g ↔
      p = [] ∧ g = d := by
    intro p g
    refine Radix.tableAt_iff_of_no_table ?_
    intro j n' h
    unfold entries at h
    rw [hzero, kind_zero_word] at h
    cases h
  have htables : tablesIn (zeroMem t₁.mem d) l d = {d} := by
    ext g
    constructor
    · rintro ⟨p, hp⟩
      exact (hpaths.1 hp).2
    · rintro rfl
      exact self_mem_tablesIn _ l g
  refine ⟨htook.inv.write ?_, htook.hhdm, htook.total, ?_, ?_, ?_, ?_, hsrc, hdst, ?_, ?_, ?_⟩
  · intro g hg
    rw [hfree] at hg
    exact zeroMem_of_ne t₁.mem hg.2
  · intro g hg
    have hne : g ≠ d := by
      rintro rfl
      exact hg hfresh
    exact (zeroMem_of_ne t₁.mem hne).trans (htook.mem_eq g hg)
  · rw [htables]
    exact Set.singleton_subset_iff.2 hfresh
  · rw [htables]
    exact hfree
  · intro p q g hp hq
    rw [(hpaths.1 hp).1, (hpaths.1 hq).1]
  · exact fun j hj => absurd hj (Nat.not_lt_zero _)
  · exact fun j hj => absurd hj (Nat.not_lt_zero _)
  · exact fun j _ => hzero j

/-- What one turn of the loop has to do: it fills entry `i`, and the frames of the tables
below it are taken from the free ones. -/
theorem Copying.advance (hC : Copying m₀ l n t₀ t d i) (hinv : Inv t')
    (hhdm : t'.pmm.hhdmOffset = t.pmm.hhdmOffset)
    (htotal : t'.pmm.totalFrames = t.pmm.totalFrames)
    (hmem : ∀ g, g ∉ freeSet t → ∀ j, ¬ (g = d ∧ j = i) → t'.mem g j = t.mem g j)
    {new : Set ℕ} (hnew : new ⊆ freeSet t) (hfree : freeSet t' = freeSet t \ new)
    (htables : tablesIn t'.mem l d = tablesIn t.mem l d ∪ new)
    (hunshared : Unshared kind (entries t'.mem) l d)
    (hcopy : CopyOf l (m₀ n i) (t'.mem d i))
    (hbelow : ∀ f, kind l (m₀ n i) = .table f → ∃ c, kind l (t'.mem d i) = .table c ∧
      Copy t₀.pmm.hhdmOffset m₀ t'.mem (l - 1) f c) :
    Copying m₀ l n t₀ t' d (i + 1) := by
  have hd := hC.notFree (self_mem_tablesIn t.mem l d)
  have hother : ∀ j : Fin 512, j.val ≠ i → t'.mem d j = t.mem d j :=
    fun j hj => hmem d hd j fun h => hj h.2
  refine ⟨hinv, hhdm.trans hC.hhdm, htotal.trans hC.total, ?_, ?_, ?_, hunshared, hC.src_lt,
    hC.dst_lt, ?_, ?_, ?_⟩
  · intro g hg
    have hgd : g ≠ d := by
      rintro rfl
      exact hg (hC.fresh (self_mem_tablesIn t.mem l g))
    rw [← hC.mem_eq g hg]
    funext j
    exact hmem g (fun h => hg (hC.free_sub h)) j fun h => hgd h.1
  · rw [htables]
    exact Set.union_subset hC.fresh (hnew.trans hC.free_sub)
  · rw [hfree, hC.free_eq, htables, Set.sdiff_sdiff]
  · intro j hj
    by_cases hji : j.val = i
    · rw [hji]
      exact hcopy
    · rw [hother j hji]
      exact hC.copied j (by omega)
  · intro j hj f hk
    by_cases hji : j.val = i
    · rw [hji] at hk ⊢
      exact hbelow f hk
    · -- the copies made before lie in tables that are not written any more
      rcases hC.below j (by omega) f hk with ⟨c, hkc, hcopyc⟩
      have hkeep : ∀ g ∈ tablesIn t.mem (l - 1) c, t'.mem g = t.mem g := by
        rintro g ⟨r, hr⟩
        have hpath : Radix.tableAt kind (entries t.mem) l d (j :: r) = some g :=
          Radix.tableAt_cons_iff.2 ⟨c, hkc, hr⟩
        have hgd : g ≠ d := by
          rintro rfl
          cases hC.unshared [] (j :: r) g rfl hpath
        funext j'
        exact hmem g (hC.notFree ⟨j :: r, hpath⟩) j' fun h => hgd h.1
      exact ⟨c, by rw [hother j hji, hkc], hcopyc.keep hkeep⟩
  · intro j hj
    rw [hother j (by omega)]
    exact hC.rest j (by omega)

/-- An entry that is not present is left out. -/
theorem Copying.skip (hC : Copying m₀ l n t₀ t d i) (hi : i < 512)
    (hk : kind l (m₀ n i) = .absent) : Copying m₀ l n t₀ t d (i + 1) := by
  refine hC.advance hC.inv rfl rfl (fun _ _ _ _ => rfl) (Set.empty_subset _) Set.sdiff_empty.symm
    (Set.union_empty _).symm hC.unshared ⟨?_, ?_, ?_⟩ ?_
  · exact fun _ => hC.rest ⟨i, hi⟩ (le_refl i)
  · intro h
    cases hk.symm.trans h
  · intro f h
    cases hk.symm.trans h
  · intro f h
    cases hk.symm.trans h

/-- The state after a store to the copy. -/
def putWord (t : Phys) (d i : ℕ) (w : Word) : Phys := { t with mem := t.mem.set d i w }

/-- A store to an entry of the copy is seen below that entry only. -/
theorem Copying.outside (hC : Copying m₀ l n t₀ t d i) (hi : i < 512)
    (hmem : ∀ g, g ∉ freeSet t → ∀ j, ¬ (g = d ∧ j = i) → t'.mem g j = t.mem g j) :
    Outside kind (entries t.mem) (entries t'.mem) l d [] ⟨i, hi⟩ := by
  refine hC.unshared.outside rfl ?_
  intro g hg _ j hcell
  exact hmem g (hC.notFree hg) j fun h => hcell ⟨h.1, Fin.ext h.2⟩

theorem Copying.inv_put (hC : Copying m₀ l n t₀ t d i) (hinv : Inv t')
    (hsub : freeSet t' ⊆ freeSet t) (w : Word) : Inv (putWord t' d i w) := by
  refine hinv.write ?_
  intro g hg
  refine Mem.set_frame_ne _ _ _ ?_
  rintro rfl
  exact hC.notFree (self_mem_tablesIn t.mem l g) (hsub hg)

/-- A leaf is copied as it is. -/
theorem Copying.leaf (hC : Copying m₀ l n t₀ t d i) (hi : i < 512)
    (hk : kind l (m₀ n i) = .leaf) : Copying m₀ l n t₀ (putWord t d i (m₀ n i)) d (i + 1) := by
  have hmem : ∀ g, g ∉ freeSet t → ∀ j, ¬ (g = d ∧ j = i) →
      (putWord t d i (m₀ n i)).mem g j = t.mem g j := by
    intro g _ j hcell
    exact (Mem.set_apply _ _ _ _ g j).trans (if_neg hcell)
  have hentry : (putWord t d i (m₀ n i)).mem d i = m₀ n i := Mem.set_self _ _ _ _
  have hO := hC.outside hi hmem
  have hpaths : ∀ q, Radix.tableAt kind (entries (putWord t d i (m₀ n i)).mem) l d q =
      Radix.tableAt kind (entries t.mem) l d q := by
    refine hO.tableAt_store rfl ?_ ?_
    · intro f h
      have hzero : entries t.mem d ⟨i, hi⟩ = 0 := hC.rest ⟨i, hi⟩ (le_refl i)
      rw [hzero, kind_zero_word] at h
      cases h
    · intro f h
      have hleaf : kind l (entries (putWord t d i (m₀ n i)).mem d ⟨i, hi⟩) = .leaf := by
        change kind l ((putWord t d i (m₀ n i)).mem d i) = .leaf
        rw [hentry, hk]
      cases hleaf.symm.trans h
  have htables : tablesIn (putWord t d i (m₀ n i)).mem l d = tablesIn t.mem l d := by
    ext g
    exact exists_congr fun q => by rw [hpaths q]
  refine hC.advance (hC.inv_put hC.inv subset_rfl _) rfl rfl hmem (Set.empty_subset _)
    Set.sdiff_empty.symm ?_ ?_ ⟨?_, ?_, ?_⟩ ?_
  · rw [htables, Set.union_empty]
  · intro a b g ha hb
    rw [hpaths] at ha hb
    exact hC.unshared a b g ha hb
  · intro h
    cases hk.symm.trans h
  · exact fun _ => hentry
  · intro f h
    cases hk.symm.trans h
  · intro f h
    cases hk.symm.trans h

theorem Copying.copy (hC : Copying m₀ l n t₀ t d 512) :
    Copy t₀.pmm.hhdmOffset m₀ t.mem l n d :=
  Mirror.node ⟨fun j => hC.copied j j.isLt, hC.src_lt, hC.dst_lt⟩ fun j => hC.below j j.isLt

/-- The copy of a table is hung into the entry. -/
theorem Copying.graft (hC : Copying m₀ l n t₀ t d i) (hi : i < 512) {f c : ℕ}
    (hk : kind l (m₀ n i) = .table f) (hc : c < 2 ^ 40)
    (hsub : Copying m₀ (l - 1) f t t' c 512) :
    Copying m₀ l n t₀ (putWord t' d i (copyEntry c (m₀ n i))) d (i + 1) := by
  set t'' := putWord t' d i (copyEntry c (m₀ n i)) with ht''
  have hd := hC.notFree (self_mem_tablesIn t.mem l d)
  have hdc : d ∉ tablesIn t'.mem (l - 1) c := fun h => hd (hsub.fresh h)
  have hmem : ∀ g, g ∉ freeSet t → ∀ j, ¬ (g = d ∧ j = i) → t''.mem g j = t.mem g j := by
    intro g hg j hcell
    rw [← hsub.mem_eq g hg]
    exact (Mem.set_apply _ _ _ _ g j).trans (if_neg hcell)
  have hentry : t''.mem d i = copyEntry c (m₀ n i) := Mem.set_self _ _ _ _
  have hkc : kind l (t''.mem d i) = .table c := by
    rw [hentry]
    exact kind_copyEntry hc hk
  -- the store to `d` is not seen in the new tree
  have hkeep : ∀ g ∈ tablesIn t'.mem (l - 1) c, t''.mem g = t'.mem g := by
    intro g hg
    refine Mem.set_frame_ne _ _ _ ?_
    rintro rfl
    exact hdc hg
  have hpaths : ∀ q, Radix.tableAt kind (entries t''.mem) (l - 1) c q =
      Radix.tableAt kind (entries t'.mem) (l - 1) c q := by
    intro q
    refine Radix.tableAt_congr ?_
    intro p j _ g _ hp
    exact congrFun (hkeep g ⟨p, hp⟩) j
  have htables : tablesIn t''.mem (l - 1) c = tablesIn t'.mem (l - 1) c := by
    ext g
    exact exists_congr fun q => by rw [hpaths q]
  have hO := hC.outside hi hmem
  have hold : ∀ g, kind l (entries t.mem d ⟨i, hi⟩) ≠ .table g := by
    intro g h
    have hzero : entries t.mem d ⟨i, hi⟩ = 0 := hC.rest ⟨i, hi⟩ (le_refl i)
    rw [hzero, kind_zero_word] at h
    cases h
  have hunshared : Unshared kind (entries t''.mem) (l - 1) c := by
    intro a b g ha hb
    rw [hpaths] at ha hb
    exact hsub.unshared a b g ha hb
  have hdisj : Disjoint (tablesIn t.mem l d) (tablesIn t''.mem (l - 1) c) := by
    rw [htables, Set.disjoint_left]
    exact fun g hg hg' => hC.notFree hg (hsub.fresh hg')
  refine hC.advance (hC.inv_put hsub.inv hsub.free_sub _) hsub.hhdm hsub.total hmem
    hsub.fresh hsub.free_eq ?_ ?_ ⟨?_, ?_, ?_⟩ ?_
  · rw [← htables]
    exact hO.tables_graft rfl hold hkc
  · exact hO.unshared_graft hC.unshared rfl hkc hunshared hdisj
  · intro h
    cases hk.symm.trans h
  · intro h
    cases hk.symm.trans h
  · intro _ _
    rw [hentry, copyEntry_flags]
  · intro f' hf'
    cases hk.symm.trans hf'
    refine ⟨c, hkc, ?_⟩
    have hcopy := hsub.copy
    rw [hC.hhdm] at hcopy
    exact hcopy.keep hkeep

end

/-! ## `clone_table` -/

/-- The source is read in the memory `m₀`: what changed since then was free, in `F₀`. -/
structure Source (m₀ : Mem) (F₀ : Set ℕ) (t : Phys) : Prop where
  sub : freeSet t ⊆ F₀
  mem_eq : ∀ g, g ∉ F₀ → t.mem g = m₀ g

/-- What a call that copies tables of level `l` does when it succeeds. -/
def Clones (m₀ : Mem) (F₀ : Set ℕ) (hhdm l : ℕ) (x : ℕ → Run Phys (Option ℕ)) : Prop :=
  ∀ {n : ℕ} {t t' : Phys} {r : ℕ}, (∀ g ∈ tablesIn m₀ l n, g ∉ F₀) → Inv t →
    t.pmm.hhdmOffset = hhdm → t.pmm.totalFrames ≤ 2 ^ 40 → Source m₀ F₀ t →
    (x (n * frameSize)).run t = .ok (some r) t' →
    ∃ d, r = d * frameSize ∧ d < 2 ^ 40 ∧ Copying m₀ l n t t' d 512

section

variable {m₀ : Mem} {F₀ : Set ℕ} {hhdm l n d : ℕ} {t₀ : Phys} {child : ℕ → Run Phys (Option ℕ)}

theorem Copying.source {t : Phys} {i : ℕ} (hC : Copying m₀ l n t₀ t d i)
    (hS : Source m₀ F₀ t₀) : Source m₀ F₀ t := by
  refine ⟨hC.free_sub.trans hS.sub, ?_⟩
  intro g hg
  rw [hC.mem_eq g fun h => hg (hS.sub h), hS.mem_eq g hg]

/-- The source is not written while it is read. -/
theorem Copying.readAt_source {t : Phys} {i : ℕ} (hC : Copying m₀ l n t₀ t d i)
    (hsrc : ∀ g ∈ tablesIn m₀ l n, g ∉ F₀) (hS : Source m₀ F₀ t₀)
    (hhdm₀ : t₀.pmm.hhdmOffset = hhdm) (hi : i < 512) :
    (readAt (blockPtr hhdm n + 8 * i)).run t = .ok (m₀ n i) t := by
  have hentry : t.mem n i = m₀ n i :=
    congrFun ((hC.source hS).mem_eq n (hsrc n (self_mem_tablesIn m₀ l n))) i
  rw [← hentry]
  exact readAt_slot (hC.hhdm.trans hhdm₀) hi

/-- A turn of the loop: the entry is copied, or the table that it refers to could not be. -/
theorem cloneEntries_step (hchild : l ≠ 0 → Clones m₀ F₀ hhdm (l - 1) child)
    (hsrc : ∀ g ∈ tablesIn m₀ l n, g ∉ F₀) (hS : Source m₀ F₀ t₀)
    (hhdm₀ : t₀.pmm.hhdmOffset = hhdm) (htotal : t₀.pmm.totalFrames ≤ 2 ^ 40) {k i : ℕ}
    {t t' : Phys} {done : Bool} (hi : i < 512) (hC : Copying m₀ l n t₀ t d i)
    (hrun : (cloneEntries l child (blockPtr hhdm n) (blockPtr hhdm d) (k + 1) i).run t =
      .ok done t') :
    (∃ t₁, Copying m₀ l n t₀ t₁ d (i + 1) ∧
      (cloneEntries l child (blockPtr hhdm n) (blockPtr hhdm d) k (i + 1)).run t₁ = .ok done t') ∨
    done = false ∧ l ≠ 0 ∧ ∃ f, kind l (m₀ n i) = .table f ∧
      (∀ g ∈ tablesIn m₀ (l - 1) f, g ∉ F₀) ∧ (child (f * frameSize)).run t = .ok none t' := by
  have hh : t.pmm.hhdmOffset = hhdm := hC.hhdm.trans hhdm₀
  unfold cloneEntries at hrun
  rw [Prog.bind_of_ok (hC.readAt_source hsrc hS hhdm₀ hi)] at hrun
  cases hk : kind l (m₀ n i) with
  | absent =>
      rw [if_pos ((and_one_eq_zero_iff _).2 (kind_eq_absent_iff.1 hk))] at hrun
      exact Or.inl ⟨t, hC.skip hi hk, hrun⟩
  | leaf =>
      rcases kind_eq_leaf_iff.1 hk with ⟨h0, hleaf⟩
      have hwrite : (writeAt (blockPtr hhdm d + 8 * i) (m₀ n i)).run t =
          .ok () (putWord t d i (m₀ n i)) := writeAt_slot hh hi _
      rw [if_neg (present_ne h0), if_pos (isLeaf_iff.2 hleaf), Prog.bind_of_ok hwrite] at hrun
      exact Or.inl ⟨_, hC.leaf hi hk, hrun⟩
  | table f =>
      rcases kind_eq_table_iff.1 hk with ⟨h0, hleaf, hf⟩
      have hl : l ≠ 0 := fun h => hleaf (Or.inl h)
      have hbelow : ∀ g ∈ tablesIn m₀ (l - 1) f, g ∉ F₀ := by
        rintro g ⟨q, hq⟩
        exact hsrc g ⟨⟨i, hi⟩ :: q, Radix.tableAt_cons_iff.2 ⟨f, hk, hq⟩⟩
      rw [if_neg (present_ne h0), if_neg fun h => hleaf (isLeaf_iff.1 h), toNat_and_addrMask,
        hf] at hrun
      rcases Prog.bind_ok_iff.1 hrun with ⟨r, t₁, hcall, hrest⟩
      cases r with
      | none =>
          cases hrest
          exact Or.inr ⟨rfl, hl, f, rfl, hbelow, hcall⟩
      | some r =>
          rcases hchild hl hbelow hC.inv hh (hC.total.trans_le htotal) (hC.source hS) hcall
            with ⟨c, rfl, hc, hsub⟩
          have hh₁ : t₁.pmm.hhdmOffset = hhdm := hsub.hhdm.trans hh
          have hwrite : (writeAt (blockPtr hhdm d + 8 * i) (copyEntry c (m₀ n i))).run t₁ =
              .ok () (putWord t₁ d i (copyEntry c (m₀ n i))) := writeAt_slot hh₁ hi _
          exact Or.inl ⟨_, hC.graft hi hk hc hsub, (Prog.bind_of_ok hwrite).symm.trans hrest⟩

/-- The loop over the entries. -/
theorem cloneEntries_ok (hchild : l ≠ 0 → Clones m₀ F₀ hhdm (l - 1) child)
    (hsrc : ∀ g ∈ tablesIn m₀ l n, g ∉ F₀) (hS : Source m₀ F₀ t₀)
    (hhdm₀ : t₀.pmm.hhdmOffset = hhdm) (htotal : t₀.pmm.totalFrames ≤ 2 ^ 40) :
    ∀ {k i : ℕ} {t t' : Phys}, i + k = 512 → Copying m₀ l n t₀ t d i →
    (cloneEntries l child (blockPtr hhdm n) (blockPtr hhdm d) k i).run t = .ok true t' →
    Copying m₀ l n t₀ t' d 512 := by
  intro k
  induction k with
  | zero =>
      intro i t t' hi hC hrun
      cases hrun
      exact hi ▸ hC
  | succ k ih =>
      intro i t t' hi hC hrun
      rcases cloneEntries_step hchild hsrc hS hhdm₀ htotal (by omega) hC hrun with
        ⟨t₁, hC₁, hrest⟩ | ⟨hfalse, -⟩
      · exact ih (by omega) hC₁ hrest
      · cases hfalse

theorem zeroFrame_ok {t t' : Phys} {u : Unit} (hh : t.pmm.hhdmOffset = hhdm)
    (hrun : (zeroFrame (d * frameSize) hhdm).run t = .ok u t') : blockPtr hhdm d < 2 ^ 64 ∧
      t' = { t with mem := fun g j => if g = d ∧ j < 512 then 0 else t.mem g j } := by
  have hdst : blockPtr hhdm d < 2 ^ 64 := by
    unfold zeroFrame at hrun
    rcases Prog.bind_ok_iff.1 hrun with ⟨p, _, hp, -⟩
    exact (addU64_ok_iff.1 hp).1
  rw [zeroFrame_frame hh hdst] at hrun
  cases hrun
  exact ⟨hdst, rfl⟩

/-- The call once its frame is found: the new table is zeroed, the loop runs, and if it fails
the copy is freed. -/
theorem cloneInto_run (m₀ : Mem) {t₁ t' : Phys} {r : Option ℕ} (htook : Took t₀ t₁ 0 d)
    (hhdm₀ : t₀.pmm.hhdmOffset = hhdm)
    (hrun : (cloneInto hhdm l child (n * frameSize) (d * frameSize)).run t₁ = .ok r t') :
    ∃ t₂ t₃ done, Copying m₀ l n t₀ t₂ d 0 ∧
      (cloneEntries l child (blockPtr hhdm n) (blockPtr hhdm d) 512 0).run t₂ = .ok done t₃ ∧
      (done = true ∧ r = some (d * frameSize) ∧ t' = t₃ ∨
        done = false ∧ r = none ∧ (freeClonedTable hhdm l (d * frameSize)).run t₃ = .ok () t') := by
  unfold cloneInto at hrun
  rcases Prog.bind_ok_iff.1 hrun with ⟨_, t₂, hzero, hrun⟩
  rcases zeroFrame_ok (htook.hhdm.trans hhdm₀) hzero with ⟨hdst, rfl⟩
  rcases Prog.bind_ok_iff.1 hrun with ⟨src, t₂, hp, hrun⟩
  rcases addU64_ok_iff.1 hp with ⟨hlt, hsrcPtr, rfl⟩
  rcases Prog.bind_ok_iff.1 hrun with ⟨dst, t₂, hp, hrun⟩
  rcases addU64_ok_iff.1 hp with ⟨-, hdstPtr, rfl⟩
  change src = blockPtr hhdm n at hsrcPtr
  change dst = blockPtr hhdm d at hdstPtr
  subst hsrcPtr hdstPtr
  rcases Prog.bind_ok_iff.1 hrun with ⟨done, t₃, hloop, hrun⟩
  refine ⟨_, t₃, done, Copying.start htook (hhdm₀ ▸ hlt) (hhdm₀ ▸ hdst), hloop, ?_⟩
  cases done with
  | true =>
      cases hrun
      exact Or.inl ⟨rfl, rfl, rfl⟩
  | false =>
      rcases Prog.bind_ok_iff.1 hrun with ⟨_, _, hfree, hnone⟩
      cases hnone
      exact Or.inr ⟨rfl, rfl, hfree⟩

/-- What a call that copies a table of level `l` consists of. -/
def cloneCall (hhdm l : ℕ) (child : ℕ → Run Phys (Option ℕ)) (src : ℕ) : Run Phys (Option ℕ) := do
  let frame ← allocPages 0
  match frame with
  | none => pure none
  | some dstFrame => cloneInto hhdm l child src dstFrame

/-- There is no frame, or the call goes on with one. -/
theorem cloneCall_run {t t' : Phys} {src : ℕ} {r : Option ℕ} (hI : Inv t)
    (hrun : (cloneCall hhdm l child src).run t = .ok r t') :
    r = none ∧ t' = t ∧ freeSet t = ∅ ∨ ∃ d t₁, Took t t₁ 0 d ∧ d < t.pmm.totalFrames ∧
      (cloneInto hhdm l child src (d * frameSize)).run t₁ = .ok r t' := by
  rcases Prog.bind_ok_iff.1 hrun with ⟨frame, t₁, halloc, hrun⟩
  rcases allocPages_ok hI halloc with ⟨-, hpost⟩
  cases frame with
  | none =>
      cases hrun
      exact Or.inl ⟨rfl, hpost.1, AllocPost.freeSet_eq_empty hpost⟩
  | some addr =>
      rcases hpost with ⟨d, rfl, htook⟩
      have hend := (htook.returnable hI (Nat.zero_le maxOrder)).in_range
      rw [htook.total] at hend
      exact Or.inr ⟨d, t₁, htook, hend, hrun⟩

/-- A call copies a table if the calls for the level below do. -/
theorem cloneCall_ok (hchild : l ≠ 0 → Clones m₀ F₀ hhdm (l - 1) child) :
    Clones m₀ F₀ hhdm l (cloneCall hhdm l child) := by
  intro n t t' r hsrc hI hh htotal hS hrun
  rcases cloneCall_run hI hrun with ⟨hnone, -⟩ | ⟨d, t₁, htook, hd, hinto⟩
  · cases hnone
  · rcases cloneInto_run m₀ htook hh hinto with
      ⟨t₂, t₃, done, hC, hloop, ⟨rfl, hr, rfl⟩ | ⟨-, hr, -⟩⟩
    · cases hr
      exact ⟨d, rfl, by omega,
        cloneEntries_ok hchild hsrc hS hh htotal (Nat.zero_add 512) hC hloop⟩
    · cases hr

/-- `clone_table` copies what it is asked to copy. -/
theorem cloneTable_ok : ∀ l, Clones m₀ F₀ hhdm l (cloneTable hhdm l) := by
  intro l
  induction l with
  | zero => exact cloneCall_ok fun h => absurd rfl h
  | succ l ih => exact cloneCall_ok fun _ => ih

end

/-! ## Meaning is preserved -/

/-- The manager over physical memory, with its top level at `top`. -/
def vmAt (s : Phys) (top : ℕ) : Vm := ⟨s, s.pmm.hhdmOffset, top, []⟩

theorem root_vmAt (s : Phys) (n : ℕ) : root (vmAt s (n * frameSize)) = n :=
  Nat.mul_div_cancel n (by decide : 0 < frameSize)

theorem tableAt_vmAt (s : Phys) (n : ℕ) (p : List (Fin 512)) :
    tableAt (vmAt s (n * frameSize)) p = Radix.tableAt kind (entries s.mem) 3 n p := by
  unfold tableAt
  rw [root_vmAt]
  rfl

theorem walk_vmAt (s : Phys) (n : ℕ) (p : List (Fin 512)) :
    walk (vmAt s (n * frameSize)) p = Radix.walk kind (entries s.mem) 3 n p := by
  unfold walk
  rw [root_vmAt]
  rfl

section

variable {hhdm l n d : ℕ} {m m' : Mem}

/-- Walks through the copy find the leaves of the source. -/
theorem Copy.walk_eq (h : Copy hhdm m m' l n d) (q : List (Fin 512)) :
    Radix.walk kind (entries m') l d q = Radix.walk kind (entries m) l n q := by
  refine Mirror.walk_eq h ?_ ?_ q
  · intro k f f' i htwin hk
    have hzero : entries m' f' i = 0 := (htwin.copy i).absent hk
    rw [hzero, kind_zero_word]
  · intro k f f' i htwin hk
    exact (htwin.copy i).leaf hk

/-- Every table of the copy is a copy of the table at the same path. -/
theorem Copy.tableAt_source (h : Copy hhdm m m' l n d) {p : List (Fin 512)} {f' : ℕ}
    (hp : Radix.tableAt kind (entries m') l d p = some f') :
    ∃ f, Radix.tableAt kind (entries m) l n p = some f ∧ Twin hhdm m m' (l - p.length) f f' := by
  refine Mirror.tableAt_source h ?_ hp
  intro k f f₁ i htwin hno n₁ hk₁
  cases hk : kind k (entries m f i) with
  | absent =>
      have hzero : entries m' f₁ i = 0 := (htwin.copy i).absent hk
      rw [hzero, kind_zero_word] at hk₁
      cases hk₁
  | leaf =>
      have hsame : entries m' f₁ i = entries m f i := (htwin.copy i).leaf hk
      rw [hsame, hk] at hk₁
      cases hk₁
  | table g => exact hno g hk

/-- An entry that leads to a table has a copy that leads to the copy of that table. -/
theorem Copy.table_entry (h : Copy hhdm m m' l n d) {p : List (Fin 512)} {n₁ f : ℕ}
    {i : Fin 512} (hp : Radix.tableAt kind (entries m) l n p = some n₁)
    (hk : kind (l - p.length) (m n₁ i) = .table f) :
    ∃ n' f', Radix.tableAt kind (entries m') l d p = some n' ∧
      kind (l - p.length) (m' n' i) = .table f' ∧
      m' n' i &&& ~~~addrMask = m n₁ i &&& ~~~addrMask := by
  rcases h p n₁ hp with ⟨n', hn', htwin⟩
  rcases h (p ++ [i]) f (Radix.tableAt_snoc_iff.2 ⟨n₁, hp, hk⟩) with ⟨f', hf', -⟩
  rcases Radix.tableAt_snoc_iff.1 hf' with ⟨n₂, hn₂, hk'⟩
  cases hn'.symm.trans hn₂
  exact ⟨n', f', hn', hk', (htwin.copy i).table f hk⟩

section

variable (hkept : ∀ p f, Radix.tableAt kind (entries m) l n p = some f → m' f = m f)

include hkept

/-- A structure whose tables are not written is the same. -/
theorem tableAt_of_kept (p : List (Fin 512)) :
    Radix.tableAt kind (entries m') l n p = Radix.tableAt kind (entries m) l n p := by
  refine Radix.tableAt_congr ?_
  intro q i _ f _ hq
  exact congrFun (hkept q f hq) i

theorem walk_of_kept (p : List (Fin 512)) :
    Radix.walk kind (entries m') l n p = Radix.walk kind (entries m) l n p := by
  refine Radix.walk_congr ?_
  intro q i _ f _ hq
  exact congrFun (hkept q f hq) i

end

theorem readable_vmAt {s : Phys}
    (hptr : ∀ p f, Radix.tableAt kind (entries s.mem) 3 n p = some f →
      blockPtr s.pmm.hhdmOffset f < 2 ^ 64) : Readable (vmAt s (n * frameSize)) := by
  refine ⟨rfl, ?_, ?_⟩
  · rw [root_vmAt]
    rfl
  · intro p f hp
    rw [tableAt_vmAt] at hp
    exact hptr p f hp

end

/-! ## `take_ownership` -/

/-- The frames of a finite set of tables, as blocks. -/
theorem holds_tableBlocks {s s' : Phys} {others : List (ℕ × ℕ)} (hH : Holds s others)
    (hI : Inv s') (hhdm : s'.pmm.hhdmOffset = s.pmm.hhdmOffset)
    (htotal : s'.pmm.totalFrames = s.pmm.totalFrames) {T : Finset ℕ} (hT : ∀ f ∈ T, f ∈ freeSet s)
    (hfree : freeSet s' = freeSet s \ {f | f ∈ T}) :
    Holds s' (tableBlocks T.toList ++ others) := by
  rcases hH.inv.rep with ⟨L, hR, -⟩
  have hblock : ∀ b ∈ tableBlocks T.toList, ∃ f ∈ T, b = (f * frameSize, 0) ∧ frames b = {f} := by
    intro b hb
    rcases List.mem_map.1 hb with ⟨f, hf, rfl⟩
    exact ⟨f, Finset.mem_toList.1 hf, rfl, by rw [frames_mul, Dyadic.block_zero]⟩
  refine ⟨hI, hH.direct.congr htotal hhdm, ?_, ?_, ?_⟩
  · intro b hb
    rcases List.mem_append.1 hb with hb | hb
    · rcases hblock b hb with ⟨f, hf, rfl, -⟩
      have hlt := hR.freeSet_lt (hT f hf)
      rw [← htotal] at hlt
      exact ⟨Nat.zero_le maxOrder, f, rfl, Nat.one_dvd f, hlt⟩
    · exact (hH.blocks b hb).congr htotal
  · rw [List.pairwise_append]
    refine ⟨?_, hH.disjoint, ?_⟩
    · unfold tableBlocks
      rw [List.pairwise_map]
      refine (Finset.nodup_toList T).imp ?_
      intro f g hne
      rw [frames_mul, frames_mul, Dyadic.block_zero, Dyadic.block_zero, Set.disjoint_singleton]
      exact hne
    · -- the tables were free, and no block of others was
      intro b hb b' hb'
      rcases hblock b hb with ⟨f, hf, -, hframes⟩
      rw [hframes, Set.disjoint_singleton_left]
      exact fun h => hH.notMem_freeSet hb' h (hT f hf)
  · intro b hb
    rw [hfree]
    rcases List.mem_append.1 hb with hb | hb
    · rcases hblock b hb with ⟨f, hf, -, hframes⟩
      rw [hframes, Set.disjoint_singleton_left]
      exact fun h => h.2 hf
    · exact (hH.apart b hb).mono_right Set.sdiff_subset

/-- `take_ownership` leaves the manager with tables of its own, and switches to them
without a change of the other bits of `cr3`. -/
theorem takeOwnership_start {c c' : Cpu} {others : List (ℕ × ℕ)} {top : ℕ}
    (hH : Holds c.phys others) (htotal : c.phys.pmm.totalFrames ≤ 2 ^ 40)
    (hsrc : ∀ f ∈ tablesIn c.phys.mem 3 (frameOf c.cr3), f ∉ freeSet c.phys)
    (hrun : (takeOwnership c.phys.pmm.hhdmOffset).run c = .ok (some top) c') :
    (∃ init, World.Start init ⟨vmAt c'.phys top, others⟩) ∧
      (c'.cr3 &&& addrMask).toNat = top ∧ c'.cr3 &&& ~~~addrMask = c.cr3 &&& ~~~addrMask := by
  unfold takeOwnership at hrun
  rw [Prog.gets_bind, toNat_and_addrMask] at hrun
  rcases Prog.bind_ok_iff.1 hrun with ⟨r, c₁, hzoom, hswitch⟩
  rcases Prog.zoom_ok_iff.1 hzoom with ⟨t, hclone, rfl⟩
  cases r with
  | none => cases hswitch
  | some dst =>
      cases hswitch
      rcases cloneTable_ok 3 hsrc hH.inv rfl htotal ⟨subset_rfl, fun _ _ => rfl⟩ hclone with
        ⟨d, rfl, hd, hC⟩
      have hcr3 : ((BitVec.ofNat 64 (d * frameSize) &&& addrMask) ||| (c.cr3 &&& ~~~addrMask)) =
          copyEntry d c.cr3 := rfl
      refine ⟨?_, ?_, copyEntry_flags d c.cr3⟩
      · rcases hH.inv.rep with ⟨L, hR, -⟩
        have hfin : (tablesIn t.mem 3 d).Finite := hR.freeSet_finite.subset hC.fresh
        refine ⟨hfin.toFinset.toList,
          ⟨rfl, ?_, ?_, ?_, ?_, ?_, rfl, List.not_mem_nil, trivial⟩, rfl⟩
        · rw [root_vmAt]
          rfl
        · exact hC.total.trans_le htotal
        · refine holds_tableBlocks hH hC.inv hC.hhdm hC.total ?_ ?_
          · exact fun f hf => hC.fresh (hfin.mem_toFinset.1 hf)
          · simp only [Set.Finite.mem_toFinset, Set.ofPred_mem_eq]
            exact hC.free_eq
        · intro f
          simp only [Finset.mem_toList, Set.Finite.mem_toFinset, tableAt_vmAt]
          rfl
        · rw [root_vmAt]
          exact hC.unshared
      · change (copyEntry d c.cr3 &&& addrMask).toNat = _
        rw [toNat_and_addrMask, frameOf_copyEntry hd]
        rfl

end Prometheos.Vmm
