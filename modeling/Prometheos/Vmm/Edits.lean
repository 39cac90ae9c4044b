import Prometheos.Vmm.Tables

/-!
# The steps of the virtual memory manager

What the helpers of `map` and `unmap` do to a state with the ownership invariant `Tree`:

* `nextTable_spec`: the table of a slot is found, or created (`Installed`);
* `dropTable_spec`: an empty table is given back (`Removed`);
* `mapLeaf_spec`: a page is mapped in a vacant slot, and no other (`Mapped`);
* `Prepared.undo`: the rollback of `map` leaves the tables as they were (`Restored`).
-/

namespace Prometheos.Vmm

open Pmm
open Radix (Kind Unshared Outside)

/-! ## Slots -/

/-- The pointer to entry `i` of the table in frame `f`. -/
def slotPtr (hhdm f i : ℕ) : ℕ := blockPtr hhdm f + 8 * i

theorem le_slotPtr (hhdm f i : ℕ) : hhdm ≤ slotPtr hhdm f i :=
  (le_blockPtr hhdm f).trans (Nat.le_add_right _ _)

theorem ptrFrame_slotPtr {hhdm f i : ℕ} (hi : i < 512) :
    ptrFrame hhdm (slotPtr hhdm f i) = f := by
  unfold ptrFrame slotPtr blockPtr
  omega

theorem ptrIndex_slotPtr {hhdm f i : ℕ} (hi : i < 512) :
    ptrIndex hhdm (slotPtr hhdm f i) = i := by
  unfold ptrIndex slotPtr blockPtr
  omega

/-- The state after a store to a table. -/
def putEntry (s : Vm) (f i : ℕ) (w : Word) : Vm :=
  { s with
    phys := { s.phys with mem := s.phys.mem.set f i w }
    trace := .store (s.phys.mem.set f i w) :: s.trace }

section

variable {σ α : Type} {s : Vm} {hhdm f i : ℕ}

theorem onPhys_of_ok {x : Run Phys α} {a : α} {t : Phys} (hx : x.run s.phys = .ok a t) :
    (onPhys x).run s = .ok a { s with phys := t } := Prog.zoom_of_ok hx

theorem tableMut_frame (hlt : blockPtr hhdm f < 2 ^ 64) (t : σ) :
    (tableMut (f * frameSize) hhdm : Run σ ℕ).run t = .ok (blockPtr hhdm f) t :=
  addU64_of_lt hlt t

theorem entrySlot_frame (hlt : blockPtr hhdm f < 2 ^ 64) (hi : i < 512) (t : σ) :
    (entrySlot (f * frameSize) i hhdm : Run σ ℕ).run t = .ok (slotPtr hhdm f i) t := by
  unfold entrySlot
  rw [Prog.bind_of_ok (tableMut_frame hlt t)]
  exact Prog.require_bind hi _ _ t

theorem readAt_slot {t : Phys} (hh : t.pmm.hhdmOffset = hhdm) (hi : i < 512) :
    (readAt (slotPtr hhdm f i)).run t = .ok (t.mem f i) t := by
  subst hh
  unfold readAt
  rw [Prog.gets_bind, onMem_of_ok (load_of_le (le_slotPtr _ f i) t.mem), ptrFrame_slotPtr hi,
    ptrIndex_slotPtr hi]

theorem writeAt_slot {t : Phys} (hh : t.pmm.hhdmOffset = hhdm) (hi : i < 512) (w : Word) :
    (writeAt (slotPtr hhdm f i) w).run t = .ok () { t with mem := t.mem.set f i w } := by
  subst hh
  unfold writeAt
  rw [Prog.gets_bind, onMem_of_ok (store_of_le (le_slotPtr _ f i) w t.mem), ptrFrame_slotPtr hi,
    ptrIndex_slotPtr hi]

theorem readEntry_slot (hh : s.phys.pmm.hhdmOffset = hhdm) (hi : i < 512) :
    (readEntry (slotPtr hhdm f i)).run s = .ok (s.phys.mem f i) s :=
  onPhys_of_ok (readAt_slot hh hi)

theorem writeEntry_slot (hh : s.phys.pmm.hhdmOffset = hhdm) (hi : i < 512) (w : Word) :
    (writeEntry (slotPtr hhdm f i) w).run s = .ok () (putEntry s f i w) := by
  unfold writeEntry
  rw [Prog.bind_of_ok (onPhys_of_ok (writeAt_slot hh hi w))]
  rfl

/-- `zero_frame` writes one frame. -/
theorem zeroed_blockPtr (hhdm f : ℕ) (m : Mem) :
    zeroed hhdm (blockPtr hhdm f) m = fun g j => if g = f ∧ j < 512 then 0 else m g j := by
  funext g j
  unfold zeroed blockPtr
  by_cases hj : j < 512
  · by_cases hg : g = f
    · rw [if_pos (by omega), if_pos ⟨hg, hj⟩]
    · rw [if_neg (by omega), if_neg fun h => hg h.1]
  · rw [if_neg fun h => hj h.1, if_neg fun h => hj h.2]

theorem zeroFrame_frame {t : Phys} (hh : t.pmm.hhdmOffset = hhdm)
    (hlt : blockPtr hhdm f < 2 ^ 64) :
    (zeroFrame (f * frameSize) hhdm).run t =
      .ok () { t with mem := fun g j => if g = f ∧ j < 512 then 0 else t.mem g j } := by
  subst hh
  have hp : (addU64 (f * frameSize) t.pmm.hhdmOffset : Run Phys ℕ).run t =
      .ok (blockPtr t.pmm.hhdmOffset f) t := addU64_of_lt hlt t
  unfold zeroFrame
  rw [Prog.bind_of_ok hp, Prog.gets_bind, Prog.require_bind (le_blockPtr _ f),
    onMem_of_ok (Prog.run_update _ _), zeroed_blockPtr]

end

/-! ## Edits of the tables -/

/-- An empty table was installed in entry `i` of the table `n` at `p`. -/
structure Installed (s s' : Vm) (p : List (Fin 512)) (n : ℕ) (i : Fin 512) (f : ℕ) : Prop where
  edit : Edit s s' n i
  parent : tableAt s p = some n
  absent : kind (3 - p.length) (s.phys.mem n i) = .absent
  fresh : f ∈ freeSet s.phys
  free_eq : freeSet s'.phys = freeSet s.phys \ {f}
  zero : ∀ j : Fin 512, s'.phys.mem f j = 0
  tables : ∀ q, tableAt s' q = if q = p ++ [i] then some f else tableAt s q
  walks : ∀ q, walk s' q = walk s q
  quiet : unflushed s'.trace = unflushed s.trace

/-- The empty table `f` was removed from entry `i` of the table `n` at `p`. -/
structure Removed (s s' : Vm) (p : List (Fin 512)) (n : ℕ) (i : Fin 512) (f : ℕ) : Prop where
  edit : Edit s s' n i
  free_eq : freeSet s'.phys = freeSet s.phys ∪ {f}
  entry : s'.phys.mem n i = 0
  tables : ∀ q, tableAt s' q = if q = p ++ [i] then none else tableAt s q
  walks : ∀ q, walk s' q = walk s q
  freed : unflushed s'.trace = f :: unflushed s.trace

/-- The table for entry `i` of the table `n` at `p`: it was there, or it was installed. -/
def Prepared (s s' : Vm) (new : Bool) (p : List (Fin 512)) (n : ℕ) (i : Fin 512) (f : ℕ) : Prop :=
  (new = false ∧ s' = s ∧ tableAt s (p ++ [i]) = some f) ∨
    (new = true ∧ Installed s s' p n i f)

/-- The frames that are free or hold a table. -/
def pool (s : Vm) : Set ℕ := {f | f ∈ freeSet s.phys ∨ ∃ p, tableAt s p = some f}

/-- No table is empty, apart from the PML4 and the table at `p`. -/
def Populated (s : Vm) (p : List (Fin 512)) : Prop :=
  ∀ q n, tableAt s q = some n → q ≠ [] → q ≠ p → ∃ i : Fin 512, (s.phys.mem n i).getLsbD 0 = true

/-- No frame was lost, the table that may be empty is now the one at `p'`, and other frames were
not written to. -/
structure Moved (s : Vm) (p : List (Fin 512)) (s' : Vm) (p' : List (Fin 512)) : Prop where
  pool_eq : pool s' = pool s
  populated : Populated s p → Populated s' p'
  outside : ∀ g, g ∉ pool s → s'.phys.mem g = s.phys.mem g

section

variable {init held : List ℕ} {others : List (ℕ × ℕ)} {s s' : Vm}
  {p q : List (Fin 512)} {i : Fin 512} {n f : ℕ}

theorem Moved.refl (s : Vm) (p : List (Fin 512)) : Moved s p s p :=
  ⟨rfl, fun h => h, fun _ _ => rfl⟩

theorem Moved.trans {s₁ : Vm} {p₁ p' : List (Fin 512)} (h : Moved s p s₁ p₁)
    (h' : Moved s₁ p₁ s' p') : Moved s p s' p' := by
  refine ⟨h'.pool_eq.trans h.pool_eq, fun hpop => h'.populated (h.populated hpop), ?_⟩
  intro g hg
  rw [h'.outside g (h.pool_eq ▸ hg), h.outside g hg]

/-- The same tables and the same free frames. -/
theorem pool_congr (hfree : freeSet s'.phys = freeSet s.phys)
    (htab : ∀ q, tableAt s' q = tableAt s q) : pool s' = pool s := by
  unfold pool
  simp only [hfree, htab]

/-- An edit of a table does not write to frames that are neither free nor tables. -/
theorem Edit.outside {g : ℕ} (hE : Edit s s' n i) (hpool : pool s' = pool s)
    (hp : tableAt s p = some n) (hg : g ∉ pool s) : s'.phys.mem g = s.phys.mem g := by
  have hg' : g ∉ pool s' := hpool ▸ hg
  funext j
  refine hE.mem g (fun h => hg (Or.inl h)) (fun h => hg' (Or.inl h)) j ?_
  rintro ⟨rfl, -⟩
  exact hg (Or.inr ⟨p, hp⟩)

/-- An edit of another table leaves the entries of a table. -/
theorem Populated.of_edit {held' : List ℕ} {p₀ : List (Fin 512)} {g : ℕ} (h : Populated s p₀)
    (hT : Tree init others s held) (hT' : Tree init others s' held') (hE : Edit s s' n i)
    (hp : tableAt s p = some n) (hq : tableAt s q = some g) (hq' : tableAt s' q = some g)
    (hne : q ≠ []) (hp₀ : q ≠ p₀) (hqp : q ≠ p) :
    ∃ j : Fin 512, (s'.phys.mem g j).getLsbD 0 = true := by
  rcases h q g hq hne hp₀ with ⟨j, hj⟩
  refine ⟨j, ?_⟩
  rw [hE.mem g (hT.notFree hq) (hT'.notFree hq') j, hj]
  rintro ⟨rfl, -⟩
  exact hqp (hT.unshared q p g hq hp)

/-- The entry that leads to a table is present. -/
theorem present_of_tableAt_snoc (hp : tableAt s p = some n) (hf : tableAt s (p ++ [i]) = some f) :
    (s.phys.mem n i).getLsbD 0 = true := (kind_eq_table_iff.1 (kind_of_tableAt_snoc hp hf)).1

theorem putEntry_edit (s : Vm) (n : ℕ) (i : Fin 512) (w : Word) :
    Edit s (putEntry s n i w) n i := by
  rcases Edit.set s n i w with ⟨hhhdm, htop, hpmm, htotal, hmem⟩
  exact ⟨hhhdm, htop, hpmm, htotal, hmem⟩

theorem Tree.putEntry_holds (hT : Tree init others s held) (hp : tableAt s p = some n)
    (i : Fin 512) (w : Word) : Holds (putEntry s n i w).phys (tableBlocks held ++ others) := by
  refine hT.holds.write ?_
  intro g hg
  refine Mem.set_frame_ne _ _ _ ?_
  rintro rfl
  exact hT.notFree hp hg

theorem allocFrame_spec (hH : Holds s.phys (tableBlocks held ++ others)) :
    (freeSet s.phys = ∅ ∧ allocFrame.run s = .ok none s) ∨
    ∃ f t, Took s.phys t 0 f ∧ allocFrame.run s =
      .ok (some (f * frameSize)) { s with phys := t, trace := .alloc f :: s.trace } := by
  rcases hH.allocPages_ends (Nat.zero_le maxOrder) with ⟨r, t, hrun, hpost⟩
  unfold allocFrame
  rw [Prog.bind_of_ok (onPhys_of_ok hrun)]
  cases r with
  | none =>
      left
      have hempty := AllocPost.freeSet_eq_empty hpost
      rcases hpost with ⟨rfl, -⟩
      exact ⟨hempty, rfl⟩
  | some addr =>
      right
      rcases hpost with ⟨f, rfl, htook⟩
      refine ⟨f, t, htook, ?_⟩
      dsimp only
      rw [Nat.mul_div_cancel f (by decide : 0 < frameSize)]
      rfl

/-- Memory after `zero_frame`. -/
def zeroMem (m : Mem) (f : ℕ) : Mem := fun g j => if g = f ∧ j < 512 then 0 else m g j

theorem zeroMem_of_ne (m : Mem) {f g : ℕ} (h : g ≠ f) : zeroMem m f g = m g := by
  funext j
  unfold zeroMem
  rw [if_neg fun hc => h hc.1]

/-- The state after a table was created for a slot. -/
def installEntry (s : Vm) (t : Phys) (f n i : ℕ) (w : Word) : Vm :=
  putEntry { s with
    phys := { t with mem := zeroMem t.mem f }
    trace := .store (zeroMem t.mem f) :: .alloc f :: s.trace } n i w

/-- The address of a frame that is taken fits into an entry. -/
theorem Tree.took_lt (hT : Tree init others s held) {t : Phys} (htook : Took s.phys t 0 f) :
    f < 2 ^ 40 := by
  have hend := (htook.returnable hT.holds.inv (Nat.zero_le maxOrder)).in_range
  have htotal := hT.total_le
  rw [htook.total] at hend
  omega

theorem nextTable_install (hT : Tree init others s held) (hp : tableAt s p = some n)
    (hlen : p.length ≤ 2) (hk : kind (3 - p.length) (s.phys.mem n i) = .absent) {t : Phys}
    (htook : Took s.phys t 0 f) {parent : Word} (hparent : parent = flagP ||| flagRW ||| flagUS) :
    Installed s (installEntry s t f n i (BitVec.ofNat 64 (f * frameSize) ||| parent)) p n i f ∧
      Tree init others (installEntry s t f n i (BitVec.ofNat 64 (f * frameSize) ||| parent))
        (f :: held) := by
  have hfresh : f ∈ freeSet s.phys := htook.subset (Dyadic.self_mem_block 0 f)
  have hnot := hT.notFree hp
  have hne : n ≠ f := by
    rintro rfl
    exact hnot hfresh
  have hfree : freeSet t = freeSet s.phys \ {f} := by
    rw [htook.free_eq, Dyadic.block_zero]
  set w := BitVec.ofNat 64 (f * frameSize) ||| parent with hw
  set s' := installEntry s t f n i w with hs'
  have hmem : s'.phys.mem = (zeroMem t.mem f).set n i w := rfl
  have hzeroed : ∀ g, g ∉ freeSet s.phys → zeroMem t.mem f g = s.phys.mem g := by
    intro g hg
    have hgf : g ≠ f := by
      rintro rfl
      exact hg hfresh
    rw [zeroMem_of_ne t.mem hgf, htook.mem_eq g hg]
  have hE : Edit s s' n i := by
    refine ⟨rfl, rfl, htook.hhdm, htook.total, ?_⟩
    intro g hg _ j hcell
    -- only the frame that was free is cleared
    rw [hmem, Mem.set_apply, if_neg hcell, hzeroed g hg]
  have hH : Holds s'.phys (tableBlocks (f :: held) ++ others) := by
    refine (hT.holds.took (Nat.zero_le maxOrder) htook).write ?_
    intro g hg
    rw [hfree] at hg
    have hgn : g ≠ n := by
      rintro rfl
      exact hnot hg.1
    exact (Mem.set_frame_ne _ _ _ hgn).trans (zeroMem_of_ne t.mem hg.2)
  have hentry : kind (3 - p.length) (s'.phys.mem n i) = .table f := by
    rw [hmem, Mem.set_self, hw, hparent]
    exact kind_parentEntry (by omega) (hT.took_lt htook)
  have hzero : ∀ j : Fin 512, s'.phys.mem f j = 0 := by
    intro j
    rw [hmem, Mem.set_frame_ne _ _ _ hne.symm]
    unfold zeroMem
    rw [if_pos ⟨rfl, j.isLt⟩]
  have hsub : freeSet s'.phys ⊆ freeSet s.phys := by
    change freeSet t ⊆ _
    rw [hfree]
    exact Set.sdiff_subset
  rcases hT.install hp hE hfresh hsub hH hzeroed rfl hk hentry hzero with ⟨hT', htab, hwalk⟩
  exact ⟨⟨hE, hp, hk, hfresh, hfree, hzero, htab, hwalk, rfl⟩, hT'⟩

section

variable [X86]

theorem newEntry_of_lt {σ : Type} {a : ℕ} (hmod : a % 4096 = 0) (hlt : a < 2 ^ 52) (flags : Word)
    (t : σ) : (newEntry a flags).run t = .ok (BitVec.ofNat 64 a ||| flags) t := by
  unfold newEntry
  rw [X86.entryNew_eq a flags hmod hlt]
  rfl

theorem newEntry_of_le {σ : Type} {a : ℕ} (hle : 2 ^ 52 ≤ a) (flags : Word) (t : σ) :
    (newEntry a flags).run t = .stop (.panic "assertion failed") t := by
  unfold newEntry
  rw [X86.entryNew_none a flags hle]
  rfl

/-- The table of a slot, created if it is missing. -/
theorem nextTable_spec (hT : Tree init others s held) (hp : tableAt s p = some n)
    (hlen : p.length ≤ 2) (hleaf : kind (3 - p.length) (s.phys.mem n i) ≠ .leaf)
    {parent : Word} (hparent : parent = flagP ||| flagRW ||| flagUS) :
    (kind (3 - p.length) (s.phys.mem n i) = .absent ∧ freeSet s.phys = ∅ ∧
      (nextTable (slotPtr s.hhdmOffset n i) parent s.hhdmOffset).run s = .ok none s) ∨
    ∃ f new s' held', (nextTable (slotPtr s.hhdmOffset n i) parent s.hhdmOffset).run s =
        .ok (some (f * frameSize, new)) s' ∧
      Prepared s s' new p n i f ∧ Tree init others s' held' := by
  have hread := readEntry_slot (f := n) hT.hhdm_eq.symm i.isLt
  unfold nextTable
  rw [Prog.bind_of_ok hread]
  cases hk : kind (3 - p.length) (s.phys.mem n i) with
  | leaf => exact absurd hk hleaf
  | table g =>
      -- the table is there
      right
      have hpres : X86.isPresent (s.phys.mem n i) = true := isPresent_of_table hk
      have htab : tableAt s (p ++ [i]) = some g := tableAt_snoc_iff.2 ⟨n, hp, hk⟩
      refine ⟨g, false, s, held, ?_, Or.inl ⟨rfl, rfl, htab⟩, hT⟩
      rw [if_pos hpres, address_of_table hk]
      rfl
  | absent =>
      have hpres : ¬ X86.isPresent (s.phys.mem n i) = true := not_isPresent hk
      rw [if_neg hpres]
      rcases allocFrame_spec hT.holds with ⟨hempty, hrun⟩ | ⟨f, t, htook, hrun⟩
      · left
        refine ⟨rfl, hempty, ?_⟩
        rw [Prog.bind_of_ok hrun]
        rfl
      · -- a frame is taken and cleared, then the slot refers to it
        right
        rcases nextTable_install hT hp hlen hk htook hparent with ⟨hI, hT'⟩
        refine ⟨f, true, _, f :: held, ?_, Or.inr ⟨rfl, hI⟩, hT'⟩
        have hhdm : t.pmm.hhdmOffset = s.hhdmOffset := by rw [htook.hhdm, hT.hhdm_eq]
        have hok : PtrOk s.hhdmOffset f := by
          have hend := (htook.returnable hT.holds.inv (Nat.zero_le maxOrder)).in_range
          rw [htook.total] at hend
          rw [hT.hhdm_eq]
          exact hT.holds.direct.ptrsOk f (by omega)
        rw [Prog.bind_of_ok hrun]
        refine (Prog.bind_of_ok (onPhys_of_ok (zeroFrame_frame (by exact hhdm) hok.2))).trans ?_
        refine (Prog.bind_of_ok (a := ()) (by rfl)).trans ?_
        have hlt : f * frameSize < 2 ^ 52 := by
          have hframe := hT.took_lt htook
          unfold frameSize
          omega
        refine (Prog.bind_of_ok (newEntry_of_lt (Nat.mul_mod_left f 4096) hlt parent _)).trans ?_
        exact (Prog.bind_of_ok (writeEntry_slot (by exact hhdm) i.isLt _)).trans rfl

end

/-! ## Giving tables back -/

/-- An empty table is cleared from its slot and freed. -/
theorem dropTable_spec (hT : Tree init others s held) (hp : tableAt s p = some n)
    (hbelow : tableAt s (p ++ [i]) = some f)
    (hempty : ∀ j : Fin 512, (s.phys.mem f j).getLsbD 0 = false) :
    ∃ s', (dropTable (slotPtr s.hhdmOffset n i) (f * frameSize)).run s = .ok () s' ∧
      Removed s s' p n i f ∧ Tree init others s' (held.erase f) := by
  have hf : f ∈ held := hT.mem_of_tableAt hbelow
  have hperm : (tableBlocks held ++ others).Perm
      ((f * frameSize, 0) :: (tableBlocks (held.erase f) ++ others)) :=
    ((List.perm_cons_erase hf).map _).append_right others
  have hH := (hT.putEntry_holds hp i 0).perm hperm
  rcases hH.freePages_ends List.mem_cons_self with ⟨g, t, hg, hfree, hgrew⟩
  have hgf : g = f := (Nat.eq_of_mul_eq_mul_right (by decide : 0 < frameSize) hg).symm
  subst hgf
  set s' : Vm := { putEntry s n i 0 with
    phys := t, trace := .free g :: (putEntry s n i 0).trace } with hs'
  have hfs : freeSet s'.phys = freeSet s.phys ∪ {g} := by
    change freeSet t = _
    rw [hgrew.free_eq, Dyadic.block_zero]
    rfl
  have hnot : n ∉ freeSet s'.phys := by
    rw [hfs]
    rintro (hin | rfl)
    · exact hT.notFree hp hin
    · -- a table is not its own parent
      have hself := hT.unshared p (p ++ [i]) n hp hbelow
      simp at hself
  have hE : Edit s s' n i := by
    refine ⟨rfl, rfl, hgrew.hhdm, hgrew.total, ?_⟩
    intro g' hg' hg'' j hcell
    change t.mem g' j = _
    rw [hgrew.mem_eq g' hg'']
    exact (putEntry_edit s n i 0).mem g' hg' hg' j hcell
  have hentry : s'.phys.mem n i = 0 := by
    change t.mem n i = 0
    rw [hgrew.mem_eq n hnot]
    exact Mem.set_self _ _ _ _
  have hH' : Holds s'.phys (tableBlocks (held.erase g) ++ others) := hH.gave rfl hgrew
  rcases hT.remove hp hE hbelow hfs hH' rfl hentry hempty with ⟨hT', htab, hwalk⟩
  refine ⟨s', ?_, ⟨hE, hfs, hentry, htab, hwalk, rfl⟩, hT'⟩
  unfold dropTable
  rw [Prog.bind_of_ok (writeEntry_slot hT.hhdm_eq.symm i.isLt 0)]
  unfold freeFrame
  refine (Prog.bind_of_ok (onPhys_of_ok hfree)).trans ?_
  rw [Nat.mul_div_cancel g (by decide : 0 < frameSize)]
  rfl

/-- The tables and the free frames are as before; an entry that was not present may have
been cleared. -/
structure Restored (s s' : Vm) : Prop where
  hhdm : s'.hhdmOffset = s.hhdmOffset
  top : s'.topLevel = s.topLevel
  pmmHhdm : s'.phys.pmm.hhdmOffset = s.phys.pmm.hhdmOffset
  total : s'.phys.pmm.totalFrames = s.phys.pmm.totalFrames
  free_eq : freeSet s'.phys = freeSet s.phys
  mem : ∀ g, g ∉ freeSet s.phys → ∀ j, s'.phys.mem g j = s.phys.mem g j ∨
    ((s.phys.mem g j).getLsbD 0 = false ∧ s'.phys.mem g j = 0)
  tables : ∀ q, tableAt s' q = tableAt s q
  walks : ∀ q, walk s' q = walk s q
  outside : ∀ g, g ∉ pool s → s'.phys.mem g = s.phys.mem g

theorem Restored.refl (s : Vm) : Restored s s :=
  ⟨rfl, rfl, rfl, rfl, rfl, fun _ _ _ => Or.inl rfl, fun _ => rfl, fun _ => rfl, fun _ _ => rfl⟩

/-- There was no table before. -/
theorem Installed.tableAt_eq_none (hI : Installed s s' p n i f) : tableAt s (p ++ [i]) = none := by
  rw [Option.eq_none_iff_forall_ne_some]
  intro g hg
  cases hI.absent.symm.trans (kind_of_tableAt_snoc hI.parent hg)

theorem Installed.ne (hI : Installed s s' p n i f) : s' ≠ s := by
  rintro rfl
  have hfresh := hI.fresh
  rw [hI.free_eq] at hfresh
  exact hfresh.2 rfl

theorem Installed.pool_eq (hI : Installed s s' p n i f) : pool s' = pool s := by
  have hself : tableAt s' (p ++ [i]) = some f := by rw [hI.tables, if_pos rfl]
  have hold : ∀ q, q ≠ p ++ [i] → tableAt s' q = tableAt s q := by
    intro q hq
    rw [hI.tables, if_neg hq]
  ext g
  constructor
  · rintro (hfree | ⟨q, hq⟩)
    · rw [hI.free_eq] at hfree
      exact Or.inl hfree.1
    · by_cases hqp : q = p ++ [i]
      · rw [hqp, hself] at hq
        cases hq
        exact Or.inl hI.fresh
      · exact Or.inr ⟨q, (hold q hqp).symm.trans hq⟩
  · rintro (hfree | ⟨q, hq⟩)
    · by_cases hgf : g = f
      · exact Or.inr ⟨p ++ [i], hgf ▸ hself⟩
      · left
        rw [hI.free_eq]
        exact ⟨hfree, hgf⟩
    · refine Or.inr ⟨q, (hold q ?_).trans hq⟩
      rintro rfl
      exact Option.some_ne_none g (hq.symm.trans hI.tableAt_eq_none)

/-- The new table is empty, and the table it was installed in is not. -/
theorem Installed.moved {held' : List ℕ} (hI : Installed s s' p n i f)
    (hT : Tree init others s held) (hT' : Tree init others s' held') :
    Moved s p s' (p ++ [i]) := by
  have hself : tableAt s' (p ++ [i]) = some f := by rw [hI.tables, if_pos rfl]
  refine ⟨hI.pool_eq, ?_, fun g hg => hI.edit.outside hI.pool_eq hI.parent hg⟩
  intro hpop q g hq hne hqi
  have hq₀ : tableAt s q = some g := by
    rw [hI.tables, if_neg hqi] at hq
    exact hq
  by_cases hqp : q = p
  · subst hqp
    exact ⟨i, present_of_tableAt_snoc hq hself⟩
  · exact hpop.of_edit hT hT' hI.edit hI.parent hq₀ hq hne hqp hqp

theorem Removed.pool_eq (hR : Removed s s' p n i f) (hbelow : tableAt s (p ++ [i]) = some f) :
    pool s' = pool s := by
  ext g
  constructor
  · rintro (hfree | ⟨q, hq⟩)
    · rw [hR.free_eq] at hfree
      rcases hfree with hfree | rfl
      · exact Or.inl hfree
      · exact Or.inr ⟨p ++ [i], hbelow⟩
    · rw [hR.tables] at hq
      split at hq
      · cases hq
      · exact Or.inr ⟨q, hq⟩
  · rintro (hfree | ⟨q, hq⟩)
    · left
      rw [hR.free_eq]
      exact Or.inl hfree
    · by_cases hqp : q = p ++ [i]
      · left
        rw [hqp, hbelow] at hq
        rw [hR.free_eq]
        exact Or.inr (Option.some.inj hq).symm
      · right
        refine ⟨q, ?_⟩
        rw [hR.tables, if_neg hqp, hq]

/-- Only the table that a table was removed from can have become empty. -/
theorem Removed.moved {held' : List ℕ} (hR : Removed s s' p n i f)
    (hT : Tree init others s held) (hT' : Tree init others s' held') (hp : tableAt s p = some n)
    (hbelow : tableAt s (p ++ [i]) = some f) : Moved s (p ++ [i]) s' p := by
  have hpool := hR.pool_eq hbelow
  refine ⟨hpool, ?_, fun g hg => hR.edit.outside hpool hp hg⟩
  intro hpop q g hq hne hqp
  have hqi : q ≠ p ++ [i] := by
    rintro rfl
    rw [hR.tables, if_pos rfl] at hq
    cases hq
  have hq₀ : tableAt s q = some g := by
    rw [hR.tables, if_neg hqi] at hq
    exact hq
  exact hpop.of_edit hT hT' hR.edit hp hq₀ hq hne hqi hqp

/-- A rollback moves nothing. -/
theorem Restored.moved (hR : Restored s s') (hT : Tree init others s held) : Moved s p s' p := by
  refine ⟨pool_congr hR.free_eq hR.tables, ?_, hR.outside⟩
  intro hpop q g hq hne hqp
  rw [hR.tables] at hq
  rcases hpop q g hq hne hqp with ⟨j, hj⟩
  refine ⟨j, ?_⟩
  -- an entry that was cleared was not present
  rcases hR.mem g (hT.notFree hq) j with hmem | ⟨habs, -⟩
  · rw [hmem, hj]
  · cases habs.symm.trans hj

theorem snoc_ne (p : List (Fin 512)) (i : Fin 512) : p ≠ p ++ [i] := by
  intro h
  have hlen := congrArg List.length h
  rw [List.length_append, List.length_singleton] at hlen
  omega

/-- A table was installed and removed again. -/
theorem Installed.restored {s₁ s₂ s₃ : Vm} (hI : Installed s s₁ p n i f) (hR : Restored s₁ s₂)
    (hrem : Removed s₂ s₃ p n i f) : Restored s s₃ := by
  have hfree : freeSet s₃.phys = freeSet s.phys := by
    rw [hrem.free_eq, hR.free_eq, hI.free_eq, Set.sdiff_union_of_subset]
    exact Set.singleton_subset_iff.2 hI.fresh
  refine ⟨?_, ?_, ?_, ?_, hfree, ?_, ?_, ?_, ?_⟩
  · rw [hrem.edit.hhdm, hR.hhdm, hI.edit.hhdm]
  · rw [hrem.edit.top, hR.top, hI.edit.top]
  · rw [hrem.edit.pmmHhdm, hR.pmmHhdm, hI.edit.pmmHhdm]
  · rw [hrem.edit.total, hR.total, hI.edit.total]
  · intro g hg j
    by_cases hcell : g = n ∧ j = i.val
    · -- the slot itself
      rcases hcell with ⟨rfl, rfl⟩
      exact Or.inr ⟨kind_eq_absent_iff.1 hI.absent, hrem.entry⟩
    · have hg₁ : g ∉ freeSet s₁.phys := by
        rw [hI.free_eq]
        exact fun h => hg h.1
      have hg₂ : g ∉ freeSet s₂.phys := by
        rw [hR.free_eq]
        exact hg₁
      have hg₃ : g ∉ freeSet s₃.phys := by
        rw [hfree]
        exact hg
      rw [hrem.edit.mem g hg₂ hg₃ j hcell, ← hI.edit.mem g hg hg₁ j hcell]
      exact hR.mem g hg₁ j
  · intro q
    rw [hrem.tables, hR.tables, hI.tables]
    by_cases hq : q = p ++ [i]
    · rw [if_pos hq, hq, hI.tableAt_eq_none]
    · rw [if_neg hq, if_neg hq]
  · intro q
    rw [hrem.walks, hR.walks, hI.walks]
  · intro g hg
    have hg₁ : g ∉ pool s₁ := hI.pool_eq ▸ hg
    have hg₂ : g ∉ pool s₂ := pool_congr hR.free_eq hR.tables ▸ hg₁
    have hp : tableAt s₂ p = some n := by
      rw [hR.tables, hI.tables, if_neg (snoc_ne p i), hI.parent]
    have hbelow : tableAt s₂ (p ++ [i]) = some f := by rw [hR.tables, hI.tables, if_pos rfl]
    rw [hrem.edit.outside (hrem.pool_eq hbelow) hp hg₂, hR.outside g hg₁,
      hI.edit.outside hI.pool_eq hI.parent hg]

/-- The rollback of a table that may have been installed. -/
theorem Prepared.undo {s₁ s₂ : Vm} {new : Bool} {held₂ : List ℕ}
    (hprep : Prepared s s₁ new p n i f) (hR : Restored s₁ s₂) (hT₂ : Tree init others s₂ held₂) :
    ∃ s₃ held₃, (undoTable new (slotPtr s.hhdmOffset n i) (f * frameSize)).run s₂ = .ok () s₃ ∧
      Restored s s₃ ∧ Tree init others s₃ held₃ ∧ (new = false → s₃ = s₂) := by
  rcases hprep with ⟨rfl, rfl, -⟩ | ⟨rfl, hI⟩
  · exact ⟨s₂, held₂, rfl, hR, hT₂, fun _ => rfl⟩
  · have hp : tableAt s₂ p = some n := by
      rw [hR.tables, hI.tables, if_neg (snoc_ne p i), hI.parent]
    have hbelow : tableAt s₂ (p ++ [i]) = some f := by rw [hR.tables, hI.tables, if_pos rfl]
    have hempty : ∀ j : Fin 512, (s₂.phys.mem f j).getLsbD 0 = false := by
      intro j
      have hnot : f ∉ freeSet s₁.phys := by
        rw [hI.free_eq]
        exact fun h => h.2 rfl
      rcases hR.mem f hnot j with h | ⟨-, h⟩
      · rw [h, hI.zero j]
        rfl
      · rw [h]
        rfl
    rcases dropTable_spec hT₂ hp hbelow hempty with ⟨s₃, hrun, hrem, hT₃⟩
    rw [hR.hhdm, hI.edit.hhdm] at hrun
    refine ⟨s₃, _, hrun, hI.restored hR hrem, hT₃, ?_⟩
    intro h
    cases h

/-! ## Progress of `map` -/

/-- Empty tables were added. -/
structure Grown (s s' : Vm) : Prop where
  hhdm : s'.hhdmOffset = s.hhdmOffset
  top : s'.topLevel = s.topLevel
  pmmHhdm : s'.phys.pmm.hhdmOffset = s.phys.pmm.hhdmOffset
  total : s'.phys.pmm.totalFrames = s.phys.pmm.totalFrames
  free_sub : freeSet s'.phys ⊆ freeSet s.phys
  tables : ∀ q g, tableAt s q = some g → tableAt s' q = some g
  walks : ∀ q, walk s' q = walk s q

theorem Grown.refl (s : Vm) : Grown s s :=
  ⟨rfl, rfl, rfl, rfl, subset_rfl, fun _ _ h => h, fun _ => rfl⟩

theorem Grown.trans {s₁ s₂ : Vm} (h : Grown s s₁) (h' : Grown s₁ s₂) : Grown s s₂ := by
  refine ⟨?_, ?_, ?_, ?_, h'.free_sub.trans h.free_sub, ?_, ?_⟩
  · rw [h'.hhdm, h.hhdm]
  · rw [h'.top, h.top]
  · rw [h'.pmmHhdm, h.pmmHhdm]
  · rw [h'.total, h.total]
  · exact fun q g hq => h'.tables q g (h.tables q g hq)
  · intro q
    rw [h'.walks, h.walks]

theorem Installed.grown (hI : Installed s s' p n i f) : Grown s s' := by
  refine ⟨hI.edit.hhdm, hI.edit.top, hI.edit.pmmHhdm, hI.edit.total, ?_, ?_, hI.walks⟩
  · rw [hI.free_eq]
    exact Set.sdiff_subset
  · intro q g hq
    rw [hI.tables, if_neg, hq]
    rintro rfl
    exact Option.some_ne_none g (hq.symm.trans hI.tableAt_eq_none)

section

variable {new : Bool}

theorem Prepared.grown (h : Prepared s s' new p n i f) : Grown s s' := by
  rcases h with ⟨-, rfl, -⟩ | ⟨-, hI⟩
  · exact Grown.refl _
  · exact hI.grown

theorem Prepared.tableAt_eq (h : Prepared s s' new p n i f) : tableAt s' (p ++ [i]) = some f := by
  rcases h with ⟨-, rfl, htab⟩ | ⟨-, hI⟩
  · exact htab
  · rw [hI.tables, if_pos rfl]

theorem Prepared.moved {held' : List ℕ} (h : Prepared s s' new p n i f)
    (hp : tableAt s p = some n) (hT : Tree init others s held) (hT' : Tree init others s' held') :
    Moved s p s' (p ++ [i]) := by
  rcases h with ⟨-, rfl, htab⟩ | ⟨-, hI⟩
  · refine ⟨rfl, ?_, fun _ _ => rfl⟩
    intro hpop q g hq hne _
    by_cases hqp : q = p
    · -- the table has the entry that was found
      subst hqp
      cases Option.some.inj (hp.symm.trans hq)
      exact ⟨i, present_of_tableAt_snoc hp htab⟩
    · exact hpop q g hq hne hqp
  · exact hI.moved hT hT'

/-- A table is only found in a table that was there from the start. -/
theorem Prepared.old_or_zero {s₀ : Vm} (h : Prepared s s' new p n i f) (hp : tableAt s p = some n)
    (hold : s = s₀ ∨ ∀ j : Fin 512, s.phys.mem n j = 0) :
    (new = false ∧ s = s₀ ∧ s' = s₀) ∨
      (new = true ∧ Installed s s' p n i f ∧ ∀ j : Fin 512, s'.phys.mem f j = 0) := by
  rcases h with ⟨rfl, rfl, htab⟩ | ⟨rfl, hI⟩
  · rcases hold with rfl | hzero
    · exact Or.inl ⟨rfl, rfl, rfl⟩
    · have hk := kind_of_tableAt_snoc hp htab
      rw [hzero i] at hk
      cases (kind_zero_word _).symm.trans hk
  · exact Or.inr ⟨rfl, hI, hI.zero⟩

theorem Prepared.same_or_zero {s₀ : Vm} (h : Prepared s s' new p n i f)
    (hp : tableAt s p = some n) (hold : s = s₀ ∨ ∀ j : Fin 512, s.phys.mem n j = 0) :
    s' = s₀ ∨ ∀ j : Fin 512, s'.phys.mem f j = 0 := by
  rcases h.old_or_zero hp hold with ⟨-, -, hsame⟩ | ⟨-, -, hzero⟩
  · exact Or.inl hsame
  · exact Or.inr hzero

theorem Prepared.eq_of_found (h : Prepared s s' new p n i f) (hnew : new = false) : s' = s := by
  rcases h with ⟨-, hsame, -⟩ | ⟨htrue, -⟩
  · exact hsame
  · cases hnew.symm.trans htrue

end

/-- The page at the path `p` was mapped by the entry `leaf`, and no other. -/
structure Mapped (s s' : Vm) (p : List (Fin 512)) (leaf : Word) : Prop where
  hhdm : s'.hhdmOffset = s.hhdmOffset
  top : s'.topLevel = s.topLevel
  pmmHhdm : s'.phys.pmm.hhdmOffset = s.phys.pmm.hhdmOffset
  total : s'.phys.pmm.totalFrames = s.phys.pmm.totalFrames
  free_sub : freeSet s'.phys ⊆ freeSet s.phys
  tables : ∀ q g, tableAt s q = some g → tableAt s' q = some g
  vacant : walk s p = none ∧ tableAt s p = none
  below : ∀ r, walk s' (p ++ r) = some (4 - p.length, leaf)
  other : ∀ q, ¬ p <+: q → walk s' q = walk s q
  flushed : unflushed s'.trace = []

/-- Something is mapped at the path, or below it, or there is a table. -/
def Occupied (s : Vm) (p : List (Fin 512)) : Prop := walk s p ≠ none ∨ tableAt s p ≠ none

theorem occupied_snoc (hp : tableAt s p = some n)
    (hk : kind (3 - p.length) (s.phys.mem n i) ≠ .absent) : Occupied s (p ++ [i]) := by
  unfold Occupied
  cases hk' : kind (3 - p.length) (s.phys.mem n i) with
  | absent => exact absurd hk' hk
  | leaf =>
      left
      rw [walk_append_leaf hp hk']
      exact Option.some_ne_none _
  | table g =>
      right
      rw [tableAt_snoc_iff.2 ⟨n, hp, hk'⟩]
      exact Option.some_ne_none _

/-- A leaf on the way to a page. -/
theorem occupied_of_leaf (hp : tableAt s p = some n)
    (hk : kind (3 - p.length) (s.phys.mem n i) = .leaf) (hpre : p ++ [i] <+: q) :
    Occupied s q := by
  rcases hpre with ⟨r, rfl⟩
  left
  rw [List.append_assoc, List.singleton_append, walk_append_leaf hp hk]
  exact Option.some_ne_none _

/-- An entry that is absent once tables were added. -/
theorem Grown.not_occupied {s₁ : Vm} (hG : Grown s s₁) (hp : tableAt s₁ p = some n)
    (hk : kind (3 - p.length) (s₁.phys.mem n i) = .absent) (hpre : p ++ [i] <+: q) :
    ¬ Occupied s q := by
  rcases hpre with ⟨r, rfl⟩
  rintro (hwalk | htab)
  · rw [← hG.walks, List.append_assoc, List.singleton_append, walk_append_absent hp hk] at hwalk
    exact hwalk rfl
  · rcases Option.ne_none_iff_exists'.1 htab with ⟨g, hg⟩
    rcases Radix.tableAt_of_append (hG.tables _ g hg) with ⟨n₁, hn₁, -⟩
    cases hk.symm.trans (kind_of_tableAt_snoc hp hn₁)

theorem Mapped.of_grown {s₁ : Vm} {leaf : Word} (hG : Grown s s₁) (h : Mapped s₁ s' p leaf) :
    Mapped s s' p leaf := by
  refine ⟨?_, ?_, ?_, ?_, h.free_sub.trans hG.free_sub, ?_, ⟨?_, ?_⟩, h.below, ?_, h.flushed⟩
  · rw [h.hhdm, hG.hhdm]
  · rw [h.top, hG.top]
  · rw [h.pmmHhdm, hG.pmmHhdm]
  · rw [h.total, hG.total]
  · exact fun q g hq => h.tables q g (hG.tables q g hq)
  · rw [← hG.walks]
    exact h.vacant.1
  · rw [Option.eq_none_iff_forall_ne_some]
    intro g hg
    exact Option.some_ne_none g ((hG.tables p g hg).symm.trans h.vacant.2)
  · intro q hq
    rw [h.other q hq, hG.walks]

section

variable [X86] {leaf : Word}

/-- The slot of `map`'s leaf is in use. -/
theorem mapLeaf_occupied (virt phys : ℕ) (flags : Word) (hT : Tree init others s held)
    (hk : kind (3 - p.length) (s.phys.mem n i) ≠ .absent) :
    (mapLeaf virt (slotPtr s.hhdmOffset n i) phys flags).run s = .ok (.error .alreadyMapped) s := by
  unfold mapLeaf
  rw [Prog.bind_of_ok (readEntry_slot (f := n) hT.hhdm_eq.symm i.isLt),
    if_pos ((isPresent_iff (3 - p.length)).2 hk)]
  rfl

/-- The slot is free, but the address does not fit into an entry. -/
theorem mapLeaf_refused (virt : ℕ) {phys : ℕ} (flags : Word) (hT : Tree init others s held)
    (hk : kind (3 - p.length) (s.phys.mem n i) = .absent) (hphys : 2 ^ 52 ≤ phys) :
    (mapLeaf virt (slotPtr s.hhdmOffset n i) phys flags).run s =
      .stop (.panic "assertion failed") s := by
  unfold mapLeaf
  rw [Prog.bind_of_ok (readEntry_slot (f := n) hT.hhdm_eq.symm i.isLt),
    if_neg (not_isPresent hk)]
  exact Prog.bind_of_stop (newEntry_of_le hphys flags s)

/-- The leaf is written. -/
theorem mapLeaf_spec (virt : ℕ) {phys : ℕ} {flags : Word} (hT : Tree init others s held)
    (hp : tableAt s p = some n) (hk : kind (3 - p.length) (s.phys.mem n i) = .absent)
    (hmod : phys % 4096 = 0) (hphys : phys < 2 ^ 52)
    (hentry : leaf = BitVec.ofNat 64 phys ||| flags) (hleaf : kind (3 - p.length) leaf = .leaf) :
    ∃ s', (mapLeaf virt (slotPtr s.hhdmOffset n i) phys flags).run s = .ok (.ok ()) s' ∧
      Mapped s s' (p ++ [i]) leaf ∧ Tree init others s' held ∧ Moved s p s' [] := by
  set s' : Vm := { putEntry s n i leaf with trace := .flush :: (putEntry s n i leaf).trace }
    with hs'
  have hE : Edit s s' n i :=
    ⟨rfl, rfl, rfl, rfl, (putEntry_edit s n i leaf).mem⟩
  have hstored : s'.phys.mem n i = leaf := Mem.set_self _ _ _ _
  have hold : ∀ f, kind (3 - p.length) (s.phys.mem n i) ≠ .table f := by simp [hk]
  have hnew : ∀ f, kind (3 - p.length) (s'.phys.mem n i) ≠ .table f := by simp [hstored, hleaf]
  rcases hT.store hp hE rfl (hT.putEntry_holds hp i leaf) rfl hold hnew with ⟨hT', htab⟩
  have hmoved : Moved s p s' [] := by
    refine ⟨pool_congr rfl htab, ?_, fun g hg => hE.outside (pool_congr rfl htab) hp hg⟩
    intro hpop q g hq hne _
    have hq₀ : tableAt s q = some g := (htab q).symm.trans hq
    by_cases hqp : q = p
    · -- the table holds the leaf now
      subst hqp
      cases Option.some.inj (hp.symm.trans hq₀)
      refine ⟨i, ?_⟩
      rw [hstored]
      exact (kind_eq_leaf_iff.1 hleaf).1
    · exact hpop.of_edit hT hT' hE hp hq₀ hq hne hqp hqp
  refine ⟨s', ?_, ⟨rfl, rfl, rfl, rfl, subset_rfl, ?_, ⟨?_, ?_⟩, ?_, ?_, rfl⟩, hT', hmoved⟩
  · unfold mapLeaf
    rw [Prog.bind_of_ok (readEntry_slot (f := n) hT.hhdm_eq.symm i.isLt),
      if_neg (not_isPresent hk)]
    refine (Prog.bind_of_ok (newEntry_of_lt hmod hphys flags s)).trans ?_
    rw [← hentry]
    refine (Prog.bind_of_ok (writeEntry_slot hT.hhdm_eq.symm i.isLt leaf)).trans ?_
    rfl
  · intro q g hq
    rw [htab, hq]
  · exact walk_append_absent hp hk []
  · rw [Option.eq_none_iff_forall_ne_some]
    intro g hg
    exact hold g (kind_of_tableAt_snoc hp hg)
  · intro r
    have hkind : kind (3 - p.length) (entries s'.phys.mem n i) = .leaf := by
      unfold entries
      rw [hstored, hleaf]
    rw [hT.walk_stored hp hE rfl r, Radix.walk_cons_of_leaf hkind, List.length_append,
      List.length_singleton]
    unfold entries
    rw [hstored, show 4 - (p.length + 1) = 3 - p.length by omega]
  · exact fun q hq => hT.walk_store hp hE rfl hq

end

/-! ## Progress of `unmap` -/

theorem and_one_eq_zero_iff (w : Word) : w &&& 1 = 0 ↔ w.getLsbD 0 = false := by
  have hand : (w &&& 1).toNat = w.toNat % 2 := by
    rw [BitVec.toNat_and]
    exact Nat.and_one_is_mod _
  rw [← BitVec.toNat_inj, hand, BitVec.getLsbD, Nat.testBit_zero]
  change _ = 0 ↔ _
  rw [decide_eq_false_iff_not]
  omega

/-- What `is_empty` looks at. -/
theorem all_absent_eq (hhdm f : ℕ) (m : Mem) :
    ((List.range 512).all fun i => m (ptrFrame hhdm (blockPtr hhdm f + 8 * i))
      (ptrIndex hhdm (blockPtr hhdm f + 8 * i)) &&& 1 == 0) =
      decide (∀ j : Fin 512, (m f j).getLsbD 0 = false) := by
  have hword : ∀ j < 512, m (ptrFrame hhdm (blockPtr hhdm f + 8 * j))
      (ptrIndex hhdm (blockPtr hhdm f + 8 * j)) = m f j := by
    intro j hj
    have hframe : ptrFrame hhdm (blockPtr hhdm f + 8 * j) = f := ptrFrame_slotPtr hj
    have hindex : ptrIndex hhdm (blockPtr hhdm f + 8 * j) = j := ptrIndex_slotPtr hj
    rw [hframe, hindex]
  rw [Bool.eq_iff_iff, List.all_eq_true, decide_eq_true_iff]
  constructor
  · intro h j
    have hj := h j (List.mem_range.2 j.isLt)
    rw [hword j j.isLt, beq_iff_eq, and_one_eq_zero_iff] at hj
    exact hj
  · intro h j hj
    have hlt := List.mem_range.1 hj
    rw [hword j hlt, beq_iff_eq, and_one_eq_zero_iff]
    exact h ⟨j, hlt⟩

theorem isEmpty_frame {t : Phys} {hhdm : ℕ} (hh : t.pmm.hhdmOffset = hhdm) (hok : PtrOk hhdm f) :
    (isEmpty (f * frameSize) hhdm).run t =
      .ok (decide (∀ j : Fin 512, (t.mem f j).getLsbD 0 = false)) t := by
  subst hh
  unfold isEmpty
  rw [Prog.bind_of_ok (tableMut_frame hok.2 t), Prog.gets_bind,
    Prog.require_bind (le_blockPtr _ f), Prog.run_gets, all_absent_eq]

/-- Empty tables were given back. -/
structure Shrunk (s s' : Vm) : Prop where
  hhdm : s'.hhdmOffset = s.hhdmOffset
  top : s'.topLevel = s.topLevel
  pmmHhdm : s'.phys.pmm.hhdmOffset = s.phys.pmm.hhdmOffset
  total : s'.phys.pmm.totalFrames = s.phys.pmm.totalFrames
  free_sub : freeSet s.phys ⊆ freeSet s'.phys
  tables : ∀ q g, tableAt s' q = some g → tableAt s q = some g
  walks : ∀ q, walk s' q = walk s q
  flushed : unflushed s.trace = [] → unflushed s'.trace = []

/-- The end of the `reclaim` functions. -/
theorem reclaim_spec (hT : Tree init others s held) (hp : tableAt s p = some n)
    (hbelow : tableAt s (p ++ [i]) = some f) :
    ∃ s' held', (reclaim (slotPtr s.hhdmOffset n i) (f * frameSize) s.hhdmOffset).run s =
        .ok () s' ∧ Tree init others s' held' ∧ Shrunk s s' ∧
      (∀ q, q ≠ p ++ [i] → tableAt s' q = tableAt s q) ∧ Moved s (p ++ [i]) s' p := by
  have hempty := isEmpty_frame hT.hhdm_eq.symm (hT.ptr_ok hbelow)
  unfold reclaim
  rw [Prog.bind_of_ok (onPhys_of_ok hempty)]
  by_cases h : ∀ j : Fin 512, (s.phys.mem f j).getLsbD 0 = false
  · rcases dropTable_spec hT hp hbelow h with ⟨s₁, hrun, hrem, hT₁⟩
    set s' : Vm := { s₁ with trace := .flush :: s₁.trace } with hs'
    have hmoved := hrem.moved hT hT₁ hp hbelow
    refine ⟨s', held.erase f, ?_, ?_, ?_, ?_, ⟨hmoved.pool_eq, hmoved.populated, hmoved.outside⟩⟩
    · rw [if_pos (decide_eq_true h)]
      exact (Prog.bind_of_ok hrun).trans rfl
    · exact ⟨hT₁.hhdm_eq, hT₁.top_eq, hT₁.total_le, hT₁.holds, hT₁.mem_iff, hT₁.unshared,
        hT₁.ledger, by simpa [hs', root] using hT₁.root_kept, hT₁.seen⟩
    · refine ⟨hrem.edit.hhdm, hrem.edit.top, hrem.edit.pmmHhdm, hrem.edit.total, ?_, ?_,
        hrem.walks, fun _ => rfl⟩
      · change _ ⊆ freeSet s₁.phys
        rw [hrem.free_eq]
        exact Set.subset_union_left
      · intro q g hq
        change tableAt s₁ q = some g at hq
        rw [hrem.tables] at hq
        split at hq
        · cases hq
        · exact hq
    · intro q hq
      change tableAt s₁ q = _
      rw [hrem.tables, if_neg hq]
  · refine ⟨s, held, ?_, hT, ⟨rfl, rfl, rfl, rfl, subset_rfl, fun _ _ hq => hq, fun _ => rfl,
      fun h => h⟩, fun _ _ => rfl, rfl, ?_, fun _ _ => rfl⟩
    · rw [if_neg (by simpa using h)]
      rfl
    · intro hpop q g hq hne _
      by_cases hqi : q = p ++ [i]
      · -- the table was looked at
        subst hqi
        cases Option.some.inj (hbelow.symm.trans hq)
        rw [not_forall] at h
        rcases h with ⟨j, hj⟩
        exact ⟨j, Bool.of_not_eq_false hj⟩
      · exact hpop q g hq hne hqi

section

variable [X86]

/-- `reclaim_pd` and `reclaim_pt`. -/
theorem reclaimPd_spec (hT : Tree init others s held) (hp : tableAt s p = some n)
    (hbelow : tableAt s (p ++ [i]) = some f) (hlen : 1 ≤ p.length) :
    ∃ s' held', (reclaimPd (slotPtr s.hhdmOffset n i) (f * frameSize) s.hhdmOffset).run s =
        .ok () s' ∧ Tree init others s' held' ∧ Shrunk s s' ∧
      (∀ q, q ≠ p ++ [i] → tableAt s' q = tableAt s q) ∧ Moved s (p ++ [i]) s' p := by
  have hread := readEntry_slot (f := n) hT.hhdm_eq.symm i.isLt
  have hk := kind_of_tableAt_snoc hp hbelow
  unfold reclaimPd
  rw [Prog.bind_of_ok hread, if_neg (not_isPage_of_table (by omega) hk)]
  exact reclaim_spec hT hp hbelow

end

/-- The page at the path `p` was unmapped, and no other. -/
structure Unmapped (s s' : Vm) (p : List (Fin 512)) : Prop where
  hhdm : s'.hhdmOffset = s.hhdmOffset
  top : s'.topLevel = s.topLevel
  pmmHhdm : s'.phys.pmm.hhdmOffset = s.phys.pmm.hhdmOffset
  total : s'.phys.pmm.totalFrames = s.phys.pmm.totalFrames
  free_sub : freeSet s.phys ⊆ freeSet s'.phys
  tables : ∀ q g, tableAt s' q = some g → tableAt s q = some g
  below : ∀ r, walk s' (p ++ r) = none
  other : ∀ q, ¬ p <+: q → walk s' q = walk s q
  flushed : unflushed s'.trace = []

theorem Unmapped.root_eq (h : Unmapped s s' p) : root s' = root s := by
  unfold root
  rw [h.top]

theorem Unmapped.shrunk {s₁ : Vm} (h : Unmapped s s₁ p) (h' : Shrunk s₁ s') :
    Unmapped s s' p := by
  refine ⟨?_, ?_, ?_, ?_, h.free_sub.trans h'.free_sub, ?_, ?_, ?_, h'.flushed h.flushed⟩
  · rw [h'.hhdm, h.hhdm]
  · rw [h'.top, h.top]
  · rw [h'.pmmHhdm, h.pmmHhdm]
  · rw [h'.total, h.total]
  · exact fun q g hq => h.tables q g (h'.tables q g hq)
  · intro r
    rw [h'.walks, h.below]
  · intro q hq
    rw [h'.walks, h.other q hq]

/-- A leaf is cleared, and flushed. -/
theorem clearLeaf_spec (hT : Tree init others s held) (hp : tableAt s p = some n)
    (hk : kind (3 - p.length) (s.phys.mem n i) = .leaf) (virt : ℕ) :
    ∃ s', (writeEntry (slotPtr s.hhdmOffset n i) 0).run s = .ok () (putEntry s n i 0) ∧
      (flush virt).run (putEntry s n i 0) = .ok () s' ∧
      Tree init others s' held ∧ Unmapped s s' (p ++ [i]) ∧ (∀ q, tableAt s' q = tableAt s q) ∧
      Moved s [] s' p := by
  set s' : Vm := { putEntry s n i 0 with trace := .flush :: (putEntry s n i 0).trace } with hs'
  have hE : Edit s s' n i := ⟨rfl, rfl, rfl, rfl, (putEntry_edit s n i 0).mem⟩
  have hentry : s'.phys.mem n i = 0 := Mem.set_self _ _ _ _
  have habsent : kind (3 - p.length) (s'.phys.mem n i) = .absent := by
    rw [hentry]
    exact kind_zero_word _
  rcases hT.store hp hE rfl (hT.putEntry_holds hp i 0) rfl (by simp [hk])
    (by simp [habsent]) with ⟨hT', htab⟩
  have hp' : tableAt s' p = some n := by rw [htab, hp]
  have hmoved : Moved s [] s' p := by
    refine ⟨pool_congr rfl htab, ?_, fun g hg => hE.outside (pool_congr rfl htab) hp hg⟩
    intro hpop q g hq hne hqp
    exact hpop.of_edit hT hT' hE hp ((htab q).symm.trans hq) hq hne hne hqp
  refine ⟨s', writeEntry_slot hT.hhdm_eq.symm i.isLt 0, rfl, hT', ?_, htab, hmoved⟩
  refine ⟨rfl, rfl, rfl, rfl, subset_rfl, ?_, ?_, ?_, rfl⟩
  · intro q g hq
    rw [← htab, hq]
  · intro r
    rw [List.append_assoc, List.singleton_append]
    exact walk_append_absent hp' habsent r
  · exact fun q hq => hT.walk_store hp hE rfl hq

/-- The PDPT is given back if it became empty. -/
theorem Unmapped.pdpt_ends {s₁ : Vm} {held₁ : List ℕ} {pdpt : ℕ} (hU : Unmapped s s₁ p)
    (hM : Moved s [] s₁ [i]) (hT : Tree init others s₁ held₁)
    (h₁ : tableAt s₁ [i] = some pdpt) :
    ∃ s' held', (do
        reclaimPdpt (slotPtr s.hhdmOffset (root s) i) (pdpt * frameSize) s.hhdmOffset
        pure (.ok ()) : Run Vm (Except UnmapError Unit)).run s₁ = .ok (.ok ()) s' ∧
      Tree init others s' held' ∧ Unmapped s s' p ∧ Moved s [] s' [] := by
  rcases reclaim_spec hT (tableAt_nil s₁) h₁ with ⟨s', held', hrun, hT', hsh, -, hM'⟩
  rw [hU.hhdm, hU.root_eq] at hrun
  exact ⟨s', held', (Prog.bind_of_ok hrun).trans rfl, hT', hU.shrunk hsh, hM.trans hM'⟩

end

end Prometheos.Vmm
