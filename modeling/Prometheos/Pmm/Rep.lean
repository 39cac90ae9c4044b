import Prometheos.Pmm.Blocks

/-!
# The representation invariant of the allocator

`Rep L s` says that the fields of the allocator and the links in memory together
represent the free blocks `L`, where `L o` lists the first frames of the free
blocks of order `o`:

* the list that starts at `free_lists[o]` is doubly linked and runs through `L o`;
* each listed block is aligned, lies below `total_frames`, and its order bytes
  are `o`;
* a frame whose order byte is not `ORDER_NONE` lies in a listed block.

`Rep.push` and `Rep.remove` are the two edits, `list_push` and `list_remove`.
Everything else the allocator does is made of them.
-/

namespace Prometheos.Pmm

open Dyadic Linked

/-- The `next` link stored in the frame that `p` points to. -/
def nextOf (s : Phys) (p : ℕ) : Option ℕ := wordPtr (s.mem (ptrFrame s.pmm.hhdmOffset p) 1)

/-- The `prev` link stored in the frame that `p` points to. -/
def prevOf (s : Phys) (p : ℕ) : Option ℕ := wordPtr (s.mem (ptrFrame s.pmm.hhdmOffset p) 0)

/-- The frames that are free: their order byte is not `ORDER_NONE`. -/
def freeSet (s : Phys) : Set ℕ := {g | ∃ o, s.pmm.frameOrder[g]? = some o ∧ o ≠ orderNone}

/-- The blocks `L` as a family of sets. -/
def blocksOf (L : ℕ → List ℕ) : ℕ → Set ℕ := fun o => {f | f ∈ L o}

/-- The allocator's state `s` represents the free blocks `L`. -/
structure Rep (L : ℕ → List ℕ) (s : Phys) : Prop where
  lists_len : s.pmm.freeLists.length = numOrders
  order_len : s.pmm.frameOrder.length = s.pmm.totalFrames
  linked : ∀ o ≤ maxOrder, ∃ h, s.pmm.freeLists[o]? = some h ∧
    DList (nextOf s) (prevOf s) h ((L o).map (blockPtr s.pmm.hhdmOffset))
  order_le : ∀ o, ∀ f ∈ L o, o ≤ maxOrder
  aligned : ∀ o, ∀ f ∈ L o, 2 ^ o ∣ f
  in_range : ∀ o, ∀ f ∈ L o, f + 2 ^ o ≤ s.pmm.totalFrames
  ptr_ok : ∀ o, ∀ f ∈ L o, PtrOk s.pmm.hhdmOffset f
  marked : ∀ o, ∀ f ∈ L o, ∀ g ∈ block o f, s.pmm.frameOrder[g]? = some o
  listed : ∀ g o, s.pmm.frameOrder[g]? = some o → o ≠ orderNone → cell o g ∈ L o

/-- Nothing but the list structure and the order bytes differs. -/
structure SameFields (s s' : Phys) : Prop where
  total : s'.pmm.totalFrames = s.pmm.totalFrames
  hhdm : s'.pmm.hhdmOffset = s.pmm.hhdmOffset
  free : s'.pmm.freeFrames = s.pmm.freeFrames

theorem SameFields.refl (s : Phys) : SameFields s s := ⟨rfl, rfl, rfl⟩

theorem SameFields.trans {s t u : Phys} (h : SameFields s t) (h' : SameFields t u) :
    SameFields s u :=
  ⟨h'.total.trans h.total, h'.hhdm.trans h.hhdm, h'.free.trans h.free⟩

/-! ## Consequences -/

section

variable {L : ℕ → List ℕ} {s : Phys}

theorem Rep.mark_self (hR : Rep L s) {o f : ℕ} (hf : f ∈ L o) :
    s.pmm.frameOrder[f]? = some o := hR.marked o f hf f (self_mem_block o f)

theorem Rep.ne_orderNone (hR : Rep L s) {o f : ℕ} (hf : f ∈ L o) : o ≠ orderNone := by
  have h := hR.order_le o f hf
  unfold maxOrder at h
  unfold orderNone
  omega

/-- A frame starts a free block of one order only. -/
theorem Rep.order_unique (hR : Rep L s) {o o' f : ℕ} (hf : f ∈ L o) (hf' : f ∈ L o') : o = o' := by
  have h := hR.mark_self hf
  rw [hR.mark_self hf'] at h
  exact (Option.some.inj h).symm

/-- The free frames are those covered by the listed blocks. -/
theorem Rep.freeSet_eq (hR : Rep L s) : freeSet s = covered (blocksOf L) := by
  ext g
  constructor
  · rintro ⟨o, hg, ho⟩
    exact ⟨o, cell o g, hR.listed g o hg ho, mem_block_cell o g⟩
  · rintro ⟨o, f, hf, hg⟩
    exact ⟨o, hR.marked o f hf g hg, hR.ne_orderNone hf⟩

/-- The listed blocks are pairwise disjoint. -/
theorem Rep.tiling (hR : Rep L s) : Tiling maxOrder (blocksOf L) := by
  refine ⟨fun o f hf => hR.order_le o f hf, fun o f hf => hR.aligned o f hf, ?_⟩
  intro o o' f hf f' hf' g hg hg'
  have ho : o = o' := by
    have h := hR.marked o f hf g hg
    rw [hR.marked o' f' hf' g hg'] at h
    exact (Option.some.inj h).symm
  subst ho
  refine ⟨rfl, ?_⟩
  rw [← cell_eq_of_mem (hR.aligned o f hf) hg, cell_eq_of_mem (hR.aligned o f' hf') hg']

theorem Rep.nodup (hR : Rep L s) (o : ℕ) : (L o).Nodup := by
  by_cases ho : o ≤ maxOrder
  · rcases hR.linked o ho with ⟨h, -, hl⟩
    exact List.Nodup.of_map _ hl.nodup
  · have hnil : L o = [] := by
      rw [List.eq_nil_iff_forall_not_mem]
      intro f hf
      exact ho (hR.order_le o f hf)
    rw [hnil]
    exact List.nodup_nil

/-- A frame below `total_frames` that is not free has `ORDER_NONE`. -/
theorem Rep.mark_of_notMem (hR : Rep L s) {g : ℕ} (hg : g < s.pmm.totalFrames)
    (hfree : g ∉ freeSet s) : s.pmm.frameOrder[g]? = some orderNone := by
  have hlt : g < s.pmm.frameOrder.length := by
    rw [hR.order_len]
    exact hg
  have hget := List.getElem?_eq_getElem hlt
  by_contra hne
  apply hfree
  refine ⟨s.pmm.frameOrder[g], hget, ?_⟩
  intro heq
  rw [hget, heq] at hne
  exact hne rfl

theorem Rep.notMem_of_mark {g : ℕ} (hg : s.pmm.frameOrder[g]? = some orderNone) :
    g ∉ freeSet s := by
  rintro ⟨o, ho, hne⟩
  rw [hg] at ho
  exact hne (Option.some.inj ho).symm

/-- The head of a free list, by frame. -/
theorem Rep.head_eq (hR : Rep L s) {o : ℕ} (ho : o ≤ maxOrder) :
    s.pmm.freeLists[o]? = some ((L o).head?.map (blockPtr s.pmm.hhdmOffset)) := by
  rcases hR.linked o ho with ⟨h, hh, hl⟩
  rw [hh, ← hl.chain.head?_eq, List.head?_map]

end

/-! ## The links in memory after an edit -/

theorem setPrevOf_apply (m : Mem) (node : Option ℕ) (w : Word) (g j : ℕ) :
    setPrevOf m node w g j = if node = some g ∧ j = 0 then w else m g j := by
  cases node with
  | none => simp [setPrevOf]
  | some f => simp [setPrevOf, Mem.set_apply, eq_comm]

theorem setNextOf_apply (m : Mem) (node : Option ℕ) (w : Word) (g j : ℕ) :
    setNextOf m node w g j = if node = some g ∧ j = 1 then w else m g j := by
  cases node with
  | none => simp [setNextOf]
  | some f => simp [setNextOf, Mem.set_apply, eq_comm]

theorem pushMem_apply (m : Mem) (hhdm frame : ℕ) (head : Option ℕ) (g j : ℕ) :
    pushMem m hhdm frame head g j =
      if head = some g ∧ j = 0 then ptrWord (some (blockPtr hhdm frame))
      else if g = frame ∧ j = 1 then ptrWord (head.map (blockPtr hhdm))
      else if g = frame ∧ j = 0 then ptrWord none
      else m g j := by
  rw [pushMem, setPrevOf_apply, Mem.set_apply, Mem.set_apply]

theorem removeMem_apply (m : Mem) (hhdm : ℕ) (prev next : Option ℕ) (g j : ℕ) :
    removeMem m hhdm prev next g j =
      if next = some g ∧ j = 0 then ptrWord (prev.map (blockPtr hhdm))
      else if prev = some g ∧ j = 1 then ptrWord (next.map (blockPtr hhdm))
      else m g j := by
  rw [removeMem, setPrevOf_apply, setNextOf_apply]

/-- A link to a listed frame is read back as it was written. -/
theorem wordPtr_ptrWord_map {hhdm : ℕ} {node : Option ℕ} (h : ∀ f, node = some f → PtrOk hhdm f) :
    wordPtr (ptrWord (node.map (blockPtr hhdm))) = node.map (blockPtr hhdm) := by
  cases node with
  | none => rfl
  | some f => exact (h f rfl).wordPtr_eq

/-! ## Pushing -/

/-- `L` with the block `frame` of order `order` added in front. -/
def pushBlock (L : ℕ → List ℕ) (order frame : ℕ) : ℕ → List ℕ :=
  Function.update L order (frame :: L order)

theorem mem_pushBlock {L : ℕ → List ℕ} {order frame o f : ℕ} :
    f ∈ pushBlock L order frame o ↔ (o = order ∧ f = frame) ∨ f ∈ L o := by
  by_cases ho : o = order
  · subst ho
    simp [pushBlock]
  · simp [pushBlock, ho]

section

variable {L : ℕ → List ℕ} {s : Phys} {frame order : ℕ}

/-- A frame with `ORDER_NONE` starts no listed block. -/
theorem Rep.notMem_of_none (hR : Rep L s) (hnone : s.pmm.frameOrder[frame]? = some orderNone)
    (o : ℕ) : frame ∉ L o := by
  intro hf
  have h := hR.mark_self hf
  rw [hnone] at h
  exact hR.ne_orderNone hf (Option.some.inj h).symm

/-- The links after `list_push`: the list of `order` has the block in front, the
other lists are not touched. -/
theorem Rep.push_links (hR : Rep L s) (hptr : PtrOk s.pmm.hhdmOffset frame)
    (hnew : ∀ o, frame ∉ L o) {s' : Phys} (hhdm : s'.pmm.hhdmOffset = s.pmm.hhdmOffset)
    (hlists : s'.pmm.freeLists =
      s.pmm.freeLists.set order (some (blockPtr s.pmm.hhdmOffset frame)))
    (hmem : s'.mem = pushMem s.mem s.pmm.hhdmOffset frame (L order).head?) :
    ∀ o ≤ maxOrder, ∃ h, s'.pmm.freeLists[o]? = some h ∧
      DList (nextOf s') (prevOf s') h
        ((pushBlock L order frame o).map (blockPtr s'.pmm.hhdmOffset)) := by
  have hheadmem : ∀ g, (L order).head? = some g → g ∈ L order := by
    intro g hg
    exact List.mem_of_mem_head? hg
  have hnext : ∀ g, g ≠ frame → nextOf s' (blockPtr s.pmm.hhdmOffset g) =
      nextOf s (blockPtr s.pmm.hhdmOffset g) := by
    intro g hne
    simp [nextOf, hhdm, hmem, pushMem_apply, hne]
  have hprev : ∀ g, g ≠ frame → (L order).head? ≠ some g →
      prevOf s' (blockPtr s.pmm.hhdmOffset g) = prevOf s (blockPtr s.pmm.hhdmOffset g) := by
    intro g hne hhead
    simp [prevOf, hhdm, hmem, pushMem_apply, hne, hhead]
  intro o ho
  rcases hR.linked o ho with ⟨h, hh, hl⟩
  rw [hhdm, hlists]
  by_cases hoo : o = order
  · subst hoo
    have hhead : h = (L o).head?.map (blockPtr s.pmm.hhdmOffset) := by
      rw [← hl.chain.head?_eq, List.head?_map]
    refine ⟨some (blockPtr s.pmm.hhdmOffset frame),
      List.getElem?_set_self (List.getElem?_eq_some_iff.1 hh).1, ?_⟩
    rw [pushBlock, Function.update_self, List.map_cons]
    refine hl.push ?_ ?_ ?_ ?_ ?_
    · have hback := wordPtr_ptrWord_map fun f hf => hR.ptr_ok o f (hheadmem f hf)
      rw [hhead, ← hback]
      simp [nextOf, hhdm, hmem, pushMem_apply]
    · have hne : (L o).head? ≠ some frame := fun hf => hnew o (hheadmem frame hf)
      simp [prevOf, hhdm, hmem, pushMem_apply, hne]
    · intro y hy
      rcases List.mem_map.1 hy with ⟨g, hg, rfl⟩
      exact hnext g fun h => hnew o (h ▸ hg)
    · -- the old head learns of its new predecessor
      intro y hy
      rw [hhead] at hy
      rcases Option.map_eq_some_iff.1 hy with ⟨g, hg, rfl⟩
      rw [← hptr.wordPtr_eq]
      simp [prevOf, hhdm, hmem, pushMem_apply, hg]
    · intro y hy hne
      rcases List.mem_map.1 hy with ⟨g, hg, rfl⟩
      refine hprev g (fun h => hnew o (h ▸ hg)) ?_
      intro hg'
      rw [hhead, hg'] at hne
      exact hne rfl
  · refine ⟨h, by rw [List.getElem?_set_ne (Ne.symm hoo)]; exact hh, ?_⟩
    rw [pushBlock, Function.update_of_ne hoo]
    refine hl.congr ?_ ?_
    · intro y hy
      rcases List.mem_map.1 hy with ⟨g, hg, rfl⟩
      exact hnext g fun h => hnew o (h ▸ hg)
    · intro y hy
      rcases List.mem_map.1 hy with ⟨g, hg, rfl⟩
      refine hprev g (fun h => hnew o (h ▸ hg)) ?_
      intro hg'
      exact hoo (hR.order_unique hg (hheadmem g hg'))

/-- `list_push` adds an unused block to the represented blocks. -/
theorem Rep.push (hR : Rep L s) (hptr : PtrOk s.pmm.hhdmOffset frame) (horder : order ≤ maxOrder)
    (hal : 2 ^ order ∣ frame) (hend : frame + 2 ^ order ≤ s.pmm.totalFrames)
    (hnone : ∀ g ∈ block order frame, s.pmm.frameOrder[g]? = some orderNone) :
    ∃ s', (listPush frame order).run s = .ok () s' ∧ Rep (pushBlock L order frame) s' ∧
      SameFields s s' ∧ ∀ g, g ≠ frame → g ∉ L order → s'.mem g = s.mem g := by
  have hnew := hR.notMem_of_none (hnone frame (self_mem_block order frame))
  refine ⟨_, listPush_eq hptr horder hend hR.order_len hnone (hR.head_eq horder), ?_,
    ⟨rfl, rfl, rfl⟩, ?_⟩
  · refine ⟨?_, ?_, hR.push_links hptr hnew rfl rfl rfl, ?_, ?_, ?_, ?_, ?_, ?_⟩
    · simpa using hR.lists_len
    · simpa using hR.order_len
    · intro o f hf
      rcases mem_pushBlock.1 hf with ⟨rfl, rfl⟩ | hf
      · exact horder
      · exact hR.order_le o f hf
    · intro o f hf
      rcases mem_pushBlock.1 hf with ⟨rfl, rfl⟩ | hf
      · exact hal
      · exact hR.aligned o f hf
    · intro o f hf
      rcases mem_pushBlock.1 hf with ⟨rfl, rfl⟩ | hf
      · exact hend
      · exact hR.in_range o f hf
    · intro o f hf
      rcases mem_pushBlock.1 hf with ⟨rfl, rfl⟩ | hf
      · exact hptr
      · exact hR.ptr_ok o f hf
    · -- the order bytes of a listed block: the new block is painted, and no
      -- other listed block meets it
      intro o f hf g hg
      rcases mem_pushBlock.1 hf with ⟨rfl, rfl⟩ | hf
      · exact getElem?_paint_of_mem o hg (hnone g hg)
      · have hmark := hR.marked o f hf g hg
        refine (getElem?_paint_of_notMem _ order ?_).trans hmark
        intro hg'
        rw [hnone g hg'] at hmark
        exact hR.ne_orderNone hf (Option.some.inj hmark).symm
    · intro g o hg ho
      by_cases hin : g ∈ block order frame
      · rw [getElem?_paint_of_mem order hin (hnone g hin)] at hg
        rcases Option.some.inj hg with rfl
        exact mem_pushBlock.2 (Or.inl ⟨rfl, cell_eq_of_mem hal hin⟩)
      · rw [getElem?_paint_of_notMem _ order hin] at hg
        exact mem_pushBlock.2 (Or.inr (hR.listed g o hg ho))
  · intro g hne hg
    funext j
    have hhead : (L order).head? ≠ some g := fun h => hg (List.mem_of_mem_head? h)
    simp [pushMem_apply, hne, hhead]

/-! ## Removing -/

/-- `L` without the block `frame` of order `order`. -/
def dropBlock (L : ℕ → List ℕ) (order frame : ℕ) : ℕ → List ℕ :=
  Function.update L order ((L order).erase frame)

theorem mem_dropBlock (hnd : (L order).Nodup) {o f : ℕ} :
    f ∈ dropBlock L order frame o ↔ f ∈ L o ∧ ¬ (o = order ∧ f = frame) := by
  by_cases ho : o = order
  · subst ho
    rw [dropBlock, Function.update_self, hnd.mem_erase_iff]
    tauto
  · simp [dropBlock, ho]

/-- The links after `list_remove`: the neighbours of the block point past it. -/
theorem Rep.remove_links (hR : Rep L s) {l₁ l₂ : List ℕ} (hL : L order = l₁ ++ frame :: l₂)
    {s' : Phys} (hhdm : s'.pmm.hhdmOffset = s.pmm.hhdmOffset)
    (hlists : s'.pmm.freeLists = if l₁.getLast? = none then
      s.pmm.freeLists.set order (l₂.head?.map (blockPtr s.pmm.hhdmOffset)) else s.pmm.freeLists)
    (hmem : s'.mem = removeMem s.mem s.pmm.hhdmOffset l₁.getLast? l₂.head?) :
    ∀ o ≤ maxOrder, ∃ h, s'.pmm.freeLists[o]? = some h ∧
      DList (nextOf s') (prevOf s') h
        ((dropBlock L order frame o).map (blockPtr s'.pmm.hhdmOffset)) := by
  have hmem₁ : ∀ g, l₁.getLast? = some g → g ∈ L order := by
    intro g hg
    rw [hL]
    exact List.mem_append_left _ (List.mem_of_getLast? hg)
  have hmem₂ : ∀ g, l₂.head? = some g → g ∈ L order := by
    intro g hg
    rw [hL]
    exact List.mem_append_right _ (List.mem_cons_of_mem _ (List.mem_of_mem_head? hg))
  -- the two links that are written, and all the others
  have hnext₁ : ∀ g, l₁.getLast? = some g → nextOf s' (blockPtr s.pmm.hhdmOffset g) =
      l₂.head?.map (blockPtr s.pmm.hhdmOffset) := by
    intro g hg
    rw [← wordPtr_ptrWord_map fun f hf => hR.ptr_ok order f (hmem₂ f hf)]
    simp [nextOf, hhdm, hmem, removeMem_apply, hg]
  have hnext : ∀ g, l₁.getLast? ≠ some g → nextOf s' (blockPtr s.pmm.hhdmOffset g) =
      nextOf s (blockPtr s.pmm.hhdmOffset g) := by
    intro g hg
    simp [nextOf, hhdm, hmem, removeMem_apply, hg]
  have hprev₂ : ∀ g, l₂.head? = some g → prevOf s' (blockPtr s.pmm.hhdmOffset g) =
      l₁.getLast?.map (blockPtr s.pmm.hhdmOffset) := by
    intro g hg
    rw [← wordPtr_ptrWord_map fun f hf => hR.ptr_ok order f (hmem₁ f hf)]
    simp [prevOf, hhdm, hmem, removeMem_apply, hg]
  have hprev : ∀ g, l₂.head? ≠ some g → prevOf s' (blockPtr s.pmm.hhdmOffset g) =
      prevOf s (blockPtr s.pmm.hhdmOffset g) := by
    intro g hg
    simp [prevOf, hhdm, hmem, removeMem_apply, hg]
  intro o ho
  rcases hR.linked o ho with ⟨h, hh, hl⟩
  rw [hhdm, hlists]
  by_cases hoo : o = order
  · subst hoo
    have hnd := hR.nodup o
    rw [hL] at hnd hl
    have hnot : frame ∉ l₁ := by
      intro hf
      exact (List.nodup_append.1 hnd).2.2 frame hf frame (by simp) rfl
    have herase : (L o).erase frame = l₁ ++ l₂ := by
      rw [hL, List.erase_append_right _ hnot, List.erase_cons_head]
    rw [dropBlock, Function.update_self, herase, List.map_append]
    rw [List.map_append, List.map_cons] at hl
    have hp : prevOf s (blockPtr s.pmm.hhdmOffset frame) =
        l₁.getLast?.map (blockPtr s.pmm.hhdmOffset) := by
      rw [hl.prev_eq, List.getLast?_map]
    have hn : nextOf s (blockPtr s.pmm.hhdmOffset frame) =
        l₂.head?.map (blockPtr s.pmm.hhdmOffset) := by
      rw [hl.next_eq, List.head?_map]
    refine ⟨if l₁.getLast? = none then l₂.head?.map (blockPtr s.pmm.hhdmOffset) else h, ?_, ?_⟩
    · by_cases hl₁ : l₁.getLast? = none
      · rw [if_pos hl₁, if_pos hl₁]
        exact List.getElem?_set_self (List.getElem?_eq_some_iff.1 hh).1
      · rw [if_neg hl₁, if_neg hl₁]
        exact hh
    · refine hl.erase ?_ ?_ ?_ ?_ ?_ ?_
      · intro hnone
        rw [hp, Option.map_eq_none_iff] at hnone
        rw [if_pos hnone, hn]
      · intro hsome
        rw [hp, ne_eq, Option.map_eq_none_iff] at hsome
        rw [if_neg hsome]
      · intro y hy
        rw [hp] at hy
        rcases Option.map_eq_some_iff.1 hy with ⟨g, hg, rfl⟩
        rw [hnext₁ g hg, hn]
      · intro y hy hne
        rw [← List.map_append] at hy
        rcases List.mem_map.1 hy with ⟨g, hg, rfl⟩
        refine hnext g ?_
        intro hg'
        rw [hp, hg'] at hne
        exact hne rfl
      · intro y hy
        rw [hn] at hy
        rcases Option.map_eq_some_iff.1 hy with ⟨g, hg, rfl⟩
        rw [hprev₂ g hg, hp]
      · intro y hy hne
        rw [← List.map_append] at hy
        rcases List.mem_map.1 hy with ⟨g, hg, rfl⟩
        refine hprev g ?_
        intro hg'
        rw [hn, hg'] at hne
        exact hne rfl
  · rw [dropBlock, Function.update_of_ne hoo]
    refine ⟨h, ?_, hl.congr ?_ ?_⟩
    · by_cases hl₁ : l₁.getLast? = none
      · rw [if_pos hl₁, List.getElem?_set_ne (Ne.symm hoo)]
        exact hh
      · rw [if_neg hl₁]
        exact hh
    · intro y hy
      rcases List.mem_map.1 hy with ⟨g, hg, rfl⟩
      exact hnext g fun hg' => hoo (hR.order_unique hg (hmem₁ g hg'))
    · intro y hy
      rcases List.mem_map.1 hy with ⟨g, hg, rfl⟩
      exact hprev g fun hg' => hoo (hR.order_unique hg (hmem₂ g hg'))

/-- The links of a listed block point to its neighbours in the list. -/
theorem Rep.neighbours (hR : Rep L s) {l₁ l₂ : List ℕ} (hL : L order = l₁ ++ frame :: l₂) :
    wordPtr (s.mem frame 0) = l₁.getLast?.map (blockPtr s.pmm.hhdmOffset) ∧
      wordPtr (s.mem frame 1) = l₂.head?.map (blockPtr s.pmm.hhdmOffset) := by
  have hf : frame ∈ L order := by
    rw [hL]
    exact List.mem_append_right _ List.mem_cons_self
  rcases hR.linked order (hR.order_le order frame hf) with ⟨h, -, hl⟩
  rw [hL, List.map_append, List.map_cons] at hl
  have hp := hl.prev_eq
  have hn := hl.next_eq
  rw [prevOf, ptrFrame_blockPtr, List.getLast?_map] at hp
  rw [nextOf, ptrFrame_blockPtr, List.head?_map] at hn
  exact ⟨hp, hn⟩

/-- `list_remove` takes a listed block out of the represented blocks. -/
theorem Rep.remove (hR : Rep L s) (hf : frame ∈ L order) :
    ∃ s', (listRemove frame order).run s = .ok () s' ∧ Rep (dropBlock L order frame) s' ∧
      SameFields s s' ∧ ∀ g, g ∉ L order → s'.mem g = s.mem g := by
  have horder := hR.order_le order frame hf
  have hnd := hR.nodup order
  rcases List.append_of_mem hf with ⟨l₁, l₂, hL⟩
  have hlists : order < s.pmm.freeLists.length := by
    rw [hR.lists_len]
    unfold numOrders
    omega
  rcases hR.neighbours hL with ⟨hp, hn⟩
  refine ⟨_, listRemove_eq (hR.ptr_ok order frame hf) horder (hR.in_range order frame hf)
    hR.order_len (hR.mark_self hf) hlists hp hn, ?_, ⟨rfl, rfl, rfl⟩, ?_⟩
  · refine ⟨?_, ?_, hR.remove_links hL rfl rfl rfl, ?_, ?_, ?_, ?_, ?_, ?_⟩
    · have := hR.lists_len
      split <;> simpa using this
    · simpa using hR.order_len
    · intro o f hf'
      exact hR.order_le o f ((mem_dropBlock hnd).1 hf').1
    · intro o f hf'
      exact hR.aligned o f ((mem_dropBlock hnd).1 hf').1
    · intro o f hf'
      exact hR.in_range o f ((mem_dropBlock hnd).1 hf').1
    · intro o f hf'
      exact hR.ptr_ok o f ((mem_dropBlock hnd).1 hf').1
    · -- no other listed block meets the one that is painted over
      intro o f hf' g hg
      rcases (mem_dropBlock hnd).1 hf' with ⟨hf', hne⟩
      refine (getElem?_paint_of_notMem _ orderNone ?_).trans (hR.marked o f hf' g hg)
      intro hg'
      exact hne (hR.tiling.disjoint o order f hf' frame hf g hg hg')
    · intro g o hg ho
      by_cases hin : g ∈ block order frame
      · rw [getElem?_paint_of_mem orderNone hin (hR.marked order frame hf g hin)] at hg
        exact absurd (Option.some.inj hg).symm ho
      · rw [getElem?_paint_of_notMem _ orderNone hin] at hg
        refine (mem_dropBlock hnd).2 ⟨hR.listed g o hg ho, ?_⟩
        rintro ⟨rfl, hcell⟩
        apply hin
        rw [← hcell]
        exact mem_block_cell o g
  · intro g hg
    funext j
    have h₁ : l₁.getLast? ≠ some g := by
      intro hg'
      apply hg
      rw [hL]
      exact List.mem_append_left _ (List.mem_of_getLast? hg')
    have h₂ : l₂.head? ≠ some g := by
      intro hg'
      apply hg
      rw [hL]
      exact List.mem_append_right _ (List.mem_cons_of_mem _ (List.mem_of_mem_head? hg'))
    simp [removeMem_apply, h₁, h₂]

end

end Prometheos.Pmm
