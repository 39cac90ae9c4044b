import Prometheos.Pmm.Model
import Prometheos.Lib.Dyadic
import Prometheos.Lib.Linked

/-!
# What the steps on one block compute

The equations of the allocator's helpers on one block (`setBlockOrder`,
`assertBlockUnused`, `listPush`, `listRemove`): under the checks each of them makes, the
state it ends in, written out.
-/

namespace Prometheos.Pmm

open Dyadic Linked

/-- The pointer to the links of frame `f`. -/
def blockPtr (hhdm f : ℕ) : ℕ := f * 4096 + hhdm

/-- The pointer to frame `f` is a non-null `u64`. -/
def PtrOk (hhdm f : ℕ) : Prop := blockPtr hhdm f ≠ 0 ∧ blockPtr hhdm f < 2 ^ 64

theorem blockPtr_inj {hhdm f g : ℕ} (h : blockPtr hhdm f = blockPtr hhdm g) : f = g := by
  unfold blockPtr at h
  omega

@[simp] theorem ptrFrame_blockPtr (hhdm f : ℕ) : ptrFrame hhdm (blockPtr hhdm f) = f := by
  unfold ptrFrame blockPtr
  omega

@[simp] theorem ptrIndex_blockPtr (hhdm f : ℕ) : ptrIndex hhdm (blockPtr hhdm f) = 0 := by
  unfold ptrIndex blockPtr
  omega

@[simp] theorem ptrFrame_blockPtr_next (hhdm f : ℕ) :
    ptrFrame hhdm (blockPtr hhdm f + 8) = f := by
  unfold ptrFrame blockPtr
  omega

@[simp] theorem ptrIndex_blockPtr_next (hhdm f : ℕ) :
    ptrIndex hhdm (blockPtr hhdm f + 8) = 1 := by
  unfold ptrIndex blockPtr
  omega

theorem le_blockPtr (hhdm f : ℕ) : hhdm ≤ blockPtr hhdm f := Nat.le_add_left _ _

theorem PtrOk.frame_lt {hhdm f : ℕ} (h : PtrOk hhdm f) : f < 2 ^ 52 := by
  have := h.2
  unfold blockPtr at this
  omega

theorem PtrOk.wordPtr_eq {hhdm f : ℕ} (h : PtrOk hhdm f) :
    wordPtr (ptrWord (some (blockPtr hhdm f))) = some (blockPtr hhdm f) := wordPtr_some h.1 h.2

/-! ## Memory accesses -/

theorem onMem_of_ok {α : Type} {x : Run Mem α} {s : Phys} {a : α} {m : Mem}
    (h : x.run s.mem = .ok a m) : (onMem x).run s = .ok a { s with mem := m } := Prog.zoom_of_ok h

theorem readPrev_block {s : Phys} {hhdm : ℕ} (hh : s.pmm.hhdmOffset = hhdm) (f : ℕ) :
    (readPrev (blockPtr hhdm f)).run s = .ok (wordPtr (s.mem f 0)) s := by
  subst hh
  unfold readPrev
  rw [Prog.gets_bind, Prog.bind_of_ok (onMem_of_ok (load_of_le (le_blockPtr _ f) s.mem))]
  simp

theorem readNext_block {s : Phys} {hhdm : ℕ} (hh : s.pmm.hhdmOffset = hhdm) (f : ℕ) :
    (readNext (blockPtr hhdm f)).run s = .ok (wordPtr (s.mem f 1)) s := by
  subst hh
  have hle : s.pmm.hhdmOffset ≤ blockPtr s.pmm.hhdmOffset f + 8 :=
    Nat.le_add_right_of_le (le_blockPtr _ f)
  unfold readNext
  rw [Prog.gets_bind, Prog.bind_of_ok (onMem_of_ok (load_of_le hle s.mem))]
  simp

theorem writePrev_block {s : Phys} {hhdm : ℕ} (hh : s.pmm.hhdmOffset = hhdm) (f : ℕ)
    (p : Option ℕ) :
    (writePrev (blockPtr hhdm f) p).run s =
      .ok () { s with mem := s.mem.set f 0 (ptrWord p) } := by
  subst hh
  unfold writePrev
  rw [Prog.gets_bind, onMem_of_ok (store_of_le (le_blockPtr _ f) _ s.mem)]
  simp

theorem writeNext_block {s : Phys} {hhdm : ℕ} (hh : s.pmm.hhdmOffset = hhdm) (f : ℕ)
    (p : Option ℕ) :
    (writeNext (blockPtr hhdm f) p).run s =
      .ok () { s with mem := s.mem.set f 1 (ptrWord p) } := by
  subst hh
  have hle : s.pmm.hhdmOffset ≤ blockPtr s.pmm.hhdmOffset f + 8 :=
    Nat.le_add_right_of_le (le_blockPtr _ f)
  unfold writeNext
  rw [Prog.gets_bind, onMem_of_ok (store_of_le hle _ s.mem)]
  simp

theorem frameToBlock_of_ptrOk {s : Phys} {f : ℕ} (h : PtrOk s.pmm.hhdmOffset f) :
    (frameToBlock f).run s = .ok (blockPtr s.pmm.hhdmOffset f) s := by
  have hlt := h.frame_lt
  have hshl : shlU64 f frameShift = f * 4096 := shlU64_of_lt (by unfold frameShift; omega)
  unfold frameToBlock
  rw [Prog.gets_bind, hshl, Prog.bind_of_ok (addU64_of_lt h.2 s)]
  exact Prog.require_bind h.1 _ _ s

/-- Where `frame_to_block` returns, the pointer is in order. -/
theorem frameToBlock_ok {s s' : Phys} {f b : ℕ} (hf : f < 2 ^ 52)
    (h : (frameToBlock f).run s = .ok b s') :
    PtrOk s.pmm.hhdmOffset f ∧ b = blockPtr s.pmm.hhdmOffset f ∧ s' = s := by
  have hshl : shlU64 f frameShift = f * 4096 := shlU64_of_lt (by unfold frameShift; omega)
  unfold frameToBlock at h
  rw [Prog.gets_bind, hshl] at h
  obtain ⟨v, t, hv, hn⟩ := Prog.bind_ok_iff.1 h
  obtain ⟨hlt, rfl, rfl⟩ := addU64_ok_iff.1 hv
  obtain ⟨_, u, hu, hp⟩ := Prog.bind_ok_iff.1 hn
  obtain ⟨hne, rfl⟩ := Prog.require_ok_iff.1 hu
  cases hp
  exact ⟨⟨hne, hlt⟩, rfl, rfl⟩

theorem blockToFrame_block (s : Phys) (f : ℕ) :
    (blockToFrame (blockPtr s.pmm.hhdmOffset f)).run s = .ok f s := by
  unfold blockToFrame
  rw [Prog.gets_bind, Prog.bind_of_ok (subU64_of_le (le_blockPtr _ f) s)]
  have : (blockPtr s.pmm.hhdmOffset f - s.pmm.hhdmOffset) / 2 ^ frameShift = f := by
    unfold blockPtr frameShift
    omega
  rw [this]
  rfl

/-! ## The order bytes of a block -/

/-- `frame_order` with the `n` entries from `frame` on set to `value`. -/
def paint (fo : List ℕ) (frame n value : ℕ) : List ℕ :=
  fo.mapIdx fun g v => if frame ≤ g ∧ g < frame + n then value else v

@[simp] theorem length_paint (fo : List ℕ) (frame n value : ℕ) :
    (paint fo frame n value).length = fo.length := by
  simp [paint]

theorem getElem?_paint (fo : List ℕ) (frame n value g : ℕ) :
    (paint fo frame n value)[g]? =
      fo[g]?.map fun v => if frame ≤ g ∧ g < frame + n then value else v := by
  simp [paint, List.getElem?_mapIdx]

theorem getElem?_paint_of_mem {fo : List ℕ} {frame order g v : ℕ} (value : ℕ)
    (hg : g ∈ block order frame) (hv : fo[g]? = some v) :
    (paint fo frame (2 ^ order) value)[g]? = some value := by
  rw [getElem?_paint, hv, Option.map_some, if_pos (mem_block.1 hg)]

theorem getElem?_paint_of_notMem (fo : List ℕ) {frame order g : ℕ} (value : ℕ)
    (hg : g ∉ block order frame) :
    (paint fo frame (2 ^ order) value)[g]? = fo[g]? := by
  rw [getElem?_paint]
  rw [mem_block] at hg
  cases fo[g]? with
  | none => rfl
  | some v => rw [Option.map_some, if_neg hg]

theorem paint_zero (fo : List ℕ) (frame value : ℕ) : paint fo frame 0 value = fo := by
  apply List.ext_getElem?
  intro g
  rw [getElem?_paint]
  cases fo[g]? with
  | none => rfl
  | some v => simp

theorem paint_succ (fo : List ℕ) (frame n value : ℕ) :
    (paint fo frame n value).set (frame + n) value = paint fo frame (n + 1) value := by
  apply List.ext_getElem?
  intro g
  rw [List.getElem?_set, length_paint, getElem?_paint, getElem?_paint]
  by_cases hg : frame + n = g
  · subst hg
    by_cases hl : frame + n < fo.length
    · simp [hl]
    · simp [hl]
  · have : (frame ≤ g ∧ g < frame + n) ↔ (frame ≤ g ∧ g < frame + (n + 1)) := by omega
    simp [hg, this]

/-- `s` with another `frame_order`. -/
def withOrder (s : Phys) (fo : List ℕ) : Phys := { s with pmm := { s.pmm with frameOrder := fo } }

theorem setBlockOrder_eq {s : Phys} {frame order : ℕ} (value : ℕ)
    (hlen : frame + 2 ^ order ≤ s.pmm.frameOrder.length) (hu64 : frame + 2 ^ order ≤ 2 ^ 64) :
    (setBlockOrder frame order value).run s =
      .ok () (withOrder s (paint s.pmm.frameOrder frame (2 ^ order) value)) := by
  have hloop : ∃ s', (setBlockOrder frame order value).run s = .ok () s' ∧
      s' = withOrder s (paint s.pmm.frameOrder frame (2 ^ order) value) := by
    refine Prog.forRange_ok
      (I := fun i t => t = withOrder s (paint s.pmm.frameOrder frame i value)) ?_ ?_
    · rw [paint_zero]
      rfl
    · intro i hi t ht
      subst ht
      refine ⟨withOrder s (paint s.pmm.frameOrder frame (i + 1) value), ?_, rfl⟩
      rw [Prog.bind_of_ok (addU64_of_lt (by omega) _)]
      unfold setFrameOrder
      rw [Prog.gets_bind, Prog.bind_of_ok (setIndex_of_lt (by simp [withOrder]; omega) _ _)]
      simp [withOrder, paint_succ]
  rcases hloop with ⟨s', hrun, rfl⟩
  exact hrun

/-- `assert_block_unused` passes on unused blocks, and changes nothing. -/
theorem assertBlockUnused_eq {s : Phys} {frame order : ℕ} (hu64 : frame + 2 ^ order ≤ 2 ^ 64)
    (hnone : ∀ g ∈ block order frame, s.pmm.frameOrder[g]? = some orderNone) :
    (assertBlockUnused frame order).run s = .ok () s := by
  have hloop : ∃ s', (assertBlockUnused frame order).run s = .ok () s' ∧ s' = s := by
    refine Prog.forRange_ok (I := fun _ t => t = s) rfl ?_
    intro i hi t ht
    subst ht
    refine ⟨t, ?_, rfl⟩
    rw [Prog.bind_of_ok (addU64_of_lt (by omega) _), Prog.gets_bind,
      Prog.bind_of_ok (index_of_eq (hnone (frame + i) ⟨by omega, by omega⟩) _)]
    exact Prog.run_require rfl _ _
  rcases hloop with ⟨s', hrun, rfl⟩
  exact hrun

/-- Where it passes, the block is unused. -/
theorem assertBlockUnused_ok {s s' : Phys} {frame order : ℕ} {u : Unit}
    (h : (assertBlockUnused frame order).run s = .ok u s') :
    s' = s ∧ ∀ g ∈ block order frame, s.pmm.frameOrder[g]? = some orderNone := by
  have hinv : s' = s ∧ ∀ g, frame ≤ g → g < frame + 2 ^ order →
      s.pmm.frameOrder[g]? = some orderNone := by
    refine Prog.forRange_of_ok (I := fun i t => t = s ∧ ∀ g, frame ≤ g → g < frame + i →
      s.pmm.frameOrder[g]? = some orderNone) h ⟨rfl, fun g h1 h2 => by omega⟩ ?_
    rintro i hi t t' ⟨rfl, hall⟩ hturn
    rcases Prog.bind_ok_iff.1 hturn with ⟨j, t₁, hj, hread⟩
    rcases addU64_ok_iff.1 hj with ⟨-, rfl, rfl⟩
    rw [Prog.gets_bind] at hread
    rcases Prog.bind_ok_iff.1 hread with ⟨v, t₂, hv, hcheck⟩
    rcases index_ok_iff.1 hv with ⟨hv, rfl⟩
    rcases Prog.require_ok_iff.1 hcheck with ⟨rfl, rfl⟩
    refine ⟨rfl, ?_⟩
    intro g h1 h2
    rcases Nat.lt_or_ge g (frame + i) with hlt | hge
    · exact hall g h1 hlt
    · rwa [show g = frame + i by omega]
  exact ⟨hinv.1, fun g hg => hinv.2 g hg.1 hg.2⟩

/-! ## Relinking

A link that is followed points to the links of some frame `f`; `node` and `prev`
below are such links, given by the frame. -/

/-- The memory after `relinkPrev`. -/
def setPrevOf (m : Mem) (node : Option ℕ) (w : Word) : Mem :=
  match node with
  | some f => m.set f 0 w
  | none => m

/-- The memory after `relinkNext`. -/
def setNextOf (m : Mem) (node : Option ℕ) (w : Word) : Mem :=
  match node with
  | some f => m.set f 1 w
  | none => m

theorem relinkPrev_eq {s : Phys} {hhdm : ℕ} (hh : s.pmm.hhdmOffset = hhdm)
    (node p : Option ℕ) :
    (relinkPrev (node.map (blockPtr hhdm)) p).run s =
      .ok () { s with mem := setPrevOf s.mem node (ptrWord p) } := by
  cases node with
  | none => rfl
  | some f => exact writePrev_block hh f p

theorem setFreeList_of_lt {s : Phys} {order : ℕ} (h : order < s.pmm.freeLists.length)
    (head : Option ℕ) :
    (setFreeList order head).run s =
      .ok () { s with pmm := { s.pmm with freeLists := s.pmm.freeLists.set order head } } := by
  unfold setFreeList
  rw [Prog.gets_bind, Prog.bind_of_ok (setIndex_of_lt h head s), Prog.run_update]

theorem relinkNext_eq {s : Phys} {hhdm order : ℕ} (hh : s.pmm.hhdmOffset = hhdm)
    (h : order < s.pmm.freeLists.length) (node n : Option ℕ) :
    (relinkNext order (node.map (blockPtr hhdm)) n).run s =
      .ok () { pmm := { s.pmm with freeLists :=
                 if node = none then s.pmm.freeLists.set order n else s.pmm.freeLists }
               mem := setNextOf s.mem node (ptrWord n) } := by
  cases node with
  | none => exact setFreeList_of_lt h n
  | some f => exact writeNext_block hh f n

/-! ## Pushing and removing a block -/

/-- The memory after `list_push` of `frame` in front of `head`. -/
def pushMem (m : Mem) (hhdm frame : ℕ) (head : Option ℕ) : Mem :=
  setPrevOf ((m.set frame 0 (ptrWord none)).set frame 1 (ptrWord (head.map (blockPtr hhdm)))) head
    (ptrWord (some (blockPtr hhdm frame)))

theorem listPush_eq {s : Phys} {frame order : ℕ} {head : Option ℕ}
    (hptr : PtrOk s.pmm.hhdmOffset frame) (horder : order ≤ maxOrder)
    (hend : frame + 2 ^ order ≤ s.pmm.totalFrames)
    (hlen : s.pmm.frameOrder.length = s.pmm.totalFrames)
    (hnone : ∀ g ∈ block order frame, s.pmm.frameOrder[g]? = some orderNone)
    (hhead : s.pmm.freeLists[order]? = some (head.map (blockPtr s.pmm.hhdmOffset))) :
    (listPush frame order).run s =
      .ok () { pmm := { s.pmm with
                 freeLists := s.pmm.freeLists.set order (some (blockPtr s.pmm.hhdmOffset frame))
                 frameOrder := paint s.pmm.frameOrder frame (2 ^ order) order }
               mem := pushMem s.mem s.pmm.hhdmOffset frame head } := by
  have hpos := Nat.two_pow_pos order
  have hpow : 2 ^ order ≤ 2 ^ 11 := Nat.pow_le_pow_right (by omega) horder
  have hlt := hptr.frame_lt
  have hmod : order % 2 ^ 8 = order := Nat.mod_eq_of_lt (by unfold maxOrder at horder; omega)
  have hidx : order < s.pmm.freeLists.length := (List.getElem?_eq_some_iff.1 hhead).1
  unfold listPush debugAssert
  rw [Prog.gets_bind, Prog.require_bind (by omega), Prog.bind_of_ok (addU64_of_lt (by omega) s),
    Prog.require_bind hend, Prog.bind_of_ok (assertBlockUnused_eq (by omega) hnone),
    Prog.bind_of_ok (frameToBlock_of_ptrOk hptr), Prog.gets_bind,
    Prog.bind_of_ok (index_of_eq hhead s), hmod]
  refine (Prog.bind_of_ok (writePrev_block (by rfl) frame none)).trans ?_
  refine (Prog.bind_of_ok (writeNext_block (by rfl) frame _)).trans ?_
  refine (Prog.bind_of_ok (relinkPrev_eq (by rfl) head _)).trans ?_
  refine (Prog.bind_of_ok (setFreeList_of_lt (by exact hidx) _)).trans ?_
  exact setBlockOrder_eq order (by simp only [hlen]; exact hend) (by omega)

/-- The memory after `list_remove` of a block between `prev` and `next`. -/
def removeMem (m : Mem) (hhdm : ℕ) (prev next : Option ℕ) : Mem :=
  setPrevOf (setNextOf m prev (ptrWord (next.map (blockPtr hhdm)))) next
    (ptrWord (prev.map (blockPtr hhdm)))

theorem listRemove_eq {s : Phys} {frame order : ℕ} {prev next : Option ℕ}
    (hptr : PtrOk s.pmm.hhdmOffset frame) (horder : order ≤ maxOrder)
    (hend : frame + 2 ^ order ≤ s.pmm.totalFrames)
    (hlen : s.pmm.frameOrder.length = s.pmm.totalFrames)
    (hmark : s.pmm.frameOrder[frame]? = some order)
    (hlists : order < s.pmm.freeLists.length)
    (hprev : wordPtr (s.mem frame 0) = prev.map (blockPtr s.pmm.hhdmOffset))
    (hnext : wordPtr (s.mem frame 1) = next.map (blockPtr s.pmm.hhdmOffset)) :
    (listRemove frame order).run s =
      .ok () { pmm := { s.pmm with
                 freeLists := if prev = none then
                     s.pmm.freeLists.set order (next.map (blockPtr s.pmm.hhdmOffset))
                   else s.pmm.freeLists
                 frameOrder := paint s.pmm.frameOrder frame (2 ^ order) orderNone }
               mem := removeMem s.mem s.pmm.hhdmOffset prev next } := by
  have hpos := Nat.two_pow_pos order
  have hpow : 2 ^ order ≤ 2 ^ 11 := Nat.pow_le_pow_right (by omega) horder
  have hlt := hptr.frame_lt
  have hmod : order % 2 ^ 8 = order := Nat.mod_eq_of_lt (by unfold maxOrder at horder; omega)
  unfold listRemove debugAssert
  rw [Prog.gets_bind, Prog.require_bind (by omega), Prog.gets_bind,
    Prog.bind_of_ok (index_of_eq hmark s), Prog.require_bind hmod.symm,
    Prog.bind_of_ok (frameToBlock_of_ptrOk hptr), Prog.bind_of_ok (readPrev_block rfl frame),
    Prog.bind_of_ok (readNext_block rfl frame), hprev, hnext]
  refine (Prog.bind_of_ok (relinkNext_eq (by rfl) (by exact hlists) prev _)).trans ?_
  refine (Prog.bind_of_ok (relinkPrev_eq (by rfl) next _)).trans ?_
  exact setBlockOrder_eq orderNone (by simp only [hlen]; exact hend) (by omega)

end Prometheos.Pmm
