import Prometheos.Heap.Layout

/-!
# The representation invariant of the heap

`Rep h others free parts` says what the heap's fields and the words in its slabs
describe:

* the slabs are the frames that `refill` found, each owned by the heap; `others` are
  the other blocks that are out of the physical memory manager;
* `free f` lists the free objects of the slab in frame `f`, in the order of its list;
* `parts b` lists the frames of the partial slabs of bucket `b`;
* a slab with a free object is active or partial, and only such slabs are partial.
-/

namespace Prometheos.Heap

open Pmm Linked

/-! ## Lists in slabs -/

/-- The link stored at a pointer. -/
def linkAt (hhdm : ℕ) (m : Mem) (p : ℕ) : Option ℕ :=
  wordPtr (m (ptrFrame hhdm p) (ptrIndex hhdm p))

/-- `head` starts the list of the objects `js` of the slab in frame `f`. -/
def ObjChain (hhdm : ℕ) (m : Mem) (b f : ℕ) (head : Option ℕ) (js : List ℕ) : Prop :=
  Chain (linkAt hhdm m) head (js.map (objPtr hhdm b f))

/-- The free list of the slab in frame `f` runs through the objects `js`. -/
structure FreeList (hhdm : ℕ) (m : Mem) (b f : ℕ) (js : List ℕ) : Prop where
  chain : ObjChain hhdm m b f (wordPtr (m f 1)) js
  range : ∀ j ∈ js, 1 ≤ j ∧ j < slots b

section

variable {hhdm b f : ℕ} {m m' : Mem} {js : List ℕ}

/-- The list reads the words of its objects only. -/
theorem ObjChain.congr {head : Option ℕ} (hb : b < numBuckets)
    (hrange : ∀ j ∈ js, 1 ≤ j ∧ j < slots b) (h : ObjChain hhdm m b f head js)
    (hm : ∀ j ∈ js, m' f (j * objSize b / 8) = m f (j * objSize b / 8)) :
    ObjChain hhdm m' b f head js := by
  refine ChainTo.congr h ?_
  intro p hp
  rcases List.mem_map.1 hp with ⟨j, hj, rfl⟩
  have hlt := (hrange j hj).2
  unfold linkAt
  rw [ptrFrame_objPtr hb hlt, ptrIndex_objPtr hb hlt, hm j hj]

theorem FreeList.congr (hb : b < numBuckets) (h : FreeList hhdm m b f js)
    (hhead : m' f 1 = m f 1)
    (hm : ∀ j ∈ js, m' f (j * objSize b / 8) = m f (j * objSize b / 8)) :
    FreeList hhdm m' b f js := by
  refine ⟨?_, h.range⟩
  rw [hhead]
  exact h.chain.congr hb h.range hm

theorem FreeList.nodup (h : FreeList hhdm m b f js) : js.Nodup :=
  List.Nodup.of_map _ (Chain.nodup h.chain)

/-- A stored link is read back as it was. -/
theorem wordPtr_ptrWord_wordPtr (w : Word) : wordPtr (ptrWord (wordPtr w)) = wordPtr w := by
  by_cases hw : w = 0
  · rw [hw]
    rfl
  · have hne : w.toNat ≠ 0 := by
      intro h0
      exact hw (BitVec.eq_of_toNat_eq h0)
    have hsome : wordPtr w = some w.toNat := by
      unfold wordPtr
      rw [if_neg hw]
    rw [hsome]
    exact wordPtr_some hne w.isLt

/-- Taking the first object off the list. -/
theorem FreeList.pop {j : ℕ} (hb : b < numBuckets) (h : FreeList hhdm m b f (j :: js)) :
    FreeList hhdm (m.set f 1 (ptrWord (linkAt hhdm m (objPtr hhdm b f j)))) b f js := by
  rcases h.chain with ⟨-, hrest⟩
  have hrange : ∀ i ∈ js, 1 ≤ i ∧ i < slots b := fun i hi => h.range i (List.mem_cons_of_mem _ hi)
  refine ⟨?_, hrange⟩
  have hhead : wordPtr (ptrWord (linkAt hhdm m (objPtr hhdm b f j))) =
      linkAt hhdm m (objPtr hhdm b f j) := wordPtr_ptrWord_wordPtr _
  rw [Mem.set_self, hhead]
  refine ObjChain.congr hb hrange hrest ?_
  intro i hi
  have hword := two_le_objWord (b := b) (hrange i hi).1
  rw [Mem.set_apply, if_neg (by omega)]

/-- Putting an object in front of a list: its word gets the old head. -/
theorem ObjChain.cons {head : Option ℕ} {j : ℕ} (hb : b < numBuckets)
    (hrange : ∀ i ∈ js, 1 ≤ i ∧ i < slots b) (h : ObjChain hhdm m b f head js)
    (hj : j < slots b) (hnew : j ∉ js) (hhead : wordPtr (ptrWord head) = head) :
    ObjChain hhdm (m.set f (j * objSize b / 8) (ptrWord head)) b f
      (some (objPtr hhdm b f j)) (j :: js) := by
  refine ⟨rfl, ?_⟩
  have hnext : linkAt hhdm (m.set f (j * objSize b / 8) (ptrWord head)) (objPtr hhdm b f j) =
      head := by
    unfold linkAt
    rw [ptrFrame_objPtr hb hj, ptrIndex_objPtr hb hj, Mem.set_self, hhead]
  rw [hnext]
  refine ObjChain.congr hb hrange h ?_
  -- the words of the objects already listed are others
  intro i hi
  have hij : i * objSize b / 8 ≠ j * objSize b / 8 := by
    intro heq
    exact hnew (objWord_inj heq ▸ hi)
  rw [Mem.set_apply, if_neg (by omega)]

/-- Freeing an object: it is linked in front, and the header points to it. -/
theorem FreeList.push {j : ℕ} (hb : b < numBuckets) (h : FreeList hhdm m b f js)
    (hj : 1 ≤ j ∧ j < slots b) (hnew : j ∉ js) (hne : objPtr hhdm b f j ≠ 0)
    (hlt : objPtr hhdm b f j < 2 ^ 64) :
    FreeList hhdm ((m.set f (j * objSize b / 8) (ptrWord (wordPtr (m f 1)))).set f 1
      (ptrWord (some (objPtr hhdm b f j)))) b f (j :: js) := by
  have hrange : ∀ i ∈ j :: js, 1 ≤ i ∧ i < slots b := by
    intro i hi
    rcases List.mem_cons.1 hi with rfl | hi
    · exact hj
    · exact h.range i hi
  refine ⟨?_, hrange⟩
  rw [Mem.set_self, wordPtr_some hne hlt]
  refine ObjChain.congr hb hrange
    (h.chain.cons hb h.range hj.2 hnew (wordPtr_ptrWord_wordPtr _)) ?_
  intro i hi
  have hword := two_le_objWord (b := b) (hrange i hi).1
  rw [Mem.set_apply, if_neg (by omega)]

end

/-! ## The invariant -/

/-- The slabs that `refill` made: bucket and frame. -/
def created (refills : List (ℕ × Option ℕ)) : List (ℕ × ℕ) :=
  refills.filterMap fun e => e.2.map fun f => (e.1, f)

/-- The blocks of the slabs. -/
def slabBlocks (refills : List (ℕ × Option ℕ)) : List (ℕ × ℕ) :=
  (created refills).map fun e => (e.2 * frameSize, 0)

@[simp] theorem created_none (b : ℕ) (refills : List (ℕ × Option ℕ)) :
    created ((b, none) :: refills) = created refills := rfl

@[simp] theorem created_some (b f : ℕ) (refills : List (ℕ × Option ℕ)) :
    created ((b, some f) :: refills) = (b, f) :: created refills := rfl

/-- The slab in frame `f` is the active one of bucket `b`. -/
def IsActive (h : Heap) (b f : ℕ) : Prop :=
  h.active[b]? = some (some (blockPtr h.hhdmOffset f))

/-- The heap's fields and slabs, as lists. -/
structure Rep (h : Heap) (others : List (ℕ × ℕ)) (free parts : ℕ → List ℕ) : Prop where
  hhdm_eq : h.hhdmOffset = h.phys.pmm.hhdmOffset
  active_len : h.active.length = numBuckets
  partials_len : h.partials.length = numBuckets
  holds : Holds h.phys (slabBlocks h.refills ++ others)
  bucket_lt : ∀ b f, (b, f) ∈ created h.refills → b < numBuckets
  slab : ∀ b f, (b, f) ∈ created h.refills → FreeList h.hhdmOffset h.phys.mem b f (free f)
  active_mem : ∀ b p, h.active[b]? = some (some p) →
    ∃ f, p = blockPtr h.hhdmOffset f ∧ (b, f) ∈ created h.refills
  chain : ∀ b < numBuckets, ∃ head, h.partials[b]? = some head ∧
    Chain (linkAt h.hhdmOffset h.phys.mem) head ((parts b).map (blockPtr h.hhdmOffset))
  part_mem : ∀ b f, f ∈ parts b →
    (b, f) ∈ created h.refills ∧ free f ≠ [] ∧ ¬ IsActive h b f
  placed : ∀ b f, (b, f) ∈ created h.refills → IsActive h b f ∨ f ∈ parts b ∨ free f = []

section

variable {h : Heap} {others : List (ℕ × ℕ)} {free parts : ℕ → List ℕ} {b f : ℕ}

theorem mem_slabBlocks {refills : List (ℕ × Option ℕ)} (hf : (b, f) ∈ created refills) :
    (f * frameSize, 0) ∈ slabBlocks refills := List.mem_map.2 ⟨(b, f), hf, rfl⟩

theorem mem_blocks {refills : List (ℕ × Option ℕ)} (hf : (b, f) ∈ created refills) :
    (f * frameSize, 0) ∈ slabBlocks refills ++ others :=
  List.mem_append_left _ (mem_slabBlocks hf)

theorem Rep.notFree (hR : Rep h others free parts) (hf : (b, f) ∈ created h.refills) :
    f ∉ freeSet h.phys := hR.holds.notMem_freeSet (mem_blocks hf) (mem_frames_self f)

theorem Rep.frame_lt (hR : Rep h others free parts) (hf : (b, f) ∈ created h.refills) :
    f < h.phys.pmm.totalFrames := hR.holds.frame_lt (mem_blocks hf)

/-- Two slabs in one frame are one. -/
theorem Rep.created_nodup (hR : Rep h others free parts) :
    ((created h.refills).map Prod.snd).Nodup := by
  have hpair := (List.pairwise_append.1 hR.holds.disjoint).1
  unfold slabBlocks at hpair
  rw [List.pairwise_map] at hpair
  rw [List.Nodup, List.pairwise_map]
  refine hpair.imp ?_
  intro a a' hdisj heq
  rw [heq] at hdisj
  exact Set.disjoint_left.1 hdisj (mem_frames_self a'.2) (mem_frames_self a'.2)

theorem Rep.bucket_unique (hR : Rep h others free parts) {b' : ℕ}
    (hf : (b, f) ∈ created h.refills) (hf' : (b', f) ∈ created h.refills) : b = b' := by
  have heq := List.inj_on_of_nodup_map hR.created_nodup hf hf' rfl
  exact congrArg Prod.fst heq

/-- A pointer into a frame of the direct map is a non-null `u64`. -/
theorem objPtr_ok {s : Phys} {hhdm j : ℕ} (hD : DirectMap s) (hh : hhdm = s.pmm.hhdmOffset)
    (hf : f < s.pmm.totalFrames) (hb : b < numBuckets) (hj : j < slots b) :
    objPtr hhdm b f j ≠ 0 ∧ objPtr hhdm b f j < 2 ^ 64 := by
  have hbound := obj_bounds hb hj
  have hpos := hD.offset_pos
  have hfits := hD.fits
  have hsize := objSize_pos b
  rw [Nat.add_mul] at hbound
  rw [← hh] at hpos hfits
  unfold objPtr blockPtr
  unfold frameSize at hfits
  omega

theorem Rep.ptr_ok (hR : Rep h others free parts) (hf : (b, f) ∈ created h.refills) {j : ℕ}
    (hj : j < slots b) :
    objPtr h.hhdmOffset b f j ≠ 0 ∧ objPtr h.hhdmOffset b f j < 2 ^ 64 :=
  objPtr_ok hR.holds.direct hR.hhdm_eq (hR.frame_lt hf) (hR.bucket_lt b f hf) hj

theorem Rep.base_ok (hR : Rep h others free parts) (hf : (b, f) ∈ created h.refills) :
    PtrOk h.hhdmOffset f := by
  have hok := hR.ptr_ok hf (Nat.two_pow_pos (8 - b))
  unfold objPtr at hok
  rw [Nat.zero_mul, Nat.add_zero] at hok
  exact hok

end

end Prometheos.Heap
