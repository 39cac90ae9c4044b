import Prometheos.Heap.Clients

/-!
# Runs of the heap

The heap with its clients: the live blocks, the blocks of the other clients of the
physical memory manager, and the largest number of live objects of each bucket so far.
Clients allocate and free with any layouts, free each live block once and with its own
layout, and write inside live blocks.

* `heap_runs_safe`: live blocks are aligned and disjoint from each other, from the slab
  headers, from the free objects and from the free frames, and no call faults;
* `heap_slabs_placed`: each slab is active, or once on the partial list of its bucket, or
  all its objects are live; and the number of slabs follows from the peak.
-/

namespace Prometheos.Heap

open Pmm Linked

/-! ## The clients -/

/-- The heap, its live blocks, the blocks of others, and the peaks. -/
structure World where
  heap : Heap
  live : List (ℕ × Layout)
  foreign : List (ℕ × ℕ)
  peak : ℕ → ℕ

/-- The blocks behind the large live blocks. -/
def largeBlocks (hhdm : ℕ) (live : List (ℕ × Layout)) : List (ℕ × ℕ) :=
  live.filterMap fun e =>
    if bucketFor e.2 = none then (orderForLarge e.2).map fun o => (e.1 - hhdm, o) else none

namespace World

/-- The outstanding blocks that are not slabs. -/
def others (w : World) : List (ℕ × ℕ) := largeBlocks w.heap.hhdmOffset w.live ++ w.foreign

/-- After an allocation that returned `p`. -/
def gain (w : World) (p : ℕ) (layout : Layout) (h' : Heap) : World :=
  let live' := if p = 0 then w.live else (p, layout) :: w.live
  ⟨h', live', w.foreign, raise w.peak live'⟩

/-- After a live block was freed. -/
def lose (w : World) (e : ℕ × Layout) (h' : Heap) : World :=
  ⟨h', w.live.erase e, w.foreign, w.peak⟩

/-- Physical memory changed. -/
def withPhys (w : World) (s : Phys) : World := { w with heap := { w.heap with phys := s } }

/-- The bytes of a live block. -/
def span (e : ℕ × Layout) : Set ℕ := Set.Ico e.1 (e.1 + e.2.size)

/-- The word `i` of frame `f` has a byte in a live block, or lies in a block of others. -/
def Owns (w : World) (f i : ℕ) : Prop :=
  i < 512 ∧ ((∃ e ∈ w.live, ¬ Disjoint (span e) (wordSpan w.heap.hhdmOffset f i)) ∨
    ∃ c ∈ w.foreign, f ∈ frames c)

/-- One call, or a write, of a client. -/
inductive Step (w : World) : World → Prop
  | alloc (layout : Layout) {p : ℕ} {h' : Heap} :
      (Heap.alloc layout).run w.heap = .ok p h' → Step w (w.gain p layout h')
  | dealloc (e : ℕ × Layout) {h' : Heap} :
      e ∈ w.live → (Heap.dealloc e.1 e.2).run w.heap = .ok () h' → Step w (w.lose e h')
  | uacpiAlloc (size : ℕ) {p : ℕ} {h' : Heap} :
      (uacpiKernelAlloc size).run w.heap = .ok p h' → Step w (w.gain p (uacpiLayout size) h')
  | uacpiFree (ptr size : ℕ) {h' : Heap} :
      (ptr, uacpiLayout size) ∈ w.live → (uacpiKernelFree ptr size).run w.heap = .ok () h' →
      Step w (w.lose (ptr, uacpiLayout size) h')
  | write {m : Mem} :
      (∀ f i, m f i ≠ w.heap.phys.mem f i → w.Owns f i) →
      Step w (w.withPhys { w.heap.phys with mem := m })
  | othersAlloc (order : ℕ) {r : Option ℕ} {s' : Phys} :
      (allocPages order).run w.heap.phys = .ok r s' →
      Step w { w.withPhys s' with
        foreign := (r.map fun addr => (addr, order)).toList ++ w.foreign }
  | othersFree (c : ℕ × ℕ) {s' : Phys} :
      c ∈ w.foreign → (freePages c.1 c.2).run w.heap.phys = .ok () s' →
      Step w { w.withPhys s' with foreign := w.foreign.erase c }

/-- The heap before the first call. -/
structure Start (w : World) : Prop where
  hhdm_eq : w.heap.hhdmOffset = w.heap.phys.pmm.hhdmOffset
  hhdm_dvd : 2 ^ maxOrder * frameSize ∣ w.heap.hhdmOffset
  active_eq : w.heap.active = List.replicate numBuckets none
  partials_eq : w.heap.partials = List.replicate numBuckets none
  refills_eq : w.heap.refills = []
  live_eq : w.live = []
  peak_eq : w.peak = fun _ => 0
  holds : Holds w.heap.phys w.foreign

/-- The states of all runs. -/
def Reachable (w : World) : Prop := ∃ w₀, Start w₀ ∧ Relation.ReflTransGen Step w₀ w

end World

/-! ## The invariant -/

/-- The invariant of the runs, with the lists that the heap represents. -/
structure Sound (w : World) (free parts : ℕ → List ℕ) : Prop where
  rep : Rep w.heap w.others free parts
  hhdm_dvd : 2 ^ maxOrder * frameSize ∣ w.heap.hhdmOffset
  clients : Clients w.heap.hhdmOffset (created w.heap.refills) w.live free
  peaks : Peaks (created w.heap.refills) w.live w.peak

theorem largeBlocks_cons_small {hhdm p b : ℕ} {layout : Layout} (live : List (ℕ × Layout))
    (hb : bucketFor layout = some b) :
    largeBlocks hhdm ((p, layout) :: live) = largeBlocks hhdm live :=
  List.filterMap_cons_none (by rw [hb]; rfl)

theorem largeBlocks_cons_large {hhdm p o : ℕ} {layout : Layout} (live : List (ℕ × Layout))
    (hb : bucketFor layout = none) (ho : orderForLarge layout = some o) :
    largeBlocks hhdm ((p, layout) :: live) = (p - hhdm, o) :: largeBlocks hhdm live :=
  List.filterMap_cons_some (by rw [hb, ho]; rfl)

theorem largeBlocks_perm {hhdm : ℕ} {live live' : List (ℕ × Layout)} (h : live.Perm live') :
    (largeBlocks hhdm live).Perm (largeBlocks hhdm live') := h.filterMap _

theorem blockPtr_sub (hhdm f : ℕ) : blockPtr hhdm f - hhdm = f * frameSize := by
  unfold blockPtr
  rw [Nat.add_sub_cancel]
  rfl

theorem World.Start.sound {w : World} (h : w.Start) : Sound w (fun _ => []) (fun _ => []) := by
  have hothers : w.others = w.foreign := by
    unfold World.others
    rw [h.live_eq]
    rfl
  refine ⟨⟨h.hhdm_eq, ?_, ?_, ?_, ?_, ?_, ?_, ?_, ?_, ?_⟩, h.hhdm_dvd, ?_, ?_⟩
  · rw [h.active_eq, List.length_replicate]
  · rw [h.partials_eq, List.length_replicate]
  · rw [h.refills_eq, hothers]
    exact h.holds
  · rw [h.refills_eq]
    exact fun b f hf => absurd hf List.not_mem_nil
  · rw [h.refills_eq]
    exact fun b f hf => absurd hf List.not_mem_nil
  · intro b p hp
    rw [h.active_eq, List.getElem?_replicate] at hp
    split at hp
    · cases hp
    · cases hp
  · intro b hb
    refine ⟨none, ?_, rfl⟩
    rw [h.partials_eq, List.getElem?_replicate, if_pos hb]
  · exact fun b f hf => absurd hf List.not_mem_nil
  · rw [h.refills_eq]
    exact fun b f hf => absurd hf List.not_mem_nil
  · rw [h.refills_eq, h.live_eq]
    refine ⟨?_, ?_, ?_, List.nodup_nil, ?_⟩
    · exact fun e he => absurd he List.not_mem_nil
    · exact fun e he => absurd he List.not_mem_nil
    · exact fun b f hf => absurd hf List.not_mem_nil
    · exact fun b => (Nat.zero_mul _).symm
  · rw [h.refills_eq, h.live_eq, h.peak_eq]
    exact ⟨fun b => le_refl 0, fun b => Nat.zero_le _, fun b => Or.inl rfl⟩

section

variable {w : World} {free parts : ℕ → List ℕ}

theorem Sound.dvd_hhdm (hS : Sound w free parts) : 4096 ∣ w.heap.hhdmOffset :=
  (Dvd.intro_left _ rfl).trans hS.hhdm_dvd

/-- The frames of a large live block are out. -/
theorem Sound.large_mem (hS : Sound w free parts) {e : ℕ × Layout} (he : e ∈ w.live)
    (hb : bucketFor e.2 = none) : ∃ f o, orderForLarge e.2 = some o ∧
      e.1 = blockPtr w.heap.hhdmOffset f ∧ (f * frameSize, o) ∈ w.others := by
  rcases hS.clients.large e he hb with ⟨f, o, ho, hptr⟩
  refine ⟨f, o, ho, hptr, List.mem_append_left _ ?_⟩
  unfold largeBlocks
  rw [List.mem_filterMap]
  refine ⟨e, he, ?_⟩
  rw [if_pos hb, ho, hptr, blockPtr_sub]
  rfl

/-! ## What a call leaves alone -/

/-- The words that the heap keeps for itself: those of free frames, of the headers of slabs, and
the links of free objects. -/
def HeapWord (h : Heap) (free : ℕ → List ℕ) (f i : ℕ) : Prop :=
  f ∈ freeSet h.phys ∨ ∃ b, (b, f) ∈ created h.refills ∧
    (i < 2 ∨ ∃ j ∈ free f, i = j * objSize b / 8)

/-- The frames that are free, slabs, or behind large live blocks. -/
def World.owned (w : World) : Set ℕ :=
  w.heap.stock ∪ outFrames (largeBlocks w.heap.hhdmOffset w.live)

/-- From `w` to `w'` no frame is lost, and only words of the heap are written. -/
structure Confined (w : World) (free : ℕ → List ℕ) (w' : World) (free' : ℕ → List ℕ) : Prop where
  hhdm : w'.heap.hhdmOffset = w.heap.hhdmOffset
  total : w'.heap.phys.pmm.totalFrames = w.heap.phys.pmm.totalFrames
  owned_eq : w'.owned = w.owned
  mem : ∀ g i, w'.heap.phys.mem g i ≠ w.heap.phys.mem g i →
    HeapWord w.heap free g i ∨ HeapWord w'.heap free' g i

/-- Small blocks come and go without a change of the frames. -/
theorem World.owned_congr {w' : World} (hhdm : w'.heap.hhdmOffset = w.heap.hhdmOffset)
    (hstock : w'.heap.stock = w.heap.stock)
    (hlarge : (largeBlocks w.heap.hhdmOffset w'.live).Perm
      (largeBlocks w.heap.hhdmOffset w.live)) : w'.owned = w.owned := by
  unfold World.owned
  rw [hhdm, hstock, outFrames_perm hlarge]

/-- A small allocation writes to headers and free frames. -/
theorem HeadersOnly.confined {h' : Heap} {p b : ℕ} {layout : Layout}
    (hH : HeadersOnly w.heap h') (hb : bucketFor layout = some b)
    (hhdm : h'.hhdmOffset = w.heap.hhdmOffset) (free' : ℕ → List ℕ) :
    Confined w free (w.gain p layout h') free' := by
  refine ⟨hhdm, hH.total, World.owned_congr hhdm hH.stock_eq ?_, ?_⟩
  · unfold World.gain
    dsimp only
    split
    · exact List.Perm.refl _
    · rw [largeBlocks_cons_small _ hb]
  · intro g i hne
    exact Or.inl ((hH.mem g i hne).imp_right fun ⟨b, hb, hi⟩ => ⟨b, hb, Or.inl hi⟩)

/-! ## Allocation -/

/-- The block at `p` becomes live. -/
theorem Sound.gain {free' parts' : ℕ → List ℕ} {p : ℕ} {layout : Layout} {h' : Heap}
    (hS : Sound w free parts) (hp : p ≠ 0) (hhdm : h'.hhdmOffset = w.heap.hhdmOffset)
    (hR : Rep h' (largeBlocks w.heap.hhdmOffset ((p, layout) :: w.live) ++ w.foreign) free' parts')
    (hC : Clients w.heap.hhdmOffset (created h'.refills) ((p, layout) :: w.live) free')
    (hP : Peaks (created h'.refills) ((p, layout) :: w.live)
      (raise w.peak ((p, layout) :: w.live))) :
    Sound (w.gain p layout h') free' parts' := by
  have hgain : w.gain p layout h' =
      ⟨h', (p, layout) :: w.live, w.foreign, raise w.peak ((p, layout) :: w.live)⟩ := by
    unfold World.gain
    rw [if_neg hp]
  rw [hgain]
  rw [← hhdm] at hR hC
  refine ⟨hR, ?_, hC, hP⟩
  change _ ∣ h'.hhdmOffset
  rw [hhdm]
  exact hS.hhdm_dvd

/-- Nothing was allocated. -/
theorem Sound.gain_null {parts' : ℕ → List ℕ} {layout : Layout} {h' : Heap}
    (hS : Sound w free parts) (hhdm : h'.hhdmOffset = w.heap.hhdmOffset)
    (hlog : created h'.refills = created w.heap.refills) (hR : Rep h' w.others free parts') :
    Sound (w.gain 0 layout h') free parts' := by
  have hP := hS.peaks.raise hS.clients
  have hC := hS.clients
  rw [← hlog] at hP
  rw [← hlog, ← hhdm] at hC
  unfold World.others at hR
  rw [← hhdm] at hR
  refine ⟨hR, ?_, hC, hP⟩
  change _ ∣ h'.hhdmOffset
  rw [hhdm]
  exact hS.hhdm_dvd

/-- No live block starts at a free frame. -/
theorem Sound.blockPtr_notMem (hS : Sound w free parts) {f : ℕ} (hf : f ∈ freeSet w.heap.phys) :
    blockPtr w.heap.hhdmOffset f ∉ w.live.map Prod.fst := by
  intro hin
  rcases List.mem_map.1 hin with ⟨e, he, heq⟩
  cases hbe : bucketFor e.2 with
  | none =>
      rcases hS.large_mem he hbe with ⟨f', o, -, hptr, hout⟩
      have hff : f' = f := by
        have hsame := hptr.symm.trans heq
        unfold blockPtr at hsame
        omega
      subst hff
      refine hS.rep.holds.notMem_freeSet (List.mem_append_right _ hout) ?_ hf
      rw [frames_mul]
      exact Dyadic.self_mem_block o f'
  | some b =>
      rcases hS.clients.small e he b hbe with ⟨f', j, hf', hj, hptr, -⟩
      exact objPtr_ne_blockPtr (hS.rep.bucket_lt b f' hf') hj (hptr.symm.trans heq)

theorem Sound.allocLarge_ends (hS : Sound w free parts) {layout : Layout}
    (hb : bucketFor layout = none) :
    ∃ p h', (allocLarge layout).run w.heap = .ok p h' ∧ h'.refills = w.heap.refills ∧
      Sound (w.gain p layout h') free parts ∧ Confined w free (w.gain p layout h') free := by
  have hR := hS.rep
  rcases allocLarge_spec hR layout with ⟨p, h', hrun, hhdm, hlog, hpost⟩
  refine ⟨p, h', hrun, hlog, ?_⟩
  rcases hpost with ⟨rfl, rfl, -⟩ | ⟨f, o, ho, rfl, htook, hR'⟩
  · exact ⟨hS.gain_null rfl rfl hR, rfl, rfl, rfl, fun _ _ hne => absurd rfl hne⟩
  · have hne : blockPtr w.heap.hhdmOffset f ≠ 0 := by
      have hpos := hR.holds.direct.offset_pos
      rw [← hR.hhdm_eq] at hpos
      unfold blockPtr
      omega
    have hfree := htook.subset (Dyadic.self_mem_block o f)
    have hC := hS.clients.addLarge hb ho (hS.blockPtr_notMem hfree)
    constructor
    · refine hS.gain hne hhdm ?_ ?_ ?_
      · rw [largeBlocks_cons_large _ hb ho, blockPtr_sub]
        exact hR'
      · rw [hlog]
        exact hC
      · rw [hlog]
        exact hS.peaks.raise hC
    · refine ⟨hhdm, htook.total, ?_, ?_⟩
      · -- the block was free, and is live now
        have hlive : (w.gain (blockPtr w.heap.hhdmOffset f) layout h').live =
            (blockPtr w.heap.hhdmOffset f, layout) :: w.live := if_neg hne
        unfold World.owned
        rw [hlive]
        change h'.stock ∪ outFrames (largeBlocks h'.hhdmOffset _) = _
        rw [hhdm, largeBlocks_cons_large _ hb ho, blockPtr_sub, outFrames_cons, frames_mul,
          ← Set.union_assoc]
        congr 1
        unfold stock
        rw [hlog, htook.free_eq]
        ext g
        constructor
        · rintro ((hg | hg) | hg)
          · exact Or.inl hg.1
          · exact Or.inr hg
          · exact Or.inl (htook.subset hg)
        · rintro (hg | hg)
          · by_cases hgb : g ∈ Dyadic.block o f
            · exact Or.inr hgb
            · exact Or.inl (Or.inl ⟨hg, hgb⟩)
          · exact Or.inl (Or.inr hg)
      · intro g i hne'
        left
        left
        by_contra hg
        exact hne' (congrFun (htook.mem_eq g hg) i)

theorem Sound.allocSmall_ends (hS : Sound w free parts) {layout : Layout} {b : ℕ}
    (hb : bucketFor layout = some b) :
    ∃ p h', (allocSmall b).run w.heap = .ok p h' ∧
      (∃ free' parts', Sound (w.gain p layout h') free' parts' ∧
        Confined w free (w.gain p layout h') free') ∧
      (h'.refills = w.heap.refills ∨ ∃ r, h'.refills = (b, r) :: w.heap.refills ∧
        ∀ g, (b, g) ∈ created w.heap.refills → free g = []) := by
  have hR := hS.rep
  have hlt := (bucketFor_spec hb).1
  have hslots := two_le_slots hlt
  rcases allocSmall_spec hR hlt with ⟨p, h', hrun, hhdm, hpost, hheaders⟩
  refine ⟨p, h', hrun, ?_⟩
  cases hpost with
  | pop f j js parts' hf hfree hp hlog hR' =>
      have hlist := hR.slab b f hf
      have hnd := hlist.nodup
      have hj := hlist.range j (by rw [hfree]; exact List.mem_cons_self)
      rw [hfree] at hnd
      have hC := hS.clients.pop hR.bucket_lt hR.created_nodup hb hf hj hfree hnd
      subst hp
      refine ⟨⟨Function.update free f js, parts', hS.gain (hR.ptr_ok hf hj.2).1 hhdm ?_ ?_ ?_,
        hheaders.confined hb hhdm _⟩, Or.inl hlog⟩
      · rw [largeBlocks_cons_small _ hb]
        exact hR'
      · rw [hlog]
        exact hC
      · rw [hlog]
        exact hS.peaks.raise hC
  | fresh f parts' hfull hfree hp hlog hR' =>
      have hcr : created h'.refills = (b, f) :: created w.heap.refills := by
        rw [hlog, created_some]
      have hnew : ∀ b', (b', f) ∉ created w.heap.refills := fun b' hin => hR.notFree hin hfree
      have hin : (b, f) ∈ created h'.refills := by
        rw [hcr]
        exact List.mem_cons_self
      -- the new slab, before its first object is taken
      have hC := hS.clients.addSlab hnew b
      have hrange : List.range' 1 (slots b - 1) = 1 :: List.range' 2 (slots b - 2) := by
        rw [show slots b - 1 = slots b - 2 + 1 by omega, List.range'_succ]
      have hnd : (List.range' 1 (slots b - 1)).Nodup := List.nodup_range'
      have hslab : (b, f) ∈ (b, f) :: created w.heap.refills := List.mem_cons_self
      have hbucket := hR'.bucket_lt
      have hframes := hR'.created_nodup
      rw [hcr] at hbucket hframes
      rw [hrange] at hnd
      have hC' := hC.pop hbucket hframes hb hslab (j := 1) ⟨le_refl 1, by omega⟩
        (by rw [Function.update_self, hrange]) hnd
      rw [Function.update_idem] at hC'
      subst hp
      have hptr := (hR'.ptr_ok hin (show 1 < slots b by omega)).1
      rw [hhdm] at hptr
      refine ⟨⟨Function.update free f (List.range' 2 (slots b - 2)), parts',
        hS.gain hptr hhdm ?_ ?_ ?_, hheaders.confined hb hhdm _⟩, Or.inr ⟨some f, hlog, hfull⟩⟩
      · rw [largeBlocks_cons_small _ hb]
        exact hR'
      · rw [hcr]
        exact hC'
      · rw [hcr]
        exact hS.peaks.addSlab hS.clients hfull hC' (liveIn_cons_of_eq _ hb)
  | fail parts' hfull hempty hp hlog hR' =>
      subst hp
      refine ⟨⟨free, parts', hS.gain_null hhdm ?_ hR', hheaders.confined hb hhdm _⟩,
        Or.inr ⟨none, hlog, hfull⟩⟩
      rw [hlog, created_none]

/-- `alloc` returns, and the block it returns is live from then on. If `refill` was called
then no slab of the bucket had a free object. -/
theorem Sound.alloc_ends (hS : Sound w free parts) (layout : Layout) :
    ∃ p h', (alloc layout).run w.heap = .ok p h' ∧
      (∃ free' parts', Sound (w.gain p layout h') free' parts' ∧
        Confined w free (w.gain p layout h') free') ∧
      (h'.refills = w.heap.refills ∨ ∃ b r, h'.refills = (b, r) :: w.heap.refills ∧
        ∀ g, (b, g) ∈ created w.heap.refills → free g = []) := by
  unfold alloc
  cases hb : bucketFor layout with
  | none =>
      rcases hS.allocLarge_ends hb with ⟨p, h', hrun, hlog, hS'⟩
      exact ⟨p, h', hrun, ⟨free, parts, hS'⟩, Or.inl hlog⟩
  | some b =>
      rcases hS.allocSmall_ends hb with ⟨p, h', hrun, hS', hlog⟩
      refine ⟨p, h', hrun, hS', ?_⟩
      rcases hlog with hsame | ⟨r, hgrow, hfull⟩
      · exact Or.inl hsame
      · exact Or.inr ⟨b, r, hgrow, hfull⟩

/-! ## Deallocation -/

theorem Sound.ptr_ne_zero (hS : Sound w free parts) {e : ℕ × Layout} (he : e ∈ w.live) :
    e.1 ≠ 0 := by
  cases hb : bucketFor e.2 with
  | none =>
      rcases hS.clients.large e he hb with ⟨f, o, -, hptr⟩
      have hpos := hS.rep.holds.direct.offset_pos
      rw [← hS.rep.hhdm_eq] at hpos
      rw [hptr]
      unfold blockPtr
      omega
  | some b =>
      rcases hS.clients.small e he b hb with ⟨f, j, hf, hj, hptr, -⟩
      rw [hptr]
      exact (hS.rep.ptr_ok hf hj.2).1

/-- A live block is gone. -/
theorem Sound.lose {free' parts' : ℕ → List ℕ} {e : ℕ × Layout} {h' : Heap}
    (hS : Sound w free parts) (hhdm : h'.hhdmOffset = w.heap.hhdmOffset)
    (hlog : h'.refills = w.heap.refills)
    (hR : Rep h' (largeBlocks w.heap.hhdmOffset (w.live.erase e) ++ w.foreign) free' parts')
    (hC : Clients w.heap.hhdmOffset (created w.heap.refills) (w.live.erase e) free') :
    Sound (w.lose e h') free' parts' := by
  have hP := hS.peaks.erase e
  rw [← hlog] at hP
  rw [← hhdm] at hR
  rw [← hhdm, ← hlog] at hC
  refine ⟨hR, ?_, hC, hP⟩
  change _ ∣ h'.hhdmOffset
  rw [hhdm]
  exact hS.hhdm_dvd

/-- `dealloc` of a live block returns. -/
theorem Sound.dealloc_ends (hS : Sound w free parts) {e : ℕ × Layout} (he : e ∈ w.live) :
    ∃ h', (dealloc e.1 e.2).run w.heap = .ok () h' ∧
      ∃ free' parts', Sound (w.lose e h') free' parts' ∧ Confined w free (w.lose e h') free' := by
  have hR := hS.rep
  have hperm : (largeBlocks w.heap.hhdmOffset w.live).Perm
      (largeBlocks w.heap.hhdmOffset ((e.1, e.2) :: w.live.erase e)) :=
    largeBlocks_perm (List.perm_cons_erase he)
  unfold dealloc
  rw [if_neg (hS.ptr_ne_zero he)]
  cases hb : bucketFor e.2 with
  | none =>
      rcases hS.clients.large e he hb with ⟨f, o, ho, hptr⟩
      rw [largeBlocks_cons_large _ hb ho, hptr, blockPtr_sub] at hperm
      rcases deallocLarge_spec ho (hR.perm (hperm.append_right w.foreign)) with
        ⟨h', hrun, hhdm, hlog, hgrew, hR'⟩
      rw [← hptr] at hrun
      refine ⟨h', hrun, free, parts, hS.lose hhdm hlog hR' (hS.clients.dropLarge he hb), hhdm,
        hgrew.total, ?_, ?_⟩
      · -- the block was live, and is free now
        unfold World.owned
        rw [outFrames_perm hperm, outFrames_cons, frames_mul, ← Set.union_assoc]
        change h'.stock ∪ outFrames (largeBlocks h'.hhdmOffset _) = _
        rw [hhdm]
        congr 1
        unfold stock
        rw [hlog, hgrew.free_eq]
        ext g
        constructor
        · rintro ((hg | hg) | hg)
          · exact Or.inl (Or.inl hg)
          · exact Or.inr hg
          · exact Or.inl (Or.inr hg)
        · rintro ((hg | hg) | hg)
          · exact Or.inl (Or.inl hg)
          · exact Or.inr hg
          · exact Or.inl (Or.inr hg)
      · intro g i hne
        right
        left
        by_contra hg
        exact hne (congrFun (hgrew.mem_eq g hg) i)
  | some b =>
      rcases hS.clients.small e he b hb with ⟨f, j, hf, hj, hptr, hnot⟩
      rw [largeBlocks_cons_small _ hb] at hperm
      -- the slab is found by masking the pointer
      have hmask : e.1 &&& notU64 (frameSize - 1) = blockPtr w.heap.hhdmOffset f := by
        rw [hptr]
        exact objPtr_and_mask (hR.bucket_lt b f hf) hj.2 hS.dvd_hhdm (hR.ptr_ok hf hj.2).2
      rcases deallocSmall_spec (hR.perm (hperm.append_right w.foreign)) hf hj hnot with
        ⟨h', parts', hrun, hlog, hhdm, hpmm, hmem, hR'⟩
      dsimp only
      rw [hmask, hptr]
      refine ⟨h', hrun, Function.update free f (j :: free f), parts', hS.lose hhdm hlog hR'
        (hS.clients.push hR.bucket_lt hR.created_nodup he hb hf hj hptr), hhdm, by
          change h'.phys.pmm.totalFrames = _
          rw [hpmm], World.owned_congr hhdm ?_ hperm.symm, ?_⟩
      · change h'.stock = _
        unfold stock freeSet
        rw [hpmm, hlog]
      · intro g i hne
        rcases hmem g i hne with ⟨rfl, hi⟩
        have hin : (b, g) ∈ created h'.refills := by
          rw [hlog]
          exact hf
        refine Or.inr (Or.inr ⟨b, hin, hi.imp_right ?_⟩)
        intro hi
        refine ⟨j, ?_, hi⟩
        rw [Function.update_self]
        exact List.mem_cons_self

/-! ## Where the live blocks are -/

/-- A frame of a slab is in no other outstanding block. -/
theorem Sound.others_apart (hS : Sound w free parts) {b f : ℕ}
    (hf : (b, f) ∈ created w.heap.refills) {c : ℕ × ℕ} (hc : c ∈ w.others) : f ∉ frames c := by
  have hcross := (List.pairwise_append.1 hS.rep.holds.disjoint).2.2
  exact Set.disjoint_left.1 (hcross _ (mem_slabBlocks hf) c hc) (mem_frames_self f)

theorem span_subset_obj {hhdm b f j : ℕ} {e : ℕ × Layout} (hb : bucketFor e.2 = some b)
    (hptr : e.1 = objPtr hhdm b f j) : World.span e ⊆ objSpan hhdm b f j := by
  have hsize := (bucketFor_spec hb).2.1
  unfold World.span objSpan
  rw [hptr]
  exact Set.Ico_subset_Ico_right (Nat.add_le_add_left hsize _)

/-- The bytes of a large live block are in the frames of its block. -/
theorem ptrFrame_mem_frames {hhdm f o a : ℕ} {e : ℕ × Layout} (ho : orderForLarge e.2 = some o)
    (hptr : e.1 = blockPtr hhdm f) (ha : a ∈ World.span e) :
    ptrFrame hhdm a ∈ frames (f * frameSize, o) := by
  have hsize := (orderForLarge_spec ho).2.1
  rcases ha with ⟨hlo, hhi⟩
  rw [hptr] at hlo hhi
  unfold blockPtr at hlo hhi
  unfold frameSize at hsize
  rw [frames_mul, Dyadic.mem_block]
  unfold ptrFrame
  omega

/-- A live block is an object of the slab in frame `f` that is not free, or it has no byte
in that frame. -/
theorem Sound.span_cases (hS : Sound w free parts) {e : ℕ × Layout} (he : e ∈ w.live) {b f : ℕ}
    (hf : (b, f) ∈ created w.heap.refills) :
    Disjoint (World.span e) (frameSpan w.heap.hhdmOffset f) ∨
      ∃ j, 1 ≤ j ∧ j ∉ free f ∧ e.1 = objPtr w.heap.hhdmOffset b f j ∧
        World.span e ⊆ objSpan w.heap.hhdmOffset b f j := by
  cases hbe : bucketFor e.2 with
  | none =>
      rcases hS.large_mem he hbe with ⟨f', o, ho, hptr, hout⟩
      left
      rw [Set.disjoint_left]
      intro a ha hin
      have hfr := ptrFrame_mem_frames ho hptr ha
      rw [ptrFrame_of_mem hin] at hfr
      exact hS.others_apart hf hout hfr
  | some b' =>
      rcases hS.clients.small e he b' hbe with ⟨f', j, hf', hj, hptr, hnot⟩
      have hsub := span_subset_obj hbe hptr
      by_cases hff : f' = f
      · right
        subst hff
        have hbb := hS.rep.bucket_unique hf' hf
        subst hbb
        exact ⟨j, hj.1, hnot, hptr, hsub⟩
      · left
        rw [Set.disjoint_left]
        intro a ha hin
        refine hff ?_
        rw [← ptrFrame_of_mem hin,
          ptrFrame_of_mem (objSpan_subset (hS.rep.bucket_lt b' f' hf') hj.2 (hsub ha))]

theorem Sound.header_disjoint (hS : Sound w free parts) {e : ℕ × Layout} (he : e ∈ w.live)
    {b f : ℕ} (hf : (b, f) ∈ created w.heap.refills) :
    Disjoint (World.span e) (headerSpan w.heap.hhdmOffset f) := by
  rcases hS.span_cases he hf with hdisj | ⟨j, hj, -, -, hsub⟩
  · exact hdisj.mono_right headerSpan_subset
  · exact (objSpan_header hj).mono_left hsub

theorem Sound.obj_disjoint (hS : Sound w free parts) {e : ℕ × Layout} (he : e ∈ w.live)
    {b f j : ℕ} (hf : (b, f) ∈ created w.heap.refills) (hj : j ∈ free f) :
    Disjoint (World.span e) (objSpan w.heap.hhdmOffset b f j) := by
  have hlt := ((hS.rep.slab b f hf).range j hj).2
  rcases hS.span_cases he hf with hdisj | ⟨j', -, hnot, -, hsub⟩
  · exact hdisj.mono_right (objSpan_subset (hS.rep.bucket_lt b f hf) hlt)
  · refine (objSpan_disjoint ?_).mono_left hsub
    rintro rfl
    exact hnot hj

theorem Sound.frame_disjoint (hS : Sound w free parts) {e : ℕ × Layout} (he : e ∈ w.live) {g : ℕ}
    (hg : g ∈ freeSet w.heap.phys) :
    Disjoint (World.span e) (frameSpan w.heap.hhdmOffset g) := by
  rw [Set.disjoint_left]
  intro a ha hin
  cases hbe : bucketFor e.2 with
  | none =>
      rcases hS.large_mem he hbe with ⟨f, o, ho, hptr, hout⟩
      have hfr := ptrFrame_mem_frames ho hptr ha
      rw [ptrFrame_of_mem hin] at hfr
      exact hS.rep.holds.notMem_freeSet (List.mem_append_right _ hout) hfr hg
  | some b =>
      rcases hS.clients.small e he b hbe with ⟨f, j, hf, hj, hptr, -⟩
      have hobj := objSpan_subset (hS.rep.bucket_lt b f hf) hj.2 (span_subset_obj hbe hptr ha)
      have hfg : f = g := by rw [← ptrFrame_of_mem hobj, ptrFrame_of_mem hin]
      exact hS.rep.notFree hf (hfg ▸ hg)

theorem Sound.live_disjoint (hS : Sound w free parts) :
    w.live.Pairwise fun e e' => Disjoint (World.span e) (World.span e') := by
  have hptrs := hS.clients.nodup
  rw [List.Nodup, List.pairwise_map] at hptrs
  refine hptrs.imp_of_mem ?_
  intro e e' he he' hne
  cases hbe : bucketFor e.2 with
  | some b =>
      rcases hS.clients.small e he b hbe with ⟨f, j, hf, hj, hptr, -⟩
      have hsub := span_subset_obj hbe hptr
      rcases hS.span_cases he' hf with hdisj | ⟨j', -, -, hptr', hsub'⟩
      · exact (hdisj.symm.mono_left
          (hsub.trans (objSpan_subset (hS.rep.bucket_lt b f hf) hj.2)))
      · refine ((objSpan_disjoint ?_).mono_left hsub).mono_right hsub'
        rintro rfl
        exact hne (hptr.trans hptr'.symm)
  | none =>
      rcases hS.large_mem he hbe with ⟨f, o, ho, hptr, hout⟩
      rw [Set.disjoint_left]
      intro a ha ha'
      have hfr := ptrFrame_mem_frames ho hptr ha
      cases hbe' : bucketFor e'.2 with
      | some b' =>
          rcases hS.clients.small e' he' b' hbe' with ⟨f', j', hf', hj', hptr', -⟩
          have hobj := objSpan_subset (hS.rep.bucket_lt b' f' hf') hj'.2
            (span_subset_obj hbe' hptr' ha')
          rw [ptrFrame_of_mem hobj] at hfr
          exact hS.others_apart hf' hout hfr
      | none =>
          rcases hS.large_mem he' hbe' with ⟨f', o', ho', hptr', hout'⟩
          have heq := hS.rep.holds.eq_of_mem (List.mem_append_right _ hout)
            (List.mem_append_right _ hout') hfr (ptrFrame_mem_frames ho' hptr' ha')
          refine hne ?_
          rcases Prod.mk.inj heq with ⟨hf, -⟩
          rw [hptr, hptr', Nat.eq_of_mul_eq_mul_right (by decide) hf]

theorem Sound.aligned (hS : Sound w free parts) {e : ℕ × Layout} (he : e ∈ w.live) :
    e.2.align ∣ e.1 := by
  cases hbe : bucketFor e.2 with
  | none =>
      rcases hS.large_mem he hbe with ⟨f, o, ho, hptr, hout⟩
      rcases orderForLarge_spec ho with ⟨hle, -, halign⟩
      rcases hS.rep.holds.blocks _ (List.mem_append_right _ hout) with ⟨-, f', hf', hal, -⟩
      have hff : f = f' := by
        dsimp only at hf'
        unfold frameSize at hf'
        omega
      have hpow : 2 ^ o * frameSize ∣ 2 ^ maxOrder * frameSize :=
        Nat.mul_dvd_mul_right (pow_dvd_pow 2 hle) _
      subst hff
      have hblock : 2 ^ o * frameSize ∣ f * frameSize := Nat.mul_dvd_mul_right hal _
      have hsum := Nat.dvd_add hblock (hpow.trans hS.hhdm_dvd)
      rw [hptr]
      exact halign.trans hsum
  | some b =>
      rcases hS.clients.small e he b hbe with ⟨f, j, hf, -, hptr, -⟩
      rw [hptr]
      exact (bucketFor_spec hbe).2.2.trans (objSize_dvd_objPtr (hS.rep.bucket_lt b f hf)
        hS.dvd_hhdm)

/-! ## Runs -/

/-- A word outside the live blocks and the blocks of others is not written. -/
theorem Sound.write_keeps {m : Mem} {f i : ℕ}
    (hm : ∀ f i, m f i ≠ w.heap.phys.mem f i → w.Owns f i)
    (hlive : i < 512 → ∀ e ∈ w.live,
      Disjoint (World.span e) (wordSpan w.heap.hhdmOffset f i))
    (hforeign : ∀ c ∈ w.foreign, f ∉ frames c) : m f i = w.heap.phys.mem f i := by
  by_contra hne
  rcases hm f i hne with ⟨hi, ⟨e, he, hmeet⟩ | ⟨c, hc, hfc⟩⟩
  · exact hmeet (hlive hi e he)
  · exact hforeign c hc hfc

theorem Sound.write (hS : Sound w free parts) {m : Mem}
    (hm : ∀ f i, m f i ≠ w.heap.phys.mem f i → w.Owns f i) :
    Sound (w.withPhys { w.heap.phys with mem := m }) free parts := by
  have hR := hS.rep
  have hslab : ∀ b f, (b, f) ∈ created w.heap.refills → ∀ c ∈ w.foreign, f ∉ frames c :=
    fun b f hf c hc => hS.others_apart hf (List.mem_append_right _ hc)
  refine ⟨hR.withPhys (hR.holds.write ?_) rfl ?_ ?_, hS.hhdm_dvd, hS.clients, hS.peaks⟩
  · intro f hf
    funext i
    refine Sound.write_keeps hm ?_ ?_
    · exact fun hi e he => (hS.frame_disjoint he hf).mono_right (wordSpan_subset hi)
    · intro c hc hfc
      exact hR.holds.notMem_freeSet (List.mem_append_right _ (List.mem_append_right _ hc)) hfc hf
  · intro b f hf
    have hkeep : ∀ i < 2, m f i = w.heap.phys.mem f i := by
      intro i hi
      refine Sound.write_keeps hm ?_ (hslab b f hf)
      exact fun _ e he => (hS.header_disjoint he hf).mono_right (wordSpan_subset_header hi)
    exact ⟨hkeep 0 (by omega), hkeep 1 (by omega)⟩
  · intro b f hf j hj
    refine Sound.write_keeps hm ?_ (hslab b f hf)
    exact fun _ e he => (hS.obj_disjoint he hf hj).mono_right wordSpan_subset_obj

/-- Another client allocates. -/
theorem Sound.othersAlloc (hS : Sound w free parts) {order : ℕ} {r : Option ℕ} {s' : Phys}
    (hrun : (allocPages order).run w.heap.phys = .ok r s') :
    Sound { w.withPhys s' with
      foreign := (r.map fun addr => (addr, order)).toList ++ w.foreign } free parts := by
  have hR := hS.rep
  rcases allocPages_ok hR.holds.inv hrun with ⟨ho, hpost⟩
  cases r with
  | none =>
      rcases hpost with ⟨rfl, -⟩
      exact hS
  | some addr =>
      rcases hpost with ⟨f, rfl, htook⟩
      exact ⟨(hR.took ho htook).perm List.perm_middle.symm, hS.hhdm_dvd, hS.clients, hS.peaks⟩

/-- Another client frees a block of its own. -/
theorem Sound.othersFree (hS : Sound w free parts) {c : ℕ × ℕ} {s' : Phys} (hc : c ∈ w.foreign)
    (hrun : (freePages c.1 c.2).run w.heap.phys = .ok () s') :
    Sound { w.withPhys s' with foreign := w.foreign.erase c } free parts := by
  have hperm : w.others.Perm
      (c :: (largeBlocks w.heap.hhdmOffset w.live ++ w.foreign.erase c)) :=
    ((List.perm_cons_erase hc).append_left _).trans List.perm_middle
  have hR := hS.rep.perm hperm
  have hin : c ∈ slabBlocks w.heap.refills ++
      c :: (largeBlocks w.heap.hhdmOffset w.live ++ w.foreign.erase c) :=
    List.mem_append_right _ List.mem_cons_self
  rcases hR.holds.freePages_ends hin with ⟨f, t, hf, hrun', hgrew⟩
  rw [hrun] at hrun'
  cases hrun'
  exact ⟨hR.gave hf hgrew, hS.hhdm_dvd, hS.clients, hS.peaks⟩

theorem World.Step.sound {w' : World} (h : w.Step w') (hS : Sound w free parts) :
    ∃ free' parts', Sound w' free' parts' := by
  cases h with
  | alloc layout hrun =>
      rcases hS.alloc_ends layout with ⟨p, h', hrun', ⟨free', parts', hS', -⟩, -⟩
      rw [hrun] at hrun'
      cases hrun'
      exact ⟨free', parts', hS'⟩
  | dealloc e he hrun =>
      rcases hS.dealloc_ends he with ⟨h', hrun', free', parts', hS', -⟩
      rw [hrun] at hrun'
      cases hrun'
      exact ⟨free', parts', hS'⟩
  | uacpiAlloc size hrun =>
      rcases hS.alloc_ends (uacpiLayout size) with ⟨p, h', hrun', ⟨free', parts', hS', -⟩, -⟩
      rw [show uacpiKernelAlloc size = Heap.alloc (uacpiLayout size) from rfl, hrun'] at hrun
      cases hrun
      exact ⟨free', parts', hS'⟩
  | uacpiFree ptr size he hrun =>
      rcases hS.dealloc_ends he with ⟨h', hrun', free', parts', hS', -⟩
      unfold uacpiKernelFree at hrun
      rw [if_neg (hS.ptr_ne_zero he), hrun'] at hrun
      cases hrun
      exact ⟨free', parts', hS'⟩
  | write hm => exact ⟨free, parts, hS.write hm⟩
  | othersAlloc order hrun => exact ⟨free, parts, hS.othersAlloc hrun⟩
  | othersFree c hc hrun => exact ⟨free, parts, hS.othersFree hc hrun⟩

theorem World.Reachable.sound (h : w.Reachable) : ∃ free parts, Sound w free parts := by
  rcases h with ⟨w₀, hstart, hsteps⟩
  have hstep : ∀ t t', World.Step t t' → (∃ free parts, Sound t free parts) →
      ∃ free parts, Sound t' free parts := by
    rintro t t' h ⟨free, parts, hS⟩
    exact h.sound hS
  exact reach_invariant hstep hsteps ⟨_, _, hstart.sound⟩

end

/-! ## Safety -/

/-- The heap is safe at every moment of a run: a live block is not null, aligned, and
shares no byte with another one, with a slab header, with an object on a free list or
with a free frame; `alloc` returns, and so does `dealloc` of a live block, whose calls of
`free_pages` therefore pass all checks. -/
theorem heap_runs_safe {w : World} (h : w.Reachable) :
    (∀ e ∈ w.live, e.1 ≠ 0 ∧ e.2.align ∣ e.1) ∧
    (w.live.Pairwise fun e e' => Disjoint (World.span e) (World.span e')) ∧
    (∀ e ∈ w.live, ∀ b f, (b, f) ∈ created w.heap.refills →
      Disjoint (World.span e) (headerSpan w.heap.hhdmOffset f) ∧
      ∃ objs, Chain (linkAt w.heap.hhdmOffset w.heap.phys.mem)
          (wordPtr (w.heap.phys.mem f 1)) objs ∧
        ∀ p ∈ objs, Disjoint (World.span e) (Set.Ico p (p + objSize b))) ∧
    (∀ e ∈ w.live, ∀ g ∈ freeSet w.heap.phys,
      Disjoint (World.span e) (frameSpan w.heap.hhdmOffset g)) ∧
    (∀ layout, ∃ p h', (alloc layout).run w.heap = .ok p h') ∧
    (∀ e ∈ w.live, ∃ h', (dealloc e.1 e.2).run w.heap = .ok () h') := by
  rcases h.sound with ⟨free, parts, hS⟩
  refine ⟨?_, hS.live_disjoint, ?_, ?_, ?_, ?_⟩
  · exact fun e he => ⟨hS.ptr_ne_zero he, hS.aligned he⟩
  · intro e he b f hf
    refine ⟨hS.header_disjoint he hf, _, (hS.rep.slab b f hf).chain, ?_⟩
    intro p hp
    rcases List.mem_map.1 hp with ⟨j, hj, rfl⟩
    exact hS.obj_disjoint he hf hj
  · exact fun e he g hg => hS.frame_disjoint he hg
  · intro layout
    rcases hS.alloc_ends layout with ⟨p, h', hrun, -⟩
    exact ⟨p, h', hrun⟩
  · intro e he
    rcases hS.dealloc_ends he with ⟨h', hrun, -⟩
    exact ⟨h', hrun⟩

/-- Three frames of memory behind a direct map at 8 MiB, none of them free yet. -/
def slabPhys : Phys := ⟨⟨List.replicate 12 none, [255, 255, 255], 3, 0, 2 ^ 23⟩, fun _ _ => 0⟩

/-- A heap that was not used yet. -/
def emptyHeap (s : Phys) : Heap :=
  ⟨s, 2 ^ 23, List.replicate 7 none, List.replicate 7 none, []⟩

/-- The request of an object of the largest bucket. -/
def kilobyte : Layout := ⟨1024, 8, 3, rfl⟩

/-- The frames 1 and 2 are seeded, and all objects of two slabs are allocated. An object of the
first slab is freed, which then goes back to the partial list. -/
theorem kilobytes_run : ∃ s, (addRange 1 2).run slabPhys = .ok () s ∧ s.pmm.hhdmOffset = 2 ^ 23 ∧
    ∃ h₁, (alloc kilobyte).run (emptyHeap s) = .ok 0x802400 h₁ ∧
    ∃ h₂, (alloc kilobyte).run h₁ = .ok 0x802800 h₂ ∧
    ∃ h₃, (alloc kilobyte).run h₂ = .ok 0x802c00 h₃ ∧
    ∃ h₄, (alloc kilobyte).run h₃ = .ok 0x801400 h₄ ∧
    ∃ h₅, (alloc kilobyte).run h₄ = .ok 0x801800 h₅ ∧
    ∃ h₆, (alloc kilobyte).run h₅ = .ok 0x801c00 h₆ ∧ h₆.partials[6]? = some none ∧
    ∃ h, (dealloc 0x802800 kilobyte).run h₆ = .ok () h ∧ h.hhdmOffset = 2 ^ 23 ∧
      h.refills = [(6, some 1), (6, some 2)] ∧ h.active[6]? = some (some 0x801000) ∧
      h.partials[6]? = some (some 0x802000) := by
  unfold addRange
  unfold addRange
  unfold addRange
  exact ⟨_, rfl, rfl, _, rfl, _, rfl, _, rfl, _, rfl, _, rfl, _, rfl, rfl, _, rfl, rfl, rfl, rfl,
    rfl⟩

/-- The objects that are live after that run. -/
def kilobytes : List (ℕ × Layout) :=
  [0x801c00, 0x801800, 0x801400, 0x802c00, 0x802400].map fun p => (p, kilobyte)

theorem kilobytes_reachable : ∃ w : World, w.Reachable ∧ w.live = kilobytes ∧ w.peak 6 = 6 ∧
    w.heap.hhdmOffset = 2 ^ 23 ∧ w.heap.refills = [(6, some 1), (6, some 2)] ∧
    w.heap.active[6]? = some (some 0x801000) ∧ w.heap.partials[6]? = some (some 0x802000) := by
  rcases kilobytes_run with ⟨s, hseed, hhdm, h₁, hrun₁, h₂, hrun₂, h₃, hrun₃, h₄, hrun₄, h₅, hrun₅,
    h₆, hrun₆, -, h, hrun, hheap⟩
  have hledger : Ledger.Reachable ⟨s, _, []⟩ :=
    ⟨⟨slabPhys, ∅, []⟩, ⟨⟨[0, 0, 0], 3, 2 ^ 23, fun _ _ => 0, by decide, rfl⟩,
      ⟨by decide, by decide⟩, rfl, rfl⟩,
      Relation.ReflTransGen.single
        (Ledger.Step.seed 1 2 (by decide) (Set.empty_disjoint _) hseed)⟩
  have hstart : World.Start ⟨emptyHeap s, [], [], fun _ => 0⟩ :=
    ⟨hhdm.symm, ⟨1, rfl⟩, rfl, rfl, rfl, rfl, rfl, hledger.accounts.toHolds⟩
  have hfull := (((((Relation.ReflTransGen.single
    (World.Step.alloc (w := ⟨emptyHeap s, [], [], fun _ => 0⟩) kilobyte hrun₁)).tail
    (World.Step.alloc kilobyte hrun₂)).tail (World.Step.alloc kilobyte hrun₃)).tail
    (World.Step.alloc kilobyte hrun₄)).tail (World.Step.alloc kilobyte hrun₅)).tail
    (World.Step.alloc kilobyte hrun₆)
  have hin : (0x802800, kilobyte) ∈ [0x801c00, 0x801800, 0x801400, 0x802c00, 0x802800,
      0x802400].map fun p => (p, kilobyte) := by
    decide
  have hreach : World.Reachable _ :=
    ⟨_, hstart, hfull.tail (World.Step.dealloc (0x802800, kilobyte) hin hrun)⟩
  exact ⟨_, hreach, rfl, rfl, hheap⟩

/-- The five objects of that run are aligned and disjoint, and none of them overlaps the header of
a slab. Each of them can be freed. -/
theorem heap_runs_safe_kilobytes : ∃ w : World, w.Reachable ∧ w.live = kilobytes ∧
    (∀ e ∈ kilobytes, kilobyte.align ∣ e.1) ∧
    Disjoint (World.span (0x802c00, kilobyte)) (World.span (0x802400, kilobyte)) ∧
    (∀ e ∈ kilobytes, ∀ f ∈ [1, 2], Disjoint (World.span e) (headerSpan (2 ^ 23) f)) ∧
    ∀ e ∈ kilobytes, ∃ h', (dealloc e.1 e.2).run w.heap = .ok () h' := by
  rcases kilobytes_reachable with ⟨w, hreach, hlive, -, hhdm, hrefills, -⟩
  rcases heap_runs_safe hreach with ⟨halign, hdisj, hslabs, -, -, hdealloc⟩
  rw [hlive] at halign hdisj hslabs hdealloc
  rw [hhdm, hrefills] at hslabs
  refine ⟨w, hreach, hlive, ?_, ?_, ?_, hdealloc⟩
  · intro e he
    rcases List.mem_map.1 he with ⟨p, -, rfl⟩
    exact (halign _ he).2
  · -- the last two of the list
    exact List.pairwise_iff_getElem.1 hdisj 3 4 (by decide) (by decide) (by decide)
  · intro e he f hf
    have hcreated : (6, f) ∈ created [(6, some 1), (6, some 2)] := by
      revert f
      decide
    exact (hslabs e he 6 f hcreated).1

/-! ## Slabs -/

/-- All objects of the slab in frame `f` are live. -/
def AllLive (w : World) (b f : ℕ) : Prop :=
  ∀ j, 1 ≤ j → j < slots b →
    ∃ e ∈ w.live, bucketFor e.2 = some b ∧ e.1 = objPtr w.heap.hhdmOffset b f j

section

variable {w : World} {free parts : ℕ → List ℕ} {b f : ℕ}

theorem Sound.allLive (hS : Sound w free parts) (hf : (b, f) ∈ created w.heap.refills)
    (hfree : free f = []) : AllLive w b f := by
  intro j hj₁ hj₂
  rcases hS.clients.used b f hf j hj₁ hj₂ with hin | hlive
  · rw [hfree] at hin
    exact absurd hin List.not_mem_nil
  · exact hlive

/-- The header tells whether the slab has a free object. -/
theorem Sound.head_eq_none_iff (hS : Sound w free parts) (hf : (b, f) ∈ created w.heap.refills) :
    wordPtr (w.heap.phys.mem f 1) = none ↔ free f = [] := by
  have hchain := (hS.rep.slab b f hf).chain
  constructor
  · intro hnone
    rw [hnone] at hchain
    exact List.map_eq_nil_iff.1 (Chain.eq_nil_of_none hchain)
  · intro hnil
    rw [hnil] at hchain
    exact hchain

end

/-- No object is stranded. A slab is active, or once on the partial list of its bucket and
not full, or full and detached, and never two of these; `alloc` returns, and `refill` is
called only when all objects of all slabs of the bucket are live; the number of slabs is
the peak of the live objects divided by the objects of a slab, rounded up. -/
theorem heap_slabs_placed {w : World} (h : w.Reachable) {b : ℕ} (hb : b < numBuckets) :
    (∃ head slabs, w.heap.partials[b]? = some head ∧
      Chain (linkAt w.heap.hhdmOffset w.heap.phys.mem) head slabs ∧ slabs.Nodup ∧
      (∀ p, p ∈ slabs ∨ w.heap.active[b]? = some (some p) →
        ∃ f, p = blockPtr w.heap.hhdmOffset f ∧ (b, f) ∈ created w.heap.refills) ∧
      ∀ f, (b, f) ∈ created w.heap.refills →
        (IsActive w.heap b f ∧ blockPtr w.heap.hhdmOffset f ∉ slabs) ∨
        (¬ IsActive w.heap b f ∧ blockPtr w.heap.hhdmOffset f ∈ slabs ∧
          wordPtr (w.heap.phys.mem f 1) ≠ none) ∨
        (¬ IsActive w.heap b f ∧ blockPtr w.heap.hhdmOffset f ∉ slabs ∧
          wordPtr (w.heap.phys.mem f 1) = none ∧ AllLive w b f)) ∧
    ((created w.heap.refills).map Prod.snd).Nodup ∧
    (∀ layout, bucketFor layout = some b → ∃ p h', (alloc layout).run w.heap = .ok p h' ∧
      (h'.refills = w.heap.refills ∨ ∃ r, h'.refills = (b, r) :: w.heap.refills ∧
        ∀ f, (b, f) ∈ created w.heap.refills → AllLive w b f)) ∧
    slabsIn b (created w.heap.refills) = (w.peak b + objsPerSlab b - 1) / objsPerSlab b := by
  rcases h.sound with ⟨free, parts, hS⟩
  have hR := hS.rep
  refine ⟨?_, hR.created_nodup, ?_, hS.peaks.slabsIn_eq hb⟩
  · rcases hR.chain b hb with ⟨head, hhead, hchain⟩
    have hmem : ∀ f, blockPtr w.heap.hhdmOffset f ∈ (parts b).map (blockPtr w.heap.hhdmOffset) ↔
        f ∈ parts b := fun f => List.mem_map_of_injective fun _ _ => blockPtr_inj
    refine ⟨head, _, hhead, hchain, Chain.nodup hchain, ?_, ?_⟩
    · rintro p (hp | hp)
      · rcases List.mem_map.1 hp with ⟨f, hf, rfl⟩
        exact ⟨f, rfl, (hR.part_mem b f hf).1⟩
      · exact hR.active_mem b p hp
    · intro f hf
      rw [hmem, Ne, hS.head_eq_none_iff hf]
      by_cases hpart : f ∈ parts b
      · rcases hR.part_mem b f hpart with ⟨-, hne, hact⟩
        exact Or.inr (Or.inl ⟨hact, hpart, hne⟩)
      · by_cases hact : IsActive w.heap b f
        · exact Or.inl ⟨hact, hpart⟩
        · -- neither active nor partial, so the slab is full
          rcases hR.placed b f hf with hact' | hpart' | hfull
          · exact absurd hact' hact
          · exact absurd hpart' hpart
          · exact Or.inr (Or.inr ⟨hact, hpart, hfull, hS.allLive hf hfull⟩)
  · intro layout hlay
    unfold alloc
    rw [hlay]
    rcases hS.allocSmall_ends hlay with ⟨p, h', hrun, -, hlog⟩
    refine ⟨p, h', hrun, ?_⟩
    rcases hlog with hsame | ⟨r, hgrow, hfull⟩
    · exact Or.inl hsame
    · exact Or.inr ⟨r, hgrow, fun f hf => hS.allLive hf (hfull f hf)⟩

/-- The active slab is full, and the slab that was full before is the one on the partial list:
the next request is served without a refill. Six objects needed two slabs. -/
theorem heap_slabs_placed_kilobytes : ∃ w : World, w.Reachable ∧ w.live = kilobytes ∧
    IsActive w.heap 6 1 ∧ (∃ slabs, Chain (linkAt (2 ^ 23) w.heap.phys.mem) (some 0x802000) slabs ∧
      blockPtr (2 ^ 23) 1 ∉ slabs ∧ blockPtr (2 ^ 23) 2 ∈ slabs) ∧
    (∃ p h', (alloc kilobyte).run w.heap = .ok p h' ∧ h'.refills = w.heap.refills) ∧
    w.peak 6 = 6 ∧ objsPerSlab 6 = 3 ∧ slabsIn 6 (created w.heap.refills) = 2 := by
  rcases kilobytes_reachable with ⟨w, hreach, hlive, hpeak, hhdm, hrefills, hactive, hparts⟩
  rcases heap_slabs_placed hreach (b := 6) (by decide) with
    ⟨⟨head, slabs, hhead, hchain, -, -, hplaced⟩, -, halloc, hcount⟩
  rw [hparts] at hhead
  cases hhead
  rw [hhdm] at hchain hplaced
  have hcreated : ∀ f ∈ [1, 2], (6, f) ∈ created w.heap.refills := by
    rw [hrefills]
    decide
  have hfirst : IsActive w.heap 6 1 := by
    unfold IsActive
    rw [hhdm, hactive]
    rfl
  have hsecond : ¬ IsActive w.heap 6 2 := by
    unfold IsActive
    rw [hhdm, hactive]
    decide
  -- the object that was freed
  have hfreed : ¬ AllLive w 6 2 := by
    intro hall
    rcases hall 2 (by decide) (by decide) with ⟨e, he, -, hptr⟩
    rw [hlive] at he
    rw [hhdm] at hptr
    revert e
    decide
  refine ⟨w, hreach, hlive, hfirst, ⟨slabs, hchain, ?_, ?_⟩, ?_, hpeak, rfl, ?_⟩
  · rcases hplaced 1 (hcreated 1 (by decide)) with ⟨-, hout⟩ | ⟨hnot, -⟩ | ⟨hnot, -⟩
    · exact hout
    · exact absurd hfirst hnot
    · exact absurd hfirst hnot
  · rcases hplaced 2 (hcreated 2 (by decide)) with ⟨hact, -⟩ | ⟨-, hin, -⟩ | ⟨-, -, -, hall⟩
    · exact absurd hact hsecond
    · exact hin
    · exact absurd hall hfreed
  · rcases halloc kilobyte rfl with ⟨p, h', hrun, hsame | ⟨r, -, hall⟩⟩
    · exact ⟨p, h', hrun, hsame⟩
    · exact absurd (hall 2 (hcreated 2 (by decide))) hfreed
  · rw [hcount, hpeak]
    rfl

end Prometheos.Heap
