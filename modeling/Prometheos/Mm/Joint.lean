import Prometheos.Mm.Model
import Prometheos.Mm.Frames

/-!
# The heap and the page tables over one memory

The heap takes its slabs and its large blocks from the physical memory manager, and the virtual
memory manager takes its tables from there, in any order. Each of them was looked at with the
other one as an unknown client; here they are put together. `Sound` is the joint invariant: to the
heap the tables are blocks of somebody else, and to the virtual memory manager the slabs and the
large blocks are.

* `World.HeapCall.kept`: a call of the heap keeps it, and leaves the tables alone;
* `World.VmCall.kept`: a call of the virtual memory manager keeps it, and leaves the heap alone;
* `World.Write.kept`: so do clients that write to their own blocks.
-/

namespace Prometheos.Mm

open Pmm

/-! ## The clients -/

/-- The kernel's memory management, the live blocks of the heap, and the largest number of live
objects of each bucket so far. -/
structure World where
  kernel : Kernel
  live : List (ℕ × Layout)
  peak : ℕ → ℕ

namespace World

/-- The blocks of the heap. -/
def heapBlocks (w : World) : List (ℕ × ℕ) :=
  Heap.slabBlocks w.kernel.refills ++ Heap.largeBlocks w.kernel.hhdmOffset w.live

/-- What the heap and its clients see, when `held` are the tables. -/
def heapWorld (w : World) (held : List ℕ) : Heap.World :=
  ⟨w.kernel.heap, w.live, Vmm.tableBlocks held, w.peak⟩

/-- After an allocation that returned `p`. -/
def gain (w : World) (p : ℕ) (layout : Layout) (k' : Kernel) : World :=
  let live' := if p = 0 then w.live else (p, layout) :: w.live
  ⟨k', live', Heap.raise w.peak live'⟩

/-- After a live block was freed. -/
def lose (w : World) (e : ℕ × Layout) (k' : Kernel) : World := ⟨k', w.live.erase e, w.peak⟩

/-- A call of the heap. Clients free each live block once and with its own layout. -/
inductive HeapCall (w : World) : World → Prop
  | alloc (layout : Layout) {p : ℕ} {k' : Kernel} :
      (onHeap (Heap.alloc layout)).run w.kernel = .ok p k' → HeapCall w (w.gain p layout k')
  | dealloc (e : ℕ × Layout) {k' : Kernel} : e ∈ w.live →
      (onHeap (Heap.dealloc e.1 e.2)).run w.kernel = .ok () k' → HeapCall w (w.lose e k')
  | uacpiAlloc (size : ℕ) {p : ℕ} {k' : Kernel} :
      (onHeap (Heap.uacpiKernelAlloc size)).run w.kernel = .ok p k' →
      HeapCall w (w.gain p (Heap.uacpiLayout size) k')
  | uacpiFree (ptr size : ℕ) {k' : Kernel} : (ptr, Heap.uacpiLayout size) ∈ w.live →
      (onHeap (Heap.uacpiKernelFree ptr size)).run w.kernel = .ok () k' →
      HeapCall w (w.lose (ptr, Heap.uacpiLayout size) k')

/-- A call of the virtual memory manager. -/
inductive VmCall [X86] (w : World) : World → Prop
  | map (virt phys : ℕ) (flags : PTFlags) (size : PageSize) {r : Except MapError Unit}
      {k' : Kernel} : (onVmm (Vmm.map virt phys flags size)).run w.kernel = .ok r k' →
      VmCall w { w with kernel := k' }
  | unmap (virt : ℕ) (size : PageSize) {r : Except UnmapError Unit} {k' : Kernel} :
      (onVmm (Vmm.unmap virt size)).run w.kernel = .ok r k' → VmCall w { w with kernel := k' }
  | mapRange (virt phys pages : ℕ) (flags : PTFlags) (size : PageSize)
      {r : Except MapError Unit} {k' : Kernel} :
      (onVmm (Vmm.mapRange virt phys pages flags size)).run w.kernel = .ok r k' →
      VmCall w { w with kernel := k' }
  | unmapRange (virt pages : ℕ) (size : PageSize) {r : Except UnmapError Unit} {k' : Kernel} :
      (onVmm (Vmm.unmapRange virt pages size)).run w.kernel = .ok r k' →
      VmCall w { w with kernel := k' }

/-- The frames of the memory management: those that are free, tables, slabs, or behind large live
blocks. -/
def managed (w : World) : Set ℕ := {f | f ∈ Vmm.pool w.kernel.vm ∨ f ∈ outFrames w.heapBlocks}

/-- The word `i` of frame `f` has a byte in the block. -/
def InBlock (w : World) (e : ℕ × Layout) (f i : ℕ) : Prop :=
  i < 512 ∧ ¬ Disjoint (Heap.World.span e) (Heap.wordSpan w.kernel.hhdmOffset f i)

/-- Somebody writes to words of live blocks, or to frames that are not managed. -/
inductive Write (w : World) : World → Prop
  | mk {m : Mem} : (∀ f i, m f i ≠ w.kernel.phys.mem f i →
      (∃ e ∈ w.live, w.InBlock e f i) ∨ f ∉ w.managed) →
      Write w { w with kernel := { w.kernel with phys := { w.kernel.phys with mem := m } } }

/-- One step of a run. -/
def Step [X86] (w w' : World) : Prop := w.HeapCall w' ∨ w.VmCall w' ∨ w.Write w'

/-- The memory management as `mm::init` leaves it: `init` are the frames of the tables. -/
structure Start (init : List ℕ) (w : World) : Prop where
  tree : Vmm.Tree init [] w.kernel.vm init
  trace_eq : w.kernel.trace = []
  hhdm_dvd : 2 ^ maxOrder * frameSize ∣ w.kernel.hhdmOffset
  active_eq : w.kernel.active = List.replicate Heap.numBuckets none
  partials_eq : w.kernel.partials = List.replicate Heap.numBuckets none
  refills_eq : w.kernel.refills = []
  live_eq : w.live = []
  peak_eq : w.peak = fun _ => 0

end World

/-! ## The joint invariant -/

/-- The heap is sound, and so are the tables, each with the other one as a client. -/
structure Sound (init : List ℕ) (w : World) (held : List ℕ) (free parts : ℕ → List ℕ) : Prop where
  heap : Heap.Sound (w.heapWorld held) free parts
  tree : Vmm.Tree init w.heapBlocks w.kernel.vm held

theorem Kernel.setHeap_heap {k : Kernel} {h : Heap} (hh : h.hhdmOffset = k.hhdmOffset) :
    (k.setHeap h).heap = h := by
  cases h
  cases hh
  rfl

theorem Kernel.setVm_vm {k : Kernel} {v : Vm} (hh : v.hhdmOffset = k.hhdmOffset)
    (ht : v.topLevel = k.topLevel) : (k.setVm v).vm = v := by
  cases v
  cases hh
  cases ht
  rfl

section

variable {init held : List ℕ} {free parts : ℕ → List ℕ} {w w' : World}

theorem World.Start.sound (h : w.Start init) : Sound init w init (fun _ => []) (fun _ => []) := by
  have hblocks : w.heapBlocks = [] := by
    unfold World.heapBlocks
    rw [h.refills_eq, h.live_eq]
    rfl
  have hstart : (w.heapWorld init).Start := by
    refine ⟨h.tree.hhdm_eq, h.hhdm_dvd, h.active_eq, h.partials_eq, h.refills_eq, h.live_eq,
      h.peak_eq, ?_⟩
    have hH := h.tree.holds
    rw [List.append_nil] at hH
    exact hH
  refine ⟨hstart.sound, ?_⟩
  rw [hblocks]
  exact h.tree

/-- The outstanding blocks, in the order of the heap and in that of the tables. -/
theorem blocks_perm (slabs large tables : List (ℕ × ℕ)) :
    (slabs ++ (large ++ tables)).Perm (tables ++ (slabs ++ large)) := by
  rw [← List.append_assoc]
  exact List.perm_append_comm

/-- The tables are as they were. -/
structure TablesKept (w w' : World) : Prop where
  tables : ∀ q, Vmm.tableAt w'.kernel.vm q = Vmm.tableAt w.kernel.vm q
  walks : ∀ q, Vmm.walk w'.kernel.vm q = Vmm.walk w.kernel.vm q
  mem : ∀ q f, Vmm.tableAt w.kernel.vm q = some f →
    w'.kernel.phys.mem f = w.kernel.phys.mem f

/-- A call of the heap. -/
theorem Sound.of_heap (hS : Sound init w held free parts) {free' parts' : ℕ → List ℕ}
    (hS' : Heap.Sound (w'.heapWorld held) free' parts')
    (hC : Heap.Confined (w.heapWorld held) free (w'.heapWorld held) free')
    (hvm : w'.kernel.vm = { w.kernel.vm with phys := w'.kernel.phys }) :
    Sound init w' held free' parts' ∧ TablesKept w w' := by
  have hmem : ∀ f ∈ held, w'.kernel.phys.mem f = w.kernel.phys.mem f := by
    intro f hf
    have hblock : (f * frameSize, 0) ∈ Vmm.tableBlocks held := List.mem_map_of_mem hf
    exact hC.foreign_frame hS.heap hS' hblock hblock (mem_frames_self f)
  have hhdm : w'.kernel.phys.pmm.hhdmOffset = w.kernel.phys.pmm.hhdmOffset := by
    have h := hS'.rep.hhdm_eq
    have h₀ := hS.heap.rep.hhdm_eq
    rw [hC.hhdm] at h
    exact h.symm.trans h₀
  obtain ⟨hT, htab, hwalk⟩ := hS.tree.of_kept (hS'.rep.holds.perm (blocks_perm _ _ _)) hhdm
    hC.total hmem
  refine ⟨⟨hS', ?_⟩, ?_, ?_, fun q f hq => hmem f (hS.tree.mem_of_tableAt hq)⟩
  · rw [hvm]
    exact hT
  · rw [hvm]
    exact htab
  · rw [hvm]
    exact hwalk

/-- The frames of the heap are no tables, and not free. -/
theorem Sound.notMem_pool (hS : Sound init w held free parts) {f : ℕ}
    (hf : f ∈ outFrames w.heapBlocks) : f ∉ Vmm.pool w.kernel.vm := by
  have hH := hS.tree.holds.perm List.perm_append_comm
  rintro (hfree | ⟨p, hp⟩)
  · exact hH.notMem_freeSet_of_mine hf hfree
  · refine hH.notMem_others hf ⟨(f * frameSize, 0), ?_, mem_frames_self f⟩
    exact List.mem_map_of_mem (hS.tree.mem_of_tableAt hp)

/-- A call of the virtual memory manager. -/
theorem Sound.of_vm (hS : Sound init w held free parts) {held' : List ℕ} {v : Vm}
    (hT : Vmm.Tree init w.heapBlocks v held') (hC : Vmm.Confined w.kernel.vm v) :
    Sound init { w with kernel := w.kernel.setVm v } held' free parts := by
  have hvm : (w.kernel.setVm v).vm = v := Kernel.setVm_vm hC.hhdm hC.top
  have hR := hS.heap.rep
  have hslab : ∀ b f, (b, f) ∈ Heap.created w.kernel.refills →
      v.phys.mem f = w.kernel.phys.mem f := by
    intro b f hf
    refine hC.outside f (hS.notMem_pool ⟨(f * frameSize, 0), ?_, mem_frames_self f⟩)
    exact List.mem_append_left _ (Heap.mem_slabBlocks hf)
  have hhdm : v.phys.pmm.hhdmOffset = w.kernel.phys.pmm.hhdmOffset := by
    rw [← hT.hhdm_eq, hC.hhdm]
    exact hS.tree.hhdm_eq
  refine ⟨⟨?_, hS.heap.hhdm_dvd, hS.heap.clients, hS.heap.peaks⟩, ?_⟩
  · refine hR.withPhys (hT.holds.perm (blocks_perm _ _ _).symm) hhdm ?_ ?_
    · intro b f hf
      exact ⟨congrFun (hslab b f hf) 0, congrFun (hslab b f hf) 1⟩
    · intro b f hf j _
      exact congrFun (hslab b f hf) _
  · change Vmm.Tree init w.heapBlocks (w.kernel.setVm v).vm held'
    rw [hvm]
    exact hT

/-! ## Steps -/

theorem World.gain_heapWorld (w : World) (held : List ℕ) {h' : Heap}
    (hh : h'.hhdmOffset = w.kernel.hhdmOffset) (p : ℕ) (layout : Layout) :
    (w.gain p layout (w.kernel.setHeap h')).heapWorld held =
      (w.heapWorld held).gain p layout h' := by
  unfold World.heapWorld World.gain Heap.World.gain
  rw [Kernel.setHeap_heap hh]

theorem World.lose_heapWorld (w : World) (held : List ℕ) {h' : Heap}
    (hh : h'.hhdmOffset = w.kernel.hhdmOffset) (e : ℕ × Layout) :
    (w.lose e (w.kernel.setHeap h')).heapWorld held = (w.heapWorld held).lose e h' := by
  unfold World.heapWorld World.lose Heap.World.lose
  rw [Kernel.setHeap_heap hh]

/-- What a call of the heap does. -/
structure HeapKept (init : List ℕ) (w : World) (held : List ℕ) (free : ℕ → List ℕ) (w' : World)
    (free' parts' : ℕ → List ℕ) : Prop where
  sound : Sound init w' held free' parts'
  confined : Heap.Confined (w.heapWorld held) free (w'.heapWorld held) free'
  tables : TablesKept w w'

theorem Sound.alloc_kept (hS : Sound init w held free parts) {layout : Layout} {p : ℕ}
    {k' : Kernel} (hrun : (onHeap (Heap.alloc layout)).run w.kernel = .ok p k') :
    ∃ free' parts', HeapKept init w held free (w.gain p layout k') free' parts' := by
  obtain ⟨h', halone, rfl⟩ := Prog.zoom_ok_iff.1 hrun
  obtain ⟨p', h₁, hrun₁, ⟨free', parts', hS', hC⟩, -⟩ := hS.heap.alloc_ends layout
  cases halone.symm.trans hrun₁
  have hhdm : h'.hhdmOffset = w.kernel.hhdmOffset := hC.hhdm
  rw [← w.gain_heapWorld held hhdm p layout] at hS' hC
  obtain ⟨hsound, htab⟩ := hS.of_heap hS' hC rfl
  exact ⟨free', parts', hsound, hC, htab⟩

theorem Sound.dealloc_kept (hS : Sound init w held free parts) {e : ℕ × Layout} (he : e ∈ w.live)
    {k' : Kernel} (hrun : (onHeap (Heap.dealloc e.1 e.2)).run w.kernel = .ok () k') :
    ∃ free' parts', HeapKept init w held free (w.lose e k') free' parts' := by
  obtain ⟨h', halone, rfl⟩ := Prog.zoom_ok_iff.1 hrun
  obtain ⟨h₁, hrun₁, free', parts', hS', hC⟩ := hS.heap.dealloc_ends he
  cases halone.symm.trans hrun₁
  have hhdm : h'.hhdmOffset = w.kernel.hhdmOffset := hC.hhdm
  rw [← w.lose_heapWorld held hhdm e] at hS' hC
  obtain ⟨hsound, htab⟩ := hS.of_heap hS' hC rfl
  exact ⟨free', parts', hsound, hC, htab⟩

theorem World.HeapCall.kept (h : w.HeapCall w') (hS : Sound init w held free parts) :
    ∃ free' parts', HeapKept init w held free w' free' parts' := by
  cases h with
  | alloc layout hrun => exact hS.alloc_kept hrun
  | dealloc e he hrun => exact hS.dealloc_kept he hrun
  | uacpiAlloc size hrun => exact hS.alloc_kept hrun
  | uacpiFree ptr size he hrun =>
      have hne : ptr ≠ 0 := hS.heap.ptr_ne_zero he
      unfold Heap.uacpiKernelFree at hrun
      rw [if_neg hne] at hrun
      exact hS.dealloc_kept he hrun

/-- What a call of the virtual memory manager does. -/
structure VmKept (init : List ℕ) (w : World) (free parts : ℕ → List ℕ) (w' : World)
    (held' : List ℕ) : Prop where
  sound : Sound init w' held' free parts
  confined : Vmm.Confined w.kernel.vm w'.kernel.vm
  live_eq : w'.live = w.live
  blocks_eq : w'.heapBlocks = w.heapBlocks

section

variable [X86]

/-- Calls of the virtual memory manager, as it sees them. -/
theorem World.VmCall.call (h : w.VmCall w') : ∃ v, w' = { w with kernel := w.kernel.setVm v } ∧
    Vmm.World.Call ⟨w.kernel.vm, w.heapBlocks⟩ ⟨v, w.heapBlocks⟩ := by
  cases h with
  | map virt phys flags size hrun =>
      obtain ⟨v, halone, rfl⟩ := Prog.zoom_ok_iff.1 hrun
      exact ⟨v, rfl, .map virt phys flags size halone⟩
  | unmap virt size hrun =>
      obtain ⟨v, halone, rfl⟩ := Prog.zoom_ok_iff.1 hrun
      exact ⟨v, rfl, .unmap virt size halone⟩
  | mapRange virt phys pages flags size hrun =>
      obtain ⟨v, halone, rfl⟩ := Prog.zoom_ok_iff.1 hrun
      exact ⟨v, rfl, .mapRange virt phys pages flags size halone⟩
  | unmapRange virt pages size hrun =>
      obtain ⟨v, halone, rfl⟩ := Prog.zoom_ok_iff.1 hrun
      exact ⟨v, rfl, .unmapRange virt pages size halone⟩

theorem World.VmCall.kept (h : w.VmCall w') (hS : Sound init w held free parts) :
    ∃ held', VmKept init w free parts w' held' := by
  obtain ⟨v, rfl, hcall⟩ := h.call
  obtain ⟨⟨held', hT⟩, hC⟩ := hcall.confined hS.tree
  have hvm : (w.kernel.setVm v).vm = v := Kernel.setVm_vm hC.hhdm hC.top
  refine ⟨held', hS.of_vm hT hC, ?_, rfl, rfl⟩
  change Vmm.Confined w.kernel.vm (w.kernel.setVm v).vm
  rw [hvm]
  exact hC

end

/-- Writes to live blocks and to frames that are not managed. -/
theorem World.Write.kept (h : w.Write w') (hS : Sound init w held free parts) :
    Sound init w' held free parts ∧ TablesKept w w' := by
  cases h with
  | mk hm =>
      rename_i m
      have hR := hS.heap.rep
      -- the words of the heap
      have hheap : ∀ f i, Heap.HeapWord w.kernel.heap free f i →
          m f i = w.kernel.phys.mem f i := by
        intro f i hword
        by_contra hne
        rcases hm f i hne with ⟨e, he, hi, hmeet⟩ | hout
        · exact hS.heap.live_not_heapWord he hi hmeet hword
        · refine hout ?_
          rcases hword with hfree | ⟨b, hslab, -⟩
          · exact Or.inl (Or.inl hfree)
          · exact Or.inr ⟨_, List.mem_append_left _ (Heap.mem_slabBlocks hslab), mem_frames_self f⟩
      -- the tables
      have htable : ∀ f ∈ held, m f = w.kernel.phys.mem f := by
        intro f hf
        funext i
        by_contra hne
        rcases hm f i hne with ⟨e, he, hi, hmeet⟩ | hout
        · exact hmeet (hS.heap.live_not_foreign he (List.mem_map_of_mem hf) (mem_frames_self f) hi)
        · exact hout (Or.inl (Or.inr ((hS.tree.mem_iff f).1 hf)))
      have hfree : ∀ f ∈ freeSet w.kernel.phys, m f = w.kernel.phys.mem f := by
        intro f hf
        funext i
        exact hheap f i (Or.inl hf)
      have hH := hR.holds.write hfree
      obtain ⟨hT, htab, hwalk⟩ := hS.tree.of_kept (hH.perm (blocks_perm _ _ _)) rfl rfl htable
      refine ⟨⟨⟨hR.withPhys hH rfl ?_ ?_, hS.heap.hhdm_dvd, hS.heap.clients, hS.heap.peaks⟩, hT⟩,
        htab, hwalk, fun q f hq => htable f (hS.tree.mem_of_tableAt hq)⟩
      · intro b f hf
        exact ⟨hheap f 0 (Or.inr ⟨b, hf, Or.inl (by omega)⟩),
          hheap f 1 (Or.inr ⟨b, hf, Or.inl (by omega)⟩)⟩
      · intro b f hf j hj
        exact hheap f _ (Or.inr ⟨b, hf, Or.inr ⟨j, hj, rfl⟩⟩)

end

end Prometheos.Mm
