import Prometheos.Mm.Joint
import Prometheos.Vmm.Footprint

/-!
# Runs of the heap and the page tables

The joint invariant holds in every run (`World.Start.reach`), and no step loses a frame
(`World.Step.managed_eq`).

* `memory_partitioned`: every frame that was free or a table at the start has exactly one use: it
  is free, the table at one path, a slab of one bucket, or behind one large live block;
* `contents_kept`: while a block is live, nobody but its clients changes its bytes.
-/

namespace Prometheos.Mm

open Pmm

/-! ## What a frame is used for -/

/-- The uses of a frame. -/
inductive Use where
  | free
  | table (path : List (Fin 512))
  | slab (bucket : ℕ)
  | large (block : ℕ × Layout)

/-- Frame `f` is used like this. -/
def World.Uses (w : World) (f : ℕ) : Use → Prop
  | .free => f ∈ freeSet w.kernel.phys
  | .table path => Vmm.tableAt w.kernel.vm path = some f
  | .slab bucket => (bucket, f) ∈ Heap.created w.kernel.refills
  | .large block => block ∈ w.live ∧ Heap.bucketFor block.2 = none ∧
      ∃ order, Heap.orderForLarge block.2 = some order ∧
        f ∈ frames (block.1 - w.kernel.hhdmOffset, order)

/-- The frames that are tables. -/
def World.tables (w : World) : Set ℕ := {f | ∃ path, Vmm.tableAt w.kernel.vm path = some f}

section

variable {init held : List ℕ} {free parts : ℕ → List ℕ} {w w' : World} {f : ℕ}

/-- The blocks behind large live blocks. -/
theorem mem_largeBlocks {hhdm order : ℕ} {live : List (ℕ × Layout)} {e : ℕ × Layout}
    (he : e ∈ live) (hb : Heap.bucketFor e.2 = none) (ho : Heap.orderForLarge e.2 = some order) :
    (e.1 - hhdm, order) ∈ Heap.largeBlocks hhdm live := by
  unfold Heap.largeBlocks
  rw [List.mem_filterMap]
  refine ⟨e, he, ?_⟩
  rw [if_pos hb, ho]
  simp

theorem exists_of_mem_largeBlocks {hhdm : ℕ} {live : List (ℕ × Layout)} {b : ℕ × ℕ}
    (hb : b ∈ Heap.largeBlocks hhdm live) : ∃ e ∈ live, Heap.bucketFor e.2 = none ∧
      ∃ order, Heap.orderForLarge e.2 = some order ∧ b = (e.1 - hhdm, order) := by
  unfold Heap.largeBlocks at hb
  obtain ⟨e, he, hsome⟩ := List.mem_filterMap.1 hb
  split at hsome
  · rename_i hlarge
    obtain ⟨order, ho, hpair⟩ := Option.map_eq_some_iff.1 hsome
    exact ⟨e, he, hlarge, order, ho, hpair.symm⟩
  · cases hsome

/-- A frame with a use is managed, and the other way round. -/
theorem World.mem_managed_iff : f ∈ w.managed ↔ ∃ u, w.Uses f u := by
  constructor
  · rintro ((hfree | ⟨path, hpath⟩) | ⟨b, hb, hf⟩)
    · exact ⟨.free, hfree⟩
    · exact ⟨.table path, hpath⟩
    · rcases List.mem_append.1 hb with hslab | hlarge
      · obtain ⟨⟨bucket, g⟩, hg, rfl⟩ := List.mem_map.1 hslab
        rw [frames_mul, Dyadic.block_zero] at hf
        exact ⟨.slab bucket, Set.mem_singleton_iff.1 hf ▸ hg⟩
      · obtain ⟨e, he, hbucket, order, ho, rfl⟩ := exists_of_mem_largeBlocks hlarge
        exact ⟨.large e, he, hbucket, order, ho, hf⟩
  · rintro ⟨u, hu⟩
    cases u with
    | free => exact Or.inl (Or.inl hu)
    | table path => exact Or.inl (Or.inr ⟨path, hu⟩)
    | slab bucket =>
        exact Or.inr ⟨_, List.mem_append_left _ (Heap.mem_slabBlocks hu), mem_frames_self f⟩
    | large e =>
        obtain ⟨he, hbucket, order, ho, hf⟩ := hu
        exact Or.inr ⟨_, List.mem_append_right _ (mem_largeBlocks he hbucket ho), hf⟩

/-- The frames of slabs and large blocks. -/
theorem World.Uses.mem_heapBlocks {u : Use} (hu : w.Uses f u) (hfree : u ≠ .free)
    (htable : ∀ path, u ≠ .table path) : f ∈ outFrames w.heapBlocks := by
  cases u with
  | free => exact absurd rfl hfree
  | table path => exact absurd rfl (htable path)
  | slab bucket => exact ⟨_, List.mem_append_left _ (Heap.mem_slabBlocks hu), mem_frames_self f⟩
  | large e =>
      obtain ⟨he, hbucket, order, ho, hf⟩ := hu
      exact ⟨_, List.mem_append_right _ (mem_largeBlocks he hbucket ho), hf⟩

/-- A slab is not part of a large block. -/
theorem Sound.slab_not_large (hS : Sound init w held free parts) {bucket : ℕ} {e : ℕ × Layout}
    (hslab : w.Uses f (.slab bucket)) (hlarge : w.Uses f (.large e)) : False := by
  obtain ⟨he, hbucket, order, ho, hf⟩ := hlarge
  exact hS.heap.others_apart hslab (List.mem_append_left _ (mem_largeBlocks he hbucket ho)) hf

/-- Large live blocks have no frame in common. -/
theorem Sound.large_unique (hS : Sound init w held free parts) {e e' : ℕ × Layout}
    (he : w.Uses f (.large e)) (he' : w.Uses f (.large e')) : e = e' := by
  obtain ⟨hlive, hbucket, order, ho, hf⟩ := he
  obtain ⟨hlive', hbucket', order', ho', hf'⟩ := he'
  have hblock : (e.1 - w.kernel.hhdmOffset, order) = (e'.1 - w.kernel.hhdmOffset, order') := by
    refine hS.tree.holds.eq_of_mem (List.mem_append_right _ (List.mem_append_right _ ?_))
      (List.mem_append_right _ (List.mem_append_right _ ?_)) hf hf'
    · exact mem_largeBlocks hlive hbucket ho
    · exact mem_largeBlocks hlive' hbucket' ho'
  -- both pointers are into the direct map
  have hle : ∀ e ∈ w.live, Heap.bucketFor e.2 = none → w.kernel.hhdmOffset ≤ e.1 := by
    intro e he hb
    obtain ⟨g, o, -, hptr⟩ := hS.heap.clients.large e he hb
    rw [hptr]
    exact le_blockPtr w.kernel.hhdmOffset g
  have hptr : e.1 = e'.1 := by
    have hsub := congrArg Prod.fst hblock
    have h₁ := hle e hlive hbucket
    have h₂ := hle e' hlive' hbucket'
    simp only at hsub
    omega
  exact List.inj_on_of_nodup_map hS.heap.clients.nodup hlive hlive' hptr

/-- A frame has one use. -/
theorem Sound.uses_unique (hS : Sound init w held free parts) {u u' : Use} (hu : w.Uses f u)
    (hu' : w.Uses f u') : u = u' := by
  -- a frame that is free, or a table, is not the heap's
  have hpool : f ∈ Vmm.pool w.kernel.vm → f ∉ outFrames w.heapBlocks :=
    fun hin hout => hS.notMem_pool hout hin
  cases u with
  | free =>
      have hnot := hpool (Or.inl hu)
      cases u' with
      | free => rfl
      | table path => exact absurd hu (hS.tree.notFree hu')
      | slab bucket => exact absurd (hu'.mem_heapBlocks nofun nofun) hnot
      | large e => exact absurd (hu'.mem_heapBlocks nofun nofun) hnot
  | table path =>
      have hnot := hpool (Or.inr ⟨path, hu⟩)
      cases u' with
      | free => exact absurd hu' (hS.tree.notFree hu)
      | table path' => rw [hS.tree.unshared path path' f hu hu']
      | slab bucket => exact absurd (hu'.mem_heapBlocks nofun nofun) hnot
      | large e => exact absurd (hu'.mem_heapBlocks nofun nofun) hnot
  | slab bucket =>
      have hin : f ∈ outFrames w.heapBlocks := hu.mem_heapBlocks nofun nofun
      cases u' with
      | free => exact absurd hin (hpool (Or.inl hu'))
      | table path => exact absurd hin (hpool (Or.inr ⟨path, hu'⟩))
      | slab bucket' => rw [hS.heap.rep.bucket_unique hu hu']
      | large e => exact (hS.slab_not_large hu hu').elim
  | large e =>
      have hin : f ∈ outFrames w.heapBlocks := hu.mem_heapBlocks nofun nofun
      cases u' with
      | free => exact absurd hin (hpool (Or.inl hu'))
      | table path => exact absurd hin (hpool (Or.inr ⟨path, hu'⟩))
      | slab bucket => exact (hS.slab_not_large hu' hu).elim
      | large e' => rw [hS.large_unique hu hu']

/-- The frames that are managed, counted by their use. -/
theorem Sound.ncard_managed (hS : Sound init w held free parts) :
    w.managed.Finite ∧ w.managed.ncard = w.kernel.phys.pmm.freeFrames + w.tables.ncard +
      (Heap.created w.kernel.refills).length +
      ((Heap.largeBlocks w.kernel.hhdmOffset w.live).map fun b => 2 ^ b.2).sum := by
  have hH : Holds w.kernel.phys (Vmm.tableBlocks held ++ w.heapBlocks) := hS.tree.holds
  obtain ⟨L, hR, -⟩ := hH.inv.rep
  obtain ⟨hfin, hcard⟩ := ncard_outFrames hH.disjoint
  have hall : w.managed = freeSet w.kernel.phys ∪ outFrames (Vmm.tableBlocks held ++ w.heapBlocks)
      := by
    ext f
    constructor
    · rintro ((hfree | ⟨path, hpath⟩) | ⟨b, hb, hf⟩)
      · exact Or.inl hfree
      · exact Or.inr ⟨_, Vmm.mem_tableBlocks (hS.tree.mem_of_tableAt hpath), mem_frames_self f⟩
      · exact Or.inr ⟨b, List.mem_append_right _ hb, hf⟩
    · rintro (hfree | ⟨b, hb, hf⟩)
      · exact Or.inl (Or.inl hfree)
      · rcases List.mem_append.1 hb with htable | hheap
        · obtain ⟨g, hg, rfl⟩ := List.mem_map.1 htable
          rw [frames_mul, Dyadic.block_zero] at hf
          have hgf : f = g := Set.mem_singleton_iff.1 hf
          exact Or.inl (Or.inr ((hS.tree.mem_iff f).1 (hgf ▸ hg)))
        · exact Or.inr ⟨b, hheap, hf⟩
  have hdisj : Disjoint (freeSet w.kernel.phys)
      (outFrames (Vmm.tableBlocks held ++ w.heapBlocks)) := by
    rw [Set.disjoint_right]
    rintro g ⟨b, hb, hg⟩
    exact hH.notMem_freeSet hb hg
  have htables : w.tables.ncard = held.length := hS.tree.ncard_tables
  -- tables and slabs have one frame each
  have hone : ∀ {α : Type} (l : List α) (g : α → ℕ),
      ((l.map fun x => (g x * frameSize, 0)).map fun b : ℕ × ℕ => 2 ^ b.2).sum = l.length := by
    intro α l g
    rw [List.map_map]
    simp [Function.comp_def]
  constructor
  · rw [hall]
    exact hR.freeSet_finite.union hfin
  · rw [hall, Set.ncard_union_eq hdisj hR.freeSet_finite hfin, hcard, ← hH.inv.count,
      htables]
    unfold World.heapBlocks Vmm.tableBlocks Heap.slabBlocks
    rw [List.map_append, List.map_append, List.sum_append, List.sum_append,
      hone held fun f => f, hone _ Prod.snd]
    omega

/-! ## No step loses a frame -/

theorem World.managed_eq (w : World) (held : List ℕ) :
    w.managed = (w.heapWorld held).owned ∪ w.tables := by
  ext f
  rw [World.mem_managed_iff]
  constructor
  · rintro ⟨u, hu⟩
    cases u with
    | free => exact Or.inl (Or.inl (Or.inl hu))
    | table path => exact Or.inr ⟨path, hu⟩
    | slab bucket => exact Or.inl (Or.inl (Or.inr ⟨bucket, hu⟩))
    | large e =>
        obtain ⟨he, hbucket, order, ho, hf⟩ := hu
        exact Or.inl (Or.inr ⟨_, mem_largeBlocks he hbucket ho, hf⟩)
  · rintro (((hfree | ⟨bucket, hslab⟩) | ⟨b, hb, hf⟩) | ⟨path, hpath⟩)
    · exact ⟨.free, hfree⟩
    · exact ⟨.slab bucket, hslab⟩
    · obtain ⟨e, he, hbucket, order, ho, rfl⟩ := exists_of_mem_largeBlocks hb
      exact ⟨.large e, he, hbucket, order, ho, hf⟩
    · exact ⟨.table path, hpath⟩

theorem TablesKept.tables_eq (h : TablesKept w w') : w'.tables = w.tables := by
  unfold World.tables
  simp only [h.tables]

/-- What every step keeps: the joint invariant, and the frames that are managed. -/
theorem World.Step.kept [X86] (h : w.Step w') (hS : Sound init w held free parts) :
    (∃ held' free' parts', Sound init w' held' free' parts') ∧ w'.managed = w.managed := by
  rcases h with hheap | hvm | hwrite
  · obtain ⟨free', parts', hK⟩ := hheap.kept hS
    refine ⟨⟨held, free', parts', hK.sound⟩, ?_⟩
    rw [w'.managed_eq held, w.managed_eq held, hK.confined.owned_eq, hK.tables.tables_eq]
  · obtain ⟨held', hK⟩ := hvm.kept hS
    refine ⟨⟨held', free, parts, hK.sound⟩, ?_⟩
    unfold World.managed
    rw [hK.confined.pool_eq, hK.blocks_eq]
  · obtain ⟨hS', htab⟩ := hwrite.kept hS
    refine ⟨⟨held, free, parts, hS'⟩, ?_⟩
    rw [w'.managed_eq held, w.managed_eq held, htab.tables_eq]
    cases hwrite with
    | mk _ => rfl

/-- The joint invariant holds in every run, and the frames that are managed are those that were
free or tables at the start. -/
theorem World.Start.reach [X86] {w₀ : World} (h : w₀.Start init)
    (hrun : Relation.ReflTransGen World.Step w₀ w) :
    (∃ held free parts, Sound init w held free parts) ∧ w.managed = w₀.managed := by
  have hstep : ∀ t t' : World, t.Step t' →
      (∃ held free parts, Sound init t held free parts) ∧ t.managed = w₀.managed →
      (∃ held free parts, Sound init t' held free parts) ∧ t'.managed = w₀.managed := by
    rintro t t' htt ⟨⟨held, free, parts, hS⟩, hsame⟩
    obtain ⟨hsound, heq⟩ := htt.kept hS
    exact ⟨hsound, heq.trans hsame⟩
  exact reach_invariant hstep hrun ⟨⟨init, _, _, h.sound⟩, rfl⟩

theorem World.Start.managed_eq {w₀ : World} (h : w₀.Start init) :
    w₀.managed = freeSet w₀.kernel.phys ∪ {f | f ∈ init} := by
  ext f
  have hblocks : w₀.heapBlocks = [] := by
    unfold World.heapBlocks
    rw [h.refills_eq, h.live_eq]
    rfl
  unfold World.managed
  rw [hblocks]
  simp [Vmm.pool, outFrames, h.tree.mem_iff, Kernel.vm]

/-- Every frame that was managed at the start has one use, and no other frame has one. -/
theorem World.Start.uses [X86] {w₀ : World} (h : w₀.Start init)
    (hrun : Relation.ReflTransGen World.Step w₀ w) :
    (∀ f u, w.Uses f u → f ∈ w₀.managed) ∧ ∀ f ∈ w₀.managed, ∃! u, w.Uses f u := by
  obtain ⟨⟨held, free, parts, hS⟩, hsame⟩ := h.reach hrun
  rw [← hsame]
  constructor
  · intro f u hu
    exact World.mem_managed_iff.2 ⟨u, hu⟩
  · intro f hf
    obtain ⟨u, hu⟩ := World.mem_managed_iff.1 hf
    exact ⟨u, hu, fun u' hu' => hS.uses_unique hu' hu⟩

end

/-- Where the memory is, at every moment of a run. A frame has a use if and only if it was free or
a table at the start, and it has only one: it is free, or the table at one path, or a slab of one
bucket, or behind one large live block. Hence the numbers of frames add up to what they were. And
the calls return. -/
theorem memory_partitioned [X86] {init : List ℕ} {w₀ w : World} (hstart : w₀.Start init)
    (hrun : Relation.ReflTransGen World.Step w₀ w) :
    (∀ f u, w.Uses f u → f ∈ freeSet w₀.kernel.phys ∨ f ∈ init) ∧
    (∀ f, f ∈ freeSet w₀.kernel.phys ∨ f ∈ init → ∃! u, w.Uses f u) ∧
    w.kernel.phys.pmm.freeFrames + w.tables.ncard + (Heap.created w.kernel.refills).length +
        ((Heap.largeBlocks w.kernel.hhdmOffset w.live).map fun b => 2 ^ b.2).sum =
      w₀.kernel.phys.pmm.freeFrames + init.length ∧
    (∀ layout, ∃ p k', (onHeap (Heap.alloc layout)).run w.kernel = .ok p k') ∧
    (∀ e ∈ w.live, ∃ k', (onHeap (Heap.dealloc e.1 e.2)).run w.kernel = .ok () k') ∧
    (∀ virt phys flags size, phys < 2 ^ 52 → ∃ r k',
      (onVmm (Vmm.map virt phys flags size)).run w.kernel = .ok r k') ∧
    ∀ virt size, ∃ r k', (onVmm (Vmm.unmap virt size)).run w.kernel = .ok r k' := by
  obtain ⟨⟨held, free, parts, hS⟩, hsame⟩ := hstart.reach hrun
  have huses := hstart.uses hrun
  rw [hstart.managed_eq] at huses
  refine ⟨huses.1, huses.2, ?_, ?_, ?_, ?_, ?_⟩
  · have hcount := hS.ncard_managed.2
    have hcount₀ := hstart.sound.ncard_managed.2
    rw [hsame] at hcount
    have htables : w₀.tables.ncard = init.length := hstart.tree.ncard_tables
    rw [hstart.refills_eq, hstart.live_eq, htables] at hcount₀
    rw [← hcount, hcount₀]
    simp [Heap.largeBlocks, Heap.created]
  · intro layout
    obtain ⟨p, h', halloc, -⟩ := hS.heap.alloc_ends layout
    exact ⟨p, _, Prog.zoom_of_ok halloc⟩
  · intro e he
    obtain ⟨h', hfree, -⟩ := hS.heap.dealloc_ends he
    exact ⟨_, Prog.zoom_of_ok hfree⟩
  · intro virt phys flags size hphys
    obtain ⟨r, v, -, hmap, -⟩ := Vmm.map_spec hS.tree virt hphys flags size
    exact ⟨r, _, Prog.zoom_of_ok hmap⟩
  · intro virt size
    obtain ⟨r, v, -, hunmap, -⟩ := Vmm.unmap_spec hS.tree virt size
    exact ⟨r, _, Prog.zoom_of_ok hunmap⟩

/-- Six frames of memory behind a direct map at 8 MiB, none of them free yet. -/
def sixFrames : Phys :=
  ⟨⟨List.replicate 12 none, List.replicate 6 255, 6, 0, 2 ^ 23⟩, fun _ _ => 0⟩

/-- A kernel with an empty PML4 in frame `f`, before the heap is used. -/
def emptyKernel (s : Phys) (f : ℕ) : Kernel :=
  ⟨(Vmm.emptyVm s f).phys, 0, 2 ^ 23, f * frameSize, List.replicate 7 none, List.replicate 7 none,
    [], []⟩

theorem emptyKernel_start {s₁ s₂ : Phys} {f : ℕ} (hseed : (addRange 1 5).run sixFrames = .ok () s₁)
    (halloc : (allocPages 0).run s₁ = .ok (some (f * frameSize)) s₂)
    (htotal : s₂.pmm.totalFrames = 6) (hhdm : s₂.pmm.hhdmOffset = 2 ^ 23) :
    World.Start [f] ⟨emptyKernel s₂ f, [], fun _ => 0⟩ := by
  have hreach : Ledger.Reachable ⟨s₂, _, [(f * frameSize, 0)]⟩ :=
    ⟨⟨sixFrames, ∅, []⟩, ⟨⟨List.replicate 6 0, 6, 2 ^ 23, fun _ _ => 0, by decide, rfl⟩,
      ⟨by decide, by decide⟩, rfl, rfl⟩,
      Relation.ReflTransGen.tail (Relation.ReflTransGen.single
        (Ledger.Step.seed 1 5 (by decide) (Set.empty_disjoint _) hseed))
        (Ledger.Step.allocSome 0 (f * frameSize) halloc)⟩
  have hvm : (emptyKernel s₂ f).vm = Vmm.emptyVm s₂ f := by
    unfold Kernel.vm emptyKernel Vmm.emptyVm
    rw [hhdm]
  have htree := (Vmm.emptyVm_start hreach.accounts.toHolds (htotal.trans_le (by decide))).tree
  rw [← hvm] at htree
  exact ⟨htree, rfl, ⟨1, rfl⟩, rfl, rfl, rfl, rfl, rfl⟩

/-- One of the frames becomes the PML4, one a slab, and the others the tables of a page. -/
theorem slab_and_page_run : letI := X86.documented
    ∃ s₁, (addRange 1 5).run sixFrames = .ok () s₁ ∧ ∃ s₂,
      (allocPages 0).run s₁ = .ok (some (1 * frameSize)) s₂ ∧ s₂.pmm.totalFrames = 6 ∧
      s₂.pmm.hhdmOffset = 2 ^ 23 ∧ s₂.pmm.freeFrames = 4 ∧ ∃ p k₁,
      (onHeap (Heap.alloc Heap.kilobyte)).run (emptyKernel s₂ 1) = .ok p k₁ ∧ p ≠ 0 ∧
      ∃ k₂, (onVmm (Vmm.map 0 0 ⟨flagRW, rfl⟩ .base)).run k₁ = .ok (.ok ()) k₂ ∧
        (Heap.created k₂.refills).length = 1 ∧ k₂.phys.pmm.freeFrames = 0 := by
  unfold addRange
  unfold addRange
  unfold addRange
  unfold addRange
  exact ⟨_, rfl, _, rfl, rfl, rfl, rfl, _, _, rfl, Nat.ne_of_gt (Nat.le_of_ble_eq_true rfl), _,
    rfl, rfl, rfl⟩

theorem slab_and_page_steps : letI := X86.documented
    ∃ (w₀ w w' : World) (p : ℕ), w₀.Start [1] ∧ w₀.kernel.phys.pmm.freeFrames = 4 ∧
      w₀.HeapCall w ∧ w.live = [(p, Heap.kilobyte)] ∧ w.VmCall w' ∧ w'.live = w.live ∧
      (Heap.created w'.kernel.refills).length = 1 ∧ w'.kernel.phys.pmm.freeFrames = 0 := by
  let := X86.documented
  obtain ⟨s₁, hseed, s₂, hroot, htotal, hhdm, hfree, p, k₁, halloc, hp, k₂, hmap, hslab, hnone⟩ :=
    slab_and_page_run
  refine ⟨_, _, _, p, emptyKernel_start hseed hroot htotal hhdm, hfree, .alloc _ halloc, ?_,
    .map _ _ _ _ hmap, rfl, hslab, hnone⟩
  exact if_neg hp

/-- All frames of that run are in use: four tables and a slab. -/
theorem memory_partitioned_slab_and_page : letI := X86.documented
    ∃ w₀ w : World, w₀.Start [1] ∧ Relation.ReflTransGen World.Step w₀ w ∧
      w.kernel.phys.pmm.freeFrames = 0 ∧ w.tables.ncard = 4 := by
  let := X86.documented
  obtain ⟨w₀, w, w', p, hstart, hfour, hcall, hlive, hmap, hsame, hslab, hnone⟩ :=
    slab_and_page_steps
  have hfirst : Relation.ReflTransGen World.Step w₀ w := .single (Or.inl hcall)
  have hrun : Relation.ReflTransGen World.Step w₀ w' :=
    hfirst.tail (Or.inr (Or.inl hmap))
  have hcount := (memory_partitioned hstart hrun).2.2.1
  have hlarge : Heap.largeBlocks w'.kernel.hhdmOffset w'.live = [] := by
    rw [hsame, hlive]
    rfl
  rw [hnone, hslab, hlarge, hfour] at hcount
  simp only [List.map_nil, List.sum_nil, List.length_singleton] at hcount
  exact ⟨w₀, w', hstart, hrun, hnone, by omega⟩

/-! ## The bytes of live blocks -/

/-- A step after which the block is live and its clients did not write to it. -/
def World.Leaves [X86] (e : ℕ × Layout) (w w' : World) : Prop :=
  e ∈ w'.live ∧ (w.HeapCall w' ∨ w.VmCall w' ∨ w.Write w' ∧
    ∀ f i, w.InBlock e f i → w'.kernel.phys.mem f i = w.kernel.phys.mem f i)

section

variable [X86] {init held : List ℕ} {free parts : ℕ → List ℕ} {w w' : World}

theorem World.Step.hhdm_eq (h : w.Step w') (hS : Sound init w held free parts) :
    w'.kernel.hhdmOffset = w.kernel.hhdmOffset := by
  rcases h with hheap | hvm | hwrite
  · obtain ⟨free', parts', hK⟩ := hheap.kept hS
    exact hK.confined.hhdm
  · obtain ⟨held', hK⟩ := hvm.kept hS
    exact hK.confined.hhdm
  · cases hwrite with
    | mk _ => rfl

theorem World.Leaves.step {e : ℕ × Layout} (h : w.Leaves e w') : w.Step w' := by
  obtain ⟨-, hheap | hvm | ⟨hwrite, -⟩⟩ := h
  · exact Or.inl hheap
  · exact Or.inr (Or.inl hvm)
  · exact Or.inr (Or.inr hwrite)

/-- The heap writes to its own words, and the virtual memory manager to tables and free frames. -/
theorem World.Leaves.mem_eq {e : ℕ × Layout} (h : w.Leaves e w')
    (hS : Sound init w held free parts) (he : e ∈ w.live) {f i : ℕ} (hin : w.InBlock e f i) :
    w'.kernel.phys.mem f i = w.kernel.phys.mem f i := by
  obtain ⟨he', hheap | hvm | ⟨-, hclients⟩⟩ := h
  · obtain ⟨free', parts', hK⟩ := hheap.kept hS
    exact hK.confined.live_word hS.heap hK.sound.heap he he' hin.1 hin.2
  · obtain ⟨held', hK⟩ := hvm.kept hS
    obtain ⟨a, ha, hword⟩ := Set.not_disjoint_iff.1 hin.2
    have hmine : ptrFrame w.kernel.hhdmOffset a ∈ outFrames w.heapBlocks :=
      hS.heap.frame_of_span he ha
    rw [Heap.ptrFrame_of_mem (Heap.wordSpan_subset hin.1 hword)] at hmine
    exact congrFun (hK.confined.outside f (hS.notMem_pool hmine)) i
  · exact hclients f i hin

end

/-- While a block is live, nobody but its clients changes its bytes: neither do calls of the heap
for other blocks, nor those of the virtual memory manager, nor clients that write to their own
blocks. -/
theorem contents_kept [X86] {init : List ℕ} {w₀ w w' : World} (hstart : w₀.Start init)
    (hrun : Relation.ReflTransGen World.Step w₀ w) {e : ℕ × Layout} (he : e ∈ w.live)
    (hkeep : Relation.ReflTransGen (World.Leaves e) w w') :
    ∀ f i, w.InBlock e f i → w'.kernel.phys.mem f i = w.kernel.phys.mem f i := by
  obtain ⟨⟨held, free, parts, hS⟩, -⟩ := hstart.reach hrun
  -- the invariant, that the block is live, and that its words are where they were
  have hstep : ∀ t t' : World, t.Leaves e t' →
      ((∃ held free parts, Sound init t held free parts) ∧ e ∈ t.live ∧
        t.kernel.hhdmOffset = w.kernel.hhdmOffset ∧
        ∀ f i, w.InBlock e f i → t.kernel.phys.mem f i = w.kernel.phys.mem f i) →
      (∃ held free parts, Sound init t' held free parts) ∧ e ∈ t'.live ∧
        t'.kernel.hhdmOffset = w.kernel.hhdmOffset ∧
        ∀ f i, w.InBlock e f i → t'.kernel.phys.mem f i = w.kernel.phys.mem f i := by
    rintro t t' htt ⟨⟨held, free, parts, hS⟩, ht, hhdm, hmem⟩
    refine ⟨(htt.step.kept hS).1, htt.1, (htt.step.hhdm_eq hS).trans hhdm, ?_⟩
    intro f i hin
    have hin' : t.InBlock e f i := by
      unfold World.InBlock
      rw [hhdm]
      exact hin
    rw [htt.mem_eq hS ht hin', hmem f i hin]
  exact (reach_invariant hstep hkeep ⟨⟨held, free, parts, hS⟩, he, rfl, fun _ _ _ => rfl⟩).2.2.2

/-- Mapping the page of that run leaves the bytes of the object. -/
theorem contents_kept_slab_and_page : letI := X86.documented
    ∃ (w₀ w w' : World) (p : ℕ), w₀.Start [1] ∧ w₀.HeapCall w ∧ w.VmCall w' ∧
      (p, Heap.kilobyte) ∈ w.live ∧ ∀ f i, w.InBlock (p, Heap.kilobyte) f i →
        w'.kernel.phys.mem f i = w.kernel.phys.mem f i := by
  let := X86.documented
  obtain ⟨w₀, w, w', p, hstart, -, hcall, hlive, hmap, hsame, -⟩ := slab_and_page_steps
  have he : (p, Heap.kilobyte) ∈ w.live := by
    rw [hlive]
    exact List.mem_singleton_self _
  refine ⟨w₀, w, w', p, hstart, hcall, hmap, he, ?_⟩
  refine contents_kept hstart (.single (Or.inl hcall)) he (.single ?_)
  exact ⟨hsame ▸ he, Or.inr (Or.inl hmap)⟩

end Prometheos.Mm
