import Prometheos.Boot.Seeding
import Prometheos.Pmm.AddRange
import Prometheos.Vmm.CloneEnds
import Prometheos.Mm.Runs

/-!
# From the bootloader to the first run

`mm::init` is given a memory map and a direct map, and runs on the tables of the bootloader. If
these are as Limine promises, it returns. Either it has set everything up as the joint invariant
wants it (`World.Start`), in the frames that the memory map has to offer, or there were fewer
frames than the copy of the tables needs, and it has reported that. In both cases the processor
goes on with the translation it had (`init_boots`).
-/

namespace Prometheos.Mm

open Pmm Boot

/-- The tables of the bootloader lie outside the usable memory, and the direct map reaches them. -/
structure BootTables (memmap : List Entry) (hhdm : ℕ) (mem : Mem) (cr3 : Word) : Prop where
  apart : ∀ f ∈ Vmm.tablesIn mem 3 (frameOf cr3), ∀ e ∈ memmap, e.kind = .usable →
    ¬ Entry.HasFrame e f
  reached : ∀ f ∈ Vmm.tablesIn mem 3 (frameOf cr3), blockPtr hhdm f < 2 ^ 64

section

variable {memmap : List Entry} {hhdm : ℕ} {mem m' : Mem} {cr3 : Word}

theorem BootTables.notMem_available (h : BootTables memmap hhdm mem cr3) {f : ℕ}
    (hf : f ∈ Vmm.tablesIn mem 3 (frameOf cr3)) : f ∉ available memmap := by
  rintro ⟨-, ⟨e, he, hk, hframe⟩, -⟩
  exact h.apart f hf e he hk hframe

/-- The tables stay while only available frames are written. -/
theorem BootTables.mem_eq (h : BootTables memmap hhdm mem cr3)
    (hmem : ∀ g, g ∉ available memmap → m' g = mem g) (p : List (Fin 512)) (f : ℕ)
    (hp : Radix.tableAt Vmm.kind (Vmm.entries mem) 3 (frameOf cr3) p = some f) :
    m' f = mem f :=
  hmem f (h.notMem_available ⟨p, hp⟩)

theorem BootTables.tablesIn_eq (h : BootTables memmap hhdm mem cr3)
    (hmem : ∀ g, g ∉ available memmap → m' g = mem g) :
    Vmm.tablesIn m' 3 (frameOf cr3) = Vmm.tablesIn mem 3 (frameOf cr3) := by
  ext f
  exact exists_congr fun p => by rw [Vmm.tableAt_of_kept (h.mem_eq hmem)]

theorem BootTables.tablePaths_eq (h : BootTables memmap hhdm mem cr3)
    (hmem : ∀ g, g ∉ available memmap → m' g = mem g) :
    Vmm.tablePaths m' 3 (frameOf cr3) = Vmm.tablePaths mem 3 (frameOf cr3) := by
  ext p
  exact exists_congr fun f => by rw [Vmm.tableAt_of_kept (h.mem_eq hmem)]

theorem BootTables.archLeaf_eq (h : BootTables memmap hhdm mem cr3)
    (hmem : ∀ g, g ∉ available memmap → m' g = mem g) (virt : ℕ) :
    Vmm.archLeaf m' virt 3 (frameOf cr3) = Vmm.archLeaf mem virt 3 (frameOf cr3) := by
  rw [Vmm.archLeaf_eq_walk _ _ _ le_rfl, Vmm.archLeaf_eq_walk _ _ _ le_rfl,
    Vmm.walk_of_kept (h.mem_eq hmem)]

end

/-! ## The steps of `mm::init` -/

/-- The statics when the physical memory manager is installed. -/
def withPmm (s : Phys) (cr3 : Word) : Statics := { atBoot s.mem cr3 with pmm := some s.pmm }

/-- The kernel when everything is installed. -/
def installed (s : Phys) (cr3 : Word) (hhdmOffset topLevel : ℕ) : Kernel :=
  ⟨s, cr3, hhdmOffset, topLevel, List.replicate Heap.numBuckets none,
    List.replicate Heap.numBuckets none, [], []⟩

theorem tables_installed (s : Phys) (cr3 : Word) (hhdmOffset d : ℕ) :
    {f | ∃ p, Vmm.tableAt (installed s cr3 hhdmOffset (d * frameSize)).vm p = some f} =
      Vmm.tablesIn s.mem 3 d := by
  ext f
  exact exists_congr fun p => by rw [← Vmm.tableAt_vmAt]; rfl

theorem onCpu_of_ok {α : Type} {x : Run Cpu α} {s : Phys} {cr3 : Word} {a : α} {c' : Cpu}
    (h : x.run ⟨s, cr3⟩ = .ok a c') :
    (onCpu x).run (withPmm s cr3) = .ok a (withPmm c'.phys c'.cr3) := by
  unfold onCpu
  rw [Prog.gets_bind]
  exact Prog.zoom_of_ok h

/-- `mm::init` up to `take_ownership`. -/
theorem init_run {memmap : List Entry} {hhdm : ℕ} {mem : Mem} {cr3 : Word} {s : Phys}
    (hinit : (Boot.init memmap hhdm).run mem = .ok s s.mem)
    (hfree : s.pmm.freeFrames * frameSize < 2 ^ 64) :
    (init (some memmap) (some hhdm)).run (atBoot mem cr3) =
      (initVmm hhdm).run (withPmm s cr3) := by
  have hboot : (Prog.zoom Statics.mem (fun m s => { s with mem := m })
      (Boot.init memmap hhdm)).run (atBoot mem cr3) = .ok s (atBoot s.mem cr3) :=
    Prog.zoom_of_ok hinit
  have hinstall : (install s.pmm).run (atBoot s.mem cr3) = .ok () (withPmm s cr3) := rfl
  unfold init
  change (do
    let pmm ← Prog.zoom Statics.mem (fun m s => { s with mem := m }) (Boot.init memmap hhdm)
    install pmm.pmm
    let _ ← mulU64 pmm.pmm.freeFrames frameSize
    initVmm hhdm : Run Statics _).run _ = _
  rw [Prog.bind_of_ok hboot, Prog.bind_of_ok hinstall, Prog.bind_of_ok (mulU64_of_lt hfree _)]

/-- The rest of `mm::init`: the virtual memory manager and the heap are installed over a copy of
the tables, or there are too few frames. -/
theorem initVmm_ends {s : Phys} {cr3 : Word} (hH : Holds s [])
    (htotal : s.pmm.totalFrames ≤ 2 ^ 40)
    (hdvd : 2 ^ maxOrder * frameSize ∣ s.pmm.hhdmOffset)
    (hsrc : ∀ f ∈ Vmm.tablesIn s.mem 3 (frameOf cr3), f ∉ freeSet s)
    (hptr : ∀ f ∈ Vmm.tablesIn s.mem 3 (frameOf cr3), blockPtr s.pmm.hhdmOffset f < 2 ^ 64) :
    ((Vmm.tablePaths s.mem 3 (frameOf cr3)).ncard ≤ s.pmm.freeFrames ∧ ∃ t d tables,
      (initVmm s.pmm.hhdmOffset).run (withPmm s cr3) = .ok (.ok ())
        (installed t (Vmm.copyEntry d cr3) s.pmm.hhdmOffset (d * frameSize)).statics ∧
      World.Start tables
        ⟨installed t (Vmm.copyEntry d cr3) s.pmm.hhdmOffset (d * frameSize), [], fun _ => 0⟩ ∧
      d < 2 ^ 40 ∧ Vmm.Copying s.mem 3 (frameOf cr3) s t d 512) ∨
    (s.pmm.freeFrames < (Vmm.tablePaths s.mem 3 (frameOf cr3)).ncard ∧ ∃ t,
      (initVmm s.pmm.hhdmOffset).run (withPmm s cr3) =
        .ok (.error (.vmmError .outOfFrames)) (withPmm t cr3) ∧ Vmm.Undone s t) := by
  rcases Vmm.takeOwnership_ends (c := ⟨s, cr3⟩) hH.inv hH.direct htotal hsrc hptr with
    ⟨hshort, t, hown, hU⟩ | ⟨henough, d, t, hown, hC⟩
  · right
    refine ⟨hshort, t, ?_, hU⟩
    unfold initVmm
    rw [Prog.bind_of_ok (onCpu_of_ok hown)]
    rfl
  · left
    obtain ⟨⟨tables, hstart⟩, -⟩ := Vmm.takeOwnership_start (c := ⟨s, cr3⟩) hH htotal hsrc hown
    obtain ⟨L, hR, -⟩ := hH.inv.rep
    have hd : d < 2 ^ 40 :=
      (hR.freeSet_lt (hC.fresh (Vmm.self_mem_tablesIn t.mem 3 d))).trans_le htotal
    have htree := hstart.tree
    dsimp only [Vmm.vmAt] at htree
    rw [hC.hhdm] at htree
    let st : Statics :=
      (installed t (Vmm.copyEntry d cr3) s.pmm.hhdmOffset (d * frameSize)).statics
    have hinstall : (installVmm (d * frameSize)).run { withPmm t (Vmm.copyEntry d cr3) with
        hhdmOffset := s.pmm.hhdmOffset } = .ok () st := rfl
    have hheap : heapInit.run st = .ok () st := by
      unfold heapInit
      rw [Prog.gets_bind]
      exact Prog.run_require hH.direct.offset_pos.ne' _ st
    refine ⟨henough, t, d, tables, ?_, ⟨htree, rfl, hdvd, rfl, rfl, rfl, rfl, rfl⟩, hd, hC⟩
    unfold initVmm
    rw [Prog.bind_of_ok (onCpu_of_ok hown)]
    dsimp only
    rw [Prog.update_bind, Prog.bind_of_ok hinstall, Prog.bind_of_ok hheap]
    rfl

/-! ## The result -/

/-- What `mm::init` hands over, when the bootloader left the memory map `memmap`, and the memory
`mem` with its tables at `cr3`: a kernel as the joint invariant wants it, with a table for each
path to a table of the bootloader, and with no empty ones if the bootloader has none. From then on,
in every run, the frames that have a use are the available ones, and each has one use. -/
structure HandedOver [X86] (memmap : List Entry) (mem : Mem) (cr3 : Word) (k : Kernel)
    (tables : List ℕ) : Prop where
  start : World.Start tables ⟨k, [], fun _ => 0⟩
  length_eq : tables.length = (Vmm.tablePaths mem 3 (frameOf cr3)).ncard
  top_eq : k.topLevel = frameOf k.cr3 * frameSize
  noEmpty : (∀ p f, Radix.tableAt Vmm.kind (Vmm.entries mem) 3 (frameOf cr3) p = some f → p ≠ [] →
    ∃ i : Fin 512, (mem f i).getLsbD 0 = true) → Vmm.NoEmpty k.vm
  uses : ∀ w, Relation.ReflTransGen World.Step ⟨k, [], fun _ => 0⟩ w →
    (∀ f u, w.Uses f u → f ∈ available memmap) ∧ ∀ f ∈ available memmap, ∃! u, w.Uses f u

/-- A copy in available frames, with the memory as it was outside of them. -/
theorem handedOver_of_copying [X86] {memmap : List Entry} {hhdm d : ℕ} {mem : Mem} {cr3 : Word}
    {s t : Phys} {tables : List ℕ} (htables : BootTables memmap hhdm mem cr3)
    (hfree : freeSet s = available memmap) (hmem : ∀ g, g ∉ available memmap → s.mem g = mem g)
    (hd : d < 2 ^ 40) (hC : Vmm.Copying s.mem 3 (frameOf cr3) s t d 512)
    (hstart : World.Start tables
      ⟨installed t (Vmm.copyEntry d cr3) hhdm (d * frameSize), [], fun _ => 0⟩) :
    HandedOver memmap mem cr3 (installed t (Vmm.copyEntry d cr3) hhdm (d * frameSize)) tables := by
  constructor
  · exact hstart
  · rw [← hstart.tree.ncard_tables, tables_installed, ← htables.tablePaths_eq hmem,
      ← hC.copy.tablePaths_eq]
    exact hC.unshared.ncard_tables
  · change d * frameSize = frameOf (Vmm.copyEntry d cr3) * frameSize
    rw [Vmm.frameOf_copyEntry hd]
  · intro hno
    apply hC.noEmpty
    intro p f hp hne
    rw [Vmm.tableAt_of_kept (htables.mem_eq hmem)] at hp
    rw [htables.mem_eq hmem p f hp]
    exact hno p f hp hne
  · intro w hw
    have hcopies : {f | f ∈ tables} = Vmm.tablesIn t.mem 3 d := by
      rw [← tables_installed]
      ext f
      exact hstart.tree.mem_iff f
    have hmanaged : freeSet t ∪ {f | f ∈ tables} = available memmap := by
      rw [hcopies, hC.free_eq, Set.sdiff_union_of_subset hC.fresh, hfree]
    rw [← hmanaged]
    have huses := hstart.uses hw
    rw [hstart.managed_eq] at huses
    exact huses

/-- The boot of the memory management, from what the bootloader leaves. `mm::init` returns, and the
processor finds the leaf it found before for every address, with the same control bits in `cr3`.
If there is an available frame for each path to a table of the bootloader, everything is installed
and handed over. Otherwise `mm::init` returns `OutOfFrames`, on the tables of the bootloader, with
every available frame free. -/
theorem init_boots [X86] {memmap : List Entry} {hhdm : ℕ} {mem : Mem} {cr3 : Word}
    (hmap : LimineMap memmap)
    (hroom : ∃ e ∈ memmap, e.kind = .usable ∧ orderBytes memmap ≤ e.length)
    (hcovers : Covers hhdm memmap) (hdvd : 2 ^ maxOrder * frameSize ∣ hhdm)
    (htables : BootTables memmap hhdm mem cr3) :
    ∃ r st, (init (some memmap) (some hhdm)).run (atBoot mem cr3) = .ok r st ∧
      (∀ virt, Vmm.archLeaf st.mem virt 3 (frameOf st.cr3) =
        Vmm.archLeaf mem virt 3 (frameOf cr3)) ∧
      st.cr3 &&& ~~~addrMask = cr3 &&& ~~~addrMask ∧
      (((Vmm.tablePaths mem 3 (frameOf cr3)).ncard ≤ (available memmap).ncard ∧ r = .ok () ∧
        ∃ k tables, st = k.statics ∧ HandedOver memmap mem cr3 k tables) ∨
       ((available memmap).ncard < (Vmm.tablePaths mem 3 (frameOf cr3)).ncard ∧
        r = .error (.vmmError .outOfFrames) ∧ st.cr3 = cr3 ∧ st.vmm = none ∧
        ∃ pmm, st.pmm = some pmm ∧ freeSet ⟨pmm, st.mem⟩ = available memmap)) := by
  obtain ⟨s, hboot, hH, htotal, rfl, hfree, hmem⟩ := init_holds hmap hroom hcovers mem
  have hcount : s.pmm.freeFrames = (available memmap).ncard := by
    rw [hH.inv.count, hfree]
  have htotal40 : s.pmm.totalFrames ≤ 2 ^ 40 := htotal.trans_le hmap.totalFrames_le
  have hsrc : ∀ f ∈ Vmm.tablesIn s.mem 3 (frameOf cr3), f ∉ freeSet s := by
    intro f hf
    rw [htables.tablesIn_eq hmem] at hf
    rw [hfree]
    exact htables.notMem_available hf
  have hptr : ∀ f ∈ Vmm.tablesIn s.mem 3 (frameOf cr3), blockPtr s.pmm.hhdmOffset f < 2 ^ 64 := by
    intro f hf
    rw [htables.tablesIn_eq hmem] at hf
    exact htables.reached f hf
  have hprint : s.pmm.freeFrames * frameSize < 2 ^ 64 := by
    have hle := hH.inv.freeFrames_le
    unfold frameSize
    omega
  rw [init_run hboot hprint]
  rcases initVmm_ends hH htotal40 hdvd hsrc hptr with
    ⟨henough, t, d, tables, hrun, hstart, hd, hC⟩ | ⟨hshort, t, hrun, hU⟩
  · rw [htables.tablePaths_eq hmem, hcount] at henough
    refine ⟨_, _, hrun, ?_, Vmm.copyEntry_flags d cr3, Or.inl ⟨henough, rfl, _, tables, rfl,
      handedOver_of_copying htables hfree hmem hd hC hstart⟩⟩
    intro virt
    change Vmm.archLeaf t.mem virt 3 (frameOf (Vmm.copyEntry d cr3)) = _
    rw [Vmm.frameOf_copyEntry hd, hC.archLeaf_eq, htables.archLeaf_eq hmem]
  · rw [htables.tablePaths_eq hmem, hcount] at hshort
    refine ⟨_, _, hrun, ?_, rfl, Or.inr ⟨hshort, rfl, rfl, rfl, t.pmm, rfl, ?_⟩⟩
    · refine htables.archLeaf_eq ?_
      intro g hg
      exact (hU.mem_eq g (hfree ▸ hg)).trans (hmem g hg)
    · exact hU.free_eq.trans hfree

/-- The bootloader has an empty PML4 in frame 3, which is not usable. -/
theorem bootTables_twoEntries :
    BootTables twoEntries 0xFFFF800000000000 (fun _ _ => 0) 0x3000 ∧
      Vmm.tablePaths (fun _ _ => 0) 3 (frameOf 0x3000) = {[]} := by
  have hpaths : ∀ {p f}, Radix.tableAt Vmm.kind (Vmm.entries fun _ _ => 0) 3 (frameOf 0x3000) p =
      some f ↔ p = [] ∧ f = frameOf 0x3000 := by
    intro p f
    apply Radix.tableAt_iff_of_no_table
    intro i n h
    rw [show Vmm.entries (fun _ _ => 0) (frameOf 0x3000) i = 0 from rfl, Vmm.kind_zero_word] at h
    cases h
  refine ⟨⟨?_, ?_⟩, ?_⟩
  · rintro f ⟨p, hp⟩
    rw [(hpaths.1 hp).2]
    unfold Entry.HasFrame
    decide
  · rintro f ⟨p, hp⟩
    rw [(hpaths.1 hp).2]
    decide
  · ext p
    constructor
    · rintro ⟨f, hp⟩
      exact (hpaths.1 hp).1
    · rintro rfl
      exact ⟨_, rfl⟩

/-- The first frame behind the order bytes is available. -/
theorem available_twoEntries : 0 < (available twoEntries).ncard := by
  have hfinite : (available twoEntries).Finite := by
    apply (Set.finite_lt_nat 6).subset
    rintro f ⟨-, ⟨e, he, -, hframe⟩, -⟩
    have hend : ∀ e ∈ twoEntries, e.base + e.length ≤ 6 * 4096 := by decide
    have hle := hend e he
    unfold Entry.HasFrame frameSize at hframe
    change f < 6
    omega
  rw [Set.ncard_pos hfinite]
  refine ⟨1, le_rfl, ⟨⟨0x0, 0x3000, .usable⟩, by decide, rfl, by decide, by decide⟩, ?_⟩
  rw [touches_iff (by decide)]
  decide

theorem init_boots_twoEntries : letI := X86.documented
    BootTables twoEntries 0xFFFF800000000000 (fun _ _ => 0) 0x3000 ∧
      ∃ st k tables, (init (some twoEntries) (some 0xFFFF800000000000)).run
        (atBoot (fun _ _ => 0) 0x3000) = .ok (.ok ()) st ∧ st = k.statics ∧
        HandedOver twoEntries (fun _ _ => 0) 0x3000 k tables := by
  let := X86.documented
  obtain ⟨htables, hpaths⟩ := bootTables_twoEntries
  have hcovers : Covers 0xFFFF800000000000 twoEntries := ⟨by decide, by decide, by decide⟩
  have hroom : ∃ e ∈ twoEntries, e.kind = .usable ∧ orderBytes twoEntries ≤ e.length := by decide
  obtain ⟨r, st, hrun, -, -, ⟨-, rfl, k, tables, hst, hover⟩ | ⟨hshort, -⟩⟩ :=
    init_boots limineMap_twoEntries hroom hcovers (by decide) htables
  · exact ⟨htables, st, k, tables, hrun, hst, hover⟩
  · rw [hpaths, Set.ncard_singleton] at hshort
    have hpos := available_twoEntries
    omega

end Prometheos.Mm
