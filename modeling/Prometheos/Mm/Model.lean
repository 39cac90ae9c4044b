import Prometheos.Boot.Model
import Prometheos.Heap.Model
import Prometheos.Vmm.Model

/-!
# The memory management as a whole (`mm/mod.rs`)

The physical memory manager, the virtual memory manager and the heap are three statics over one
physical memory. `Statics` is that memory with the statics as they are while `mm::init` runs, and
`init` is all of `mm::init`; `Kernel` is what they are from then on, when everything is installed.
The functions of `vmm.rs` and `heap.rs` are run on a `Kernel` by `onVmm` and `onHeap`.

`trace` and `refills` are not part of the code; they are the records of the two models.
-/

namespace Prometheos.Mm

/-! ## After `mm::init` -/

/-- `PMM`, `VMM`, `HHDM_OFFSET` and `ALLOCATOR` over physical memory, and `cr3`. -/
structure Kernel where
  phys : Phys
  cr3 : Word
  hhdmOffset : ℕ
  topLevel : ℕ
  active : List (Option ℕ)
  partials : List (Option ℕ)
  trace : List Event
  refills : List (ℕ × Option ℕ)

/-- What the heap sees. -/
def Kernel.heap (k : Kernel) : Heap := ⟨k.phys, k.hhdmOffset, k.active, k.partials, k.refills⟩

/-- After a call of the heap. -/
def Kernel.setHeap (h : Heap) (k : Kernel) : Kernel :=
  { k with phys := h.phys, active := h.active, partials := h.partials, refills := h.refills }

/-- What the virtual memory manager sees. -/
def Kernel.vm (k : Kernel) : Vm := ⟨k.phys, k.hhdmOffset, k.topLevel, k.trace⟩

/-- After a call of the virtual memory manager. -/
def Kernel.setVm (v : Vm) (k : Kernel) : Kernel := { k with phys := v.phys, trace := v.trace }

/-- A call of the heap. -/
def onHeap {α : Type} (x : Run Heap α) : Run Kernel α := Prog.zoom Kernel.heap Kernel.setHeap x

/-- `VMM.with`. -/
def onVmm {α : Type} (x : Run Vm α) : Run Kernel α := Prog.zoom Kernel.vm Kernel.setVm x

/-! ## `mm::init` -/

/-- `VmmError`. -/
inductive VmmError where
  | outOfFrames
deriving DecidableEq, Repr

/-- `MmError`; `HeapError` has no values. -/
inductive MmError where
  | vmmError (e : VmmError)
deriving DecidableEq, Repr

/-- The statics and `cr3` while `mm::init` runs; `vmm` is the top level of an installed manager. -/
structure Statics where
  mem : Mem
  cr3 : Word
  pmm : Option Pmm
  vmm : Option ℕ
  hhdmOffset : ℕ
  active : List (Option ℕ)
  partials : List (Option ℕ)

/-- The statics of a kernel that is set up. -/
def Kernel.statics (k : Kernel) : Statics :=
  ⟨k.phys.mem, k.cr3, some k.phys.pmm, some k.topLevel, k.hhdmOffset, k.active, k.partials⟩

/-- What the statics are initialised with. -/
def atBoot (mem : Mem) (cr3 : Word) : Statics :=
  ⟨mem, cr3, none, none, 0, List.replicate Heap.numBuckets none,
    List.replicate Heap.numBuckets none⟩

/-- `Option::unwrap` of the response to a request. -/
def unwrap {σ α : Type} : Option α → Run σ α
  | some a => pure a
  | none => Prog.fault (.panic "called Option::unwrap() on a None value")

/-- `pmm::install`. -/
def install (pmm : Pmm) : Run Statics Unit := do
  let installed ← Prog.gets (·.pmm.isSome)
  Prog.require (installed = false) (.panic "PMM already installed")
  Prog.update fun s => { s with pmm := some pmm }

/-- `VMM.install`. -/
def installVmm (topLevel : ℕ) : Run Statics Unit := do
  let installed ← Prog.gets (·.vmm.isSome)
  Prog.require (installed = false) (.panic "singleton already installed")
  Prog.update fun s => { s with vmm := some topLevel }

/-- Run `x` with the installed `PMM`. -/
def onCpu {α : Type} (x : Run Cpu α) : Run Statics α := do
  let pmm ← Prog.gets (·.pmm)
  let pmm ← unwrap pmm
  Prog.zoom (fun s => ⟨⟨pmm, s.mem⟩, s.cr3⟩)
    (fun c s => { s with mem := c.phys.mem, cr3 := c.cr3, pmm := some c.phys.pmm }) x

/-- `heap::init`. -/
def heapInit : Run Statics Unit := do
  let hhdm ← Prog.gets (·.hhdmOffset)
  Prog.require (hhdm ≠ 0) (.panic "assertion failed: HHDM_OFFSET.load(Ordering::Relaxed) != 0")

/-- `mm::init` from `take_ownership` on. -/
def initVmm (hhdmOffset : ℕ) : Run Statics (Except MmError Unit) := do
  let topLevel ← onCpu (Vmm.takeOwnership hhdmOffset)
  match topLevel with
  | none => pure (.error (.vmmError .outOfFrames))
  | some topLevel => do
      Prog.update fun s => { s with hhdmOffset := hhdmOffset }
      installVmm topLevel
      heapInit
      pure (.ok ())

/-- `mm::init`, for the responses of the bootloader. -/
def init (memmap : Option (List Entry)) (hhdm : Option ℕ) :
    Run Statics (Except MmError Unit) := do
  let memmap ← unwrap memmap
  let hhdmOffset ← unwrap hhdm
  let pmm ← Prog.zoom Statics.mem (fun m s => { s with mem := m }) (Boot.init memmap hhdmOffset)
  install pmm.pmm
  -- the free memory is printed in MiB
  let _ ← mulU64 pmm.pmm.freeFrames frameSize
  initVmm hhdmOffset

end Prometheos.Mm
