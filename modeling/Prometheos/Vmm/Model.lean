import Prometheos.Pmm.Model
import Prometheos.X86

/-!
# The virtual memory manager (`mm/vmm.rs`)

Four levels of page tables, each in a frame of its own: PML4, PDPT, PD and PT. `map`
creates the tables it misses and gives them back when it runs out of memory; `unmap`
gives back the tables that became empty. `clone_table` copies the bootloader's tables.

A slot is a pointer to an entry, as the source's `&mut` references are. The functions
follow the source one by one; `map` and `unmap` are cut where the source goes down one
level, and the code that the source repeats on each level is one definition
(`nextTable`, `dropTable`, `reclaim`).

`trace` is not part of the code: it records, the last event first, the frames that are
allocated and freed, the memory after each store to a table, and the flushes.
-/

namespace Prometheos

/-- `PageSize`. -/
inductive PageSize where
  | base
  | large
  | huge
deriving DecidableEq, Repr

/-- `PageSize::bytes`. -/
def PageSize.bytes : PageSize → ℕ
  | .base => 2 ^ 12
  | .large => 2 ^ 21
  | .huge => 2 ^ 30

/-- `MapError`. -/
inductive MapError where
  | alreadyMapped
  | outOfMemory
  | nonCanonical
  | misaligned
deriving DecidableEq, Repr

/-- `UnmapError`. -/
inductive UnmapError where
  | notMapped
  | nonCanonical
  | misaligned
deriving DecidableEq, Repr

/-- What the trace records. -/
inductive Event where
  | alloc (frame : ℕ)
  | free (frame : ℕ)
  | store (mem : Mem)
  | flush

/-- The manager over physical memory, with `HHDM_OFFSET`. -/
structure Vm where
  phys : Phys
  hhdmOffset : ℕ
  topLevel : ℕ
  trace : List Event

namespace Vmm

variable [X86] {σ : Type}

/-! ## Memory -/

/-- Read the word at a pointer. -/
def readAt (p : ℕ) : Run Phys Word := do
  let hhdm ← Prog.gets (·.pmm.hhdmOffset)
  Pmm.onMem (load hhdm p)

/-- Write the word at a pointer. -/
def writeAt (p : ℕ) (w : Word) : Run Phys Unit := do
  let hhdm ← Prog.gets (·.pmm.hhdmOffset)
  Pmm.onMem (store hhdm p w)

/-- Memory with the 4096 bytes from `p` on zeroed. -/
def zeroed (hhdm p : ℕ) (m : Mem) : Mem :=
  fun g j => if j < 512 ∧ p - hhdm ≤ g * 4096 + 8 * j ∧ g * 4096 + 8 * j < p - hhdm + 4096 then 0
    else m g j

/-- `zero_frame`. -/
def zeroFrame (phys hhdm : ℕ) : Run Phys Unit := do
  let p ← addU64 phys hhdm
  let direct ← Prog.gets (·.pmm.hhdmOffset)
  Prog.require (direct ≤ p) (.undefined "write outside the direct map")
  Pmm.onMem (Prog.update (zeroed direct p))

/-- `table_mut`. -/
def tableMut (phys hhdm : ℕ) : Run σ ℕ := addU64 phys hhdm

/-- `&mut (*table)[i]`, where a table has `PAGE_SIZE_ENTRIES` entries. -/
def slotOf (table i : ℕ) : Run σ ℕ := do
  Prog.require (i < 512)
    (.panic s!"index out of bounds: the len is 512 but the index is {i}")
  pure (table + 8 * i)

/-- The slot of entry `i` of the table at a physical address. -/
def entrySlot (phys i hhdm : ℕ) : Run σ ℕ := do
  let table ← tableMut phys hhdm
  slotOf table i

/-- A call of the physical memory manager, or an access to memory. -/
def onPhys {α : Type} (x : Run Phys α) : Run Vm α :=
  Prog.zoom Vm.phys (fun p s => { s with phys := p }) x

/-- Record an event. -/
def note (e : Event) : Run Vm Unit := Prog.update fun s => { s with trace := e :: s.trace }

/-- Record the memory. -/
def noteMem : Run Vm Unit := Prog.update fun s => { s with trace := .store s.phys.mem :: s.trace }

/-- `*slot`. -/
def readEntry (slot : ℕ) : Run Vm Word := onPhys (readAt slot)

/-- `*slot = entry`. -/
def writeEntry (slot : ℕ) (entry : Word) : Run Vm Unit := do
  onPhys (writeAt slot entry)
  noteMem

/-- `pmm::alloc_frame`. -/
def allocFrame : Run Vm (Option ℕ) := do
  let frame ← onPhys (Pmm.allocPages 0)
  match frame with
  | none => pure none
  | some phys => do
      note (.alloc (phys / frameSize))
      pure (some phys)

/-- `pmm::free_frame`. -/
def freeFrame (phys : ℕ) : Run Vm Unit := do
  onPhys (Pmm.freePages phys 0)
  note (.free (phys / frameSize))

/-- `tlb::flush`. -/
def flush (_virt : ℕ) : Run Vm Unit := note .flush

/-- `tlb::flush_all`. -/
def flushAll : Run Vm Unit := note .flush

/-! ## Flags -/

/-- `is_canonical`. -/
def isCanonical (virt : ℕ) : Bool := virt / 2 ^ 47 = 0 ∨ virt / 2 ^ 47 = 0x1ffff

/-- `pml4_parent`. -/
def pml4Parent : Word := flagP ||| flagRW ||| flagUS

/-- `pdpt_parent`. -/
def pdptParent : Word := flagP ||| flagRW ||| flagUS

/-- `pd_parent`. -/
def pdParent : Word := flagP ||| flagRW ||| flagUS

/-- `pdpt_leaf`. -/
def pdptLeaf (leaf : PTFlags) : Word :=
  X86.pdptTruncate (leaf.bits &&& leafMask) ||| flagP ||| flagPS

/-- `pd_leaf`. -/
def pdLeaf (leaf : PTFlags) : Word :=
  X86.pdTruncate (leaf.bits &&& leafMask) ||| flagP ||| flagPS

/-! ## Translation -/

/-- The result of `translate` for the leaf `entry` of a page of `size` bytes. -/
def translateLeaf (virt : ℕ) (entry : Word) (size : ℕ) : Run Vm (Option (ℕ × PTFlags)) := do
  let phys ← addU64 (X86.address entry) (virt &&& (size - 1))
  pure (some (phys, X86.ptTruncate entry))

/-- `translate` from the PT on. -/
def translatePt (virt hhdm pt : ℕ) : Run Vm (Option (ℕ × PTFlags)) := do
  let slot ← entrySlot pt (X86.ptIndex virt) hhdm
  let pte ← readEntry slot
  if X86.isPresent pte then translateLeaf virt pte (2 ^ 12) else pure none

/-- `translate` from the PD on. -/
def translatePd (virt hhdm pd : ℕ) : Run Vm (Option (ℕ × PTFlags)) := do
  let slot ← entrySlot pd (X86.pdIndex virt) hhdm
  let pde ← readEntry slot
  if X86.isPresent pde then
    if X86.isPage pde then translateLeaf virt pde (2 ^ 21)
    else translatePt virt hhdm (X86.address pde)
  else pure none

/-- `translate` from the PDPT on. -/
def translatePdpt (virt hhdm pdpt : ℕ) : Run Vm (Option (ℕ × PTFlags)) := do
  let slot ← entrySlot pdpt (X86.pdptIndex virt) hhdm
  let pdpte ← readEntry slot
  if X86.isPresent pdpte then
    if X86.isPage pdpte then translateLeaf virt pdpte (2 ^ 30)
    else translatePd virt hhdm (X86.address pdpte)
  else pure none

/-- `Vmm::translate`. -/
def translate (virt : ℕ) : Run Vm (Option (ℕ × PTFlags)) :=
  if isCanonical virt then do
    let hhdm ← Prog.gets (·.hhdmOffset)
    let top ← Prog.gets (·.topLevel)
    let slot ← entrySlot top (X86.pml4Index virt) hhdm
    let pml4e ← readEntry slot
    if X86.isPresent pml4e then translatePdpt virt hhdm (X86.address pml4e) else pure none
  else pure none

/-! ## Mapping -/

/-- `new` of the entry types. -/
def newEntry (phys : ℕ) (flags : Word) : Run σ Word :=
  match X86.entryNew phys flags with
  | none => Prog.fault (.panic "assertion failed")
  | some entry => pure entry

/-- The table a slot refers to, created if it is missing, and whether it was; `none` when
there is no frame for it. -/
def nextTable (slot : ℕ) (parent : Word) (hhdm : ℕ) : Run Vm (Option (ℕ × Bool)) := do
  let entry ← readEntry slot
  if X86.isPresent entry then pure (some (X86.address entry, false))
  else do
    let frame ← allocFrame
    match frame with
    | none => pure none
    | some frame => do
        onPhys (zeroFrame frame hhdm)
        noteMem
        let entry ← newEntry frame parent
        writeEntry slot entry
        pure (some (frame, true))

/-- Clear a slot and give back the table it referred to. -/
def dropTable (slot table : ℕ) : Run Vm Unit := do
  writeEntry slot 0
  freeFrame table

/-- The rollback of a table that `map` created. -/
def undoTable (new : Bool) (slot table : ℕ) : Run Vm Unit :=
  if new then dropTable slot table else pure ()

/-- The end of `map`: fill the slot if it is free. -/
def mapLeaf (virt slot phys : ℕ) (flags : Word) : Run Vm (Except MapError Unit) := do
  let entry ← readEntry slot
  if X86.isPresent entry then pure (.error .alreadyMapped)
  else do
    let leaf ← newEntry phys flags
    writeEntry slot leaf
    flush virt
    pure (.ok ())

/-- `map` from the PT on. -/
def mapPt (virt phys : ℕ) (flags : PTFlags) (hhdm pt : ℕ) : Run Vm (Except MapError Unit) := do
  let slot ← entrySlot pt (X86.ptIndex virt) hhdm
  mapLeaf virt slot phys (flags.bits ||| flagP)

/-- `map` from the PD on. -/
def mapPd (virt phys : ℕ) (flags : PTFlags) (size : PageSize) (hhdm pml4Slot pdpt : ℕ)
    (newPdpt : Bool) (pdptSlot pd : ℕ) (newPd : Bool) : Run Vm (Except MapError Unit) := do
  let slot ← entrySlot pd (X86.pdIndex virt) hhdm
  if size = .large then mapLeaf virt slot phys (pdLeaf flags)
  else do
    let pde ← readEntry slot
    if X86.isPresent pde && X86.isPage pde then pure (.error .alreadyMapped)
    else do
      let next ← nextTable slot pdParent hhdm
      match next with
      | none => do
          undoTable newPd pdptSlot pd
          undoTable newPdpt pml4Slot pdpt
          pure (.error .outOfMemory)
      | some (pt, _) => mapPt virt phys flags hhdm pt

/-- `map` from the PDPT on. -/
def mapPdpt (virt phys : ℕ) (flags : PTFlags) (size : PageSize) (hhdm pml4Slot pdpt : ℕ)
    (newPdpt : Bool) : Run Vm (Except MapError Unit) := do
  let slot ← entrySlot pdpt (X86.pdptIndex virt) hhdm
  if size = .huge then mapLeaf virt slot phys (pdptLeaf flags)
  else do
    let pdpte ← readEntry slot
    if X86.isPresent pdpte && X86.isPage pdpte then pure (.error .alreadyMapped)
    else do
      let next ← nextTable slot pdptParent hhdm
      match next with
      | none => do
          undoTable newPdpt pml4Slot pdpt
          pure (.error .outOfMemory)
      | some (pd, newPd) => mapPd virt phys flags size hhdm pml4Slot pdpt newPdpt slot pd newPd

/-- `Vmm::map`. -/
def map (virt phys : ℕ) (flags : PTFlags) (size : PageSize) : Run Vm (Except MapError Unit) :=
  if !isCanonical virt then pure (.error .nonCanonical)
  else if virt % size.bytes ≠ 0 ∨ phys % size.bytes ≠ 0 then pure (.error .misaligned)
  else do
    let hhdm ← Prog.gets (·.hhdmOffset)
    let top ← Prog.gets (·.topLevel)
    let slot ← entrySlot top (X86.pml4Index virt) hhdm
    let next ← nextTable slot pml4Parent hhdm
    match next with
    | none => pure (.error .outOfMemory)
    | some (pdpt, newPdpt) => mapPdpt virt phys flags size hhdm slot pdpt newPdpt

/-! ## Unmapping -/

/-- `is_empty`. -/
def isEmpty (phys hhdm : ℕ) : Run Phys Bool := do
  let table ← tableMut phys hhdm
  let direct ← Prog.gets (·.pmm.hhdmOffset)
  Prog.require (direct ≤ table) (.undefined "read outside the direct map")
  Prog.gets fun s => (List.range 512).all fun i =>
    s.mem (ptrFrame direct (table + 8 * i)) (ptrIndex direct (table + 8 * i)) &&& 1 == 0

/-- The end of the `reclaim` functions: give an empty table back. -/
def reclaim (parent table hhdm : ℕ) : Run Vm Unit := do
  let empty ← onPhys (isEmpty table hhdm)
  if empty then do
    dropTable parent table
    flushAll
  else pure ()

/-- `reclaim_pt`. -/
def reclaimPt (parent pt hhdm : ℕ) : Run Vm Unit := do
  let entry ← readEntry parent
  if X86.isPage entry then pure () else reclaim parent pt hhdm

/-- `reclaim_pd`. -/
def reclaimPd (parent pd hhdm : ℕ) : Run Vm Unit := do
  let entry ← readEntry parent
  if X86.isPage entry then pure () else reclaim parent pd hhdm

/-- `reclaim_pdpt`, which does not look at the parent. -/
def reclaimPdpt (parent pdpt hhdm : ℕ) : Run Vm Unit := reclaim parent pdpt hhdm

/-- `unmap` from the PT on. -/
def unmapPt (virt hhdm pml4Slot pdpt pdptSlot pd pdSlot pt : ℕ) :
    Run Vm (Except UnmapError Unit) := do
  let slot ← entrySlot pt (X86.ptIndex virt) hhdm
  let pte ← readEntry slot
  if !X86.isPresent pte then pure (.error .notMapped)
  else do
    writeEntry slot 0
    flush virt
    reclaimPt pdSlot pt hhdm
    reclaimPd pdptSlot pd hhdm
    reclaimPdpt pml4Slot pdpt hhdm
    pure (.ok ())

/-- `unmap` from the PD on. -/
def unmapPd (virt : ℕ) (size : PageSize) (hhdm pml4Slot pdpt pdptSlot pd : ℕ) :
    Run Vm (Except UnmapError Unit) := do
  let slot ← entrySlot pd (X86.pdIndex virt) hhdm
  let pde ← readEntry slot
  if size = .large then
    if !X86.isPresent pde || !X86.isPage pde then pure (.error .notMapped)
    else do
      writeEntry slot 0
      flush virt
      reclaimPd pdptSlot pd hhdm
      reclaimPdpt pml4Slot pdpt hhdm
      pure (.ok ())
  else if !X86.isPresent pde || X86.isPage pde then pure (.error .notMapped)
  else unmapPt virt hhdm pml4Slot pdpt pdptSlot pd slot (X86.address pde)

/-- `unmap` from the PDPT on. -/
def unmapPdpt (virt : ℕ) (size : PageSize) (hhdm pml4Slot pdpt : ℕ) :
    Run Vm (Except UnmapError Unit) := do
  let slot ← entrySlot pdpt (X86.pdptIndex virt) hhdm
  let pdpte ← readEntry slot
  if size = .huge then
    if !X86.isPresent pdpte || !X86.isPage pdpte then pure (.error .notMapped)
    else do
      writeEntry slot 0
      flush virt
      reclaimPdpt pml4Slot pdpt hhdm
      pure (.ok ())
  else if !X86.isPresent pdpte || X86.isPage pdpte then pure (.error .notMapped)
  else unmapPd virt size hhdm pml4Slot pdpt slot (X86.address pdpte)

/-- `Vmm::unmap`. -/
def unmap (virt : ℕ) (size : PageSize) : Run Vm (Except UnmapError Unit) :=
  if !isCanonical virt then pure (.error .nonCanonical)
  else if virt % size.bytes ≠ 0 then pure (.error .misaligned)
  else do
    let hhdm ← Prog.gets (·.hhdmOffset)
    let top ← Prog.gets (·.topLevel)
    let slot ← entrySlot top (X86.pml4Index virt) hhdm
    let pml4e ← readEntry slot
    if !X86.isPresent pml4e then pure (.error .notMapped)
    else unmapPdpt virt size hhdm slot (X86.address pml4e)

/-! ## Ranges -/

/-- The rollback of `map_range`: the pages before page `i`. -/
def unmapBefore (virt : ℕ) (size : PageSize) (i : ℕ) : Run Vm Unit :=
  Prog.forRange i fun j => do
    let back ← mulU64 j size.bytes
    let v ← addU64 virt back
    let _ ← unmap v size
    pure ()

/-- The loop of `map_range` with `n` pages to go from page `i` on. -/
def mapPages (virt phys : ℕ) (flags : PTFlags) (size : PageSize) :
    ℕ → ℕ → Run Vm (Except MapError Unit)
  | 0, _ => pure (.ok ())
  | n + 1, i => do
      let step ← mulU64 i size.bytes
      let v ← addU64 virt step
      let p ← addU64 phys step
      let r ← map v p flags size
      match r with
      | .error e => do
          unmapBefore virt size i
          pure (.error e)
      | .ok () => mapPages virt phys flags size n (i + 1)

/-- `Vmm::map_range`. -/
def mapRange (virt phys pages : ℕ) (flags : PTFlags) (size : PageSize) :
    Run Vm (Except MapError Unit) := mapPages virt phys flags size pages 0

/-- The loop of `unmap_range` with `n` pages to go from page `i` on. -/
def unmapPages (virt : ℕ) (size : PageSize) : ℕ → ℕ → Run Vm (Except UnmapError Unit)
  | 0, _ => pure (.ok ())
  | n + 1, i => do
      let step ← mulU64 i size.bytes
      let v ← addU64 virt step
      let r ← unmap v size
      match r with
      | .error e => pure (.error e)
      | .ok () => unmapPages virt size n (i + 1)

/-- `Vmm::unmap_range`. -/
def unmapRange (virt pages : ℕ) (size : PageSize) : Run Vm (Except UnmapError Unit) :=
  unmapPages virt size pages 0

/-! ## Cloning -/

/-- `is_leaf` of the cloning functions; the PML4 has level 3, a PT level 0. -/
def isLeaf (level : ℕ) (entry : Word) : Bool :=
  level = 0 ∨ level ≤ 2 ∧ entry &&& flagPS ≠ 0

/-- The loop of `free_cloned_table`, where `child` frees a table one level down. -/
def freeEntries (level : ℕ) (child : ℕ → Run Phys Unit) (table : ℕ) : Run Phys Unit :=
  Prog.forRange 512 fun i => do
    let entry ← readAt (table + 8 * i)
    if entry &&& 1 = 0 then pure ()
    else if isLeaf level entry then pure ()
    else child (entry &&& addrMask).toNat

/-- `free_cloned_table`; in a PT every present entry is a leaf. -/
def freeClonedTable (hhdm : ℕ) : ℕ → ℕ → Run Phys Unit
  | 0, phys => do
      let table ← addU64 phys hhdm
      freeEntries 0 (fun _ => pure ()) table
      Pmm.freePages phys 0
  | level + 1, phys => do
      let table ← addU64 phys hhdm
      freeEntries (level + 1) (freeClonedTable hhdm level) table
      Pmm.freePages phys 0

/-- The loop of `clone_table` with `n` entries to go from entry `i` on, where `child` clones
a table one level down; whether all of them could be cloned. -/
def cloneEntries (level : ℕ) (child : ℕ → Run Phys (Option ℕ)) (src dst : ℕ) :
    ℕ → ℕ → Run Phys Bool
  | 0, _ => pure true
  | n + 1, i => do
      let entry ← readAt (src + 8 * i)
      if entry &&& 1 = 0 then cloneEntries level child src dst n (i + 1)
      else if isLeaf level entry then do
        writeAt (dst + 8 * i) entry
        cloneEntries level child src dst n (i + 1)
      else do
        let newChild ← child (entry &&& addrMask).toNat
        match newChild with
        | none => pure false
        | some c => do
            writeAt (dst + 8 * i) ((BitVec.ofNat 64 c &&& addrMask) ||| (entry &&& ~~~addrMask))
            cloneEntries level child src dst n (i + 1)

/-- `clone_table` once the frame for the copy is found. -/
def cloneInto (hhdm level : ℕ) (child : ℕ → Run Phys (Option ℕ)) (srcPhys dstFrame : ℕ) :
    Run Phys (Option ℕ) := do
  zeroFrame dstFrame hhdm
  let src ← addU64 srcPhys hhdm
  let dst ← addU64 dstFrame hhdm
  let done ← cloneEntries level child src dst 512 0
  if done then pure (some dstFrame)
  else do
    freeClonedTable hhdm level dstFrame
    pure none

/-- `clone_table`. -/
def cloneTable (hhdm : ℕ) : ℕ → ℕ → Run Phys (Option ℕ)
  | 0, srcPhys => do
      let frame ← Pmm.allocPages 0
      match frame with
      | none => pure none
      | some dstFrame => cloneInto hhdm 0 (fun _ => pure none) srcPhys dstFrame
  | level + 1, srcPhys => do
      let frame ← Pmm.allocPages 0
      match frame with
      | none => pure none
      | some dstFrame => cloneInto hhdm (level + 1) (cloneTable hhdm level) srcPhys dstFrame

end Vmm

/-- Physical memory and the register that holds the address of the PML4. -/
structure Cpu where
  phys : Phys
  cr3 : Word

namespace Vmm

/-- `take_ownership`; `none` is `VmmError::OutOfFrames`. -/
def takeOwnership (hhdmOffset : ℕ) : Run Cpu (Option ℕ) := do
  let oldCr3 ← Prog.gets (·.cr3)
  let oldPml4 := (oldCr3 &&& addrMask).toNat
  let newPml4 ← Prog.zoom Cpu.phys (fun p s => { s with phys := p })
    (cloneTable hhdmOffset 3 oldPml4)
  match newPml4 with
  | none => pure none
  | some newPml4 => do
      let newCr3 := (BitVec.ofNat 64 newPml4 &&& addrMask) ||| (oldCr3 &&& ~~~addrMask)
      Prog.update fun s => { s with cr3 := newCr3 }
      pure (some newPml4)

end Vmm

end Prometheos
