import Prometheos.Pmm.Model

/-!
# The kernel heap (`mm/heap.rs`)

Small requests are served from slabs: one frame that starts with a header
(`Slab { next, free }`) and holds objects of one of seven sizes. Each bucket has an
active slab and a list of partial ones; the free objects of a slab are linked through
their first word. Large requests go to the physical memory manager.

`refills` is not part of the code: it records the calls of `refill`, the bucket and the
frame that was found, the last one first.
-/

namespace Prometheos

/-- `Layout`: the alignment is a power of two. -/
structure Layout where
  size : ℕ
  align : ℕ
  align_pow : ∃ k, align = 2 ^ k
deriving DecidableEq

/-- The heap over physical memory, with `HHDM_OFFSET`. -/
structure Heap where
  phys : Phys
  hhdmOffset : ℕ
  active : List (Option ℕ)
  partials : List (Option ℕ)
  refills : List (ℕ × Option ℕ)

namespace Heap

/-- `MIN_BUCKET_SHIFT`. -/
def minBucketShift : ℕ := 4

/-- `MAX_BUCKET_SHIFT`. -/
def maxBucketShift : ℕ := 10

/-- `NUM_BUCKETS`. -/
def numBuckets : ℕ := maxBucketShift - minBucketShift + 1

/-- `OBJ_SIZE`. -/
def objSizes : List ℕ := (List.range numBuckets).map fun i => 2 ^ (minBucketShift + i)

/-- The size of the header `Slab`. -/
def headerSize : ℕ := 16

/-! ## Memory -/

/-- A call of the physical memory manager. -/
def onPmm {α : Type} (x : Run Phys α) : Run Heap α :=
  Prog.zoom Heap.phys (fun p h => { h with phys := p }) x

/-- Read a link. -/
def readLink (p : ℕ) : Run Heap (Option ℕ) := do
  let hhdm ← Prog.gets (·.hhdmOffset)
  let w ← onPmm (Pmm.onMem (load hhdm p))
  pure (wordPtr w)

/-- Write a link. -/
def writeLink (p : ℕ) (link : Option ℕ) : Run Heap Unit := do
  let hhdm ← Prog.gets (·.hhdmOffset)
  onPmm (Pmm.onMem (store hhdm p (ptrWord link)))

/-- `(*obj).next`, the first word of a free object. -/
def readNext (obj : ℕ) : Run Heap (Option ℕ) := readLink obj

/-- `(*obj).next = next`. -/
def writeNext (obj : ℕ) (next : Option ℕ) : Run Heap Unit := writeLink obj next

/-- `(*slab).next`, the first word of the header. -/
def readSlabNext (slab : ℕ) : Run Heap (Option ℕ) := readLink slab

/-- `(*slab).next = next`. -/
def writeSlabNext (slab : ℕ) (next : Option ℕ) : Run Heap Unit := writeLink slab next

/-- `(*slab).free`, the second word of the header. -/
def readFree (slab : ℕ) : Run Heap (Option ℕ) := readLink (slab + 8)

/-- `(*slab).free = free`. -/
def writeFree (slab : ℕ) (free : Option ℕ) : Run Heap Unit := writeLink (slab + 8) free

/-- `inner.active[bucket] = slab`. -/
def setActive (bucket : ℕ) (slab : Option ℕ) : Run Heap Unit := do
  let active ← Prog.gets (·.active)
  let active' ← setIndex active bucket slab
  Prog.update fun h => { h with active := active' }

/-- `inner.partial[bucket] = slab`. -/
def setPartial (bucket : ℕ) (slab : Option ℕ) : Run Heap Unit := do
  let partials ← Prog.gets (·.partials)
  let partials' ← setIndex partials bucket slab
  Prog.update fun h => { h with partials := partials' }

/-- `phys_to_virt`. -/
def physToVirt (p : ℕ) : Run Heap ℕ := do
  let hhdm ← Prog.gets (·.hhdmOffset)
  addU64 p hhdm

/-- `virt_to_phys`. -/
def virtToPhys (v : ℕ) : Run Heap ℕ := do
  let hhdm ← Prog.gets (·.hhdmOffset)
  subU64 v hhdm

/-! ## Size classes -/

/-- `n.next_power_of_two()`; the callers' arguments are at most `2 ^ 52`, far from the
overflow. -/
def nextPowerOfTwo (n : ℕ) : ℕ := if n ≤ 1 then 1 else 2 ^ (Nat.log2 (n - 1) + 1)

/-- `a.next_multiple_of(b)`. -/
def nextMultipleOf (a b : ℕ) : ℕ := (a + b - 1) / b * b

/-- `bucket_for`. -/
def bucketFor (layout : Layout) : Option ℕ :=
  let need := max (max layout.size layout.align) (2 ^ minBucketShift)
  if need > 2 ^ maxBucketShift then none
  else some (trailingZeros (nextPowerOfTwo need) - minBucketShift)

/-- `order_for_large`. -/
def orderForLarge (layout : Layout) : Option ℕ :=
  let need := max layout.size layout.align
  let frames := nextPowerOfTwo ((need + frameSize - 1) / frameSize)
  let order := trailingZeros frames
  if order > Pmm.maxOrder then none else some order

/-! ## Slabs -/

/-- The loop of `refill`, with `n` objects left to thread in front of `head`. -/
def threadObjs (first objSize : ℕ) : ℕ → Option ℕ → Run Heap (Option ℕ)
  | 0, head => pure head
  | n + 1, head => do
      let obj := first + n * objSize
      writeNext obj head
      let obj ← newUnchecked obj
      threadObjs first objSize n (some obj)

/-- `refill` once a frame is found: the new slab. -/
def makeSlab (objSize phys : ℕ) : Run Heap ℕ := do
  let base ← physToVirt phys
  let dataOff := nextMultipleOf headerSize objSize
  let count := (frameSize - dataOff) / objSize
  Prog.require (count > 0) (.panic "assertion failed: count > 0")
  let head ← threadObjs (base + dataOff) objSize count none
  writeSlabNext base none
  writeFree base head
  newUnchecked base

/-- `refill`. -/
def refill (bucket : ℕ) : Run Heap (Option ℕ) := do
  let objSize ← index objSizes bucket
  let phys ← onPmm (Pmm.allocPages 0)
  Prog.update fun h => { h with refills := (bucket, phys.map (· / frameSize)) :: h.refills }
  match phys with
  | none => pure none
  | some phys => do
      let slab ← makeSlab objSize phys
      pure (some slab)

/-- `HeapInner::take_partial`. -/
def takePartial (bucket : ℕ) : Run Heap (Option ℕ) := do
  let partials ← Prog.gets (·.partials)
  let head ← index partials bucket
  match head with
  | none => pure none
  | some slab => do
      let next ← readSlabNext slab
      setPartial bucket next
      writeSlabNext slab none
      pure (some slab)

/-- `Option::unwrap_unchecked`. -/
def unwrapUnchecked (a : Option ℕ) : Run Heap ℕ :=
  match a with
  | some a => pure a
  | none => Prog.fault (.undefined "unwrap_unchecked on None")

/-- Take the first free object of a slab that has one. -/
def popObj (slab obj : ℕ) : Run Heap ℕ := do
  let next ← readNext obj
  writeFree slab next
  pure obj

/-- `inner.take_partial(bucket)`, else `refill(bucket)`. -/
def nextSlab (bucket : ℕ) : Run Heap (Option ℕ) := do
  let taken ← takePartial bucket
  match taken with
  | some slab => pure (some slab)
  | none => refill bucket

/-- `Heap::alloc_small` when the active slab has no free object. -/
def allocSlow (bucket : ℕ) : Run Heap ℕ := do
  setActive bucket none
  let slab ← nextSlab bucket
  match slab with
  | some slab => do
      setActive bucket (some slab)
      let free ← readFree slab
      let obj ← unwrapUnchecked free
      popObj slab obj
  | none => pure 0

/-- `Heap::alloc_small`. -/
def allocSmall (bucket : ℕ) : Run Heap ℕ := do
  let active ← Prog.gets (·.active)
  let slab ← index active bucket
  match slab with
  | some slab => do
      let free ← readFree slab
      match free with
      | some obj => popObj slab obj
      | none => allocSlow bucket
  | none => allocSlow bucket

/-- Link a slab into `inner.partial[bucket]`. -/
def pushPartial (bucket slab : ℕ) : Run Heap Unit := do
  let partials ← Prog.gets (·.partials)
  let head ← index partials bucket
  writeSlabNext slab head
  let slab ← newUnchecked slab
  setPartial bucket (some slab)

/-- `Heap::dealloc_small`. -/
def deallocSmall (bucket slab ptr : ℕ) : Run Heap Unit := do
  let free ← readFree slab
  writeNext ptr free
  let obj ← newUnchecked ptr
  writeFree slab (some obj)
  let active ← Prog.gets (·.active)
  let current ← index active bucket
  if current = some slab then pure ()
  else if free = none then pushPartial bucket slab
  else pure ()

/-! ## Large requests -/

/-- `alloc_large`. -/
def allocLarge (layout : Layout) : Run Heap ℕ :=
  match orderForLarge layout with
  | none => pure 0
  | some order => do
      let phys ← onPmm (Pmm.allocPages order)
      match phys with
      | some phys => physToVirt phys
      | none => pure 0

/-- `dealloc_large`. -/
def deallocLarge (ptr : ℕ) (layout : Layout) : Run Heap Unit :=
  match orderForLarge layout with
  | none => pure ()
  | some order => do
      let phys ← virtToPhys ptr
      onPmm (Pmm.freePages phys order)

/-! ## The allocator's interface -/

/-- `GlobalAlloc::alloc`; `0` is the null pointer. -/
def alloc (layout : Layout) : Run Heap ℕ :=
  match bucketFor layout with
  | none => allocLarge layout
  | some bucket => allocSmall bucket

/-- `GlobalAlloc::dealloc`. -/
def dealloc (ptr : ℕ) (layout : Layout) : Run Heap Unit :=
  if ptr = 0 then pure ()
  else
    match bucketFor layout with
    | none => deallocLarge ptr layout
    | some bucket => deallocSmall bucket (ptr &&& notU64 (frameSize - 1)) ptr

/-- The layout `uacpi_kernel_alloc` and `uacpi_kernel_free` use. -/
def uacpiLayout (size : ℕ) : Layout := ⟨max size 1, 16, 4, rfl⟩

/-- `uacpi_kernel_alloc`. -/
def uacpiKernelAlloc (size : ℕ) : Run Heap ℕ := alloc (uacpiLayout size)

/-- `uacpi_kernel_free`. -/
def uacpiKernelFree (mem sizeHint : ℕ) : Run Heap Unit :=
  if mem = 0 then pure () else dealloc mem (uacpiLayout sizeHint)

end Heap

end Prometheos
