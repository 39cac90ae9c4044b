import Prometheos.Machine

/-!
# The physical memory manager (`mm/pmm.rs`)

A buddy allocator. `free_lists[o]` heads a doubly linked list of the free blocks
of order `o`; the links of a block (`FreeBlock`) are stored in the first two words
of its first frame. `frame_order[f]` is the order of the free block that frame
`f` lies in, or `ORDER_NONE`. `Pmm::new` is given `frame_order` as a slice of its own, which
nothing else reads or writes; so its bytes are a field of the allocator, and not part of `mem`.

The functions below follow the source one by one. Loops are recursions on the
number of turns left (`setBlockOrder`, `splitDown`, `allocSearch`, `coalesce`) or
on the remaining count (`addRange`). The lock around the allocator does not
appear: a call runs with it held.
-/

namespace Prometheos

/-- The allocator's fields. -/
structure Pmm where
  freeLists : List (Option ℕ)
  frameOrder : List ℕ
  totalFrames : ℕ
  freeFrames : ℕ
  hhdmOffset : ℕ

/-- The allocator together with the memory it manages. -/
structure Phys where
  pmm : Pmm
  mem : Mem

namespace Pmm

/-- `FRAME_SHIFT`. -/
def frameShift : ℕ := 12

/-- `MAX_ORDER`. -/
def maxOrder : ℕ := 11

/-- `NUM_ORDERS`. -/
def numOrders : ℕ := maxOrder + 1

/-- `ORDER_NONE`. -/
def orderNone : ℕ := 0xFF

/-- A memory access made by the allocator. -/
def onMem {α : Type} (x : Run Mem α) : Run Phys α :=
  Prog.zoom Phys.mem (fun m s => { s with mem := m }) x

/-- `frame_index`. -/
def frameIndex (addr : ℕ) : Run Phys ℕ := do
  Prog.require (addr % frameSize = 0)
    (.panic s!"physical address is not frame-aligned: {hex addr}")
  pure (addr / 2 ^ frameShift)

/-- `Pmm::new`; the slice is filled with `ORDER_NONE`. -/
def new (frameOrder : List ℕ) (totalFrames hhdmOffset : ℕ) : Run Mem Phys := do
  Prog.require (totalFrames = frameOrder.length)
    (.panic "frame_order metadata length must match total frame count")
  Prog.gets fun m =>
    { pmm := { freeLists := List.replicate numOrders none
               frameOrder := List.replicate frameOrder.length orderNone
               totalFrames := totalFrames
               freeFrames := 0
               hhdmOffset := hhdmOffset }
      mem := m }

/-- `Pmm::frame_to_block`. -/
def frameToBlock (frame : ℕ) : Run Phys ℕ := do
  let hhdm ← Prog.gets (·.pmm.hhdmOffset)
  let virt ← addU64 (shlU64 frame frameShift) hhdm
  newUnchecked virt

/-- `Pmm::block_to_frame`. -/
def blockToFrame (block : ℕ) : Run Phys ℕ := do
  let hhdm ← Prog.gets (·.pmm.hhdmOffset)
  let off ← subU64 block hhdm
  pure (off / 2 ^ frameShift)

/-! ## The links of a free block

`FreeBlock { prev, next }` occupies the first two words of the frame. -/

/-- `(*block).prev`. -/
def readPrev (block : ℕ) : Run Phys (Option ℕ) := do
  let hhdm ← Prog.gets (·.pmm.hhdmOffset)
  let w ← onMem (load hhdm block)
  pure (wordPtr w)

/-- `(*block).next`. -/
def readNext (block : ℕ) : Run Phys (Option ℕ) := do
  let hhdm ← Prog.gets (·.pmm.hhdmOffset)
  let w ← onMem (load hhdm (block + 8))
  pure (wordPtr w)

/-- `(*block).prev = p`. -/
def writePrev (block : ℕ) (p : Option ℕ) : Run Phys Unit := do
  let hhdm ← Prog.gets (·.pmm.hhdmOffset)
  onMem (store hhdm block (ptrWord p))

/-- `(*block).next = p`. -/
def writeNext (block : ℕ) (p : Option ℕ) : Run Phys Unit := do
  let hhdm ← Prog.gets (·.pmm.hhdmOffset)
  onMem (store hhdm (block + 8) (ptrWord p))

/-! ## Blocks and lists -/

/-- `self.frame_order[i] = value`. -/
def setFrameOrder (i value : ℕ) : Run Phys Unit := do
  let fo ← Prog.gets (·.pmm.frameOrder)
  let fo' ← setIndex fo i value
  Prog.update fun s => { s with pmm := { s.pmm with frameOrder := fo' } }

/-- `self.free_lists[order] = head`. -/
def setFreeList (order : ℕ) (head : Option ℕ) : Run Phys Unit := do
  let fl ← Prog.gets (·.pmm.freeLists)
  let fl' ← setIndex fl order head
  Prog.update fun s => { s with pmm := { s.pmm with freeLists := fl' } }

/-- `Pmm::set_block_order`. -/
def setBlockOrder (frame order value : ℕ) : Run Phys Unit :=
  Prog.forRange (2 ^ order) fun i => do
    let j ← addU64 frame i
    setFrameOrder j value

/-- `Pmm::assert_block_unused`. -/
def assertBlockUnused (frame order : ℕ) : Run Phys Unit :=
  Prog.forRange (2 ^ order) fun i => do
    let j ← addU64 frame i
    let fo ← Prog.gets (·.pmm.frameOrder)
    let v ← index fo j
    Prog.require (v = orderNone)
      (.panic s!"free overlaps an existing free block at frame {j}")

/-- `if let Some(n) = node { (*n).prev = p }`. -/
def relinkPrev (node p : Option ℕ) : Run Phys Unit :=
  match node with
  | some n => writePrev n p
  | none => pure ()

/-- `match node { Some(p) => (*p).next = n, None => self.free_lists[order] = n }`. -/
def relinkNext (order : ℕ) (node n : Option ℕ) : Run Phys Unit :=
  match node with
  | some p => writeNext p n
  | none => setFreeList order n

/-- `debug_assert!` and `debug_assert_eq!`. -/
def debugAssert (c : Prop) [Decidable c] : Run Phys Unit :=
  Prog.require c (.panic "assertion failed")

/-- `Pmm::list_push`. -/
def listPush (frame order : ℕ) : Run Phys Unit := do
  let total ← Prog.gets (·.pmm.totalFrames)
  debugAssert (frame < total)
  let last ← addU64 frame (2 ^ order)
  debugAssert (last ≤ total)
  assertBlockUnused frame order
  let block ← frameToBlock frame
  let lists ← Prog.gets (·.pmm.freeLists)
  let head ← index lists order
  writePrev block none
  writeNext block head
  relinkPrev head (some block)
  setFreeList order (some block)
  setBlockOrder frame order (order % 2 ^ 8)

/-- `Pmm::list_remove`. -/
def listRemove (frame order : ℕ) : Run Phys Unit := do
  let total ← Prog.gets (·.pmm.totalFrames)
  debugAssert (frame < total)
  let fo ← Prog.gets (·.pmm.frameOrder)
  let v ← index fo frame
  debugAssert (v = order % 2 ^ 8)
  let block ← frameToBlock frame
  let prev ← readPrev block
  let next ← readNext block
  relinkNext order prev next
  relinkPrev next prev
  setBlockOrder frame order orderNone

/-! ## Allocation -/

/-- The split loop of `alloc_pages`, with `k` halvings left: push the upper half
of the block of order `order + k` and go on with the lower one. -/
def splitDown (frame order : ℕ) : ℕ → Run Phys Unit
  | 0 => pure ()
  | k + 1 => do
      let o := order + k
      let buddy ← addU64 frame (2 ^ o)
      listPush buddy o
      splitDown frame order k

/-- The end of `alloc_pages`, once the block `head` of order `current` is found. -/
def takeBlock (order current head : ℕ) : Run Phys ℕ := do
  let frame ← blockToFrame head
  listRemove frame current
  splitDown frame order (current - order)
  let free ← Prog.gets (·.pmm.freeFrames)
  let free' ← subU64 free (2 ^ order)
  Prog.update fun s => { s with pmm := { s.pmm with freeFrames := free' } }
  pure (shlU64 frame frameShift)

/-- The search loop of `alloc_pages`, with `n` orders left to try. -/
def allocSearch (order : ℕ) : ℕ → Run Phys (Option ℕ)
  | 0 => pure none
  | n + 1 => do
      let current := maxOrder - n
      let lists ← Prog.gets (·.pmm.freeLists)
      let head ← index lists current
      match head with
      | some head => do
          let addr ← takeBlock order current head
          pure (some addr)
      | none => allocSearch order n

/-- `Pmm::alloc_pages`. -/
def allocPages (order : ℕ) : Run Phys (Option ℕ) := do
  Prog.require (order ≤ maxOrder) (.panic s!"order out of range: {order}")
  allocSearch order (maxOrder + 1 - order)

/-! ## Freeing -/

/-- The coalescing loop of `free_pages`, with `n` orders below `MAX_ORDER` left:
the block that is to be pushed in the end. -/
def coalesce : ℕ → ℕ → Run Phys (ℕ × ℕ)
  | 0, frame => pure (frame, maxOrder)
  | n + 1, frame => do
      let o := maxOrder - (n + 1)
      let buddy := frame ^^^ 2 ^ o
      let total ← Prog.gets (·.pmm.totalFrames)
      if total ≤ buddy then pure (frame, o)
      else do
        let fo ← Prog.gets (·.pmm.frameOrder)
        let v ← index fo buddy
        if v ≠ o % 2 ^ 8 then pure (frame, o)
        else do
          listRemove buddy o
          coalesce n (frame &&& notU64 (2 ^ o))

/-- The checks at the start of `free_pages`; the frame number is their result. -/
def freeChecks (addr order : ℕ) : Run Phys ℕ := do
  Prog.require (order ≤ maxOrder) (.panic s!"order out of range: {order}")
  let frame ← frameIndex addr
  let total ← Prog.gets (·.pmm.totalFrames)
  let last ← addU64 frame (2 ^ order)
  Prog.require (last ≤ total) (.panic s!"free out of range: {hex addr}, order {order}")
  Prog.require (frame % 2 ^ order = 0)
    (.panic s!"free_pages address {hex addr} not aligned to order {order}")
  let fo ← Prog.gets (·.pmm.frameOrder)
  let v ← index fo frame
  Prog.require (v = orderNone) (.panic s!"double free at frame {frame}")
  assertBlockUnused frame order
  pure frame

/-- `Pmm::free_pages`. -/
def freePages (addr order : ℕ) : Run Phys Unit := do
  let frame ← freeChecks addr order
  let free ← Prog.gets (·.pmm.freeFrames)
  let free' ← addU64 free (2 ^ order)
  Prog.update fun s => { s with pmm := { s.pmm with freeFrames := free' } }
  let b ← coalesce (maxOrder - order) frame
  listPush b.1 b.2

/-- The order of the next block of `add_range`. -/
def rangeOrder (start count : ℕ) : ℕ :=
  let alignOrder := if start = 0 then maxOrder else trailingZeros start
  let sizeOrder := 63 - leadingZeros count
  min (min alignOrder sizeOrder) maxOrder

/-- `Pmm::add_range`. -/
def addRange (start count : ℕ) : Run Phys Unit :=
  if _h : count = 0 then pure ()
  else do
    let order := rangeOrder start count
    freePages (shlU64 start frameShift) order
    let start' ← addU64 start (2 ^ order)
    let _ ← subU64 count (2 ^ order)
    addRange start' (count - 2 ^ order)
termination_by count
decreasing_by
  have := Nat.two_pow_pos (rangeOrder start count)
  omega

/-! ## The module's public functions -/

/-- `alloc_frame`. -/
def allocFrame : Run Phys (Option ℕ) := allocPages 0

/-- `free_frame`. -/
def freeFrame (addr : ℕ) : Run Phys Unit := freePages addr 0

end Pmm

end Prometheos
