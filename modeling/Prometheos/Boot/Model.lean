import Prometheos.Pmm.Model

/-!
# Feeding the allocator (`mm/mod.rs`)

Memory reaches the physical memory manager in two places: `mm::init` builds it from
the memory map and seeds it with the usable entries, and `reclaim_bootloader` adds the
entries that the bootloader no longer needs (`Boot.Memmap`). `mm::init` writes to no memory in
which the bootloader keeps the map, and takes the entries as values.

The order bytes live in the first usable entry that is large enough. The allocator's
model keeps them apart from memory, so of that entry only the frame numbers matter
here: they are left out of the seeding.
-/

namespace Prometheos

/-- The type of a memory map entry, as far as the kernel tells them apart. -/
inductive EntryKind where
  | usable
  | bootloaderReclaimable
  | other (type : ℕ)
deriving DecidableEq, Repr

/-- A memory map entry. -/
structure Entry where
  base : ℕ
  length : ℕ
  kind : EntryKind
deriving DecidableEq, Repr

namespace Boot

variable {σ : Type}

/-- `align_up`. -/
def alignUp (addr align : ℕ) : Run σ ℕ := do
  Prog.require (∃ k < 64, align = 2 ^ k) (.panic "assertion failed: align.is_power_of_two()")
  let sum ← addU64 addr align
  let last ← subU64 sum 1
  pure (last &&& notU64 (align - 1))

/-- `align_down`. -/
def alignDown (addr align : ℕ) : Run σ ℕ := do
  Prog.require (∃ k < 64, align = 2 ^ k) (.panic "assertion failed: align.is_power_of_two()")
  pure (addr &&& notU64 (align - 1))

theorem alignUp_page {a : ℕ} (h : a + 4096 < 2 ^ 64) (s : σ) :
    (alignUp a 4096 : Run σ ℕ).run s = .ok ((a + 4096 - 1) / 4096 * 4096) s := by
  have hmask : (a + 4096 - 1) &&& notU64 (4096 - 1) = (a + 4096 - 1) / 4096 * 4096 :=
    and_notU64_low (k := 12) (by omega)
  unfold alignUp
  rw [Prog.require_bind ⟨12, by decide, rfl⟩, Prog.bind_of_ok (addU64_of_lt h s),
    Prog.bind_of_ok (subU64_of_le (by omega) s), hmask]
  rfl

theorem alignUp_lt {a n r : ℕ} {s s' : σ} (h : (alignUp a n : Run σ ℕ).run s = .ok r s') :
    a + n < 2 ^ 64 := by
  unfold alignUp at h
  rcases Prog.bind_ok_iff.1 h with ⟨_, t, -, hsum⟩
  rcases Prog.bind_ok_iff.1 hsum with ⟨_, _, hadd, -⟩
  exact (addU64_ok_iff.1 hadd).1

theorem alignDown_page {a : ℕ} (h : a < 2 ^ 64) (s : σ) :
    (alignDown a 4096 : Run σ ℕ).run s = .ok (a / 4096 * 4096) s := by
  have hmask : a &&& notU64 (4096 - 1) = a / 4096 * 4096 := and_notU64_low (k := 12) h
  unfold alignDown
  rw [Prog.require_bind ⟨12, by decide, rfl⟩, hmask]
  rfl

/-- The loop of `init` that looks for the highest physical address. -/
def highestEnd : List Entry → ℕ → Run σ ℕ
  | [], highest => pure highest
  | entry :: memmap, highest => do
      let last ← addU64 entry.base entry.length
      highestEnd memmap (if last > highest then last else highest)

/-- The base of the first usable entry with room for the order bytes; `u64::MAX` if there
is none. -/
def orderPhys (memmap : List Entry) (orderBytes : ℕ) : ℕ :=
  match memmap.find? fun e => e.kind = .usable ∧ e.length ≥ orderBytes with
  | some entry => entry.base
  | none => 2 ^ 64 - 1

/-- The body of the inner seeding loop: one piece `s..e` of a usable entry. -/
def seedPiece (s e : ℕ) : Run Phys Unit :=
  if e ≤ s then pure ()
  else do
    let s := if s = 0 then 1 else s
    if e > s then Pmm.addRange s (e - s) else pure ()

/-- The body of the seeding loop. -/
def seedEntry (orderFirst orderLast : ℕ) (entry : Entry) : Run Phys Unit :=
  if entry.kind ≠ .usable then pure ()
  else do
    let entryFirst := entry.base / 2 ^ Pmm.frameShift
    let last ← addU64 entry.base entry.length
    let entryLast := last / 2 ^ Pmm.frameShift
    seedPiece entryFirst (min entryLast orderFirst)
    seedPiece (max entryFirst orderLast) entryLast

/-- The seeding loop of `init`. -/
def seedEntries (orderFirst orderLast : ℕ) : List Entry → Run Phys Unit
  | [] => pure ()
  | entry :: memmap => do
      seedEntry orderFirst orderLast entry
      seedEntries orderFirst orderLast memmap

/-- Run `x` on an allocator that is still a local variable of `init`. -/
def onLocal (pmm : Phys) (x : Run Phys Unit) : Run Mem Phys :=
  ⟨fun _ =>
    match x.run pmm with
    | .ok _ s => .ok s s.mem
    | .stop e s => .stop e s.mem⟩

/-- `mm::init` up to `pmm::install`. The bytes found at `order_phys` do not matter:
`Pmm::new` overwrites them. -/
def init (memmap : List Entry) (hhdmOffset : ℕ) : Run Mem Phys := do
  let highest ← highestEnd memmap 0
  let top ← alignUp highest frameSize
  let totalFrames := top / 2 ^ Pmm.frameShift
  let orderBytes ← alignUp totalFrames frameSize
  let order := orderPhys memmap orderBytes
  Prog.require (order ≠ 2 ^ 64 - 1) (.panic "no usable region large enough for frame_order")
  let _ ← addU64 order hhdmOffset
  let pmm ← Pmm.new (List.replicate totalFrames 0) totalFrames hhdmOffset
  let orderFirst := order / 2 ^ Pmm.frameShift
  let orderLast ← addU64 orderFirst (orderBytes / 2 ^ Pmm.frameShift)
  onLocal pmm (seedEntries orderFirst orderLast memmap)

end Boot

end Prometheos
