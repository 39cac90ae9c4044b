import Mathlib.Logic.Function.Basic
import Prometheos.Lib.Interrupts

/-!
# Locks and the interrupt flag (`utils.rs`)

`IntLock`, `SpinLock` and `critical_section`, one machine step at a time. A code is a list of
calls still to be made; a call that takes several steps keeps its place and its local
variables (`LockAt`, `UnlockAt`, `EnterAt`). Besides its calls, a code has the guards of the
locks and sections it is in, the latest first. What the kernel does under the locks is
arbitrary: an operation changes the data, and may go on with further calls.

* An `IntLock` is taken by the compare-exchange; only then the interrupt flag is read, saved
  and cleared. `unlock` reads the saved flag, gives the lock back and sets the flag again if it
  was set.
* A `SpinLock` leaves the flag alone.
* `critical_section` reads and clears the flag, and sets it again if it was set.

Code outside locks and sections may set and clear the flag as it likes (`Nested`).
-/

namespace Prometheos.Sync

open Interrupts

/-! ## The locks -/

/-- `IntLock`. -/
structure IntLock where
  locked : Bool
  savedIf : Bool

/-- A lock: an `IntLock` or a `SpinLock`. -/
inductive Lock (ι ν : Type) where
  | int (i : ι)
  | spin (v : ν)
deriving DecidableEq

/-- What all code shares: the locks, and the data they protect. -/
structure Shared (ι ν μ : Type) where
  ints : ι → IntLock
  spins : ν → Bool
  data : μ

section

variable {ι ν μ : Type}

def Shared.setInt [DecidableEq ι] (m : Shared ι ν μ) (i : ι) (l : IntLock) : Shared ι ν μ :=
  { m with ints := Function.update m.ints i l }

def Shared.setSpin [DecidableEq ν] (m : Shared ι ν μ) (v : ν) (locked : Bool) :
    Shared ι ν μ :=
  { m with spins := Function.update m.spins v locked }

@[simp]
theorem Shared.setInt_self [DecidableEq ι] (m : Shared ι ν μ) (i : ι) (l : IntLock) :
    (m.setInt i l).ints i = l :=
  Function.update_self (β := fun _ => IntLock) i l m.ints

theorem Shared.setInt_of_ne [DecidableEq ι] (m : Shared ι ν μ) {i j : ι} (l : IntLock)
    (h : j ≠ i) : (m.setInt i l).ints j = m.ints j :=
  Function.update_of_ne (β := fun _ => IntLock) h l m.ints

@[simp]
theorem Shared.setSpin_self [DecidableEq ν] (m : Shared ι ν μ) (v : ν) (b : Bool) :
    (m.setSpin v b).spins v = b :=
  Function.update_self (β := fun _ => Bool) v b m.spins

theorem Shared.setSpin_of_ne [DecidableEq ν] (m : Shared ι ν μ) {v w : ν} (b : Bool)
    (h : w ≠ v) : (m.setSpin v b).spins w = m.spins w :=
  Function.update_of_ne (β := fun _ => Bool) h b m.spins

end

/-! ## Calls -/

/-- A place in `IntLock::lock`. -/
inductive LockAt where
  /-- `locked.compare_exchange(false, true, ..)`; `lock` tries until it succeeds. -/
  | exchange
  /-- `rflags::read().contains(RFlags::FLAGS_IF)`. -/
  | readIf
  /-- `*self.saved_if.get() = enabled`. -/
  | saveIf (enabled : Bool)
  /-- `irq::disable()`. -/
  | disable

/-- A place in `IntLock::unlock`. -/
inductive UnlockAt where
  /-- `let restore = *self.saved_if.get()`. -/
  | load
  /-- `self.locked.store(false, ..)`. -/
  | store (restore : Bool)
  /-- `if restore { irq::enable() }`. -/
  | enable (restore : Bool)

/-- A place in `critical_section` before the call of `f`. -/
inductive EnterAt where
  /-- `let enabled = rflags::read().contains(RFlags::FLAGS_IF)`. -/
  | readIf
  /-- `irq::disable()`. -/
  | disable (enabled : Bool)

/-- A call that code makes, at the place it has reached. -/
inductive Instr (ι ν α : Type) where
  /-- `IntLock::lock`. -/
  | lock (i : ι) (p : LockAt)
  /-- `IntLock::unlock`. -/
  | unlock (i : ι) (p : UnlockAt)
  /-- `SpinLock::lock`. -/
  | spinLock (v : ν)
  /-- `SpinLock::unlock`. -/
  | spinUnlock (v : ν)
  /-- `critical_section` up to the call of `f`. -/
  | enter (p : EnterAt)
  /-- `critical_section` after the call of `f`. -/
  | leave
  /-- `irq::enable()` or `irq::disable()`. -/
  | irq (enable : Bool)
  /-- Anything else that the kernel does. -/
  | op (a : α)

/-- A lock that code has taken, or a critical section that it is in (no lock), and the
interrupt flag it found: the `enabled` of a section, and a record of the flag for a lock. -/
structure Guard (ι ν : Type) where
  lock : Option (Lock ι ν)
  found : Bool

/-- A code: the calls it still makes, and its guards. -/
structure Frame (ι ν α : Type) where
  code : List (Instr ι ν α)
  guards : List (Guard ι ν)

/-- The locks that a code holds. -/
def Frame.held {ι ν α : Type} (f : Frame ι ν α) : List (Lock ι ν) :=
  f.guards.filterMap Guard.lock

section

variable {ι ν α μ κ : Type} [DecidableEq ι] [DecidableEq ν]

/-- A step of a code; `act a d more d'` says that the operation `a` may change the data from
`d` to `d'`, to go on with the calls `more`. -/
inductive Exec (act : α → μ → List (Instr ι ν α) → μ → Prop) :
    Frame ι ν α → Bool → Shared ι ν μ → Frame ι ν α → Bool → Shared ι ν μ → Prop
  | exchange {i c gs e m} : (m.ints i).locked = false →
      Exec act ⟨.lock i .exchange :: c, gs⟩ e m
        ⟨.lock i .readIf :: c, ⟨some (.int i), e⟩ :: gs⟩ e
        (m.setInt i { m.ints i with locked := true })
  | spin {i c gs e m} : (m.ints i).locked = true →
      Exec act ⟨.lock i .exchange :: c, gs⟩ e m ⟨.lock i .exchange :: c, gs⟩ e m
  | readIf {i c gs e m} :
      Exec act ⟨.lock i .readIf :: c, gs⟩ e m ⟨.lock i (.saveIf e) :: c, gs⟩ e m
  | saveIf {i b c gs e m} :
      Exec act ⟨.lock i (.saveIf b) :: c, gs⟩ e m ⟨.lock i .disable :: c, gs⟩ e
        (m.setInt i { m.ints i with savedIf := b })
  | disable {i c gs e m} : Exec act ⟨.lock i .disable :: c, gs⟩ e m ⟨c, gs⟩ false m
  | load {i c gs e m} :
      Exec act ⟨.unlock i .load :: c, gs⟩ e m
        ⟨.unlock i (.store (m.ints i).savedIf) :: c, gs⟩ e m
  | store {i b c g gs e m} :
      Exec act ⟨.unlock i (.store b) :: c, g :: gs⟩ e m ⟨.unlock i (.enable b) :: c, gs⟩ e
        (m.setInt i { m.ints i with locked := false })
  | enable {i b c gs e m} :
      Exec act ⟨.unlock i (.enable b) :: c, gs⟩ e m ⟨c, gs⟩ (b || e) m
  | spinLock {v c gs e m} : m.spins v = false →
      Exec act ⟨.spinLock v :: c, gs⟩ e m ⟨c, ⟨some (.spin v), e⟩ :: gs⟩ e (m.setSpin v true)
  | spinWait {v c gs e m} : m.spins v = true →
      Exec act ⟨.spinLock v :: c, gs⟩ e m ⟨.spinLock v :: c, gs⟩ e m
  | spinUnlock {v c g gs e m} :
      Exec act ⟨.spinUnlock v :: c, g :: gs⟩ e m ⟨c, gs⟩ e (m.setSpin v false)
  | enterRead {c gs e m} :
      Exec act ⟨.enter .readIf :: c, gs⟩ e m ⟨.enter (.disable e) :: c, gs⟩ e m
  | enterDisable {b c gs e m} :
      Exec act ⟨.enter (.disable b) :: c, gs⟩ e m ⟨c, ⟨none, b⟩ :: gs⟩ false m
  | leave {c g gs e m} : Exec act ⟨.leave :: c, g :: gs⟩ e m ⟨c, gs⟩ (g.found || e) m
  | irq {b c gs e m} : Exec act ⟨.irq b :: c, gs⟩ e m ⟨c, gs⟩ b m
  | op {a more c gs e m d} : act a m.data more d →
      Exec act ⟨.op a :: c, gs⟩ e m ⟨more ++ c, gs⟩ e { m with data := d }

/-- Code on a processor, with the codes that an interrupt may start. -/
def system (act : α → μ → List (Instr ι ν α) → μ → Prop) (handler : κ → Frame ι ν α → Prop) :
    System (Frame ι ν α) (Shared ι ν μ) κ where
  exec := Exec act
  handler := handler
  finished f := f.code = []

end

/-! ## Well nested code -/

variable {ι ν α μ : Type}

/-- Calls that give back the locks and leave the sections `gs`, in turn, and those they take
and enter themselves before; in between they leave the interrupt flag alone. -/
inductive Nested (act : α → μ → List (Instr ι ν α) → μ → Prop) :
    List (Option (Lock ι ν)) → List (Instr ι ν α) → Prop
  | nil : Nested act [] []
  | lock {i c gs} : Nested act (some (.int i) :: gs) c → Nested act gs (.lock i .exchange :: c)
  | unlock {i c gs} : Nested act gs c → Nested act (some (.int i) :: gs) (.unlock i .load :: c)
  | spinLock {v c gs} : Nested act (some (.spin v) :: gs) c → Nested act gs (.spinLock v :: c)
  | spinUnlock {v c gs} : Nested act gs c → Nested act (some (.spin v) :: gs) (.spinUnlock v :: c)
  | enter {c gs} : Nested act (none :: gs) c → Nested act gs (.enter .readIf :: c)
  | leave {c gs} : Nested act gs c → Nested act (none :: gs) (.leave :: c)
  | irq {b c} : Nested act [] c → Nested act [] (.irq b :: c)
  | op {a c gs} : (∀ d more d', act a d more d' → Nested act gs (more ++ c)) →
      Nested act gs (.op a :: c)

section

variable {act : α → μ → List (Instr ι ν α) → μ → Prop} {gs : List (Option (Lock ι ν))}
  {c : List (Instr ι ν α)}

theorem Nested.lock_inv {i : ι} {p : LockAt} (h : Nested act gs (.lock i p :: c)) :
    p = .exchange ∧ Nested act (some (.int i) :: gs) c := by
  cases h with
  | lock h => exact ⟨rfl, h⟩

theorem Nested.unlock_inv {i : ι} {p : UnlockAt} (h : Nested act gs (.unlock i p :: c)) :
    p = .load ∧ ∃ gs', gs = some (.int i) :: gs' ∧ Nested act gs' c := by
  cases h with
  | unlock h => exact ⟨rfl, _, rfl, h⟩

theorem Nested.spinLock_inv {v : ν} (h : Nested act gs (.spinLock v :: c)) :
    Nested act (some (.spin v) :: gs) c := by
  cases h with
  | spinLock h => exact h

theorem Nested.spinUnlock_inv {v : ν} (h : Nested act gs (.spinUnlock v :: c)) :
    ∃ gs', gs = some (.spin v) :: gs' ∧ Nested act gs' c := by
  cases h with
  | spinUnlock h => exact ⟨_, rfl, h⟩

theorem Nested.enter_inv {p : EnterAt} (h : Nested act gs (.enter p :: c)) :
    p = .readIf ∧ Nested act (none :: gs) c := by
  cases h with
  | enter h => exact ⟨rfl, h⟩

theorem Nested.leave_inv (h : Nested act gs (.leave :: c)) :
    ∃ gs', gs = none :: gs' ∧ Nested act gs' c := by
  cases h with
  | leave h => exact ⟨_, rfl, h⟩

theorem Nested.irq_inv {b : Bool} (h : Nested act gs (.irq b :: c)) :
    gs = [] ∧ Nested act [] c := by
  cases h with
  | irq h => exact ⟨rfl, h⟩

theorem Nested.op_inv {a : α} (h : Nested act gs (.op a :: c)) {d d' : μ}
    {more : List (Instr ι ν α)} (hact : act a d more d') : Nested act gs (more ++ c) := by
  cases h with
  | op h => exact h d more d' hact

theorem Nested.nil_inv (h : Nested act gs []) : gs = [] := by
  cases h with
  | nil => rfl

end

end Prometheos.Sync
