import Mathlib.Data.Set.Insert
import Prometheos.Sync.Preemption

/-!
# Sections that keep interrupts off (`utils.rs`, `acpi/uacpi.rs`)

The kernel turns interrupts off in three ways, which save the interrupt flag in three places:
`critical_section` in a local variable, an `IntLock` in the lock, and
`uacpi_kernel_lock_spinlock` in the value that the caller gives back to
`uacpi_kernel_unlock_spinlock`. Here they are run one after the other on a processor on which
nothing else runs. The flag after each machine step is kept in a log (`Processor.points`), so
that one can speak of every point of a program.

A program (`Code`) nests the three in any way and may go on as the data tells it to. While it
takes no lock that it holds (`Code.Avoids`), it ends, the flag is off at every point inside a
section, and each section leaves the flag as it found it (`sections_restore_flag`).
-/

namespace Prometheos.Sync

variable {ι ν μ α : Type}

/-! ## The processor -/

/-- A processor: the interrupt flag, the locks with the data, and the flag after each step. -/
structure Processor (ι ν μ : Type) where
  enabled : Bool
  mem : Shared ι ν μ
  points : List Bool

/-- Code on the processor; it stops where it waits for a lock that is taken, since nobody else
runs who could give it back. -/
abbrev Masking (ι ν μ α : Type) := Prog (Lock ι ν) (Processor ι ν μ) α

/-- A machine step, which leaves the flag and the memory as given. -/
def Processor.next (s : Processor ι ν μ) (enabled : Bool) (mem : Shared ι ν μ) :
    Processor ι ν μ :=
  ⟨enabled, mem, s.points ++ [enabled]⟩

/-- A step that reads. -/
def look (f : Processor ι ν μ → α) : Masking ι ν μ α := do
  let a ← Prog.gets f
  Prog.update fun s => s.next s.enabled s.mem
  pure a

/-- A step that writes to memory. -/
def write (f : Shared ι ν μ → Shared ι ν μ) : Masking ι ν μ Unit :=
  Prog.update fun s => s.next s.enabled (f s.mem)

/-- `rflags::read().contains(RFlags::FLAGS_IF)`. -/
def rflagsIf : Masking ι ν μ Bool := look Processor.enabled

/-- `irq::disable()`. -/
def irqDisable : Masking ι ν μ Unit := Prog.update fun s => s.next false s.mem

/-- `irq::enable()`. -/
def irqEnable : Masking ι ν μ Unit := Prog.update fun s => s.next true s.mem

/-- `if enabled { irq::enable() }`. -/
def enableIf (enabled : Bool) : Masking ι ν μ Unit := if enabled then irqEnable else pure ()

/-! ## Locks and sections -/

section

variable [DecidableEq ι] [DecidableEq ν]

/-- `locked.compare_exchange(false, true, ..).is_ok()`, one step. -/
def IntLock.exchange (i : ι) : Masking ι ν μ Bool := do
  let locked ← Prog.gets fun s => (s.mem.ints i).locked
  write fun m => if locked then m else m.setInt i { m.ints i with locked := true }
  return !locked

/-- `IntLock::try_lock`. -/
def IntLock.tryLock (i : ι) : Masking ι ν μ Bool := do
  if !(← IntLock.exchange i) then return false
  let enabled ← rflagsIf
  write fun m => m.setInt i { m.ints i with savedIf := enabled }
  irqDisable
  return true

/-- `IntLock::lock`. -/
def IntLock.lock (i : ι) : Masking ι ν μ Unit := do
  if ← IntLock.tryLock i then pure () else Prog.fault (.int i)

/-- `IntLock::unlock`. -/
def IntLock.unlock (i : ι) : Masking ι ν μ Unit := do
  let restore ← look fun s => (s.mem.ints i).savedIf
  write fun m => m.setInt i { m.ints i with locked := false }
  enableIf restore

/-- `SpinLock::lock`. -/
def SpinLock.lock (v : ν) : Masking ι ν μ Unit := do
  let locked ← Prog.gets fun s => s.mem.spins v
  if locked then Prog.fault (.spin v) else write fun m => m.setSpin v true

/-- `SpinLock::unlock`. -/
def SpinLock.unlock (v : ν) : Masking ι ν μ Unit := write fun m => m.setSpin v false

end

/-- `critical_section` up to the call of `f`. -/
def criticalEnter : Masking ι ν μ Bool := do
  let enabled ← rflagsIf
  irqDisable
  return enabled

/-- `critical_section`. -/
def criticalSection (f : Masking ι ν μ α) : Masking ι ν μ α := do
  let enabled ← criticalEnter
  let res ← f
  enableIf enabled
  return res

/-- `uacpi_kernel_disable_interrupts`. -/
def uacpiKernelDisableInterrupts : Masking ι ν μ ℕ := do
  let enabled ← rflagsIf
  irqDisable
  return enabled.toNat

/-- `uacpi_kernel_restore_interrupts`. -/
def uacpiKernelRestoreInterrupts (state : ℕ) : Masking ι ν μ Unit :=
  if state ≠ 0 then irqEnable else pure ()

/-- `uacpi_kernel_lock_spinlock`; no handle is a null pointer. -/
def uacpiKernelLockSpinlock [DecidableEq ν] (handle : Option ν) : Masking ι ν μ ℕ := do
  let state ← uacpiKernelDisableInterrupts
  match handle with
  | some lock => SpinLock.lock lock
  | none => pure ()
  return state

/-- `uacpi_kernel_unlock_spinlock`. -/
def uacpiKernelUnlockSpinlock [DecidableEq ν] (handle : Option ν) (flags : ℕ) :
    Masking ι ν μ Unit := do
  match handle with
  | some lock => SpinLock.unlock lock
  | none => pure ()
  uacpiKernelRestoreInterrupts flags

/-! ## Nested programs -/

/-- The ways in which interrupts are kept off. -/
inductive Mask (ι ν : Type) where
  | critical
  | int (i : ι)
  | spin (handle : Option ν)

/-- The lock that is taken. -/
def Mask.lock : Mask ι ν → Option (Lock ι ν)
  | .critical => none
  | .int i => some (.int i)
  | .spin handle => handle.map .spin

/-- A properly nested program. What it does to the data is arbitrary. -/
inductive Code (ι ν μ : Type) where
  | done
  | op (f : μ → μ)
  | choose (next : μ → Code ι ν μ)
  | seq (first second : Code ι ν μ)
  | within (k : Mask ι ν) (body : Code ι ν μ)

variable [DecidableEq ι] [DecidableEq ν]

/-- A section with its body. -/
def Mask.around (k : Mask ι ν) (body : Masking ι ν μ Unit) : Masking ι ν μ Unit :=
  match k with
  | .critical => criticalSection body
  | .int i => do
      IntLock.lock i
      body
      IntLock.unlock i
  | .spin handle => do
      let flags ← uacpiKernelLockSpinlock handle
      body
      uacpiKernelUnlockSpinlock handle flags

/-- The program is run. -/
def Code.run : Code ι ν μ → Masking ι ν μ Unit
  | .done => pure ()
  | .op f => write fun m => { m with data := f m.data }
  | .choose next => do
      let d ← look fun s => s.mem.data
      (next d).run
  | .seq first second => do
      first.run
      second.run
  | .within k body => k.around body.run

/-- What a section does before its body. -/
def Mask.enter : Mask ι ν → Masking ι ν μ Unit
  | .critical => do
      let _ ← criticalEnter
      pure ()
  | .int i => IntLock.lock i
  | .spin handle => do
      let _ ← uacpiKernelLockSpinlock handle
      pure ()

omit [DecidableEq ι] [DecidableEq ν] in
/-- The program takes no lock that is held already, be it one of `held` or its own. -/
def Code.Avoids : Set (Lock ι ν) → Code ι ν μ → Prop
  | _, .done => True
  | _, .op _ => True
  | held, .choose next => ∀ d, (next d).Avoids held
  | held, .seq first second => first.Avoids held ∧ second.Avoids held
  | held, .within k body =>
      (∀ l ∈ k.lock, l ∉ held) ∧ body.Avoids {l | k.lock = some l ∨ l ∈ held}

/-- Running `p` from `s` comes to running the part `q` from `t`. -/
inductive Code.Comes : Code ι ν μ → Processor ι ν μ → Code ι ν μ → Processor ι ν μ → Prop
  | here {p s} : Comes p s p s
  | choose {next s s' d q t} : (look fun s => s.mem.data).run s = .ok d s' →
      Comes (next d) s' q t → Comes (.choose next) s q t
  | first {p p' s q t} : Comes p s q t → Comes (.seq p p') s q t
  | second {p p' s s' q t} : p.run.run s = .ok () s' → Comes p' s' q t → Comes (.seq p p') s q t
  | within {k body s s' q t} : k.enter.run s = .ok () s' → Comes body s' q t →
      Comes (.within k body) s q t

/-- The section of `k` around `body`, begun in `s`, ends; the flag is off at every point of the
body, and afterwards what it was before. -/
def Mask.Restores (k : Mask ι ν) (body : Code ι ν μ) (s : Processor ι ν μ) : Prop :=
  ∃ inside flags last rest s',
    (k.enter.run s = .ok () inside ∧ inside.enabled = false) ∧
    (body.run.run inside = .ok () last ∧ last.points = inside.points ++ flags ∧
      ∀ e ∈ flags, e = false) ∧
    (k.around body.run).run s = .ok () s' ∧ s'.points = last.points ++ rest ∧
      s'.enabled = s.enabled

/-! ## Entering and leaving -/

/-- From `s` to `s'` the log grows, and shows the flag off if it is to stay off. -/
def Logs (off : Prop) (s s' : Processor ι ν μ) : Prop :=
  ∃ flags, s'.points = s.points ++ flags ∧ (off → ∀ e ∈ flags, e = false)

section

omit [DecidableEq ι] [DecidableEq ν]

variable {off : Prop} {s s' s'' : Processor ι ν μ}

theorem Logs.refl (s : Processor ι ν μ) : Logs off s s :=
  ⟨[], (List.append_nil _).symm, fun _ => nofun⟩

theorem Logs.trans (h : Logs off s s') (h' : Logs off s' s'') : Logs off s s'' := by
  rcases h with ⟨flags, hpoints, hoff⟩
  rcases h' with ⟨flags', hpoints', hoff'⟩
  refine ⟨flags ++ flags', by rw [hpoints', hpoints, List.append_assoc], ?_⟩
  intro h e he
  rcases List.mem_append.1 he with he | he
  · exact hoff h e he
  · exact hoff' h e he

theorem Logs.next {b : Bool} {m : Shared ι ν μ} (h : Logs off s s') (hb : off → b = false) :
    Logs off s (s'.next b m) := by
  refine h.trans ⟨[b], rfl, ?_⟩
  intro hoff e he
  rw [List.mem_singleton.1 he]
  exact hb hoff

end

/-- The locks once `i` is taken: the lock word is written first, then the saved flag. -/
def Shared.lockInt (m : Shared ι ν μ) (i : ι) (enabled : Bool) : Shared ι ν μ :=
  let m₁ := m.setInt i { m.ints i with locked := true }
  m₁.setInt i { m₁.ints i with savedIf := enabled }

/-- The memory inside a section that found the flag `enabled`. -/
def Mask.acquire (k : Mask ι ν) (m : Shared ι ν μ) (enabled : Bool) : Shared ι ν μ :=
  match k with
  | .critical => m
  | .int i => m.lockInt i enabled
  | .spin none => m
  | .spin (some v) => m.setSpin v true

/-- The memory after a section. -/
def Mask.release (k : Mask ι ν) (m : Shared ι ν μ) : Shared ι ν μ :=
  match k with
  | .critical => m
  | .int i => m.setInt i { m.ints i with locked := false }
  | .spin none => m
  | .spin (some v) => m.setSpin v false

section

variable (k : Mask ι ν) (m : Shared ι ν μ)

theorem Mask.taken_acquire (enabled : Bool) (l : Lock ι ν) :
    Taken (k.acquire m enabled) l ↔ k.lock = some l ∨ Taken m l := by
  match k with
  | .critical => exact ⟨Or.inr, fun h => h.resolve_left nofun⟩
  | .spin none => exact ⟨Or.inr, fun h => h.resolve_left nofun⟩
  | .int i =>
      show Taken (Shared.setInt _ i _) l ↔ some (Lock.int i) = some l ∨ _
      rw [taken_setInt, taken_setInt, Option.some_inj]
      by_cases hl : l = .int i
      · simp [hl]
      · simp [hl, Ne.symm hl]
  | .spin (some v) =>
      show Taken (m.setSpin v true) l ↔ some (Lock.spin v) = some l ∨ _
      rw [taken_setSpin, Option.some_inj]
      by_cases hl : l = .spin v
      · simp [hl]
      · simp [hl, Ne.symm hl]

omit [DecidableEq ι] [DecidableEq ν] in
theorem some_ne_some {k l : Lock ι ν} : some k ≠ some l ↔ l ≠ k := by
  rw [Ne, Option.some_inj, eq_comm]

theorem Mask.taken_release (l : Lock ι ν) :
    Taken (k.release m) l ↔ Taken m l ∧ k.lock ≠ some l := by
  match k with
  | .critical => exact ⟨fun h => ⟨h, nofun⟩, And.left⟩
  | .spin none => exact ⟨fun h => ⟨h, nofun⟩, And.left⟩
  | .int i =>
      show Taken (m.setInt i _) l ↔ _ ∧ some (Lock.int i) ≠ some l
      rw [taken_setInt, taken_given, some_ne_some]
  | .spin (some v) =>
      show Taken (m.setSpin v false) l ↔ _ ∧ some (Lock.spin v) ≠ some l
      rw [taken_setSpin, taken_given, some_ne_some]

omit [DecidableEq ν] in
theorem Shared.lockInt_self (i : ι) (enabled : Bool) :
    ((m.lockInt i enabled).ints i).savedIf = enabled := by
  unfold Shared.lockInt
  rw [Shared.setInt_self]

theorem Mask.savedIf_acquire (enabled : Bool) {j : ι} (h : k.lock ≠ some (.int j)) :
    ((k.acquire m enabled).ints j).savedIf = (m.ints j).savedIf := by
  match k with
  | .critical => rfl
  | .spin none => rfl
  | .spin (some v) => rfl
  | .int i =>
      have hne : j ≠ i := fun hj => h (congrArg (some ∘ Lock.int) hj.symm)
      show ((Shared.setInt _ i _).ints j).savedIf = _
      rw [Shared.setInt_of_ne _ _ hne]
      exact savedIf_setInt_locked m i j true

theorem Mask.savedIf_release (j : ι) :
    ((k.release m).ints j).savedIf = (m.ints j).savedIf := by
  match k with
  | .critical => rfl
  | .spin none => rfl
  | .spin (some v) => rfl
  | .int i => exact savedIf_setInt_locked m i j false

end

/-- The section has been entered. -/
structure Mask.Entered (k : Mask ι ν) (s inside : Processor ι ν μ) : Prop where
  enabled : inside.enabled = false
  mem : inside.mem = k.acquire s.mem s.enabled
  logs : Logs (s.enabled = false) s inside

/-- The section begun in `s` has been left after its body had ended in `last`. -/
structure Mask.Left (k : Mask ι ν) (s last s' : Processor ι ν μ) : Prop where
  enabled : s'.enabled = s.enabled
  mem : s'.mem = k.release last.mem
  logs : Logs (s.enabled = false) last s'

/-- The body is run after `enter`, and after it the section is left. -/
def Mask.Closes (k : Mask ι ν) (s inside : Processor ι ν μ) : Prop :=
  ∀ (body : Masking ι ν μ Unit) last, body.run inside = .ok () last → last.enabled = false →
    (∀ i, k = .int i → (last.mem.ints i).savedIf = s.enabled) →
      ∃ s', (k.around body).run s = .ok () s' ∧ k.Left s last s'

section

variable {s : Processor ι ν μ}

omit [DecidableEq ι] [DecidableEq ν] in
/-- The flag is set again if it was set. -/
theorem restore_run (restore : Bool) (last : Processor ι ν μ) (h : last.enabled = false) :
    ∃ s', (enableIf restore).run last = .ok () s' ∧ s'.enabled = restore ∧
      s'.mem = last.mem ∧ Logs (restore = false) last s' := by
  cases restore with
  | false => exact ⟨last, rfl, h, rfl, Logs.refl last⟩
  | true => exact ⟨last.next true last.mem, rfl, rfl, rfl, (Logs.refl last).next nofun⟩

/-- The state with the flag read and cleared. -/
def Processor.disabled (s : Processor ι ν μ) : Processor ι ν μ :=
  (s.next s.enabled s.mem).next false s.mem

omit [DecidableEq ι] [DecidableEq ν] in
theorem disabled_logs (s : Processor ι ν μ) : Logs (s.enabled = false) s s.disabled :=
  ((Logs.refl s).next id).next fun _ => rfl

theorem critical_entered (s : Processor ι ν μ) :
    ∃ inside, Mask.critical.enter.run s = .ok () inside ∧
      Mask.critical.Entered s inside ∧ Mask.critical.Closes s inside := by
  refine ⟨s.disabled, rfl, ⟨rfl, rfl, disabled_logs s⟩, ?_⟩
  intro body last hbody hoff _
  have henter : criticalEnter.run s = .ok s.enabled s.disabled := rfl
  rcases restore_run s.enabled last hoff with ⟨s', hrun, henabled, hmem, hlogs⟩
  refine ⟨s', ?_, henabled, hmem, hlogs⟩
  show (criticalSection body).run s = _
  unfold criticalSection
  rw [Prog.bind_of_ok henter, Prog.bind_of_ok hbody, Prog.bind_of_ok hrun]
  rfl

omit [DecidableEq ν] in
/-- `lock` takes a lock that is free in four steps. -/
theorem IntLock.lock_of_free {i : ι} (hfree : ¬ Taken s.mem (.int i)) :
    ∃ inside, (IntLock.lock i).run s = .ok () inside ∧ inside.enabled = false ∧
      inside.mem = s.mem.lockInt i s.enabled ∧ Logs (s.enabled = false) s inside := by
  have hlocked : (s.mem.ints i).locked = false := Bool.eq_false_iff.2 hfree
  let m₁ := s.mem.setInt i { s.mem.ints i with locked := true }
  let inside := (((s.next s.enabled m₁).next s.enabled m₁).next s.enabled
    (s.mem.lockInt i s.enabled)).next false (s.mem.lockInt i s.enabled)
  have hexchange : (IntLock.exchange i).run s = .ok true (s.next s.enabled m₁) := by
    show Outcome.ok (!(s.mem.ints i).locked) (s.next s.enabled
      (if (s.mem.ints i).locked then s.mem else m₁)) = _
    rw [hlocked]
    rfl
  have htry : (IntLock.tryLock i).run s = .ok true inside := by
    unfold IntLock.tryLock
    rw [Prog.bind_of_ok hexchange]
    rfl
  refine ⟨inside, ?_, rfl, rfl, ((((Logs.refl s).next id).next id).next id).next fun _ => rfl⟩
  show (IntLock.tryLock i >>= fun b => if b then pure () else Prog.fault (.int i)).run s = _
  rw [Prog.bind_of_ok htry]
  rfl

theorem int_entered {i : ι} (hfree : ¬ Taken s.mem (.int i)) :
    ∃ inside, (Mask.int i).enter.run s = .ok () inside ∧
      (Mask.int i).Entered s inside ∧ (Mask.int i).Closes s inside := by
  rcases IntLock.lock_of_free hfree with ⟨inside, hlock, henabled, hmem, hlogs⟩
  refine ⟨inside, hlock, ⟨henabled, hmem, hlogs⟩, ?_⟩
  intro body last hbody hoff hown
  let unlocked := (last.next last.enabled last.mem).next last.enabled
    ((Mask.int i).release last.mem)
  have hunlocked : Logs (s.enabled = false) last unlocked :=
    ((Logs.refl last).next fun _ => hoff).next fun _ => hoff
  rcases restore_run s.enabled unlocked hoff with ⟨s', hrun, henabled', hmem', hlogs'⟩
  refine ⟨s', ?_, henabled', hmem', hunlocked.trans hlogs'⟩
  show (IntLock.lock i >>= fun _ => body >>= fun _ => IntLock.unlock i).run s = _
  rw [Prog.bind_of_ok hlock, Prog.bind_of_ok hbody]
  show (enableIf (last.mem.ints i).savedIf).run unlocked = _
  rw [hown i rfl]
  exact hrun

omit [DecidableEq ι] [DecidableEq ν] in
/-- The flags that `uacpi_kernel_disable_interrupts` returns say whether the flag was set. -/
theorem uacpiKernelRestoreInterrupts_toNat (enabled : Bool) :
    (uacpiKernelRestoreInterrupts enabled.toNat : Masking ι ν μ Unit) = enableIf enabled := by
  cases enabled with
  | false => rfl
  | true => rfl

/-- Without a handle, there is no lock to take. -/
theorem spin_entered_null (s : Processor ι ν μ) :
    ∃ inside, (Mask.spin none).enter.run s = .ok () inside ∧
      (Mask.spin none).Entered s inside ∧ (Mask.spin none).Closes s inside := by
  refine ⟨s.disabled, rfl, ⟨rfl, rfl, disabled_logs s⟩, ?_⟩
  intro body last hbody hoff _
  have hlock : (uacpiKernelLockSpinlock none).run s = .ok s.enabled.toNat s.disabled := rfl
  rcases restore_run s.enabled last hoff with ⟨s', hrun, henabled, hmem, hlogs⟩
  refine ⟨s', ?_, henabled, hmem, hlogs⟩
  show (uacpiKernelLockSpinlock none >>= fun flags => body >>= fun _ =>
    uacpiKernelRestoreInterrupts flags).run s = _
  rw [Prog.bind_of_ok hlock, Prog.bind_of_ok hbody, uacpiKernelRestoreInterrupts_toNat]
  exact hrun

theorem spin_entered {v : ν} (hfree : ¬ Taken s.mem (.spin v)) :
    ∃ inside, (Mask.spin (some v)).enter.run s = .ok () inside ∧
      (Mask.spin (some v)).Entered s inside ∧ (Mask.spin (some v)).Closes s inside := by
  have hword : s.mem.spins v = false := Bool.eq_false_iff.2 hfree
  let inside := s.disabled.next false (s.mem.setSpin v true)
  have hspin : (SpinLock.lock v).run s.disabled = .ok () inside := by
    show (if s.mem.spins v then Prog.fault (.spin v) else write fun m => m.setSpin v true :
      Masking ι ν μ Unit).run s.disabled = _
    rw [hword]
    rfl
  have hlock : (uacpiKernelLockSpinlock (some v)).run s = .ok s.enabled.toNat inside := by
    show (SpinLock.lock v >>= fun _ => pure s.enabled.toNat).run s.disabled = _
    rw [Prog.bind_of_ok hspin]
    rfl
  refine ⟨inside, Prog.bind_of_ok hlock, ⟨rfl, rfl, (disabled_logs s).next fun _ => rfl⟩, ?_⟩
  intro body last hbody hoff _
  let unlocked := last.next last.enabled ((Mask.spin (some v)).release last.mem)
  have hunlocked : Logs (s.enabled = false) last unlocked := (Logs.refl last).next fun _ => hoff
  rcases restore_run s.enabled unlocked hoff with ⟨s', hrun, henabled, hmem, hlogs⟩
  refine ⟨s', ?_, henabled, hmem, hunlocked.trans hlogs⟩
  show (uacpiKernelLockSpinlock (some v) >>= fun flags => body >>= fun _ =>
    SpinLock.unlock v >>= fun _ => uacpiKernelRestoreInterrupts flags).run s = _
  rw [Prog.bind_of_ok hlock, Prog.bind_of_ok hbody, uacpiKernelRestoreInterrupts_toNat]
  exact hrun

/-- A section whose lock is free is entered with the flag off, and it is left with the flag
that it found. -/
theorem Mask.entered (k : Mask ι ν) (hfree : ∀ l ∈ k.lock, ¬ Taken s.mem l) :
    ∃ inside, k.enter.run s = .ok () inside ∧ k.Entered s inside ∧ k.Closes s inside := by
  match k with
  | .critical => exact critical_entered s
  | .int i => exact int_entered (hfree _ rfl)
  | .spin none => exact spin_entered_null s
  | .spin (some v) => exact spin_entered (hfree _ rfl)

end

/-! ## Every program -/

/-- What a program has left as it was: the flag, the lock words, and the flags that the locks of
`held` have saved. -/
structure Passes (held : Set (Lock ι ν)) (s s' : Processor ι ν μ) : Prop where
  enabled : s'.enabled = s.enabled
  taken : ∀ l, Taken s'.mem l ↔ Taken s.mem l
  saved : ∀ j, .int j ∈ held → (s'.mem.ints j).savedIf = (s.mem.ints j).savedIf
  logs : Logs (s.enabled = false) s s'

section

variable {held : Set (Lock ι ν)} {s s' s'' : Processor ι ν μ}

omit [DecidableEq ι] [DecidableEq ν] in
theorem Passes.trans (h : Passes held s s') (h' : Passes held s' s'') : Passes held s s'' := by
  constructor
  · rw [h'.enabled, h.enabled]
  · intro l
    rw [h'.taken, h.taken]
  · intro j hj
    rw [h'.saved j hj, h.saved j hj]
  · have hlogs := h'.logs
    rw [h.enabled] at hlogs
    exact h.logs.trans hlogs

/-- The locks inside a section are those held before and its own. -/
theorem Mask.Entered.mem_held {k : Mask ι ν} {inside : Processor ι ν μ} (h : k.Entered s inside)
    (hheld : ∀ l, Taken s.mem l → l ∈ held) (l : Lock ι ν) (hl : Taken inside.mem l) :
    k.lock = some l ∨ l ∈ held := by
  rw [h.mem, k.taken_acquire] at hl
  exact hl.imp_right (hheld l)

/-- After the body, the lock of the section still has the flag that was found. -/
theorem Mask.Entered.own {k : Mask ι ν} {inside last : Processor ι ν μ} (h : k.Entered s inside)
    (hpass : Passes {l | k.lock = some l ∨ l ∈ held} inside last) (i : ι) (hi : k = .int i) :
    (last.mem.ints i).savedIf = s.enabled := by
  rw [hpass.saved i (Or.inl (congrArg Mask.lock hi)), h.mem, hi]
  exact s.mem.lockInt_self i s.enabled

/-- A section around a body that leaves things as they are. -/
theorem Mask.passes {k : Mask ι ν} {body : Masking ι ν μ Unit} {inside last : Processor ι ν μ}
    (hfree : ∀ l ∈ k.lock, l ∉ held) (hheld : ∀ l, Taken s.mem l → l ∈ held)
    (hin : k.Entered s inside) (hclose : k.Closes s inside)
    (hbody : body.run inside = .ok () last)
    (hpass : Passes {l | k.lock = some l ∨ l ∈ held} inside last) :
    ∃ s', (k.around body).run s = .ok () s' ∧ k.Left s last s' ∧ Passes held s s' := by
  have hoff : last.enabled = false := hpass.enabled.trans hin.enabled
  rcases hclose body last hbody hoff (hin.own hpass) with ⟨s', hrun, hleft⟩
  refine ⟨s', hrun, hleft, hleft.enabled, ?_, ?_, ?_⟩
  · intro l
    rw [hleft.mem, k.taken_release, hpass.taken, hin.mem, k.taken_acquire]
    constructor
    · rintro ⟨hl | hl, hne⟩
      · exact absurd hl hne
      · exact hl
    · -- the lock of the section was free
      intro hl
      exact ⟨Or.inr hl, fun hk => hfree l hk (hheld l hl)⟩
  · intro j hj
    have hne : k.lock ≠ some (.int j) := fun hk => hfree _ hk hj
    rw [hleft.mem, k.savedIf_release, hpass.saved j (Or.inr hj), hin.mem,
      k.savedIf_acquire s.mem s.enabled hne]
  · refine (hin.logs.trans ?_).trans hleft.logs
    rcases hpass.logs with ⟨flags, hflags, hall⟩
    exact ⟨flags, hflags, fun _ => hall hin.enabled⟩

/-- A program that takes no lock twice ends and leaves the flag and the locks as they were. -/
theorem Code.run_passes (p : Code ι ν μ) (havoids : p.Avoids held)
    (hheld : ∀ l, Taken s.mem l → l ∈ held) :
    ∃ s', p.run.run s = .ok () s' ∧ Passes held s s' := by
  induction p generalizing held s with
  | done => exact ⟨s, rfl, rfl, fun _ => Iff.rfl, fun _ _ => rfl, Logs.refl s⟩
  | op f =>
      refine ⟨s.next s.enabled { s.mem with data := f s.mem.data }, rfl, rfl, ?_, ?_, ?_⟩
      · intro l
        cases l with
        | int i => exact Iff.rfl
        | spin v => exact Iff.rfl
      · exact fun _ _ => rfl
      · exact (Logs.refl s).next id
  | choose next ih =>
      have hlook : Passes held s (s.next s.enabled s.mem) :=
        ⟨rfl, fun _ => Iff.rfl, fun _ _ => rfl, (Logs.refl s).next id⟩
      rcases ih s.mem.data (s := s.next s.enabled s.mem) (havoids _) hheld with ⟨s', hrun, hpass⟩
      exact ⟨s', hrun, hlook.trans hpass⟩
  | seq first second ih₁ ih₂ =>
      rcases ih₁ havoids.1 hheld with ⟨s₁, hrun₁, hpass₁⟩
      have hheld₁ : ∀ l, Taken s₁.mem l → l ∈ held := fun l hl => hheld l ((hpass₁.taken l).1 hl)
      rcases ih₂ havoids.2 hheld₁ with ⟨s₂, hrun₂, hpass₂⟩
      refine ⟨s₂, ?_, hpass₁.trans hpass₂⟩
      show (first.run >>= fun _ => second.run).run s = _
      rw [Prog.bind_of_ok hrun₁]
      exact hrun₂
  | within k body ih =>
      have hfree : ∀ l ∈ k.lock, ¬ Taken s.mem l := fun l hl ht => havoids.1 l hl (hheld l ht)
      rcases k.entered hfree with ⟨inside, _, hin, hclose⟩
      rcases ih havoids.2 (hin.mem_held hheld) with ⟨last, hbody, hpass⟩
      rcases Mask.passes havoids.1 hheld hin hclose hbody hpass with ⟨s', hrun, _, hs'⟩
      exact ⟨s', hrun, hs'⟩

/-- A section that a program comes to restores the flag. -/
theorem Mask.restores {k : Mask ι ν} {body : Code ι ν μ}
    (havoids : (Code.within k body).Avoids held) (hheld : ∀ l, Taken s.mem l → l ∈ held) :
    k.Restores body s := by
  have hfree : ∀ l ∈ k.lock, ¬ Taken s.mem l := fun l hl ht => havoids.1 l hl (hheld l ht)
  rcases k.entered hfree with ⟨inside, henter, hin, hclose⟩
  rcases body.run_passes havoids.2 (hin.mem_held hheld) with ⟨last, hbody, hpass⟩
  rcases Mask.passes havoids.1 hheld hin hclose hbody hpass with ⟨s', hrun, hleft, _⟩
  rcases hpass.logs with ⟨flags, hflags, hall⟩
  rcases hleft.logs with ⟨rest, hrest, _⟩
  exact ⟨inside, flags, last, rest, s', ⟨henter, hin.enabled⟩,
    ⟨hbody, hflags, hall hin.enabled⟩, hrun, hrest, hleft.enabled⟩

/-- The parts that a program comes to take no lock twice either. -/
theorem Code.Comes.avoids {p q : Code ι ν μ} {t : Processor ι ν μ} (h : p.Comes s q t)
    (havoids : p.Avoids held) (hheld : ∀ l, Taken s.mem l → l ∈ held) :
    ∃ held', q.Avoids held' ∧ ∀ l, Taken t.mem l → l ∈ held' := by
  induction h generalizing held with
  | here => exact ⟨held, havoids, hheld⟩
  | choose hlook _ ih =>
      cases hlook
      exact ih (havoids _) hheld
  | first _ ih => exact ih havoids.1 hheld
  | second hrun _ ih =>
      rcases Code.run_passes _ havoids.1 hheld with ⟨s₁, hrun₁, hpass⟩
      cases hrun.symm.trans hrun₁
      exact ih havoids.2 fun l hl => hheld l ((hpass.taken l).1 hl)
  | @within k body s₀ inside _ _ henter _ ih =>
      have hfree : ∀ l ∈ k.lock, ¬ Taken s₀.mem l := fun l hl ht => havoids.1 l hl (hheld l ht)
      rcases k.entered hfree with ⟨inside', henter', hin, _⟩
      cases henter.symm.trans henter'
      exact ih havoids.2 (hin.mem_held hheld)

end

/-- However sections are nested and follow each other, from either value of the interrupt
flag: the program ends with the flag it began with; and in every section it comes to, the flag
is off at each point of the body, and after the section it is what it was before. -/
theorem sections_restore_flag (p : Code ι ν μ) (s : Processor ι ν μ)
    (havoids : p.Avoids {l | Taken s.mem l}) :
    (∃ s', p.run.run s = .ok () s' ∧ s'.enabled = s.enabled) ∧
      ∀ k body t, p.Comes s (.within k body) t → k.Restores body t := by
  constructor
  · rcases p.run_passes havoids fun _ => id with ⟨s', hrun, hpass⟩
    exact ⟨s', hrun, hpass.enabled⟩
  · intro k body t hcomes
    rcases hcomes.avoids havoids fun _ => id with ⟨held, havoids', hheld⟩
    exact Mask.restores havoids' hheld

/-- A free processor with interrupts on. -/
def idle : Processor ℕ ℕ ℕ := ⟨true, ⟨fun _ => ⟨false, false⟩, fun _ => false, 0⟩, []⟩

/-- Two locks, a critical section and a uACPI spinlock inside each other, and one of the locks
once more afterwards. -/
def lockChain : Code ℕ ℕ ℕ :=
  .seq (.within (.int 0) (.seq (.within (.int 1) (.within .critical (.op (· + 1))))
    (.within (.spin (some 0)) (.within (.spin none) .done)))) (.within (.int 1) .done)

theorem sections_restore_flag_chain :
    (∃ s', lockChain.run.run idle = .ok () s' ∧ s'.enabled = true) ∧
      ∀ k body t, lockChain.Comes idle (.within k body) t → k.Restores body t := by
  have havoids : lockChain.Avoids {l | Taken idle.mem l} := by
    simp [lockChain, Code.Avoids, Mask.lock, idle, Taken]
  exact sections_restore_flag lockChain idle havoids

end Prometheos.Sync
