import Mathlib.Logic.Function.Basic
import Mathlib.Tactic.SplitIfs
import Prometheos.Machine

/-!
# Interrupt handlers (`idt.rs`, `acpi/uacpi.rs`)

`HANDLERS` has a slot for each of the 256 vectors, with the boxed closure that is installed
there. `is_handler_installed`, `install_handler` and `clear_handler` each take the lock of the
slot once; here they are functions on the table. `isr_handler` deals with the exceptions and
with vector `0x80` itself and calls the closure of the slot for all other vectors.

The closures that uACPI installs call a handler with a context, if there is a handler. The
record of the calls that were made, and the serial number of a closure, are there to speak
about runs; the source has neither. What is only printed is left out.
-/

namespace Prometheos.Idt

/-! ## The table -/

/-- `HANDLERS`. -/
abbrev Handlers (η : Type) := Fin 256 → Option η

section

variable {η : Type}

/-- `is_handler_installed`. -/
def isHandlerInstalled (t : Handlers η) (vector : Fin 256) : Bool := (t vector).isSome

/-- `install_handler`. -/
def installHandler (t : Handlers η) (vector : Fin 256) (handler : η) : Handlers η :=
  Function.update t vector (some handler)

/-- `clear_handler`. -/
def clearHandler (t : Handlers η) (vector : Fin 256) : Handlers η :=
  Function.update t vector none

@[simp]
theorem installHandler_self (t : Handlers η) (v : Fin 256) (h : η) :
    installHandler t v h v = some h :=
  Function.update_self (β := fun _ => Option η) v (some h) t

theorem installHandler_of_ne (t : Handlers η) {v w : Fin 256} (h : η) (hne : w ≠ v) :
    installHandler t v h w = t w :=
  Function.update_of_ne (β := fun _ => Option η) hne (some h) t

@[simp]
theorem clearHandler_self (t : Handlers η) (v : Fin 256) : clearHandler t v v = none :=
  Function.update_self (β := fun _ => Option η) v none t

theorem clearHandler_of_ne (t : Handlers η) {v w : Fin 256} (hne : w ≠ v) :
    clearHandler t v w = t w :=
  Function.update_of_ne (β := fun _ => Option η) hne none t

end

/-- `irq + 0x20` as a `u8`. -/
def vectorOf (irq : ℕ) : Fin 256 := Fin.ofNat 256 (irq + 0x20)

/-! ## uACPI's handlers -/

/-- What `uacpi_kernel_install_interrupt_handler` boxes: a handler, which may be null, and
its context; and the number of the installation. -/
structure Closure where
  handler : Option ℕ
  ctx : ℕ
  serial : ℕ
deriving DecidableEq

/-- The table, the calls of handlers so far (the latest first), and the number of the next
installation. -/
structure State where
  handlers : Handlers Closure
  calls : List Closure
  serial : ℕ

/-- `uacpi_status`. -/
inductive Status where
  | ok
  | alreadyExists
deriving DecidableEq

/-- The closure: `if let Some(handler) = handler.as_ref() { handler(ctx) }`. -/
def Closure.call (c : Closure) : Run State Unit :=
  match c.handler with
  | some _ => Prog.update fun s => { s with calls := c :: s.calls }
  | none => pure ()

/-- `uacpi_kernel_install_interrupt_handler`: the status, and what is written to
`out_irq_handle`, if anything. -/
def uacpiKernelInstallInterruptHandler (irq : ℕ) (handler : Option ℕ) (ctx : ℕ) :
    Run State (Status × Option ℕ) := do
  let sum ← addU32 irq 0x20
  let vector := Fin.ofNat 256 sum
  let installed ← Prog.gets fun s => isHandlerInstalled s.handlers vector
  if installed then
    pure (.alreadyExists, none)
  else do
    Prog.update fun s =>
      { s with handlers := installHandler s.handlers vector ⟨handler, ctx, s.serial⟩
               serial := s.serial + 1 }
    pure (.ok, some vector)

/-- `uacpi_kernel_uninstall_interrupt_handler`. -/
def uacpiKernelUninstallInterruptHandler (irqHandle : ℕ) : Run State Status := do
  let vector := Fin.ofNat 256 irqHandle
  Prog.update fun s => { s with handlers := clearHandler s.handlers vector }
  pure .ok

/-! ## Delivery -/

/-- `isr_handler`, for the vector of its frame. -/
def isrHandler (vec : Fin 256) : Run State Unit :=
  if vec = 1 ∨ vec = 2 ∨ vec = 3 then pure ()
  else if vec = 14 then Prog.fault (.panic "page fault")
  else if vec < 32 then Prog.fault (.panic "exception")
  else if vec = 0x80 then pure ()
  else do
    let slot ← Prog.gets (·.handlers vec)
    match slot with
    | some handler => handler.call
    | none => pure ()

/-- The vectors for which `isr_handler` goes to the table. -/
def IsSlotVector (vec : Fin 256) : Prop := 32 ≤ vec ∧ vec ≠ 0x80

instance (vec : Fin 256) : Decidable (IsSlotVector vec) :=
  inferInstanceAs (Decidable (_ ∧ _))

/-! ## What the calls do -/

section

variable {s s' : State} {irq ctx : ℕ} {handler : Option ℕ}

/-- The state after an installation for `irq`. -/
def State.install (s : State) (irq : ℕ) (handler : Option ℕ) (ctx : ℕ) : State :=
  { s with handlers := installHandler s.handlers (vectorOf irq) ⟨handler, ctx, s.serial⟩
           serial := s.serial + 1 }

theorem install_run (hlt : irq + 0x20 < 2 ^ 32) :
    (uacpiKernelInstallInterruptHandler irq handler ctx).run s =
      if isHandlerInstalled s.handlers (vectorOf irq) then .ok (.alreadyExists, none) s
      else .ok (.ok, some (vectorOf irq : ℕ)) (s.install irq handler ctx) := by
  have hinst : isHandlerInstalled s.handlers (Fin.ofNat 256 (irq + 0x20)) =
      isHandlerInstalled s.handlers (vectorOf irq) := rfl
  unfold uacpiKernelInstallInterruptHandler
  rw [Prog.bind_of_ok (addU32_of_lt hlt s), Prog.gets_bind, hinst]
  cases isHandlerInstalled s.handlers (vectorOf irq) with
  | true => rfl
  | false => rfl

/-- An installation that returns did not overflow. -/
theorem lt_of_install {r : Status × Option ℕ}
    (h : (uacpiKernelInstallInterruptHandler irq handler ctx).run s = .ok r s') :
    irq + 0x20 < 2 ^ 32 := by
  rcases Prog.bind_ok_iff.1 h with ⟨sum, t, hadd, -⟩
  exact (addU32_ok_iff.1 hadd).1

/-- An installation that succeeds found the slot free and filled it. -/
theorem installed_inv {handle : ℕ}
    (h : (uacpiKernelInstallInterruptHandler irq handler ctx).run s = .ok (.ok, some handle) s') :
    irq + 0x20 < 2 ^ 32 ∧ s.handlers (vectorOf irq) = none ∧ handle = vectorOf irq ∧
      s' = s.install irq handler ctx := by
  have hlt := lt_of_install h
  rw [install_run hlt] at h
  by_cases hinst : isHandlerInstalled s.handlers (vectorOf irq) = true
  · rw [if_pos hinst] at h
    cases h
  · rw [if_neg hinst] at h
    cases h
    exact ⟨hlt, Option.not_isSome_iff_eq_none.1 hinst, rfl, rfl⟩

/-- An installation that is refused found the slot taken and changed nothing. -/
theorem refused_inv
    (h : (uacpiKernelInstallInterruptHandler irq handler ctx).run s =
      .ok (.alreadyExists, none) s') :
    irq + 0x20 < 2 ^ 32 ∧ (∃ c, s.handlers (vectorOf irq) = some c) ∧ s' = s := by
  have hlt := lt_of_install h
  rw [install_run hlt] at h
  by_cases hinst : isHandlerInstalled s.handlers (vectorOf irq) = true
  · rw [if_pos hinst] at h
    cases h
    exact ⟨hlt, Option.isSome_iff_exists.1 hinst, rfl⟩
  · rw [if_neg hinst] at h
    cases h

theorem uninstall_run (handle : ℕ) (s : State) :
    (uacpiKernelUninstallInterruptHandler handle).run s =
      .ok .ok { s with handlers := clearHandler s.handlers (Fin.ofNat 256 handle) } := rfl

/-- The state after a call of a closure. -/
def State.called (s : State) (c : Closure) : State :=
  if c.handler.isSome then { s with calls := c :: s.calls } else s

theorem Closure.call_run (c : Closure) (s : State) : c.call.run s = .ok () (s.called c) := by
  unfold State.called Closure.call
  cases c.handler with
  | some _ => rfl
  | none => rfl

/-- For a vector of the table, `isr_handler` calls the closure of the slot. -/
theorem isrHandler_slot {vec : Fin 256} (h : IsSlotVector vec) {c : Closure}
    (hc : s.handlers vec = some c) : (isrHandler vec).run s = .ok () (s.called c) := by
  rcases h with ⟨hle, hne⟩
  have hlt : ¬ vec < 32 := Nat.not_lt.2 hle
  have hlow : ¬ (vec = 1 ∨ vec = 2 ∨ vec = 3) := by
    rintro (rfl | rfl | rfl)
    · exact hlt (by decide)
    · exact hlt (by decide)
    · exact hlt (by decide)
  have hfault : vec ≠ 14 := by
    rintro rfl
    exact hlt (by decide)
  unfold isrHandler
  rw [if_neg hlow, if_neg hfault, if_neg hlt, if_neg hne, Prog.gets_bind, hc]
  exact c.call_run s

/-- `isr_handler` calls the closure of a slot, or it changes nothing. -/
theorem isrHandler_cases (vec : Fin 256) (s : State) :
    ((isrHandler vec).run s).state = s ∨
      ∃ c, IsSlotVector vec ∧ s.handlers vec = some c ∧
        (isrHandler vec).run s = .ok () (s.called c) := by
  by_cases hslot : IsSlotVector vec ∧ (s.handlers vec).isSome
  · rcases Option.isSome_iff_exists.1 hslot.2 with ⟨c, hc⟩
    exact Or.inr ⟨c, hslot.1, hc, isrHandler_slot hslot.1 hc⟩
  · refine Or.inl ?_
    unfold isrHandler
    split_ifs with hlow hfault hlt hsyscall
    · rfl
    · rfl
    · rfl
    · rfl
    · have hnone : s.handlers vec = none :=
        Option.not_isSome_iff_eq_none.1 fun h => hslot ⟨⟨Nat.not_lt.1 hlt, hsyscall⟩, h⟩
      rw [Prog.gets_bind, hnone]
      rfl

end

end Prometheos.Idt
