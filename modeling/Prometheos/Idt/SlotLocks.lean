import Prometheos.Idt.Model
import Prometheos.Sync.Preemption

/-!
# The locks of the slots

`is_handler_installed`, `install_handler`, `clear_handler` and the calls of uACPI that are made
of them, one machine step at a time, with interrupts. Each slot of `HANDLERS` has a
`SpinLock`, which leaves the interrupt flag alone. A handler is boxed before the lock of its
slot is taken, and the box that it replaces is dropped under that lock; both are calls of the
heap, which has an `IntLock` and may take pages from the PMM, which has another. `isr_handler`
calls the handler under the lock of the slot.

An interrupt of vector `v` waits for ever if the code that it interrupts holds the lock of
slot `v`. This never happens if the locks of the slots that interrupts go to are taken with
interrupts off, and can happen whenever one of them is taken with interrupts on
(`slots_never_awaited`, `slot_awaited`).
-/

namespace Prometheos.Idt

open Sync Interrupts

/-! ## The calls -/

/-- The `IntLock`s that the calls take. -/
inductive KernelLock where
  | heap
  | pmm
deriving DecidableEq

/-- What is done under the locks. -/
inductive SlotOp (η : Type) where
  /-- The heap allocates or frees. -/
  | heap
  /-- `is_some()`. -/
  | inspect (v : Fin 256)
  /-- `is_some()`, where `uacpi_kernel_install_interrupt_handler` asks. -/
  | check (v : Fin 256) (h : η)
  /-- The handler in the slot is dropped. -/
  | drop (v : Fin 256)
  /-- The slot is written. -/
  | write (v : Fin 256) (x : Option η)
  /-- `if let Some(handler) = slot.as_mut() { handler(frame) } else { println!(..) }`. -/
  | dispatch (v : Fin 256)

/-- Code of the kernel. -/
abbrev Code (η : Type) := List (Instr KernelLock (Fin 256) (SlotOp η))

section

variable {η : Type}

/-- A call of the PMM. -/
def pmmCall : Code η := [.lock .pmm .exchange, .unlock .pmm .load]

/-- A call of the heap. -/
def heapCall : Code η := [.lock .heap .exchange, .op .heap, .unlock .heap .load]

/-- `println!`, which writes in a critical section. -/
def printCall : Code η := [.enter .readIf, .leave]

/-- A closure that captures something has a box on the heap: `Box::new`, and dropping it. -/
def boxCall (boxed : η → Bool) (h : η) : Code η := if boxed h then heapCall else []

/-- `is_handler_installed`. -/
def isHandlerInstalledCode (v : Fin 256) : Code η :=
  [.spinLock v, .op (.inspect v), .spinUnlock v]

/-- `install_handler`. -/
def installHandlerCode (boxed : η → Bool) (v : Fin 256) (h : η) : Code η :=
  boxCall boxed h ++ [.spinLock v, .op (.drop v), .op (.write v (some h)), .spinUnlock v]

/-- `clear_handler`. -/
def clearHandlerCode (v : Fin 256) : Code η :=
  [.spinLock v, .op (.drop v), .op (.write v none), .spinUnlock v]

/-- `uacpi_kernel_install_interrupt_handler`, up to the answer of `is_handler_installed`, for an
`irq` whose vector `irq + 0x20` does not overflow. -/
def uacpiInstallCode (irq : ℕ) (h : η) : Code η :=
  [.spinLock (vectorOf irq), .op (.check (vectorOf irq) h)]

/-- `uacpi_kernel_uninstall_interrupt_handler`. -/
def uacpiUninstallCode (handle : ℕ) : Code η := clearHandlerCode (Fin.ofNat 256 handle)

/-- `isr_handler`, for a vector of the table. -/
def isrCode (v : Fin 256) : Code η := [.spinLock v, .op (.dispatch v), .spinUnlock v]

/-- What the operations do to the table, and the calls that follow: `boxed` says which closures
have a box, and `body` is the code of a handler. -/
inductive SlotAct (boxed : η → Bool) (body : η → Code η) :
    SlotOp η → Handlers η → Code η → Handlers η → Prop
  | heap {t} : SlotAct boxed body .heap t [] t
  | heapPages {t} : SlotAct boxed body .heap t pmmCall t
  | inspect {v t} : SlotAct boxed body (.inspect v) t [] t
  | checkTaken {v h t} : isHandlerInstalled t v = true →
      SlotAct boxed body (.check v h) t [.spinUnlock v] t
  | checkFree {v h t} : isHandlerInstalled t v = false →
      SlotAct boxed body (.check v h) t (.spinUnlock v :: installHandlerCode boxed v h) t
  | drop {v h t} : t v = some h → SlotAct boxed body (.drop v) t (boxCall boxed h) t
  | dropNone {v t} : t v = none → SlotAct boxed body (.drop v) t [] t
  | write {v x t} : SlotAct boxed body (.write v x) t [] (Function.update t v x)
  | handler {v h t} : t v = some h → SlotAct boxed body (.dispatch v) t (body h) t
  | unhandled {v t} : t v = none → SlotAct boxed body (.dispatch v) t printCall t

/-- A call that the kernel makes: one of the slots, or one that turns interrupts on or off. -/
inductive SlotCall (η : Type) where
  | isHandlerInstalled (v : Fin 256)
  | installHandler (v : Fin 256) (h : η)
  | clearHandler (v : Fin 256)
  | uacpiInstall (irq : ℕ) (h : η)
  | uacpiUninstall (handle : ℕ)
  | irq (enable : Bool)

def SlotCall.code (boxed : η → Bool) : SlotCall η → Code η
  | .isHandlerInstalled v => isHandlerInstalledCode v
  | .installHandler v h => installHandlerCode boxed v h
  | .clearHandler v => clearHandlerCode v
  | .uacpiInstall n h => uacpiInstallCode n h
  | .uacpiUninstall handle => uacpiUninstallCode handle
  | .irq enable => [.irq enable]

/-- The processor: the interrupts of the table start `isr_handler`. -/
def slotSystem (boxed : η → Bool) (body : η → Code η) :
    System (Frame KernelLock (Fin 256) (SlotOp η))
      (Shared KernelLock (Fin 256) (Handlers η)) (Fin 256) :=
  system (SlotAct boxed body) fun v f => IsSlotVector v ∧ f = ⟨isrCode v, []⟩

/-- Before the first call: no lock is taken. The table and the interrupt flag are arbitrary. -/
structure SlotStart (boxed : η → Bool)
    (c : Cpu (Frame KernelLock (Fin 256) (SlotOp η))
      (Shared KernelLock (Fin 256) (Handlers η))) : Prop where
  calls : ∃ l : List (SlotCall η), c.running = ⟨l.flatMap (SlotCall.code boxed), []⟩
  interrupted_eq : c.interrupted = []
  free : ∀ l, ¬ Taken c.mem l

end

/-! ## The calls are well nested -/

section

variable {η : Type} {boxed : η → Bool} {body : η → Code η}
  {gs : List (Option (Lock KernelLock (Fin 256)))} {c : Code η}

/-- Code that can stand anywhere: it gives back what it takes, and leaves the interrupt flag
as it is. -/
def Whole (boxed : η → Bool) (body : η → Code η) (p : Code η) : Prop :=
  ∀ gs c, Nested (SlotAct boxed body) gs c → Nested (SlotAct boxed body) gs (p ++ c)

theorem whole_nil : Whole boxed body [] := fun _ _ h => h

theorem whole_pmmCall : Whole boxed body pmmCall := fun _ _ h => .lock (.unlock h)

theorem whole_heapCall : Whole boxed body heapCall := by
  intro gs c hc
  refine .lock (.op ?_)
  intro d more d' hact
  cases hact with
  | heap => exact .unlock hc
  | heapPages => exact whole_pmmCall _ _ (.unlock hc)

theorem whole_boxCall (h : η) : Whole boxed body (boxCall boxed h) := by
  unfold boxCall
  split_ifs
  · exact whole_heapCall
  · exact whole_nil

theorem whole_printCall : Whole boxed body printCall := fun _ _ h => .enter (.leave h)

theorem whole_isHandlerInstalledCode (v : Fin 256) :
    Whole boxed body (isHandlerInstalledCode v) := by
  intro gs c hc
  refine .spinLock (.op ?_)
  intro d more d' hact
  cases hact with
  | inspect => exact .spinUnlock hc

/-- A slot is replaced under its lock. -/
theorem whole_replace (v : Fin 256) (x : Option η) :
    Whole boxed body [.spinLock v, .op (.drop v), .op (.write v x), .spinUnlock v] := by
  intro gs c hc
  -- dropping what was there may free memory, and leads to the same write
  have hwrite : Nested (SlotAct boxed body) (some (.spin v) :: gs)
      (.op (.write v x) :: .spinUnlock v :: c) := by
    refine .op ?_
    intro d more d' hact
    cases hact with
    | write => exact .spinUnlock hc
  refine .spinLock (.op ?_)
  intro d more d' hact
  cases hact with
  | drop _ => exact whole_boxCall _ _ _ hwrite
  | dropNone _ => exact hwrite

theorem whole_installHandlerCode (v : Fin 256) (h : η) :
    Whole boxed body (installHandlerCode boxed v h) := by
  intro gs c hc
  unfold installHandlerCode
  rw [List.append_assoc]
  exact whole_boxCall h _ _ (whole_replace v (some h) _ _ hc)

theorem whole_uacpiInstallCode (irq : ℕ) (h : η) : Whole boxed body (uacpiInstallCode irq h) := by
  intro gs c hc
  refine .spinLock (.op ?_)
  intro d more d' hact
  cases hact with
  | checkTaken _ => exact .spinUnlock hc
  | checkFree _ => exact .spinUnlock (whole_installHandlerCode _ h _ _ hc)

theorem isrCode_begins (hbody : ∀ h, Whole boxed body (body h)) (v : Fin 256) :
    Begins (SlotAct boxed body) ⟨isrCode v, []⟩ := by
  refine ⟨rfl, .spinLock (.op ?_)⟩
  intro d more d' hact
  cases hact with
  | handler _ => exact hbody _ _ _ (.spinUnlock .nil)
  | unhandled _ => exact whole_printCall _ _ (.spinUnlock .nil)

theorem SlotCall.nested_code (x : SlotCall η) (hc : Nested (SlotAct boxed body) [] c) :
    Nested (SlotAct boxed body) [] (x.code boxed ++ c) := by
  cases x with
  | isHandlerInstalled v => exact whole_isHandlerInstalledCode v _ _ hc
  | installHandler v h => exact whole_installHandlerCode v h _ _ hc
  | clearHandler v => exact whole_replace v none _ _ hc
  | uacpiInstall irq h => exact whole_uacpiInstallCode irq h _ _ hc
  | uacpiUninstall handle => exact whole_replace _ none _ _ hc
  | irq enable => exact .irq hc

theorem nested_calls (l : List (SlotCall η)) :
    Nested (SlotAct boxed body) [] (l.flatMap (SlotCall.code boxed)) := by
  induction l with
  | nil => exact .nil
  | cons x l ih =>
      rw [List.flatMap_cons]
      exact x.nested_code ih

theorem SlotStart.start {c : Cpu (Frame KernelLock (Fin 256) (SlotOp η))
    (Shared KernelLock (Fin 256) (Handlers η))} (h : SlotStart boxed c) :
    Sync.Start (SlotAct boxed body) c := by
  rcases h.calls with ⟨l, hl⟩
  refine ⟨?_, h.interrupted_eq, h.free⟩
  rw [hl]
  exact ⟨rfl, nested_calls l⟩

end

/-! ## Interrupts and the locks -/

/-- The lock is one of the slots `S`. -/
def OfSlots {ι ν : Type} (S : ν → Prop) : Lock ι ν → Prop
  | .int _ => False
  | .spin v => S v

section

variable {η : Type} {boxed : η → Bool} {body : η → Code η}
  {c₀ c : Cpu (Frame KernelLock (Fin 256) (SlotOp η)) (Shared KernelLock (Fin 256) (Handlers η))}

/-- If the locks of the slots `S` are taken with interrupts off, code that wants one of them
never finds it with code that was interrupted; this is so for `isr_handler` and for all that
handlers do. `isr_handler` goes to no other slots than those of `IsSlotVector`, and for each of
these the condition is needed: if its lock is taken with interrupts on, the interrupt of that slot
can come next, and its `isr_handler` wants the lock. -/
theorem slots_never_awaited (hbody : ∀ h, Whole boxed body (body h))
    (hstart : SlotStart boxed c₀) (S : Fin 256 → Prop)
    (hrun : Reach (slotSystem boxed body) (Masked (OfSlots S)) c₀ c) :
    (∀ v rest, S v → c.running.code = .spinLock v :: rest →
      ∀ f ∈ c.interrupted, .spin v ∉ f.held) ∧
      ∀ v rest c', IsSlotVector v → c.running.code = .spinLock v :: rest →
        c.mem.spins v = false → Step (slotSystem boxed body) .exec c c' →
        (c.enabled = true ↔ ∃ h, Step (slotSystem boxed body) (.interrupt v) c' h ∧
          h.running.code = isrCode v ∧ ∃ f ∈ h.interrupted, .spin v ∈ f.held) := by
  constructor
  · -- code that was interrupted had interrupts on, so it holds none of these locks
    intro v rest hv _
    have hhandler : ∀ (v : Fin 256) h, (IsSlotVector v ∧ h = ⟨isrCode v, []⟩) →
        Begins (SlotAct boxed body) h := by
      rintro v h ⟨-, rfl⟩
      exact isrCode_begins hbody v
    exact (hstart.start.notMem_held hhandler hrun (l := .spin v) hv).2
  · intro v rest c' hv hcode hfree hstep
    rcases c with ⟨m, e, ⟨code, gs⟩, fs⟩
    change code = _ at hcode
    subst hcode
    cases hstep with
    | exec hexec =>
        cases hexec with
        | spinWait hlocked => exact absurd (hfree.symm.trans hlocked) Bool.false_ne_true
        | spinLock _ =>
            -- the step leaves the interrupt flag as it is
            constructor
            · intro he
              change e = true at he
              subst he
              exact ⟨_, .interrupt ⟨hv, rfl⟩, rfl, _, List.mem_cons_self, List.mem_cons_self⟩
            · rintro ⟨h, hint, -⟩
              cases hint with
              | interrupt _ => rfl

end

/-! ## An interrupt after and under the lock -/

/-- The kernel asks for slot `0x21` with interrupts off, turns them on, and asks for slot 3, to
which no interrupt goes. -/
def askingMasked : Cpu (Frame KernelLock (Fin 256) (SlotOp Unit))
    (Shared KernelLock (Fin 256) (Handlers Unit)) :=
  ⟨⟨fun _ => ⟨false, false⟩, fun _ => false, fun _ => none⟩, false,
    ⟨isHandlerInstalledCode 0x21 ++ .irq true :: isHandlerInstalledCode 3, []⟩, []⟩

theorem askingMasked_start : SlotStart (fun _ => true) askingMasked := by
  refine ⟨⟨[.isHandlerInstalled 0x21, .irq true, .isHandlerInstalled 3], rfl⟩, rfl, ?_⟩
  intro l
  cases l with
  | int i => exact Bool.false_ne_true
  | spin v => exact Bool.false_ne_true

/-- It has the lock of slot `0x21`. -/
def heldMasked : Cpu (Frame KernelLock (Fin 256) (SlotOp Unit))
    (Shared KernelLock (Fin 256) (Handlers Unit)) :=
  ⟨askingMasked.mem.setSpin 0x21 true, false,
    ⟨.op (.inspect 0x21) :: .spinUnlock 0x21 :: .irq true :: isHandlerInstalledCode 3,
      [⟨some (.spin 0x21), false⟩]⟩, []⟩

theorem heldMasked_run :
    Reach (slotSystem (fun _ => true) fun _ => []) (Masked (OfSlots IsSlotVector)) askingMasked
      heldMasked := by
  refine Relation.ReflTransGen.single ⟨.exec, ⟨?_, ?_⟩, .exec (.spinLock rfl)⟩
  · exact fun _ _ _ _ => rfl
  · exact fun _ _ _ _ => rfl

/-- The lock is given back, interrupts are turned on, and the lock of slot 3 is taken. Then the
interrupt of vector `0x21` comes. -/
theorem interruptedMasked_run : ∃ c,
    Reach (slotSystem (fun _ => true) fun _ => []) (Masked (OfSlots IsSlotVector)) heldMasked c ∧
    c.running.code = isrCode 0x21 ∧ ∃ f ∈ c.interrupted, .spin 3 ∈ f.held := by
  have hoff : ∀ m f, Masked (OfSlots IsSlotVector)
      (⟨m, false, f, []⟩ : Cpu (Frame KernelLock (Fin 256) (SlotOp Unit))
        (Shared KernelLock (Fin 256) (Handlers Unit))) (.exec : Event (Fin 256)) := by
    intro m f
    exact ⟨fun _ _ _ _ => rfl, fun _ _ _ _ => rfl⟩
  -- no interrupt goes to slot 3, so that its lock may be taken with interrupts on
  have hthird : ∀ m, Masked (OfSlots IsSlotVector)
      (⟨m, true, ⟨isHandlerInstalledCode 3, []⟩, []⟩ :
        Cpu (Frame KernelLock (Fin 256) (SlotOp Unit))
          (Shared KernelLock (Fin 256) (Handlers Unit))) (.exec : Event (Fin 256)) := by
    intro m
    constructor
    · intro i rest hcode
      cases hcode
    · intro v rest hcode hv
      cases hcode
      exact absurd hv (by decide : ¬ IsSlotVector 3)
  have hrun : Reach (slotSystem (fun _ => true) fun _ => []) (Masked (OfSlots IsSlotVector))
      heldMasked ⟨(heldMasked.mem.setSpin 0x21 false).setSpin 3 true, false, ⟨isrCode 0x21, []⟩,
        [⟨[.op (.inspect 3), .spinUnlock 3], [⟨some (.spin 3), true⟩]⟩]⟩ := by
    refine Relation.ReflTransGen.head ⟨.exec, hoff _ _, .exec (.op .inspect)⟩ ?_
    refine Relation.ReflTransGen.head ⟨.exec, hoff _ _, .exec .spinUnlock⟩ ?_
    refine Relation.ReflTransGen.head ⟨.exec, hoff _ _, .exec .irq⟩ ?_
    refine Relation.ReflTransGen.head ⟨.exec, hthird _, .exec (.spinLock rfl)⟩ ?_
    exact Relation.ReflTransGen.single ⟨.interrupt 0x21, trivial, .interrupt ⟨by decide, rfl⟩⟩
  exact ⟨_, hrun, rfl, _, List.mem_cons_self, List.mem_cons_self⟩

/-- In that run, nobody has the lock that `isr_handler` wants. -/
theorem slots_never_awaited_masked : ∃ c, SlotStart (fun _ => true) askingMasked ∧
    Reach (slotSystem (fun _ => true) fun _ => []) (Masked (OfSlots IsSlotVector)) askingMasked
      heldMasked ∧ .spin 0x21 ∈ heldMasked.running.held ∧
    Reach (slotSystem (fun _ => true) fun _ => []) (Masked (OfSlots IsSlotVector)) heldMasked c ∧
    c.running.code = isrCode 0x21 ∧ (∃ f ∈ c.interrupted, .spin 3 ∈ f.held) ∧
    ∀ f ∈ c.interrupted, .spin 0x21 ∉ f.held := by
  rcases interruptedMasked_run with ⟨c, hrun, hcode, hthird⟩
  have hnever := (slots_never_awaited (fun _ => whole_nil) askingMasked_start IsSlotVector
    (heldMasked_run.trans hrun)).1 0x21 _ (by decide) hcode
  exact ⟨c, askingMasked_start, heldMasked_run, List.mem_cons_self, hrun, hcode, hthird, hnever⟩

/-- The kernel is about to ask for slot `0x21`, with interrupts on. -/
def asking : Cpu (Frame KernelLock (Fin 256) (SlotOp Unit))
    (Shared KernelLock (Fin 256) (Handlers Unit)) :=
  ⟨⟨fun _ => ⟨false, false⟩, fun _ => false, fun _ => none⟩, true,
    ⟨isHandlerInstalledCode 0x21, []⟩, []⟩

theorem asking_start : SlotStart (fun _ => true) asking := by
  refine ⟨⟨[.isHandlerInstalled 0x21], rfl⟩, rfl, ?_⟩
  intro l
  cases l with
  | int i => exact Bool.false_ne_true
  | spin v => exact Bool.false_ne_true

/-- The interrupt comes while `is_handler_installed` has the lock of its slot. Nothing else
ever happens. -/
theorem slot_awaited : ∃ c h, SlotStart (fun _ => true) asking ∧
    Reach (slotSystem (fun _ => true) fun _ => []) (fun _ _ => True) asking c ∧
    Step (slotSystem (fun _ => true) fun _ => []) (.interrupt 0x21) c h ∧
    h.running.code = isrCode 0x21 ∧ (∃ f ∈ h.interrupted, .spin 0x21 ∈ f.held) ∧
    ∀ h', Reach (slotSystem (fun _ => true) fun _ => []) (fun _ _ => True) h h' → h' = h := by
  have hlock : Step (slotSystem (fun _ => true) fun _ => []) .exec asking
      ⟨asking.mem.setSpin 0x21 true, true,
        ⟨[.op (.inspect 0x21), .spinUnlock 0x21], [⟨some (.spin 0x21), true⟩]⟩, []⟩ :=
    .exec (.spinLock rfl)
  refine ⟨_, ⟨asking.mem.setSpin 0x21 true, false, ⟨isrCode 0x21, []⟩, [_]⟩, asking_start,
    Relation.ReflTransGen.single ⟨.exec, trivial, hlock⟩, .interrupt ⟨by decide, rfl⟩, rfl,
    ⟨_, List.mem_cons_self, List.mem_cons_self⟩, ?_⟩
  intro h' hrun
  -- the handler waits, and interrupts are off
  refine Reach.invariant (I := fun c => c = _) ?_ hrun rfl
  rintro c ev c' - hstep rfl
  cases hstep with
  | exec hexec =>
      cases hexec with
      | spinLock hfree => cases hfree
      | spinWait _ => rfl
  | iret hfin => cases hfin

end Prometheos.Idt
