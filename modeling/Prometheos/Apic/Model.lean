import Prometheos.Acpi.Model

/-!
# The keyboard interrupt (`apic.rs`)

`apic::init` masks the legacy controller, attaches the local APIC, and routes the interrupt of
the keyboard, ISA IRQ 1, through an I/O APIC. It finds the I/O APIC and the global system
interrupt (GSI) of the keyboard in the MADT, a table of the firmware, which it scans twice.

The MADT is a list of subtables, of which only what is read is kept. uACPI calls a callback for
one after the other until the callback answers that this is enough (`forEachSubtable`). The
devices are known by the calls that were made (`Access`). `IoApic::enable` belongs to the `x86`
crate: for which pins it returns is a parameter (`IoApic`). What is only printed is left out.
-/

namespace Prometheos.Apic

open Vmm

/-! ## The MADT -/

/-- `acpi_madt_ioapic`. -/
structure MadtIoapic where
  address : UInt32
  gsiBase : UInt32
deriving DecidableEq

/-- `acpi_madt_interrupt_source_override`. -/
structure MadtInterruptSourceOverride where
  source : UInt8
  gsi : UInt32
deriving DecidableEq

/-- A subtable, by its type. -/
inductive Subtable where
  | ioapic (ioapic : MadtIoapic)
  | interruptSourceOverride (iso : MadtInterruptSourceOverride)
  | other (type : UInt8)
deriving DecidableEq

/-- `uacpi_iteration_decision`. -/
inductive IterationDecision where
  | continues
  | breaks

/-- `uacpi_for_each_subtable`: the callback gets what it has made of `user` so far. -/
def forEachSubtable {υ : Type} (cb : υ → Subtable → υ × IterationDecision) : υ →
    List Subtable → υ
  | user, [] => user
  | user, hdr :: rest =>
      match cb user hdr with
      | (user, .breaks) => user
      | (user, .continues) => forEachSubtable cb user rest

/-- What `uacpi_table_find_by_signature` finds for `APIC`. -/
abbrev Madt := Option (List Subtable)

/-- `ApicError`. -/
inductive ApicError where
  | acpiTableNotFound
  | ioApicNotFound
  | couldNotMap (e : MapError)
deriving DecidableEq

/-- `ioapic_cb`. -/
def ioapicCb (out : Option (ℕ × UInt32)) : Subtable → Option (ℕ × UInt32) × IterationDecision
  | .ioapic ioapic => (some (ioapic.address.toNat, ioapic.gsiBase), .breaks)
  | _ => (out, .continues)

/-- `find_ioapic`. -/
def findIoapic : Madt → Except ApicError (ℕ × UInt32)
  | none => .error .acpiTableNotFound
  | some entries =>
      match forEachSubtable ioapicCb none entries with
      | some out => .ok out
      | none => .error .ioApicNotFound

/-- `IsoCtx`. -/
structure IsoCtx where
  source : UInt8
  gsi : UInt32

/-- `iso_cb`. -/
def isoCb (ctx : IsoCtx) : Subtable → IsoCtx × IterationDecision
  | .interruptSourceOverride iso =>
      if iso.source = ctx.source then ({ ctx with gsi := iso.gsi }, .breaks)
      else (ctx, .continues)
  | _ => (ctx, .continues)

/-- `resolve_isa_irq`. -/
def resolveIsaIrq (madt : Madt) (source : UInt8) : UInt32 :=
  match madt with
  | none => source.toUInt32
  | some entries => (forEachSubtable isoCb ⟨source, source.toUInt32⟩ entries).gsi

/-! ## Initialisation -/

/-- `IoApic` of the `x86` crate. A pin has two registers, whose numbers `16 + 2 * irq` and
`17 + 2 * irq` the crate computes in `u8`: from pin 120 on `enable` panics. -/
class IoApic where
  /-- Whether `enable` returns for a pin. -/
  enables : UInt8 → Bool
  enables_iff : ∀ irq, enables irq = true ↔ irq.toNat < 120

/-- The crate as described. -/
@[reducible] def IoApic.described : IoApic where
  enables irq := irq.toNat < 120
  enables_iff _ := decide_eq_true_iff

/-- A call that has reached a device, or the table of interrupt handlers. -/
inductive Access where
  | outb (port value : ℕ)
  | lapicAttach
  | installHandler (vector : ℕ)
  /-- `IoApic::new(virt).enable(irq, cpunum)`. -/
  | ioapicEnable (virt : ℕ) (irq cpunum : UInt8)
  | irqEnable

/-- What `init` works on: the page tables, the register `IA32_X2APIC_APICID`, and the calls so
far. -/
structure Board where
  vm : Vm
  apicId : UInt64
  accesses : List Access

def access (a : Access) : Run Board Unit :=
  Prog.update fun s => { s with accesses := s.accesses ++ [a] }

def onVm {α : Type} (x : Run Vm α) : Run Board α :=
  Prog.zoom Board.vm (fun vm s => { s with vm := vm }) x

/-- The message of the check in `init`. -/
def belowBase (kbGsi baseGsi : UInt32) : String :=
  "keyboard gsi " ++ hex kbGsi.toNat ++ " below ioapic base " ++ hex baseGsi.toNat

/-- `init` before it looks for the I/O APIC; `bsp_id` is returned. -/
def prepare : Run Board UInt32 := do
  -- mask the legacy PIC
  access (.outb 0x21 0xFF)
  access (.outb 0xA1 0xFF)
  access .lapicAttach
  let bspId ← Prog.gets (·.apicId.toUInt32)
  access (.installHandler 0x21)
  pure bspId

section

variable [X86]

/-- `vmm::map_hhdm`. -/
def mapHhdm (phys : ℕ) (flags : PTFlags) (size : PageSize) : Run Vm (Except MapError ℕ) := do
  let hhdm ← Prog.gets (·.hhdmOffset)
  let virt ← addU64 phys hhdm
  let r ← Vmm.map virt phys flags size
  match r with
  | .ok _ => pure (.ok virt)
  | .error e => pure (.error e)

variable [IoApic]

/-- `IoApic::new(virt).enable(irq, cpunum)`. -/
def ioapicEnable (virt : ℕ) (irq cpunum : UInt8) : Run Board Unit := do
  Prog.require (IoApic.enables irq) (.panic "arithmetic overflow")
  access (.ioapicEnable virt irq cpunum)

/-- `init` from the mapping on. -/
def route (phys : ℕ) (baseGsi kbGsi bspId : UInt32) : Run Board (Except ApicError Unit) := do
  let r ← onVm (mapHhdm phys Acpi.mapFlags .base)
  match r with
  | .error e => pure (.error (.couldNotMap e))
  | .ok virt => do
      -- `(kb_gsi - base_gsi) as u8`; the check before keeps the difference from wrapping
      ioapicEnable virt (kbGsi - baseGsi).toUInt8 bspId.toUInt8
      access .irqEnable
      pure (.ok ())

/-- `init`. -/
def init (madt : Madt) : Run Board (Except ApicError Unit) := do
  let bspId ← prepare
  match findIoapic madt with
  | .error e => pure (.error e)
  | .ok (phys, baseGsi) => do
      let kbGsi := resolveIsaIrq madt 1
      Prog.require (baseGsi ≤ kbGsi) (.panic (belowBase kbGsi baseGsi))
      route phys baseGsi kbGsi bspId

end

end Prometheos.Apic
