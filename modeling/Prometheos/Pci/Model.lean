import Prometheos.Vmm.Model

/-!
# PCI enumeration (`pci.rs`)

Configuration space is read through memory (ECAM) once `MCFG_ADDRESS` is set, through the ports
`0xCF8` and `0xCFC` before. What the machine answers is arbitrary but does not change: a byte for
each address, and a byte for each data port and each address that was written to `0xCF8`.

`enum_bus` and `enum_device` call each other for as long as bridges lead on, which may be for
ever; the model is given the number of nested calls of `enum_bus` that the stack has room for,
and stops when they are used up. The addresses that were dereferenced and the buses on which
`enum_bus` was called are kept to speak about runs. What is only printed is left out.
-/

namespace Prometheos.Pci

open Vmm

/-! ## Configuration space -/

/-- `PciAddress`; the components are `u8`. -/
structure PciAddress where
  bus : ℕ
  device : ℕ
  function : ℕ
deriving DecidableEq

/-- What the enumeration reads and changes. -/
structure Config where
  /-- `MCFG_ADDRESS`. -/
  mcfgAddress : ℕ
  /-- The bytes that pointers lead to. -/
  memory : ℕ → Fin 256
  /-- What was last written to port `0xCF8`. -/
  cf8 : ℕ
  /-- The bytes at the data ports, for what was written to port `0xCF8`. -/
  ports : ℕ → ℕ → Fin 256
  /-- The functions that were found. -/
  devices : List PciAddress
  /-- The addresses that were dereferenced, the latest first. -/
  derefs : List ℕ
  /-- The buses on which `enum_bus` was called, the latest first. -/
  scanned : List ℕ

/-- `PciAddress::io_address`. -/
def PciAddress.ioAddress (a : PciAddress) (offset : ℕ) : ℕ :=
  0x80000000 ||| a.bus <<< 16 ||| a.device <<< 11 ||| a.function <<< 8 ||| (offset &&& 0xFC)

/-- `PciAddress::mmio_address`. -/
def PciAddress.mmioAddress {σ : Type} (a : PciAddress) (offset mcfg : ℕ) : Run σ ℕ := do
  let x ← addU64 mcfg (shlU64 a.bus 20)
  let x ← addU64 x (shlU64 a.device 15)
  let x ← addU64 x (shlU64 a.function 12)
  addU64 x offset

/-- The little-endian value of `n` bytes. -/
def value (bytes : ℕ → Fin 256) (start : ℕ) : ℕ → ℕ
  | 0 => 0
  | n + 1 => bytes start + 256 * value bytes (start + 1) n

/-- `pci_read`, for a type of `size` bytes. -/
def pciRead (size : ℕ) (a : PciAddress) (offset : ℕ) : Run Config ℕ := do
  Prog.require (size = 1 ∨ size = 2 ∨ size = 4) (.panic "unsupported size")
  let mcfg ← Prog.gets (·.mcfgAddress)
  if mcfg ≠ 0 then do
    let p ← a.mmioAddress offset mcfg
    Prog.update fun s => { s with derefs := p :: s.derefs }
    Prog.gets fun s => value s.memory p size
  else do
    Prog.update fun s => { s with cf8 := a.ioAddress offset }
    let port := 0xCFC + (offset &&& 3)
    Prog.gets fun s => value (s.ports s.cf8) port size

/-! ## Enumeration -/

/-- `(class_info >> 24) & 0xFF`. -/
def classCode (classInfo : ℕ) : ℕ := classInfo >>> 24 &&& 0xFF

/-- `(class_info >> 16) & 0xFF`. -/
def subclass (classInfo : ℕ) : ℕ := classInfo >>> 16 &&& 0xFF

/-- `(header_reg >> 16) & 0xFF`. -/
def headerByte (headerReg : ℕ) : ℕ := headerReg >>> 16 &&& 0xFF

/-- `class_code == 0x06 && matches!(subclass, 0x04 | 0x09) && header_type == 1`. -/
def IsBridge (classInfo headerReg : ℕ) : Prop :=
  classCode classInfo = 0x06 ∧ (subclass classInfo = 0x04 ∨ subclass classInfo = 0x09) ∧
    headerByte headerReg &&& 0x7F = 1

instance (classInfo headerReg : ℕ) : Decidable (IsBridge classInfo headerReg) :=
  inferInstanceAs (Decidable (_ ∧ _ ∧ _))

/-- `(pci_read::<u32>(pciaddr, 0x18) >> 8) as u8`. -/
def secondaryBus (busReg : ℕ) : ℕ := (busReg >>> 8) % 256

/-- What is behind a function: the secondary bus, if it is a bridge. -/
def enumBehind (enumBus : ℕ → Run Config Unit) (a : PciAddress) (classInfo headerReg : ℕ) :
    Run Config Unit :=
  if IsBridge classInfo headerReg then do
    let busReg ← pciRead 4 a 0x18
    enumBus (secondaryBus busReg)
  else pure ()

/-- A turn of the loop of `enum_device` once the vendor is read; `next` are the turns after it. -/
def enumFunction (enumBus : ℕ → Run Config Unit) (next : Run Config Unit) (a : PciAddress)
    (vendorDevice : ℕ) : Run Config Unit :=
  if vendorDevice &&& 0xFFFF = 0xFFFF then
    if a.function = 0 then pure () else next
  else do
    let classInfo ← pciRead 4 a 0x08
    let headerReg ← pciRead 4 a 0x0C
    Prog.update fun s => { s with devices := s.devices ++ [a] }
    enumBehind enumBus a classInfo headerReg
    if a.function = 0 ∧ headerByte headerReg &&& 0x80 = 0 then pure () else next

/-- The loop of `enum_device` over the functions that are left. -/
def enumFunctions (enumBus : ℕ → Run Config Unit) (bus device : ℕ) : List ℕ → Run Config Unit
  | [] => pure ()
  | function :: rest => do
      let vendorDevice ← pciRead 4 ⟨bus, device, function⟩ 0x00
      enumFunction enumBus (enumFunctions enumBus bus device rest) ⟨bus, device, function⟩
        vendorDevice

/-- `enum_device`. -/
def enumDevice (enumBus : ℕ → Run Config Unit) (bus device : ℕ) : Run Config Unit :=
  enumFunctions enumBus bus device (List.range 8)

/-- `enum_bus`, with room on the stack for `depth` nested calls. -/
def enumBus : ℕ → ℕ → Run Config Unit
  | 0, _ => Prog.fault (.undefined "stack overflow")
  | depth + 1, bus => do
      Prog.update fun s => { s with scanned := bus :: s.scanned }
      (List.range 32).forM fun device => enumDevice (enumBus depth) bus device

/-! ## `init` -/

/-- `acpi_mcfg_allocation`, the first entry of the MCFG. -/
structure McfgEntry where
  address : ℕ
  startBus : ℕ
  endBus : ℕ

/-- `PciError`. -/
inductive PciError where
  | mcfgNotFound
  | couldNotMap (e : MapError)

/-- What `init` changes. -/
structure Kernel where
  vm : Vm
  pci : Config

/-- The pages for the buses of an entry. -/
def windowPages {σ : Type} (entry : McfgEntry) : Run σ ℕ := do
  let span ← subU64 entry.endBus entry.startBus
  let busCount ← addU64 span 1
  let bytes := shlU64 busCount 20
  let stride := PageSize.large.bytes
  pure ((bytes + stride - 1) / stride)

/-- `PTFlags::P | PTFlags::RW | PTFlags::XD | PTFlags::PCD | PTFlags::PWT`. -/
def windowFlags : PTFlags :=
  ⟨flagP ||| flagRW ||| flagXD ||| flagPCD ||| flagPWT, deviceFlags_within⟩

section

variable [X86]

/-- `init`, where `entry` is the first entry of the MCFG, if there is one. -/
def init (depth : ℕ) (entry : Option McfgEntry) :
    Run Kernel (Except PciError (List PciAddress)) :=
  match entry with
  | none => pure (.error .mcfgNotFound)
  | some entry => do
      let pages ← windowPages entry
      let hhdm ← Prog.gets (·.vm.hhdmOffset)
      let virt ← addU64 entry.address hhdm
      let mapped ← Prog.zoom Kernel.vm (fun vm s => { s with vm := vm })
        (mapRange virt entry.address pages windowFlags .large)
      match mapped with
      | .error e => pure (.error (.couldNotMap e))
      | .ok () => do
          Prog.update fun s => { s with pci := { s.pci with mcfgAddress := virt, devices := [] } }
          Prog.zoom Kernel.pci (fun pci s => { s with pci := pci })
            (enumBus depth entry.startBus)
          let devices ← Prog.gets (·.pci.devices)
          pure (.ok devices)

end

end Prometheos.Pci
