import Prometheos.Boot.Model
import Prometheos.Vmm.Model

/-!
# Mappings for uACPI (`acpi/uacpi.rs`)

uACPI, the library that interprets the tables of the firmware, asks the kernel for access to
ranges of physical memory. `uacpi_kernel_map` maps the pages of a range at their place in the
direct map, and takes a page that is mapped already as it is. `uacpi_kernel_unmap` unmaps the
pages of the range, whoever else uses them.
-/

namespace Prometheos.Acpi

open Vmm Boot

/-- `BASE_PAGE_SIZE`. -/
def basePageSize : ℕ := 4096

/-- `PTFlags::P | PTFlags::RW | PTFlags::XD | PTFlags::PCD | PTFlags::PWT`. -/
def mapFlags : PTFlags :=
  ⟨flagP ||| flagRW ||| flagXD ||| flagPCD ||| flagPWT, deviceFlags_within⟩

/-- `Ok(()) | Err(MapError::AlreadyMapped)`. -/
def isMapped : Except MapError Unit → Bool
  | .ok _ => true
  | .error .alreadyMapped => true
  | .error _ => false

section

variable [X86]

/-- The loop of `uacpi_kernel_map`, with at most `n` turns left; `false` if it fails. Every
turn brings `phys` nearer to `last`, so that `last - phys` turns are enough. -/
def mapLoop (page hhdm last : ℕ) : ℕ → ℕ → Run Vm Bool
  | 0, _ => pure true
  | n + 1, phys =>
      if phys < last then do
        let virt ← addU64 phys hhdm
        let r ← Vmm.map virt phys mapFlags .base
        if isMapped r then do
          let phys ← addU64 phys page
          mapLoop page hhdm last n phys
        else pure false
      else pure true

/-- `uacpi_kernel_map`; the null pointer is `0`. -/
def uacpiKernelMap (addr len : ℕ) : Run Vm ℕ := do
  let hhdm ← Prog.gets (·.hhdmOffset)
  let page := basePageSize
  let phys ← alignDown addr page
  let sum ← addU64 addr len
  let last ← alignUp sum page
  let done ← mapLoop page hhdm last (last - phys) phys
  if done then addU64 addr hhdm else pure 0

/-- The loop of `uacpi_kernel_unmap`; a failure is only printed. -/
def unmapLoop (page last : ℕ) : ℕ → ℕ → Run Vm Unit
  | 0, _ => pure ()
  | n + 1, virt =>
      if virt < last then do
        let _ ← Vmm.unmap virt .base
        let virt ← addU64 virt page
        unmapLoop page last n virt
      else pure ()

/-- `uacpi_kernel_unmap`. -/
def uacpiKernelUnmap (addr len : ℕ) : Run Vm Unit := do
  let page := basePageSize
  let virt ← alignDown addr page
  let sum ← addU64 addr len
  let last ← alignUp sum page
  unmapLoop page last (last - virt) virt

end

/-- The first address of the pages of a range. -/
def pagesFrom (addr : ℕ) : ℕ := addr / 4096 * 4096

/-- The end of the pages of a range. -/
def pagesTo (addr len : ℕ) : ℕ := (addr + len + 4096 - 1) / 4096 * 4096

end Prometheos.Acpi
