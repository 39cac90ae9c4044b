import Mathlib.Tactic.SplitIfs
import Prometheos.Vmm.Runs
import Prometheos.Pci.Model

/-!
# The window of configuration space

`init` maps as many pages of 2 MiB as the buses `start_bus..=end_bus` need, but
`mmio_address` counts buses from 0. So the addresses that `enum_bus` dereferences stay in the
window if and only if the bus numbers it is called with are below twice the number of
pages (`inside_iff`), which starts with `start_bus` itself (`ecam_outside_window`). The bus numbers
are among those that bridges lead to (`Leads`).
-/

namespace Prometheos.Pci

open Pmm Vmm

/-! ## Registers -/

/-- Where a byte of a function is in the window. -/
def PciAddress.place (a : PciAddress) (offset : ℕ) : ℕ :=
  a.bus * 2 ^ 20 + a.device * 2 ^ 15 + a.function * 2 ^ 12 + offset

/-- The value of a register of four bytes. -/
def register (s : Config) (a : PciAddress) (offset : ℕ) : ℕ :=
  if s.mcfgAddress ≠ 0 then value s.memory (s.mcfgAddress + a.place offset) 4
  else value (s.ports (a.ioAddress offset)) (0xCFC + (offset &&& 3)) 4

/-- A function that exists in the enumeration. -/
structure PciAddress.InRange (a : PciAddress) : Prop where
  bus : a.bus < 256
  device : a.device < 32
  function : a.function < 8

theorem mmioAddress_cases {σ : Type} {a : PciAddress} (ha : a.InRange) (offset mcfg : ℕ)
    (s : σ) :
    (mcfg + a.place offset < 2 ^ 64 ∧
        (a.mmioAddress offset mcfg).run s = .ok (mcfg + a.place offset) s) ∨
      (2 ^ 64 ≤ mcfg + a.place offset ∧ ∃ e, (a.mmioAddress offset mcfg).run s = .stop e s) := by
  rcases ha with ⟨hbus, hdevice, hfunction⟩
  have hb : shlU64 a.bus 20 = a.bus * 2 ^ 20 := shlU64_of_lt (by omega)
  have hd : shlU64 a.device 15 = a.device * 2 ^ 15 := shlU64_of_lt (by omega)
  have hf : shlU64 a.function 12 = a.function * 2 ^ 12 := shlU64_of_lt (by omega)
  have hsum : mcfg + a.place offset =
      mcfg + a.bus * 2 ^ 20 + a.device * 2 ^ 15 + a.function * 2 ^ 12 + offset := by
    unfold PciAddress.place
    simp only [Nat.add_assoc]
  unfold PciAddress.mmioAddress
  rw [hb, hd, hf, hsum]
  by_cases h₄ : mcfg + a.bus * 2 ^ 20 + a.device * 2 ^ 15 + a.function * 2 ^ 12 + offset < 2 ^ 64
  · -- the sums on the way are no larger
    have h₃ := (Nat.le_add_right _ offset).trans_lt h₄
    have h₂ := (Nat.le_add_right _ (a.function * 2 ^ 12)).trans_lt h₃
    have h₁ := (Nat.le_add_right _ (a.device * 2 ^ 15)).trans_lt h₂
    refine Or.inl ⟨h₄, ?_⟩
    rw [Prog.bind_of_ok (addU64_of_lt h₁ s), Prog.bind_of_ok (addU64_of_lt h₂ s),
      Prog.bind_of_ok (addU64_of_lt h₃ s), addU64_of_lt h₄ s]
  · refine Or.inr ⟨Nat.not_lt.1 h₄, ?_⟩
    -- additions change nothing, and one of them overflows
    have hchecks : Prog.Checks Fault.IsPanic (do
        let x ← (addU64 mcfg (a.bus * 2 ^ 20) : Run σ ℕ)
        let x ← addU64 x (a.device * 2 ^ 15)
        let x ← addU64 x (a.function * 2 ^ 12)
        addU64 x offset) :=
      (addU64_checks _ _).bind fun _ => (addU64_checks _ _).bind fun _ =>
        (addU64_checks _ _).bind fun _ => addU64_checks _ _
    rcases hchecks s with ⟨p, hok⟩ | ⟨e, -, hstop⟩
    · exfalso
      rcases Prog.bind_ok_iff.1 hok with ⟨x, _, hx, hrest⟩
      rcases addU64_ok_iff.1 hx with ⟨-, rfl, rfl⟩
      rcases Prog.bind_ok_iff.1 hrest with ⟨y, _, hy, hrest⟩
      rcases addU64_ok_iff.1 hy with ⟨-, rfl, rfl⟩
      rcases Prog.bind_ok_iff.1 hrest with ⟨z, _, hz, hlast⟩
      rcases addU64_ok_iff.1 hz with ⟨-, rfl, rfl⟩
      exact h₄ (addU64_ok_iff.1 hlast).1
    · exact ⟨e, hstop⟩

/-- The state after a register was read. -/
def Config.read (s : Config) (a : PciAddress) (offset : ℕ) : Config :=
  if s.mcfgAddress ≠ 0 then { s with derefs := (s.mcfgAddress + a.place offset) :: s.derefs }
  else { s with cf8 := a.ioAddress offset }

/-- A read returns the register, unless its address overflows. -/
theorem pciRead_cases {a : PciAddress} (ha : a.InRange) (offset : ℕ) (s : Config) :
    ((s.mcfgAddress ≠ 0 → s.mcfgAddress + a.place offset < 2 ^ 64) ∧
        (pciRead 4 a offset).run s = .ok (register s a offset) (s.read a offset)) ∨
      (2 ^ 64 ≤ s.mcfgAddress + a.place offset ∧ s.mcfgAddress ≠ 0 ∧
        ∃ e, (pciRead 4 a offset).run s = .stop e s) := by
  unfold pciRead register Config.read
  rw [Prog.require_bind (Or.inr (Or.inr rfl)), Prog.gets_bind]
  by_cases hmcfg : s.mcfgAddress ≠ 0
  · rw [if_pos hmcfg, if_pos hmcfg, if_pos hmcfg]
    rcases mmioAddress_cases ha offset s.mcfgAddress s with ⟨hlt, hok⟩ | ⟨hle, e, hstop⟩
    · left
      refine ⟨fun _ => hlt, ?_⟩
      rw [Prog.bind_of_ok hok]
      rfl
    · exact Or.inr ⟨hle, hmcfg, e, Prog.bind_of_stop hstop⟩
  · rw [if_neg hmcfg, if_neg hmcfg, if_neg hmcfg]
    exact Or.inl ⟨fun h => absurd h hmcfg, rfl⟩

/-! ## Bridges -/

/-- The vendor id is not `0xFFFF`. -/
def Present (s : Config) (a : PciAddress) : Prop := register s a 0x00 &&& 0xFFFF ≠ 0xFFFF

/-- `enum_device` looks at a function: at function 0, and at the others if function 0 is present
and has the multifunction bit. -/
def LookedAt (s : Config) (a : PciAddress) : Prop :=
  a.function = 0 ∨ Present s ⟨a.bus, a.device, 0⟩ ∧
    headerByte (register s ⟨a.bus, a.device, 0⟩ 0x0C) &&& 0x80 ≠ 0

/-- A bridge on bus `b` leads to bus `b'`. -/
def Leads (s : Config) (b b' : ℕ) : Prop :=
  ∃ a : PciAddress, a.bus = b ∧ a.device < 32 ∧ a.function < 8 ∧ LookedAt s a ∧ Present s a ∧
    IsBridge (register s a 0x08) (register s a 0x0C) ∧ b' = secondaryBus (register s a 0x18)

/-! ## The enumeration -/

/-- What is known while the buses `L` are being enumerated: what the machine answers is as in
`c`; every address that was dereferenced is on a bus that is enumerated, and the first address
of each bus of `P` was dereferenced if it has one; buses come from bridges. -/
structure Scans (c : Config) (start : ℕ) (P : ℕ → Prop) (L : List ℕ) (s : Config) : Prop where
  mcfg : s.mcfgAddress = c.mcfgAddress
  memory : s.memory = c.memory
  ports : s.ports = c.ports
  derefs : ∀ p ∈ s.derefs, ∃ b ∈ s.scanned, ∃ k, k + 4 ≤ 2 ^ 20 ∧
    p = c.mcfgAddress + b * 2 ^ 20 + k ∧ c.mcfgAddress ≠ 0 ∧ p < 2 ^ 64
  first : ∀ b ∈ s.scanned, P b → c.mcfgAddress ≠ 0 → c.mcfgAddress + b * 2 ^ 20 < 2 ^ 64 →
    c.mcfgAddress + b * 2 ^ 20 ∈ s.derefs
  reached : ∀ b ∈ s.scanned, b < 256 ∧ Relation.ReflTransGen (Leads c) start b
  kept : ∀ b ∈ L, b ∈ s.scanned

section

variable {c s : Config} {start b : ℕ} {P : ℕ → Prop} {L : List ℕ}

theorem Scans.register_eq (h : Scans c start P L s) (a : PciAddress) (offset : ℕ) :
    register s a offset = register c a offset := by
  unfold register
  rw [h.mcfg, h.memory, h.ports]

/-- A register on a bus that is being enumerated is read. -/
theorem Scans.read (h : Scans c start P L s) {a : PciAddress} {offset : ℕ} (ha : a.InRange)
    (hbus : a.bus ∈ s.scanned) (hoff : offset + 4 ≤ 2 ^ 12)
    (hlt : s.mcfgAddress ≠ 0 → s.mcfgAddress + a.place offset < 2 ^ 64) :
    Scans c start P L (s.read a offset) := by
  unfold Config.read
  by_cases hmcfg : s.mcfgAddress ≠ 0
  · rw [if_pos hmcfg]
    refine ⟨h.mcfg, h.memory, h.ports, ?_, ?_, h.reached, h.kept⟩
    · intro p hp
      rcases List.mem_cons.1 hp with rfl | hp
      · have hplace := hlt hmcfg
        rcases ha with ⟨-, hdevice, hfunction⟩
        unfold PciAddress.place at hplace ⊢
        rw [h.mcfg] at hmcfg hplace ⊢
        refine ⟨a.bus, hbus, a.device * 2 ^ 15 + a.function * 2 ^ 12 + offset, ?_, ?_, hmcfg,
          hplace⟩
        · omega
        · omega
      · exact h.derefs p hp
    · intro b hb hP hne hfits
      exact List.mem_cons_of_mem _ (h.first b hb hP hne hfits)
  · rw [if_neg hmcfg]
    exact ⟨h.mcfg, h.memory, h.ports, h.derefs, h.first, h.reached, h.kept⟩

theorem pciRead_always {a : PciAddress} {offset : ℕ} (ha : a.InRange)
    (hoff : offset + 4 ≤ 2 ^ 12) (hbus : a.bus ∈ L) :
    Prog.Always (Scans c start P L) (pciRead 4 a offset) (· = register c a offset)
      (Scans c start P L) := by
  intro s h
  rcases pciRead_cases ha offset s with ⟨hlt, hok⟩ | ⟨-, -, e, hstop⟩
  · rw [hok]
    refine ⟨?_, nofun⟩
    intro x s' hrun
    cases hrun
    exact ⟨h.register_eq a offset, h.read ha (h.kept _ hbus) hoff hlt⟩
  · rw [hstop]
    refine ⟨nofun, ?_⟩
    intro e' s' hrun
    cases hrun
    exact h

/-- The first read on a bus, of function 0 of device 0. -/
theorem pciRead_first (hb : b < 256) (hmem : b ∈ L) :
    Prog.Always (Scans c start (· ≠ b) L) (pciRead 4 ⟨b, 0, 0⟩ 0)
      (· = register c ⟨b, 0, 0⟩ 0) (Scans c start (fun _ => True) L) := by
  have ha : PciAddress.InRange ⟨b, 0, 0⟩ := ⟨hb, Nat.zero_lt_succ _, Nat.zero_lt_succ _⟩
  have hplace : PciAddress.place ⟨b, 0, 0⟩ 0 = b * 2 ^ 20 := by simp [PciAddress.place]
  intro s h
  rcases pciRead_cases ha 0 s with ⟨hlt, hok⟩ | ⟨hle, -, e, hstop⟩
  · rw [hok]
    refine ⟨?_, nofun⟩
    intro x s' hrun
    cases hrun
    have hread := h.read ha (h.kept _ hmem) (by decide) hlt
    refine ⟨h.register_eq _ 0, { hread with first := ?_ }⟩
    intro b' hb' _ hne hfits
    by_cases hbb : b' = b
    · subst hbb
      unfold Config.read
      rw [h.mcfg, if_pos hne, hplace]
      exact List.mem_cons_self
    · exact hread.first b' hb' hbb hne hfits
  · rw [hstop]
    refine ⟨nofun, ?_⟩
    intro e' s' hrun
    cases hrun
    refine { h with first := ?_ }
    -- the bus has no first address
    intro b' hb' _ hne hfits
    by_cases hbb : b' = b
    · subst hbb
      rw [hplace, h.mcfg] at hle
      exact absurd hfits (Nat.not_lt.2 hle)
    · exact h.first b' hb' hbb hne hfits

/-- The same, with the first address of every bus dereferenced. -/
abbrev ScansOn (c : Config) (start : ℕ) (L : List ℕ) : Config → Prop :=
  Scans c start (fun _ => True) L

section

variable {bus : ℕ → Run Config Unit}
  (hbus : ∀ b', b' < 256 → Relation.ReflTransGen (Leads c) start b' →
    Prog.Always (ScansOn c start L) (bus b') (fun _ => True) (ScansOn c start L))

include hbus

theorem enumBehind_always {a : PciAddress} (ha : a.InRange) (hmem : a.bus ∈ L)
    (hreached : Relation.ReflTransGen (Leads c) start a.bus) (hlook : LookedAt c a)
    (hpresent : Present c a) :
    Prog.Always (ScansOn c start L) (enumBehind bus a (register c a 0x08) (register c a 0x0C))
      (fun _ => True) (ScansOn c start L) := by
  unfold enumBehind
  split_ifs with hbridge
  · refine (pciRead_always ha (by decide) hmem).bind ?_ fun _ h => h
    rintro _ rfl
    refine hbus _ (Nat.mod_lt _ (by decide)) (hreached.tail ?_)
    exact ⟨a, rfl, ha.device, ha.function, hlook, hpresent, hbridge, rfl⟩
  · exact Prog.always_pure trivial

/-- A turn of the loop; the next turn follows only if the function after this one is to be
looked at. -/
theorem enumFunction_always {a : PciAddress} {next : Run Config Unit} (ha : a.InRange)
    (hmem : a.bus ∈ L) (hreached : Relation.ReflTransGen (Leads c) start a.bus)
    (hlook : LookedAt c a)
    (hnext : (Present c ⟨a.bus, a.device, 0⟩ ∧
        headerByte (register c ⟨a.bus, a.device, 0⟩ 0x0C) &&& 0x80 ≠ 0) →
      Prog.Always (ScansOn c start L) next (fun _ => True) (ScansOn c start L)) :
    Prog.Always (ScansOn c start L) (enumFunction bus next a (register c a 0x00))
      (fun _ => True) (ScansOn c start L) := by
  unfold enumFunction
  split_ifs with hvendor hzero
  · exact Prog.always_pure trivial
  · -- an absent function other than 0 is passed over
    exact hnext (hlook.resolve_left hzero)
  · refine (pciRead_always ha (by decide) hmem).bind ?_ fun _ h => h
    rintro _ rfl
    refine (pciRead_always ha (by decide) hmem).bind ?_ fun _ h => h
    rintro _ rfl
    refine (Prog.always_update (J := ScansOn c start L) ?_).bind ?_ fun _ h => h
    · intro s h
      exact ⟨h.mcfg, h.memory, h.ports, h.derefs, h.first, h.reached, h.kept⟩
    intro _ _
    refine (enumBehind_always hbus ha hmem hreached hlook hvendor).bind ?_ fun _ h => h
    intro _ _
    split_ifs with hlast
    · exact Prog.always_pure trivial
    · refine hnext ?_
      rcases hlook with hzero | hmulti
      · -- function 0 itself is present and has the bit
        have ha0 : (⟨a.bus, a.device, 0⟩ : PciAddress) = a := by
          rw [← hzero]
        rw [ha0]
        exact ⟨hvendor, fun h => hlast ⟨hzero, h⟩⟩
      · exact hmulti

theorem enumFunctions_always {device : ℕ} {l : List ℕ} (hb : b < 256) (hmem : b ∈ L)
    (hreached : Relation.ReflTransGen (Leads c) start b) (hdevice : device < 32)
    (hl : ∀ f ∈ l, f < 8 ∧ LookedAt c ⟨b, device, f⟩) :
    Prog.Always (ScansOn c start L) (enumFunctions bus b device l) (fun _ => True)
      (ScansOn c start L) := by
  induction l with
  | nil => exact Prog.always_pure trivial
  | cons f l ih =>
      rcases hl f List.mem_cons_self with ⟨hf, hlook⟩
      have ha : PciAddress.InRange ⟨b, device, f⟩ := ⟨hb, hdevice, hf⟩
      unfold enumFunctions
      refine (pciRead_always ha (by decide) hmem).bind ?_ fun _ h => h
      rintro _ rfl
      refine enumFunction_always hbus ha hmem hreached hlook ?_
      exact fun _ => ih fun g hg => hl g (List.mem_cons_of_mem _ hg)

/-- A device, from its first read on; what held before that read is left open. -/
theorem enumDevice_always {device : ℕ} (hb : b < 256) (hmem : b ∈ L)
    (hreached : Relation.ReflTransGen (Leads c) start b) (hdevice : device < 32)
    (hfirst : Prog.Always (Scans c start P L) (pciRead 4 ⟨b, device, 0⟩ 0)
      (· = register c ⟨b, device, 0⟩ 0) (ScansOn c start L)) :
    Prog.Always (Scans c start P L) (enumDevice bus b device) (fun _ => True)
      (ScansOn c start L) := by
  have hrange : List.range 8 = 0 :: List.range' 1 7 := rfl
  have ha : PciAddress.InRange ⟨b, device, 0⟩ := ⟨hb, hdevice, Nat.zero_lt_succ _⟩
  unfold enumDevice
  rw [hrange]
  unfold enumFunctions
  refine hfirst.bind ?_ fun _ h => h
  rintro _ rfl
  refine enumFunction_always hbus ha hmem hreached (Or.inl rfl) ?_
  intro hmulti
  -- the loop goes on to the other functions only of a multifunction device
  refine enumFunctions_always hbus hb hmem hreached hdevice ?_
  intro f hf
  exact ⟨(List.mem_range'_1.1 hf).2, Or.inr hmulti⟩

/-- The devices of a bus; its first address is dereferenced before any other. -/
theorem enumDevices_always (hb : b < 256) (hmem : b ∈ L)
    (hreached : Relation.ReflTransGen (Leads c) start b) :
    Prog.Always (Scans c start (· ≠ b) L)
      ((List.range 32).forM fun device => enumDevice bus b device) (fun _ => True)
      (ScansOn c start L) := by
  have hrange : List.range 32 = 0 :: List.range' 1 31 := rfl
  rw [hrange]
  change Prog.Always _ (enumDevice bus b 0 >>= fun _ =>
    (List.range' 1 31).forM fun device => enumDevice bus b device) _ _
  -- the first read of device 0 is the first read of the bus
  refine (enumDevice_always hbus hb hmem hreached (Nat.zero_lt_succ _)
    (pciRead_first hb hmem)).bind ?_ fun _ h => h
  intro _ _
  refine Prog.always_forM ?_
  intro device hdevice
  have hlt : device < 32 := (List.mem_range'_1.1 hdevice).2
  exact enumDevice_always hbus hb hmem hreached hlt
    (pciRead_always ⟨hb, hlt, Nat.zero_lt_succ _⟩ (by decide) hmem)

end

theorem Scans.push (h : ScansOn c start L s) (hb : b < 256)
    (hreached : Relation.ReflTransGen (Leads c) start b) :
    Scans c start (· ≠ b) (b :: L) { s with scanned := b :: s.scanned } := by
  refine ⟨h.mcfg, h.memory, h.ports, ?_, ?_, ?_, ?_⟩
  · intro p hp
    rcases h.derefs p hp with ⟨b', hb', hk⟩
    exact ⟨b', List.mem_cons_of_mem _ hb', hk⟩
  · intro b' hb' hne
    exact h.first b' (List.mem_of_ne_of_mem hne hb') trivial
  · intro b' hb'
    rcases List.mem_cons.1 hb' with rfl | hb'
    · exact ⟨hb, hreached⟩
    · exact h.reached b' hb'
  · intro b' hb'
    rcases List.mem_cons.1 hb' with rfl | hb'
    · exact List.mem_cons_self
    · exact List.mem_cons_of_mem _ (h.kept b' hb')

theorem Scans.weaken {M : List ℕ} (h : Scans c start P L s) (hM : ∀ b ∈ M, b ∈ L) :
    Scans c start P M s :=
  { h with kept := fun b hb => h.kept b (hM b hb) }

/-- What `enum_bus` may rely on in the calls that it makes. -/
def BusKept (c : Config) (start depth : ℕ) : Prop :=
  ∀ (L : List ℕ) (b : ℕ), b < 256 → Relation.ReflTransGen (Leads c) start b →
    Prog.Always (ScansOn c start L) (enumBus depth b) (fun _ => True) (ScansOn c start L)

/-- A call of `enum_bus`; its bus stays among those that were enumerated. -/
theorem enumBus_succ_always {depth : ℕ} (ih : BusKept c start depth) (hb : b < 256)
    (hreached : Relation.ReflTransGen (Leads c) start b) :
    Prog.Always (ScansOn c start L) (enumBus (depth + 1) b) (fun _ => True)
      (ScansOn c start (b :: L)) := by
  unfold enumBus
  refine Prog.always_update_bind (fun s h => h.push hb hreached) ?_
  exact enumDevices_always (ih (b :: L)) hb List.mem_cons_self hreached

theorem busKept (c : Config) (start depth : ℕ) : BusKept c start depth := by
  induction depth with
  | zero => exact fun L b _ _ => Prog.always_fault _
  | succ depth ih =>
      intro L b hb hreached
      refine (enumBus_succ_always ih hb hreached).mono (fun _ h => h) ?_
      exact fun s h => h.weaken fun b' hb' => List.mem_cons_of_mem _ hb'

end

/-! ## The window -/

/-- The pages that `init` maps for an entry. -/
def McfgEntry.pages (entry : McfgEntry) : ℕ := (entry.endBus - entry.startBus + 2) / 2

theorem windowPages_run {σ : Type} {entry : McfgEntry} (hle : entry.startBus ≤ entry.endBus)
    (hend : entry.endBus < 256) (s : σ) : (windowPages entry).run s = .ok entry.pages s := by
  have hspan : entry.endBus - entry.startBus + 1 < 2 ^ 64 := by omega
  have hshl : shlU64 (entry.endBus - entry.startBus + 1) 20 =
      (entry.endBus - entry.startBus + 1) * 2 ^ 20 := shlU64_of_lt (by omega)
  have hbytes : PageSize.large.bytes = 2 ^ 21 := rfl
  unfold windowPages McfgEntry.pages
  rw [Prog.bind_of_ok (subU64_of_le hle s), Prog.bind_of_ok (addU64_of_lt hspan s), hshl, hbytes]
  change Outcome.ok _ s = Outcome.ok _ s
  congr 1
  omega

/-- What the machine answers once `init` has set `MCFG_ADDRESS`. -/
def Config.mapped (s : Config) (virt : ℕ) : Config := { s with mcfgAddress := virt, devices := [] }

/-- What follows the enumeration only reads. -/
theorem enumerate_state (depth bus : ℕ) (k : Kernel) :
    ((do
      Prog.zoom Kernel.pci (fun pci s => { s with pci := pci }) (enumBus depth bus)
      let devices ← Prog.gets (·.pci.devices)
      pure (.ok devices) : Run Kernel (Except PciError (List PciAddress))).run k).state.pci =
        ((enumBus depth bus).run k.pci).state := by
  cases hrun : (enumBus depth bus).run k.pci with
  | ok _ c =>
      rw [Prog.bind_of_ok (Prog.zoom_of_ok hrun)]
      rfl
  | stop e c =>
      rw [Prog.bind_of_stop (Prog.zoom_of_stop hrun)]
      rfl

section

variable [X86]

/-- Where `init` maps the window. -/
def McfgEntry.virt (entry : McfgEntry) (s : Kernel) : ℕ := entry.address + s.vm.hhdmOffset

/-- The window of an entry can be mapped; nothing was enumerated before. -/
structure Mappable (entry : McfgEntry) (s : Kernel) : Prop where
  le : entry.startBus ≤ entry.endBus
  endBus : entry.endBus < 256
  virt : entry.virt s < 2 ^ 64
  range : ∃ vm, (mapRange (entry.virt s) entry.address entry.pages windowFlags .large).run s.vm =
    .ok (.ok ()) vm
  derefs : s.pci.derefs = []
  scanned : s.pci.scanned = []

/-- The configuration in which `init` ends or stops. -/
def enumerated (depth : ℕ) (entry : McfgEntry) (s : Kernel) : Config :=
  ((init depth (some entry)).run s).state.pci

variable {entry : McfgEntry} {s : Kernel}

/-- Once the window is mapped, `init` ends as `enum_bus` does. -/
theorem enumerated_eq (h : Mappable entry s) (depth : ℕ) : enumerated depth entry s =
    ((enumBus depth entry.startBus).run (s.pci.mapped (entry.virt s))).state := by
  rcases h.range with ⟨vm, hmap⟩
  have hzoom : (Prog.zoom Kernel.vm (fun vm s => { s with vm := vm })
      (mapRange (entry.virt s) entry.address entry.pages windowFlags .large)).run s =
        .ok (.ok ()) { s with vm := vm } := Prog.zoom_of_ok hmap
  have hvirt : (addU64 entry.address s.vm.hhdmOffset : Run Kernel ℕ).run s =
      .ok (entry.virt s) s := addU64_of_lt h.virt s
  unfold enumerated init
  dsimp only
  rw [Prog.bind_of_ok (windowPages_run h.le h.endBus s), Prog.gets_bind, Prog.bind_of_ok hvirt,
    Prog.bind_of_ok hzoom]
  exact enumerate_state depth entry.startBus ⟨vm, s.pci.mapped (entry.virt s)⟩

theorem Mappable.scans (h : Mappable entry s) :
    ScansOn (s.pci.mapped (entry.virt s)) entry.startBus [] (s.pci.mapped (entry.virt s)) := by
  refine ⟨rfl, rfl, rfl, ?_, ?_, ?_, nofun⟩
  · change ∀ p ∈ s.pci.derefs, _
    rw [h.derefs]
    exact nofun
  · change ∀ b ∈ s.pci.scanned, _
    rw [h.scanned]
    exact nofun
  · change ∀ b ∈ s.pci.scanned, _
    rw [h.scanned]
    exact nofun

theorem enumerated_scans (h : Mappable entry s) (depth : ℕ) :
    ScansOn (s.pci.mapped (entry.virt s)) entry.startBus [] (enumerated depth entry s) := by
  rw [enumerated_eq h depth]
  exact (busKept _ _ depth [] _ (h.le.trans_lt h.endBus) .refl).state h.scans

theorem startBus_scanned (h : Mappable entry s) {depth : ℕ} (hdepth : depth ≠ 0) :
    entry.startBus ∈ (enumerated depth entry s).scanned := by
  rw [enumerated_eq h depth]
  cases depth with
  | zero => exact absurd rfl hdepth
  | succ depth =>
      have hbus := h.le.trans_lt h.endBus
      have hscans := (enumBus_succ_always (busKept _ _ depth) hbus .refl).state h.scans
      exact hscans.kept _ List.mem_cons_self

/-- Every address that the enumeration dereferences lies in the window that was mapped. -/
def Inside (depth : ℕ) (entry : McfgEntry) (s : Kernel) : Prop :=
  ∀ p ∈ (enumerated depth entry s).derefs,
    entry.virt s ≤ p ∧ p < entry.virt s + entry.pages * PageSize.large.bytes

/-- The bus ends before the window does, if there are addresses for it at all. -/
def BusInside (entry : McfgEntry) (s : Kernel) (b : ℕ) : Prop :=
  entry.virt s ≠ 0 → entry.virt s + b * 2 ^ 20 < 2 ^ 64 → b < 2 * entry.pages

/-- It is the bus numbers that decide. -/
theorem inside_iff (h : Mappable entry s) (depth : ℕ) : Inside depth entry s ↔
    ∀ b ∈ (enumerated depth entry s).scanned, BusInside entry s b := by
  have hscans := enumerated_scans h depth
  have hbytes : PageSize.large.bytes = 2 ^ 21 := rfl
  unfold Inside
  rw [hbytes]
  constructor
  · intro hin b hb hne hlt
    -- the first address of the bus was dereferenced
    have hfirst := (hin _ (hscans.first b hb trivial hne hlt)).2
    change entry.virt s + b * 2 ^ 20 < entry.virt s + entry.pages * 2 ^ 21 at hfirst
    omega
  · intro hbuses p hp
    rcases hscans.derefs p hp with ⟨b, hb, k, hk, hpeq, hne, hlt⟩
    change p = entry.virt s + b * 2 ^ 20 + k at hpeq
    have hfits : entry.virt s + b * 2 ^ 20 < 2 ^ 64 := by omega
    have hbelow := hbuses b hb hne hfits
    omega

end

/-! ## A window of one page -/

/-- A higher half direct map, 5 frames, none of them free yet. -/
def higherHalf : Phys :=
  ⟨⟨List.replicate 12 none, List.replicate 5 255, 5, 0, 0xFFFF800000000000⟩, fun _ _ => 0⟩

/-- A page of 2 MiB is mapped with tables from frames 1 to 4. -/
theorem window_run : letI := X86.documented
    ∃ s₁, (addRange 1 4).run higherHalf = .ok () s₁ ∧ ∃ s₂,
      (allocPages 0).run s₁ = .ok (some (4 * frameSize)) s₂ ∧
      (emptyVm s₂ 4).hhdmOffset = 0xFFFF800000000000 ∧ ∃ vm,
      (mapRange (0xB0000000 + (emptyVm s₂ 4).hhdmOffset) 0xB0000000 1 windowFlags .large).run
        (emptyVm s₂ 4) = .ok (.ok ()) vm := by
  unfold addRange
  unfold addRange
  unfold addRange
  unfold addRange
  exact ⟨_, rfl, _, rfl, rfl, _, rfl⟩

/-- So an entry of one or two buses can be mapped, whatever the machine answers. -/
theorem mappable_one_page : ∃ vm : Vm, vm.hhdmOffset = 0xFFFF800000000000 ∧
    ∀ (pci : Config) (startBus endBus : ℕ), pci.derefs = [] → pci.scanned = [] →
      startBus ≤ endBus → endBus ≤ startBus + 1 → endBus < 256 →
      @Mappable X86.documented ⟨0xB0000000, startBus, endBus⟩ ⟨vm, pci⟩ := by
  let := X86.documented
  rcases window_run with ⟨s₁, -, s₂, -, hhdm, hmap⟩
  refine ⟨emptyVm s₂ 4, hhdm, ?_⟩
  intro pci startBus endBus hderefs hscanned hle hcount hend
  have hpages : McfgEntry.pages ⟨0xB0000000, startBus, endBus⟩ = 1 := by
    unfold McfgEntry.pages
    dsimp only
    omega
  have hvirt : McfgEntry.virt ⟨0xB0000000, startBus, endBus⟩ ⟨emptyVm s₂ 4, pci⟩ < 2 ^ 64 := by
    change 0xB0000000 + (emptyVm s₂ 4).hhdmOffset < 2 ^ 64
    rw [hhdm]
    decide
  refine ⟨hle, hend, hvirt, ?_, hderefs, hscanned⟩
  rw [hpages]
  exact hmap

/-- No device answers. -/
def noDevices : Config := ⟨0, fun _ => 255, 0, fun _ _ => 255, [], [], []⟩

/-- Bus 2 alone: its first address is the end of the window. -/
theorem ecam_outside_window : ∃ s : Kernel, s.pci = noDevices ∧
    @Mappable X86.documented ⟨0xB0000000, 2, 2⟩ s ∧ McfgEntry.pages ⟨0xB0000000, 2, 2⟩ = 1 ∧
      ∃ p ∈ (@enumerated X86.documented 1 ⟨0xB0000000, 2, 2⟩ s).derefs,
        ¬ (0xB0000000 + s.vm.hhdmOffset ≤ p ∧
          p < 0xB0000000 + s.vm.hhdmOffset + 1 * PageSize.large.bytes) := by
  let := X86.documented
  rcases mappable_one_page with ⟨vm, hhdm, hmappable⟩
  have h := hmappable noDevices 2 2 rfl rfl (le_refl 2) (Nat.le_succ 2) (by decide)
  have hne : 0xB0000000 + vm.hhdmOffset ≠ 0 := by
    rw [hhdm]
    decide
  have hfits : 0xB0000000 + vm.hhdmOffset + 2 * 2 ^ 20 < 2 ^ 64 := by
    rw [hhdm]
    decide
  have hscanned := startBus_scanned h Nat.one_ne_zero
  have hfirst := (enumerated_scans h 1).first 2 hscanned trivial hne hfits
  refine ⟨_, rfl, h, rfl, _, hfirst, ?_⟩
  rintro ⟨-, hlt⟩
  exact lt_irrefl _ hlt

end Prometheos.Pci
