import Prometheos.Apic.Model
import Prometheos.Vmm.Populated

/-!
# Which I/O APIC the keyboard interrupt goes through

An I/O APIC serves the interrupts from its `gsi_base` on, up to the `gsi_base` of the next one:
an interrupt belongs to the I/O APIC with the greatest `gsi_base` that is not above it
(`Serves`). The scans of `init` find the first I/O APIC (`findIoapic_of_cons`) and the first
override for the keyboard (`resolveIsaIrq_some`).

`keyboard_routed_iff`: if an I/O APIC serves the keyboard, `init` routes the keyboard through it, on
the pin that it has there, just if that I/O APIC is the first in the table and the crate can
program the pin. Whether the registers can be mapped is told by the page tables (`Mappable`): if
not, `init` returns an error and programs nothing. With the I/O APICs in another order, `init` may
not even pass its own check (`keyboard_below_first_base`).
-/

namespace Prometheos.Apic

open Pmm Vmm

/-! ## What the table says -/

/-- The I/O APIC of a subtable. -/
def Subtable.ioapic? : Subtable → Option MadtIoapic
  | .ioapic e => some e
  | _ => none

/-- The interrupt source override of a subtable. -/
def Subtable.override? : Subtable → Option MadtInterruptSourceOverride
  | .interruptSourceOverride iso => some iso
  | _ => none

/-- The I/O APICs of the machine. -/
def ioapics (entries : List Subtable) : List MadtIoapic := entries.filterMap Subtable.ioapic?

/-- The GSI of an ISA IRQ: that of the first override for it, or the number of the IRQ. -/
def isaGsi (entries : List Subtable) (source : UInt8) : UInt32 :=
  match (entries.filterMap Subtable.override?).find? fun iso => iso.source = source with
  | some iso => iso.gsi
  | none => source.toUInt32

/-- The I/O APIC with the greatest `gsi_base` that is not above the GSI of the keyboard. -/
structure Serves (entries : List Subtable) (e : MadtIoapic) : Prop where
  mem : e ∈ ioapics entries
  base_le : e.gsiBase ≤ isaGsi entries 1
  greatest : ∀ e' ∈ ioapics entries, e'.gsiBase ≤ isaGsi entries 1 → e'.gsiBase ≤ e.gsiBase

/-! ## The scans -/

theorem forEachSubtable_ioapicCb (entries : List Subtable) :
    forEachSubtable ioapicCb none entries =
      (ioapics entries).head?.map fun e => (e.address.toNat, e.gsiBase) := by
  induction entries with
  | nil => rfl
  | cons hdr rest ih =>
      cases hdr with
      | ioapic e => rfl
      | interruptSourceOverride iso => exact ih
      | other type => exact ih

/-- `find_ioapic` takes the first I/O APIC. -/
theorem findIoapic_of_cons {entries : List Subtable} {e : MadtIoapic} {rest : List MadtIoapic}
    (h : ioapics entries = e :: rest) :
    findIoapic (some entries) = .ok (e.address.toNat, e.gsiBase) := by
  unfold findIoapic
  simp only [forEachSubtable_ioapicCb, h, List.head?_cons, Option.map_some]

theorem findIoapic_of_nil {entries : List Subtable} (h : ioapics entries = []) :
    findIoapic (some entries) = .error .ioApicNotFound := by
  unfold findIoapic
  simp only [forEachSubtable_ioapicCb, h, List.head?_nil, Option.map_none]

/-- `resolve_isa_irq` takes the first override. -/
theorem resolveIsaIrq_some (entries : List Subtable) (source : UInt8) :
    resolveIsaIrq (some entries) source = isaGsi entries source := by
  show (forEachSubtable isoCb ⟨source, source.toUInt32⟩ entries).gsi = _
  induction entries with
  | nil => rfl
  | cons hdr rest ih =>
      cases hdr with
      | ioapic e => exact ih
      | other type => exact ih
      | interruptSourceOverride iso =>
          unfold forEachSubtable isoCb isaGsi
          simp only [List.filterMap_cons, Subtable.override?, List.find?_cons]
          by_cases h : iso.source = source
          · simp [h]
          · simp only [h, ↓reduceIte, decide_false]
            exact ih

/-! ## A run of `init` -/

/-- What `init` does before it looks for the I/O APIC. -/
def preparations : List Access :=
  [.outb 0x21 0xFF, .outb 0xA1 0xFF, .lapicAttach, .installHandler 0x21]

/-- The state in which `init` looks for the I/O APIC. -/
def prepared (s : Board) : Board := { s with accesses := s.accesses ++ preparations }

theorem prepare_run (s : Board) : prepare.run s = .ok s.apicId.toUInt32 (prepared s) := by
  show Outcome.ok _ { s with accesses := (((s.accesses ++ [_]) ++ [_]) ++ [_]) ++ [_] } = _
  rw [List.append_assoc, List.append_assoc, List.append_assoc]
  rfl

section

variable [X86] {init₀ held : List ℕ} {others : List (ℕ × ℕ)} {s : Vm} {phys virt : ℕ}
  {flags : PTFlags}

/-- A page can be mapped at its place in the direct map: the place is the address of a page,
nothing is mapped there, and there are frames for the tables that are missing on the way. -/
def Mappable (s : Vm) (phys : ℕ) : Prop :=
  Vacant s (phys + s.hhdmOffset) phys .base ∧
    missing s (pagePath (phys + s.hhdmOffset) .base) ≤ s.phys.pmm.freeFrames

/-- `map_hhdm` returns: the place of the page if it can be mapped, and an error otherwise. -/
theorem mapHhdm_run (hT : Tree init₀ others s held) (hphys : phys < 2 ^ 52)
    (hfits : phys + s.hhdmOffset < 2 ^ 64) (flags : PTFlags) :
    (Mappable s phys ∧
      ∃ s', (mapHhdm phys flags .base).run s = .ok (.ok (phys + s.hhdmOffset)) s') ∨
    (¬ Mappable s phys ∧ ∃ e s', (mapHhdm phys flags .base).run s = .ok (.error e) s') := by
  unfold mapHhdm
  rw [Prog.gets_bind, Prog.bind_of_ok (addU64_of_lt hfits s)]
  rcases map_spec hT (phys + s.hhdmOffset) hphys flags .base with ⟨r, s', held', hrun, -⟩
  rw [Prog.bind_of_ok hrun]
  have hiff : _ ↔ Mappable s phys := map_succeeds_iff hT hphys flags
  rw [hrun] at hiff
  cases r with
  | ok u => exact Or.inl ⟨hiff.1 ⟨s', rfl⟩, s', rfl⟩
  | error e =>
      refine Or.inr ⟨?_, e, s', rfl⟩
      intro hmap
      rcases hiff.2 hmap with ⟨t, ht⟩
      cases ht

end

section

variable [X86] [IoApic] {init₀ held : List ℕ} {others : List (ℕ × ℕ)} {entries : List Subtable}
  {e : MadtIoapic} {rest : List MadtIoapic} {s : Board}

/-- A run of `init` on a machine with an I/O APIC. -/
theorem init_run (h : ioapics entries = e :: rest) (s : Board) :
    (init (some entries)).run s =
      if e.gsiBase ≤ isaGsi entries 1 then
        (route e.address.toNat e.gsiBase (isaGsi entries 1) s.apicId.toUInt32).run (prepared s)
      else .stop (.panic (belowBase (isaGsi entries 1) e.gsiBase)) (prepared s) := by
  unfold init
  rw [Prog.bind_of_ok (prepare_run s), findIoapic_of_cons h, resolveIsaIrq_some]
  by_cases hbase : e.gsiBase ≤ isaGsi entries 1
  · rw [if_pos hbase]
    exact Prog.require_bind hbase _ _ _
  · have hrequire : (Prog.require (e.gsiBase ≤ isaGsi entries 1)
        (.panic (belowBase (isaGsi entries 1) e.gsiBase)) : Run Board Unit).run (prepared s) =
        .stop (.panic (belowBase (isaGsi entries 1) e.gsiBase)) (prepared s) := if_neg hbase
    rw [if_neg hbase]
    show (Prog.require _ _ >>= fun _ => _).run (prepared s) = _
    rw [Prog.run_bind, hrequire]

omit [X86] in
theorem ioapicEnable_run (virt : ℕ) (irq cpunum : UInt8) (s : Board) :
    (ioapicEnable virt irq cpunum).run s =
      if IoApic.enables irq then
        .ok () { s with accesses := s.accesses ++ [.ioapicEnable virt irq cpunum] }
      else .stop (.panic "arithmetic overflow") s := by
  unfold ioapicEnable
  by_cases hpin : IoApic.enables irq = true
  · rw [Prog.require_bind hpin, if_pos hpin]
    rfl
  · rw [if_neg hpin]
    exact Prog.bind_of_stop (if_neg hpin)

/-- What `route` does with the pin once the registers are mapped. -/
theorem route_of_ok {phys virt : ℕ} {vm : Vm} {baseGsi kbGsi bspId : UInt32}
    (h : (mapHhdm phys Acpi.mapFlags .base).run s.vm = .ok (.ok virt) vm) :
    (route phys baseGsi kbGsi bspId).run s =
      if IoApic.enables (kbGsi - baseGsi).toUInt8 then
        .ok (.ok ()) { s with
          vm := vm
          accesses := s.accesses ++
            [.ioapicEnable virt (kbGsi - baseGsi).toUInt8 bspId.toUInt8, .irqEnable] }
      else .stop (.panic "arithmetic overflow") { s with vm := vm } := by
  have hmap : (onVm (mapHhdm phys Acpi.mapFlags .base)).run s =
      .ok (.ok virt) { s with vm := vm } := Prog.zoom_of_ok h
  have henable := ioapicEnable_run virt (kbGsi - baseGsi).toUInt8 bspId.toUInt8
    { s with vm := vm }
  unfold route
  rw [Prog.bind_of_ok hmap]
  by_cases hpin : IoApic.enables (kbGsi - baseGsi).toUInt8 = true
  · rw [if_pos hpin] at henable ⊢
    refine (Prog.bind_of_ok henable).trans ?_
    show Outcome.ok _ { s with vm := vm, accesses := (s.accesses ++ [_]) ++ [_] } = _
    rw [List.append_assoc]
    rfl
  · rw [if_neg hpin] at henable ⊢
    exact Prog.bind_of_stop henable

/-- `route` passes on that the registers cannot be mapped. -/
theorem route_of_error {phys : ℕ} {vm : Vm} {err : MapError} {baseGsi kbGsi bspId : UInt32}
    (h : (mapHhdm phys Acpi.mapFlags .base).run s.vm = .ok (.error err) vm) :
    (route phys baseGsi kbGsi bspId).run s =
      .ok (.error (.couldNotMap err)) { s with vm := vm } := by
  have hmap : (onVm (mapHhdm phys Acpi.mapFlags .base)).run s =
      .ok (.error err) { s with vm := vm } := Prog.zoom_of_ok h
  unfold route
  rw [Prog.bind_of_ok hmap]
  rfl

end

/-! ## The right I/O APIC -/

/-- An I/O APIC of the table serves the keyboard. -/
def Served (entries : List Subtable) : Prop :=
  ∃ e ∈ ioapics entries, e.gsiBase ≤ isaGsi entries 1

section

variable {entries : List Subtable} {e : MadtIoapic} {rest : List MadtIoapic}

/-- The first I/O APIC is the only one that `init` can choose. -/
theorem first_of_findIoapic (h : findIoapic (some entries) = .ok (e.address.toNat, e.gsiBase)) :
    ∃ rest, ioapics entries = e :: rest := by
  cases hlist : ioapics entries with
  | nil => cases (findIoapic_of_nil hlist).symm.trans h
  | cons e₀ rest =>
      have hpair := Except.ok.inj ((findIoapic_of_cons hlist).symm.trans h)
      have haddress : e₀.address = e.address := UInt32.toNat_inj.1 (congrArg Prod.fst hpair)
      have hbase : e₀.gsiBase = e.gsiBase := congrArg Prod.snd hpair
      refine ⟨rest, ?_⟩
      cases e₀
      cases e
      cases haddress
      cases hbase
      rfl

/-- The pin is the difference, cut off to 8 bits. -/
theorem toNat_pin {kbGsi baseGsi : UInt32} (h : baseGsi ≤ kbGsi) :
    (kbGsi - baseGsi).toUInt8.toNat = (kbGsi.toNat - baseGsi.toNat) % 256 := by
  rw [UInt32.toNat_toUInt8, UInt32.toNat_sub_of_le _ _ h]

/-- When the first I/O APIC serves the keyboard. -/
theorem serves_first_iff (h : ioapics entries = e :: rest) (hbase : e.gsiBase ≤ isaGsi entries 1) :
    Serves entries e ↔ ∀ e' ∈ rest, e'.gsiBase ≤ e.gsiBase ∨ isaGsi entries 1 < e'.gsiBase := by
  constructor
  · intro hserves e' he'
    have hmem : e' ∈ ioapics entries := by
      rw [h]
      exact List.mem_cons_of_mem e he'
    by_cases hle : e'.gsiBase ≤ isaGsi entries 1
    · exact Or.inl (hserves.greatest e' hmem hle)
    · exact Or.inr (UInt32.not_le.1 hle)
  · intro hrest
    refine ⟨?_, hbase, ?_⟩
    · rw [h]
      exact List.mem_cons_self
    · intro e' he' hle
      rw [h] at he'
      rcases List.mem_cons.1 he' with rfl | he'
      · exact UInt32.le_refl _
      · exact (hrest e' he').resolve_right (UInt32.not_lt.2 hle)

end

section

variable [X86] [IoApic] {init₀ held : List ℕ} {others : List (ℕ × ℕ)} {entries : List Subtable}
  {e : MadtIoapic} {rest : List MadtIoapic} {s : Board}

/-- `init` has chosen the I/O APIC `e`, and has programmed it once: for the keyboard's pin on `e`,
whose number is not cut off. -/
def Programmed (entries : List Subtable) (s : Board) (e : MadtIoapic) (s' : Board) : Prop :=
  findIoapic (some entries) = .ok (e.address.toNat, e.gsiBase) ∧
  ∃ irq cpunum : UInt8, s'.accesses = s.accesses ++ preparations ++
      [.ioapicEnable (e.address.toNat + s.vm.hhdmOffset) irq cpunum, .irqEnable] ∧
    irq.toNat = (isaGsi entries 1).toNat - e.gsiBase.toNat

/-- `init` routes the keyboard through the I/O APIC that serves it. If the registers that `init`
chose cannot be mapped, it has passed its check, and programs nothing. -/
def Routed (entries : List Subtable) (s : Board) : Prop :=
  (∃ e s', Serves entries e ∧ (init (some entries)).run s = .ok (.ok ()) s' ∧
    Programmed entries s e s') ∨
  ∃ err s', (init (some entries)).run s = .ok (.error (.couldNotMap err)) s' ∧
    s'.accesses = s.accesses ++ preparations

/-- The first I/O APIC of the table is not above the GSI of the keyboard. If its registers can be
mapped, then no other one is closer to the GSI, and the pin is one that can be programmed. -/
def FirstServes (entries : List Subtable) (s : Board) : Prop :=
  ∃ e rest, ioapics entries = e :: rest ∧ e.gsiBase ≤ isaGsi entries 1 ∧
    (Mappable s.vm e.address.toNat →
      (∀ e' ∈ rest, e'.gsiBase ≤ e.gsiBase ∨ isaGsi entries 1 < e'.gsiBase) ∧
      (isaGsi entries 1).toNat - e.gsiBase.toNat < 120)

/-- The registers are mapped: it depends on the I/O APIC and its pin. -/
theorem routed_iff_of_mapped {vm : Vm} (hlist : ioapics entries = e :: rest)
    (hbase : e.gsiBase ≤ isaGsi entries 1)
    (hmap : (mapHhdm e.address.toNat Acpi.mapFlags .base).run s.vm =
      .ok (.ok (e.address.toNat + s.vm.hhdmOffset)) vm) :
    Routed entries s ↔
      Serves entries e ∧ (isaGsi entries 1).toNat - e.gsiBase.toNat < 120 := by
  have hrun := init_run hlist s
  rw [if_pos hbase, route_of_ok (s := prepared s) hmap] at hrun
  have hpin := toNat_pin hbase
  constructor
  · rintro (⟨e', s', hserves, hok, hfound, irq, cpunum, haccesses, hirq⟩ | ⟨err, s', herr, -⟩)
    · -- `e'` is the first one, and the call that was made is the one that was described
      rcases first_of_findIoapic hfound with ⟨rest', hlist'⟩
      cases hlist.symm.trans hlist'
      refine ⟨hserves, ?_⟩
      by_cases henables : IoApic.enables (isaGsi entries 1 - e.gsiBase).toUInt8 = true
      · rw [if_pos henables] at hrun
        cases hrun.symm.trans hok
        have hlast := List.append_cancel_left haccesses
        cases hlast
        rw [← hirq]
        exact (IoApic.enables_iff _).1 henables
      · rw [if_neg henables, hok] at hrun
        cases hrun
    · rw [herr] at hrun
      split at hrun
      · cases hrun
      · cases hrun
  · rintro ⟨hserves, hlt⟩
    have hnat := hpin.trans (Nat.mod_eq_of_lt (hlt.trans (by decide)))
    have henables : IoApic.enables (isaGsi entries 1 - e.gsiBase).toUInt8 = true :=
      (IoApic.enables_iff _).2 (hnat.trans_lt hlt)
    rw [if_pos henables] at hrun
    exact Or.inl ⟨e, _, hserves, hrun, findIoapic_of_cons hlist, _, _, rfl, hnat⟩

/-- If an I/O APIC serves the keyboard, it is routed through that one just if it is the first in
the table and has a pin that can be programmed. -/
theorem keyboard_routed_iff (hT : Tree init₀ others s.vm held)
    (hhigh : s.vm.hhdmOffset + 2 ^ 32 ≤ 2 ^ 64) (entries : List Subtable) :
    (Served entries → Routed entries s) ↔ (Served entries → FirstServes entries s) := by
  refine imp_congr_right ?_
  rintro ⟨e₁, he₁, -⟩
  -- there is a first I/O APIC
  rcases List.exists_cons_of_ne_nil (List.ne_nil_of_mem he₁) with ⟨e, rest, hlist⟩
  have hfirst : FirstServes entries s ↔ e.gsiBase ≤ isaGsi entries 1 ∧
      (Mappable s.vm e.address.toNat →
        Serves entries e ∧ (isaGsi entries 1).toNat - e.gsiBase.toNat < 120) := by
    constructor
    · rintro ⟨e', rest', hlist', hbase, h⟩
      cases hlist.symm.trans hlist'
      rw [serves_first_iff hlist hbase]
      exact ⟨hbase, h⟩
    · rintro ⟨hbase, h⟩
      rw [serves_first_iff hlist hbase] at h
      exact ⟨e, rest, hlist, hbase, h⟩
  rw [hfirst]
  have hrun := init_run hlist s
  by_cases hbase : e.gsiBase ≤ isaGsi entries 1
  · have haddress : e.address.toNat < 2 ^ 32 := e.address.toNat_lt
    rcases mapHhdm_run hT (by omega : e.address.toNat < 2 ^ 52) (by omega) Acpi.mapFlags with
      ⟨hmappable, vm, hmap⟩ | ⟨hnot, err, vm, hmap⟩
    · rw [routed_iff_of_mapped hlist hbase hmap]
      simp only [hbase, hmappable, true_and, forall_const]
    · -- `init` returns the error
      rw [if_pos hbase, route_of_error (s := prepared s) hmap] at hrun
      exact iff_of_true (Or.inr ⟨err, _, hrun, rfl⟩) ⟨hbase, fun h => absurd h hnot⟩
  · -- `init` panics
    rw [if_neg hbase] at hrun
    refine iff_of_false ?_ fun h => hbase h.1
    rintro (⟨e', s', -, hok, -⟩ | ⟨err, s', herr, -⟩)
    · cases hrun.symm.trans hok
    · cases hrun.symm.trans herr

end

/-- Two I/O APICs, the one for the interrupts from 24 on last; the keyboard is at GSI 9. -/
def upperLast : List Subtable :=
  [.interruptSourceOverride ⟨0, 2⟩, .ioapic ⟨0xFEC00000, 0⟩, .ioapic ⟨0xFEC01000, 24⟩,
    .interruptSourceOverride ⟨1, 9⟩]

/-- The registers are mapped, which takes three tables, and pin 9 is programmed. -/
theorem upperLast_run : letI := X86.documented; letI := IoApic.described
    ∃ s₁, (addRange 1 4).run (freshPhys 5) = .ok () s₁ ∧ ∃ s₂,
      (allocPages 0).run s₁ = .ok (some (4 * frameSize)) s₂ ∧ s₂.pmm.totalFrames = 5 ∧
      s₂.pmm.hhdmOffset = 4096 ∧ ∃ s',
      (init (some upperLast)).run ⟨emptyVm s₂ 4, 0, []⟩ = .ok (.ok ()) s' ∧
      s'.accesses = preparations ++ [.ioapicEnable 0xFEC01000 9 0, .irqEnable] := by
  unfold addRange
  unfold addRange
  unfold addRange
  unfold addRange
  exact ⟨_, rfl, _, rfl, rfl, rfl, _, rfl, rfl⟩

/-- The first I/O APIC serves the keyboard, so that it is the right one that was programmed. -/
theorem keyboard_routed_upperLast : letI := X86.documented; letI := IoApic.described
    ∃ s s' : Board, (init (some upperLast)).run s = .ok (.ok ()) s' ∧
      s'.accesses = preparations ++ [.ioapicEnable 0xFEC01000 9 0, .irqEnable] ∧
      Served upperLast ∧ FirstServes upperLast s ∧ Routed upperLast s := by
  let := X86.documented
  let := IoApic.described
  rcases upperLast_run with ⟨s₁, hseed, s₂, halloc, htotal, hhdm, s', hrun, haccesses⟩
  have hT := (seeded_start (by decide) (by decide) hseed halloc htotal).tree
  have hserved : Served upperLast := ⟨⟨0xFEC00000, 0⟩, by decide, by decide⟩
  have hfirst : FirstServes upperLast ⟨emptyVm s₂ 4, 0, []⟩ :=
    ⟨⟨0xFEC00000, 0⟩, [⟨0xFEC01000, 24⟩], rfl, by decide, fun _ => ⟨by decide, by decide⟩⟩
  have hhigh : (emptyVm s₂ 4).hhdmOffset + 2 ^ 32 ≤ 2 ^ 64 := by
    show s₂.pmm.hhdmOffset + 2 ^ 32 ≤ 2 ^ 64
    rw [hhdm]
    decide
  exact ⟨_, s', hrun, haccesses, hserved, hfirst,
    (keyboard_routed_iff hT hhigh upperLast).2 (fun _ => hfirst) hserved⟩

/-- Two I/O APICs, the one for the interrupts from 24 on first. -/
def upperFirst : List Subtable :=
  [.ioapic ⟨0xFEC01000, 24⟩, .ioapic ⟨0xFEC00000, 0⟩]

/-- The second I/O APIC serves the keyboard, and `init` panics. -/
theorem keyboard_below_first_base :
    ((ioapics upperFirst).map MadtIoapic.gsiBase).Nodup ∧ isaGsi upperFirst 1 = 1 ∧
    (∃ e ∈ ioapics upperFirst, e.gsiBase ≤ isaGsi upperFirst 1) ∧
    ∀ [X86] [IoApic] (s : Board), ∃ s', (init (some upperFirst)).run s =
      .stop (.panic "keyboard gsi 0x1 below ioapic base 0x18") s' := by
  refine ⟨by decide, by decide, ⟨⟨0xFEC00000, 0⟩, by decide, by decide⟩, ?_⟩
  intro _ _ s
  refine ⟨prepared s, ?_⟩
  have hlist : ioapics upperFirst = ⟨0xFEC01000, 24⟩ :: [⟨0xFEC00000, 0⟩] := rfl
  rw [init_run hlist s]
  exact if_neg (by decide)

end Prometheos.Apic
