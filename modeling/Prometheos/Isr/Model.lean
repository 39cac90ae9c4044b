import Prometheos.Lib.Stack
import Prometheos.Idt.Model

/-!
# Interrupt entry (`isr.S`, `idt.rs`, `gdt.rs`)

What happens between an interrupt and `isr_handler`, and back. The processor looks up the gate
of the vector, pushes the interrupted context and jumps to the stub of the vector; the stub
pushes an error code if the processor did not, the vector, and all general registers, and calls
`isr_handler` with a pointer to what is now an `InterruptFrame`; then everything is popped.

* `Tables` is what `gdt::init` and `idt::init` leave in the descriptor tables; the descriptors
  are kept as they are put together with the builders of the `x86` crate, not as bits;
* `Machine` is the processor with its stack. Memory is a function of the index of an aligned
  8-byte word. The rest of the kernel's state, as far as `isr_handler` sees it, is `idt`;
* `isrStub` and `isrCommonStub` are the instructions of `isr.S`; `Image` is the code after
  assembly, of which only matters that the instructions follow each other (`Flows`).

The kernel runs in ring 0 only, so an interrupt does not change the privilege level.
-/

namespace Prometheos.Isr

/-! ## Registers and the frame -/

/-- The general registers, but for `rsp`. -/
inductive Reg where
  | rax | rbx | rcx | rdx | rsi | rdi | rbp
  | r8 | r9 | r10 | r11 | r12 | r13 | r14 | r15
deriving DecidableEq, Repr

/-- The registers of the processor. -/
structure Core where
  regs : Reg → Word
  rip : Word
  cs : Word
  rflags : Word
  rsp : Word
  ss : Word

/-- `InterruptFrame`. -/
structure InterruptFrame where
  r15 : Word
  r14 : Word
  r13 : Word
  r12 : Word
  r11 : Word
  r10 : Word
  r9 : Word
  r8 : Word
  rbp : Word
  rdi : Word
  rsi : Word
  rdx : Word
  rcx : Word
  rbx : Word
  rax : Word
  vector : Word
  errorCode : Word
  rip : Word
  cs : Word
  rflags : Word
  rsp : Word
  ss : Word
deriving DecidableEq

namespace InterruptFrame

/-- The layout of the frame: `repr(C)`, every field a word. -/
def words (F : InterruptFrame) : List Word :=
  [F.r15, F.r14, F.r13, F.r12, F.r11, F.r10, F.r9, F.r8, F.rbp, F.rdi, F.rsi, F.rdx, F.rcx, F.rbx,
    F.rax, F.vector, F.errorCode, F.rip, F.cs, F.rflags, F.rsp, F.ss]

/-- The general registers of a frame. -/
def regs (F : InterruptFrame) : Reg → Word
  | .rax => F.rax
  | .rbx => F.rbx
  | .rcx => F.rcx
  | .rdx => F.rdx
  | .rsi => F.rsi
  | .rdi => F.rdi
  | .rbp => F.rbp
  | .r8 => F.r8
  | .r9 => F.r9
  | .r10 => F.r10
  | .r11 => F.r11
  | .r12 => F.r12
  | .r13 => F.r13
  | .r14 => F.r14
  | .r15 => F.r15

/-- The registers a frame stands for. -/
def core (F : InterruptFrame) : Core := ⟨F.regs, F.rip, F.cs, F.rflags, F.rsp, F.ss⟩

end InterruptFrame

/-- The frame of an interrupted context. -/
def Core.frame (c : Core) (vector errorCode : Word) : InterruptFrame where
  r15 := c.regs .r15
  r14 := c.regs .r14
  r13 := c.regs .r13
  r12 := c.regs .r12
  r11 := c.regs .r11
  r10 := c.regs .r10
  r9 := c.regs .r9
  r8 := c.regs .r8
  rbp := c.regs .rbp
  rdi := c.regs .rdi
  rsi := c.regs .rsi
  rdx := c.regs .rdx
  rcx := c.regs .rcx
  rbx := c.regs .rbx
  rax := c.regs .rax
  vector := vector
  errorCode := errorCode
  rip := c.rip
  cs := c.cs
  rflags := c.rflags
  rsp := c.rsp
  ss := c.ss

/-- The processor and its stack, and the handlers. -/
structure Machine where
  core : Core
  stack : ℕ → Word
  idt : Idt.State

/-! ## Descriptor tables -/

/-- A segment, as it is put together with `DescriptorBuilder`. -/
structure Segment where
  executable : Bool
  base : ℕ
  limit : ℕ
  present : Bool
  dpl : ℕ
  long : Bool
  db : Bool
  granular : Bool
deriving DecidableEq

/-- `DescriptorBuilder::code_descriptor(0, 0xFFFFF, ExecuteRead)` with the attributes that
`gdt::init` gives it. -/
def codeSegment (dpl : ℕ) (long db : Bool) : Segment :=
  ⟨true, 0, 0xFFFFF, true, dpl, long, db, true⟩

/-- `DescriptorBuilder::data_descriptor(0, 0xFFFFF, ReadWrite)`. -/
def dataSegment (dpl : ℕ) : Segment := ⟨false, 0, 0xFFFFF, true, dpl, false, false, true⟩

/-- An entry of the GDT. -/
inductive Descriptor where
  | null
  | segment (s : Segment)
  | tss (base limit dpl : ℕ)
deriving DecidableEq

/-- `TaskStateSegment`, as far as `gdt::init` fills it in. -/
structure TaskStateSegment where
  ist : Fin 7 → ℕ
  iomapBase : ℕ

/-- `size_of::<TaskStateSegment>()`. -/
def tssSize : ℕ := 104

/-- `IST_STACK_SIZE`. -/
def istStackSize : ℕ := 4096 * 4

/-- The task state that `gdt::init` installs; `stackBottom` is the address of
`DOUBLE_FAULT_STACK`. -/
def initTss (stackBottom : ℕ) : TaskStateSegment where
  ist := fun i => if i = 0 then stackBottom + istStackSize else 0
  iomapBase := tssSize

/-- The `GlobalDescriptorTable` that `gdt::init` installs, slot by slot; the task state at
`tssAddress` takes the last two. -/
def initGdt (tssAddress : ℕ) : List Descriptor :=
  [.null, .segment (codeSegment 0 true false), .segment (dataSegment 0),
    .segment (codeSegment 3 false true), .segment (dataSegment 3),
    .segment (codeSegment 3 true false), .tss tssAddress (tssSize - 1) 0]

/-- `SegmentSelector::new`. -/
def selectorNew (index rpl : ℕ) : ℕ := index * 8 + rpl

/-- An interrupt gate, as it is put together with `interrupt_descriptor`. -/
structure Gate where
  selector : ℕ
  offset : Word
  dpl : ℕ
  ist : ℕ
  present : Bool

/-- `DOUBLE_FAULT_IST`. -/
def doubleFaultIst : ℕ := 1

/-- The gates that `idt::init` installs. -/
def initIdt (isrTable : Fin 256 → Word) (i : Fin 256) : Gate where
  selector := selectorNew 1 0
  offset := isrTable i
  dpl := if i = 0x80 then 3 else 0
  ist := if i = 8 then doubleFaultIst else 0
  present := true

/-- The tables the processor uses. -/
structure Tables where
  gdt : List Descriptor
  idt : Fin 256 → Gate
  tss : TaskStateSegment

/-- The tables after `gdt::init` and `idt::init`. -/
def initTables (isrTable : Fin 256 → Word) (stackBottom tssAddress : ℕ) : Tables :=
  ⟨initGdt tssAddress, initIdt isrTable, initTss stackBottom⟩

/-! ## Delivery by the processor -/

/-- `IF`. -/
def flagIF : Word := 0x200

/-- `DF`. -/
def flagDF : Word := 0x400

/-- What an interrupt gate clears: `TF`, `IF`, `NT`, `RF` and `VM`. -/
def gateClears : Word := 0x100 ||| flagIF ||| 0x4000 ||| 0x10000 ||| 0x20000

/-- The vectors for which the processor pushes an error code. -/
def hasErrorCode (v : Fin 256) : Bool := v ∈ [8, 10, 11, 12, 13, 14, 17, 21, 29, 30]

/-- The index of the word that `rsp` points to. -/
def Machine.top (m : Machine) : ℕ := m.core.rsp.toNat / 8

/-- Push a word. -/
def Machine.push (m : Machine) (w : Word) : Machine :=
  let rsp := m.core.rsp - 8
  { m with core := { m.core with rsp := rsp }, stack := Function.update m.stack (rsp.toNat / 8) w }

/-- The word on top of the stack. -/
def Machine.peek (m : Machine) : Word := m.stack m.top

/-- The selector leads to a present 64-bit code segment of ring 0. -/
def Tables.Enters (T : Tables) (selector : ℕ) : Prop :=
  ∃ s, T.gdt[selector / 8]? = some (.segment s) ∧ s.executable = true ∧ s.present = true ∧
    s.dpl = 0 ∧ s.long = true ∧ s.db = false

/-- The stack on which an interrupt is taken. -/
def Tables.stackFor (T : Tables) (g : Gate) (rsp : Word) : Word :=
  if h : 0 < g.ist ∧ g.ist ≤ 7 then BitVec.ofNat 64 (T.tss.ist ⟨g.ist - 1, by omega⟩) else rsp

/-- The processor pushes the interrupted context on a stack that it aligns to 16 bytes. -/
def Machine.save (m : Machine) (sp : Word) (errorCode : Option Word) : Machine :=
  let m₁ := { m with core := { m.core with rsp := sp &&& ~~~15 } }
  let m₂ := ((((m₁.push m.core.ss).push m.core.rsp).push m.core.rflags).push m.core.cs).push
    m.core.rip
  match errorCode with
  | some e => m₂.push e
  | none => m₂

/-- The interrupt of a vector, with the error code the processor may push: it goes through the
gate of the vector if the gate is good. -/
inductive Tables.Delivers (T : Tables) (v : Fin 256) (errorCode : Word) (m : Machine) :
    Machine → Prop
  | mk : (T.idt v).present = true → T.Enters (T.idt v).selector →
      Delivers T v errorCode m
        (let m' := m.save (T.stackFor (T.idt v) m.core.rsp)
          (if hasErrorCode v then some errorCode else none)
        { m' with core := { m'.core with
          rip := (T.idt v).offset
          cs := BitVec.ofNat 64 (T.idt v).selector
          rflags := m.core.rflags &&& ~~~gateClears } })

/-! ## The stubs -/

/-- The instructions of `isr.S`; the target of `jmp` is `isr_common_stub`, and that of `call`
is `isr_handler`. -/
inductive Instr where
  | push (r : Reg)
  | pushImm (n : ℕ)
  | pop (r : Reg)
  | cld
  | movRdiRsp
  | addRsp16
  | jmp
  | call
  | iretq
deriving DecidableEq, Repr

/-- The `push` instructions of `isr_common_stub`. -/
def saved : List Reg :=
  [.rax, .rbx, .rcx, .rdx, .rsi, .rdi, .rbp, .r8, .r9, .r10, .r11, .r12, .r13, .r14, .r15]

/-- The `pop` instructions of `isr_common_stub`. -/
def restored : List Reg :=
  [.r15, .r14, .r13, .r12, .r11, .r10, .r9, .r8, .rbp, .rdi, .rsi, .rdx, .rcx, .rbx, .rax]

/-- `isr_common_stub`. -/
def isrCommonStub : List Instr :=
  .cld :: (saved.map .push ++ .movRdiRsp :: .call :: (restored.map .pop ++ [.addRsp16, .iretq]))

/-- The condition of the `.if` in the macro `isr`. -/
def skipsErrorCode (number : ℕ) : Bool :=
  !(number = 8 ∨ number ≥ 10 ∧ number ≤ 14 ∨ number = 17 ∨ number = 21 ∨ number = 29 ∨
    number = 30)

/-- The macro `isr`. -/
def isrStub (number : ℕ) : List Instr :=
  (if skipsErrorCode number then [.pushImm 0] else []) ++ [.pushImm number, .jmp]

/-- The code after assembly: the instruction at an address and the address after it; `isr_table`
and the address of `isr_common_stub`. -/
structure Image where
  fetch : Word → Option (Instr × Word)
  isrTable : Fin 256 → Word
  commonStub : Word

/-- Where the code goes on after an instruction. -/
def Image.after (I : Image) (i : Instr) (next : Word) : Word :=
  if i = .jmp then I.commonStub else next

/-- From `a` on, the instructions `is` follow each other. -/
def Image.Flows (I : Image) : Word → List Instr → Prop
  | _, [] => True
  | a, i :: is => ∃ next, I.fetch a = some (i, next) ∧ I.Flows (I.after i next) is

instance Image.decidableFlows (I : Image) : (a : Word) → (is : List Instr) →
    Decidable (I.Flows a is)
  | _, [] => .isTrue trivial
  | a, i :: is =>
      have (next : Word) : Decidable (I.Flows next is) := Image.decidableFlows I next is
      decidable_of_iff (∃ p ∈ I.fetch a, p.1 = i ∧ I.Flows (I.after i p.2) is) (by
        constructor
        · rintro ⟨⟨j, next⟩, hfetch, hj, hflows⟩
          cases hj
          exact ⟨next, hfetch, hflows⟩
        · rintro ⟨next, hfetch, hflows⟩
          exact ⟨(i, next), hfetch, rfl, hflows⟩)

/-- Each entry of `isr_table` is the address of a stub. -/
def Image.Assembled (I : Image) : Prop :=
  ∀ v : Fin 256, I.Flows (I.isrTable v) (isrStub v ++ isrCommonStub)

/-! ## Execution -/

/-- Set a general register. -/
def Machine.setReg (m : Machine) (r : Reg) (w : Word) : Machine :=
  { m with core := { m.core with regs := Function.update m.core.regs r w } }

/-- Go on at an address. -/
def Machine.goto (m : Machine) (a : Word) : Machine := { m with core := { m.core with rip := a } }

/-- Add to `rsp`. -/
def Machine.drop (m : Machine) (n : ℕ) : Machine :=
  { m with core := { m.core with rsp := m.core.rsp + BitVec.ofNat 64 n } }

/-- What an instruction does, apart from `rip`; `call` and `iretq` are treated below. -/
def Machine.exec (m : Machine) : Instr → Machine
  | .push r => m.push (m.core.regs r)
  | .pushImm n => m.push (BitVec.ofNat 64 n)
  | .pop r => (m.setReg r m.peek).drop 8
  | .cld => { m with core := { m.core with rflags := m.core.rflags &&& ~~~flagDF } }
  | .movRdiRsp => m.setReg .rdi m.core.rsp
  | .addRsp16 => m.drop 16
  | .jmp => m
  | .call => m
  | .iretq => m

/-- `iretq`. -/
def Machine.iretq (m : Machine) : Machine :=
  { m with core := { m.core with
      rip := m.stack m.top
      cs := m.stack (m.top + 1)
      rflags := m.stack (m.top + 2)
      rsp := m.stack (m.top + 3)
      ss := m.stack (m.top + 4) } }

/-- A frame lies at a word of the stack. -/
def InterruptFrame.At (F : InterruptFrame) (stack : ℕ → Word) (p : ℕ) : Prop :=
  Stack.Holds stack p F.words

/-- What a Rust function may do to a frame and to the handlers. -/
abbrev Handler := InterruptFrame → Idt.State → InterruptFrame → Idt.State → Prop

/-- `isr_handler` for a vector that it does not panic for. None of the closures that the kernel
installs looks at the frame, so it stays as it is. -/
def isrHandler : Handler := fun F s F' s' =>
  F' = F ∧ ∃ h : F.vector.toNat < 256, (Idt.isrHandler ⟨F.vector.toNat, h⟩).run s = .ok () s'

/-- `call isr_handler`, up to the return to `next`. The function gets a pointer in `rdi`; it
keeps `rsp` and the registers that the calling convention makes it save, and it writes to its
own part of the stack and to the frame only. -/
structure Called (H : Handler) (m : Machine) (next : Word) (m' : Machine) : Prop where
  handled : ∃ F F', F.At m.stack ((m.core.regs .rdi).toNat / 8) ∧ H F m.idt F' m'.idt ∧
    F'.At m'.stack ((m.core.regs .rdi).toNat / 8)
  rip : m'.core.rip = next
  rsp : m'.core.rsp = m.core.rsp
  cs : m'.core.cs = m.core.cs
  ss : m'.core.ss = m.core.ss
  regs : ∀ r ∈ [Reg.rbx, .rbp, .r12, .r13, .r14, .r15], m'.core.regs r = m.core.regs r
  stack : ∀ x, m.top ≤ x → ¬ ((m.core.regs .rdi).toNat / 8 ≤ x ∧
    x < (m.core.regs .rdi).toNat / 8 + 22) → m'.stack x = m.stack x

/-- One instruction of the stubs, but for `iretq`. -/
inductive Step (I : Image) (H : Handler) (m : Machine) : Machine → Prop
  | exec {i : Instr} {next : Word} : I.fetch m.core.rip = some (i, next) → i ≠ .call →
      i ≠ .iretq → Step I H m ((m.exec i).goto (I.after i next))
  | call {next : Word} {m' : Machine} : I.fetch m.core.rip = some (.call, next) →
      Called H m next m' → Step I H m m'

end Prometheos.Isr
