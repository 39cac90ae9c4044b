import Mathlib.Data.List.Perm.Basic
import Prometheos.Isr.Service

/-!
# Interrupts within interrupts

An interrupt may come before any instruction of the stubs of another one, and be served there to
its end: `Path` is a run of the stubs with such interrupts in it, nested to any depth. Which
vectors may interrupt is not restricted, so that non-maskable interrupts and exceptions are
among them.

* `isr_handler_frame`: the tables of `gdt::init` and `idt::init` let every interrupt through to
  its stub, and `isr_handler` is called with the frame of the interrupted context;
* `interrupts_transparent`: whatever was interrupted goes on with all its registers and its
  stack as they were, and each interrupt called its handler once.
-/

namespace Prometheos.Isr

open Stack

/-! ## Runs of the stubs -/

/-- Instructions of the stubs, with whole interrupts between them; the list has the vectors of
the interrupts in the order in which they came. -/
inductive Path (I : Image) (T : Tables) (H : Handler) : List (Fin 256) → Machine → Machine → Prop
  | refl (m : Machine) : Path I T H [] m m
  | step {vs : List (Fin 256)} {a b c : Machine} : Path I T H vs a b → Step I H b c →
      Path I T H vs a c
  | nest {vs ws : List (Fin 256)} {a b c d : Machine} {v : Fin 256} {e next : Word} :
      Path I T H vs a b → T.Delivers v e b c →
      256 ≤ (T.stackFor (T.idt v) b.core.rsp).toNat → Path I T H ws c d →
      I.fetch d.core.rip = some (.iretq, next) → Path I T H (vs ++ v :: ws) a d.iretq

/-- The closure that an interrupt calls. -/
def reaction (t : Idt.Handlers Idt.Closure) (v : Fin 256) : List Idt.Closure :=
  if Idt.IsSlotVector v then (t v).toList.filter fun c => c.handler.isSome else []

/-- The vectors for which `isr_handler` returns. -/
def Returns (v : Fin 256) : Prop := v = 1 ∨ v = 2 ∨ v = 3 ∨ 32 ≤ v

section

variable {v : Fin 256} {s s' : Idt.State}

/-- `isr_handler` calls the closure of the vector, and leaves the table. -/
theorem isrHandler_reaction (h : (Idt.isrHandler v).run s = .ok () s') :
    s'.handlers = s.handlers ∧ s'.calls = reaction s.handlers v ++ s.calls := by
  unfold reaction
  by_cases hslot : Idt.IsSlotVector v
  · rw [if_pos hslot]
    cases hc : s.handlers v with
    | none =>
        obtain hsame | ⟨c, -, hsome, -⟩ := Idt.isrHandler_cases v s
        · rw [h] at hsame
          cases hsame
          exact ⟨rfl, rfl⟩
        · rw [hc] at hsome
          cases hsome
    | some c =>
        rw [Idt.isrHandler_slot hslot hc] at h
        cases h
        unfold Idt.State.called
        cases hh : c.handler with
        | none => simp [hh]
        | some n => simp [hh]
  · rw [if_neg hslot]
    obtain hsame | ⟨c, hslot', -⟩ := Idt.isrHandler_cases v s
    · rw [h] at hsame
      cases hsame
      exact ⟨rfl, rfl⟩
    · exact absurd hslot' hslot

theorem returns_of_isrHandler (h : (Idt.isrHandler v).run s = .ok () s') : Returns v := by
  unfold Idt.isrHandler at h
  unfold Returns
  by_cases hlow : v = 1 ∨ v = 2 ∨ v = 3
  · tauto
  · rw [if_neg hlow] at h
    by_cases hpf : v = 14
    · rw [if_pos hpf] at h
      cases h
    · rw [if_neg hpf] at h
      by_cases hlt : v < 32
      · rw [if_pos hlt] at h
        cases h
      · exact Or.inr (Or.inr (Or.inr (Nat.not_lt.1 hlt)))

end

/-! ## What is left of the stub -/

theorem count_call (v : ℕ) : (isrStub v ++ isrCommonStub).count .call = 1 := by
  unfold isrStub
  cases skipsErrorCode v with
  | true => rfl
  | false => rfl

/-- `iretq` is the last instruction of the stub, and the only one of its kind. -/
theorem iretq_last {v : ℕ} {is : List Instr}
    (h : .iretq :: is <:+ isrStub v ++ isrCommonStub) : is = [] := by
  obtain ⟨pre, hpre⟩ := h
  have hcount : (isrStub v ++ isrCommonStub).count .iretq = 1 := by
    unfold isrStub
    cases skipsErrorCode v with
    | true => rfl
    | false => rfl
  have hlast : (isrStub v ++ isrCommonStub).getLast? = some .iretq := by
    unfold isrStub
    cases skipsErrorCode v with
    | true => rfl
    | false => rfl
  rw [← hpre] at hcount hlast
  rw [List.count_append, List.count_cons_self] at hcount
  rw [List.getLast?_append, List.getLast?_cons] at hlast
  have hnone : Instr.iretq ∉ is := List.count_eq_zero.1 (by omega)
  cases his : is.getLast? with
  | none => exact List.getLast?_eq_none_iff.1 his
  | some i =>
      rw [his] at hlast
      cases hlast
      exact absurd (List.mem_of_getLast? his) hnone

/-! ## Served to the end -/

/-- The tables and the code of the kernel. -/
structure Installed (I : Image) (T : Tables) : Prop where
  assembled : I.Assembled
  tables : ∃ stackBottom tssAddress, T = initTables I.isrTable stackBottom tssAddress

section

variable {I : Image} {T : Tables} {m₀ m a b : Machine} {v : Fin 256} {e errorCode : Word}
  {floor : ℕ} {vs : List (Fin 256)}

theorem Installed.offset_eq (hI : Installed I T) (v : Fin 256) :
    (T.idt v).offset = I.isrTable v := by
  obtain ⟨sb, ta, rfl⟩ := hI.tables
  rfl

/-- Only double faults have a stack of their own. -/
theorem Installed.stackFor_eq (hI : Installed I T) (hv : v ≠ 8) (rsp : Word) :
    T.stackFor (T.idt v) rsp = rsp := by
  obtain ⟨sb, ta, rfl⟩ := hI.tables
  have hist : ((initTables I.isrTable sb ta).idt v).ist = 0 := if_neg hv
  unfold Tables.stackFor
  rw [dif_neg]
  omega

theorem Returns.ne_eight (h : Returns v) : v ≠ 8 := by
  rintro rfl
  revert h
  unfold Returns
  decide

/-- The context that `isr_handler` leaves is the one that goes on. -/
theorem AtEnd.iretq_core {H : Handler} (h : AtEnd H m₀ v e floor m) : ∃ F s s',
    H (m₀.core.frame (BitVec.ofNat 64 v) e) s F s' ∧ m.iretq.core = F.core := by
  obtain ⟨F, s, s', hH, hregs, hc⟩ := h.left
  obtain ⟨hrip, hcs, hrflags, hrsp, hss, -⟩ := hc.holds
  refine ⟨F, s, s', hH, ?_⟩
  unfold Machine.iretq InterruptFrame.core
  simp only [Core.mk.injEq]
  exact ⟨hregs, hrip, hcs, hrflags, hrsp, hss⟩

theorem Core.frame_core (c : Core) (v e : Word) : (c.frame v e).core = c := by
  have hregs : (c.frame v e).regs = c.regs := by
    funext r
    cases r <;> rfl
  unfold InterruptFrame.core
  rw [hregs]
  rfl

theorem toNat_vector (v : Fin 256) : (BitVec.ofNat 64 v).toNat = v := by
  have hlt := v.isLt
  rw [BitVec.toNat_ofNat]
  omega

/-- The kernel's own `isr_handler`, for the frame of a context. -/
theorem isrHandler_frame {c : Core} {F : InterruptFrame} {s s' : Idt.State}
    (h : isrHandler (c.frame (BitVec.ofNat 64 v) e) s F s') :
    F = c.frame (BitVec.ofNat 64 v) e ∧ (Idt.isrHandler v).run s = .ok () s' := by
  obtain ⟨hF, hlt, hrun⟩ := h
  have hv : (⟨(c.frame (BitVec.ofNat 64 v) e).vector.toNat, hlt⟩ : Fin 256) = v :=
    Fin.ext (toNat_vector v)
  rw [hv] at hrun
  exact ⟨hF, hrun⟩

/-- What goes on after the kernel's own `isr_handler` is what was interrupted. -/
theorem AtEnd.resumes (hI : Installed I T)
    (h : AtEnd isrHandler m₀ v e (floorOf (T.stackFor (T.idt v) m₀.core.rsp)) m) :
    m.iretq.core = m₀.core ∧ Above m₀.top m₀.stack m.iretq.stack := by
  obtain ⟨F, s, s', hH, hcore⟩ := h.iretq_core
  obtain ⟨hF, hrun⟩ := isrHandler_frame hH
  rw [hF, Core.frame_core] at hcore
  refine ⟨hcore, ?_⟩
  rw [hI.stackFor_eq (returns_of_isrHandler hrun).ne_eight] at h
  obtain ⟨_, _, _, -, -, hc⟩ := h.left
  refine hc.above.mono ?_
  rw [floorOf_eq]
  unfold Machine.top
  omega

/-- A point in the service of an interrupt of `m₀`: the instructions `is` are left, and the
handlers that were called since. -/
structure Along (I : Image) (T : Tables) (m₀ : Machine) (v : Fin 256) (e : Word)
    (vs : List (Fin 256)) (is : List Instr) (m : Machine) : Prop where
  rest : is <:+ isrStub v ++ isrCommonStub
  flows : I.Flows m.core.rip is
  serves : Serves isrHandler
    (AtCall m₀ v (errorOf v e) (floorOf (T.stackFor (T.idt v) m₀.core.rsp)))
    (AtEnd isrHandler m₀ v (errorOf v e) (floorOf (T.stackFor (T.idt v) m₀.core.rsp))) is m
  handlers : m.idt.handlers = m₀.idt.handlers
  calls : m.idt.calls.Perm (vs.flatMap (reaction m₀.idt.handlers) ++
    (if .call ∈ is then [] else reaction m₀.idt.handlers v) ++ m₀.idt.calls)

theorem Tables.Delivers.idt_eq (hd : T.Delivers v e m₀ m) : m.idt = m₀.idt := by
  cases hd with
  | mk hpresent henters =>
      dsimp only
      cases hasErrorCode v with
      | true => rfl
      | false => rfl

theorem call_mem (v : ℕ) : .call ∈ isrStub v ++ isrCommonStub :=
  List.count_pos_iff.1 (by rw [count_call]; decide)

theorem Installed.delivers (hI : Installed I T) (v : Fin 256) (e : Word) (m : Machine) :
    ∃ a, T.Delivers v e m a := by
  obtain ⟨sb, ta, rfl⟩ := hI.tables
  have hselector : ((initTables I.isrTable sb ta).idt v).selector / 8 = 1 := by
    change selectorNew 1 0 / 8 = 1
    decide
  refine ⟨_, .mk rfl ⟨codeSegment 0 true false, ?_, rfl, rfl, rfl, rfl, rfl⟩⟩
  rw [hselector]
  rfl

/-- The service begins. -/
theorem along_delivered (hI : Installed I T) (hd : T.Delivers v e m₀ m)
    (hroom : 256 ≤ (T.stackFor (T.idt v) m₀.core.rsp).toNat) :
    Along I T m₀ v e [] (isrStub v ++ isrCommonStub) m := by
  obtain ⟨hrip, hserves⟩ := serves_delivered hd (room_floorOf hroom)
  refine ⟨List.suffix_refl _, ?_, hserves, ?_, ?_⟩
  · rw [hrip, hI.offset_eq]
    exact hI.assembled v
  · rw [hd.idt_eq]
  · rw [hd.idt_eq, if_pos (call_mem v)]
    exact List.Perm.refl _

section

variable {is : List Instr} {i : Instr} {next : Word}

/-- The instruction to be executed is the first of those that are left. -/
theorem Along.head (h : Along I T m₀ v e vs is m) (hfetch : I.fetch m.core.rip = some (i, next)) :
    ∃ is', is = i :: is' ∧ I.Flows (I.after i next) is' := by
  cases is with
  | nil => exact h.serves.elim
  | cons j is' =>
      obtain ⟨next', hfetch', hflows⟩ := h.flows
      rw [hfetch] at hfetch'
      cases hfetch'
      exact ⟨is', rfl, hflows⟩

/-- What differs in scratch is as good. -/
theorem Serves.congr {H : Handler} {is : List Instr}
    (h : Serves H (AtCall m₀ v e floor) (AtEnd H m₀ v e floor) is a) (hab : Agree a b) :
    Serves H (AtCall m₀ v e floor) (AtEnd H m₀ v e floor) is b :=
  h.agree (fun _ _ hab hP => hP.agree hab) (fun _ hP => hP.onStack)
    (fun _ _ hab hQ => hQ.agree hab) hab

theorem Along.exec (h : Along I T m₀ v e vs (i :: is) m) (hcall : i ≠ .call)
    (hiretq : i ≠ .iretq) (hflows : I.Flows (I.after i next) is) :
    Along I T m₀ v e vs is ((m.exec i).goto (I.after i next)) := by
  have hidt : ((m.exec i).goto (I.after i next)).idt = m.idt := by
    cases i <;> rfl
  have hmem : .call ∈ i :: is ↔ .call ∈ is := by
    rw [List.mem_cons]
    exact or_iff_right hcall.symm
  refine ⟨(List.suffix_cons i is).trans h.rest, hflows,
    (h.serves.exec hcall hiretq).congr (agree_goto _ _), ?_, ?_⟩
  · rw [hidt]
    exact h.handlers
  · have hcalls := h.calls
    rw [if_congr hmem rfl rfl] at hcalls
    rw [hidt]
    exact hcalls

/-- The `call` is made once. -/
theorem call_notMem (h : .call :: is <:+ isrStub v ++ isrCommonStub) : .call ∉ is := by
  have hcount := count_call v
  obtain ⟨pre, hpre⟩ := h
  rw [← hpre, List.count_append, List.count_cons_self] at hcount
  exact List.count_eq_zero.1 (by omega)

theorem Along.called (h : Along I T m₀ v e vs (.call :: is) m)
    (hcalled : Called isrHandler m next b) (hflows : I.Flows next is) :
    Along I T m₀ v e vs is b := by
  obtain ⟨hat, hserves⟩ := h.serves.call
  obtain ⟨F, hH, -⟩ := hat.called hcalled
  obtain ⟨hhandlers, hcalls⟩ := isrHandler_reaction (isrHandler_frame hH).2
  have hcalls₀ := h.calls
  rw [if_pos List.mem_cons_self, List.append_nil] at hcalls₀
  refine ⟨(List.suffix_cons _ is).trans h.rest, ?_, hserves _ _ _ hcalled, ?_, ?_⟩
  · rw [hcalled.rip]
    exact hflows
  · rw [hhandlers, h.handlers]
  · rw [hcalls, h.handlers, if_neg (call_notMem h.rest)]
    refine (hcalls₀.append_left _).trans ?_
    rw [← List.append_assoc]
    exact List.perm_append_comm.append_right _

/-- The service ends. -/
theorem Along.iretq (hI : Installed I T) (h : Along I T m₀ v e vs is m)
    (hfetch : I.fetch m.core.rip = some (.iretq, next)) :
    m.iretq.core = m₀.core ∧ Above m₀.top m₀.stack m.iretq.stack ∧
      m.iretq.idt.handlers = m₀.idt.handlers ∧
      m.iretq.idt.calls.Perm ((v :: vs).flatMap (reaction m₀.idt.handlers) ++ m₀.idt.calls) := by
  obtain ⟨is', rfl, -⟩ := h.head hfetch
  obtain ⟨hcore, hstack⟩ := h.serves.iretq.resumes hI
  have hcalls := h.calls
  have hlast := iretq_last h.rest
  subst hlast
  refine ⟨hcore, hstack, h.handlers, hcalls.trans ?_⟩
  rw [if_neg (by decide), List.flatMap_cons]
  exact List.perm_append_comm.append_right _

end

end

/-! ## Along every run -/

section

variable {I : Image} {T : Tables} {vs : List (Fin 256)} {a b : Machine}

/-- Wherever a run of the stubs has got to, with interrupts in it or not, the rest of the stub
does what it is for. -/
theorem Path.along (hI : Installed I T) (hp : Path I T isrHandler vs a b) {m₀ : Machine}
    {v : Fin 256} {e : Word} (hd : T.Delivers v e m₀ a)
    (hroom : 256 ≤ (T.stackFor (T.idt v) m₀.core.rsp).toNat) :
    ∃ is, Along I T m₀ v e vs is b := by
  induction hp generalizing m₀ v e with
  | refl m => exact ⟨_, along_delivered hI hd hroom⟩
  | step hp hstep ih =>
      obtain ⟨is, h⟩ := ih hd hroom
      cases hstep with
      | exec hfetch hcall hiretq =>
          obtain ⟨is', rfl, hflows⟩ := h.head hfetch
          exact ⟨is', h.exec hcall hiretq hflows⟩
      | call hfetch hcalled =>
          obtain ⟨is', rfl, hflows⟩ := h.head hfetch
          exact ⟨is', h.called hcalled hflows⟩
  | nest hp hd' hroom' hp' hfetch ih ih' =>
      obtain ⟨is, h⟩ := ih hd hroom
      obtain ⟨is', h'⟩ := ih' hd' hroom'
      obtain ⟨hcore, hstack, hhandlers, hcalls⟩ := h'.iretq hI hfetch
      refine ⟨is, h.rest, ?_, h.serves.congr ?_, hhandlers.trans h.handlers, ?_⟩
      · rw [hcore]
        exact h.flows
      · -- the inner interrupt has only touched scratch
        constructor <;> first | rw [hcore] | exact hstack
      · rw [h.handlers] at hcalls
        refine (hcalls.trans (h.calls.append_left _)).trans ?_
        rw [List.flatMap_append, ← List.append_assoc, ← List.append_assoc]
        exact (List.perm_append_comm.append_right _).append_right _

/-- `isr_handler` is called with a pointer to the frame of the interrupted context, wherever
other interrupts came in between. -/
theorem isr_handler_frame (hI : Installed I T) (m₀ : Machine) (v : Fin 256) (e : Word)
    (hroom : 256 ≤ (T.stackFor (T.idt v) m₀.core.rsp).toNat) :
    (∃ a, T.Delivers v e m₀ a) ∧ ∀ vs a b next, T.Delivers v e m₀ a →
      Path I T isrHandler vs a b → I.fetch b.core.rip = some (.call, next) →
      b.core.regs .rdi = b.core.rsp ∧
        (m₀.core.frame (BitVec.ofNat 64 v) (errorOf v e)).At b.stack b.top ∧
        b.core.rsp.toNat % 16 = 0 ∧ b.core.rflags &&& (flagIF ||| flagDF) = 0 := by
  refine ⟨hI.delivers v e m₀, ?_⟩
  intro vs a b next hd hp hfetch
  obtain ⟨is, h⟩ := hp.along hI hd hroom
  obtain ⟨is', rfl, -⟩ := h.head hfetch
  obtain ⟨hat, -⟩ := h.serves.call
  refine ⟨hat.onStack, hat.carries.holds, hat.aligned, ?_⟩
  have hmask : ~~~gateClears &&& (~~~flagDF &&& (flagIF ||| flagDF)) = 0 := by decide
  rw [hat.rflags, BitVec.and_assoc, BitVec.and_assoc, hmask]
  exact BitVec.and_zero

/-- A layout of the stubs: those of the vectors 16 bytes apart, `isr_common_stub` behind them. -/
def laidOut : Image where
  fetch a :=
    let i := if a.toNat < 4096 then (isrStub (a.toNat / 16))[a.toNat % 16]?
      else isrCommonStub[a.toNat - 4096]?
    i.map fun i => (i, a + 1)
  isrTable v := BitVec.ofNat 64 (16 * v)
  commonStub := 4096

/-- The tables for it. -/
def laidOutTables : Tables := initTables laidOut.isrTable 0x10000 0x20000

theorem installed_laidOut : Installed laidOut laidOutTables := by
  refine ⟨?_, 0x10000, 0x20000, rfl⟩
  unfold Image.Assembled
  decide +kernel

/-- A context with interrupts enabled. -/
def running : Machine where
  core := ⟨fun _ => 7, 0x5000, 8, 0x202, 0x9000, 16⟩
  stack := fun _ => 0
  idt := ⟨fun _ => none, [], 0⟩

theorem isr_handler_frame_running :
    256 ≤ (laidOutTables.stackFor (laidOutTables.idt 33) running.core.rsp).toNat ∧
      ∃ a, laidOutTables.Delivers 33 0 running a ∧ ∀ vs b next,
        Path laidOut laidOutTables isrHandler vs a b →
        laidOut.fetch b.core.rip = some (.call, next) →
        (running.core.frame 33 0).At b.stack b.top := by
  have hroom : 256 ≤ (laidOutTables.stackFor (laidOutTables.idt 33) running.core.rsp).toNat := by
    decide
  obtain ⟨⟨a, hd⟩, hall⟩ := isr_handler_frame installed_laidOut running 33 0 hroom
  refine ⟨hroom, a, hd, ?_⟩
  intro vs b next hp hfetch
  exact (hall vs a b next hd hp hfetch).2.1

end

end Prometheos.Isr
