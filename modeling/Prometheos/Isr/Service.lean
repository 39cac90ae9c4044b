import Prometheos.Isr.Model

/-!
# What the stubs do

`Serves H P Q is m` says what comes of executing the instructions `is` from `m` on, whatever
`isr_handler` does to the registers it need not save: no access leaves the stack or is
unaligned, `P` holds at the `call` and `Q` at the `iretq`. It does not depend on scratch, the
part of the stack below `rsp` (`Serves.agree`), which is why an interrupt between two
instructions makes no difference.

`Carries` describes the stack while the context is pushed and popped, and `serves_delivered`
puts the parts of the stubs together.
-/

namespace Prometheos.Isr

open Stack

/-! ## Scratch makes no difference -/

/-- The stack pointer is aligned, and there is a word below it and there are two above. -/
def Fits (m : Machine) : Prop :=
  m.core.rsp.toNat % 8 = 0 ∧ 8 ≤ m.core.rsp.toNat ∧ m.core.rsp.toNat + 16 < 2 ^ 64

/-- The instructions are executed up to `iretq`: `P` at the call, `Q` at the end. Other
interrupts may have changed the handlers before the call. -/
def Serves (H : Handler) (P Q : Machine → Prop) : List Instr → Machine → Prop
  | [], _ => False
  | i :: is, m => Fits m ∧
      if i = .iretq then Q m
      else if i = .call then
        P m ∧ ∀ s next m', Called H { m with idt := s } next m' → Serves H P Q is m'
      else Serves H P Q is (m.exec i)

/-- The machines differ in scratch, in `rip` and in the handlers only. -/
structure Agree (a b : Machine) : Prop where
  regs : b.core.regs = a.core.regs
  rsp : b.core.rsp = a.core.rsp
  cs : b.core.cs = a.core.cs
  rflags : b.core.rflags = a.core.rflags
  ss : b.core.ss = a.core.ss
  stack : Above a.top a.stack b.stack

section

variable {a b m m' : Machine} {w : Word}

theorem Agree.top_eq (h : Agree a b) : b.top = a.top := by
  unfold Machine.top
  rw [h.rsp]

theorem Agree.fits (h : Agree a b) (hf : Fits a) : Fits b := by
  unfold Fits
  rw [h.rsp]
  exact hf

theorem agree_goto (m : Machine) (x : Word) : Agree m (m.goto x) :=
  ⟨rfl, rfl, rfl, rfl, rfl, Above.refl _ _⟩

/-- A push goes to the word below. -/
theorem top_push (hroom : 8 ≤ m.core.rsp.toNat) (w : Word) : m.top = (m.push w).top + 1 := by
  have hsub : (m.core.rsp - 8).toNat = m.core.rsp.toNat - 8 := by
    rw [BitVec.toNat_sub_of_le]
    · rfl
    · exact hroom
  unfold Machine.push Machine.top
  dsimp only
  rw [hsub]
  omega

theorem toNat_drop {n : ℕ} (h : m.core.rsp.toNat + n < 2 ^ 64) :
    (m.drop n).core.rsp.toNat = m.core.rsp.toNat + n := by
  unfold Machine.drop
  dsimp only
  rw [BitVec.toNat_add, BitVec.toNat_ofNat, Nat.mod_eq_of_lt (by omega : n < 2 ^ 64),
    Nat.mod_eq_of_lt h]

theorem Agree.push (h : Agree a b) (hf : Fits a) (w : Word) : Agree (a.push w) (b.push w) := by
  have htop := top_push hf.2.1 w
  refine ⟨h.regs, ?_, h.cs, h.rflags, h.ss, ?_⟩
  · change b.core.rsp - 8 = a.core.rsp - 8
    rw [h.rsp]
  · have hidx : (b.core.rsp - 8).toNat / 8 = (a.push w).top := by
      rw [h.rsp]
      rfl
    change Above _ _ (Function.update b.stack ((b.core.rsp - 8).toNat / 8) w)
    rw [hidx]
    exact h.stack.update w htop

theorem Agree.drop (h : Agree a b) {n : ℕ} (hn : a.core.rsp.toNat + n < 2 ^ 64) :
    Agree (a.drop n) (b.drop n) := by
  refine ⟨h.regs, ?_, h.cs, h.rflags, h.ss, h.stack.mono ?_⟩
  · change b.core.rsp + _ = a.core.rsp + _
    rw [h.rsp]
  · have hle := toNat_drop hn
    unfold Machine.top
    omega

theorem Agree.setReg (h : Agree a b) (r : Reg) (w : Word) :
    Agree (a.setReg r w) (b.setReg r w) := by
  refine ⟨?_, h.rsp, h.cs, h.rflags, h.ss, h.stack⟩
  change Function.update b.core.regs r w = Function.update a.core.regs r w
  rw [h.regs]

theorem Agree.peek (h : Agree a b) : b.peek = a.peek := by
  unfold Machine.peek
  rw [h.top_eq]
  exact h.stack _ (Nat.le_refl _)

/-- The instructions do not read scratch. -/
theorem Agree.exec (h : Agree a b) (hf : Fits a) (i : Instr) : Agree (a.exec i) (b.exec i) := by
  have hroom := hf.2.2
  cases i with
  | push r =>
      simp only [Machine.exec, h.regs]
      exact h.push hf _
  | pushImm n => exact h.push hf _
  | pop r =>
      simp only [Machine.exec, h.peek]
      have hlt : (a.setReg r a.peek).core.rsp.toNat + 8 < 2 ^ 64 := by
        change a.core.rsp.toNat + 8 < _
        omega
      exact (h.setReg r a.peek).drop hlt
  | cld =>
      refine ⟨h.regs, h.rsp, h.cs, ?_, h.ss, h.stack⟩
      change b.core.rflags &&& _ = a.core.rflags &&& _
      rw [h.rflags]
  | movRdiRsp =>
      simp only [Machine.exec, h.rsp]
      exact h.setReg .rdi _
  | addRsp16 => exact h.drop hroom
  | jmp => exact h
  | call => exact h
  | iretq => exact h

end

section

variable {H : Handler} {P Q : Machine → Prop} {is : List Instr} {i : Instr} {m a b : Machine}

/-- The frame that is passed to `isr_handler` lies on the stack. -/
def OnStack (m : Machine) : Prop := m.core.regs .rdi = m.core.rsp

/-- A call that starts from a machine that differs in scratch. -/
theorem Called.agree {s : Idt.State} {next : Word} {b' : Machine}
    (h : Called H { b with idt := s } next b') (hab : Agree a b) (hon : OnStack a) :
    Called H { a with idt := s } next b' := by
  have htop : (a.core.regs .rdi).toNat / 8 = a.top := by
    rw [hon]
    rfl
  obtain ⟨F, F', hF, hH, hF'⟩ := h.handled
  dsimp only at hF hF'
  rw [hab.regs, htop] at hF hF'
  refine ⟨⟨F, F', ?_, hH, ?_⟩, h.rip, ?_, ?_, ?_, ?_, ?_⟩
  · dsimp only
    rw [htop]
    exact Holds.above hF hab.stack.symm
  · dsimp only
    rw [htop]
    exact hF'
  · exact h.rsp.trans hab.rsp
  · exact h.cs.trans hab.cs
  · exact h.ss.trans hab.ss
  · exact fun r hr => (h.regs r hr).trans (congrFun hab.regs r)
  · intro x hx hout
    have hx' : b.top ≤ x := Nat.le_trans (Nat.le_of_eq hab.top_eq) hx
    have hkeep := h.stack x hx' (by
      dsimp only
      rw [hab.regs]
      exact hout)
    exact hkeep.trans (hab.stack x hx)

theorem serves_exec (hf : Fits m) (hcall : i ≠ .call) (hiretq : i ≠ .iretq)
    (h : Serves H P Q is (m.exec i)) : Serves H P Q (i :: is) m := by
  unfold Serves
  rw [if_neg hiretq, if_neg hcall]
  exact ⟨hf, h⟩

theorem Serves.exec (h : Serves H P Q (i :: is) m) (hcall : i ≠ .call) (hiretq : i ≠ .iretq) :
    Serves H P Q is (m.exec i) := by
  unfold Serves at h
  rw [if_neg hiretq, if_neg hcall] at h
  exact h.2

theorem Serves.fits (h : Serves H P Q (i :: is) m) : Fits m := by
  unfold Serves at h
  exact h.1

theorem serves_call (hf : Fits m) (hP : P m)
    (h : ∀ s next m', Called H { m with idt := s } next m' → Serves H P Q is m') :
    Serves H P Q (.call :: is) m := by
  unfold Serves
  rw [if_neg (by decide), if_pos rfl]
  exact ⟨hf, hP, h⟩

theorem Serves.call (h : Serves H P Q (.call :: is) m) :
    P m ∧ ∀ s next m', Called H { m with idt := s } next m' → Serves H P Q is m' := by
  unfold Serves at h
  rw [if_neg (by decide), if_pos rfl] at h
  exact h.2

theorem serves_iretq (hf : Fits m) (hQ : Q m) : Serves H P Q (.iretq :: is) m := by
  unfold Serves
  rw [if_pos rfl]
  exact ⟨hf, hQ⟩

theorem Serves.iretq (h : Serves H P Q (.iretq :: is) m) : Q m := by
  unfold Serves at h
  rw [if_pos rfl] at h
  exact h.2

/-- What comes of the instructions does not depend on scratch. -/
theorem Serves.agree (hP : ∀ a b, Agree a b → P a → P b) (hon : ∀ a, P a → OnStack a)
    (hQ : ∀ a b, Agree a b → Q a → Q b) (h : Serves H P Q is a) (hab : Agree a b) :
    Serves H P Q is b := by
  induction is generalizing a b with
  | nil => exact h
  | cons i is ih =>
      have hf := h.fits
      by_cases hcall : i = .call
      · subst hcall
        obtain ⟨hPa, hnext⟩ := h.call
        refine serves_call (hab.fits hf) (hP a b hab hPa) ?_
        intro s next b' hcalled
        exact hnext s next b' (hcalled.agree hab (hon a hPa))
      · by_cases hiretq : i = .iretq
        · subst hiretq
          exact serves_iretq (hab.fits hf) (hQ a b hab h.iretq)
        · exact serves_exec (hab.fits hf) hcall hiretq (ih (h.exec hcall hiretq) (hab.exec hf i))

end

/-! ## The context on the stack -/

/-- The words `ws` were pushed below `floor`, and nothing was written from there on. -/
structure Carries (floor : ℕ) (stack₀ : ℕ → Word) (ws : List Word) (m : Machine) : Prop where
  holds : Holds m.stack m.top ws
  depth : m.top + ws.length = floor
  aligned : m.core.rsp.toNat % 8 = 0
  above : Above floor stack₀ m.stack

/-- There is room for a frame below `floor`. -/
structure Room (floor : ℕ) : Prop where
  low : 32 ≤ floor
  high : floor + 2 ≤ 2 ^ 61

section

variable {H : Handler} {P Q : Machine → Prop} {is : List Instr} {m : Machine} {floor : ℕ}
  {stack₀ : ℕ → Word} {ws : List Word} {w : Word}

theorem Carries.fits (hc : Carries floor stack₀ ws m) (hroom : Room floor) (hne : ws ≠ [])
    (hlen : ws.length < 32) : Fits m := by
  have hdepth := hc.depth
  have hal := hc.aligned
  have hlow := hroom.low
  have hhigh := hroom.high
  have hpos := List.length_pos_iff.2 hne
  unfold Machine.top at hdepth
  unfold Fits
  omega

theorem Carries.low (hc : Carries floor stack₀ ws m) (hroom : Room floor)
    (hlen : ws.length < 31) : 8 ≤ m.core.rsp.toNat := by
  have hdepth := hc.depth
  have hlow := hroom.low
  unfold Machine.top at hdepth
  omega

theorem Carries.push (hc : Carries floor stack₀ ws m) (hlow : 8 ≤ m.core.rsp.toNat) (w : Word) :
    Carries floor stack₀ (w :: ws) (m.push w) := by
  have htop := top_push hlow w
  have hdepth := hc.depth
  have hal := hc.aligned
  refine ⟨hc.holds.push w htop, ?_, ?_, ?_⟩
  · rw [List.length_cons]
    omega
  · change (m.core.rsp - 8).toNat % 8 = 0
    rw [BitVec.toNat_sub_of_le hlow]
    change (m.core.rsp.toNat - 8) % 8 = 0
    omega
  · exact hc.above.trans (above_update m.stack w (by
      change (m.push w).top < floor
      omega))

theorem Carries.drop (l : List Word) (hc : Carries floor stack₀ (l ++ ws) m)
    (hlt : m.core.rsp.toNat + 8 * l.length < 2 ^ 64) :
    Carries floor stack₀ ws (m.drop (8 * l.length)) := by
  have hdepth := hc.depth
  have hal := hc.aligned
  have hrsp := toNat_drop hlt
  have htop : (m.drop (8 * l.length)).top = m.top + l.length := by
    unfold Machine.top
    omega
  rw [List.length_append] at hdepth
  refine ⟨?_, ?_, ?_, hc.above⟩
  · rw [htop]
    exact hc.holds.drop
  · omega
  · omega

/-- A change of registers other than `rsp` is not seen on the stack. -/
theorem Carries.congr {m' : Machine} (hc : Carries floor stack₀ ws m)
    (hrsp : m'.core.rsp = m.core.rsp) (hstack : m'.stack = m.stack) :
    Carries floor stack₀ ws m' := by
  have htop : m'.top = m.top := by
    unfold Machine.top
    rw [hrsp]
  refine ⟨?_, ?_, ?_, ?_⟩
  · rw [htop, hstack]
    exact hc.holds
  · rw [htop]
    exact hc.depth
  · rw [hrsp]
    exact hc.aligned
  · rw [hstack]
    exact hc.above

/-- A row of `push` instructions. -/
theorem serves_pushes (rs : List Reg) (hroom : Room floor) (hc : Carries floor stack₀ ws m)
    (hne : ws ≠ []) (hlen : ws.length + rs.length < 32)
    (h : ∀ m', m'.core = { m.core with rsp := m'.core.rsp } →
      Carries floor stack₀ ((rs.map m.core.regs).reverse ++ ws) m' → Serves H P Q is m') :
    Serves H P Q (rs.map .push ++ is) m := by
  induction rs generalizing m ws with
  | nil => exact h m rfl hc
  | cons r rs ih =>
      rw [List.length_cons] at hlen
      have hf := hc.fits hroom hne (by omega)
      rw [List.map_cons, List.cons_append]
      refine serves_exec hf (by simp) (by simp) ?_
      refine ih (hc.push hf.2.1 _) (List.cons_ne_nil _ _) (by rw [List.length_cons]; omega) ?_
      intro m' hcore hc'
      refine h m' (by rw [hcore]; rfl) ?_
      -- the registers are those of before the push
      rw [List.map_cons, List.reverse_cons, List.append_assoc]
      exact hc'

/-- A row of `pop` instructions, for the registers of a frame. -/
theorem serves_pops {F : InterruptFrame} (done rs : List Reg) (hroom : Room floor)
    (hc : Carries floor stack₀ (rs.map F.regs ++ ws) m) (hlen : ws.length + rs.length < 32)
    (hdone : ∀ r ∈ done, m.core.regs r = F.regs r)
    (h : ∀ m', Carries floor stack₀ ws m' → (∀ r ∈ done ++ rs, m'.core.regs r = F.regs r) →
      Serves H P Q is m') :
    Serves H P Q (rs.map .pop ++ is) m := by
  induction rs generalizing m done with
  | nil =>
      rw [List.append_nil] at h
      exact h m hc hdone
  | cons r rs ih =>
      rw [List.length_cons] at hlen
      have hf := hc.fits hroom (by simp) (by simp; omega)
      have hpeek : m.peek = F.regs r := hc.holds.1
      rw [List.map_cons, List.cons_append] at hc ⊢
      refine serves_exec hf (by simp) (by simp) ?_
      have hset : Carries floor stack₀ (F.regs r :: (rs.map F.regs ++ ws)) (m.setReg r m.peek) :=
        hc.congr rfl rfl
      have hc' : Carries floor stack₀ (rs.map F.regs ++ ws) (m.exec (.pop r)) := by
        refine hset.drop [F.regs r] ?_
        have hhigh := hf.2.2
        change m.core.rsp.toNat + 8 < _
        omega
      refine ih (done ++ [r]) hc' (by omega) ?_ ?_
      · intro r' hr'
        change Function.update m.core.regs r m.peek r' = _
        by_cases heq : r' = r
        · rw [heq, Function.update_self, hpeek]
        · rw [Function.update_of_ne heq]
          rw [List.mem_append, List.mem_singleton] at hr'
          exact hdone r' (hr'.resolve_right heq)
      · intro m' hcm hregs
        refine h m' hcm ?_
        intro r' hr'
        refine hregs r' ?_
        rw [List.append_assoc]
        exact hr'

end

/-! ## A delivery -/

/-- The error code of a frame. -/
def errorOf (v : Fin 256) (errorCode : Word) : Word := if hasErrorCode v then errorCode else 0

/-- The index of the word at which a stack that is aligned to 16 bytes begins. -/
def floorOf (sp : Word) : ℕ := (sp &&& ~~~15).toNat / 8

/-- What `isr_handler` is called with, when `m₀` was interrupted: the frame of the interrupted
context, on a stack that is aligned to 16 bytes, with `IF` and `DF` cleared. -/
structure AtCall (m₀ : Machine) (v : Fin 256) (e : Word) (floor : ℕ) (m : Machine) : Prop where
  onStack : OnStack m
  carries : Carries floor m₀.stack (m₀.core.frame (BitVec.ofNat 64 v) e).words m
  aligned : m.core.rsp.toNat % 16 = 0
  rflags : m.core.rflags = m₀.core.rflags &&& ~~~gateClears &&& ~~~flagDF

/-- Before the `iretq`: the registers are those of the frame that `isr_handler` left, and the
rest of it is on the stack. -/
structure AtEnd (H : Handler) (m₀ : Machine) (v : Fin 256) (e : Word) (floor : ℕ) (m : Machine) :
    Prop where
  left : ∃ F s s', H (m₀.core.frame (BitVec.ofNat 64 v) e) s F s' ∧ m.core.regs = F.regs ∧
    Carries floor m₀.stack [F.rip, F.cs, F.rflags, F.rsp, F.ss] m

theorem toNat_align (sp : Word) : (sp &&& ~~~15).toNat = sp.toNat / 16 * 16 := by
  have hmask : (~~~15 : Word).toNat = notU64 (2 ^ 4 - 1) := by decide
  rw [BitVec.toNat_and, hmask, and_notU64_low sp.isLt]
  rfl

theorem floorOf_eq (sp : Word) : floorOf sp = sp.toNat / 16 * 2 := by
  unfold floorOf
  rw [toNat_align]
  omega

/-- A stack pointer with 256 bytes below it. -/
theorem room_floorOf {sp : Word} (h : 256 ≤ sp.toNat) : Room (floorOf sp) := by
  have hlt := sp.isLt
  constructor
  · rw [floorOf_eq]
    omega
  · rw [floorOf_eq]
    omega

/-- The stubs know which vectors come with an error code. -/
theorem skipsErrorCode_eq : ∀ v : Fin 256, skipsErrorCode v = !hasErrorCode v := by
  decide +kernel

section

variable {H : Handler} {m₀ m a b : Machine} {v : Fin 256} {e errorCode : Word} {floor : ℕ}
  {T : Tables} {ws : List Word}

theorem Carries.agree (hc : Carries floor m₀.stack ws a) (h : Agree a b) :
    Carries floor m₀.stack ws b := by
  have hdepth := hc.depth
  refine ⟨?_, ?_, ?_, ?_⟩
  · rw [h.top_eq]
    exact hc.holds.above h.stack
  · rw [h.top_eq]
    exact hdepth
  · rw [h.rsp]
    exact hc.aligned
  · exact hc.above.trans (h.stack.mono (by omega))

theorem AtCall.agree (h : AtCall m₀ v e floor a) (hab : Agree a b) : AtCall m₀ v e floor b := by
  refine ⟨?_, h.carries.agree hab, ?_, ?_⟩
  · unfold OnStack
    rw [hab.regs, hab.rsp]
    exact h.onStack
  · rw [hab.rsp]
    exact h.aligned
  · rw [hab.rflags]
    exact h.rflags

theorem AtEnd.agree (h : AtEnd H m₀ v e floor a) (hab : Agree a b) :
    AtEnd H m₀ v e floor b := by
  obtain ⟨F, s, s', hH, hregs, hc⟩ := h.left
  exact ⟨F, s, s', hH, hab.regs.trans hregs, hc.agree hab⟩

/-- The processor has pushed the interrupted context. -/
theorem Machine.save_carries (m : Machine) {sp : Word} (hroom : Room (floorOf sp))
    (err : Option Word) :
    Carries (floorOf sp) m.stack
      (err.toList ++ [m.core.rip, m.core.cs, m.core.rflags, m.core.rsp, m.core.ss])
      (m.save sp err) := by
  have hc : Carries (floorOf sp) m.stack []
      { m with core := { m.core with rsp := sp &&& ~~~15 } } := by
    refine ⟨trivial, rfl, ?_, Above.refl _ _⟩
    dsimp only
    rw [toNat_align]
    omega
  have hc₁ := hc.push (hc.low hroom (by simp)) m.core.ss
  have hc₂ := hc₁.push (hc₁.low hroom (by simp)) m.core.rsp
  have hc₃ := hc₂.push (hc₂.low hroom (by simp)) m.core.rflags
  have hc₄ := hc₃.push (hc₃.low hroom (by simp)) m.core.cs
  have hc₅ := hc₄.push (hc₄.low hroom (by simp)) m.core.rip
  cases err with
  | none => exact hc₅
  | some err => exact hc₅.push (hc₅.low hroom (by simp)) err

theorem Machine.save_core (m : Machine) (sp : Word) (err : Option Word) :
    (m.save sp err).core = { m.core with rsp := (m.save sp err).core.rsp } := by
  cases err with
  | none => rfl
  | some _ => rfl

/-- The frame is what the processor and the stub have pushed. -/
theorem Core.frame_words (c : Core) (v e : Word) : (c.frame v e).words =
    (saved.map c.regs).reverse ++ [v, e, c.rip, c.cs, c.rflags, c.rsp, c.ss] := rfl

theorem InterruptFrame.words_eq (F : InterruptFrame) : F.words =
    restored.map F.regs ++ [F.vector, F.errorCode, F.rip, F.cs, F.rflags, F.rsp, F.ss] := rfl

theorem InterruptFrame.words_inj {F F' : InterruptFrame} (h : F.words = F'.words) : F = F' := by
  cases F
  cases F'
  simp only [words, List.cons.injEq, and_true] at h
  simp only [InterruptFrame.mk.injEq]
  exact h

theorem mem_restored (r : Reg) : r ∈ restored := by
  cases r <;> decide

/-- `isr_handler` is given the frame, and leaves one. -/
theorem AtCall.called {s : Idt.State} {next : Word} {m' : Machine} (h : AtCall m₀ v e floor m)
    (hcalled : Called H { m with idt := s } next m') : ∃ F,
      H (m₀.core.frame (BitVec.ofNat 64 v) e) s F m'.idt ∧
        Carries floor m₀.stack F.words m' := by
  have hc := h.carries
  have hdepth : m.top + 22 = floor := hc.depth
  have hptr : (m.core.regs .rdi).toNat / 8 = m.top := by
    rw [h.onStack]
    rfl
  have htop : m'.top = m.top := by
    unfold Machine.top
    rw [hcalled.rsp]
  obtain ⟨F, F', hF, hH, hF'⟩ := hcalled.handled
  dsimp only at hF hH hF'
  rw [hptr] at hF hF'
  cases InterruptFrame.words_inj (Holds.unique hF hc.holds rfl)
  refine ⟨F', hH, ?_, ?_, ?_, ?_⟩
  · rw [htop]
    exact hF'
  · rw [htop]
    exact hdepth
  · rw [hcalled.rsp]
    exact hc.aligned
  · -- the words from the floor on are not part of the frame
    intro x hx
    have hkeep := hcalled.stack x (by
      change m.top ≤ x
      omega) (by
      dsimp only
      omega)
    exact hkeep.trans (hc.above x hx)

/-- `isr_common_stub`. -/
theorem serves_common (hroom : Room floor) (heven : floor % 2 = 0)
    (hregs : m.core.regs = m₀.core.regs)
    (hflags : m.core.rflags = m₀.core.rflags &&& ~~~gateClears)
    (hc : Carries floor m₀.stack [BitVec.ofNat 64 v, e, m₀.core.rip, m₀.core.cs, m₀.core.rflags,
      m₀.core.rsp, m₀.core.ss] m) :
    Serves H (AtCall m₀ v e floor) (AtEnd H m₀ v e floor) isrCommonStub m := by
  refine serves_exec (hc.fits hroom (by simp) (by simp)) (by simp) (by simp) ?_
  -- the registers are pushed
  have hcld : Carries floor m₀.stack [BitVec.ofNat 64 v, e, m₀.core.rip, m₀.core.cs,
      m₀.core.rflags, m₀.core.rsp, m₀.core.ss] (m.exec .cld) := hc.congr rfl rfl
  refine serves_pushes saved hroom hcld (by simp) (by simp [saved]) ?_
  intro m₁ hcore hc₁
  have hregs₁ : (m.exec .cld).core.regs = m₀.core.regs := hregs
  rw [hregs₁, ← Core.frame_words] at hc₁
  have hf₁ := hc₁.fits hroom (by simp [Core.frame_words]) (by simp [Core.frame_words, saved])
  refine serves_exec hf₁ (by simp) (by simp) ?_
  -- `isr_handler` is called
  have hcall : AtCall m₀ v e floor (m₁.exec .movRdiRsp) := by
    refine ⟨?_, hc₁.congr rfl rfl, ?_, ?_⟩
    · change Function.update m₁.core.regs .rdi m₁.core.rsp .rdi = m₁.core.rsp
      simp
    · have hdepth := hc₁.depth
      have hal := hc₁.aligned
      have hlen : (m₀.core.frame (BitVec.ofNat 64 v) e).words.length = 22 := rfl
      unfold Machine.top at hdepth
      change m₁.core.rsp.toNat % 16 = 0
      omega
    · change m₁.core.rflags = _
      rw [hcore, ← hflags]
      rfl
  refine serves_call hf₁ hcall ?_
  intro s next m₂ hcalled
  obtain ⟨F, hH, hc₂⟩ := hcall.called hcalled
  -- the registers of the frame it left are popped
  rw [InterruptFrame.words_eq] at hc₂
  refine serves_pops [] restored hroom hc₂ (by simp [restored]) (by simp) ?_
  intro m₃ hc₃ hregs₃
  have hf₃ := hc₃.fits hroom (by simp) (by simp)
  refine serves_exec hf₃ (by simp) (by simp) ?_
  have hc₄ : Carries floor m₀.stack [F.rip, F.cs, F.rflags, F.rsp, F.ss] (m₃.exec .addRsp16) :=
    Carries.drop [F.vector, F.errorCode] hc₃ hf₃.2.2
  refine serves_iretq (hc₄.fits hroom (by simp) (by simp)) ⟨F, s, m₂.idt, hH, ?_, hc₄⟩
  funext r
  exact hregs₃ r (mem_restored r)

/-- The stub of a vector makes up for the error code that the processor did not push. -/
theorem serves_stub (hroom : Room floor) (heven : floor % 2 = 0)
    (hregs : m.core.regs = m₀.core.regs)
    (hflags : m.core.rflags = m₀.core.rflags &&& ~~~gateClears)
    (hc : Carries floor m₀.stack ((if hasErrorCode v then some errorCode else none).toList ++
      [m₀.core.rip, m₀.core.cs, m₀.core.rflags, m₀.core.rsp, m₀.core.ss]) m) :
    Serves H (AtCall m₀ v (errorOf v errorCode) floor) (AtEnd H m₀ v (errorOf v errorCode) floor)
      (isrStub v ++ isrCommonStub) m := by
  -- from the vector on
  have hrest : ∀ m' : Machine, m'.core.regs = m₀.core.regs →
      m'.core.rflags = m₀.core.rflags &&& ~~~gateClears →
      Carries floor m₀.stack [errorOf v errorCode, m₀.core.rip, m₀.core.cs, m₀.core.rflags,
        m₀.core.rsp, m₀.core.ss] m' →
      Serves H (AtCall m₀ v (errorOf v errorCode) floor)
        (AtEnd H m₀ v (errorOf v errorCode) floor) (.pushImm v :: .jmp :: isrCommonStub) m' := by
    intro m' hregs' hflags' hc'
    have hf := hc'.fits hroom (by simp) (by simp)
    have hpush := hc'.push hf.2.1 (BitVec.ofNat 64 v)
    refine serves_exec hf (by simp) (by simp) ?_
    refine serves_exec (hpush.fits hroom (by simp) (by simp)) (by simp) (by simp) ?_
    exact serves_common hroom heven hregs' hflags' hpush
  unfold isrStub
  rw [skipsErrorCode_eq]
  unfold errorOf at hrest ⊢
  cases herr : hasErrorCode v with
  | true =>
      rw [herr] at hc hrest
      exact hrest m hregs hflags hc
  | false =>
      rw [herr] at hc hrest
      have hf := hc.fits hroom (by simp) (by simp)
      exact serves_exec hf (by simp) (by simp) (hrest _ hregs hflags (hc.push hf.2.1 0))

/-- What comes of an interrupt that is delivered. -/
theorem serves_delivered (hd : T.Delivers v errorCode m₀ m)
    (hroom : Room (floorOf (T.stackFor (T.idt v) m₀.core.rsp))) :
    m.core.rip = (T.idt v).offset ∧
      Serves H (AtCall m₀ v (errorOf v errorCode) (floorOf (T.stackFor (T.idt v) m₀.core.rsp)))
        (AtEnd H m₀ v (errorOf v errorCode) (floorOf (T.stackFor (T.idt v) m₀.core.rsp)))
        (isrStub v ++ isrCommonStub) m := by
  cases hd with
  | mk hpresent henters =>
      refine ⟨rfl, ?_⟩
      have heven := floorOf_eq (T.stackFor (T.idt v) m₀.core.rsp)
      have hcore := m₀.save_core (T.stackFor (T.idt v) m₀.core.rsp)
        (if hasErrorCode v then some errorCode else none)
      refine serves_stub hroom (by omega) ?_ rfl ((m₀.save_carries hroom _).congr rfl rfl)
      dsimp only
      rw [hcore]

end

end Prometheos.Isr
