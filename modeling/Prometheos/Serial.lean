import Mathlib.Data.List.Infix
import Prometheos.Sync.Model

/-!
# The serial port (`serial.rs`)

`Serial::write_str` sends a string byte by byte inside a critical section, with a carriage return
before each line feed. The kernel and the handlers of its interrupts all print; everything else
that they do, and where the interrupts fall, is arbitrary (`Prints`).

* `received_sent`: the terminal gets back what was printed.
* `Writing`: what has been sent, and what is left of the string that is being sent.
* `log_whole`: in every run the port shows the strings one after the other in the order in which
  their sections were entered, each in one piece.

Only a string is sent in one piece: `println!` formats a line as several of them, and a handler may
print between two.
-/

namespace Prometheos.Serial

open Interrupts Sync

/-! ## Line ends -/

/-- What is sent for the bytes of a string. -/
def sent (s : List UInt8) : List UInt8 := s.flatMap fun b => if b = 10 then [13, b] else [b]

/-- What a terminal makes of it: a carriage return and a line feed are a line end. -/
def received : List UInt8 → List UInt8
  | [] => []
  | b :: l => if b = 13 ∧ l.head? = some 10 then received l else b :: received l

theorem sent_append (s t : List UInt8) : sent (s ++ t) = sent s ++ sent t := List.flatMap_append

theorem sent_cons (b : UInt8) (s : List UInt8) :
    sent (b :: s) = (if b = 10 then [13, b] else [b]) ++ sent s := List.flatMap_cons

/-- No string begins with a bare line feed when it is sent. -/
theorem head_sent_ne (s : List UInt8) : (sent s).head? ≠ some 10 := by
  cases s with
  | nil => simp [sent]
  | cons b s =>
      rw [sent_cons]
      by_cases hb : b = 10
      · simp [hb]
      · simp [hb]

theorem received_sent (s : List UInt8) : received (sent s) = s := by
  induction s with
  | nil => rfl
  | cons b s ih =>
      rw [sent_cons]
      by_cases hb : b = 10
      · -- the carriage return before a line feed is dropped
        subst hb
        simp [received, ih]
      · have hkeep : ¬ (b = 13 ∧ (sent s).head? = some 10) := fun h => head_sent_ne s h.2
        simp [hb, received, hkeep, ih]

/-! ## The port and its users -/

/-- The port: the bytes sent, a record of the strings whose writing has begun, and all other
data. -/
structure Port (ρ : Type) where
  log : List UInt8
  pieces : List (List UInt8)
  rest : ρ

/-- What the kernel does between its calls. -/
inductive Op (α : Type) where
  /-- `transmit_ready()`. -/
  | poll
  /-- `outb(COM1, b)`. -/
  | send (b : UInt8)
  /-- A record that a string is begun. -/
  | begins (s : List UInt8)
  /-- Anything that does not print. -/
  | other (a : α)

variable {ι ν α ρ κ : Type}

/-- What the operations do: only `send` reaches the port. -/
def act (other : α → ρ → List (Instr ι ν (Op α)) → ρ → Prop) :
    Op α → Port ρ → List (Instr ι ν (Op α)) → Port ρ → Prop
  -- `while !transmit_ready() {}`
  | .poll, d, more, d' => d' = d ∧ (more = [] ∨ more = [.op .poll])
  | .send b, d, more, d' => more = [] ∧ d' = { d with log := d.log ++ [b] }
  | .begins s, d, more, d' => more = [] ∧ d' = { d with pieces := d.pieces ++ [s] }
  | .other a, d, more, d' =>
      other a d.rest more d'.rest ∧ d'.log = d.log ∧ d'.pieces = d.pieces

/-- `write_byte`. -/
def writeByte (b : UInt8) : List (Instr ι ν (Op α)) := [.op .poll, .op (.send b)]

/-- The body of the critical section in `write_str`. -/
def writeBytes (s : List UInt8) : List (Instr ι ν (Op α)) :=
  s.flatMap fun b => (if b = 10 then writeByte 13 else []) ++ writeByte b

/-- `Serial::write_str`. -/
def writeStr (s : List UInt8) : List (Instr ι ν (Op α)) :=
  .enter .readIf :: .op (.begins s) :: (writeBytes s ++ [.leave])

theorem writeBytes_eq (s : List UInt8) :
    (writeBytes s : List (Instr ι ν (Op α))) = (sent s).flatMap writeByte := by
  unfold writeBytes sent
  rw [List.flatMap_assoc]
  refine congrArg (List.flatMap · s) (funext fun b => ?_)
  by_cases hb : b = 10
  · simp [hb]
  · simp [hb]

section

variable (other : α → ρ → List (Instr ι ν (Op α)) → ρ → Prop)

/-- Code that prints with `write_str` only, wherever it is in its other calls. -/
inductive Prints : List (Instr ι ν (Op α)) → Prop
  | nil : Prints []
  | call {x : Instr ι ν (Op α)} {c : List (Instr ι ν (Op α))} : (∀ a, x ≠ .op a) → Prints c →
      Prints (x :: c)
  | other {a : α} {c : List (Instr ι ν (Op α))} :
      (∀ d more d', other a d more d' → Prints (more ++ c)) → Prints (.op (.other a) :: c)
  | write {s : List UInt8} {c : List (Instr ι ν (Op α))} : Prints c →
      Prints (.enter .readIf :: .op (.begins s) :: (writeBytes s ++ .leave :: c))
  | entering {b : Bool} {s : List UInt8} {c : List (Instr ι ν (Op α))} : Prints c →
      Prints (.enter (.disable b) :: .op (.begins s) :: (writeBytes s ++ .leave :: c))

/-- Code that has still to send some bytes before it leaves the section and goes on with `c`. -/
inductive Sends (c : List (Instr ι ν (Op α))) : List UInt8 → List (Instr ι ν (Op α)) → Prop
  | next (rest : List UInt8) : Sends c rest (rest.flatMap writeByte ++ .leave :: c)
  | ready (b : UInt8) (rest : List UInt8) :
      Sends c (b :: rest) (.op (.send b) :: (rest.flatMap writeByte ++ .leave :: c))

/-- The bytes that the running code has still to send: none outside `write_str`; inside, the rest
of the string that was begun last. -/
inductive Writing (code : List (Instr ι ν (Op α))) (enabled : Bool) (d : Port ρ) :
    List UInt8 → Prop
  | between : Prints other code → d.log = sent d.pieces.flatten → Writing code enabled d []
  | begins {s : List UInt8} {c : List (Instr ι ν (Op α))} :
      code = .op (.begins s) :: (writeBytes s ++ .leave :: c) → Prints other c → enabled = false →
      d.log = sent d.pieces.flatten → Writing code enabled d []
  | within {rest : List UInt8} {c : List (Instr ι ν (Op α))} : Sends c rest code →
      Prints other c → enabled = false → d.log ++ rest = sent d.pieces.flatten →
      rest <:+ sent (d.pieces.getLastD []) → Writing code enabled d rest

end

/-! ## One step -/

section

variable {other : α → ρ → List (Instr ι ν (Op α)) → ρ → Prop} {code c : List (Instr ι ν (Op α))}
  {gs : List (Guard ι ν)} {f' : Frame ι ν (Op α)} {e e' : Bool} {m m' : Shared ι ν (Port ρ)}
  {rest : List UInt8}

/-- What comes after a call that has to do with locks or the flag only. -/
theorem Prints.tail {x : Instr ι ν (Op α)} (hP : Prints other (x :: c)) (hop : ∀ a, x ≠ .op a)
    (henter : ∀ p, x ≠ .enter p) : Prints other c := by
  cases hP with
  | call _ hc => exact hc
  | other _ => exact absurd rfl (hop _)
  | write _ => exact absurd rfl (henter _)
  | entering _ => exact absurd rfl (henter _)

theorem Writing.prints_of_enabled (hW : Writing other code true m.data rest) :
    rest = [] ∧ Prints other code ∧ m.data.log = sent m.data.pieces.flatten := by
  cases hW with
  | between hP hlog => exact ⟨rfl, hP, hlog⟩
  | begins _ _ he _ => cases he
  | within _ _ he _ _ => cases he

theorem Sends.ne_nil (hS : Sends c rest code) : code ≠ [] := by
  cases hS with
  | next rest => simp
  | ready b rest => simp

theorem Writing.log_of_nil (hW : Writing other [] e m.data rest) :
    m.data.log = sent m.data.pieces.flatten := by
  cases hW with
  | between _ hlog => exact hlog
  | begins hcode _ _ _ => cases hcode
  | within hS _ _ _ _ => exact absurd rfl hS.ne_nil

variable [DecidableEq ι] [DecidableEq ν]

/-- A step outside `write_str` sends nothing; it may enter the section of one. -/
theorem Prints.exec (hP : Prints other code) (h : Exec (act other) ⟨code, gs⟩ e m f' e' m') :
    m'.data.log = m.data.log ∧ m'.data.pieces = m.data.pieces ∧ (Prints other f'.code ∨
      ∃ s c, f'.code = .op (.begins s) :: (writeBytes s ++ .leave :: c) ∧ Prints other c ∧
        e' = false) := by
  cases h with
  | enterRead =>
      cases hP with
      | call _ hc => exact ⟨rfl, rfl, .inl (.call (by simp) hc)⟩
      | write hc => exact ⟨rfl, rfl, .inl (.entering hc)⟩
  | enterDisable =>
      cases hP with
      | call _ hc => exact ⟨rfl, rfl, .inl hc⟩
      | entering hc => exact ⟨rfl, rfl, .inr ⟨_, _, rfl, hc, rfl⟩⟩
  | op hact =>
      cases hP with
      | call hx _ => exact absurd rfl (hx _)
      | other hc =>
          obtain ⟨hother, hlog, hpieces⟩ := hact
          exact ⟨hlog, hpieces, .inl (hc _ _ _ hother)⟩
  -- a call that goes on at its next place
  | exchange _ => exact ⟨rfl, rfl, .inl (.call (by simp) (hP.tail (by simp) (by simp)))⟩
  | spin _ => exact ⟨rfl, rfl, .inl hP⟩
  | readIf => exact ⟨rfl, rfl, .inl (.call (by simp) (hP.tail (by simp) (by simp)))⟩
  | saveIf => exact ⟨rfl, rfl, .inl (.call (by simp) (hP.tail (by simp) (by simp)))⟩
  | load => exact ⟨rfl, rfl, .inl (.call (by simp) (hP.tail (by simp) (by simp)))⟩
  | store => exact ⟨rfl, rfl, .inl (.call (by simp) (hP.tail (by simp) (by simp)))⟩
  | spinWait _ => exact ⟨rfl, rfl, .inl hP⟩
  -- a call that is over
  | disable => exact ⟨rfl, rfl, .inl (hP.tail (by simp) (by simp))⟩
  | enable => exact ⟨rfl, rfl, .inl (hP.tail (by simp) (by simp))⟩
  | spinLock _ => exact ⟨rfl, rfl, .inl (hP.tail (by simp) (by simp))⟩
  | spinUnlock => exact ⟨rfl, rfl, .inl (hP.tail (by simp) (by simp))⟩
  | leave => exact ⟨rfl, rfl, .inl (hP.tail (by simp) (by simp))⟩
  | irq => exact ⟨rfl, rfl, .inl (hP.tail (by simp) (by simp))⟩

/-- A step inside `write_str`: it waits for the port, sends a byte, or leaves the section. -/
theorem Sends.exec (hS : Sends c rest code) (h : Exec (act other) ⟨code, gs⟩ e m f' e' m') :
    m'.data.pieces = m.data.pieces ∧ (rest = [] ∧ f'.code = c ∧ m'.data.log = m.data.log ∨
      e' = e ∧ ∃ rest', Sends c rest' f'.code ∧ m'.data.log ++ rest' = m.data.log ++ rest ∧
        rest' <:+ rest) := by
  cases hS with
  | next rest =>
      cases rest with
      | nil =>
          cases h with
          | leave => exact ⟨rfl, .inl ⟨rfl, rfl, rfl⟩⟩
      | cons b rest =>
          cases h with
          | op hact =>
              obtain ⟨rfl, rfl | rfl⟩ := hact
              · exact ⟨rfl, .inr ⟨rfl, _, .ready b rest, rfl, List.suffix_refl _⟩⟩
              · exact ⟨rfl, .inr ⟨rfl, _, .next (b :: rest), rfl, List.suffix_refl _⟩⟩
  | ready b rest =>
      cases h with
      | op hact =>
          obtain ⟨rfl, rfl⟩ := hact
          refine ⟨rfl, .inr ⟨rfl, rest, .next rest, ?_, List.suffix_cons _ _⟩⟩
          exact List.append_assoc _ [b] rest

/-- What has been sent stays in order. -/
theorem Writing.exec (hW : Writing other code e m.data rest)
    (h : Exec (act other) ⟨code, gs⟩ e m f' e' m') :
    ∃ rest', Writing other f'.code e' m'.data rest' := by
  cases hW with
  | between hP hlog =>
      obtain ⟨hlog', hpieces, hP' | ⟨s, c, hcode, hc, he⟩⟩ := hP.exec h
      · exact ⟨_, .between hP' (by rw [hlog', hpieces, hlog])⟩
      · exact ⟨_, .begins hcode hc he (by rw [hlog', hpieces, hlog])⟩
  | begins hcode hc he hlog =>
      subst hcode
      cases h with
      | op hact =>
          rename_i s c _ _
          obtain ⟨rfl, rfl⟩ := hact
          refine ⟨sent s, .within ?_ hc he ?_ ?_⟩
          · rw [writeBytes_eq]
            exact .next (sent s)
          · rw [List.flatten_append, sent_append]
            simpa using hlog
          · simp
  | within hS hc he hlog hsuffix =>
      obtain ⟨hpieces, ⟨rfl, hcode, hlog'⟩ | ⟨he', rest', hS', hlog', hsuffix'⟩⟩ := hS.exec h
      · -- the section is left, and everything was sent
        refine ⟨_, .between (hcode ▸ hc) ?_⟩
        rw [hlog', hpieces, ← hlog, List.append_nil]
      · refine ⟨rest', .within hS' hc (he'.trans he) ?_ ?_⟩
        · rw [hlog', hpieces, hlog]
        · rw [hpieces]
          exact hsuffix'.trans hsuffix

/-! ## All steps -/

/-- No code that was interrupted was inside `write_str`. -/
structure Whole (other : α → ρ → List (Instr ι ν (Op α)) → ρ → Prop)
    (c : Cpu (Frame ι ν (Op α)) (Shared ι ν (Port ρ))) : Prop where
  running : ∃ rest, Writing other c.running.code c.enabled c.mem.data rest
  interrupted : ∀ f ∈ c.interrupted, Prints other f.code

theorem Whole.step {handler : κ → Frame ι ν (Op α) → Prop} {ev : Event κ}
    {c c' : Cpu (Frame ι ν (Op α)) (Shared ι ν (Port ρ))}
    (hhandler : ∀ v h, handler v h → Prints other h.code)
    (hstep : Step (system (act other) handler) ev c c') (hc : Whole other c) :
    Whole other c' := by
  obtain ⟨⟨rest, hW⟩, hI⟩ := hc
  cases hstep with
  | exec hexec => exact ⟨hW.exec hexec, hI⟩
  | interrupt hh =>
      -- the flag is clear inside `write_str`
      obtain ⟨-, hP, hlog⟩ := hW.prints_of_enabled
      refine ⟨⟨_, .between (hhandler _ _ hh) hlog⟩, ?_⟩
      intro g hg
      rcases List.mem_cons.1 hg with rfl | hg
      · exact hP
      · exact hI g hg
  | iret hfinished =>
      rename_i m e f h fs
      have hcode : h.code = [] := hfinished
      rw [hcode] at hW
      refine ⟨⟨_, .between (hI f List.mem_cons_self) hW.log_of_nil⟩, ?_⟩
      intro g hg
      exact hI g (List.mem_cons_of_mem _ hg)

/-- The kernel and the handlers of its interrupts print strings. At every moment the port shows
the strings that were begun, one after the other and each in one piece, up to the rest of the last
one; nothing is left of it while interrupts can come. What the terminal receives is the text. -/
theorem log_whole {handler : κ → Frame ι ν (Op α) → Prop}
    {C : Cpu (Frame ι ν (Op α)) (Shared ι ν (Port ρ)) → Event κ → Prop}
    {c₀ c : Cpu (Frame ι ν (Op α)) (Shared ι ν (Port ρ))}
    (hhandler : ∀ v h, handler v h → Prints other h.code)
    (hcode : Prints other c₀.running.code) (hidle : c₀.interrupted = [])
    (hlog : c₀.mem.data.log = []) (hpieces : c₀.mem.data.pieces = [])
    (hrun : Reach (system (act other) handler) C c₀ c) :
    ∃ rest, c.mem.data.log ++ rest = sent c.mem.data.pieces.flatten ∧
      rest <:+ sent (c.mem.data.pieces.getLastD []) ∧ (c.enabled = true → rest = []) ∧
      (rest = [] → received c.mem.data.log = c.mem.data.pieces.flatten) := by
  have hstart : Whole other c₀ := by
    refine ⟨⟨_, .between hcode ?_⟩, ?_⟩
    · rw [hlog, hpieces]
      rfl
    · rw [hidle]
      simp
  have hwhole : Whole other c := by
    refine Reach.invariant ?_ hrun hstart
    intro d ev d' _ hstep hd
    exact Whole.step hhandler hstep hd
  obtain ⟨⟨rest, hW⟩, -⟩ := hwhole
  have hsent : c.mem.data.log ++ rest = sent c.mem.data.pieces.flatten ∧
      rest <:+ sent (c.mem.data.pieces.getLastD []) := by
    cases hW with
    | between _ hlog => simpa using hlog
    | begins _ _ _ hlog => simpa using hlog
    | within _ _ _ hlog hsuffix => exact ⟨hlog, hsuffix⟩
  refine ⟨rest, hsent.1, hsent.2, ?_, ?_⟩
  · intro henabled
    rw [henabled] at hW
    exact hW.prints_of_enabled.1
  · rintro rfl
    rw [List.append_nil] at hsent
    rw [hsent.1, received_sent]

/-! ## Sending a string -/

/-- The port after some more bytes of a string. -/
def sentMore (m : Shared ι ν (Port ρ)) (l : List UInt8) : Shared ι ν (Port ρ) :=
  { m with data := { m.data with log := m.data.log ++ l } }

/-- The port after a string. -/
def printed (m : Shared ι ν (Port ρ)) (s : List UInt8) : Shared ι ν (Port ρ) :=
  { m with data := { m.data with log := m.data.log ++ sent s, pieces := m.data.pieces ++ [s] } }

omit [DecidableEq ι] [DecidableEq ν] in
theorem Prints.writeStr (hc : Prints other c) (s : List UInt8) :
    Prints other (writeStr s ++ c) := by
  have hcode : (Serial.writeStr s ++ c : List (Instr ι ν (Op α))) =
      .enter .readIf :: .op (.begins s) :: (writeBytes s ++ .leave :: c) := by
    simp [Serial.writeStr]
  rw [hcode]
  exact .write hc

variable {handler : κ → Frame ι ν (Op α) → Prop} {fs : List (Frame ι ν (Op α))}

theorem reach_exec {d : Cpu (Frame ι ν (Op α)) (Shared ι ν (Port ρ))} {f : Frame ι ν (Op α)}
    (h : Exec (act other) f e m f' e' m')
    (hrun : Reach (system (act other) handler) (fun _ _ => True) ⟨m', e', f', fs⟩ d) :
    Reach (system (act other) handler) (fun _ _ => True) ⟨m, e, f, fs⟩ d :=
  .head ⟨.exec, trivial, .exec h⟩ hrun

/-- When the port is ready each time, the bytes are sent. -/
theorem sends_run (l : List UInt8) (m : Shared ι ν (Port ρ)) :
    Reach (system (act other) handler) (fun _ _ => True)
      ⟨m, e, ⟨l.flatMap writeByte ++ c, gs⟩, fs⟩ ⟨sentMore m l, e, ⟨c, gs⟩, fs⟩ := by
  induction l generalizing m with
  | nil =>
      simp only [List.flatMap_nil, List.nil_append, sentMore, List.append_nil]
      exact .refl
  | cons b l ih =>
      have hnext := ih (sentMore m [b])
      have hlog : sentMore (sentMore m [b]) l = sentMore m (b :: l) := by
        simp [sentMore]
      rw [hlog] at hnext
      exact reach_exec (.op ⟨rfl, .inl rfl⟩) (reach_exec (.op ⟨rfl, rfl⟩) hnext)

/-- `write_str` returns, and the flag is as before. -/
theorem writeStr_run (s : List UInt8) (m : Shared ι ν (Port ρ)) (e : Bool) :
    Reach (system (act other) handler) (fun _ _ => True)
      ⟨m, e, ⟨writeStr s ++ c, gs⟩, fs⟩ ⟨printed m s, e, ⟨c, gs⟩, fs⟩ := by
  have hcode : (writeStr s ++ c : List (Instr ι ν (Op α))) = .enter .readIf ::
      .op (.begins s) :: ((sent s).flatMap writeByte ++ .leave :: c) := by
    simp [writeStr, writeBytes_eq]
  rw [hcode]
  refine reach_exec .enterRead (reach_exec .enterDisable (reach_exec (.op ⟨rfl, rfl⟩) ?_))
  refine (sends_run (sent s) _).trans (reach_exec .leave ?_)
  have he : (e || false) = e := Bool.or_false e
  simp only [he]
  exact .refl

end

/-- The kernel prints an empty line. -/
def newline : Cpu (Frame Empty Empty (Op Empty)) (Shared Empty Empty (Port Unit)) :=
  ⟨⟨Empty.elim, Empty.elim, ⟨[], [], ()⟩⟩, true, ⟨writeStr [10] ++ [], []⟩, []⟩

/-- A handler prints `!`. -/
def exclaims (_ : Unit) (h : Frame Empty Empty (Op Empty)) : Prop :=
  h = ⟨writeStr [33] ++ [], []⟩

/-- There is nothing else to do. -/
def silent (_ : Empty) (_ : Unit) (_ : List (Instr Empty Empty (Op Empty))) (_ : Unit) : Prop :=
  False

/-- An interrupt comes before the line. -/
theorem newline_run : Reach (system (act silent) exclaims) (fun _ _ => True) newline
    ⟨printed (printed newline.mem [33]) [10], true, ⟨[], []⟩, []⟩ := by
  have hhandler : Reach (system (act silent) exclaims) (fun _ _ => True)
      ⟨newline.mem, false, ⟨writeStr [33] ++ [], []⟩, [newline.running]⟩
      ⟨printed newline.mem [33], false, ⟨[], []⟩, [newline.running]⟩ :=
    writeStr_run [33] newline.mem false
  have hline : Reach (system (act silent) exclaims) (fun _ _ => True)
      ⟨printed newline.mem [33], true, newline.running, []⟩
      ⟨printed (printed newline.mem [33]) [10], true, ⟨[], []⟩, []⟩ :=
    writeStr_run [10] (printed newline.mem [33]) true
  have hback : Step (system (act silent) exclaims) .iret
      ⟨printed newline.mem [33], false, ⟨[], []⟩, [newline.running]⟩
      ⟨printed newline.mem [33], true, newline.running, []⟩ := .iret rfl
  refine .head ⟨.interrupt (), trivial, .interrupt rfl⟩ (hhandler.trans ?_)
  exact .head ⟨.iret, trivial, hback⟩ hline

/-- The terminal receives both strings. -/
theorem log_whole_newline :
    ∃ c : Cpu (Frame Empty Empty (Op Empty)) (Shared Empty Empty (Port Unit)),
    Reach (system (act silent) exclaims) (fun _ _ => True) newline c ∧
      c.mem.data.log = [33, 13, 10] ∧ received c.mem.data.log = [33, 10] := by
  refine ⟨_, newline_run, by decide, ?_⟩
  have hhandler : ∀ v h, exclaims v h → Prints silent h.code := by
    intro _ h hh
    rw [hh]
    exact Prints.nil.writeStr [33]
  obtain ⟨rest, -, -, hdone, htext⟩ := log_whole hhandler (Prints.nil.writeStr [10]) rfl rfl rfl
    newline_run
  exact htext (hdone rfl)

end Prometheos.Serial
