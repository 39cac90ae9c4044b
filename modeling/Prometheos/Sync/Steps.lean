import Prometheos.Sync.Sections

/-!
# Sections step by step

`Sync/Sections.lean` runs a nested program from its beginning to its end; the model of
`Sync/Model.lean` makes one machine step at a time, so that an interrupt can come in between.
The calls of a program (`Code.instrs`) are well nested code in the sense of the latter
(`Code.begins`), so that what is proved there about locks and interrupts is true of it. Without
an interrupt, its steps end where the program does (`Code.run_steps`).
-/

namespace Prometheos.Sync

variable {ι ν μ : Type}

/-- The calls that begin a section. -/
def Mask.enterInstrs {α : Type} : Mask ι ν → List (Instr ι ν α)
  | .critical => [.enter .readIf]
  | .int i => [.lock i .exchange]
  | .spin none => [.enter .readIf]
  | .spin (some v) => [.enter .readIf, .spinLock v]

/-- The calls that end a section. -/
def Mask.leaveInstrs {α : Type} : Mask ι ν → List (Instr ι ν α)
  | .critical => [.leave]
  | .int i => [.unlock i .load]
  | .spin none => [.leave]
  | .spin (some v) => [.spinUnlock v, .leave]

/-- The calls of a program. What depends on the data stays an operation. -/
def Code.instrs : Code ι ν μ → List (Instr ι ν (Code ι ν μ))
  | .done => []
  | .op f => [.op (.op f)]
  | .choose next => [.op (.choose next)]
  | .seq first second => first.instrs ++ second.instrs
  | .within k body => k.enterInstrs ++ (body.instrs ++ k.leaveInstrs)

/-- What the operations do. -/
def Code.act : Code ι ν μ → μ → List (Instr ι ν (Code ι ν μ)) → μ → Prop
  | .op f, d, more, d' => more = [] ∧ d' = f d
  | .choose next, d, more, d' => more = (next d).instrs ∧ d' = d
  | _, _, _, _ => False

/-! ## The calls are well nested -/

theorem Mask.nested {α : Type} {act : α → μ → List (Instr ι ν α) → μ → Prop} (k : Mask ι ν)
    {gs : List (Option (Lock ι ν))} {body c : List (Instr ι ν α)}
    (hbody : ∀ gs c, Nested act gs c → Nested act gs (body ++ c)) (hc : Nested act gs c) :
    Nested act gs (k.enterInstrs ++ (body ++ (k.leaveInstrs ++ c))) := by
  match k with
  | .critical => exact .enter (hbody _ _ (.leave hc))
  | .int i => exact .lock (hbody _ _ (.unlock hc))
  | .spin none => exact .enter (hbody _ _ (.leave hc))
  | .spin (some v) => exact .enter (.spinLock (hbody _ _ (.spinUnlock (.leave hc))))

theorem Code.nested (p : Code ι ν μ) {gs : List (Option (Lock ι ν))}
    {c : List (Instr ι ν (Code ι ν μ))} (hc : Nested Code.act gs c) :
    Nested Code.act gs (p.instrs ++ c) := by
  induction p generalizing gs c with
  | done => exact hc
  | op f =>
      refine .op fun d more d' h => ?_
      rw [h.1]
      exact hc
  | choose next ih =>
      refine .op fun d more d' h => ?_
      rw [h.1]
      exact ih d hc
  | seq first second ih₁ ih₂ =>
      show Nested _ gs ((first.instrs ++ second.instrs) ++ c)
      rw [List.append_assoc]
      exact ih₁ (ih₂ hc)
  | within k body ih =>
      show Nested _ gs ((k.enterInstrs ++ (body.instrs ++ k.leaveInstrs)) ++ c)
      rw [List.append_assoc, List.append_assoc]
      exact k.nested (fun _ _ => ih) hc

/-- A program is code with which a processor, or the handler of an interrupt, may begin. -/
theorem Code.begins (p : Code ι ν μ) : Begins Code.act ⟨p.instrs, []⟩ := by
  refine ⟨rfl, ?_⟩
  have h := p.nested (.nil : Nested Code.act [] [])
  rw [List.append_nil] at h
  exact h

/-! ## The steps end where the program does -/

section

variable [DecidableEq ι] [DecidableEq ν]

/-- Steps of code that is not interrupted. -/
def Steps (f : Frame ι ν (Code ι ν μ)) (e : Bool) (m : Shared ι ν μ) (f' : Frame ι ν (Code ι ν μ))
    (e' : Bool) (m' : Shared ι ν μ) : Prop :=
  Relation.ReflTransGen (fun x y : Frame ι ν (Code ι ν μ) × Bool × Shared ι ν μ =>
    Exec Code.act x.1 x.2.1 x.2.2 y.1 y.2.1 y.2.2) (f, e, m) (f', e', m')

/-- The guards inside a section that found the flag `b`. -/
def Mask.guards (k : Mask ι ν) (b : Bool) : List (Guard ι ν) :=
  match k with
  | .critical => [⟨none, b⟩]
  | .int i => [⟨some (.int i), b⟩]
  | .spin none => [⟨none, b⟩]
  | .spin (some v) => [⟨some (.spin v), false⟩, ⟨none, b⟩]

variable {f f₁ f' : Frame ι ν (Code ι ν μ)} {e e₁ e' : Bool} {m m₁ m' : Shared ι ν μ}

theorem Steps.refl (f : Frame ι ν (Code ι ν μ)) (e : Bool) (m : Shared ι ν μ) :
    Steps f e m f e m := Relation.ReflTransGen.refl

theorem Steps.trans (h : Steps f e m f₁ e₁ m₁) (h' : Steps f₁ e₁ m₁ f' e' m') :
    Steps f e m f' e' m' := Relation.ReflTransGen.trans h h'

theorem Steps.head (h : Exec Code.act f e m f₁ e₁ m₁) (h' : Steps f₁ e₁ m₁ f' e' m') :
    Steps f e m f' e' m' := Relation.ReflTransGen.head h h'

variable {k : Mask ι ν} {c : List (Instr ι ν (Code ι ν μ))} {gs : List (Guard ι ν)}
  {s s' : Processor ι ν μ}

/-- `critical_section` up to its body, and `uacpi_kernel_disable_interrupts`. -/
theorem enter_steps (e : Bool) (m : Shared ι ν μ) :
    Steps ⟨.enter .readIf :: c, gs⟩ e m ⟨c, ⟨none, e⟩ :: gs⟩ false m :=
  .head .enterRead (.head .enterDisable (.refl _ _ _))

/-- What is done before the body of a section. -/
theorem Mask.enter_steps (hfree : ∀ l ∈ k.lock, ¬ Taken m l) (e : Bool) :
    Steps ⟨k.enterInstrs ++ c, gs⟩ e m ⟨c, k.guards e ++ gs⟩ false (k.acquire m e) := by
  match k with
  | .critical => exact Sync.enter_steps e m
  | .spin none => exact Sync.enter_steps e m
  | .int i =>
      have hword : (m.ints i).locked = false := Bool.eq_false_iff.2 (hfree _ rfl)
      exact .head (.exchange hword) (.head .readIf (.head .saveIf (.head .disable (.refl _ _ _))))
  | .spin (some v) =>
      have hword : m.spins v = false := Bool.eq_false_iff.2 (hfree _ rfl)
      exact (Sync.enter_steps e m).trans (.head (.spinLock hword) (.refl _ _ _))

/-- The end of `critical_section`, and `uacpi_kernel_restore_interrupts`. -/
theorem leave_steps (e : Bool) (m : Shared ι ν μ) :
    Steps ⟨.leave :: c, ⟨none, e⟩ :: gs⟩ false m ⟨c, gs⟩ e m := by
  have h : Exec Code.act ⟨.leave :: c, ⟨none, e⟩ :: gs⟩ false m ⟨c, gs⟩ (e || false) m := .leave
  rw [Bool.or_false] at h
  exact .head h (.refl _ _ _)

/-- What is done after the body of a section. -/
theorem Mask.leave_steps (e : Bool) (hown : ∀ i, k = .int i → (m.ints i).savedIf = e) :
    Steps ⟨k.leaveInstrs ++ c, k.guards e ++ gs⟩ false m ⟨c, gs⟩ e (k.release m) := by
  match k with
  | .critical => exact Sync.leave_steps e m
  | .spin none => exact Sync.leave_steps e m
  | .spin (some v) => exact .head .spinUnlock (Sync.leave_steps e _)
  | .int i =>
      have hload : Exec Code.act ⟨.unlock i .load :: c, ⟨some (.int i), e⟩ :: gs⟩ false m
          ⟨.unlock i (.store (m.ints i).savedIf) :: c, ⟨some (.int i), e⟩ :: gs⟩ false m := .load
      rw [hown i rfl] at hload
      have henable : Exec Code.act ⟨.unlock i (.enable e) :: c, gs⟩ false
          ((Mask.int i).release m) ⟨c, gs⟩ (e || false) ((Mask.int i).release m) := .enable
      rw [Bool.or_false] at henable
      exact .head hload (.head .store (.head henable (.refl _ _ _)))

/-- The steps of a program that takes no lock twice end where the program does. -/
theorem Code.run_steps {held : Set (Lock ι ν)} (p : Code ι ν μ) (havoids : p.Avoids held)
    (hheld : ∀ l, Taken s.mem l → l ∈ held) (hrun : p.run.run s = .ok () s') :
    Steps ⟨p.instrs ++ c, gs⟩ s.enabled s.mem ⟨c, gs⟩ s'.enabled s'.mem := by
  induction p generalizing held s s' c gs with
  | done =>
      cases hrun
      exact .refl _ _ _
  | op f =>
      cases hrun
      exact .head (.op ⟨rfl, rfl⟩) (.refl _ _ _)
  | choose next ih =>
      refine .head (.op ⟨rfl, rfl⟩) ?_
      exact ih s.mem.data (s := s.next s.enabled s.mem) (havoids _) hheld hrun
  | seq first second ih₁ ih₂ =>
      rcases first.run_passes havoids.1 hheld with ⟨s₁, hrun₁, hpass⟩
      have hrun₂ : second.run.run s₁ = .ok () s' := by
        have hseq : (first.run >>= fun _ => second.run).run s = .ok () s' := hrun
        rw [Prog.bind_of_ok hrun₁] at hseq
        exact hseq
      have hsteps : Steps ⟨first.instrs ++ (second.instrs ++ c), gs⟩ s.enabled s.mem
          ⟨second.instrs ++ c, gs⟩ s₁.enabled s₁.mem := ih₁ havoids.1 hheld hrun₁
      show Steps ⟨(first.instrs ++ second.instrs) ++ c, gs⟩ _ _ _ _ _
      rw [List.append_assoc]
      exact hsteps.trans (ih₂ havoids.2 (fun l hl => hheld l ((hpass.taken l).1 hl)) hrun₂)
  | within k body ih =>
      have hfree : ∀ l ∈ k.lock, ¬ Taken s.mem l := fun l hl ht => havoids.1 l hl (hheld l ht)
      rcases k.entered hfree with ⟨inside, _, hin, hclose⟩
      rcases body.run_passes havoids.2 (hin.mem_held hheld) with ⟨last, hbody, hpass⟩
      rcases Mask.passes havoids.1 hheld hin hclose hbody hpass with ⟨s'', hrun', hleft, _⟩
      cases hrun'.symm.trans hrun
      have hsteps : Steps ⟨body.instrs ++ (k.leaveInstrs ++ c), k.guards s.enabled ++ gs⟩
          inside.enabled inside.mem ⟨k.leaveInstrs ++ c, k.guards s.enabled ++ gs⟩
          last.enabled last.mem := ih havoids.2 (hin.mem_held hheld) hbody
      rw [hin.enabled, hin.mem, hpass.enabled, hin.enabled] at hsteps
      have hafter : Steps ⟨k.leaveInstrs ++ c, k.guards s.enabled ++ gs⟩ false last.mem
          ⟨c, gs⟩ s.enabled (k.release last.mem) := k.leave_steps s.enabled (hin.own hpass)
      show Steps ⟨(k.enterInstrs ++ (body.instrs ++ k.leaveInstrs)) ++ c, gs⟩ _ _ _ _ _
      rw [List.append_assoc, List.append_assoc, hleft.enabled, hleft.mem]
      exact ((Mask.enter_steps hfree s.enabled).trans hsteps).trans hafter

end

end Prometheos.Sync
