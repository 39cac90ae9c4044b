import Mathlib.Logic.Relation
import Prometheos.Idt.Model

/-!
# Concurrent installations

Any number of parties call `uacpi_kernel_install_interrupt_handler` and
`uacpi_kernel_uninstall_interrupt_handler`. Each of them holds the lock of a slot for
one step: `is_handler_installed`, `install_handler` and `clear_handler` are one step each, and
an installation is two, between which the others may do anything. Alone, the two steps are
the sequential function (`acts_of_install`).

Two installations in one slot must not both succeed unless a removal comes between them, and a
handler stays until it is removed (`Exclusive`). That is so as long as no party finds a slot
free while another is about to fill it (`Careful`); the first party that does so opens the way
to two installations that both succeed, one of which is lost (`installations_exclusive`,
`installed_twice`).
-/

namespace Prometheos.Idt

variable {π η : Type}

/-! ## The parties -/

/-- Where a party is: in none of the calls, or in an installation, with the slot seen free. -/
inductive Phase (η : Type) where
  | outside
  | checked (vector : Fin 256) (handler : η)

/-- How a call ended. -/
inductive Ended (η : Type) where
  /-- An installation returned `UACPI_STATUS_OK`. -/
  | installed (vector : Fin 256) (handler : η)
  /-- An installation returned `UACPI_STATUS_ALREADY_EXISTS`. -/
  | refused (vector : Fin 256)
  /-- A handler was uninstalled. -/
  | removed (vector : Fin 256)

/-- The table, where the parties are, and the calls that ended, the latest first. -/
structure Parties (π η : Type) where
  handlers : Handlers η
  phase : π → Phase η
  history : List (Ended η)

/-- A step of a party. -/
inductive Action (η : Type) where
  /-- `is_handler_installed`, at the beginning of an installation. -/
  | check (irq : ℕ) (handler : η)
  /-- `install_handler`. -/
  | install
  /-- `clear_handler`. -/
  | uninstall (handle : ℕ)

/-- What the step of a party does. -/
inductive Acts [DecidableEq π] (w : Parties π η) (p : π) : Action η → Parties π η → Prop
  | refused {irq : ℕ} {h : η} : w.phase p = .outside → irq + 0x20 < 2 ^ 32 →
      isHandlerInstalled w.handlers (vectorOf irq) = true →
      Acts w p (.check irq h) { w with history := .refused (vectorOf irq) :: w.history }
  | checked {irq : ℕ} {h : η} : w.phase p = .outside → irq + 0x20 < 2 ^ 32 →
      isHandlerInstalled w.handlers (vectorOf irq) = false →
      Acts w p (.check irq h)
        { w with phase := Function.update w.phase p (.checked (vectorOf irq) h) }
  | installed {v : Fin 256} {h : η} : w.phase p = .checked v h →
      Acts w p .install ⟨installHandler w.handlers v h, Function.update w.phase p .outside,
        .installed v h :: w.history⟩
  | removed {handle : ℕ} : w.phase p = .outside →
      Acts w p (.uninstall handle)
        { w with
          handlers := clearHandler w.handlers (Fin.ofNat 256 handle)
          history := .removed (Fin.ofNat 256 handle) :: w.history }

/-- A step that meets the condition `C`. -/
def Parties.Step [DecidableEq π] (C : Parties π η → π → Action η → Prop)
    (w w' : Parties π η) : Prop :=
  ∃ p a, C w p a ∧ Acts w p a w'

/-- No call was made. What the table holds is arbitrary. -/
structure Parties.Start (w : Parties π η) : Prop where
  outside : ∀ p, w.phase p = .outside
  history_eq : w.history = []

/-- Without others, the two steps of an installation are the function. -/
theorem acts_of_install [DecidableEq π] {w : Parties π Closure} {p : π} {s s' : State}
    {irq ctx handle : ℕ} {handler : Option ℕ} (hw : w.handlers = s.handlers)
    (hp : w.phase p = .outside)
    (h : (uacpiKernelInstallInterruptHandler irq handler ctx).run s =
      .ok (.ok, some handle) s') :
    ∃ w₁ w₂, Acts w p (.check irq ⟨handler, ctx, s.serial⟩) w₁ ∧ Acts w₁ p .install w₂ ∧
      w₂.handlers = s'.handlers := by
  rcases installed_inv h with ⟨hlt, hfree, -, rfl⟩
  have hinst : isHandlerInstalled w.handlers (vectorOf irq) = false := by
    unfold isHandlerInstalled
    rw [hw, hfree]
    rfl
  refine ⟨_, _, .checked hp hlt hinst, .installed (Function.update_self _ _ _), ?_⟩
  change installHandler w.handlers _ _ = _
  rw [hw]
  rfl

/-! ## What they rely on -/

/-- The handler that was installed in a slot and not removed since. -/
def standing (v : Fin 256) : List (Ended η) → Option η
  | [] => none
  | .installed w h :: l => if w = v then some h else standing v l
  | .refused _ :: l => standing v l
  | .removed w :: l => if w = v then none else standing v l

/-- No installation succeeded while another stood in its slot. -/
def AtMostOne : List (Ended η) → Prop
  | [] => True
  | .installed v _ :: l => standing v l = none ∧ AtMostOne l
  | .refused _ :: l => AtMostOne l
  | .removed _ :: l => AtMostOne l

/-- Of installations in one slot without a removal between them at most one succeeded, and a
handler that was installed is in its slot until it is removed. -/
structure Parties.Exclusive (w : Parties π η) : Prop where
  one : AtMostOne w.history
  kept : ∀ v h, standing v w.history = some h → w.handlers v = some h

/-- A party sees a slot free only if no other party is about to fill it. -/
def Parties.Careful (w : Parties π η) (p : π) : Action η → Prop
  | .check irq _ => isHandlerInstalled w.handlers (vectorOf irq) = false →
      ∀ q h, w.phase q = .checked (vectorOf irq) h → q = p
  | _ => True

/-! ## Careful parties -/

/-- Slots that are about to be filled are free, and each by one party only. -/
structure Parties.Orderly (w : Parties π η) : Prop where
  exclusive : w.Exclusive
  free : ∀ p v h, w.phase p = .checked v h → w.handlers v = none
  unique : ∀ p q v h h', w.phase p = .checked v h → w.phase q = .checked v h' → q = p

theorem Parties.Start.orderly {w : Parties π η} (h : w.Start) : w.Orderly := by
  have hnot : ∀ p v x, w.phase p ≠ .checked v x := by
    intro p v x hp
    cases (h.outside p).symm.trans hp
  refine ⟨⟨?_, ?_⟩, fun p v x hp => absurd hp (hnot p v x), fun p _ v x _ hp =>
    absurd hp (hnot p v x)⟩
  · rw [h.history_eq]
    trivial
  · intro v x hv
    rw [h.history_eq] at hv
    cases hv

section

variable [DecidableEq π] {w w' : Parties π η} {p : π} {a : Action η}

/-- The others are where they were. -/
theorem phase_update {phase : π → Phase η} {x : Phase η} {q : π} {v : Fin 256} {h : η}
    (hq : Function.update phase p x q = .checked v h) :
    q = p ∧ x = .checked v h ∨ q ≠ p ∧ phase q = .checked v h := by
  by_cases hqp : q = p
  · subst hqp
    rw [Function.update_self] at hq
    exact Or.inl ⟨rfl, hq⟩
  · rw [Function.update_of_ne hqp] at hq
    exact Or.inr ⟨hqp, hq⟩

theorem Acts.orderly (hact : Acts w p a w') (hcareful : w.Careful p a) (hw : w.Orderly) :
    w'.Orderly := by
  rcases hw with ⟨⟨hone, hkept⟩, hfree, hunique⟩
  cases hact with
  | refused _ _ _ => exact ⟨⟨hone, hkept⟩, hfree, hunique⟩
  | @checked irq h _ _ hinst =>
      refine ⟨⟨hone, hkept⟩, ?_, ?_⟩
      · intro q v x hq
        rcases phase_update hq with ⟨-, hx⟩ | ⟨-, hold⟩
        · cases hx
          exact Option.not_isSome_iff_eq_none.1 (Bool.eq_false_iff.1 hinst)
        · exact hfree q v x hold
      · -- the slot of `p` was nobody else's
        intro q r v x y hq hr
        rcases phase_update hq with ⟨rfl, hx⟩ | ⟨hqp, hqold⟩
        · rcases phase_update hr with ⟨rfl, -⟩ | ⟨-, hrold⟩
          · rfl
          · cases hx
            exact hcareful hinst r y hrold
        · rcases phase_update hr with ⟨rfl, hx⟩ | ⟨-, hrold⟩
          · cases hx
            exact absurd (hcareful hinst q x hqold) hqp
          · exact hunique q r v x y hqold hrold
  | @installed v h hp =>
      have hv : w.handlers v = none := hfree p v h hp
      refine ⟨⟨⟨?_, hone⟩, ?_⟩, ?_, ?_⟩
      · -- a handler that stood would be in the slot
        cases hstand : standing v w.history with
        | none => rfl
        | some x => exact absurd ((hkept v x hstand).symm.trans hv) (Option.some_ne_none x)
      · intro u x hu
        change (if v = u then some h else standing u w.history) = some x at hu
        by_cases huv : v = u
        · subst huv
          rw [if_pos rfl] at hu
          exact (installHandler_self _ _ _).trans hu
        · rw [if_neg huv] at hu
          exact (installHandler_of_ne _ _ (Ne.symm huv)).trans (hkept u x hu)
      · intro q u x hq
        rcases phase_update hq with ⟨-, hx⟩ | ⟨hqp, hold⟩
        · cases hx
        · have huv : u ≠ v := by
            rintro rfl
            exact hqp (hunique p q u h x hp hold)
          exact (installHandler_of_ne _ _ huv).trans (hfree q u x hold)
      · intro q r u x y hq hr
        rcases phase_update hq with ⟨-, hx⟩ | ⟨-, hqold⟩
        · cases hx
        · rcases phase_update hr with ⟨-, hx⟩ | ⟨-, hrold⟩
          · cases hx
          · exact hunique q r u x y hqold hrold
  | @removed handle _ =>
      refine ⟨⟨hone, ?_⟩, ?_, hunique⟩
      · intro u x hu
        change (if Fin.ofNat 256 handle = u then none else standing u w.history) = some x at hu
        by_cases huv : Fin.ofNat 256 handle = u
        · rw [if_pos huv] at hu
          cases hu
        · rw [if_neg huv] at hu
          exact (clearHandler_of_ne _ (Ne.symm huv)).trans (hkept u x hu)
      · intro q u x hq
        change clearHandler w.handlers (Fin.ofNat 256 handle) u = none
        by_cases huv : u = Fin.ofNat 256 handle
        · subst huv
          exact clearHandler_self _ _
        · rw [clearHandler_of_ne _ huv]
          exact hfree q u x hq

/-- Two parties that are about to fill one slot both succeed. -/
theorem exists_not_exclusive {q : π} {v : Fin 256} {h x : η} (hp : w.phase p = .checked v h)
    (hq : w.phase q = .checked v x) (hqp : q ≠ p) :
    ∃ w', Relation.ReflTransGen (Parties.Step fun _ _ _ => True) w w' ∧ ¬ w'.Exclusive := by
  have hfirst := Acts.installed hq
  have hp' : Function.update w.phase q .outside p = .checked v h :=
    (Function.update_of_ne (Ne.symm hqp) _ _).trans hp
  have hsecond := Acts.installed (w := ⟨installHandler w.handlers v x,
    Function.update w.phase q .outside, .installed v x :: w.history⟩) hp'
  refine ⟨_, (Relation.ReflTransGen.single ⟨q, .install, trivial, hfirst⟩).tail
    ⟨p, .install, trivial, hsecond⟩, ?_⟩
  rintro ⟨⟨hnone, -⟩, -⟩
  change (if v = v then some x else _) = none at hnone
  rw [if_pos rfl] at hnone
  cases hnone

/-- A party that is not careful leads to such a pair. -/
theorem Acts.exists_not_exclusive (hact : Acts w p a w') (hcareless : ¬ w.Careful p a) :
    ∃ w'', Relation.ReflTransGen (Parties.Step fun _ _ _ => True) w' w'' ∧ ¬ w''.Exclusive := by
  cases hact with
  | installed _ => exact absurd trivial hcareless
  | removed _ => exact absurd trivial hcareless
  | @refused irq h _ _ hinst =>
      refine absurd ?_ hcareless
      intro hfalse
      cases hinst.symm.trans hfalse
  | @checked irq h hp _ _ =>
      have hother : ∃ q x, w.phase q = .checked (vectorOf irq) x ∧ q ≠ p := by
        by_contra hno
        refine hcareless ?_
        intro _ q x hq
        by_contra hne
        exact hno ⟨q, x, hq, hne⟩
      rcases hother with ⟨q, x, hq, hqp⟩
      have hq' : Function.update w.phase p (.checked (vectorOf irq) h) q = .checked _ x :=
        (Function.update_of_ne hqp _ _).trans hq
      exact Idt.exists_not_exclusive (Function.update_self _ _ _) hq' hqp

/-- As long as the parties are careful, at most one installation in a slot succeeds between two
removals, and handlers stay until they are removed. The first party that is not opens the way to
two that succeed. -/
theorem installations_exclusive {w₀ : Parties π η} (hstart : w₀.Start)
    (hrun : Relation.ReflTransGen (Parties.Step Parties.Careful) w₀ w) :
    w.Exclusive ∧ ∀ p a w', Acts w p a w' → ¬ w.Careful p a →
      ∃ w'', Relation.ReflTransGen (Parties.Step fun _ _ _ => True) w' w'' ∧
        ¬ w''.Exclusive := by
  have hw : w.Orderly := by
    refine reach_invariant ?_ hrun hstart.orderly
    rintro w w' ⟨p, a, hcareful, hact⟩ hw
    exact hact.orderly hcareful hw
  exact ⟨hw.exclusive, fun p a w' hact hcareless => hact.exists_not_exclusive hcareless⟩

end

/-! ## Two parties -/

/-- Two parties outside the calls, and an empty table. -/
def twoParties : Parties Bool ℕ := ⟨fun _ => none, fun _ => .outside, []⟩

theorem twoParties_start : twoParties.Start := ⟨fun _ => rfl, rfl⟩

/-- One party after the other: the second is refused. -/
theorem installations_exclusive_in_turn : ∃ w, twoParties.Start ∧
    Relation.ReflTransGen (Parties.Step Parties.Careful) twoParties w ∧
    w.history = [.refused (vectorOf 1), .installed (vectorOf 1) 10] ∧ w.Exclusive := by
  have hcareful : twoParties.Careful false (.check 1 10) := by
    intro _ q h hq
    cases hq
  have hcheck : Parties.Step Parties.Careful twoParties _ :=
    ⟨false, .check 1 10, hcareful, .checked rfl (by decide) rfl⟩
  have hinstall := Relation.ReflTransGen.tail (Relation.ReflTransGen.single hcheck)
    ⟨false, .install, trivial, .installed rfl⟩
  have hrun := hinstall.tail ⟨true, .check 1 20, nofun, .refused rfl (by decide) rfl⟩
  exact ⟨_, twoParties_start, hrun, rfl, (installations_exclusive twoParties_start hrun).1⟩

/-- Both parties see the slot free. Both installations succeed, and the first handler is gone. -/
theorem installed_twice : ∃ w, twoParties.Start ∧
    Relation.ReflTransGen (Parties.Step fun _ _ _ => True) twoParties w ∧
    w.history = [.installed (vectorOf 1) 20, .installed (vectorOf 1) 10] ∧
    w.handlers (vectorOf 1) = some 20 ∧ ¬ w.Exclusive := by
  have hcheck : Parties.Step (fun _ _ _ => True) twoParties _ :=
    ⟨false, .check 1 10, trivial, .checked rfl (by decide) rfl⟩
  have hboth := Relation.ReflTransGen.tail (Relation.ReflTransGen.single hcheck)
    ⟨true, .check 1 20, trivial, .checked rfl (by decide) rfl⟩
  have hrun := (hboth.tail ⟨false, .install, trivial, .installed rfl⟩).tail
    ⟨true, .install, trivial, .installed rfl⟩
  refine ⟨_, twoParties_start, hrun, rfl, rfl, ?_⟩
  rintro ⟨⟨hnone, -⟩, -⟩
  cases hnone

end Prometheos.Idt
