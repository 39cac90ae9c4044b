import Mathlib.Logic.Function.Basic
import Prometheos.Lib.Prog
import Prometheos.Lib.Simulation

/-!
# Callers at work on a shared state

Callers run at once over a shared state. Each of them is at a place of its own, and a step of the
system is a step of one of them, from its place to its next one, or a change that the surroundings
make (`System.Step`). A step of a caller may show something. Often what a caller does at a place is
a program over the shared state (`System.ofProg`, `Goes`).

* `Outline`: an invariant of the shared state, what each caller knows of it besides at its place,
  and the changes that it relies on the others not to go beyond (rely and guarantee). The
  invariant and what the callers know hold in all runs (`Outline.known`).
* `Matches`: each step of a caller is a step of the same caller in a second system, or none.
* `Outline.refinement`: the two together make the second system a specification of the first.
-/

namespace Interleave

open Simulation

variable {κ σ τ π ω ε : Type}

/-- What a caller can do at its place, and what the surroundings can do to the state. -/
structure System (κ σ π ε : Type) where
  step : κ → σ → π → Option ε → σ → π → Prop
  env : σ → σ → Prop

/-- The shared state and the places of the callers. -/
structure State (κ σ π : Type) where
  shared : σ
  place : κ → π

/-- A caller makes a step, or the surroundings do. -/
inductive System.Step [DecidableEq κ] (S : System κ σ π ε) (g : State κ σ π) :
    Option (κ × ε) → State κ σ π → Prop
  | caller (k : κ) {o : Option ε} {s : σ} {p : π} : S.step k g.shared (g.place k) o s p →
      Step S g (o.map (Prod.mk k)) ⟨s, Function.update g.place k p⟩
  | env {s : σ} : S.env g.shared s → Step S g none ⟨s, g.place⟩

/-- A piece makes one of the `moves`, or stops before it changes anything. -/
def Goes {φ : Type} (moves : Option ε → σ → π → Prop) (stopped : π)
    (x : Prog φ σ (π × Option ε)) (s : σ) : Prop :=
  (∃ p o s', x.run s = .ok (p, o) s' ∧ moves o s' p) ∨
    ∃ e, x.run s = .stop e s ∧ moves none s stopped

theorem Goes.of_ok {φ : Type} {moves : Option ε → σ → π → Prop} {stopped p : π}
    {x : Prog φ σ (π × Option ε)} {s s' : σ} {o : Option ε} (h : x.run s = .ok (p, o) s')
    (hmoves : moves o s' p) : Goes moves stopped x s :=
  .inl ⟨p, o, s', h, hmoves⟩

/-- The shared state is in order, and all callers know something of it. -/
structure Known (inv : σ → Prop) (know : κ → σ → π → Prop) (g : State κ σ π) : Prop where
  shared : inv g.shared
  callers : ∀ k, know k g.shared (g.place k)

/-- A caller keeps the invariant and what it knows in its own steps, and does to the others only
what they rely on; what it knows is not lost by what it relies on. -/
structure Outline (S : System κ σ π ε) (inv : σ → Prop) (rely : κ → σ → σ → Prop)
    (know : κ → σ → π → Prop) : Prop where
  keeps : ∀ k s p o s' p', S.step k s p o s' p' → inv s → know k s p → inv s' ∧ know k s' p'
  guarantees : ∀ k s p o s' p', S.step k s p o s' p' → inv s → know k s p →
    ∀ j, j ≠ k → rely j s s'
  surroundings : ∀ s s', S.env s s' → inv s → inv s' ∧ ∀ j, rely j s s'
  stable : ∀ k s p s', rely k s s' → know k s p → know k s' p

section

variable [DecidableEq κ] {S : System κ σ π ε} {T : System κ τ ω ε} {inv : σ → Prop}
  {rely : κ → σ → σ → Prop} {know : κ → σ → π → Prop} {g g' : State κ σ π}

/-- The invariant holds, and the callers know what they should, after each step. -/
theorem Outline.known {o : Option (κ × ε)} (hO : Outline S inv rely know) (h : S.Step g o g')
    (hknown : Known inv know g) : Known inv know g' := by
  cases h with
  | caller k hstep =>
      obtain ⟨hinv, hk⟩ := hO.keeps _ _ _ _ _ _ hstep hknown.shared (hknown.callers k)
      refine ⟨hinv, ?_⟩
      intro j
      by_cases hj : j = k
      · subst hj
        simpa using hk
      · have hrely := hO.guarantees _ _ _ _ _ _ hstep hknown.shared (hknown.callers k) j hj
        simpa [hj] using hO.stable _ _ _ _ hrely (hknown.callers j)
  | env henv =>
      obtain ⟨hinv, hrely⟩ := hO.surroundings _ _ henv hknown.shared
      exact ⟨hinv, fun j => hO.stable _ _ _ _ (hrely j) (hknown.callers j)⟩

/-! ## Refinement -/

/-- The states of a system as states of another one. -/
def view (shared : σ → τ) (place : π → ω) (g : State κ σ π) : State κ τ ω :=
  ⟨shared g.shared, place ∘ g.place⟩

/-- A caller that knows what it should takes a step of the other system, or one that does not show
there. -/
structure Matches (S : System κ σ π ε) (T : System κ τ ω ε) (inv : σ → Prop)
    (know : κ → σ → π → Prop) (shared : σ → τ) (place : π → ω) : Prop where
  step : ∀ k s p o s' p', S.step k s p o s' p' → inv s → know k s p →
    T.step k (shared s) (place p) o (shared s') (place p') ∨
      o = none ∧ shared s' = shared s ∧ place p' = place p
  env : ∀ s s', S.env s s' → inv s → T.env (shared s) (shared s')

theorem view_update {shared : σ → τ} {place : π → ω} (s : σ) (places : κ → π) (k : κ) (p : π) :
    view shared place ⟨s, Function.update places k p⟩ =
      ⟨shared s, Function.update (place ∘ places) k (place p)⟩ := by
  unfold view
  rw [Function.comp_update]

/-- The other system is a specification. -/
theorem Outline.refinement (hO : Outline S inv rely know) {shared : σ → τ} {place : π → ω}
    (hM : Matches S T inv know shared place) :
    Refinement S.Step T.Step (Known inv know) (view shared place) where
  keeps := fun _ _ _ h hknown => hO.known h hknown
  steps := by
    intro g o g' h hknown
    cases h with
    | caller k hstep =>
        rw [view_update]
        rcases hM.step _ _ _ _ _ _ hstep hknown.shared (hknown.callers k) with
          hT | ⟨rfl, hshared, hplace⟩
        · exact .inl (.caller k hT)
        · -- neither the shared state nor the place has changed for the other system
          right
          refine ⟨rfl, ?_⟩
          rw [hshared, hplace, ← Function.comp_update, Function.update_eq_self]
          rfl
    | env henv => exact .inl (.env (hM.env _ _ henv hknown.shared))

end

/-! ## Two callers -/

/-- The state of a system with two callers. -/
def pair (s : σ) (first second : π) : State Bool σ π := ⟨s, fun k => if k then second else first⟩

section

variable {S : System Bool σ π ε} {s s' : σ} {p p' q q' : π}

end

end Interleave
