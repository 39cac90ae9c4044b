import Mathlib.Logic.Relation

/-!
# Refinement mappings

A system takes steps between states. Some of them can be observed, and are labelled with what is
observed; the others are silent. `Shows step s l t` says that a run from `s` to `t` shows the
observations `l`.

A `Refinement` is a view of the states of one system as states of another one, its specification,
such that in the states that satisfy an invariant each step is a step of the specification with
the same label, or a silent one that the view does not notice. Then whatever a run shows, the
specification can show it as well (`Refinement.shows`).
-/

namespace Simulation

variable {σ τ ε : Type}

/-- The observations of a run. -/
inductive Shows (step : σ → Option ε → σ → Prop) (s : σ) : List ε → σ → Prop
  | refl : Shows step s [] s
  | silent {l : List ε} {t u : σ} : Shows step s l t → step t none u → Shows step s l u
  | seen {l : List ε} {e : ε} {t u : σ} : Shows step s l t → step t (some e) u →
      Shows step s (l ++ [e]) u

/-- The steps, seen through `view`, are steps of `spec` or none at all. -/
structure Refinement (step : σ → Option ε → σ → Prop) (spec : τ → Option ε → τ → Prop)
    (inv : σ → Prop) (view : σ → τ) : Prop where
  keeps : ∀ s o t, step s o t → inv s → inv t
  steps : ∀ s o t, step s o t → inv s → spec (view s) o (view t) ∨ o = none ∧ view t = view s

section

variable {step : σ → Option ε → σ → Prop} {spec : τ → Option ε → τ → Prop} {inv : σ → Prop}
  {view : σ → τ} {s t : σ} {l : List ε}

/-- What a run shows, the specification shows. -/
theorem Refinement.shows (R : Refinement step spec inv view) (hrun : Shows step s l t)
    (hinv : inv s) : Shows spec (view s) l (view t) ∧ inv t := by
  induction hrun with
  | refl => exact ⟨.refl, hinv⟩
  | silent _ hst ih =>
      refine ⟨?_, R.keeps _ _ _ hst ih.2⟩
      rcases R.steps _ _ _ hst ih.2 with hspec | ⟨_, hsame⟩
      · exact .silent ih.1 hspec
      · -- a step that the view does not notice
        rw [hsame]
        exact ih.1
  | seen _ hst ih =>
      refine ⟨?_, R.keeps _ _ _ hst ih.2⟩
      rcases R.steps _ _ _ hst ih.2 with hspec | ⟨ho, _⟩
      · exact .seen ih.1 hspec
      · cases ho

end

end Simulation
