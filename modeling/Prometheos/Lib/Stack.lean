import Mathlib.Logic.Function.Basic
import Mathlib.Data.Nat.Notation

/-!
# Stacks in memory

A stack grows down in a memory of words: the word that was pushed last has the lowest index,
and what lies below it is scratch. `Holds m p ws` says that the words `ws` lie at `p` and
above, the last one pushed first; `Above p m m'` that two memories differ in scratch only.

A push writes below everything that is held (`Holds.push`), words that are popped leave the
rest where it is (`Holds.drop`), and what is held does not depend on scratch (`Holds.above`).
-/

namespace Stack

variable {W : Type} {m m' m'' : ℕ → W} {p q : ℕ} {w : W} {ws vs : List W}

/-- The words `ws` lie at `p` and above. -/
def Holds (m : ℕ → W) : ℕ → List W → Prop
  | _, [] => True
  | p, w :: ws => m p = w ∧ Holds m (p + 1) ws

/-- The memories agree at `p` and above. -/
def Above (p : ℕ) (m m' : ℕ → W) : Prop := ∀ x, p ≤ x → m' x = m x

theorem Above.refl (p : ℕ) (m : ℕ → W) : Above p m m := fun _ _ => rfl

theorem Above.symm (h : Above p m m') : Above p m' m := fun x hx => (h x hx).symm

theorem Above.trans (h : Above p m m') (h' : Above p m' m'') : Above p m m'' := by
  intro x hx
  rw [h' x hx, h x hx]

theorem Above.mono (h : Above p m m') (hle : p ≤ q) : Above q m m' :=
  fun x hx => h x (Nat.le_trans hle hx)

/-- A word that is written below `p` is scratch. -/
theorem above_update (m : ℕ → W) (w : W) (h : q < p) : Above p m (Function.update m q w) := by
  intro x hx
  have hne : x ≠ q := by omega
  exact Function.update_of_ne hne w m

/-- Both memories get the same word on top. -/
theorem Above.update (h : Above p m m') (w : W) (hq : p = q + 1) :
    Above q (Function.update m q w) (Function.update m' q w) := by
  intro x hx
  by_cases hxq : x = q
  · subst hxq
    simp
  · have hle : p ≤ x := by omega
    simp [hxq, h x hle]

theorem Holds.above (h : Holds m p ws) (hm : Above p m m') : Holds m' p ws := by
  induction ws generalizing p with
  | nil => trivial
  | cons w ws ih =>
      obtain ⟨hw, hws⟩ := h
      constructor
      · rw [hm p (Nat.le_refl p), hw]
      · exact ih hws (hm.mono (Nat.le_succ p))

/-- A word is pushed on top of those that are held. -/
theorem Holds.push (h : Holds m p ws) (w : W) (hq : p = q + 1) :
    Holds (Function.update m q w) q (w :: ws) := by
  subst hq
  constructor
  · simp
  · exact h.above (above_update m w (Nat.lt_succ_self q))

/-- There is one list of words of a given length. -/
theorem Holds.unique (h : Holds m p ws) (h' : Holds m p vs) (hlen : ws.length = vs.length) :
    ws = vs := by
  induction ws generalizing p vs with
  | nil => exact (List.length_eq_zero_iff.1 hlen.symm).symm
  | cons w ws ih =>
      cases vs with
      | nil => cases hlen
      | cons v vs =>
          obtain ⟨hw, hws⟩ := h
          obtain ⟨hv, hvs⟩ := h'
          rw [← hw, hv, ih hws hvs (Nat.succ.inj hlen)]

/-- The words after the first ones. -/
theorem Holds.drop (h : Holds m p (vs ++ ws)) : Holds m (p + vs.length) ws := by
  induction vs generalizing p with
  | nil => exact h
  | cons v vs ih =>
      have hrest := ih h.2
      rw [List.length_cons, Nat.add_comm vs.length 1, ← Nat.add_assoc]
      exact hrest

end Stack
