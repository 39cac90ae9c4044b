import Mathlib.Data.Finset.Card
import Mathlib.Logic.Relation

/-!
# Walks in a graph

How far a walk can go from a node. A search that follows every edge, without marking where it
has been, needs room for as many nested calls as there are nodes on its longest walk, so it
ends if and only if the walks have a bound. In a finite graph they have one if and only if no
cycle is reached (`Far.le_card`, `far_of_cycle`).
-/

namespace Walks

open Relation

variable {α : Type} {r : α → α → Prop}

/-- There is a walk of `n` steps from the node. -/
def Far (r : α → α → Prop) : ℕ → α → Prop
  | 0, _ => True
  | n + 1, a => ∃ b, r a b ∧ Far r n b

/-- A cycle is reached from `a`. -/
def ReachesCycle (r : α → α → Prop) (a : α) : Prop := ∃ b, ReflTransGen r a b ∧ TransGen r b b

theorem Far.pred {n : ℕ} {a : α} (h : Far r (n + 1) a) : Far r n a := by
  induction n generalizing a with
  | zero => trivial
  | succ n ih =>
      rcases h with ⟨b, hab, hb⟩
      exact ⟨b, hab, ih hb⟩

/-- A long walk has shorter ones in it. -/
theorem Far.mono {m n : ℕ} {a : α} (h : Far r n a) (hle : m ≤ n) : Far r m a := by
  induction hle with
  | refl => exact h
  | step _ ih => exact ih h.pred

theorem Far.of_reach {n : ℕ} {a b : α} (hab : ReflTransGen r a b) (h : Far r n b) : Far r n a := by
  induction hab using ReflTransGen.head_induction_on with
  | refl => exact h
  | head hstep _ ih => exact Far.pred ⟨_, hstep, ih⟩

/-- Around a cycle the walks have no bound. -/
theorem far_of_cycle {a : α} (h : ReachesCycle r a) (n : ℕ) : Far r n a := by
  rcases h with ⟨b, hab, hcycle⟩
  refine Far.of_reach hab ?_
  induction n with
  | zero => trivial
  | succ n ih =>
      rcases TransGen.head'_iff.1 hcycle with ⟨c, hbc, hcb⟩
      exact ⟨c, hbc, Far.of_reach hcb ih⟩

theorem ReachesCycle.head {a b : α} (hab : r a b) (h : ReachesCycle r b) : ReachesCycle r a := by
  rcases h with ⟨c, hbc, hcycle⟩
  exact ⟨c, ReflTransGen.head hab hbc, hcycle⟩

/-- Without cycles a walk visits every node at most once. -/
theorem Far.le_card {n : ℕ} {a : α} {S : Finset α} (h : Far r n a) (hcycle : ¬ ReachesCycle r a)
    (hS : ∀ b, TransGen r a b → b ∈ S) : n ≤ S.card := by
  classical
  induction n generalizing a S with
  | zero => exact Nat.zero_le _
  | succ n ih =>
      rcases h with ⟨b, hab, hb⟩
      have hbS : b ∈ S := hS b (TransGen.single hab)
      -- the rest of the walk does not come back to `b`
      have hrest : n ≤ (S.erase b).card := by
        refine ih hb (fun h => hcycle (h.head hab)) ?_
        intro c hbc
        refine Finset.mem_erase.2 ⟨?_, hS c (TransGen.head hab hbc)⟩
        rintro rfl
        exact hcycle ⟨c, ReflTransGen.single hab, hbc⟩
      rw [Finset.card_erase_of_mem hbS] at hrest
      have hpos : 0 < S.card := Finset.card_pos.2 ⟨b, hbS⟩
      omega

/-- Where each node of `R` has one predecessor in `R` at most, of two nodes that reach a third
one reaches the other. -/
theorem reach_total {R : α → Prop} (hR : ∀ a b, R a → r a b → R b)
    (huniq : ∀ a b c, R a → R b → r a c → r b c → a = b) {a b c : α} (ha : R a) (hb : R b)
    (hac : ReflTransGen r a c) (hbc : ReflTransGen r b c) :
    ReflTransGen r a b ∨ ReflTransGen r b a := by
  have hkeep : ∀ {x y}, R x → ReflTransGen r x y → R y := by
    intro x y hx hxy
    induction hxy with
    | refl => exact hx
    | tail _ hstep ih => exact hR _ _ ih hstep
  induction hac with
  | refl => exact Or.inr hbc
  | tail hax hstep ih =>
      rcases ReflTransGen.cases_tail hbc with rfl | ⟨y, hby, hstep'⟩
      · exact Or.inl (hax.tail hstep)
      · -- the last step of both comes from the same node
        cases huniq _ _ _ (hkeep ha hax) (hkeep hb hby) hstep hstep'
        exact ih hby

end Walks
