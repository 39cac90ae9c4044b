import Mathlib.Logic.Relation
import Mathlib.Data.Nat.Notation

/-!
# Programs that change a state and may stop

`Prog ε σ α` is a program over a state `σ` that either ends with a value and a
new state, or stops with a fault `ε` and the state it had reached at that
moment. Keeping the state of a stopped run is what lets a theorem say that a
check fails *before* anything was changed.

* `bind_ok_iff` takes a successful run apart, `bind_of_ok` puts one together;
* `Ends` is the weakest precondition, with its rules for sequencing and weakening;
* `zoom` runs a program on a part of a larger state;
* `forRange` is the counting loop, `forRange_ends` its invariant rule;
* `Checks` are the programs that look at the state and change nothing;
* `Always` is what holds however a run ends;
* `Follows` relates a program to one that knows less of the state;
* `reach_invariant` is the invariant rule for the runs of a step relation.
-/

/-- How a run ends: with a value, or with a fault; the state is kept in both. -/
inductive Outcome (ε σ α : Type) where
  | ok (a : α) (s : σ)
  | stop (e : ε) (s : σ)

/-- The state in which a run ends or stops. -/
def Outcome.state {ε σ α : Type} : Outcome ε σ α → σ
  | .ok _ s => s
  | .stop _ s => s

/-- The outcome as seen through `get`. -/
def Outcome.seen {ε σ τ α : Type} (get : σ → τ) : Outcome ε σ α → Outcome ε τ α
  | .ok a s => .ok a (get s)
  | .stop e s => .stop e (get s)

/-- A program over the state `σ` with faults `ε`. -/
structure Prog (ε σ α : Type) where
  /-- The run from a given state. -/
  run : σ → Outcome ε σ α

namespace Prog

variable {ε σ τ α β : Type}

instance : Monad (Prog ε σ) where
  pure a := ⟨fun s => .ok a s⟩
  bind x f := ⟨fun s =>
    match x.run s with
    | .ok a s' => (f a).run s'
    | .stop e s' => .stop e s'⟩

/-- Read a component of the state. -/
def gets (f : σ → α) : Prog ε σ α := ⟨fun s => .ok (f s) s⟩

/-- Change the state. -/
def update (f : σ → σ) : Prog ε σ Unit := ⟨fun s => .ok () (f s)⟩

/-- Stop with a fault. -/
def fault (e : ε) : Prog ε σ α := ⟨fun s => .stop e s⟩

/-- Go on only if `c` holds. -/
def require (c : Prop) [Decidable c] (e : ε) : Prog ε σ Unit :=
  ⟨fun s => if c then .ok () s else .stop e s⟩

/-- Run a program on the part of the state that `get` reads and `put` replaces. -/
def zoom (get : σ → τ) (put : τ → σ → σ) (x : Prog ε τ α) : Prog ε σ α := ⟨fun s =>
  match x.run (get s) with
  | .ok a t => .ok a (put t s)
  | .stop e t => .stop e (put t s)⟩

/-- `for i in 0..n`, the body being run for `0`, then `1`, up to `n - 1`. -/
def forRange : ℕ → (ℕ → Prog ε σ Unit) → Prog ε σ Unit
  | 0, _ => pure ()
  | n + 1, f => do
      forRange n f
      f n

/-! ## Evaluation -/

@[simp] theorem run_pure (a : α) (s : σ) : (pure a : Prog ε σ α).run s = .ok a s := rfl

@[simp] theorem run_gets (f : σ → α) (s : σ) :
    (gets f : Prog ε σ α).run s = .ok (f s) s := rfl

@[simp] theorem run_update (f : σ → σ) (s : σ) :
    (update f : Prog ε σ Unit).run s = .ok () (f s) := rfl

@[simp] theorem run_fault (e : ε) (s : σ) : (fault e : Prog ε σ α).run s = .stop e s := rfl

theorem run_require {c : Prop} [Decidable c] (h : c) (e : ε) (s : σ) :
    (require c e : Prog ε σ Unit).run s = .ok () s := if_pos h

/-- A check that passed changed nothing, and its condition holds. -/
theorem require_ok_iff {c : Prop} [Decidable c] {e : ε} {s s' : σ} {u : Unit} :
    (require c e : Prog ε σ Unit).run s = .ok u s' ↔ c ∧ s' = s := by
  by_cases h : c
  · simp [require, h, eq_comm]
  · simp [require, h]

theorem run_bind (x : Prog ε σ α) (f : α → Prog ε σ β) (s : σ) :
    (x >>= f).run s = match x.run s with
      | .ok a s' => (f a).run s'
      | .stop e s' => .stop e s' := rfl

/-- Putting a run together: continue from where the first program ended. -/
theorem bind_of_ok {x : Prog ε σ α} {f : α → Prog ε σ β} {s s' : σ} {a : α}
    (h : x.run s = .ok a s') : (x >>= f).run s = (f a).run s' := by
  rw [run_bind, h]

/-- Taking a successful run apart. -/
theorem bind_ok_iff {x : Prog ε σ α} {f : α → Prog ε σ β} {s s' : σ} {b : β} :
    (x >>= f).run s = .ok b s' ↔ ∃ a t, x.run s = .ok a t ∧ (f a).run t = .ok b s' := by
  rw [run_bind]
  constructor
  · intro h
    cases hx : x.run s with
    | ok a t =>
        rw [hx] at h
        exact ⟨a, t, rfl, h⟩
    | stop e t =>
        rw [hx] at h
        cases h
  · rintro ⟨a, t, hx, hf⟩
    rw [hx]
    exact hf

/-- A value that is returned if a condition holds. -/
theorem require_pure_ok_iff {c : Prop} [Decidable c] {e : ε} {s s' : σ} {a b : α} :
    (require c e >>= fun _ => pure a : Prog ε σ α).run s = .ok b s' ↔ c ∧ b = a ∧ s' = s := by
  rw [bind_ok_iff]
  constructor
  · rintro ⟨_, t, hrequire, hpure⟩
    rcases require_ok_iff.1 hrequire with ⟨hc, rfl⟩
    cases hpure
    exact ⟨hc, rfl, rfl⟩
  · rintro ⟨hc, rfl, rfl⟩
    exact ⟨(), s', require_ok_iff.2 ⟨hc, rfl⟩, rfl⟩

theorem gets_bind (g : σ → α) (f : α → Prog ε σ β) (s : σ) :
    (gets g >>= f).run s = (f (g s)).run s := rfl

theorem update_bind (g : σ → σ) (f : Unit → Prog ε σ β) (s : σ) :
    (update g >>= f).run s = (f ()).run (g s) := rfl

theorem require_bind {c : Prop} [Decidable c] (h : c) (e : ε) (f : Unit → Prog ε σ β) (s : σ) :
    (require c e >>= f).run s = (f ()).run s := bind_of_ok (run_require h e s)

theorem zoom_of_ok {get : σ → τ} {put : τ → σ → σ} {x : Prog ε τ α} {s : σ} {a : α} {t : τ}
    (h : x.run (get s) = .ok a t) : (zoom get put x).run s = .ok a (put t s) := by
  show (match x.run (get s) with
    | .ok a t => Outcome.ok a (put t s)
    | .stop e t => .stop e (put t s)) = _
  rw [h]

theorem zoom_of_stop {get : σ → τ} {put : τ → σ → σ} {x : Prog ε τ α} {s : σ} {e : ε} {t : τ}
    (h : x.run (get s) = .stop e t) : (zoom get put x).run s = .stop e (put t s) := by
  show (match x.run (get s) with
    | .ok a t => Outcome.ok a (put t s)
    | .stop e t => .stop e (put t s)) = _
  rw [h]

theorem zoom_ok_iff {get : σ → τ} {put : τ → σ → σ} {x : Prog ε τ α} {s s' : σ} {a : α} :
    (zoom get put x).run s = .ok a s' ↔ ∃ t, x.run (get s) = .ok a t ∧ s' = put t s := by
  constructor
  · intro h
    cases hx : x.run (get s) with
    | ok b t =>
        rw [zoom_of_ok hx] at h
        cases h
        exact ⟨t, rfl, rfl⟩
    | stop e t =>
        rw [zoom_of_stop hx] at h
        cases h
  · rintro ⟨t, hx, rfl⟩
    exact zoom_of_ok hx

/-! ## Postconditions

`Ends B x s Q` is the weakest precondition of `x` for the postcondition `Q`, where
the condition `B` excuses a stop: with `B = False` it is total correctness, with
`B = True` partial correctness. -/

/-- The run of `x` from `s` ends in `Q`, or it stops and `B` holds. -/
def Ends (B : Prop) (x : Prog ε σ α) (s : σ) (Q : α → σ → Prop) : Prop :=
  match x.run s with
  | .ok a s' => Q a s'
  | .stop _ _ => B

theorem ends_of_ok {B : Prop} {x : Prog ε σ α} {s s' : σ} {a : α} {Q : α → σ → Prop}
    (h : x.run s = .ok a s') (hQ : Q a s') : Ends B x s Q := by
  unfold Ends
  rw [h]
  exact hQ

/-- What a run that did end satisfies. -/
theorem Ends.of_ok {B : Prop} {x : Prog ε σ α} {s s' : σ} {a : α} {Q : α → σ → Prop}
    (hE : Ends B x s Q) (h : x.run s = .ok a s') : Q a s' := by
  unfold Ends at hE
  rw [h] at hE
  exact hE

/-- When every stop is excused, only the runs that end matter. -/
theorem ends_of_forall {x : Prog ε σ α} {s : σ} {Q : α → σ → Prop}
    (h : ∀ a s', x.run s = .ok a s' → Q a s') : Ends True x s Q := by
  unfold Ends
  cases hx : x.run s with
  | ok a s' => exact h a s' hx
  | stop e s' => trivial

/-- Without an excuse the run ends. -/
theorem Ends.exists_ok {B : Prop} {x : Prog ε σ α} {s : σ} {Q : α → σ → Prop}
    (hE : Ends B x s Q) (hB : ¬ B) : ∃ a s', x.run s = .ok a s' ∧ Q a s' := by
  unfold Ends at hE
  cases hx : x.run s with
  | ok a s' =>
      rw [hx] at hE
      exact ⟨a, s', rfl, hE⟩
  | stop e s' =>
      rw [hx] at hE
      exact absurd hE hB

theorem Ends.mono {B B' : Prop} {x : Prog ε σ α} {s : σ} {Q Q' : α → σ → Prop}
    (hE : Ends B x s Q) (hB : B → B') (hQ : ∀ a s', Q a s' → Q' a s') : Ends B' x s Q' := by
  unfold Ends at hE ⊢
  cases hx : x.run s with
  | ok a s' =>
      rw [hx] at hE
      exact hQ a s' hE
  | stop e s' =>
      rw [hx] at hE
      exact hB hE

theorem Ends.congr {B : Prop} {x y : Prog ε σ α} {s t : σ} {Q : α → σ → Prop}
    (h : x.run s = y.run t) (hE : Ends B y t Q) : Ends B x s Q := by
  unfold Ends at hE ⊢
  rw [h]
  exact hE

theorem Ends.bind {B : Prop} {x : Prog ε σ α} {f : α → Prog ε σ β} {s : σ}
    {Q : α → σ → Prop} {R : β → σ → Prop}
    (hx : Ends B x s Q) (hf : ∀ a t, Q a t → Ends B (f a) t R) : Ends B (x >>= f) s R := by
  unfold Ends at hx ⊢
  rw [run_bind]
  cases h : x.run s with
  | ok a t =>
      rw [h] at hx
      exact hf a t hx
  | stop e t =>
      rw [h] at hx
      exact hx

/-- A check either passes and changes nothing, or its failure is excused. -/
theorem ends_require {B c : Prop} [Decidable c] (h : ¬ B → c) (e : ε) (s : σ) :
    Ends B (require c e : Prog ε σ Unit) s fun _ s' => c ∧ s' = s := by
  by_cases hc : c
  · exact ends_of_ok (run_require hc e s) ⟨hc, rfl⟩
  · have hB : B := Classical.byContradiction fun hB => hc (h hB)
    have hrun : (require c e : Prog ε σ Unit).run s = .stop e s := if_neg hc
    unfold Ends
    rw [hrun]
    exact hB

/-! ## Counting loops -/

/-- The loop rule: what one turn carries from `i` to `i + 1`, the loop carries from `0`
to `n`. -/
theorem forRange_ends {B : Prop} {n : ℕ} {f : ℕ → Prog ε σ Unit} {I : ℕ → σ → Prop} {s : σ}
    (hinit : I 0 s) (hstep : ∀ i < n, ∀ t, I i t → Ends B (f i) t fun _ t' => I (i + 1) t') :
    Ends B (forRange n f) s fun _ s' => I n s' := by
  induction n with
  | zero => exact hinit
  | succ n ih =>
      refine (ih fun i hi => hstep i (by omega)).bind ?_
      intro _ t hinv
      exact hstep n (by omega) t hinv

/-- The same rule when no turn stops. -/
theorem forRange_ok {n : ℕ} {f : ℕ → Prog ε σ Unit} {I : ℕ → σ → Prop} {s : σ}
    (hinit : I 0 s)
    (hstep : ∀ i < n, ∀ t, I i t → ∃ t', (f i).run t = .ok () t' ∧ I (i + 1) t') :
    ∃ s', (forRange n f).run s = .ok () s' ∧ I n s' := by
  have hends : Ends False (forRange n f) s fun _ s' => I n s' := by
    refine forRange_ends hinit ?_
    intro i hi t hinv
    rcases hstep i hi t hinv with ⟨t', hrun, hinv'⟩
    exact ends_of_ok hrun hinv'
  rcases hends.exists_ok not_false with ⟨_, s', hrun, hinv⟩
  exact ⟨s', hrun, hinv⟩

/-- The same rule for a loop that is known to have ended. -/
theorem forRange_of_ok {n : ℕ} {f : ℕ → Prog ε σ Unit} {I : ℕ → σ → Prop} {s s' : σ} {u : Unit}
    (hrun : (forRange n f).run s = .ok u s') (hinit : I 0 s)
    (hstep : ∀ i < n, ∀ t t', I i t → (f i).run t = .ok () t' → I (i + 1) t') :
    I n s' := by
  have hends : Ends True (forRange n f) s fun _ s' => I n s' := by
    refine forRange_ends hinit ?_
    intro i hi t hinv
    exact ends_of_forall fun _ t' h => hstep i hi t t' hinv h
  exact hends.of_ok hrun

/-! ## Checks -/

/-- The program changes nothing, and stops only with a fault of `E`. -/
def Checks (E : ε → Prop) (x : Prog ε σ α) : Prop :=
  ∀ s, (∃ a, x.run s = .ok a s) ∨ ∃ e, E e ∧ x.run s = .stop e s

section

variable {E : ε → Prop}

theorem checks_pure (a : α) : Checks E (pure a : Prog ε σ α) := fun _ => Or.inl ⟨a, rfl⟩

theorem checks_gets (f : σ → α) : Checks E (gets f : Prog ε σ α) := fun s => Or.inl ⟨f s, rfl⟩

theorem checks_fault {e : ε} (he : E e) : Checks E (fault e : Prog ε σ α) :=
  fun _ => Or.inr ⟨e, he, rfl⟩

theorem checks_require {c : Prop} [Decidable c] {e : ε} (he : E e) :
    Checks E (require c e : Prog ε σ Unit) := by
  intro s
  by_cases hc : c
  · exact Or.inl ⟨(), run_require hc e s⟩
  · exact Or.inr ⟨e, he, if_neg hc⟩

theorem bind_of_stop {x : Prog ε σ α} {f : α → Prog ε σ β} {s s' : σ} {e : ε}
    (h : x.run s = .stop e s') : (x >>= f).run s = .stop e s' := by
  rw [run_bind, h]

theorem Checks.bind {x : Prog ε σ α} {f : α → Prog ε σ β} (hx : Checks E x)
    (hf : ∀ a, Checks E (f a)) : Checks E (x >>= f) := by
  intro s
  rcases hx s with ⟨a, hrun⟩ | ⟨e, he, hrun⟩
  · rw [bind_of_ok hrun]
    exact hf a s
  · exact Or.inr ⟨e, he, bind_of_stop hrun⟩

theorem checks_forRange {f : ℕ → Prog ε σ Unit} (hf : ∀ i, Checks E (f i)) (n : ℕ) :
    Checks E (forRange n f) := by
  induction n with
  | zero => exact checks_pure ()
  | succ n ih => exact ih.bind fun _ => hf n

end

/-! ## However a run ends -/

/-- From a state of `I` the program comes to a state of `J`, whether it ends or stops; if it
ends, its value is one of `V`. -/
def Always (I : σ → Prop) (x : Prog ε σ α) (V : α → Prop) (J : σ → Prop) : Prop :=
  ∀ s, I s → (∀ a s', x.run s = .ok a s' → V a ∧ J s') ∧ ∀ e s', x.run s = .stop e s' → J s'

section

variable {I J K : σ → Prop} {V : α → Prop} {W : β → Prop} {x : Prog ε σ α}

theorem Always.state (h : Always I x V J) {s : σ} (hs : I s) : J (x.run s).state := by
  rcases h s hs with ⟨hok, hstop⟩
  cases hrun : x.run s with
  | ok a s' => exact (hok a s' hrun).2
  | stop e s' => exact hstop e s' hrun

theorem always_pure {a : α} (hV : V a) : Always I (pure a : Prog ε σ α) V I := by
  intro s hs
  refine ⟨?_, nofun⟩
  intro b s' hrun
  cases hrun
  exact ⟨hV, hs⟩

theorem always_update {f : σ → σ} (h : ∀ s, I s → J (f s)) :
    Always I (update f : Prog ε σ Unit) (fun _ => True) J := by
  intro s hs
  refine ⟨?_, nofun⟩
  intro b s' hrun
  cases hrun
  exact ⟨trivial, h s hs⟩

/-- An update never stops, so nothing is asked of the state in between. -/
theorem always_update_bind {f : σ → σ} {y : Prog ε σ β} (h : ∀ s, I s → J (f s))
    (hy : Always J y W K) : Always I (update f >>= fun _ => y) W K := by
  intro s hs
  exact hy (f s) (h s hs)

theorem always_fault (e : ε) : Always I (fault e : Prog ε σ α) V I := by
  intro s hs
  refine ⟨nofun, ?_⟩
  intro e' s' hrun
  cases hrun
  exact hs

/-- In sequence; the first program may also stop. -/
theorem Always.bind {f : α → Prog ε σ β} (hx : Always I x V J)
    (hf : ∀ a, V a → Always J (f a) W K) (hJK : ∀ s, J s → K s) :
    Always I (x >>= f) W K := by
  intro s hs
  rcases hx s hs with ⟨hok, hstop⟩
  cases hrun : x.run s with
  | ok a s' =>
      rw [bind_of_ok hrun]
      rcases hok a s' hrun with ⟨hV, hJ⟩
      exact hf a hV s' hJ
  | stop e s' =>
      rw [bind_of_stop hrun]
      refine ⟨nofun, ?_⟩
      intro e' t h
      cases h
      exact hJK s' (hstop e s' hrun)

theorem Always.mono {I' J' : σ → Prop} (h : Always I x V J) (hI : ∀ s, I' s → I s)
    (hJ : ∀ s, J s → J' s) : Always I' x (fun _ => True) J' := by
  intro s hs
  rcases h s (hI s hs) with ⟨hok, hstop⟩
  exact ⟨fun a s' hrun => ⟨trivial, hJ s' (hok a s' hrun).2⟩,
    fun e s' hrun => hJ s' (hstop e s' hrun)⟩

/-- The rule for a loop over a list. -/
theorem always_forM {γ : Type} {l : List γ} {f : γ → Prog ε σ PUnit}
    (hf : ∀ c ∈ l, Always I (f c) (fun _ => True) I) :
    Always I (l.forM f) (fun _ => True) I := by
  induction l with
  | nil => exact always_pure trivial
  | cons c l ih =>
      change Always I (f c >>= fun _ => l.forM f) _ I
      have hrest := ih fun c' hc' => hf c' (List.mem_cons_of_mem _ hc')
      exact (hf c List.mem_cons_self).bind (fun _ _ => hrest) fun _ h => h

end

/-- A loop over two lists in a row. -/
theorem forM_append_run {γ : Type} (f : γ → Prog ε σ PUnit) (l₁ l₂ : List γ) (s : σ) :
    ((l₁ ++ l₂).forM f).run s = (l₁.forM f >>= fun _ => l₂.forM f).run s := by
  induction l₁ generalizing s with
  | nil => rfl
  | cons c l₁ ih =>
      change (f c >>= fun _ => (l₁ ++ l₂).forM f).run s =
        ((f c >>= fun _ => l₁.forM f) >>= fun _ => l₂.forM f).run s
      rw [run_bind, run_bind, run_bind]
      cases (f c).run s with
      | ok _ t => exact (ih t).trans (run_bind _ _ t)
      | stop e t => rfl

/-! ## Programs that know less of the state -/

/-- Seen through `get`, the runs of `x` are those of `y`. -/
def Follows (get : σ → τ) (x : Prog ε σ α) (y : Prog ε τ α) : Prop :=
  ∀ s, y.run (get s) = (x.run s).seen get

section

variable {get : σ → τ} {x : Prog ε σ α} {y : Prog ε τ α}

theorem Follows.of_ok (h : Follows get x y) {s s' : σ} {a : α} (hx : x.run s = .ok a s') :
    y.run (get s) = .ok a (get s') := by
  rw [h s, hx]
  rfl

theorem follows_pure (a : α) : Follows get (pure a : Prog ε σ α) (pure a) := fun _ => rfl

theorem Follows.bind {f : α → Prog ε σ β} {g : α → Prog ε τ β} (h : Follows get x y)
    (hf : ∀ a, Follows get (f a) (g a)) : Follows get (x >>= f) (y >>= g) := by
  intro s
  have hy := h s
  cases hx : x.run s with
  | ok a s' =>
      rw [hx] at hy
      rw [bind_of_ok hx, bind_of_ok hy]
      exact hf a s'
  | stop e s' =>
      rw [hx] at hy
      rw [bind_of_stop hx, bind_of_stop hy]
      rfl

/-- What follows a program may change what is not seen. -/
theorem Follows.bind_pure {f : α → Prog ε σ α} (h : Follows get x y)
    (hf : ∀ a, Follows get (f a) (pure a : Prog ε τ α)) : Follows get (x >>= f) y := by
  intro s
  have hbind := h.bind hf s
  rw [← hbind, run_bind]
  cases y.run (get s) with
  | ok a t => rfl
  | stop e t => rfl

theorem follows_update {f : σ → σ} (h : ∀ s, get (f s) = get s) :
    Follows get (update f : Prog ε σ Unit) (pure ()) := by
  intro s
  change Outcome.ok () (get s) = Outcome.ok () (get (f s))
  rw [h s]

theorem follows_require (c : Prop) [Decidable c] (e : ε) :
    Follows get (require c e : Prog ε σ Unit) (require c e) := by
  intro s
  by_cases hc : c
  · simp [require, hc, Outcome.seen]
  · simp [require, hc, Outcome.seen]

theorem follows_zoom {put : τ → σ → σ} (h : ∀ t s, get (put t s) = t) (y : Prog ε τ α) :
    Follows get (zoom get put y) y := by
  intro s
  cases hy : y.run (get s) with
  | ok a t =>
      rw [zoom_of_ok hy]
      exact congrArg (Outcome.ok a) (h t s).symm
  | stop e t =>
      rw [zoom_of_stop hy]
      exact congrArg (Outcome.stop e) (h t s).symm

theorem follows_forRange {f : ℕ → Prog ε σ Unit} {g : ℕ → Prog ε τ Unit}
    (h : ∀ i, Follows get (f i) (g i)) (n : ℕ) :
    Follows get (forRange n f) (forRange n g) := by
  induction n with
  | zero => exact follows_pure ()
  | succ n ih => exact ih.bind fun _ => h n

end

end Prog

/-! ## Runs of a step relation -/

/-- What holds at the start and is kept by every step holds along the run. -/
theorem reach_invariant {σ : Type} {step : σ → σ → Prop} {inv : σ → Prop}
    (hstep : ∀ s s', step s s' → inv s → inv s') {s t : σ}
    (hrun : Relation.ReflTransGen step s t) (hinit : inv s) : inv t := by
  induction hrun with
  | refl => exact hinit
  | tail _ hst ih => exact hstep _ _ hst ih
