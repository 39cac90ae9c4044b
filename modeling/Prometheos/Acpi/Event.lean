import Mathlib.Algebra.Group.Nat.Defs
import Mathlib.Logic.Function.Basic
import Prometheos.Lib.Prog
import Prometheos.Lib.Linearize

/-!
# Events (`acpi/uacpi.rs`)

uACPI waits on an event with `SimpleEvent::decrement`, raises it with
`uacpi_kernel_signal_event` and clears it with `uacpi_kernel_reset_event`. Any number of calls
of the three run at once, one atomic access of the counter at a time (`EventRun.step`); between
the load and the compare-exchange of a `decrement` the others may bring the counter to any
value, also back to the one that was loaded.

The counter of an event is a semaphore (`semaphore`). A call takes effect at its last access of
the counter: `decrement` at the load that finds 0 or at the compare-exchange that succeeds, the
other two at their only access.

* `EventRun.step_serves`: an access changes nothing, or serves one call as the semaphore does.
* `EventRun.Inv`: what every run keeps, whatever the interleaving.
* `event_exact`: the counter is what the signals since the last reset leave after the
  decrements since then, and the history is linearizable.

The counter is a `usize` that `fetch_add` wraps around, so this holds up to `2 ^ 64` signals.
-/

namespace Prometheos.Acpi

open Linearize

/-! ## The semaphore -/

/-- A function that is called on an event. -/
inductive EventOp where
  | decrement
  | signal
  | reset
deriving DecidableEq

/-- What a call returns. -/
inductive Answer where
  | unit
  | bool (b : Bool)
deriving DecidableEq

/-- What an event is for: `decrement` takes a signal if there is one. -/
def semaphore : Object EventOp Answer ℕ where
  init := 0
  apply n
    | .decrement => if n = 0 then (0, .bool false) else (n - 1, .bool true)
    | .signal => (n + 1, .unit)
    | .reset => (0, .unit)

/-- The signals and the decrements that took one, since the last reset. -/
structure Tally where
  signals : ℕ
  taken : ℕ

/-- The tally after one more call has taken effect. -/
def Tally.note {κ : Type} (t : Tally) (c : Served κ EventOp Answer) : Tally :=
  match c.op with
  | .decrement => if c.result = .bool true then { t with taken := t.taken + 1 } else t
  | .signal => { t with signals := t.signals + 1 }
  | .reset => ⟨0, 0⟩

/-- The tally of calls in the order in which they took effect. -/
def tally {κ : Type} (calls : List (Served κ EventOp Answer)) : Tally :=
  calls.foldl Tally.note ⟨0, 0⟩

/-- The number of signals. -/
def signals {κ : Type} (calls : List (Served κ EventOp Answer)) : ℕ :=
  calls.countP fun c => c.op = .signal

/-! ## Calls at work -/

/-- `SimpleEvent`. -/
structure SimpleEvent where
  counter : ℕ

/-- The place that a call has reached. -/
inductive EventAt where
  /-- It is not made yet. -/
  | idle
  /-- Before its first access of the counter; in `decrement`, before `counter.load(..)`. -/
  | called (o : EventOp)
  /-- In `decrement`, before `compare_exchange(value, value - 1, ..)`. -/
  | loaded (value : ℕ)
  /-- Before its return. -/
  | done (o : EventOp) (r : Answer)
  | returned (o : EventOp) (r : Answer)

/-- An event and all calls on it, with a record of what they did. -/
structure EventRun (κ : Type) where
  event : SimpleEvent
  place : κ → EventAt
  trace : List (Mark κ EventOp Answer)

/-- The counter of the event. -/
def EventRun.counter {κ : Type} (g : EventRun κ) : ℕ := g.event.counter

variable {κ : Type} [DecidableEq κ]

/-- The call `k` goes to a place. -/
def EventRun.goto (g : EventRun κ) (k : κ) (place : EventAt) (counter : ℕ)
    (marks : List (Mark κ EventOp Answer)) : EventRun κ :=
  ⟨⟨counter⟩, Function.update g.place k place, g.trace ++ marks⟩

/-- The call `k` takes effect and leaves the counter with a value. -/
def EventRun.finish (g : EventRun κ) (k : κ) (o : EventOp) (r : Answer) (counter : ℕ) :
    EventRun κ :=
  g.goto k (.done o r) counter [.point k o r]

/-- The next step of the call `k`, which calls `o` if it is not made yet. -/
def EventRun.step (g : EventRun κ) (k : κ) (o : EventOp) : EventRun κ :=
  match g.place k with
  | .idle => g.goto k (.called o) g.counter [.call k o]
  | .called .decrement =>
      -- `let value = self.counter.load(..); if value == 0 { return false; }`
      if g.counter = 0 then g.finish k .decrement (.bool false) g.counter
      else g.goto k (.loaded g.counter) g.counter []
  | .loaded value =>
      if g.counter = value then
        -- `Ok(v) if v != 0 => return true, Ok(_) => return false`
        g.finish k .decrement (.bool (value != 0)) (value - 1)
      else
        -- `Err(_) => continue`
        g.goto k (.called .decrement) g.counter []
  | .called .signal => g.finish k .signal .unit ((g.counter + 1) % 2 ^ 64)
  | .called .reset => g.finish k .reset .unit 0
  | .done op r => g.goto k (.returned op r) g.counter [.ret k r]
  | .returned _ _ => g

/-- Some call makes its next step. -/
def EventRun.Step (g g' : EventRun κ) : Prop := ∃ k o, g' = g.step k o

/-- `uacpi_kernel_create_event`: the counter is 0, and no call is made. -/
def EventRun.create : EventRun κ := ⟨⟨0⟩, fun _ => .idle, []⟩

/-- A run of steps of any calls. -/
def EventRun.Reach : EventRun κ → EventRun κ → Prop := Relation.ReflTransGen EventRun.Step

/-! ## One step -/

/-- The moments of the call `k` when it has come to a place. -/
def EventAt.marks (k : κ) : EventAt → List (Mark κ EventOp Answer)
  | .idle => []
  | .called o => [.call k o]
  | .loaded _ => [.call k .decrement]
  | .done o r => [.call k o, .point k o r]
  | .returned o r => [.call k o, .point k o r, .ret k r]

/-- An access with which the call `k` takes effect: its function, its result and the counter
that it leaves. -/
inductive EventRun.Effect (g : EventRun κ) (k : κ) : EventOp → Answer → ℕ → Prop
  | empty : g.place k = .called .decrement → g.counter = 0 →
      Effect g k .decrement (.bool false) g.counter
  | exchange {value : ℕ} : g.place k = .loaded value → g.counter = value →
      Effect g k .decrement (.bool (value != 0)) (value - 1)
  | signal : g.place k = .called .signal → Effect g k .signal .unit ((g.counter + 1) % 2 ^ 64)
  | reset : g.place k = .called .reset → Effect g k .reset .unit 0

/-- Any other step of the call `k`: it goes to a place and records that it is made or
returns. -/
structure EventRun.Quiet (g : EventRun κ) (k : κ) (place : EventAt)
    (marks : List (Mark κ EventOp Answer)) : Prop where
  own : ∀ m ∈ marks, m.caller = k
  no_points : points marks = []
  marks_eq : place.marks k = (g.place k).marks k ++ marks
  loaded : ∀ value, place = .loaded value → g.place k ≠ place → value ≠ 0

namespace EventRun

variable {g g' : EventRun κ} {k : κ}

theorem goto_place_self (g : EventRun κ) (k : κ) (place : EventAt) (counter : ℕ)
    (marks : List (Mark κ EventOp Answer)) : (g.goto k place counter marks).place k = place :=
  Function.update_self (β := fun _ => EventAt) k place g.place

theorem goto_place_of_ne (g : EventRun κ) {j k : κ} (place : EventAt) (counter : ℕ)
    (marks : List (Mark κ EventOp Answer)) (h : j ≠ k) :
    (g.goto k place counter marks).place j = g.place j :=
  Function.update_of_ne (β := fun _ => EventAt) h place g.place

/-- A step that stays where it is. -/
theorem goto_stay (g : EventRun κ) (k : κ) : g.goto k (g.place k) g.counter [] = g := by
  unfold goto
  rw [Function.update_eq_self, List.append_nil]
  rfl

omit [DecidableEq κ] in
/-- A step that leads to no loaded value. -/
theorem Quiet.of_ne_loaded {place : EventAt} {marks : List (Mark κ EventOp Answer)}
    (hown : ∀ m ∈ marks, m.caller = k) (hpoints : points marks = [])
    (hmarks : place.marks k = (g.place k).marks k ++ marks)
    (hne : ∀ value, place ≠ .loaded value) : g.Quiet k place marks :=
  ⟨hown, hpoints, hmarks, fun value hv => absurd hv (hne value)⟩

/-- What a step can be. -/
theorem step_cases (g : EventRun κ) (k : κ) (o : EventOp) :
    (∃ place marks, g.step k o = g.goto k place g.counter marks ∧ g.Quiet k place marks) ∨
    (∃ op r counter, g.step k o = g.finish k op r counter ∧ g.Effect k op r counter) := by
  unfold step
  split
  case h_1 hk =>
    -- the call is made
    refine Or.inl ⟨_, _, rfl, .of_ne_loaded ?_ rfl ?_ ?_⟩
    · simp [Mark.caller]
    · rw [hk]
      rfl
    · simp
  case h_2 hk =>
    split_ifs with hc
    · exact Or.inr ⟨_, _, _, rfl, .empty hk hc⟩
    · refine Or.inl ⟨_, _, rfl, ?_, rfl, ?_, ?_⟩
      · simp
      · rw [hk]
        rfl
      · intro value hv _
        cases hv
        exact hc
  case h_3 value hk =>
    split_ifs with hc
    · exact Or.inr ⟨_, _, _, rfl, .exchange hk hc⟩
    · -- the compare-exchange fails, and the loop begins again
      refine Or.inl ⟨_, _, rfl, .of_ne_loaded ?_ rfl ?_ ?_⟩
      · simp
      · rw [hk]
        rfl
      · simp
  case h_4 hk => exact Or.inr ⟨_, _, _, rfl, .signal hk⟩
  case h_5 hk => exact Or.inr ⟨_, _, _, rfl, .reset hk⟩
  case h_6 op r hk =>
    refine Or.inl ⟨_, _, rfl, .of_ne_loaded ?_ rfl ?_ ?_⟩
    · simp [Mark.caller]
    · rw [hk]
      rfl
    · simp
  case h_7 =>
    -- a call that has returned stays where it is
    refine Or.inl ⟨g.place k, [], (g.goto_stay k).symm, ?_, rfl, ?_, ?_⟩
    · simp
    · rw [List.append_nil]
    · exact fun _ _ h => absurd rfl h

omit [DecidableEq κ] in
/-- A call that takes effect has been made, and has not taken effect before. -/
theorem Effect.marks_eq {op : EventOp} {r : Answer} {counter : ℕ}
    (h : g.Effect k op r counter) : (g.place k).marks k = [.call k op] := by
  cases h with
  | empty hk _ => rw [hk]; rfl
  | exchange hk _ => rw [hk]; rfl
  | signal hk => rw [hk]; rfl
  | reset hk => rw [hk]; rfl

/-! ## Every run -/

/-- What every run keeps: the record of each call is that of the place it has come to, and no
`decrement` goes on with a 0 that it loaded. -/
structure Inv (g : EventRun κ) : Prop where
  marks : ∀ k, marksOf k g.trace = (g.place k).marks k
  loaded : ∀ k value, g.place k = .loaded value → value ≠ 0

theorem Inv.create : Inv (create : EventRun κ) := by
  constructor
  · intro k
    rfl
  · intro k value h
    cases h

theorem Inv.goto {place : EventAt} {counter : ℕ} {marks : List (Mark κ EventOp Answer)}
    (h : Inv g) (hown : ∀ m ∈ marks, m.caller = k)
    (hmarks : place.marks k = (g.place k).marks k ++ marks)
    (hloaded : ∀ value, place = .loaded value → value ≠ 0) :
    Inv (g.goto k place counter marks) := by
  constructor
  · intro j
    have happend : marksOf j (g.goto k place counter marks).trace =
        marksOf j g.trace ++ marksOf j marks := marksOf_append j g.trace marks
    rw [happend, h.marks j]
    by_cases hj : j = k
    · subst hj
      have hall : marksOf j marks = marks :=
        List.filter_eq_self.2 fun m hm => decide_eq_true (hown m hm)
      rw [hall, goto_place_self, hmarks]
    · -- the record of the others is as it was
      have hnone : marksOf j marks = [] := by
        refine List.filter_eq_nil_iff.2 fun m hm hmj => hj ?_
        rw [← hown m hm]
        exact (of_decide_eq_true hmj).symm
      rw [hnone, List.append_nil, goto_place_of_ne _ _ _ _ hj]
  · intro j value hv
    by_cases hj : j = k
    · subst hj
      rw [goto_place_self] at hv
      exact hloaded value hv
    · rw [goto_place_of_ne _ _ _ _ hj] at hv
      exact h.loaded j value hv

theorem Inv.step {o : EventOp} (h : Inv g) : Inv (g.step k o) := by
  rcases g.step_cases k o with ⟨place, marks, hstep, hq⟩ | ⟨op, r, counter, hstep, he⟩
  · rw [hstep]
    refine h.goto hq.own hq.marks_eq fun value hv => ?_
    by_cases hsame : g.place k = place
    · exact h.loaded k value (hsame.trans hv)
    · exact hq.loaded value hv hsame
  · rw [hstep]
    refine h.goto ?_ ?_ nofun
    · intro m hm
      rw [List.mem_singleton.1 hm]
      rfl
    · rw [he.marks_eq]
      rfl

theorem Reach.inv (h : Reach create g) : Inv g := by
  refine reach_invariant ?_ h Inv.create
  rintro g₁ g₂ ⟨k, o, rfl⟩ hg
  exact hg.step

/-- Each call is made, takes effect and returns, in this order. -/
theorem Inv.disciplined (h : Inv g) : Disciplined g.trace := by
  intro k
  rw [h.marks k]
  cases g.place k with
  | idle => exact ⟨.reset, .unit, List.nil_prefix⟩
  | called o => exact ⟨o, .unit, List.prefix_append [_] _⟩
  | loaded value => exact ⟨.decrement, .unit, List.prefix_append [_] _⟩
  | done o r => exact ⟨o, r, List.prefix_append [_, _] _⟩
  | returned o r => exact ⟨o, r, List.prefix_rfl⟩

/-! ## The counter is a semaphore -/

/-- The counter of an event that is not signalled too often changes as a semaphore does. -/
theorem Effect.apply {op : EventOp} {r : Answer} {counter : ℕ} (h : g.Effect k op r counter)
    (hg : Inv g) (hlt : op = .signal → g.counter + 1 < 2 ^ 64) :
    semaphore.apply g.counter op = (counter, r) := by
  cases h with
  | empty hk hc =>
      rw [hc]
      rfl
  | exchange hk hc =>
      have hne : g.counter ≠ 0 := fun h0 => hg.loaded k _ hk (hc.symm.trans h0)
      have hr : (g.counter != 0) = true := bne_iff_ne.2 hne
      rw [← hc, hr]
      exact if_neg hne
  | signal hk =>
      rw [Nat.mod_eq_of_lt (hlt rfl)]
      rfl
  | reset hk => rfl

theorem points_goto {place : EventAt} {counter : ℕ} {marks : List (Mark κ EventOp Answer)} :
    points (g.goto k place counter marks).trace = points g.trace ++ points marks :=
  points_append g.trace marks

end EventRun

/-- A step at which the call `k` takes effect as it does on a semaphore. A `decrement` that
takes a signal does so at its compare-exchange, and one that takes none finds the counter
at 0 and leaves it there. -/
structure EventRun.Serves (g : EventRun κ) (k : κ) (g' : EventRun κ) (op : EventOp)
    (r : Answer) : Prop where
  points_eq : points g'.trace = points g.trace ++ [⟨k, op, r⟩]
  apply_eq : semaphore.apply g.counter op = (g'.counter, r)
  taken : op = .decrement → r = .bool true →
    g.place k = .loaded g.counter ∧ g'.counter + 1 = g.counter
  empty : op = .decrement → r = .bool false → g.counter = 0 ∧ g'.counter = 0

section

variable {g g' : EventRun κ} {k : κ}

omit [DecidableEq κ] in
theorem signals_append (calls : List (Served κ EventOp Answer)) (c : Served κ EventOp Answer) :
    signals (calls ++ [c]) = signals calls + if c.op = .signal then 1 else 0 := by
  unfold signals
  rw [List.countP_append, List.countP_singleton]
  simp only [decide_eq_true_eq]

/-- With a call, the counter of a semaphore goes up only by a signal. -/
theorem semaphore_apply_le (n : ℕ) (op : EventOp) :
    (semaphore.apply n op).1 ≤ n + if op = .signal then 1 else 0 := by
  cases op with
  | decrement =>
      show (if n = 0 then ((0, .bool false) : ℕ × Answer) else (n - 1, .bool true)).1 ≤ n
      split_ifs with hn
      · exact Nat.zero_le n
      · exact Nat.sub_le n 1
  | signal => exact le_rfl
  | reset => exact Nat.zero_le _

theorem EventRun.Effect.serves {op : EventOp} {r : Answer} {counter : ℕ}
    (h : g.Effect k op r counter) (hg : g.Inv)
    (hlt : op = .signal → g.counter + 1 < 2 ^ 64) :
    g.Serves k (g.finish k op r counter) op r := by
  have happly : semaphore.apply g.counter op = (counter, r) := h.apply hg hlt
  refine ⟨points_goto, happly, ?_, ?_⟩
  · intro hop hr
    subst hop
    cases h with
    | empty hk hc => exact absurd hr (by decide)
    | exchange hk hc =>
        have hne := hg.loaded k _ hk
        subst hc
        exact ⟨hk, Nat.succ_pred_eq_of_ne_zero hne⟩
  · intro hop hr
    subst hop
    cases h with
    | empty hk hc => exact ⟨hc, hc⟩
    | exchange hk hc => exact absurd (bne_eq_false_iff_eq.1 (Answer.bool.inj hr)) (hg.loaded k _ hk)

/-- An access changes nothing, or serves one call as the semaphore does. -/
theorem EventRun.step_serves {o : EventOp} (hg : g.Inv)
    (hle : g.counter ≤ signals (points g.trace))
    (hlt : signals (points (g.step k o).trace) < 2 ^ 64) :
    ((g.step k o).counter = g.counter ∧ points (g.step k o).trace = points g.trace) ∨
      ∃ op r, g.Serves k (g.step k o) op r := by
  rcases g.step_cases k o with ⟨place, marks, hstep, hq⟩ | ⟨op, r, counter, hstep, he⟩
  · left
    rw [hstep, points_goto, hq.no_points, List.append_nil]
    exact ⟨rfl, rfl⟩
  · right
    refine ⟨op, r, ?_⟩
    rw [hstep]
    apply he.serves hg
    intro hop
    -- this signal is counted too
    rw [hstep] at hlt
    have hpoints : points (g.finish k op r counter).trace = points g.trace ++ [⟨k, op, r⟩] :=
      points_goto
    rw [hpoints, signals_append, if_pos hop] at hlt
    omega

/-- What a run has served only grows. -/
theorem EventRun.signals_step (g : EventRun κ) (k : κ) (o : EventOp) :
    signals (points g.trace) ≤ signals (points (g.step k o).trace) := by
  have hgrow : ∃ calls, points (g.step k o).trace = points g.trace ++ calls := by
    rcases g.step_cases k o with ⟨place, marks, hstep, _⟩ | ⟨op, r, counter, hstep, _⟩
    · rw [hstep]
      exact ⟨_, points_goto⟩
    · rw [hstep]
      exact ⟨_, points_goto⟩
  rcases hgrow with ⟨calls, hcalls⟩
  rw [hcalls]
  unfold signals
  rw [List.countP_append]
  exact Nat.le_add_right _ _

theorem EventRun.Reach.signals_le (h : Reach g g') :
    signals (points g.trace) ≤ signals (points g'.trace) := by
  induction h with
  | refl => exact le_rfl
  | @tail g₁ g₂ _ hst ih =>
      rcases hst with ⟨k, o, rfl⟩
      exact ih.trans (g₁.signals_step k o)

/-- The semaphore serves the calls in the order in which they take effect. -/
theorem EventRun.Reach.legal (h : Reach create g) (hlt : signals (points g.trace) < 2 ^ 64) :
    semaphore.Legal 0 (points g.trace) g.counter ∧ g.counter ≤ signals (points g.trace) := by
  induction h with
  | refl => exact ⟨rfl, le_rfl⟩
  | @tail g₁ g₂ hrun hst ih =>
      rcases hst with ⟨k, o, rfl⟩
      have ⟨hlegal, hle⟩ := ih ((g₁.signals_step k o).trans_lt hlt)
      rcases step_serves (Reach.inv hrun) hle hlt with ⟨hc, hp⟩ | ⟨op, r, hs⟩
      · rw [hc, hp]
        exact ⟨hlegal, hle⟩
      · have hcounter : (semaphore.apply g₁.counter op).1 = (g₁.step k o).counter :=
          congrArg Prod.fst hs.apply_eq
        rw [hs.points_eq, ← hcounter]
        constructor
        · exact Object.legal_append (c := ⟨k, op, r⟩) hlegal (congrArg Prod.snd hs.apply_eq)
        · rw [signals_append]
          exact (semaphore_apply_le g₁.counter op).trans (Nat.add_le_add_right hle _)

omit [DecidableEq κ] in
/-- The semaphore holds the signals that no decrement has taken, since the last reset. -/
theorem legal_tally {calls : List (Served κ EventOp Answer)} {n m : ℕ} {t : Tally}
    (h : semaphore.Legal n calls m) (ht : n + t.taken = t.signals) :
    m + (calls.foldl Tally.note t).taken = (calls.foldl Tally.note t).signals := by
  induction calls generalizing n t with
  | nil =>
      have hnm : n = m := h
      rw [← hnm]
      exact ht
  | cons c calls ih =>
      refine ih h.2 ?_
      have hr := h.1
      unfold Tally.note
      cases hop : c.op with
      | decrement =>
          rw [hop] at hr
          by_cases hn : n = 0
          · -- nothing to take
            have hres : c.result = .bool false := by
              rw [← hr]
              exact congrArg Prod.snd (if_pos hn)
            simp only [hres, semaphore, hn, ↓reduceIte, Answer.bool.injEq, Bool.false_eq_true]
            omega
          · have hres : c.result = .bool true := by
              rw [← hr]
              exact congrArg Prod.snd (if_neg hn)
            simp only [hres, semaphore, hn, ↓reduceIte]
            omega
      | signal =>
          simp only [semaphore]
          omega
      | reset => rfl

/-- The next steps of the calls that a scheduler picks. -/
def EventRun.run (g : EventRun κ) (schedule : List (κ × EventOp)) : EventRun κ :=
  schedule.foldl (fun g s => g.step s.1 s.2) g

theorem EventRun.reach_run (g : EventRun κ) (schedule : List (κ × EventOp)) :
    Reach g (g.run schedule) := by
  induction schedule generalizing g with
  | nil => exact .refl
  | cons s schedule ih => exact .head ⟨s.1, s.2, rfl⟩ (ih (g.step s.1 s.2))

/-- With fewer than `2 ^ 64` signals, an event is a counting semaphore, however the accesses of
its calls interleave: the counter is what the signals since the last reset leave after the
decrements that took one; every step of the run changes nothing or serves one call; each call
takes effect once, between its beginning and its end, with the result it returns; and the
history of all calls is one of a semaphore. -/
theorem event_exact (hrun : EventRun.Reach EventRun.create g)
    (hsignals : signals (points g.trace) < 2 ^ 64) :
    g.counter + (tally (points g.trace)).taken = (tally (points g.trace)).signals ∧
    (∀ (g₁ : EventRun κ) k o, EventRun.Reach EventRun.create g₁ →
      EventRun.Reach (g₁.step k o) g →
        ((g₁.step k o).counter = g₁.counter ∧ points (g₁.step k o).trace = points g₁.trace) ∨
          ∃ op r, g₁.Serves k (g₁.step k o) op r) ∧
    Disciplined g.trace ∧ Linearizable semaphore (visible g.trace) := by
  have hlegal := (hrun.legal hsignals).1
  have hdisciplined : Disciplined g.trace := hrun.inv.disciplined
  refine ⟨legal_tally hlegal rfl, ?_, hdisciplined, ?_⟩
  · intro g₁ k o hrun₁ hrest
    have hlt : signals (points (g₁.step k o).trace) < 2 ^ 64 := hrest.signals_le.trans_lt hsignals
    have hlt₁ := (g₁.signals_step k o).trans_lt hlt
    exact EventRun.step_serves hrun₁.inv (hrun₁.legal hlt₁).2 hlt
  · exact linearizable_of_points hdisciplined hlegal

/-- A `decrement` loads 1; another one takes the signal, and a new signal comes before the
compare-exchange of the first. -/
def signalledAgain : List (ℕ × EventOp) :=
  [(0, .signal), (0, .signal), (1, .decrement), (1, .decrement), (2, .decrement),
    (2, .decrement), (2, .decrement), (3, .signal), (3, .signal), (1, .decrement)]

theorem event_exact_signalled_again :
    (EventRun.create.run signalledAgain).counter = 0 ∧
    (tally (points (EventRun.create.run signalledAgain).trace)).taken = 2 ∧
    (tally (points (EventRun.create.run signalledAgain).trace)).signals = 2 ∧
    Linearizable semaphore (visible (EventRun.create.run signalledAgain).trace) := by
  have hlt : signals (points (EventRun.create.run signalledAgain).trace) < 2 ^ 64 := by
    decide
  exact ⟨rfl, rfl, rfl, (event_exact (EventRun.reach_run _ _) hlt).2.2.2⟩

end

end Prometheos.Acpi
