import Mathlib.Data.List.Nodup
import Mathlib.Data.List.Infix
import Mathlib.Data.List.Count

/-!
# Linearizability by linearization points

Calls of an object overlap: each has a moment at which it is made and, unless it is still
running, a later one at which it returns. The history of the calls is *linearizable* if there
is an order in which the object could have served them one by one with the same results, such
that a call that returned before another was made comes before it (`Linearization`).

The usual way to see this is to mark in each call the moment at which it takes effect. If the
calls take effect between their beginning and their end, at most once each
(`Disciplined`), and the object, asked in the order of these moments, gives the same results
(`Object.Legal`), then the history is linearizable (`linearizable_of_points`).

Calls have identities of an arbitrary type `κ`; a party that makes several calls in a row has
several identities.
-/

namespace Linearize

variable {κ ω ρ σ : Type}

/-- An object that serves one operation after the other. -/
structure Object (ω ρ σ : Type) where
  init : σ
  apply : σ → ω → σ × ρ

/-- A call with its operation and its result. -/
structure Served (κ ω ρ : Type) where
  call : κ
  op : ω
  result : ρ

/-- From the state `s`, the calls can be served in this order and lead to `t`. -/
def Object.Legal (obj : Object ω ρ σ) (s : σ) : List (Served κ ω ρ) → σ → Prop
  | [], t => s = t
  | c :: calls, t => (obj.apply s c.op).2 = c.result ∧ obj.Legal (obj.apply s c.op).1 calls t

/-- What is seen of calls from outside. -/
inductive Event (κ ω ρ : Type) where
  | call (k : κ) (o : ω)
  | ret (k : κ) (r : ρ)

/-- An order in which the calls of a history can be served. -/
structure Linearization (obj : Object ω ρ σ) (history : List (Event κ ω ρ))
    (order : List (Served κ ω ρ)) : Prop where
  legal : ∃ t, obj.Legal obj.init order t
  nodup : (order.map Served.call).Nodup
  called : ∀ c ∈ order, Event.call c.call c.op ∈ history
  returned : ∀ k r, Event.ret k r ∈ history → ∃ c ∈ order, c.call = k ∧ c.result = r
  ordered : ∀ before after, history = before ++ after → ∀ k r, Event.ret k r ∈ before →
    ∀ c ∈ order, Event.call c.call c.op ∈ after →
      ∃ first rest, order = first ++ rest ∧ c ∈ rest ∧ ∃ c' ∈ first, c'.call = k

/-- The calls of a history can be served one by one. -/
def Linearizable (obj : Object ω ρ σ) (history : List (Event κ ω ρ)) : Prop :=
  ∃ order, Linearization obj history order

/-! ## Points -/

/-- The moments of a call: it is made, takes effect and returns. -/
inductive Mark (κ ω ρ : Type) where
  | call (k : κ) (o : ω)
  | point (k : κ) (o : ω) (r : ρ)
  | ret (k : κ) (r : ρ)

/-- The call that a moment belongs to. -/
def Mark.caller : Mark κ ω ρ → κ
  | .call k _ => k
  | .point k _ _ => k
  | .ret k _ => k

/-- What is seen of a moment from outside. -/
def Mark.event : Mark κ ω ρ → Option (Event κ ω ρ)
  | .call k o => some (.call k o)
  | .point _ _ _ => none
  | .ret k r => some (.ret k r)

/-- The call that takes effect at a moment. -/
def Mark.served : Mark κ ω ρ → Option (Served κ ω ρ)
  | .call _ _ => none
  | .point k o r => some ⟨k, o, r⟩
  | .ret _ _ => none

/-- What is seen of a trace from outside. -/
def visible (trace : List (Mark κ ω ρ)) : List (Event κ ω ρ) := trace.filterMap Mark.event

/-- The calls in the order in which they take effect. -/
def points (trace : List (Mark κ ω ρ)) : List (Served κ ω ρ) := trace.filterMap Mark.served

/-- The moments of one call. -/
def marksOf [DecidableEq κ] (k : κ) (trace : List (Mark κ ω ρ)) : List (Mark κ ω ρ) :=
  trace.filter fun m => m.caller = k

/-- Each call is made, then takes effect, then returns, with one result; or it has not come to
the end of this yet. -/
def Disciplined [DecidableEq κ] (trace : List (Mark κ ω ρ)) : Prop :=
  ∀ k, ∃ o r, marksOf k trace <+: [.call k o, .point k o r, .ret k r]

/-! ## Serving one more call -/

theorem Object.legal_append {obj : Object ω ρ σ} {s t : σ} {calls : List (Served κ ω ρ)}
    {c : Served κ ω ρ} (h : obj.Legal s calls t) (hr : (obj.apply t c.op).2 = c.result) :
    obj.Legal s (calls ++ [c]) (obj.apply t c.op).1 := by
  induction calls generalizing s with
  | nil =>
      have hst : s = t := h
      rw [hst]
      exact ⟨hr, rfl⟩
  | cons d calls ih => exact ⟨h.1, ih h.2⟩

/-! ## What a trace holds -/

/-- What is seen of a moment from outside shows which moment it is. -/
def Event.mark : Event κ ω ρ → Mark κ ω ρ
  | .call k o => .call k o
  | .ret k r => .ret k r

theorem Mark.event_eq_some {m : Mark κ ω ρ} {e : Event κ ω ρ} :
    m.event = some e ↔ m = e.mark := by
  cases m <;> cases e <;> simp [Mark.event, Event.mark]

theorem mem_visible {trace : List (Mark κ ω ρ)} {e : Event κ ω ρ} :
    e ∈ visible trace ↔ e.mark ∈ trace := by
  unfold visible
  simp only [List.mem_filterMap, Mark.event_eq_some, exists_eq_right]

theorem Mark.served_eq_some {m : Mark κ ω ρ} {c : Served κ ω ρ} :
    m.served = some c ↔ m = .point c.call c.op c.result := by
  cases c
  cases m <;> simp [Mark.served]

theorem mem_points {trace : List (Mark κ ω ρ)} {c : Served κ ω ρ} :
    c ∈ points trace ↔ Mark.point c.call c.op c.result ∈ trace := by
  unfold points
  simp only [List.mem_filterMap, Mark.served_eq_some, exists_eq_right]

theorem points_append (before after : List (Mark κ ω ρ)) :
    points (before ++ after) = points before ++ points after :=
  List.filterMap_append

/-! ## From points to an order -/

section

variable [DecidableEq κ] {trace : List (Mark κ ω ρ)}

theorem mem_marksOf {k : κ} {m : Mark κ ω ρ} : m ∈ marksOf k trace ↔ m ∈ trace ∧ m.caller = k := by
  unfold marksOf
  rw [List.mem_filter, decide_eq_true_eq]

/-- The call of `k` takes effect at a moment of `k`. -/
theorem points_marksOf (k : κ) (trace : List (Mark κ ω ρ)) :
    points (marksOf k trace) = (points trace).filter fun c => c.call = k := by
  unfold points marksOf
  rw [List.filterMap_filter, List.filter_filterMap]
  congr 1
  funext m
  cases m with
  | call k' o => simp [Mark.served]
  | ret k' r => simp [Mark.served]
  | point k' o r =>
      by_cases hk : k' = k
      · simp [Mark.served, Mark.caller, Option.filter, hk]
      · simp [Mark.served, Mark.caller, Option.filter, hk]

theorem marksOf_append (k : κ) (before after : List (Mark κ ω ρ)) :
    marksOf k (before ++ after) = marksOf k before ++ marksOf k after :=
  List.filter_append before after

/-- The beginning of a disciplined trace is disciplined. -/
theorem Disciplined.of_append {before after : List (Mark κ ω ρ)}
    (h : Disciplined (before ++ after)) : Disciplined before := by
  intro k
  rcases h k with ⟨o, r, hpre⟩
  rw [marksOf_append] at hpre
  exact ⟨o, r, (List.prefix_append _ _).trans hpre⟩

/-- A call that has returned has taken effect, with the result it returned. -/
theorem Disciplined.point_of_ret (h : Disciplined trace) {k : κ} {r : ρ}
    (hret : Mark.ret k r ∈ trace) : ∃ o, Mark.point k o r ∈ trace := by
  rcases h k with ⟨o, r', hpre⟩
  have hin : Mark.ret k r ∈ marksOf k trace := mem_marksOf.2 ⟨hret, rfl⟩
  -- the return is the last of the three moments, so the call has come to its end
  have hr : r = r' := by
    have := hpre.subset hin
    simpa using this
  have hall : marksOf k trace = [.call k o, .point k o r', .ret k r'] := by
    simp only [List.prefix_cons_iff, List.prefix_nil] at hpre
    rcases hpre with hnil | ⟨_, hl, hnil | ⟨_, rfl, hnil | ⟨_, rfl, rfl⟩⟩⟩
    · rw [hnil] at hin
      exact absurd hin List.not_mem_nil
    · subst hnil
      rw [hl] at hin
      simp at hin
    · subst hnil
      rw [hl] at hin
      simp at hin
    · exact hl
  refine ⟨o, (mem_marksOf (k := k)).1 ?_ |>.1⟩
  rw [hall, hr]
  simp

/-- A call that takes effect has been made. -/
theorem Disciplined.call_of_point (h : Disciplined trace) {k : κ} {o : ω} {r : ρ}
    (hpoint : Mark.point k o r ∈ trace) : Mark.call k o ∈ trace := by
  rcases h k with ⟨o', r', hpre⟩
  have hin : Mark.point k o r ∈ marksOf k trace := mem_marksOf.2 ⟨hpoint, rfl⟩
  have ho : o = o' := by
    have := hpre.subset hin
    simp only [List.mem_cons, reduceCtorEq, Mark.point.injEq, true_and, false_or,
      List.not_mem_nil, or_false] at this
    exact this.1
  rw [List.prefix_cons_iff] at hpre
  rcases hpre with hnil | ⟨_, hl, _⟩
  · rw [hnil] at hin
    exact absurd hin List.not_mem_nil
  · refine ((mem_marksOf (k := k)).1 ?_).1
    rw [hl, ho]
    exact List.mem_cons_self

/-- A call has no moment before it is made. -/
theorem Disciplined.not_before_call {before after : List (Mark κ ω ρ)}
    (h : Disciplined (before ++ after)) {k : κ} {o : ω} (hcall : Mark.call k o ∈ after) :
    marksOf k before = [] := by
  rcases h k with ⟨o', r, hpre⟩
  rw [marksOf_append] at hpre
  cases hb : marksOf k before with
  | nil => rfl
  | cons m marks =>
      -- the first of the three moments is taken, and the other two are no calls
      rw [hb, List.cons_append, List.cons_prefix_cons] at hpre
      have hin : Mark.call k o ∈ marks ++ marksOf k after :=
        List.mem_append_right _ (mem_marksOf.2 ⟨hcall, rfl⟩)
      have := hpre.2.subset hin
      simp at this

/-- No call takes effect twice. -/
theorem Disciplined.points_nodup (h : Disciplined trace) :
    ((points trace).map Served.call).Nodup := by
  rw [List.nodup_iff_count_le_one]
  intro k
  rcases h k with ⟨o, r, hpre⟩
  calc ((points trace).map Served.call).count k
      = ((points trace).filter fun c => c.call = k).length := by
        rw [List.count_eq_countP, List.countP_map, List.countP_eq_length_filter]
        rfl
    _ = (points (marksOf k trace)).length := by rw [points_marksOf]
    _ ≤ (points [.call k o, .point k o r, .ret k r]).length :=
        (hpre.filterMap Mark.served).length_le
    _ = 1 := rfl

/-- If every call takes effect once between its beginning and its end, and the object serves
the calls in this order with their results, then the history is linearizable. -/
theorem linearizable_of_points {obj : Object ω ρ σ} {t : σ} (h : Disciplined trace)
    (hlegal : obj.Legal obj.init (points trace) t) : Linearizable obj (visible trace) := by
  refine ⟨points trace, ⟨t, hlegal⟩, h.points_nodup, ?_, ?_, ?_⟩
  · intro c hc
    exact mem_visible.2 (h.call_of_point (mem_points.1 hc))
  · intro k r hret
    rcases h.point_of_ret (mem_visible.1 hret) with ⟨o, hpoint⟩
    exact ⟨⟨k, o, r⟩, mem_points.2 hpoint, rfl, rfl⟩
  · intro before after hsplit k r hret c hc hcall
    -- the history is cut where the trace is
    rcases List.filterMap_eq_append_iff.1 hsplit with ⟨first, rest, htrace, hfirst, hrest⟩
    subst htrace
    have hret : Mark.ret k r ∈ first := by
      rw [← hfirst] at hret
      exact mem_visible.1 hret
    have hcall : Mark.call c.call c.op ∈ rest := by
      rw [← hrest] at hcall
      exact mem_visible.1 hcall
    refine ⟨points first, points rest, points_append first rest, ?_, ?_⟩
    · rw [points_append, List.mem_append] at hc
      refine hc.resolve_left fun hc => ?_
      have hin : Mark.point c.call c.op c.result ∈ marksOf c.call first :=
        mem_marksOf.2 ⟨mem_points.1 hc, rfl⟩
      rw [h.not_before_call hcall] at hin
      exact List.not_mem_nil hin
    · rcases h.of_append.point_of_ret hret with ⟨o, hpoint⟩
      exact ⟨⟨k, o, r⟩, mem_points.2 hpoint, rfl⟩

end

end Linearize
