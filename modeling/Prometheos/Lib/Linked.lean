import Mathlib.Data.List.Nodup
import Mathlib.Data.List.Basic

/-!
# Linked lists whose links are stored in their nodes

The links are given as functions `next prev : α → Option α` on an arbitrary type
of nodes, so the library does not care where a node keeps them.

* `ChainTo next h l t`: from the pointer `h` the forward links run through `l`
  and end in the pointer `t`; `Chain` is the case that ends in `none`;
* `BackTo prev p l`: every node of `l` points back to its predecessor, the first
  one to `p`;
* `DList` is a doubly linked list with a head pointer.

A chain that ends has no repeated node (`Chain.nodup`): finiteness and
acyclicity need not be assumed. `DList.push` and `DList.erase` are the two edits;
their hypotheses say what the new link functions are on the nodes that stay.
-/

namespace Linked

variable {α : Type}

/-- The forward links run from the pointer `h` through `l` to the pointer `t`. -/
def ChainTo (next : α → Option α) : Option α → List α → Option α → Prop
  | h, [], t => h = t
  | h, x :: xs, t => h = some x ∧ ChainTo next (next x) xs t

/-- The forward links run from `h` through `l` and end there. -/
def Chain (next : α → Option α) (h : Option α) (l : List α) : Prop := ChainTo next h l none

/-- Every node of `l` points back to its predecessor, the first one to `p`. -/
def BackTo (prev : α → Option α) : Option α → List α → Prop
  | _, [] => True
  | p, x :: xs => prev x = p ∧ BackTo prev (some x) xs

/-- A doubly linked list with head pointer `h` and nodes `l`. -/
structure DList (next prev : α → Option α) (h : Option α) (l : List α) : Prop where
  chain : Chain next h l
  back : BackTo prev none l

variable {next next' prev prev' : α → Option α} {h t : Option α}

/-! ## Chains -/

theorem chainTo_append {l₁ l₂ : List α} :
    ChainTo next h (l₁ ++ l₂) t ↔ ∃ m, ChainTo next h l₁ m ∧ ChainTo next m l₂ t := by
  induction l₁ generalizing h with
  | nil => simp [ChainTo]
  | cons x xs ih => simp [ChainTo, ih, and_assoc]

theorem ChainTo.congr {l : List α} (hc : ChainTo next h l t)
    (hn : ∀ x ∈ l, next' x = next x) : ChainTo next' h l t := by
  induction l generalizing h with
  | nil => exact hc
  | cons x xs ih =>
      refine ⟨hc.1, ?_⟩
      rw [hn x (by simp)]
      exact ih hc.2 fun y hy => hn y (by simp [hy])

/-- The head pointer and the links determine the nodes. -/
theorem Chain.unique {l l' : List α} (hc : Chain next h l) (hc' : Chain next h l') : l = l' := by
  induction l generalizing h l' with
  | nil =>
      cases l' with
      | nil => rfl
      | cons y ys =>
          have h1 : h = none := hc
          rw [h1] at hc'
          exact absurd hc'.1 (by simp)
  | cons x xs ih =>
      cases l' with
      | nil =>
          have h1 : h = none := hc'
          rw [h1] at hc
          exact absurd hc.1 (by simp)
      | cons y ys =>
          obtain rfl : x = y := Option.some.inj (hc.1.symm.trans hc'.1)
          rw [ih hc.2 hc'.2]

/-- A chain that ends visits no node twice. -/
theorem Chain.nodup {l : List α} (hc : Chain next h l) : l.Nodup := by
  induction l generalizing h with
  | nil => exact List.nodup_nil
  | cons x xs ih =>
      refine List.nodup_cons.2 ⟨fun hx => ?_, ih hc.2⟩
      -- a second visit of `x` would start the same tail again
      obtain ⟨l₁, l₂, rfl⟩ := List.append_of_mem hx
      obtain ⟨m, -, hm⟩ := chainTo_append.1 hc.2
      have hlen := congrArg List.length (Chain.unique hc.2 hm.2)
      simp at hlen
      omega

theorem Chain.eq_nil_of_none {l : List α} (hc : Chain next none l) : l = [] := by
  cases l with
  | nil => rfl
  | cons x xs => exact absurd hc.1 (by simp)

/-- Taking `x` out of a chain: its predecessor, or the head when there is none,
skips to what follows it. -/
theorem Chain.erase {l₁ l₂ : List α} {x : α} {h' : Option α}
    (hc : Chain next h (l₁ ++ x :: l₂))
    (hhead : l₁.getLast? = none → h' = next x) (hhead' : l₁.getLast? ≠ none → h' = h)
    (hlast : ∀ y, l₁.getLast? = some y → next' y = next x)
    (hkeep : ∀ y ∈ l₁ ++ l₂, l₁.getLast? ≠ some y → next' y = next y) :
    Chain next' h' (l₁ ++ l₂) := by
  have hnd := hc.nodup
  obtain ⟨m, hm, rfl, hl₂⟩ := chainTo_append.1 hc
  rcases List.eq_nil_or_concat l₁ with rfl | ⟨l₀, y, rfl⟩
  · rw [hhead rfl]
    exact hl₂.congr fun z hz => hkeep z hz (by simp)
  · rw [List.concat_eq_append] at *
    have hgl : (l₀ ++ [y]).getLast? = some y := by simp
    rw [hgl] at hhead' hlast hkeep
    rw [hhead' (by simp)]
    have hnd' := hnd
    rw [List.append_assoc, List.nodup_append] at hnd'
    obtain ⟨m, hm₀, hy⟩ := chainTo_append.1 hm
    refine chainTo_append.2 ⟨next x, chainTo_append.2 ⟨m, ?_, hy.1, hlast y rfl⟩, ?_⟩
    · refine hm₀.congr fun z hz => hkeep z (by simp [hz]) ?_
      intro heq
      exact hnd'.2.2 z hz y (by simp) (Option.some.inj heq).symm
    · refine hl₂.congr fun z hz => hkeep z (by simp [hz]) ?_
      intro heq
      obtain rfl := Option.some.inj heq
      exact (List.nodup_cons.1 hnd'.2.1).1 (by simp [hz])

/-! ## Back links -/

theorem backTo_append {p : Option α} {l₁ l₂ : List α} :
    BackTo prev p (l₁ ++ l₂) ↔ BackTo prev p l₁ ∧ BackTo prev (l₁.getLast?.or p) l₂ := by
  induction l₁ generalizing p with
  | nil => simp [BackTo]
  | cons x xs ih =>
      simp only [List.cons_append, BackTo, ih, and_assoc, List.getLast?_cons]
      cases xs.getLast? <;> simp

theorem BackTo.congr {p : Option α} {l : List α} (hb : BackTo prev p l)
    (hp : ∀ x ∈ l, prev' x = prev x) : BackTo prev' p l := by
  induction l generalizing p with
  | nil => trivial
  | cons x xs ih =>
      exact ⟨(hp x (by simp)).trans hb.1, ih hb.2 fun y hy => hp y (by simp [hy])⟩

/-- Only the first node has to learn of a new predecessor. -/
theorem BackTo.rehead {p p' : Option α} {l : List α} (hb : BackTo prev p l) (hnd : l.Nodup)
    (hfirst : ∀ y, l.head? = some y → prev' y = p')
    (hkeep : ∀ y ∈ l, l.head? ≠ some y → prev' y = prev y) : BackTo prev' p' l := by
  cases l with
  | nil => trivial
  | cons x xs =>
      refine ⟨hfirst x rfl, hb.2.congr fun y hy => hkeep y (by simp [hy]) ?_⟩
      intro heq
      obtain rfl : x = y := by simpa using heq
      exact (List.nodup_cons.1 hnd).1 hy

/-! ## Doubly linked lists -/

theorem DList.nodup {l : List α} (hl : DList next prev h l) : l.Nodup := hl.chain.nodup

theorem DList.congr {l : List α} (hl : DList next prev h l)
    (hn : ∀ x ∈ l, next' x = next x) (hp : ∀ x ∈ l, prev' x = prev x) :
    DList next' prev' h l :=
  ⟨ChainTo.congr hl.chain hn, hl.back.congr hp⟩

/-- The head pointer points to the first node. -/
theorem Chain.head?_eq {l : List α} (hc : Chain next h l) : l.head? = h := by
  cases l with
  | nil => exact Eq.symm hc
  | cons x xs => exact hc.1.symm

/-- What follows a node in the list is where its forward link points. -/
theorem DList.next_eq {l₁ l₂ : List α} {x : α} (hl : DList next prev h (l₁ ++ x :: l₂)) :
    next x = l₂.head? := by
  obtain ⟨m, -, hm⟩ := chainTo_append.1 hl.chain
  exact (Chain.head?_eq hm.2).symm

/-- What precedes a node in the list is where its backward link points. -/
theorem DList.prev_eq {l₁ l₂ : List α} {x : α} (hl : DList next prev h (l₁ ++ x :: l₂)) :
    prev x = l₁.getLast? := by
  have hb := (backTo_append.1 hl.back).2.1
  rwa [Option.or_none] at hb

/-- Pushing a new node in front. -/
theorem DList.push {l : List α} {x : α} (hl : DList next prev h l)
    (hnx : next' x = h) (hpx : prev' x = none)
    (hnext : ∀ y ∈ l, next' y = next y)
    (hfirst : ∀ y, h = some y → prev' y = some x)
    (hprev : ∀ y ∈ l, h ≠ some y → prev' y = prev y) :
    DList next' prev' (some x) (x :: l) := by
  have hh := hl.chain.head?_eq
  refine ⟨⟨rfl, ?_⟩, hpx, ?_⟩
  · rw [hnx]
    exact ChainTo.congr hl.chain hnext
  · exact hl.back.rehead hl.nodup (by rwa [hh]) (by rwa [hh])

/-- Taking out a node, by making its two neighbours point past it. -/
theorem DList.erase {l₁ l₂ : List α} {x : α} {h' : Option α}
    (hl : DList next prev h (l₁ ++ x :: l₂))
    (hhead : prev x = none → h' = next x) (hhead' : prev x ≠ none → h' = h)
    (hpred : ∀ y, prev x = some y → next' y = next x)
    (hnext : ∀ y ∈ l₁ ++ l₂, prev x ≠ some y → next' y = next y)
    (hsucc : ∀ y, next x = some y → prev' y = prev x)
    (hprev : ∀ y ∈ l₁ ++ l₂, next x ≠ some y → prev' y = prev y) :
    DList next' prev' h' (l₁ ++ l₂) := by
  have hnd := hl.nodup
  rw [hl.prev_eq] at hhead hhead' hpred hnext hsucc
  rw [hl.next_eq] at hsucc hprev
  refine ⟨hl.chain.erase hhead hhead' hpred hnext, backTo_append.2 ⟨?_, ?_⟩⟩
  · refine (backTo_append.1 hl.back).1.congr fun y hy => hprev y (by simp [hy]) ?_
    intro heq
    have hmem : y ∈ l₂ := List.mem_of_mem_head? heq
    exact (List.nodup_append.1 hnd).2.2 y hy y (by simp [hmem]) rfl
  · rw [Option.or_none]
    exact (backTo_append.1 hl.back).2.2.rehead (List.nodup_cons.1 (List.nodup_append.1 hnd).2.1).2
      hsucc fun y hy => hprev y (by simp [hy])

end Linked
