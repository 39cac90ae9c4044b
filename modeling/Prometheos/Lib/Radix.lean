import Mathlib.Data.List.Infix
import Mathlib.Data.Set.Card
import Mathlib.Data.Set.Disjoint
import Mathlib.Data.Set.Finite.List
import Mathlib.Order.BourbakiWitt
import Mathlib.Order.CompletePartialOrder

/-!
# Radix trees in memory

A table is a row of entries; an entry is absent, a leaf, or refers to another table.
What an entry is depends on its level, which goes down by one from a table to the
tables it refers to. The types of tables, indices and entries are arbitrary, and so is
the memory `m` that holds the entries: tables may be shared, or refer to themselves.

* `tableAt m l n p`: the table reached from `n` along the path `p`;
* `walk m l n p`: the leaf met along `p`, with its level;
* `Unshared`: every table is reached along one path only, so there are as many tables as
  paths (`Unshared.ncard_tables`).

In a tree without empty tables the walks show where the tables are
(`exists_tableAt_of_walk_eq`).

A walk reads only the entries on its path (`tableAt_congr`, `walk_congr`), so a change
below one entry shows in the paths through that entry and nowhere else (`Outside`). The
edits of a tree are then a leaf that is stored, an empty table that is installed, an empty
table that is removed, and a tree that is grafted. `Mirror` relates a tree to a copy of it.
-/

namespace Radix

/-- What an entry is. -/
inductive Kind (N : Type) where
  | absent
  | leaf
  | table (n : N)
deriving DecidableEq

variable {N I W : Type} (kind : ℕ → W → Kind N)

/-- The table reached from `n`, which is of level `l`, along a path. -/
def tableAt (m : N → I → W) : ℕ → N → List I → Option N
  | _, n, [] => some n
  | l, n, i :: p =>
      match kind l (m n i) with
      | .table n' => tableAt m (l - 1) n' p
      | _ => none

/-- The leaf met on a path that starts at `n`, and the level it was found at. -/
def walk (m : N → I → W) : ℕ → N → List I → Option (ℕ × W)
  | _, _, [] => none
  | l, n, i :: p =>
      match kind l (m n i) with
      | .absent => none
      | .leaf => some (l, m n i)
      | .table n' => walk m (l - 1) n' p

/-- The tables that are reached. -/
def tables (m : N → I → W) (l : ℕ) (top : N) : Set N := {n | ∃ p, tableAt kind m l top p = some n}

/-- The paths along which a table is reached. -/
def paths (m : N → I → W) (l : ℕ) (top : N) : Set (List I) :=
  {p | ∃ n, tableAt kind m l top p = some n}

/-- No table is reached along two paths. -/
def Unshared (m : N → I → W) (l : ℕ) (top : N) : Prop :=
  ∀ p q n, tableAt kind m l top p = some n → tableAt kind m l top q = some n → p = q

variable {kind} {m m' : N → I → W} {l : ℕ} {n top : N} {p q : List I} {i : I}

/-! ## Paths -/

theorem tableAt_cons_of_table {n' : N} (h : kind l (m n i) = .table n') (p : List I) :
    tableAt kind m l n (i :: p) = tableAt kind m (l - 1) n' p := by
  rw [tableAt, h]

theorem tableAt_cons_of_not (h : ∀ n', kind l (m n i) ≠ .table n') (p : List I) :
    tableAt kind m l n (i :: p) = none := by
  rw [tableAt]
  cases hk : kind l (m n i) with
  | table n' => exact absurd hk (h n')
  | absent => rfl
  | leaf => rfl

theorem walk_cons_of_table {n' : N} (h : kind l (m n i) = .table n') (p : List I) :
    walk kind m l n (i :: p) = walk kind m (l - 1) n' p := by
  rw [walk, h]

theorem walk_cons_of_leaf (h : kind l (m n i) = .leaf) (p : List I) :
    walk kind m l n (i :: p) = some (l, m n i) := by
  rw [walk, h]

theorem walk_cons_of_absent (h : kind l (m n i) = .absent) (p : List I) :
    walk kind m l n (i :: p) = none := by
  rw [walk, h]

theorem tableAt_cons_iff {n' : N} : tableAt kind m l n (i :: p) = some n' ↔
    ∃ n₁, kind l (m n i) = .table n₁ ∧ tableAt kind m (l - 1) n₁ p = some n' := by
  cases hk : kind l (m n i) with
  | table n₁ => simp [tableAt, hk]
  | absent => simp [tableAt, hk]
  | leaf => simp [tableAt, hk]

/-- From a table on, the rest of the path is followed there. -/
theorem tableAt_append {n' : N} (h : tableAt kind m l n p = some n') (q : List I) :
    tableAt kind m l n (p ++ q) = tableAt kind m (l - p.length) n' q := by
  induction p generalizing l n with
  | nil =>
      cases h
      rfl
  | cons i p ih =>
      rcases tableAt_cons_iff.1 h with ⟨n₁, hk, hrest⟩
      rw [List.cons_append, tableAt_cons_of_table hk, ih hrest, List.length_cons, Nat.sub_sub,
        Nat.add_comm]

theorem walk_append {n' : N} (h : tableAt kind m l n p = some n') (q : List I) :
    walk kind m l n (p ++ q) = walk kind m (l - p.length) n' q := by
  induction p generalizing l n with
  | nil =>
      cases h
      rfl
  | cons i p ih =>
      rcases tableAt_cons_iff.1 h with ⟨n₁, hk, hrest⟩
      rw [List.cons_append, walk_cons_of_table hk, ih hrest, List.length_cons, Nat.sub_sub,
        Nat.add_comm]

/-- The tables on the way to a table. -/
theorem tableAt_of_append {n' : N} (h : tableAt kind m l n (p ++ q) = some n') :
    ∃ n₁, tableAt kind m l n p = some n₁ ∧ tableAt kind m (l - p.length) n₁ q = some n' := by
  induction p generalizing l n with
  | nil => exact ⟨n, rfl, h⟩
  | cons i p ih =>
      rcases tableAt_cons_iff.1 h with ⟨n₁, hk, hrest⟩
      rcases ih hrest with ⟨n₂, hp, hq⟩
      refine ⟨n₂, tableAt_cons_iff.2 ⟨n₁, hk, hp⟩, ?_⟩
      rw [List.length_cons, Nat.add_comm, ← Nat.sub_sub]
      exact hq

/-- The last step of a path. -/
theorem tableAt_snoc_iff {n' : N} : tableAt kind m l n (p ++ [i]) = some n' ↔
    ∃ n₁, tableAt kind m l n p = some n₁ ∧ kind (l - p.length) (m n₁ i) = .table n' := by
  constructor
  · intro h
    rcases tableAt_of_append h with ⟨n₁, hp, hi⟩
    rcases tableAt_cons_iff.1 hi with ⟨n₂, hk, hnil⟩
    cases hnil
    exact ⟨n₁, hp, hk⟩
  · rintro ⟨n₁, hp, hk⟩
    rw [tableAt_append hp]
    exact tableAt_cons_iff.2 ⟨n', hk, rfl⟩

/-- If the last level has no tables, paths are no longer than the level. -/
theorem length_of_tableAt {n' : N} (hlast : ∀ w n, kind 0 w ≠ .table n)
    (h : tableAt kind m l n p = some n') : p.length ≤ l := by
  induction p generalizing l n with
  | nil => exact Nat.zero_le l
  | cons i p ih =>
      rcases tableAt_cons_iff.1 h with ⟨n₁, hk, hrest⟩
      have hlen := ih hrest
      cases l with
      | zero => exact absurd hk (hlast _ _)
      | succ l =>
          rw [List.length_cons]
          omega

/-- A table that refers to no other. -/
theorem tableAt_iff_of_no_table (h : ∀ i n', kind l (m n i) ≠ .table n') {f : N} :
    tableAt kind m l n p = some f ↔ p = [] ∧ f = n := by
  cases p with
  | nil =>
      rw [tableAt, Option.some.injEq]
      exact ⟨fun h => ⟨rfl, h.symm⟩, fun h => h.2.symm⟩
  | cons i p =>
      rw [tableAt_cons_of_not (h i)]
      simp

theorem cons_mem_paths_iff : i :: p ∈ paths kind m l n ↔
    ∃ n', kind l (m n i) = .table n' ∧ p ∈ paths kind m (l - 1) n' := by
  constructor
  · rintro ⟨n₁, h⟩
    obtain ⟨n', hk, hp⟩ := tableAt_cons_iff.1 h
    exact ⟨n', hk, n₁, hp⟩
  · rintro ⟨n', hk, n₁, hp⟩
    exact ⟨n₁, tableAt_cons_iff.2 ⟨n', hk, hp⟩⟩

theorem paths_finite [Finite I] (hlast : ∀ w n, kind 0 w ≠ .table n) :
    (paths kind m l top).Finite := by
  apply (List.finite_length_le I l).subset
  rintro p ⟨n, hp⟩
  exact length_of_tableAt hlast hp

/-- Where no table is shared, there are as many tables as paths. -/
theorem Unshared.ncard_tables (hU : Unshared kind m l top) :
    (tables kind m l top).ncard = (paths kind m l top).ncard := by
  symm
  refine Set.ncard_congr (fun p hp => hp.choose) ?_ ?_ ?_
  · intro p hp
    exact ⟨p, hp.choose_spec⟩
  · intro p q hp hq heq
    have hp' := hp.choose_spec
    rw [heq] at hp'
    exact hU p q _ hp' hq.choose_spec
  · rintro n ⟨p, hp⟩
    refine ⟨p, ⟨n, hp⟩, ?_⟩
    have hex : ∃ n', tableAt kind m l top p = some n' := ⟨n, hp⟩
    exact Option.some.inj (hex.choose_spec.symm.trans hp)

/-- A leaf that is met ends the walk. -/
theorem walk_append_of_some {r : ℕ × W} (h : walk kind m l n p = some r) (q : List I) :
    walk kind m l n (p ++ q) = some r := by
  induction p generalizing l n with
  | nil => cases h
  | cons i p ih =>
      cases hk : kind l (m n i) with
      | table n₁ =>
          rw [walk_cons_of_table hk] at h
          rw [List.cons_append, walk_cons_of_table hk, ih h]
      | leaf =>
          rw [walk_cons_of_leaf hk] at h
          rw [List.cons_append, walk_cons_of_leaf hk, h]
      | absent =>
          rw [walk_cons_of_absent hk] at h
          cases h

/-- Where the leaf of a walk is. -/
theorem exists_of_walk {l' : ℕ} {w : W} (h : walk kind m l n q = some (l', w)) :
    ∃ p i r n', q = p ++ i :: r ∧ tableAt kind m l n p = some n' ∧
      kind (l - p.length) (m n' i) = .leaf ∧ l' = l - p.length ∧ w = m n' i := by
  induction q generalizing l n with
  | nil => cases h
  | cons i q ih =>
      cases hk : kind l (m n i) with
      | absent =>
          rw [walk_cons_of_absent hk] at h
          cases h
      | leaf =>
          rw [walk_cons_of_leaf hk] at h
          cases h
          exact ⟨[], i, q, n, rfl, rfl, hk, rfl, rfl⟩
      | table n₁ =>
          rw [walk_cons_of_table hk] at h
          rcases ih h with ⟨p, j, r, n', rfl, hp, hleaf, hl, hw⟩
          refine ⟨i :: p, j, r, n', rfl, tableAt_cons_iff.2 ⟨n₁, hk, hp⟩, ?_, ?_, hw⟩
          · rw [List.length_cons, Nat.add_comm, ← Nat.sub_sub]
            exact hleaf
          · rw [List.length_cons, Nat.add_comm, ← Nat.sub_sub]
            exact hl

/-- A path that ended in an absent entry goes no further. -/
theorem walk_append_of_none (hw : walk kind m l n p = none) (ht : tableAt kind m l n p = none)
    (q : List I) : walk kind m l n (p ++ q) = none := by
  induction p generalizing l n with
  | nil => cases ht
  | cons i p ih =>
      cases hk : kind l (m n i) with
      | table n₁ =>
          rw [walk_cons_of_table hk] at hw
          rw [tableAt_cons_of_table hk] at ht
          rw [List.cons_append, walk_cons_of_table hk, ih hw ht]
      | leaf =>
          rw [walk_cons_of_leaf hk] at hw
          cases hw
      | absent => rw [List.cons_append, walk_cons_of_absent hk]

/-! ## Trees without empty tables -/

/-- A walk that stops in a table has met no leaf. -/
theorem walk_of_tableAt {n' : N} (h : tableAt kind m l n p = some n') :
    walk kind m l n p = none := by
  have hwalk := walk_append h []
  rw [List.append_nil] at hwalk
  exact hwalk

/-- If no table below the top is empty, then there is a leaf below each of them. -/
theorem exists_walk_below (hlast : ∀ w n, kind 0 w ≠ .table n)
    (hfull : ∀ p n, tableAt kind m l top p = some n → p ≠ [] →
      ∃ i, kind (l - p.length) (m n i) ≠ .absent)
    (hp : tableAt kind m l top p = some n) (hne : p ≠ []) :
    ∃ r, walk kind m l top (p ++ r) ≠ none := by
  -- the levels below the table decrease
  induction hlevel : l - p.length generalizing p n with
  | zero =>
      rcases hfull p n hp hne with ⟨i, hi⟩
      refine ⟨[i], ?_⟩
      rw [walk_append hp]
      rw [hlevel] at hi ⊢
      cases hk : kind 0 (m n i) with
      | absent => exact absurd hk hi
      | leaf => simp [walk_cons_of_leaf hk]
      | table n' => exact absurd hk (hlast _ n')
  | succ k ih =>
      rcases hfull p n hp hne with ⟨i, hi⟩
      cases hk : kind (l - p.length) (m n i) with
      | absent => exact absurd hk hi
      | leaf =>
          refine ⟨[i], ?_⟩
          rw [walk_append hp]
          simp [walk_cons_of_leaf hk]
      | table n' =>
          have hp' : tableAt kind m l top (p ++ [i]) = some n' := tableAt_snoc_iff.2 ⟨n, hp, hk⟩
          have hlevel' : l - (p ++ [i]).length = k := by
            rw [List.length_append, List.length_singleton]
            omega
          rcases ih hp' (by simp) hlevel' with ⟨r, hr⟩
          refine ⟨i :: r, ?_⟩
          rw [List.append_assoc, List.singleton_append] at hr
          exact hr

/-- Where no table is empty, the walks show where the tables are. -/
theorem exists_tableAt_of_walk_eq {top' : N} (hlast : ∀ w n, kind 0 w ≠ .table n)
    (hfull : ∀ p n, tableAt kind m l top p = some n → p ≠ [] →
      ∃ i, kind (l - p.length) (m n i) ≠ .absent)
    (hwalk : ∀ q, walk kind m' l top' q = walk kind m l top q)
    (hp : tableAt kind m l top p = some n) : ∃ n', tableAt kind m' l top' p = some n' := by
  by_cases hne : p = []
  · subst hne
    exact ⟨top', rfl⟩
  · rcases exists_walk_below hlast hfull hp hne with ⟨r, hr⟩
    rw [← Option.ne_none_iff_exists']
    intro hnone
    have hw : walk kind m' l top' p = none := (hwalk p).trans (walk_of_tableAt hp)
    exact hr ((hwalk _).symm.trans (walk_append_of_none hw hnone r))

/-! ## Paths read their own entries only -/

theorem tableAt_congr
    (h : ∀ p i r n', q = p ++ i :: r → tableAt kind m l n p = some n' → m' n' i = m n' i) :
    tableAt kind m' l n q = tableAt kind m l n q := by
  induction q generalizing l n with
  | nil => rfl
  | cons i q ih =>
      have hi : m' n i = m n i := h [] i q n rfl rfl
      cases hk : kind l (m n i) with
      | table n₁ =>
          -- both paths go on in the same table
          have hk' : kind l (m' n i) = .table n₁ := by rw [hi, hk]
          rw [tableAt_cons_of_table hk, tableAt_cons_of_table hk']
          refine ih ?_
          intro p j r n' hq hp
          exact h (i :: p) j r n' (by rw [hq]; rfl) (tableAt_cons_iff.2 ⟨n₁, hk, hp⟩)
      | leaf =>
          rw [tableAt, tableAt, hi, hk]
      | absent =>
          rw [tableAt, tableAt, hi, hk]

theorem walk_congr
    (h : ∀ p i r n', q = p ++ i :: r → tableAt kind m l n p = some n' → m' n' i = m n' i) :
    walk kind m' l n q = walk kind m l n q := by
  induction q generalizing l n with
  | nil => rfl
  | cons i q ih =>
      have hi : m' n i = m n i := h [] i q n rfl rfl
      cases hk : kind l (m n i) with
      | table n₁ =>
          have hk' : kind l (m' n i) = .table n₁ := by rw [hi, hk]
          rw [walk_cons_of_table hk, walk_cons_of_table hk']
          refine ih ?_
          intro p j r n' hq hp
          exact h (i :: p) j r n' (by rw [hq]; rfl) (tableAt_cons_iff.2 ⟨n₁, hk, hp⟩)
      | leaf =>
          rw [walk, walk, hi, hk]
      | absent =>
          rw [walk, walk, hi, hk]

/-! ## A change below one entry -/

/-- From `m` to `m'`, only what is below the entry `i` of the table at `p` may change. -/
def Outside (kind : ℕ → W → Kind N) (m m' : N → I → W) (l : ℕ) (top : N) (p : List I) (i : I) :
    Prop :=
  ∀ q n j, tableAt kind m l top q = some n → ¬ p ++ [i] <+: q ++ [j] → m' n j = m n j

/-- In an unshared tree it is enough to look at the tables. -/
theorem Unshared.outside (hU : Unshared kind m l top) (hp : tableAt kind m l top p = some n)
    (h : ∀ n', n' ∈ tables kind m l top → tableAt kind m l top (p ++ [i]) ≠ some n' →
      ∀ j, ¬ (n' = n ∧ j = i) → m' n' j = m n' j) :
    Outside kind m m' l top p i := by
  intro q n' j hq hnot
  refine h n' ⟨q, hq⟩ ?_ j ?_
  · intro hbelow
    rw [hU _ _ _ hbelow hq] at hnot
    exact hnot (List.prefix_append _ _)
  · rintro ⟨rfl, rfl⟩
    rw [hU _ _ _ hp hq] at hnot
    exact hnot (List.prefix_refl _)

section

variable (hO : Outside kind m m' l top p i)
include hO

theorem Outside.tableAt_eq (hq : ¬ p ++ [i] <+: q) :
    tableAt kind m' l top q = tableAt kind m l top q := by
  refine tableAt_congr ?_
  rintro q' j r n' rfl hq'
  refine hO q' n' j hq' ?_
  intro hpre
  exact hq (hpre.trans ⟨r, by simp⟩)

theorem Outside.walk_eq (hq : ¬ p ++ [i] <+: q) :
    walk kind m' l top q = walk kind m l top q := by
  refine walk_congr ?_
  rintro q' j r n' rfl hq'
  refine hO q' n' j hq' ?_
  intro hpre
  exact hq (hpre.trans ⟨r, by simp⟩)

/-- The table whose entry changes is reached as before. -/
theorem Outside.tableAt_self (hp : tableAt kind m l top p = some n) :
    tableAt kind m' l top p = some n := by
  rw [hO.tableAt_eq, hp]
  intro hpre
  have hlen := hpre.length_le
  rw [List.length_append, List.length_singleton] at hlen
  omega

theorem Outside.tableAt_below (hp : tableAt kind m l top p = some n) (r : List I) :
    tableAt kind m' l top (p ++ [i] ++ r) = tableAt kind m' (l - p.length) n (i :: r) := by
  rw [List.append_assoc, tableAt_append (hO.tableAt_self hp)]
  rfl

theorem Outside.walk_below (hp : tableAt kind m l top p = some n) (r : List I) :
    walk kind m' l top (p ++ [i] ++ r) = walk kind m' (l - p.length) n (i :: r) := by
  rw [List.append_assoc, walk_append (hO.tableAt_self hp)]
  rfl

/-! ## The three edits -/

/-- An entry that is no table is replaced by one that is no table. -/
theorem Outside.tableAt_store (hp : tableAt kind m l top p = some n)
    (hold : ∀ n', kind (l - p.length) (m n i) ≠ .table n')
    (hnew : ∀ n', kind (l - p.length) (m' n i) ≠ .table n') (q : List I) :
    tableAt kind m' l top q = tableAt kind m l top q := by
  by_cases hq : p ++ [i] <+: q
  · rcases hq with ⟨r, rfl⟩
    rw [hO.tableAt_below hp, List.append_assoc, tableAt_append hp, List.singleton_append,
      tableAt_cons_of_not hnew, tableAt_cons_of_not hold]
  · exact hO.tableAt_eq hq

/-- An empty table is installed. -/
theorem Outside.tableAt_install [DecidableEq I] {n₁ : N} (hp : tableAt kind m l top p = some n)
    (hold : ∀ n', kind (l - p.length) (m n i) ≠ .table n')
    (hnew : kind (l - p.length) (m' n i) = .table n₁)
    (hempty : ∀ j n', kind (l - p.length - 1) (m' n₁ j) ≠ .table n') (q : List I) :
    tableAt kind m' l top q = if q = p ++ [i] then some n₁ else tableAt kind m l top q := by
  by_cases hq : p ++ [i] <+: q
  · -- a path through the entry ends in the new table, or leads nowhere
    rcases hq with ⟨r, rfl⟩
    rw [hO.tableAt_below hp, tableAt_cons_of_table hnew]
    cases r with
    | nil => rw [List.append_nil, if_pos rfl, tableAt]
    | cons j r =>
        have hne : p ++ [i] ++ j :: r ≠ p ++ [i] := by simp
        rw [tableAt_cons_of_not (hempty j), if_neg hne, List.append_assoc, tableAt_append hp,
          List.singleton_append, tableAt_cons_of_not hold]
  · rw [hO.tableAt_eq hq, if_neg]
    rintro rfl
    exact hq (List.prefix_refl _)

/-- A table without tables below it is removed. -/
theorem Outside.tableAt_remove [DecidableEq I] {n₁ : N} (hp : tableAt kind m l top p = some n)
    (hold : kind (l - p.length) (m n i) = .table n₁)
    (hnew : ∀ n', kind (l - p.length) (m' n i) ≠ .table n')
    (hempty : ∀ j n', kind (l - p.length - 1) (m n₁ j) ≠ .table n') (q : List I) :
    tableAt kind m' l top q = if q = p ++ [i] then none else tableAt kind m l top q := by
  by_cases hq : p ++ [i] <+: q
  · -- a path through the entry ended in the table that goes, or led nowhere
    rcases hq with ⟨r, rfl⟩
    rw [hO.tableAt_below hp, tableAt_cons_of_not hnew]
    cases r with
    | nil => rw [List.append_nil, if_pos rfl]
    | cons j r =>
        have hne : p ++ [i] ++ j :: r ≠ p ++ [i] := by simp
        rw [if_neg hne, List.append_assoc, tableAt_append hp, List.singleton_append,
          tableAt_cons_of_table hold, tableAt_cons_of_not (hempty j)]
  · rw [hO.tableAt_eq hq, if_neg]
    rintro rfl
    exact hq (List.prefix_refl _)

/-- Walks do not see an empty table that is installed. -/
theorem Outside.walk_install {n₁ : N} (hp : tableAt kind m l top p = some n)
    (hold : kind (l - p.length) (m n i) = .absent)
    (hnew : kind (l - p.length) (m' n i) = .table n₁)
    (hempty : ∀ j, kind (l - p.length - 1) (m' n₁ j) = .absent) (q : List I) :
    walk kind m' l top q = walk kind m l top q := by
  by_cases hq : p ++ [i] <+: q
  · -- the walk ended at the entry, and now ends in the empty table
    rcases hq with ⟨r, rfl⟩
    rw [hO.walk_below hp, walk_cons_of_table hnew, List.append_assoc, walk_append hp,
      List.singleton_append, walk_cons_of_absent hold]
    cases r with
    | nil => rfl
    | cons j r => exact walk_cons_of_absent (hempty j) r
  · exact hO.walk_eq hq

/-- Walks do not see an empty table that is removed. -/
theorem Outside.walk_remove {n₁ : N} (hp : tableAt kind m l top p = some n)
    (hold : kind (l - p.length) (m n i) = .table n₁)
    (hnew : kind (l - p.length) (m' n i) = .absent)
    (hempty : ∀ j, kind (l - p.length - 1) (m n₁ j) = .absent) (q : List I) :
    walk kind m' l top q = walk kind m l top q := by
  by_cases hq : p ++ [i] <+: q
  · rcases hq with ⟨r, rfl⟩
    rw [hO.walk_below hp, walk_cons_of_absent hnew, List.append_assoc, walk_append hp,
      List.singleton_append, walk_cons_of_table hold]
    cases r with
    | nil => rfl
    | cons j r => exact (walk_cons_of_absent (hempty j) r).symm
  · exact hO.walk_eq hq

/-! ## Grafting -/

/-- A whole tree is hung below an entry that was no table. -/
theorem Outside.tables_graft {n₁ : N} (hp : tableAt kind m l top p = some n)
    (hold : ∀ n', kind (l - p.length) (m n i) ≠ .table n')
    (hnew : kind (l - p.length) (m' n i) = .table n₁) :
    tables kind m' l top = tables kind m l top ∪ tables kind m' (l - p.length - 1) n₁ := by
  ext f
  constructor
  · rintro ⟨q, hq⟩
    by_cases hpre : p ++ [i] <+: q
    · rcases hpre with ⟨r, rfl⟩
      rw [hO.tableAt_below hp, tableAt_cons_of_table hnew] at hq
      exact Or.inr ⟨r, hq⟩
    · rw [hO.tableAt_eq hpre] at hq
      exact Or.inl ⟨q, hq⟩
  · rintro (⟨q, hq⟩ | ⟨r, hr⟩)
    · refine ⟨q, ?_⟩
      rw [hO.tableAt_eq, hq]
      -- no path to a table went through the entry
      rintro ⟨r, rfl⟩
      rw [List.append_assoc, tableAt_append hp, List.singleton_append,
        tableAt_cons_of_not hold] at hq
      cases hq
    · refine ⟨p ++ [i] ++ r, ?_⟩
      rw [hO.tableAt_below hp, tableAt_cons_of_table hnew, hr]

/-- Grafting an unshared tree of other tables shares nothing. -/
theorem Outside.unshared_graft {n₁ : N} (hU : Unshared kind m l top)
    (hp : tableAt kind m l top p = some n) (hnew : kind (l - p.length) (m' n i) = .table n₁)
    (hU₁ : Unshared kind m' (l - p.length - 1) n₁)
    (hdisj : Disjoint (tables kind m l top) (tables kind m' (l - p.length - 1) n₁)) :
    Unshared kind m' l top := by
  -- a path through the entry ends in the new tree, another one in the old tree
  have hin : ∀ r f, tableAt kind m' l top (p ++ [i] ++ r) = some f →
      tableAt kind m' (l - p.length - 1) n₁ r = some f := by
    intro r f h
    rw [hO.tableAt_below hp, tableAt_cons_of_table hnew] at h
    exact h
  intro a b f ha hb
  by_cases hpa : p ++ [i] <+: a
  · rcases hpa with ⟨r, rfl⟩
    by_cases hpb : p ++ [i] <+: b
    · rcases hpb with ⟨r', rfl⟩
      rw [hU₁ r r' f (hin r f ha) (hin r' f hb)]
    · rw [hO.tableAt_eq hpb] at hb
      exact absurd ⟨r, hin r f ha⟩ (Set.disjoint_left.1 hdisj ⟨b, hb⟩)
  · rw [hO.tableAt_eq hpa] at ha
    by_cases hpb : p ++ [i] <+: b
    · rcases hpb with ⟨r', rfl⟩
      exact absurd ⟨r', hin r' f hb⟩ (Set.disjoint_left.1 hdisj ⟨a, ha⟩)
    · rw [hO.tableAt_eq hpb] at hb
      exact hU a b f ha hb

end

/-! ## Copies -/

/-- Every table of the tree at `n` has a counterpart at the same path of the tree at `n'`,
and `R` relates the two, on their level. -/
def Mirror (kind : ℕ → W → Kind N) (R : ℕ → N → N → Prop) (m m' : N → I → W) (l : ℕ)
    (n n' : N) : Prop :=
  ∀ p f, tableAt kind m l n p = some f →
    ∃ f', tableAt kind m' l n' p = some f' ∧ R (l - p.length) f f'

section

variable {R R' : ℕ → N → N → Prop} {m'' : N → I → W} {n' : N}

theorem Mirror.self (h : Mirror kind R m m' l n n') : R l n n' := by
  rcases h [] n rfl with ⟨f, hf, hR⟩
  cases Option.some.inj hf
  exact hR

/-- A table is mirrored if its entries are and the tables below are. -/
theorem Mirror.node (hself : R l n n') (hbelow : ∀ i n₁, kind l (m n i) = .table n₁ →
      ∃ n₁', kind l (m' n' i) = .table n₁' ∧ Mirror kind R m m' (l - 1) n₁ n₁') :
    Mirror kind R m m' l n n' := by
  intro p f hp
  cases p with
  | nil =>
      cases Option.some.inj hp
      exact ⟨n', rfl, hself⟩
  | cons i p =>
      rcases tableAt_cons_iff.1 hp with ⟨n₁, hk, hp₁⟩
      rcases hbelow i n₁ hk with ⟨n₁', hk', hM⟩
      rcases hM p f hp₁ with ⟨f', hf', hR⟩
      refine ⟨f', tableAt_cons_iff.2 ⟨n₁', hk', hf'⟩, ?_⟩
      rw [List.length_cons, Nat.add_comm, ← Nat.sub_sub]
      exact hR

theorem Mirror.child (h : Mirror kind R m m' l n n') {n₁ : N} (hk : kind l (m n i) = .table n₁) :
    ∃ n₁', kind l (m' n' i) = .table n₁' ∧ Mirror kind R m m' (l - 1) n₁ n₁' := by
  rcases h [i] n₁ (tableAt_cons_iff.2 ⟨n₁, hk, rfl⟩) with ⟨n₁', hn₁, -⟩
  rcases tableAt_cons_iff.1 hn₁ with ⟨n₂, hk', hn₂⟩
  cases Option.some.inj hn₂
  refine ⟨n₁', hk', ?_⟩
  intro p f hp
  rcases h (i :: p) f (tableAt_cons_iff.2 ⟨n₁, hk, hp⟩) with ⟨f', hf', hR⟩
  rcases tableAt_cons_iff.1 hf' with ⟨n₃, hk₃, hf₃⟩
  cases hk'.symm.trans hk₃
  refine ⟨f', hf₃, ?_⟩
  rw [List.length_cons, Nat.add_comm, ← Nat.sub_sub] at hR
  exact hR

/-- A copy that has no tables of its own has no paths of its own. -/
theorem Mirror.tableAt_source (h : Mirror kind R m m' l n n')
    (hR : ∀ k f f' i, R k f f' → (∀ n₁, kind k (m f i) ≠ .table n₁) →
      ∀ n₁, kind k (m' f' i) ≠ .table n₁) {f' : N} (hp : tableAt kind m' l n' p = some f') :
    ∃ f, tableAt kind m l n p = some f ∧ R (l - p.length) f f' := by
  induction p generalizing l n n' with
  | nil =>
      cases Option.some.inj hp
      exact ⟨n, rfl, h.self⟩
  | cons i p ih =>
      rcases tableAt_cons_iff.1 hp with ⟨n₂, hk₂, hp₂⟩
      -- an entry that is no table in the source is none in the copy
      cases hk : kind l (m n i) with
      | absent => exact absurd hk₂ (hR l n n' i h.self (by simp [hk]) n₂)
      | leaf => exact absurd hk₂ (hR l n n' i h.self (by simp [hk]) n₂)
      | table n₁ =>
          rcases h.child hk with ⟨n₁', hk', hM⟩
          cases hk'.symm.trans hk₂
          rcases ih hM hp₂ with ⟨f, hf, hRf⟩
          refine ⟨f, tableAt_cons_iff.2 ⟨n₁, hk, hf⟩, ?_⟩
          rw [List.length_cons, Nat.add_comm, ← Nat.sub_sub]
          exact hRf

/-- The copy may change where it is not reached. -/
theorem Mirror.congr (h : Mirror kind R m m' l n n')
    (hmem : ∀ f ∈ tables kind m' l n', m'' f = m' f)
    (hR : ∀ k f f', f' ∈ tables kind m' l n' → R k f f' → R' k f f') :
    Mirror kind R' m m'' l n n' := by
  intro p f hp
  rcases h p f hp with ⟨f', hf', hRf⟩
  refine ⟨f', ?_, hR _ f f' ⟨p, hf'⟩ hRf⟩
  rw [tableAt_congr, hf']
  intro q i r g _ hq
  exact congrFun (hmem g ⟨q, hq⟩) i

/-- Walks through a copy that keeps the leaves find the same leaves. -/
theorem Mirror.walk_eq (h : Mirror kind R m m' l n n')
    (habsent : ∀ l f f' i, R l f f' → kind l (m f i) = .absent → kind l (m' f' i) = .absent)
    (hleaf : ∀ l f f' i, R l f f' → kind l (m f i) = .leaf → m' f' i = m f i) (q : List I) :
    walk kind m' l n' q = walk kind m l n q := by
  induction q generalizing l n n' with
  | nil => rfl
  | cons i q ih =>
      cases hk : kind l (m n i) with
      | absent =>
          rw [walk_cons_of_absent hk, walk_cons_of_absent (habsent l n n' i h.self hk)]
      | leaf =>
          have heq := hleaf l n n' i h.self hk
          have hk' : kind l (m' n' i) = .leaf := by rw [heq, hk]
          rw [walk_cons_of_leaf hk, walk_cons_of_leaf hk', heq]
      | table n₁ =>
          rcases h.child hk with ⟨n₁', hk', hM⟩
          rw [walk_cons_of_table hk, walk_cons_of_table hk']
          exact ih hM

end

end Radix
