import Prometheos.Lib.Radix
import Prometheos.Pmm.Ownership
import Prometheos.Vmm.Model

/-!
# Page tables as a radix tree

The tables that are reached from the top level form a radix tree: a table is a frame, a
path is a list of indices, and `kind` says what an entry is on a level (the PML4 has
level 3, a PT level 0). `Tree` is the ownership invariant: every table is reached along
one path, the tables are exactly the frames the manager holds, and the physical memory
manager has given out each of them.

The manager changes the tables in three ways, and `Tree` survives each of them: a leaf
is stored (`Tree.store`), an empty table is installed (`Tree.install`), an empty table
is removed (`Tree.remove`).
-/

namespace Prometheos.Vmm

open Pmm
open Radix (Kind Unshared Outside)

/-! ## Entries -/

/-- What an entry of a table of level `l` is. -/
def kind (l : ℕ) (w : Word) : Kind ℕ :=
  if w.getLsbD 0 then
    if l = 0 ∨ l ≤ 2 ∧ w.getLsbD 7 then .leaf else .table (frameOf w)
  else .absent

/-- The entries of the tables in memory. -/
def entries (m : Mem) (f : ℕ) (i : Fin 512) : Word := m f i

section

variable {l f : ℕ} {w : Word}

theorem kind_eq_absent_iff : kind l w = .absent ↔ w.getLsbD 0 = false := by
  unfold kind
  cases w.getLsbD 0 with
  | false => exact ⟨fun _ => rfl, fun _ => rfl⟩
  | true =>
      refine ⟨fun h => ?_, Bool.noConfusion⟩
      rw [if_pos rfl] at h
      split at h
      · cases h
      · cases h

theorem kind_eq_leaf_iff :
    kind l w = .leaf ↔ w.getLsbD 0 = true ∧ (l = 0 ∨ l ≤ 2 ∧ w.getLsbD 7 = true) := by
  unfold kind
  constructor
  · intro h
    split at h
    · rename_i h0
      split at h
      · rename_i hleaf
        exact ⟨h0, hleaf⟩
      · cases h
    · cases h
  · rintro ⟨h0, hleaf⟩
    rw [if_pos h0, if_pos hleaf]

theorem kind_eq_table_iff : kind l w = .table f ↔
    w.getLsbD 0 = true ∧ ¬ (l = 0 ∨ l ≤ 2 ∧ w.getLsbD 7 = true) ∧ frameOf w = f := by
  unfold kind
  constructor
  · intro h
    split at h
    · rename_i h0
      split at h
      · cases h
      · rename_i hleaf
        cases h
        exact ⟨h0, hleaf, rfl⟩
    · cases h
  · rintro ⟨h0, hleaf, rfl⟩
    rw [if_pos h0, if_neg hleaf]

theorem kind_zero_ne_table (w : Word) (f : ℕ) : kind 0 w ≠ .table f := by
  intro h
  exact (kind_eq_table_iff.1 h).2.1 (Or.inl rfl)

/-- An entry of the PML4 is never a leaf. -/
theorem kind_three_ne_leaf (w : Word) : kind 3 w ≠ .leaf := by
  intro h
  have hpage := (kind_eq_leaf_iff.1 h).2
  omega

@[simp] theorem kind_zero_word (l : ℕ) : kind l 0 = .absent := kind_eq_absent_iff.2 rfl

/-- The entry `map` makes for a new table. -/
theorem kind_parentEntry (hl : l ≠ 0) (hf : f < 2 ^ 40) :
    kind l (BitVec.ofNat 64 (f * frameSize) ||| (flagP ||| flagRW ||| flagUS)) = .table f := by
  have hmod : f * frameSize % 4096 = 0 := Nat.mul_mod_left f 4096
  have h7 : (BitVec.ofNat 64 (f * frameSize) ||| (flagP ||| flagRW ||| flagUS)).getLsbD 7 = false :=
    getLsbD_or hmod (by decide) _
  rw [kind_eq_table_iff]
  refine ⟨getLsbD_or hmod (by decide) _, ?_, frameOf_or hf (by decide)⟩
  rw [h7]
  simp [hl]

/-- The entry `map` makes for a page of the base size. -/
theorem kind_ptEntry {phys : ℕ} (flags : PTFlags) (hmod : phys % 4096 = 0) :
    kind 0 (BitVec.ofNat 64 phys ||| (flags.bits ||| flagP)) = .leaf := by
  rw [kind_eq_leaf_iff]
  refine ⟨?_, Or.inl rfl⟩
  rw [getLsbD_or hmod (by decide), BitVec.getLsbD_or]
  simp [flagP]

theorem kind_leafEntry_of_le {phys : ℕ} (flags : Word) (hl : l ≤ 2) (hmod : phys % 4096 = 0) :
    kind l (BitVec.ofNat 64 phys ||| (flags ||| flagP ||| flagPS)) = .leaf := by
  rw [kind_eq_leaf_iff, getLsbD_or hmod (by decide), getLsbD_or hmod (by decide)]
  simp only [BitVec.getLsbD_or]
  simp [flagP, flagPS, hl]

section

variable [X86]

theorem isPresent_iff (l : ℕ) : X86.isPresent w = true ↔ kind l w ≠ .absent := by
  rw [X86.isPresent_eq, Ne, kind_eq_absent_iff, Bool.not_eq_false]

theorem not_isPresent (h : kind l w = .absent) : ¬ X86.isPresent w = true := by
  rw [isPresent_iff l]
  exact not_not_intro h

theorem isPresent_of_leaf (h : kind l w = .leaf) : X86.isPresent w = true := by
  rw [isPresent_iff l, h]
  simp

theorem isPresent_of_table (h : kind l w = .table f) : X86.isPresent w = true := by
  rw [isPresent_iff l, h]
  simp

theorem isPage_of_leaf (hl : 1 ≤ l) (h : kind l w = .leaf) : X86.isPage w = true := by
  rw [X86.isPage_eq]
  rcases (kind_eq_leaf_iff.1 h).2 with h0 | ⟨-, h7⟩
  · omega
  · exact h7

/-- An entry that refers to a table does not map a page. -/
theorem not_isPage_of_table (hl : l ≤ 2) (h : kind l w = .table f) : ¬ X86.isPage w = true := by
  rw [X86.isPage_eq]
  intro hpage
  exact (kind_eq_table_iff.1 h).2.1 (Or.inr ⟨hl, hpage⟩)

theorem address_of_table (h : kind l w = .table f) : X86.address w = f * frameSize := by
  rw [X86.address_eq, toNat_and_addrMask, (kind_eq_table_iff.1 h).2.2]
  rfl

end

end

/-! ## Paths -/

/-- The frame of the PML4. -/
def root (s : Vm) : ℕ := s.topLevel / frameSize

/-- The table at a path. -/
def tableAt (s : Vm) (p : List (Fin 512)) : Option ℕ :=
  Radix.tableAt kind (entries s.phys.mem) 3 (root s) p

/-- The leaf on a path, with its level. -/
def walk (s : Vm) (p : List (Fin 512)) : Option (ℕ × Word) :=
  Radix.walk kind (entries s.phys.mem) 3 (root s) p

/-- The frames of the tables from the table `n` of level `l` on. -/
def tablesIn (m : Mem) (l n : ℕ) : Set ℕ := Radix.tables kind (entries m) l n

theorem self_mem_tablesIn (m : Mem) (l d : ℕ) : d ∈ tablesIn m l d := ⟨[], rfl⟩

theorem tableAt_nil (s : Vm) : tableAt s [] = some (root s) := rfl

theorem tableAt_snoc_iff {s : Vm} {p : List (Fin 512)} {i : Fin 512} {f : ℕ} :
    tableAt s (p ++ [i]) = some f ↔
      ∃ n, tableAt s p = some n ∧ kind (3 - p.length) (s.phys.mem n i) = .table f :=
  Radix.tableAt_snoc_iff

/-- The entry of a table that leads to a table below it. -/
theorem kind_of_tableAt_snoc {s : Vm} {p : List (Fin 512)} {i : Fin 512} {n f : ℕ}
    (hp : tableAt s p = some n) (hf : tableAt s (p ++ [i]) = some f) :
    kind (3 - p.length) (s.phys.mem n i) = .table f := by
  rcases tableAt_snoc_iff.1 hf with ⟨n', hp', hk⟩
  cases Option.some.inj (hp.symm.trans hp')
  exact hk

theorem length_of_tableAt {s : Vm} {p : List (Fin 512)} {n : ℕ} (h : tableAt s p = some n) :
    p.length ≤ 3 := Radix.length_of_tableAt kind_zero_ne_table h

/-- There is no table behind an absent entry. -/
theorem tableAt_snoc_of_absent {s : Vm} {p : List (Fin 512)} {i : Fin 512} {n : ℕ}
    (hp : tableAt s p = some n) (hk : kind (3 - p.length) (s.phys.mem n i) = .absent) :
    tableAt s (p ++ [i]) = none := by
  rw [Option.eq_none_iff_forall_ne_some]
  intro f hf
  cases hk.symm.trans (kind_of_tableAt_snoc hp hf)

theorem walk_append_absent {s : Vm} {p : List (Fin 512)} {i : Fin 512} {n : ℕ}
    (hp : tableAt s p = some n) (hk : kind (3 - p.length) (s.phys.mem n i) = .absent)
    (r : List (Fin 512)) : walk s (p ++ i :: r) = none := by
  have hk' : kind (3 - p.length) (entries s.phys.mem n i) = .absent := hk
  exact (Radix.walk_append hp _).trans (Radix.walk_cons_of_absent hk' r)

theorem walk_append_leaf {s : Vm} {p : List (Fin 512)} {i : Fin 512} {n : ℕ}
    (hp : tableAt s p = some n) (hk : kind (3 - p.length) (s.phys.mem n i) = .leaf)
    (r : List (Fin 512)) : walk s (p ++ i :: r) = some (3 - p.length, s.phys.mem n i) := by
  have hk' : kind (3 - p.length) (entries s.phys.mem n i) = .leaf := hk
  exact (Radix.walk_append hp _).trans (Radix.walk_cons_of_leaf hk' r)

/-- A walk that ends on the level of its last index found the leaf there. -/
theorem leaf_of_walk {s : Vm} {p : List (Fin 512)} {i : Fin 512} {w : Word} (hlen : p.length ≤ 3)
    (h : walk s (p ++ [i]) = some (3 - p.length, w)) : ∃ n, tableAt s p = some n ∧
      kind (3 - p.length) (s.phys.mem n i) = .leaf ∧ w = s.phys.mem n i := by
  rcases Radix.exists_of_walk h with ⟨p', i', r, n, heq, hp, hk, hl, hw⟩
  have hlen' := length_of_tableAt hp
  rcases List.append_inj heq (by omega) with ⟨rfl, hcons⟩
  cases hcons
  exact ⟨n, hp, hk, hw⟩

/-- Where there is no table, the last level is not reached. -/
theorem walk_ne_of_not_table {s : Vm} {p r : List (Fin 512)} {i k : Fin 512} {n : ℕ} {w : Word}
    (hp : tableAt s p = some n) (hno : ∀ f, kind (3 - p.length) (s.phys.mem n i) ≠ .table f)
    (hlen : (p ++ i :: r).length ≤ 3) :
    walk s (p ++ i :: r ++ [k]) ≠ some (4 - (p ++ i :: r ++ [k]).length, w) := by
  intro hw
  have hlevel : 4 - (p ++ i :: r ++ [k]).length = 3 - (p ++ i :: r).length := by
    rw [List.length_append, List.length_singleton]
    omega
  rw [hlevel] at hw
  rcases leaf_of_walk hlen hw with ⟨f, hf, -⟩
  rcases Radix.tableAt_cons_iff.1 ((Radix.tableAt_append hp _).symm.trans hf) with ⟨g, hg, -⟩
  exact hno g hg

/-! ## The ledger of the frames -/

/-- The frames held after the events of a trace, when `init` were held before; `none` if a
frame was allocated that was held, or one was freed that was not. -/
def holdings (init : List ℕ) : List Event → Option (List ℕ)
  | [] => some init
  | .alloc f :: t => (holdings init t).bind fun held => if f ∈ held then none else some (f :: held)
  | .free f :: t =>
      (holdings init t).bind fun held => if f ∈ held then some (held.erase f) else none
  | .store _ :: t => holdings init t
  | .flush :: t => holdings init t

/-- The frames that were freed since the last flush. -/
def unflushed : List Event → List ℕ
  | [] => []
  | .free f :: t => f :: unflushed t
  | .flush :: _ => []
  | .alloc _ :: t => unflushed t
  | .store _ :: t => unflushed t

/-- What the memory that a trace records shows of the tables: at every store the frames of
the tables were held, and a frame that is freed was no table any more. -/
def Seen (init : List ℕ) (top : ℕ) : List Event → Prop
  | [] => True
  | .store m :: t => Seen init top t ∧
      ∃ held, holdings init t = some held ∧ ∀ f ∈ tablesIn m 3 top, f ∈ held
  | .free f :: t => Seen init top t ∧ ∃ m t', t = .store m :: t' ∧ f ∉ tablesIn m 3 top
  | .alloc _ :: t => Seen init top t
  | .flush :: t => Seen init top t

/-- The blocks of the tables. -/
def tableBlocks (held : List ℕ) : List (ℕ × ℕ) := held.map fun f => (f * frameSize, 0)

/-- The ownership invariant: `held` are the tables, `others` the blocks of other clients of
the physical memory manager. -/
structure Tree (init : List ℕ) (others : List (ℕ × ℕ)) (s : Vm) (held : List ℕ) : Prop where
  hhdm_eq : s.hhdmOffset = s.phys.pmm.hhdmOffset
  top_eq : s.topLevel = root s * frameSize
  total_le : s.phys.pmm.totalFrames ≤ 2 ^ 40
  holds : Holds s.phys (tableBlocks held ++ others)
  mem_iff : ∀ f, f ∈ held ↔ ∃ p, tableAt s p = some f
  unshared : Unshared kind (entries s.phys.mem) 3 (root s)
  ledger : holdings init s.trace = some held
  root_kept : Event.free (root s) ∉ s.trace
  seen : Seen init (root s) s.trace

section

variable {init held : List ℕ} {others : List (ℕ × ℕ)} {s s' : Vm} {p q : List (Fin 512)}
  {i : Fin 512} {n f : ℕ}

theorem mem_tableBlocks (hf : f ∈ held) : (f * frameSize, 0) ∈ tableBlocks held ++ others :=
  List.mem_append_left _ (List.mem_map_of_mem hf)

theorem Tree.mem_of_tableAt (hT : Tree init others s held) (hp : tableAt s p = some n) : n ∈ held :=
  (hT.mem_iff n).2 ⟨p, hp⟩

theorem Tree.frame_lt (hT : Tree init others s held) (hp : tableAt s p = some n) :
    n < s.phys.pmm.totalFrames := hT.holds.frame_lt (mem_tableBlocks (hT.mem_of_tableAt hp))

theorem Tree.notFree (hT : Tree init others s held) (hp : tableAt s p = some n) :
    n ∉ freeSet s.phys :=
  hT.holds.notMem_freeSet (mem_tableBlocks (hT.mem_of_tableAt hp)) (mem_frames_self n)

theorem Tree.ptr_ok (hT : Tree init others s held) (hp : tableAt s p = some n) :
    PtrOk s.hhdmOffset n := by
  rw [hT.hhdm_eq]
  exact hT.holds.direct.ptrsOk n (hT.frame_lt hp)

theorem Tree.held_nodup (hT : Tree init others s held) : held.Nodup := by
  have hpair := (List.pairwise_append.1 hT.holds.disjoint).1
  unfold tableBlocks at hpair
  rw [List.pairwise_map] at hpair
  refine hpair.imp ?_
  rintro a b hdisj rfl
  exact Set.disjoint_left.1 hdisj (mem_frames_self a) (mem_frames_self a)

/-! ## Edits -/

/-- From `s` to `s'` only the entry `i` of table `n` and free frames change. -/
structure Edit (s s' : Vm) (n : ℕ) (i : Fin 512) : Prop where
  hhdm : s'.hhdmOffset = s.hhdmOffset
  top : s'.topLevel = s.topLevel
  pmmHhdm : s'.phys.pmm.hhdmOffset = s.phys.pmm.hhdmOffset
  total : s'.phys.pmm.totalFrames = s.phys.pmm.totalFrames
  mem : ∀ g, g ∉ freeSet s.phys → g ∉ freeSet s'.phys → ∀ j, ¬ (g = n ∧ j = i.val) →
    s'.phys.mem g j = s.phys.mem g j

theorem Edit.root_eq (hE : Edit s s' n i) : root s' = root s := by
  unfold root
  rw [hE.top]

/-- A store to the entry. -/
theorem Edit.set (s : Vm) (n : ℕ) (i : Fin 512) (w : Word) :
    Edit s { s with phys := { s.phys with mem := s.phys.mem.set n i w } } n i := by
  refine ⟨rfl, rfl, rfl, rfl, ?_⟩
  intro g _ _ j hcell
  exact if_neg hcell

/-- Only what is below the entry changes. -/
theorem Tree.outside (hT : Tree init others s held) (hp : tableAt s p = some n)
    (hE : Edit s s' n i)
    (hfree : ∀ g ∈ freeSet s'.phys, g ∈ freeSet s.phys ∨ tableAt s (p ++ [i]) = some g) :
    Outside kind (entries s.phys.mem) (entries s'.phys.mem) 3 (root s) p i := by
  refine hT.unshared.outside hp ?_
  rintro g ⟨q, hq⟩ hbelow j hcell
  have hnot := hT.notFree hq
  refine hE.mem g hnot ?_ j ?_
  · intro hin
    rcases hfree g hin with h | h
    · exact hnot h
    · exact hbelow h
  · rintro ⟨rfl, hj⟩
    exact hcell ⟨rfl, Fin.ext hj⟩

/-- The fields an edit does not change. -/
theorem Tree.of_edit (hT : Tree init others s held) (hE : Edit s s' n i) {held' : List ℕ}
    (hholds : Holds s'.phys (tableBlocks held' ++ others))
    (hmem : ∀ f, f ∈ held' ↔ ∃ p, tableAt s' p = some f)
    (hun : Unshared kind (entries s'.phys.mem) 3 (root s'))
    (hled : holdings init s'.trace = some held') (hkept : Event.free (root s) ∉ s'.trace)
    (hseen : Seen init (root s) s'.trace) : Tree init others s' held' := by
  refine ⟨?_, ?_, ?_, hholds, hmem, hun, hled, ?_, ?_⟩
  · rw [hE.hhdm, hE.pmmHhdm]
    exact hT.hhdm_eq
  · rw [hE.top, hE.root_eq]
    exact hT.top_eq
  · rw [hE.total]
    exact hT.total_le
  · rw [hE.root_eq]
    exact hkept
  · rw [hE.root_eq]
    exact hseen

/-- An entry that is no table is replaced by one that is no table. -/
theorem Tree.store (hT : Tree init others s held) (hp : tableAt s p = some n)
    (hE : Edit s s' n i) (hfree : freeSet s'.phys = freeSet s.phys)
    (hholds : Holds s'.phys (tableBlocks held ++ others))
    (htrace : s'.trace = .flush :: .store s'.phys.mem :: s.trace)
    (hold : ∀ f, kind (3 - p.length) (s.phys.mem n i) ≠ .table f)
    (hnew : ∀ f, kind (3 - p.length) (s'.phys.mem n i) ≠ .table f) :
    Tree init others s' held ∧ ∀ q, tableAt s' q = tableAt s q := by
  have hO := hT.outside hp hE fun g hg => Or.inl (hfree ▸ hg)
  have hmem : ∀ q, Radix.tableAt kind (entries s'.phys.mem) 3 (root s) q = tableAt s q :=
    hO.tableAt_store hp hold hnew
  have htab : ∀ q, tableAt s' q = tableAt s q := by
    intro q
    unfold tableAt
    rw [hE.root_eq]
    exact hmem q
  refine ⟨hT.of_edit hE hholds ?_ ?_ ?_ ?_ ?_, htab⟩
  · intro f
    simp only [htab]
    exact hT.mem_iff f
  · intro a b f ha hb
    change tableAt s' a = some f at ha
    change tableAt s' b = some f at hb
    rw [htab] at ha hb
    exact hT.unshared a b f ha hb
  · rw [htrace]
    exact hT.ledger
  · rw [htrace]
    simp [hT.root_kept]
  · rw [htrace]
    refine ⟨hT.seen, held, hT.ledger, ?_⟩
    rintro f ⟨q, hq⟩
    exact hT.mem_of_tableAt ((hmem q).symm.trans hq)

/-- Walks that do not use the entry are as before. -/
theorem Tree.walk_store (hT : Tree init others s held) (hp : tableAt s p = some n)
    (hE : Edit s s' n i) (hfree : freeSet s'.phys = freeSet s.phys) (hq : ¬ p ++ [i] <+: q) :
    walk s' q = walk s q := by
  have hO := hT.outside hp hE fun g hg => Or.inl (hfree ▸ hg)
  unfold walk
  rw [hE.root_eq]
  exact hO.walk_eq hq

/-- Walks that use the entry end there. -/
theorem Tree.walk_stored (hT : Tree init others s held) (hp : tableAt s p = some n)
    (hE : Edit s s' n i) (hfree : freeSet s'.phys = freeSet s.phys) (r : List (Fin 512)) :
    walk s' (p ++ [i] ++ r) =
      Radix.walk kind (entries s'.phys.mem) (3 - p.length) n (i :: r) := by
  have hO := hT.outside hp hE fun g hg => Or.inl (hfree ▸ hg)
  unfold walk
  rw [hE.root_eq]
  exact hO.walk_below hp r

/-- The account after a free frame was taken. -/
theorem Tree.holdings_alloc (hT : Tree init others s held) (hfresh : f ∈ freeSet s.phys) :
    holdings init (.alloc f :: s.trace) = some (f :: held) := by
  change (holdings init s.trace).bind _ = _
  rw [hT.ledger, Option.bind_some, if_neg]
  intro hin
  rcases (hT.mem_iff f).1 hin with ⟨q, hq⟩
  exact hT.notFree hq hfresh

/-- An empty table is installed; `m` is memory before its parent refers to it. -/
theorem Tree.install (hT : Tree init others s held) (hp : tableAt s p = some n)
    (hE : Edit s s' n i) (hfresh : f ∈ freeSet s.phys)
    (hfree : freeSet s'.phys ⊆ freeSet s.phys)
    (hholds : Holds s'.phys (tableBlocks (f :: held) ++ others))
    {m : Mem} (hm : ∀ g, g ∉ freeSet s.phys → m g = s.phys.mem g)
    (htrace : s'.trace = .store s'.phys.mem :: .store m :: .alloc f :: s.trace)
    (hold : kind (3 - p.length) (s.phys.mem n i) = .absent)
    (hnew : kind (3 - p.length) (s'.phys.mem n i) = .table f)
    (hzero : ∀ j : Fin 512, s'.phys.mem f j = 0) :
    Tree init others s' (f :: held) ∧
      (∀ q, tableAt s' q = if q = p ++ [i] then some f else tableAt s q) ∧
      ∀ q, walk s' q = walk s q := by
  have hO := hT.outside hp hE fun g hg => Or.inl (hfree hg)
  have habsent : ∀ l (j : Fin 512), kind l (entries s'.phys.mem f j) = .absent := by
    intro l j
    unfold entries
    rw [hzero j]
    exact kind_zero_word l
  have hmem : ∀ q, Radix.tableAt kind (entries s'.phys.mem) 3 (root s) q =
      if q = p ++ [i] then some f else tableAt s q := by
    intro q
    refine hO.tableAt_install hp ?_ hnew ?_ q
    · intro f' h
      cases hold.symm.trans h
    · intro j f' h
      cases (habsent _ j).symm.trans h
  have htab : ∀ q, tableAt s' q = if q = p ++ [i] then some f else tableAt s q := by
    intro q
    unfold tableAt
    rw [hE.root_eq]
    exact hmem q
  have hnot : ∀ q, tableAt s q ≠ some f := fun q hq => hT.notFree hq hfresh
  have hled := hT.holdings_alloc hfresh
  have hkept : Event.free (root s) ∉ s'.trace := by
    rw [htrace]
    simp [hT.root_kept]
  have hseen : Seen init (root s) s'.trace := by
    rw [htrace]
    refine ⟨⟨hT.seen, _, hled, ?_⟩, _, hled, ?_⟩
    · -- the new table is not reached yet
      rintro g ⟨q, hq⟩
      have hold : Radix.tableAt kind (entries m) 3 (root s) q = tableAt s q := by
        refine Radix.tableAt_congr ?_
        intro q' j _ n' _ hn'
        exact congrFun (hm n' (hT.notFree hn')) j
      exact List.mem_cons_of_mem f (hT.mem_of_tableAt (hold.symm.trans hq))
    · rintro g ⟨q, hq⟩
      rw [hmem] at hq
      split at hq
      · cases hq
        exact List.mem_cons_self
      · exact List.mem_cons_of_mem f (hT.mem_of_tableAt hq)
  have hled' : holdings init s'.trace = some (f :: held) := by
    rw [htrace]
    exact hled
  refine ⟨hT.of_edit hE hholds ?_ ?_ hled' hkept hseen, htab, ?_⟩
  · intro g
    rw [List.mem_cons, hT.mem_iff g]
    constructor
    · rintro (rfl | ⟨q, hq⟩)
      · exact ⟨p ++ [i], by rw [htab, if_pos rfl]⟩
      · refine ⟨q, ?_⟩
        rw [htab, if_neg, hq]
        -- the new entry was absent
        rintro rfl
        cases hold.symm.trans (kind_of_tableAt_snoc hp hq)
    · rintro ⟨q, hq⟩
      rw [htab] at hq
      split at hq
      · exact Or.inl (Option.some.inj hq).symm
      · exact Or.inr ⟨q, hq⟩
  · intro a b g ha hb
    change tableAt s' a = some g at ha
    change tableAt s' b = some g at hb
    rw [htab] at ha hb
    split at ha
    · cases ha
      split at hb
      · simp [*]
      · exact absurd hb (hnot b)
    · split at hb
      · cases hb
        exact absurd ha (hnot a)
      · exact hT.unshared a b g ha hb
  · intro q
    unfold walk
    rw [hE.root_eq]
    exact hO.walk_install hp hold hnew (habsent _) q

theorem Tree.root_ne (hT : Tree init others s held)
    (hbelow : tableAt s (p ++ [i]) = some f) : root s ≠ f := by
  rintro rfl
  have hself := hT.unshared [] (p ++ [i]) _ (tableAt_nil s) hbelow
  simp at hself

/-- The tables of a memory in which the entry for an empty table is cleared. -/
theorem tableAt_cleared (hp : tableAt s p = some n) (hbelow : tableAt s (p ++ [i]) = some f)
    (hempty : ∀ j : Fin 512, (s.phys.mem f j).getLsbD 0 = false) {m : Mem}
    (hO : Outside kind (entries s.phys.mem) (entries m) 3 (root s) p i) (hzero : m n i = 0)
    (q : List (Fin 512)) : Radix.tableAt kind (entries m) 3 (root s) q =
      if q = p ++ [i] then none else tableAt s q := by
  refine hO.tableAt_remove hp (kind_of_tableAt_snoc hp hbelow) ?_ ?_ q
  · intro f' h
    have hword : entries m n i = 0 := hzero
    rw [hword, kind_zero_word] at h
    cases h
  · intro j f' h
    have habsent : kind (3 - p.length - 1) (entries s.phys.mem f j) = .absent :=
      kind_eq_absent_iff.2 (hempty j)
    cases habsent.symm.trans h

/-- An empty table is removed. -/
theorem Tree.remove (hT : Tree init others s held) (hp : tableAt s p = some n)
    (hE : Edit s s' n i) (hbelow : tableAt s (p ++ [i]) = some f)
    (hfree : freeSet s'.phys = freeSet s.phys ∪ {f})
    (hholds : Holds s'.phys (tableBlocks (held.erase f) ++ others))
    (htrace : s'.trace = .free f :: .store (s.phys.mem.set n i 0) :: s.trace)
    (hnew : s'.phys.mem n i = 0)
    (hempty : ∀ j : Fin 512, (s.phys.mem f j).getLsbD 0 = false) :
    Tree init others s' (held.erase f) ∧
      (∀ q, tableAt s' q = if q = p ++ [i] then none else tableAt s q) ∧
      ∀ q, walk s' q = walk s q := by
  have hO : Outside kind (entries s.phys.mem) (entries s'.phys.mem) 3 (root s) p i := by
    refine hT.outside hp hE ?_
    intro g hg
    rw [hfree] at hg
    rcases hg with hg | rfl
    · exact Or.inl hg
    · exact Or.inr hbelow
  have hold := kind_of_tableAt_snoc hp hbelow
  have habsent : ∀ l (j : Fin 512), kind l (entries s.phys.mem f j) = .absent :=
    fun l j => kind_eq_absent_iff.2 (hempty j)
  have hgone : kind (3 - p.length) (entries s'.phys.mem n i) = .absent := by
    unfold entries
    rw [hnew]
    exact kind_zero_word _
  have htab : ∀ q, tableAt s' q = if q = p ++ [i] then none else tableAt s q := by
    intro q
    unfold tableAt
    rw [hE.root_eq]
    exact tableAt_cleared hp hbelow hempty hO hnew q
  have hsub : ∀ q g, (if q = p ++ [i] then none else tableAt s q) = some g → g ∈ held ∧ g ≠ f := by
    intro q g hq
    split at hq
    · cases hq
    · rename_i hne
      refine ⟨hT.mem_of_tableAt hq, ?_⟩
      rintro rfl
      exact hne (hT.unshared q (p ++ [i]) g hq hbelow)
  have hled : holdings init s'.trace = some (held.erase f) := by
    rw [htrace]
    change (holdings init s.trace).bind _ = _
    rw [hT.ledger, Option.bind_some, if_pos (hT.mem_of_tableAt hbelow)]
  have hkept : Event.free (root s) ∉ s'.trace := by
    rw [htrace]
    simp [hT.root_kept, hT.root_ne hbelow]
  have hseen : Seen init (root s) s'.trace := by
    have hstore := tableAt_cleared hp hbelow hempty
      (hT.outside hp (Edit.set s n i 0) fun g hg => Or.inl hg) (Mem.set_self _ _ _ _)
    rw [htrace]
    refine ⟨⟨hT.seen, held, hT.ledger, ?_⟩, _, _, rfl, ?_⟩
    · rintro g ⟨q, hq⟩
      exact (hsub q g ((hstore q).symm.trans hq)).1
    · rintro ⟨q, hq⟩
      exact (hsub q f ((hstore q).symm.trans hq)).2 rfl
  refine ⟨hT.of_edit hE hholds ?_ ?_ hled hkept hseen, htab, ?_⟩
  · intro g
    rw [hT.held_nodup.mem_erase_iff, hT.mem_iff g]
    constructor
    · rintro ⟨hne, q, hq⟩
      refine ⟨q, ?_⟩
      rw [htab, if_neg, hq]
      rintro rfl
      exact hne (Option.some.inj (hq.symm.trans hbelow))
    · rintro ⟨q, hq⟩
      rw [htab] at hq
      rcases hsub q g hq with ⟨hg, hne⟩
      exact ⟨hne, (hT.mem_iff g).1 hg⟩
  · intro a b g ha hb
    change tableAt s' a = some g at ha
    change tableAt s' b = some g at hb
    rw [htab] at ha hb
    split at ha
    · cases ha
    · split at hb
      · cases hb
      · exact hT.unshared a b g ha hb
  · intro q
    unfold walk
    rw [hE.root_eq]
    exact hO.walk_remove hp hold hgone (habsent _) q

end

end Prometheos.Vmm
