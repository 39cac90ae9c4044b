import Prometheos.Pmm.Runs

/-!
# Who owns a frame

The allocator with a ledger of its clients: the frames that were seeded by
`add_range`, and the blocks that are out, each with the address and the order it was
allocated with. A client seeds frames that were not seeded before, frees only what is
out, and writes only to memory that is not free.

`Holds s out` says that the blocks `out` are out: they are disjoint from each other and
from the free frames, and none of them can be refused when it is freed. `Accounts`, the
invariant of the runs, adds that the seeded frames are split between the free set and
the outstanding blocks.
-/

namespace Prometheos.Pmm

open Dyadic

/-- The direct map covers the frames below `total_frames`, and its offset is not null. -/
structure DirectMap (s : Phys) : Prop where
  offset_pos : 0 < s.pmm.hhdmOffset
  fits : s.pmm.hhdmOffset + s.pmm.totalFrames * frameSize ≤ 2 ^ 64

theorem DirectMap.ptrsOk {s : Phys} (h : DirectMap s) : PtrsOk s := by
  intro f hf
  have hpos := h.offset_pos
  have hfits := h.fits
  unfold PtrOk blockPtr
  unfold frameSize at hfits
  omega

theorem DirectMap.total_le {s : Phys} (h : DirectMap s) : s.pmm.totalFrames ≤ 2 ^ 52 := by
  have hfits := h.fits
  unfold frameSize at hfits
  omega

theorem DirectMap.congr {s s' : Phys} (h : DirectMap s)
    (htotal : s'.pmm.totalFrames = s.pmm.totalFrames)
    (hhdm : s'.pmm.hhdmOffset = s.pmm.hhdmOffset) : DirectMap s' := by
  refine ⟨?_, ?_⟩
  · rw [hhdm]
    exact h.offset_pos
  · rw [hhdm, htotal]
    exact h.fits

/-! ## Outstanding blocks -/

/-- The frames of a block given by its address and its order. -/
def frames (b : ℕ × ℕ) : Set ℕ := block b.2 (b.1 / frameSize)

/-- The frames of the outstanding blocks. -/
def outFrames (out : List (ℕ × ℕ)) : Set ℕ := {g | ∃ b ∈ out, g ∈ frames b}

/-- The block is aligned, in range and of an order the allocator has. -/
def WellFormed (s : Phys) (b : ℕ × ℕ) : Prop :=
  b.2 ≤ maxOrder ∧ ∃ f, b.1 = f * frameSize ∧ 2 ^ b.2 ∣ f ∧ f + 2 ^ b.2 ≤ s.pmm.totalFrames

/-- The blocks `out` are out: aligned blocks in range, disjoint from each other and from
the free frames. -/
structure Holds (s : Phys) (out : List (ℕ × ℕ)) : Prop where
  inv : Inv s
  direct : DirectMap s
  blocks : ∀ b ∈ out, WellFormed s b
  disjoint : out.Pairwise fun b b' => Disjoint (frames b) (frames b')
  apart : ∀ b ∈ out, Disjoint (frames b) (freeSet s)

theorem frames_mul (f order : ℕ) : frames (f * frameSize, order) = block order f := by
  unfold frames
  rw [Nat.mul_div_cancel f (by decide : 0 < frameSize)]

theorem frames_of_eq {b : ℕ × ℕ} {f : ℕ} (hf : b.1 = f * frameSize) :
    frames b = block b.2 f := by
  rw [frames, hf, Nat.mul_div_cancel f (by decide : 0 < frameSize)]

theorem mem_frames_self (f : ℕ) : f ∈ frames (f * frameSize, 0) := by
  rw [frames_mul]
  exact self_mem_block 0 f

theorem outFrames_cons (b : ℕ × ℕ) (out : List (ℕ × ℕ)) :
    outFrames (b :: out) = frames b ∪ outFrames out := by
  ext g
  simp [outFrames]

theorem outFrames_perm {out out' : List (ℕ × ℕ)} (h : out.Perm out') :
    outFrames out = outFrames out' := by
  ext g
  simp only [outFrames, Set.mem_ofPred_eq]
  constructor
  · rintro ⟨b, hb, hg⟩
    exact ⟨b, h.mem_iff.1 hb, hg⟩
  · rintro ⟨b, hb, hg⟩
    exact ⟨b, h.mem_iff.2 hb, hg⟩

/-- Pairwise disjoint blocks have the sum of their sizes. -/
theorem ncard_outFrames {out : List (ℕ × ℕ)}
    (h : out.Pairwise fun b b' => Disjoint (frames b) (frames b')) :
    (outFrames out).Finite ∧ (outFrames out).ncard = (out.map fun b => 2 ^ b.2).sum := by
  induction out with
  | nil =>
      have hempty : outFrames [] = ∅ := by
        ext g
        simp [outFrames]
      rw [hempty]
      exact ⟨Set.finite_empty, by simp⟩
  | cons b out ih =>
      rcases List.pairwise_cons.1 h with ⟨hb, hrest⟩
      rcases ih hrest with ⟨hfin, hcard⟩
      have hdisj : Disjoint (frames b) (outFrames out) := by
        rw [Set.disjoint_right]
        rintro g ⟨b', hb', hg⟩ hg'
        exact Set.disjoint_left.1 (hb b' hb') hg' hg
      rw [outFrames_cons]
      refine ⟨(block_finite _ _).union hfin, ?_⟩
      rw [Set.ncard_union_eq hdisj (block_finite _ _) hfin, hcard, List.map_cons, List.sum_cons,
        frames, ncard_block]

theorem WellFormed.congr {s s' : Phys} {b : ℕ × ℕ} (h : WellFormed s b)
    (htotal : s'.pmm.totalFrames = s.pmm.totalFrames) : WellFormed s' b := by
  unfold WellFormed
  rw [htotal]
  exact h

section

variable {s s' : Phys} {out : List (ℕ × ℕ)}

theorem Holds.perm {out' : List (ℕ × ℕ)} (hH : Holds s out) (h : out.Perm out') :
    Holds s out' := by
  refine ⟨hH.inv, hH.direct, ?_, h.pairwise hH.disjoint fun h => h.symm, ?_⟩
  · exact fun b hb => hH.blocks b (h.mem_iff.2 hb)
  · exact fun b hb => hH.apart b (h.mem_iff.2 hb)

theorem Holds.notMem_freeSet (hH : Holds s out) {b : ℕ × ℕ} (hb : b ∈ out) {g : ℕ}
    (hg : g ∈ frames b) : g ∉ freeSet s := Set.disjoint_left.1 (hH.apart b hb) hg

/-- A block of one frame. -/
theorem Holds.frame_lt (hH : Holds s out) {f : ℕ} (hf : (f * frameSize, 0) ∈ out) :
    f < s.pmm.totalFrames := by
  rcases hH.blocks _ hf with ⟨-, g, hg, -, hend⟩
  have hfg : f = g := by
    unfold frameSize at hg
    dsimp only at hg
    omega
  rw [hfg]
  exact hend

/-- Two outstanding blocks with a common frame are one. -/
theorem Holds.eq_of_mem (hH : Holds s out) {b b' : ℕ × ℕ} (hb : b ∈ out) (hb' : b' ∈ out) {g : ℕ}
    (hg : g ∈ frames b) (hg' : g ∈ frames b') : b = b' := by
  by_contra hne
  have hsymm : Std.Symm fun b b' : ℕ × ℕ => Disjoint (frames b) (frames b') :=
    ⟨fun _ _ h => h.symm⟩
  exact Set.disjoint_left.1 (hH.disjoint.forall hb hb' hne) hg hg'

/-- An outstanding block passes the checks of `free_pages`. -/
theorem Holds.returnable (hH : Holds s out) {b : ℕ × ℕ} (hb : b ∈ out) :
    ∃ f, b.1 = f * frameSize ∧ f < 2 ^ 52 ∧ Returnable s b.2 f := by
  rcases hH.blocks b hb with ⟨hle, f, hf, hal, hend⟩
  have htotal := hH.direct.total_le
  have hpos := Nat.two_pow_pos b.2
  refine ⟨f, hf, by omega, hle, hal, hend, ?_⟩
  intro g hg
  rw [← frames_of_eq hf] at hg
  exact hH.notMem_freeSet hb hg

theorem Holds.took (hH : Holds s out) {order f : ℕ} (ho : order ≤ maxOrder)
    (h : Took s s' order f) : Holds s' ((f * frameSize, order) :: out) := by
  have hblock := frames_mul f order
  refine ⟨h.inv, hH.direct.congr h.total h.hhdm, ?_, ?_, ?_⟩
  · intro b hb
    rcases List.mem_cons.1 hb with rfl | hb
    · exact ⟨ho, f, rfl, h.aligned, (h.returnable hH.inv ho).in_range⟩
    · exact (hH.blocks b hb).congr h.total
  · -- what was free is in no outstanding block
    rw [List.pairwise_cons]
    refine ⟨?_, hH.disjoint⟩
    intro b hb
    rw [hblock]
    exact ((hH.apart b hb).mono_right h.subset).symm
  · intro b hb
    rw [h.free_eq]
    rcases List.mem_cons.1 hb with rfl | hb
    · rw [hblock]
      exact Set.disjoint_sdiff_right
    · exact (hH.apart b hb).mono_right Set.sdiff_subset

theorem Holds.gave {b : ℕ × ℕ} (hH : Holds s (b :: out)) {f : ℕ} (hf : b.1 = f * frameSize)
    (h : Grew s s' (block b.2 f)) : Holds s' out := by
  rcases List.pairwise_cons.1 hH.disjoint with ⟨hb, hrest⟩
  refine ⟨h.inv, hH.direct.congr h.total h.hhdm, ?_, hrest, ?_⟩
  · exact fun b' hb' => (hH.blocks b' (List.mem_cons_of_mem _ hb')).congr h.total
  · intro b' hb'
    rw [h.free_eq, Set.disjoint_union_right, ← frames_of_eq hf]
    exact ⟨hH.apart b' (List.mem_cons_of_mem _ hb'), (hb b' hb').symm⟩

/-- Frames of no outstanding block become free. -/
theorem Holds.seed (hH : Holds s out) {F : Set ℕ} (hF : ∀ b ∈ out, Disjoint (frames b) F)
    (h : Grew s s' F) : Holds s' out := by
  refine ⟨h.inv, hH.direct.congr h.total h.hhdm, ?_, hH.disjoint, ?_⟩
  · exact fun b hb => (hH.blocks b hb).congr h.total
  · intro b hb
    rw [h.free_eq, Set.disjoint_union_right]
    exact ⟨hH.apart b hb, hF b hb⟩

theorem Holds.write (hH : Holds s out) {m : Mem} (hm : ∀ f ∈ freeSet s, m f = s.mem f) :
    Holds { s with mem := m } out :=
  ⟨hH.inv.write hm, hH.direct.congr rfl rfl, hH.blocks, hH.disjoint, hH.apart⟩

theorem Holds.allocPages_ends (hH : Holds s out) {order : ℕ} (ho : order ≤ maxOrder) :
    ∃ r s', (allocPages order).run s = .ok r s' ∧ AllocPost s order r s' :=
  (allocPages_spec hH.inv ho).exists_ok (not_not_intro hH.direct.ptrsOk)

theorem Holds.freePages_ends (hH : Holds s out) {b : ℕ × ℕ} (hb : b ∈ out) :
    ∃ f s', b.1 = f * frameSize ∧ (freePages b.1 b.2).run s = .ok () s' ∧
      Grew s s' (block b.2 f) := by
  rcases hH.returnable hb with ⟨f, hf, hlt, hr⟩
  rcases (freePages_spec hH.inv hr hlt).exists_ok (not_not_intro hH.direct.ptrsOk) with
    ⟨_, s', hrun, hgave⟩
  rw [← hf] at hrun
  exact ⟨f, s', hf, hrun, hgave⟩

end

/-! ## Other clients -/

/-- A call, or a write, of the clients that own the blocks `others`: they free only what is
theirs, and write only to it. -/
inductive OtherStep (s : Phys) (others : List (ℕ × ℕ)) : Phys → List (ℕ × ℕ) → Prop
  | alloc (order : ℕ) {r : Option ℕ} {s' : Phys} :
      (allocPages order).run s = .ok r s' →
      OtherStep s others s' ((r.map fun addr => (addr, order)).toList ++ others)
  | free (b : ℕ × ℕ) {s' : Phys} :
      b ∈ others → (freePages b.1 b.2).run s = .ok () s' →
      OtherStep s others s' (others.erase b)
  | write {m : Mem} :
      (∀ f, f ∉ outFrames others → m f = s.mem f) →
      OtherStep s others { s with mem := m } others

/-- What a step of others leaves as it is. -/
structure Apart (s s' : Phys) (mine : List (ℕ × ℕ)) : Prop where
  hhdm : s'.pmm.hhdmOffset = s.pmm.hhdmOffset
  total : s'.pmm.totalFrames = s.pmm.totalFrames
  mem_eq : ∀ g ∈ outFrames mine, s'.mem g = s.mem g

section

variable {s s' : Phys} {mine others others' : List (ℕ × ℕ)}

theorem Holds.notMem_others (hH : Holds s (mine ++ others)) {g : ℕ} (hg : g ∈ outFrames mine) :
    g ∉ outFrames others := by
  rcases hg with ⟨b, hb, hgb⟩
  rintro ⟨b', hb', hgb'⟩
  exact Set.disjoint_left.1 ((List.pairwise_append.1 hH.disjoint).2.2 b hb b' hb') hgb hgb'

theorem Holds.notMem_freeSet_of_mine (hH : Holds s (mine ++ others)) {g : ℕ}
    (hg : g ∈ outFrames mine) : g ∉ freeSet s := by
  rcases hg with ⟨b, hb, hgb⟩
  exact hH.notMem_freeSet (List.mem_append_left _ hb) hgb

/-- The other clients do not touch the blocks `mine`. -/
theorem OtherStep.holds (h : OtherStep s others s' others') (hH : Holds s (mine ++ others)) :
    Holds s' (mine ++ others') ∧ Apart s s' mine := by
  cases h with
  | alloc order hrun =>
      rename_i r
      rcases allocPages_ok hH.inv hrun with ⟨ho, hpost⟩
      cases r with
      | none =>
          rcases hpost with ⟨rfl, -⟩
          exact ⟨hH, rfl, rfl, fun _ _ => rfl⟩
      | some addr =>
          rcases hpost with ⟨f, rfl, htook⟩
          refine ⟨(hH.took ho htook).perm List.perm_middle.symm, htook.hhdm, htook.total, ?_⟩
          exact fun g hg => htook.mem_eq g (hH.notMem_freeSet_of_mine hg)
  | free b hb hrun =>
      have hperm : (mine ++ others).Perm (b :: (mine ++ others.erase b)) :=
        ((List.perm_cons_erase hb).append_left _).trans List.perm_middle
      have hH' := hH.perm hperm
      rcases hH'.freePages_ends List.mem_cons_self with ⟨f, t, hf, hrun', hgrew⟩
      rw [hrun] at hrun'
      cases hrun'
      have hgave := hH'.gave hf hgrew
      exact ⟨hgave, hgrew.hhdm, hgrew.total,
        fun g hg => hgrew.mem_eq g (hgave.notMem_freeSet_of_mine hg)⟩
  | write hm =>
      refine ⟨hH.write ?_, rfl, rfl, fun g hg => hm g (hH.notMem_others hg)⟩
      intro f hf
      refine hm f ?_
      rintro ⟨b, hb, hfb⟩
      exact hH.notMem_freeSet (List.mem_append_right _ hb) hfb hf

end

/-! ## The ledger -/

/-- The allocator, the frames seeded so far and the blocks that are out. -/
structure Ledger where
  phys : Phys
  seeded : Set ℕ
  out : List (ℕ × ℕ)

/-- One call of a client, or a write of one. -/
inductive Ledger.Step (l : Ledger) : Ledger → Prop
  | seed (start count : ℕ) {s' : Phys} :
      start + count ≤ l.phys.pmm.totalFrames →
      Disjoint l.seeded (Set.Ico start (start + count)) →
      (addRange start count).run l.phys = .ok () s' →
      Step l ⟨s', l.seeded ∪ Set.Ico start (start + count), l.out⟩
  | allocNone (order : ℕ) {s' : Phys} :
      (allocPages order).run l.phys = .ok none s' → Step l ⟨s', l.seeded, l.out⟩
  | allocSome (order addr : ℕ) {s' : Phys} :
      (allocPages order).run l.phys = .ok (some addr) s' →
      Step l ⟨s', l.seeded, (addr, order) :: l.out⟩
  | free (b : ℕ × ℕ) {s' : Phys} :
      b ∈ l.out → (freePages b.1 b.2).run l.phys = .ok () s' →
      Step l ⟨s', l.seeded, l.out.erase b⟩
  | write {m : Mem} :
      (∀ f ∈ freeSet l.phys, m f = l.phys.mem f) →
      Step l ⟨{ l.phys with mem := m }, l.seeded, l.out⟩

/-- The allocator as `Pmm::new` returns it, with nothing seeded. -/
structure Ledger.Start (l : Ledger) : Prop where
  fresh : Fresh l.phys
  direct : DirectMap l.phys
  seeded_eq : l.seeded = ∅
  out_eq : l.out = []

/-- The ledgers of all runs. -/
def Ledger.Reachable (l : Ledger) : Prop :=
  ∃ l₀, Ledger.Start l₀ ∧ Relation.ReflTransGen Ledger.Step l₀ l

/-- The seeded frames are split between the free set and the outstanding blocks. -/
structure Accounts (l : Ledger) : Prop extends Holds l.phys l.out where
  seeded_eq : l.seeded = freeSet l.phys ∪ outFrames l.out

theorem Ledger.Start.accounts {l : Ledger} (h : Ledger.Start l) : Accounts l := by
  refine ⟨⟨h.fresh.inv, h.direct, ?_, ?_, ?_⟩, ?_⟩
  · rw [h.out_eq]
    simp
  · rw [h.out_eq]
    exact List.Pairwise.nil
  · rw [h.out_eq]
    simp
  · rw [h.seeded_eq, h.out_eq, h.fresh.freeSet_eq]
    simp [outFrames]

section

variable {l : Ledger}

/-- What is not seeded yet is not free. -/
theorem Accounts.unused (hA : Accounts l) {start count : ℕ}
    (hdisj : Disjoint l.seeded (Set.Ico start (start + count))) :
    ∀ g ∈ Set.Ico start (start + count), g ∉ freeSet l.phys := by
  intro g hg hfree
  refine Set.disjoint_right.1 hdisj hg ?_
  rw [hA.seeded_eq]
  exact Or.inl hfree

theorem Accounts.seed (hA : Accounts l) {start count : ℕ} {s' : Phys}
    (hdisj : Disjoint l.seeded (Set.Ico start (start + count)))
    (h : Grew l.phys s' (Set.Ico start (start + count))) :
    Accounts ⟨s', l.seeded ∪ Set.Ico start (start + count), l.out⟩ := by
  refine ⟨hA.toHolds.seed ?_ h, ?_⟩
  · -- a block lies in frames that were seeded before
    intro b hb
    refine hdisj.mono_left ?_
    rw [hA.seeded_eq]
    exact fun g hg => Or.inr ⟨b, hb, hg⟩
  · change l.seeded ∪ _ = freeSet s' ∪ _
    rw [h.free_eq, hA.seeded_eq, Set.union_right_comm]

theorem Accounts.took (hA : Accounts l) {order f : ℕ} {s' : Phys} (ho : order ≤ maxOrder)
    (h : Took l.phys s' order f) :
    Accounts ⟨s', l.seeded, (f * frameSize, order) :: l.out⟩ := by
  refine ⟨hA.toHolds.took ho h, ?_⟩
  change l.seeded = freeSet s' ∪ _
  rw [outFrames_cons, frames_mul, h.free_eq, ← Set.union_assoc,
    Set.sdiff_union_of_subset h.subset, hA.seeded_eq]

theorem Accounts.gave (hA : Accounts l) {b : ℕ × ℕ} (hb : b ∈ l.out) {f : ℕ} {s' : Phys}
    (hf : b.1 = f * frameSize) (h : Grew l.phys s' (block b.2 f)) :
    Accounts ⟨s', l.seeded, l.out.erase b⟩ := by
  have hperm := List.perm_cons_erase hb
  refine ⟨(hA.toHolds.perm hperm).gave hf h, ?_⟩
  change l.seeded = freeSet s' ∪ _
  rw [h.free_eq, hA.seeded_eq, outFrames_perm hperm, outFrames_cons, frames_of_eq hf,
    Set.union_assoc]

theorem Ledger.Step.accounts {l' : Ledger} (h : Ledger.Step l l') (hA : Accounts l) :
    Accounts l' := by
  cases h with
  | seed start count hend hdisj hrun =>
      have htotal := hA.direct.total_le
      exact hA.seed hdisj (addRange_ok count start hA.inv (by omega) hrun)
  | allocNone order hrun =>
      rw [(allocPages_ok hA.inv hrun).2.1]
      exact hA
  | allocSome order addr hrun =>
      rcases allocPages_ok hA.inv hrun with ⟨ho, f, rfl, htook⟩
      exact hA.took ho htook
  | free b hb hrun =>
      rcases hA.freePages_ends hb with ⟨f, t, hf, hrun', hgave⟩
      rw [hrun] at hrun'
      cases hrun'
      exact hA.gave hb hf hgave
  | write hm => exact ⟨hA.toHolds.write hm, hA.seeded_eq⟩

theorem Ledger.Reachable.accounts (h : Ledger.Reachable l) : Accounts l := by
  rcases h with ⟨l₀, hstart, hsteps⟩
  refine reach_invariant ?_ hsteps hstart.accounts
  intro t t' hstep hA
  exact hstep.accounts hA

theorem Accounts.addRange_ends (hA : Accounts l) {start count : ℕ}
    (hend : start + count ≤ l.phys.pmm.totalFrames)
    (hdisj : Disjoint l.seeded (Set.Ico start (start + count))) :
    ∃ s', (addRange start count).run l.phys = .ok () s' := by
  have htotal := hA.direct.total_le
  rcases (addRange_spec count start hA.inv hend (by omega) (hA.unused hdisj)).exists_ok
    (not_not_intro hA.direct.ptrsOk) with ⟨_, s', hrun, -⟩
  exact ⟨s', hrun⟩

/-- A seeded frame is free, or in one outstanding block. -/
theorem Accounts.owner (hA : Accounts l) {g : ℕ} (hg : g ∈ l.seeded) :
    (g ∈ freeSet l.phys ∧ ∀ b ∈ l.out, g ∉ frames b) ∨
      (g ∉ freeSet l.phys ∧ ∃! b, b ∈ l.out ∧ g ∈ frames b) := by
  rw [hA.seeded_eq] at hg
  rcases hg with hfree | ⟨b, hb, hgb⟩
  · left
    exact ⟨hfree, fun b hb hgb => hA.notMem_freeSet hb hgb hfree⟩
  · right
    refine ⟨hA.notMem_freeSet hb hgb, b, ⟨hb, hgb⟩, ?_⟩
    rintro b' ⟨hb', hgb'⟩
    exact hA.eq_of_mem hb' hb hgb' hgb

theorem Accounts.count (hA : Accounts l) :
    l.phys.pmm.freeFrames + (l.out.map fun b => 2 ^ b.2).sum = l.seeded.ncard := by
  rcases hA.inv.rep with ⟨L, hR, -⟩
  rcases ncard_outFrames hA.disjoint with ⟨hfin, hcard⟩
  have hdisj : Disjoint (freeSet l.phys) (outFrames l.out) := by
    rw [Set.disjoint_right]
    rintro g ⟨b, hb, hg⟩
    exact hA.notMem_freeSet hb hg
  rw [hA.seeded_eq, Set.ncard_union_eq hdisj hR.freeSet_finite hfin, hcard, hA.inv.count]

end

/-- Exclusive ownership and conservation, at every moment of a run: calls with an order
in range return; the outstanding blocks are disjoint, aligned and made of seeded frames;
a seeded frame is free or in exactly one of them; the counter is the number of seeded
frames that are not out; and no call writes to a frame that stays out. -/
theorem ledger_exclusive {l : Ledger} (h : Ledger.Reachable l) :
    ((∀ order ≤ maxOrder, ∃ r s', (allocPages order).run l.phys = .ok r s') ∧
      (∀ b ∈ l.out, ∃ s', (freePages b.1 b.2).run l.phys = .ok () s') ∧
      (∀ start count, start + count ≤ l.phys.pmm.totalFrames →
        Disjoint l.seeded (Set.Ico start (start + count)) →
        ∃ s', (addRange start count).run l.phys = .ok () s')) ∧
    (l.out.Pairwise fun b b' => Disjoint (frames b) (frames b')) ∧
    (∀ b ∈ l.out, b.1 % frameSize = 0 ∧ 2 ^ b.2 ∣ b.1 / frameSize ∧ frames b ⊆ l.seeded) ∧
    (∀ g ∈ l.seeded, (g ∈ freeSet l.phys ∧ ∀ b ∈ l.out, g ∉ frames b) ∨
      (g ∉ freeSet l.phys ∧ ∃! b, b ∈ l.out ∧ g ∈ frames b)) ∧
    l.phys.pmm.freeFrames + (l.out.map fun b => 2 ^ b.2).sum = l.seeded.ncard ∧
    (∀ order r s', (allocPages order).run l.phys = .ok r s' →
      ∀ g ∈ outFrames l.out, s'.mem g = l.phys.mem g) ∧
    (∀ b ∈ l.out, ∀ s', (freePages b.1 b.2).run l.phys = .ok () s' →
      ∀ g ∈ outFrames (l.out.erase b), s'.mem g = l.phys.mem g) := by
  have hA := h.accounts
  refine ⟨⟨?_, ?_, ?_⟩, hA.disjoint, ?_, fun g hg => hA.owner hg, hA.count, ?_, ?_⟩
  · intro order ho
    rcases hA.allocPages_ends ho with ⟨r, s', hrun, -⟩
    exact ⟨r, s', hrun⟩
  · intro b hb
    rcases hA.freePages_ends hb with ⟨f, s', -, hrun, -⟩
    exact ⟨s', hrun⟩
  · intro start count hend hdisj
    exact hA.addRange_ends hend hdisj
  · intro b hb
    rcases hA.blocks b hb with ⟨-, f, hf, hal, -⟩
    rw [hf, Nat.mul_mod_left, Nat.mul_div_cancel f (by decide : 0 < frameSize), hA.seeded_eq]
    exact ⟨rfl, hal, fun g hg => Or.inr ⟨b, hb, hg⟩⟩
  · intro order r s' hrun
    rintro g ⟨b, hb, hg⟩
    have hnot := hA.notMem_freeSet hb hg
    have hpost := (allocPages_ok hA.inv hrun).2
    cases r with
    | none => rw [hpost.1]
    | some addr =>
        rcases hpost with ⟨f, -, htook⟩
        exact htook.mem_eq g hnot
  · intro b hb s' hrun
    rintro g ⟨b', hb', hg⟩
    rcases hA.freePages_ends hb with ⟨f, t, hf, hrun', hgave⟩
    rw [hrun] at hrun'
    cases hrun'
    -- a block that stays out is apart from the free set after the call as well
    exact hgave.mem_eq g ((hA.gave hb hf hgave).notMem_freeSet hb' hg)

/-- Four frames of memory, none of them given to the allocator yet. -/
def fourFrames : Phys := ⟨⟨List.replicate 12 none, List.replicate 4 255, 4, 0, 4096⟩, fun _ _ => 0⟩

theorem fourFrames_start : Ledger.Start ⟨fourFrames, ∅, []⟩ :=
  ⟨⟨[0, 0, 0, 0], 4, 4096, fun _ _ => 0, by decide, rfl⟩, ⟨by decide, by decide⟩, rfl, rfl⟩

/-- The four frames are seeded, and blocks of both orders are allocated from the one block they
make. -/
theorem two_blocks_run : ∃ s₁, (addRange 0 4).run fourFrames = .ok () s₁ ∧
    ∃ s₂, (allocPages 1).run s₁ = .ok (some 0) s₂ ∧
    ∃ s₃, (allocPages 0).run s₂ = .ok (some 0x2000) s₃ ∧ s₃.pmm.freeFrames = 1 := by
  unfold addRange
  unfold addRange
  exact ⟨_, rfl, _, rfl, _, rfl, rfl⟩

/-- The blocks of the frames 0 and 1, and of frame 2, are out: they are disjoint, each of them can
be freed, and what the other holds is then untouched. -/
theorem ledger_exclusive_two_blocks : ∃ l, Ledger.Reachable l ∧
    l.out = [(0x2000, 0), (0, 1)] ∧ l.seeded.ncard = 4 ∧
    Disjoint (frames (0x2000, 0)) (frames (0, 1)) ∧
    (∃ s', (freePages 0x2000 0).run l.phys = .ok () s' ∧
      ∀ g ∈ outFrames [(0, 1)], s'.mem g = l.phys.mem g) ∧
    ∃ s', (freePages 0 1).run l.phys = .ok () s' ∧
      ∀ g ∈ outFrames [(0x2000, 0)], s'.mem g = l.phys.mem g := by
  rcases two_blocks_run with ⟨s₁, hrange, s₂, halloc₁, s₃, halloc₀, hcount⟩
  have hreach : Ledger.Reachable ⟨s₃, _, [(0x2000, 0), (0, 1)]⟩ :=
    ⟨_, fourFrames_start, ((Relation.ReflTransGen.single
        (Ledger.Step.seed 0 4 (by decide) (Set.empty_disjoint _) hrange)).tail
      (Ledger.Step.allocSome 1 0 halloc₁)).tail (Ledger.Step.allocSome 0 0x2000 halloc₀)⟩
  rcases ledger_exclusive hreach with
    ⟨⟨-, hends, -⟩, hdisj, -, -, hsum, -, hkept⟩
  have hmem : (0, 1) ∈ [(0x2000, 0), (0, 1)] := by decide
  rcases hends (0x2000, 0) List.mem_cons_self with ⟨t₀, hfree₀⟩
  rcases hends (0, 1) hmem with ⟨t₁, hfree₁⟩
  rw [hcount] at hsum
  refine ⟨_, hreach, rfl, hsum.symm, ?_, ?_, ?_⟩
  · exact (List.pairwise_cons.1 hdisj).1 (0, 1) (by decide)
  · exact ⟨t₀, hfree₀, hkept (0x2000, 0) List.mem_cons_self t₀ hfree₀⟩
  · exact ⟨t₁, hfree₁, hkept (0, 1) hmem t₁ hfree₁⟩

/-- An order above `MAX_ORDER` is refused, in the first state already. Where the direct map does
not cover the frames, a frame in range cannot be seeded. -/
theorem ledger_alloc_order_twelve :
    (∃ l, Ledger.Reachable l ∧
      (allocPages 12).run l.phys = .stop (.panic "order out of range: 12") l.phys) ∧
    ∃ s s', Fresh s ∧ 1 + 1 ≤ s.pmm.totalFrames ∧
      (addRange 1 1).run s = .stop (.panic "attempt to add with overflow") s' := by
  constructor
  · exact ⟨_, ⟨_, fourFrames_start, Relation.ReflTransGen.refl⟩, rfl⟩
  · -- the pointer to frame 1 would be 2^64
    unfold addRange
    unfold addRange
    exact ⟨_, _, ⟨[0, 0], 2, 2 ^ 64 - 4096, fun _ _ => 0, by decide, rfl⟩, by decide, rfl⟩

end Prometheos.Pmm
