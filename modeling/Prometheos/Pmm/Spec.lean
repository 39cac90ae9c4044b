import Prometheos.Pmm.Rep
import Mathlib.Algebra.BigOperators.Group.Finset.Sigma
import Mathlib.Data.Set.Card
import Mathlib.Order.Interval.Finset.Nat

/-!
# What the allocator's operations do to the set of free frames

`Inv s` is the allocator's invariant between calls: the state represents a
coalesced family of blocks, and `free_frames` counts the free frames. For each
operation there is one theorem that says when it stops and what it does to the
free set and to memory (`allocPages_spec`, `freePages_spec`, `addRange_spec`).

A stop that these theorems do not exclude can only come from the direct map: some
frame below `total_frames` has no valid pointer (`¬ PtrsOk s`).
-/

namespace Prometheos.Pmm

open Dyadic Linked

/-- Every frame below `total_frames` has a valid pointer in the direct map. -/
def PtrsOk (s : Phys) : Prop := ∀ f < s.pmm.totalFrames, PtrOk s.pmm.hhdmOffset f

/-- The number of frames in the listed blocks. -/
def blockSum (L : ℕ → List ℕ) : ℕ := ∑ o ∈ Finset.range numOrders, (L o).length * 2 ^ o

/-- The allocator's invariant between calls. -/
structure Inv (s : Phys) : Prop where
  total_lt : s.pmm.totalFrames < 2 ^ 64
  rep : ∃ L, Rep L s ∧ Coalesced maxOrder (blocksOf L)
  count : s.pmm.freeFrames = (freeSet s).ncard

/-! ## Covered frames -/

theorem covered_pushBlock (L : ℕ → List ℕ) (o f : ℕ) :
    covered (blocksOf (pushBlock L o f)) = covered (blocksOf L) ∪ block o f := by
  ext g
  constructor
  · rintro ⟨o', f', hf', hg⟩
    rcases mem_pushBlock.1 hf' with ⟨rfl, rfl⟩ | hf'
    · exact Or.inr hg
    · exact Or.inl ⟨o', f', hf', hg⟩
  · rintro (⟨o', f', hf', hg⟩ | hg)
    · exact ⟨o', f', mem_pushBlock.2 (Or.inr hf'), hg⟩
    · exact ⟨o, f, mem_pushBlock.2 (Or.inl ⟨rfl, rfl⟩), hg⟩

section

variable {L : ℕ → List ℕ} {s : Phys}

theorem Rep.covered_dropBlock (hR : Rep L s) {o f : ℕ} (hf : f ∈ L o) :
    covered (blocksOf (dropBlock L o f)) = covered (blocksOf L) \ block o f := by
  have hnd := hR.nodup o
  ext g
  constructor
  · rintro ⟨o', f', hf', hg⟩
    rcases (mem_dropBlock hnd).1 hf' with ⟨hf', hne⟩
    refine ⟨⟨o', f', hf', hg⟩, ?_⟩
    intro hg'
    exact hne (hR.tiling.disjoint o' o f' hf' f hf g hg hg')
  · rintro ⟨⟨o', f', hf', hg⟩, hout⟩
    refine ⟨o', f', (mem_dropBlock hnd).2 ⟨hf', ?_⟩, hg⟩
    rintro ⟨rfl, rfl⟩
    exact hout hg

/-- Adding a block whose buddy is not there keeps the family coalesced. -/
theorem coalesced_pushBlock (hC : Coalesced maxOrder (blocksOf L)) {o f : ℕ}
    (hbuddy : o < maxOrder → f ^^^ 2 ^ o ∉ L o) :
    Coalesced maxOrder (blocksOf (pushBlock L o f)) := by
  have hne : ∀ (a k : ℕ), a ^^^ 2 ^ k ≠ a := by
    intro a k h
    have hz : a ^^^ (a ^^^ 2 ^ k) = a ^^^ a := by rw [h]
    rw [← Nat.xor_assoc, Nat.xor_self, Nat.zero_xor] at hz
    exact absurd hz (Nat.two_pow_pos k).ne'
  intro o' ho' f' hf' hb
  rcases mem_pushBlock.1 hf' with ⟨rfl, rfl⟩ | hold
  · rcases mem_pushBlock.1 hb with ⟨-, heq⟩ | hb
    · exact hne f' o' heq
    · exact hbuddy ho' hb
  · rcases mem_pushBlock.1 hb with ⟨rfl, heq⟩ | hb
    · apply hbuddy ho'
      rw [← heq, Nat.xor_assoc, Nat.xor_self, Nat.xor_zero]
      exact hold
    · exact hC o' ho' f' hold hb

theorem Rep.coalesced_dropBlock (hR : Rep L s) (hC : Coalesced maxOrder (blocksOf L)) (o f : ℕ) :
    Coalesced maxOrder (blocksOf (dropBlock L o f)) := by
  intro o' ho' f' hf' hb
  have hnd := hR.nodup o
  exact hC o' ho' f' ((mem_dropBlock hnd).1 hf').1 ((mem_dropBlock hnd).1 hb).1

theorem Rep.freeSet_lt (hR : Rep L s) {g : ℕ} (hg : g ∈ freeSet s) : g < s.pmm.totalFrames := by
  rcases hg with ⟨o, ho, -⟩
  rw [← hR.order_len]
  exact (List.getElem?_eq_some_iff.1 ho).1

theorem Rep.freeSet_finite (hR : Rep L s) : (freeSet s).Finite :=
  (Set.finite_Iio s.pmm.totalFrames).subset fun _ hg => hR.freeSet_lt hg

end

theorem block_finite (o f : ℕ) : (block o f).Finite := Set.finite_Ico _ _

theorem ncard_block (o f : ℕ) : (block o f).ncard = 2 ^ o := by
  rw [block, ← Finset.coe_Ico, Set.ncard_coe_finset, Nat.card_Ico, Nat.add_sub_cancel_left]

/-- The sizes of the listed blocks add up to the number of free frames. -/
theorem Rep.blockSum_eq {L : ℕ → List ℕ} {s : Phys} (hR : Rep L s) :
    blockSum L = (freeSet s).ncard := by
  have hcover : freeSet s = ((((Finset.range numOrders).sigma fun o => (L o).toFinset).biUnion
      fun b => Finset.Ico b.2 (b.2 + 2 ^ b.1) : Finset ℕ) : Set ℕ) := by
    rw [hR.freeSet_eq]
    ext g
    simp only [Finset.coe_biUnion, Set.mem_iUnion, Finset.mem_coe, Finset.mem_sigma,
      Finset.mem_range, List.mem_toFinset, Finset.mem_Ico]
    constructor
    · rintro ⟨o, f, hf, hg⟩
      have ho := hR.order_le o f hf
      exact ⟨⟨o, f⟩, ⟨Nat.lt_succ_of_le ho, hf⟩, hg⟩
    · rintro ⟨⟨o, f⟩, ⟨-, hf⟩, hg⟩
      exact ⟨o, f, hf, hg⟩
  rw [hcover, Set.ncard_coe_finset, Finset.card_biUnion]
  · rw [Finset.sum_sigma, blockSum]
    refine Finset.sum_congr rfl ?_
    intro o _
    simp [List.toFinset_card_of_nodup (hR.nodup o)]
  · rintro ⟨o, f⟩ hf ⟨o', f'⟩ hf' hne
    simp only [Finset.mem_coe, Finset.mem_sigma, List.mem_toFinset] at hf hf'
    rw [Function.onFun, Finset.disjoint_left]
    intro g hg hg'
    rw [Finset.mem_Ico] at hg hg'
    rcases hR.tiling.disjoint o o' f hf.2 f' hf'.2 g hg hg' with ⟨rfl, rfl⟩
    exact hne rfl

/-! ## Blocks in transit -/

/-- An aligned block in range that the lists `L` do not touch: it has been taken
off a list, or is on its way to one. -/
structure Pending (L : ℕ → List ℕ) (s : Phys) (order frame : ℕ) : Prop where
  order_le : order ≤ maxOrder
  aligned : 2 ^ order ∣ frame
  in_range : frame + 2 ^ order ≤ s.pmm.totalFrames
  addr_lt : frame + 2 ^ order ≤ 2 ^ 52
  unused : ∀ g ∈ block order frame, g ∉ covered (blocksOf L)

theorem SameFields.ptrsOk_iff {s t : Phys} (h : SameFields s t) : PtrsOk t ↔ PtrsOk s := by
  unfold PtrsOk
  rw [h.total, h.hhdm]

/-- Where `list_push` returns, the pointer to the block is in order. -/
theorem listPush_ok {s s' : Phys} {frame order : ℕ} {u : Unit} (hf : frame < 2 ^ 52)
    (h : (listPush frame order).run s = .ok u s') : PtrOk s.pmm.hhdmOffset frame := by
  unfold listPush debugAssert at h
  rw [Prog.gets_bind] at h
  rcases Prog.bind_ok_iff.1 h with ⟨_, t₁, ht₁, h₁⟩
  rcases Prog.require_ok_iff.1 ht₁ with ⟨-, rfl⟩
  rcases Prog.bind_ok_iff.1 h₁ with ⟨_, t₂, ht₂, h₂⟩
  rcases addU64_ok_iff.1 ht₂ with ⟨-, rfl, rfl⟩
  rcases Prog.bind_ok_iff.1 h₂ with ⟨_, t₃, ht₃, h₃⟩
  rcases Prog.require_ok_iff.1 ht₃ with ⟨-, rfl⟩
  rcases Prog.bind_ok_iff.1 h₃ with ⟨_, t₄, ht₄, h₄⟩
  rcases assertBlockUnused_ok ht₄ with ⟨rfl, -⟩
  rcases Prog.bind_ok_iff.1 h₄ with ⟨_, t₅, ht₅, -⟩
  exact (frameToBlock_ok hf ht₅).1

section

variable {L : ℕ → List ℕ} {s : Phys} {order frame : ℕ}

/-- `list_push` on a pending block. -/
theorem Rep.push_ends (hR : Rep L s) (hP : Pending L s order frame) :
    Prog.Ends (¬ PtrsOk s) (listPush frame order) s fun _ s' =>
      Rep (pushBlock L order frame) s' ∧ SameFields s s' ∧
        ∀ g, g ∉ covered (blocksOf L) → g ≠ frame → s'.mem g = s.mem g := by
  have hpos := Nat.two_pow_pos order
  have hrange := hP.in_range
  have haddr := hP.addr_lt
  by_cases hptr : PtrOk s.pmm.hhdmOffset frame
  · have hnone : ∀ g ∈ block order frame, s.pmm.frameOrder[g]? = some orderNone := by
      intro g hg
      apply hR.mark_of_notMem (Nat.lt_of_lt_of_le hg.2 hP.in_range)
      rw [hR.freeSet_eq]
      exact hP.unused g hg
    rcases hR.push hptr hP.order_le hP.aligned hP.in_range hnone with ⟨s', hrun, hR', hS, hmem⟩
    refine Prog.ends_of_ok hrun ⟨hR', hS, ?_⟩
    intro g hg hne
    exact hmem g hne fun hgL => hg (block_subset_covered hgL (self_mem_block order g))
  · -- the pointer is computed before anything is written
    unfold Prog.Ends
    cases hrun : (listPush frame order).run s with
    | ok u s' => exact absurd (listPush_ok (by omega) hrun) hptr
    | stop e s' => exact fun hall => hptr (hall frame (by omega))

/-- The upper half of a pending block. -/
theorem Pending.upper (hP : Pending L s (order + 1) frame) :
    Pending L s order (frame + 2 ^ order) := by
  have hpow : 2 ^ (order + 1) = 2 ^ order + 2 ^ order := by ring
  have hpos := Nat.two_pow_pos order
  have hsub : block order (frame + 2 ^ order) ⊆ block (order + 1) frame := by
    intro g hg
    rw [mem_block] at hg ⊢
    omega
  refine ⟨Nat.le_of_succ_le hP.order_le, ?_, ?_, ?_, fun g hg => hP.unused g (hsub hg)⟩
  · exact Nat.dvd_add (dvd_of_dvd_succ hP.aligned) (dvd_refl _)
  · have := hP.in_range
    omega
  · have := hP.addr_lt
    omega

/-- The lower half of a pending block, once the upper half is listed. -/
theorem Pending.lower {s' : Phys} (hP : Pending L s (order + 1) frame) (hS : SameFields s s') :
    Pending (pushBlock L order (frame + 2 ^ order)) s' order frame := by
  have hpow : 2 ^ (order + 1) = 2 ^ order + 2 ^ order := by ring
  have hpos := Nat.two_pow_pos order
  refine ⟨Nat.le_of_succ_le hP.order_le, dvd_of_dvd_succ hP.aligned, ?_, ?_, ?_⟩
  · have := hP.in_range
    rw [hS.total]
    omega
  · have := hP.addr_lt
    omega
  · intro g hg
    rw [covered_pushBlock]
    rw [mem_block] at hg
    rintro (hg' | hg')
    · exact hP.unused g ⟨hg.1, by omega⟩ hg'
    · rw [mem_block] at hg'
      omega

/-! ## Splitting -/

/-- The split loop lists everything of the block but its first `2 ^ order` frames. -/
theorem splitDown_spec (frame order : ℕ) : ∀ (k : ℕ) {L : ℕ → List ℕ} {s : Phys}, Rep L s →
    Coalesced maxOrder (blocksOf L) → Pending L s (order + k) frame →
    Prog.Ends (¬ PtrsOk s) (splitDown frame order k) s fun _ s' =>
      ∃ L', Rep L' s' ∧ Coalesced maxOrder (blocksOf L') ∧ SameFields s s' ∧
        covered (blocksOf L') =
          covered (blocksOf L) ∪ block (order + k) frame \ block order frame ∧
        ∀ g, g ∉ covered (blocksOf L) → g ∉ block (order + k) frame → s'.mem g = s.mem g := by
  intro k
  induction k with
  | zero =>
      intro L s hR hC hP
      refine Prog.ends_of_ok rfl ⟨L, hR, hC, SameFields.refl s, ?_, fun _ _ _ => rfl⟩
      simp
  | succ k ih =>
      intro L s hR hC hP
      have hup : Pending L s (order + k) (frame + 2 ^ (order + k)) := Pending.upper hP
      have hpos := Nat.two_pow_pos (order + k)
      have hpow : 2 ^ (order + (k + 1)) = 2 ^ (order + k) + 2 ^ (order + k) := by ring
      have hsplit : block (order + (k + 1)) frame =
          block (order + k) (frame + 2 ^ (order + k)) ∪ block (order + k) frame := by
        ext g
        simp only [mem_block, Set.mem_union]
        omega
      have haddr : frame + 2 ^ (order + k) < 2 ^ 64 := by
        have := hup.addr_lt
        omega
      -- the buddy of the listed half is the half that is still pending
      have hbuddy : order + k < maxOrder →
          (frame + 2 ^ (order + k)) ^^^ 2 ^ (order + k) ∉ L (order + k) := by
        intro _ hmem
        have hal : 2 ^ (order + k + 1) ∣ frame := hP.aligned
        rw [xor_of_odd hal] at hmem
        exact hP.unused frame (self_mem_block _ _)
          (block_subset_covered hmem (self_mem_block _ _))
      refine Prog.Ends.bind (Q := fun b t => b = frame + 2 ^ (order + k) ∧ t = s)
        (Prog.ends_of_ok (addU64_of_lt haddr s) ⟨rfl, rfl⟩) ?_
      rintro b t ⟨rfl, rfl⟩
      refine (hR.push_ends hup).bind ?_
      rintro _ t' ⟨hR', hS, hmem⟩
      refine (ih hR' (coalesced_pushBlock hC hbuddy) (hP.lower hS)).mono
        (fun h => by rwa [hS.ptrsOk_iff] at h) ?_
      rintro _ u ⟨L', hR'', hC'', hS', hcov, hmem'⟩
      refine ⟨L', hR'', hC'', hS.trans hS', ?_, ?_⟩
      · rw [hcov, covered_pushBlock, hsplit]
        ext g
        simp only [Set.mem_union, Set.mem_sdiff, mem_block]
        have := Nat.pow_le_pow_right (show 2 > 0 by omega) (Nat.le_add_right order k)
        constructor
        · rintro ((hg | hg) | hg)
          · exact Or.inl hg
          · exact Or.inr ⟨Or.inl hg, by omega⟩
          · exact Or.inr ⟨Or.inr hg.1, hg.2⟩
        · rintro (hg | ⟨hg | hg, hg'⟩)
          · exact Or.inl (Or.inl hg)
          · exact Or.inl (Or.inr hg)
          · exact Or.inr ⟨hg, hg'⟩
      · intro g hg hg'
        rw [hsplit, Set.mem_union, not_or] at hg'
        rw [hmem' g ?_ hg'.2]
        · refine hmem g hg ?_
          rintro rfl
          exact hg'.1 (self_mem_block _ _)
        · rw [covered_pushBlock, Set.mem_union, not_or]
          exact ⟨hg, hg'.1⟩

end

/-! ## Allocation -/

theorem Rep.setFree {L : ℕ → List ℕ} {s : Phys} (hR : Rep L s) (n : ℕ) :
    Rep L { s with pmm := { s.pmm with freeFrames := n } } :=
  ⟨hR.lists_len, hR.order_len, hR.linked, hR.order_le, hR.aligned, hR.in_range, hR.ptr_ok,
    hR.marked, hR.listed⟩

/-- An aligned block that starts below `2 ^ 52` also ends there. -/
theorem end_le_of_dvd {o f : ℕ} (ho : o ≤ maxOrder) (hd : 2 ^ o ∣ f) (hf : f < 2 ^ 52) :
    f + 2 ^ o ≤ 2 ^ 52 := by
  have h52 : 2 ^ o ∣ 2 ^ 52 := Nat.pow_dvd_pow 2 (by unfold maxOrder at ho; omega)
  rcases hd with ⟨q, rfl⟩
  rcases h52 with ⟨r, hr⟩
  rw [hr] at hf ⊢
  have hqr : q + 1 ≤ r := Nat.lt_of_mul_lt_mul_left hf
  calc 2 ^ o * q + 2 ^ o = 2 ^ o * (q + 1) := by ring
    _ ≤ 2 ^ o * r := Nat.mul_le_mul_left _ hqr

/-- The block `frame` of order `order` has been taken out of the free set. -/
structure Took (s s' : Phys) (order frame : ℕ) : Prop where
  aligned : 2 ^ order ∣ frame
  subset : block order frame ⊆ freeSet s
  addr_lt : frame < 2 ^ 52
  inv : Inv s'
  total : s'.pmm.totalFrames = s.pmm.totalFrames
  hhdm : s'.pmm.hhdmOffset = s.pmm.hhdmOffset
  free_eq : freeSet s' = freeSet s \ block order frame
  mem_eq : ∀ g ∉ freeSet s, s'.mem g = s.mem g

/-- What `alloc_pages(order)` does: it takes an aligned block, or there is none. -/
def AllocPost (s : Phys) (order : ℕ) : Option ℕ → Phys → Prop
  | none, s' => s' = s ∧ ∀ f, 2 ^ order ∣ f → ¬ block order f ⊆ freeSet s
  | some addr, s' => ∃ f, addr = f * frameSize ∧ Took s s' order f

/-- A free frame would be a free block of order 0. -/
theorem AllocPost.freeSet_eq_empty {s s' : Phys} (h : AllocPost s 0 none s') : freeSet s = ∅ := by
  rw [Set.eq_empty_iff_forall_notMem]
  intro f hf
  apply h.2 f (Nat.one_dvd f)
  rw [Dyadic.block_zero]
  exact Set.singleton_subset_iff.2 hf

section

variable {L : ℕ → List ℕ} {s : Phys}

theorem Inv.two_pow_le (hI : Inv s) {order frame : ℕ} (hsub : block order frame ⊆ freeSet s) :
    2 ^ order ≤ s.pmm.freeFrames := by
  rcases hI.rep with ⟨L, hR, -⟩
  rw [hI.count, ← ncard_block order frame]
  exact Set.ncard_le_ncard hsub hR.freeSet_finite

/-- A listed block of order `current` is found: its first `2 ^ order` frames are
handed out, the rest goes back to the lists. -/
theorem takeBlock_spec (hI : Inv s) (hR : Rep L s) (hC : Coalesced maxOrder (blocksOf L))
    {order current frame : ℕ} (hle : order ≤ current) (hf : frame ∈ L current) :
    Prog.Ends (¬ PtrsOk s) (takeBlock order current (blockPtr s.pmm.hhdmOffset frame)) s
      fun addr s' => addr = frame * frameSize ∧ Took s s' order frame := by
  have hlt := (hR.ptr_ok current frame hf).frame_lt
  have hal := hR.aligned current frame hf
  have hcur := hR.order_le current frame hf
  have hbig : block current frame ⊆ freeSet s := by
    rw [hR.freeSet_eq]
    exact block_subset_covered hf
  have hpow := Nat.pow_le_pow_right (show 2 > 0 by omega) hle
  have hsmall : block order frame ⊆ block current frame := by
    intro g hg
    rw [mem_block] at hg ⊢
    omega
  have hsum : order + (current - order) = current := by omega
  rcases hR.remove hf with ⟨t, hrun, hRt, hS, hmem⟩
  have hPt : Pending (dropBlock L current frame) t (order + (current - order)) frame := by
    rw [hsum]
    refine ⟨hcur, hal, ?_, end_le_of_dvd hcur hal hlt, ?_⟩
    · rw [hS.total]
      exact hR.in_range current frame hf
    · intro g hg
      rw [hR.covered_dropBlock hf]
      exact fun h => h.2 hg
  have hsplit := splitDown_spec frame order (current - order) hRt
    (hR.coalesced_dropBlock hC current frame) hPt
  unfold takeBlock
  refine Prog.Ends.bind (Q := fun f u => frame = f ∧ s = u)
    (Prog.ends_of_ok (blockToFrame_block s frame) ⟨rfl, rfl⟩) ?_
  rintro _ _ ⟨rfl, rfl⟩
  refine Prog.Ends.bind (Q := fun _ u => t = u) (Prog.ends_of_ok hrun rfl) ?_
  rintro _ _ rfl
  refine Prog.Ends.bind (hsplit.mono (fun h => by rwa [hS.ptrsOk_iff] at h) fun _ _ h => h) ?_
  rintro _ u ⟨L', hRu, hCu, hSu, hcov, hmemu⟩
  rw [hsum] at hcov hmemu
  have hfree : freeSet u = freeSet s \ block order frame := by
    rw [hRu.freeSet_eq, hcov, hR.covered_dropBlock hf, ← hR.freeSet_eq]
    ext g
    simp only [Set.mem_union, Set.mem_sdiff]
    constructor
    · rintro (⟨hg, hg'⟩ | ⟨hg, hg'⟩)
      · exact ⟨hg, fun h => hg' (hsmall h)⟩
      · exact ⟨hbig hg, hg'⟩
    · rintro ⟨hg, hg'⟩
      by_cases hb : g ∈ block current frame
      · exact Or.inr ⟨hb, hg'⟩
      · exact Or.inl ⟨hg, hb⟩
  have hcount : u.pmm.freeFrames = s.pmm.freeFrames := (hS.trans hSu).free
  have hroom : 2 ^ order ≤ u.pmm.freeFrames := by
    rw [hcount]
    exact hI.two_pow_le (hsmall.trans hbig)
  have hshl : shlU64 frame frameShift = frame * frameSize :=
    shlU64_of_lt (by unfold frameShift; omega)
  have hend : (do
      let free ← Prog.gets (·.pmm.freeFrames)
      let free' ← subU64 free (2 ^ order)
      Prog.update fun s => { s with pmm := { s.pmm with freeFrames := free' } }
      pure (shlU64 frame frameShift) : Run Phys ℕ).run u = .ok (shlU64 frame frameShift)
        { u with pmm := { u.pmm with freeFrames := u.pmm.freeFrames - 2 ^ order } } := by
    rw [Prog.gets_bind, Prog.bind_of_ok (subU64_of_le hroom u)]
    rfl
  refine Prog.ends_of_ok hend ⟨hshl, ?_⟩
  · refine ⟨(pow_dvd_pow 2 hle).trans hal, hsmall.trans hbig, hlt, ⟨?_, ?_, ?_⟩,
      (hS.trans hSu).total, (hS.trans hSu).hhdm, hfree, ?_⟩
    · have h := (hS.trans hSu).total.symm ▸ hI.total_lt
      exact h
    · exact ⟨L', hRu.setFree _, hCu⟩
    · refine Eq.trans ?_ (congrArg Set.ncard hfree).symm
      rw [Set.ncard_sdiff (hsmall.trans hbig) (block_finite _ _), ncard_block, ← hI.count]
      exact congrArg (· - 2 ^ order) hcount
    · -- outside the free set neither the removal nor the split wrote anything
      intro g hg
      have hnot : g ∉ covered (blocksOf L) := by rwa [← hR.freeSet_eq]
      have hgL : g ∉ L current := fun h => hnot (block_subset_covered h (self_mem_block _ _))
      refine (hmemu g ?_ fun h => hg (hbig h)).trans (hmem g hgL)
      rw [hR.covered_dropBlock hf]
      exact fun h => hnot h.1

/-- The search loop, when the orders from `order` up to the current one have no block. -/
theorem allocSearch_spec (hI : Inv s) (hR : Rep L s) (hC : Coalesced maxOrder (blocksOf L))
    {order : ℕ} (ho : order ≤ maxOrder) : ∀ n, order + n ≤ maxOrder + 1 →
    (∀ o, order ≤ o → o + n ≤ maxOrder → L o = []) →
    Prog.Ends (¬ PtrsOk s) (allocSearch order n) s (AllocPost s order) := by
  intro n
  induction n with
  | zero =>
      intro hn hempty
      refine Prog.ends_of_ok rfl ⟨rfl, ?_⟩
      intro f hf hsub
      rw [hR.freeSet_eq] at hsub
      -- a free aligned block lies inside a listed one, of an order that was searched
      rcases hR.tiling.exists_mem_of_subset hC ho hf hsub with ⟨o', b', hb', hin⟩
      have hle := order_le_of_block_subset hin
      have hb'' : b' ∈ L o' := hb'
      rw [hempty o' hle (hR.order_le o' b' hb')] at hb''
      exact List.not_mem_nil hb''
  | succ n ih =>
      intro hn hempty
      have hcur : order ≤ maxOrder - n := by omega
      have hhead := hR.head_eq (show maxOrder - n ≤ maxOrder by omega)
      unfold allocSearch Prog.Ends
      rw [Prog.gets_bind, Prog.bind_of_ok (index_of_eq hhead s)]
      cases hL : L (maxOrder - n) with
      | nil =>
          refine ih (by omega) ?_
          intro o ho hon
          rcases Nat.lt_or_ge (o + n) maxOrder with hlt | hge
          · exact hempty o ho (by omega)
          · rw [show o = maxOrder - n by omega]
            exact hL
      | cons f l =>
          have hf : f ∈ L (maxOrder - n) := by
            rw [hL]
            exact List.mem_cons_self
          refine (takeBlock_spec hI hR hC hcur hf).bind ?_
          rintro addr t ⟨haddr, htook⟩
          exact Prog.ends_of_ok rfl ⟨f, haddr, htook⟩

end

/-- `alloc_pages`, for every state between calls and every order in range. -/
theorem allocPages_spec {s : Phys} (hI : Inv s) {order : ℕ} (ho : order ≤ maxOrder) :
    Prog.Ends (¬ PtrsOk s) (allocPages order) s (AllocPost s order) := by
  rcases hI.rep with ⟨L, hR, hC⟩
  have hrun : (allocPages order).run s = (allocSearch order (maxOrder + 1 - order)).run s := by
    unfold allocPages
    rw [Prog.require_bind ho]
  unfold Prog.Ends
  rw [hrun]
  exact allocSearch_spec hI hR hC ho _ (by omega) fun o _ _ => by omega

/-! ## Coalescing -/

section

variable {L : ℕ → List ℕ} {s : Phys}

/-- What is known of the block that the coalescing loop ends with. -/
structure Merged (L : ℕ → List ℕ) (s : Phys) (order frame : ℕ) (L' : ℕ → List ℕ) (s' : Phys)
    (order' frame' : ℕ) : Prop where
  rep : Rep L' s'
  coalesced : Coalesced maxOrder (blocksOf L')
  fields : SameFields s s'
  pending : Pending L' s' order' frame'
  union_eq : covered (blocksOf L') ∪ block order' frame' =
    covered (blocksOf L) ∪ block order frame
  no_buddy : order' < maxOrder → frame' ^^^ 2 ^ order' ∉ L' order'
  mem_eq : ∀ g ∉ covered (blocksOf L), s'.mem g = s.mem g

/-- A pending block and its listed buddy make up a pending block. -/
theorem Pending.merge {s' : Phys} {order frame : ℕ} (hR : Rep L s) (hP : Pending L s order frame)
    (hlt : order < maxOrder) (hb : frame ^^^ 2 ^ order ∈ L order) (hS : SameFields s s') :
    Pending (dropBlock L order (frame ^^^ 2 ^ order)) s' (order + 1) (cell (order + 1) frame) := by
  have hsplit := block_succ_cell hP.aligned
  have hpos := Nat.two_pow_pos (order + 1)
  -- the last frame of the merged block lies in one of its halves
  have hlast : cell (order + 1) frame + 2 ^ (order + 1) - 1 ∈
      block order frame ∪ block order (frame ^^^ 2 ^ order) := by
    rw [← hsplit, mem_block]
    omega
  have hP₁ := hP.in_range
  have hP₂ := hP.addr_lt
  have hb₁ := hR.in_range order _ hb
  have hb₂ := end_le_of_dvd hP.order_le (hR.aligned order _ hb) (hR.ptr_ok order _ hb).frame_lt
  refine ⟨hlt, dvd_cell _ _, ?_, ?_, ?_⟩
  · rw [hS.total]
    rcases hlast with h | h
    · rw [mem_block] at h
      omega
    · rw [mem_block] at h
      omega
  · rcases hlast with h | h
    · rw [mem_block] at h
      omega
    · rw [mem_block] at h
      omega
  · intro g hg
    rw [hsplit] at hg
    rw [hR.covered_dropBlock hb]
    rintro ⟨hg₁, hg₂⟩
    rcases hg with hg | hg
    · exact hP.unused g hg hg₁
    · exact hg₂ hg

/-- The loop of `free_pages` merges the block with its free buddies. -/
theorem coalesce_spec : ∀ (n : ℕ) {L : ℕ → List ℕ} {s : Phys} {frame : ℕ}, n ≤ maxOrder →
    Rep L s → Coalesced maxOrder (blocksOf L) → Pending L s (maxOrder - n) frame →
    ∃ b s', (coalesce n frame).run s = .ok b s' ∧
      ∃ L', Merged L s (maxOrder - n) frame L' s' b.2 b.1 := by
  intro n
  induction n with
  | zero =>
      intro L s frame hn hR hC hP
      refine ⟨_, s, rfl, L, hR, hC, SameFields.refl s, hP, rfl, ?_, fun _ _ => rfl⟩
      intro h
      exact absurd h (lt_irrefl _)
  | succ n ih =>
      intro L s frame hn hR hC hP
      have hlt : maxOrder - (n + 1) < maxOrder := by omega
      have hmod : (maxOrder - (n + 1)) % 2 ^ 8 = maxOrder - (n + 1) :=
        Nat.mod_eq_of_lt (by unfold maxOrder; omega)
      unfold coalesce
      rw [Prog.gets_bind, hmod]
      by_cases hrange : s.pmm.totalFrames ≤ frame ^^^ 2 ^ (maxOrder - (n + 1))
      · -- the buddy lies past the end of memory
        rw [if_pos hrange]
        refine ⟨_, s, rfl, L, hR, hC, SameFields.refl s, hP, rfl, ?_, fun _ _ => rfl⟩
        intro _ (hb : frame ^^^ 2 ^ (maxOrder - (n + 1)) ∈ L (maxOrder - (n + 1)))
        have := hR.in_range _ _ hb
        have := Nat.two_pow_pos (maxOrder - (n + 1))
        omega
      rw [if_neg hrange, Prog.gets_bind]
      have hlen : frame ^^^ 2 ^ (maxOrder - (n + 1)) < s.pmm.frameOrder.length := by
        rw [hR.order_len]
        omega
      have hget := List.getElem?_eq_getElem hlen
      rw [Prog.bind_of_ok (index_of_eq hget s)]
      by_cases hv : s.pmm.frameOrder[frame ^^^ 2 ^ (maxOrder - (n + 1))] = maxOrder - (n + 1)
      · -- the buddy is free: it is taken off its list and the loop goes on
        rw [if_neg (not_not_intro hv)]
        rw [hv] at hget
        have hb : frame ^^^ 2 ^ (maxOrder - (n + 1)) ∈ L (maxOrder - (n + 1)) := by
          have hne : maxOrder - (n + 1) ≠ orderNone := by
            unfold maxOrder orderNone
            omega
          have h := hR.listed _ _ hget hne
          rwa [cell_of_dvd (dvd_xor hP.aligned)] at h
        rcases hR.remove hb with ⟨t, hrun, hRt, hS, hmem⟩
        have hnext : maxOrder - (n + 1) + 1 = maxOrder - n := by omega
        have hPt := Pending.merge hR hP hlt hb hS
        have haddr := hP.addr_lt
        have hpos := Nat.two_pow_pos (maxOrder - (n + 1))
        have hmask : frame &&& notU64 (2 ^ (maxOrder - (n + 1))) =
            cell (maxOrder - (n + 1) + 1) frame := and_mask_eq_cell hP.aligned (by omega)
        rw [Prog.bind_of_ok hrun, hmask]
        have hsplit := block_succ_cell hP.aligned
        rw [hnext] at hPt hsplit ⊢
        rcases ih (by omega) hRt (hR.coalesced_dropBlock hC _ _) hPt with
          ⟨b, u, hrun', L', hM⟩
        refine ⟨b, u, hrun', L', hM.rep, hM.coalesced, hS.trans hM.fields, hM.pending, ?_,
          hM.no_buddy, ?_⟩
        · rw [hM.union_eq, hsplit, hR.covered_dropBlock hb]
          have hbsub := block_subset_covered (B := blocksOf L) hb
          ext g
          simp only [Set.mem_union, Set.mem_sdiff]
          constructor
          · rintro (hg | hg | hg)
            · exact Or.inl hg.1
            · exact Or.inr hg
            · exact Or.inl (hbsub hg)
          · rintro (hg | hg)
            · by_cases hgb : g ∈ block (maxOrder - (n + 1)) (frame ^^^ 2 ^ (maxOrder - (n + 1)))
              · exact Or.inr (Or.inr hgb)
              · exact Or.inl ⟨hg, hgb⟩
            · exact Or.inr (Or.inl hg)
        · intro g hg
          rw [hM.mem_eq g ?_]
          · exact hmem g fun h => hg (block_subset_covered h (self_mem_block _ _))
          · rw [hR.covered_dropBlock hb]
            exact fun h => hg h.1
      · rw [if_pos hv]
        refine ⟨_, s, rfl, L, hR, hC, SameFields.refl s, hP, rfl, ?_, fun _ _ => rfl⟩
        intro _ hb
        apply hv
        have h := hR.mark_self hb
        rw [hget] at h
        exact Option.some.inj h

end

/-! ## Freeing -/

/-- The block may be given to `free_pages`: in range, aligned and without a free frame. -/
structure Returnable (s : Phys) (order frame : ℕ) : Prop where
  order_le : order ≤ maxOrder
  aligned : 2 ^ order ∣ frame
  in_range : frame + 2 ^ order ≤ s.pmm.totalFrames
  unused : ∀ g ∈ block order frame, g ∉ freeSet s

/-- The frames `F` have been added to the free set. -/
structure Grew (s s' : Phys) (F : Set ℕ) : Prop where
  inv : Inv s'
  total : s'.pmm.totalFrames = s.pmm.totalFrames
  hhdm : s'.pmm.hhdmOffset = s.pmm.hhdmOffset
  free_eq : freeSet s' = freeSet s ∪ F
  mem_eq : ∀ g ∉ freeSet s', s'.mem g = s.mem g

theorem Grew.refl {s : Phys} (hI : Inv s) : Grew s s ∅ :=
  ⟨hI, rfl, rfl, (Set.union_empty _).symm, fun _ _ => rfl⟩

theorem Grew.ptrsOk {s s' : Phys} {F : Set ℕ} (h : Grew s s' F) (hptrs : PtrsOk s) : PtrsOk s' := by
  unfold PtrsOk
  rw [h.total, h.hhdm]
  exact hptrs

theorem Grew.trans {s t u : Phys} {F G : Set ℕ} (h : Grew s t F) (h' : Grew t u G) :
    Grew s u (F ∪ G) := by
  refine ⟨h'.inv, h'.total.trans h.total, h'.hhdm.trans h.hhdm, ?_, ?_⟩
  · rw [h'.free_eq, h.free_eq, Set.union_assoc]
  · intro g hg
    have hg' : g ∉ freeSet t := by
      intro hin
      apply hg
      rw [h'.free_eq]
      exact Or.inl hin
    exact (h'.mem_eq g hg).trans (h.mem_eq g hg')

section

variable {s : Phys} {order frame : ℕ}

theorem Returnable.mark (hI : Inv s) (hr : Returnable s order frame) {g : ℕ}
    (hg : g ∈ block order frame) : s.pmm.frameOrder[g]? = some orderNone := by
  rcases hI.rep with ⟨L, hR, -⟩
  exact hR.mark_of_notMem (Nat.lt_of_lt_of_le hg.2 hr.in_range) (hr.unused g hg)

/-- The checks of `free_pages` accept a returnable block. -/
theorem freeChecks_of_returnable (hI : Inv s) (hr : Returnable s order frame) :
    (freeChecks (frame * frameSize) order).run s = .ok frame s := by
  have htotal := hI.total_lt
  have hrange := hr.in_range
  have hindex : (frameIndex (frame * frameSize)).run s = .ok frame s := by
    unfold frameIndex
    rw [Prog.require_bind (Nat.mul_mod_left frame frameSize)]
    have hdiv : frame * frameSize / 2 ^ frameShift = frame :=
      Nat.mul_div_cancel frame (by decide : 0 < frameSize)
    rw [hdiv]
    rfl
  have hmod : frame % 2 ^ order = 0 := Nat.mod_eq_zero_of_dvd hr.aligned
  unfold freeChecks
  rw [Prog.require_bind hr.order_le, Prog.bind_of_ok hindex, Prog.gets_bind,
    Prog.bind_of_ok (addU64_of_lt (by omega) s), Prog.require_bind hr.in_range,
    Prog.require_bind hmod, Prog.gets_bind,
    Prog.bind_of_ok (index_of_eq (hr.mark hI (self_mem_block order frame)) s),
    Prog.require_bind rfl,
    Prog.bind_of_ok (assertBlockUnused_eq (by omega) fun g hg => hr.mark hI hg)]
  rfl

/-- The checks of `free_pages` accept nothing else. -/
theorem freeChecks_ok {s' : Phys} {addr : ℕ}
    (h : (freeChecks addr order).run s = .ok frame s') :
    s' = s ∧ addr = frame * frameSize ∧ Returnable s order frame := by
  unfold freeChecks frameIndex at h
  rcases Prog.bind_ok_iff.1 h with ⟨_, t₁, ht₁, h₁⟩
  rcases Prog.require_ok_iff.1 ht₁ with ⟨hle, rfl⟩
  rcases Prog.bind_ok_iff.1 h₁ with ⟨f, t₂, ht₂, h₂⟩
  rcases Prog.bind_ok_iff.1 ht₂ with ⟨_, t₃, ht₃, hf⟩
  rcases Prog.require_ok_iff.1 ht₃ with ⟨halign, rfl⟩
  cases hf
  rw [Prog.gets_bind] at h₂
  rcases Prog.bind_ok_iff.1 h₂ with ⟨_, t₄, ht₄, h₄⟩
  rcases addU64_ok_iff.1 ht₄ with ⟨-, rfl, rfl⟩
  rcases Prog.bind_ok_iff.1 h₄ with ⟨_, t₅, ht₅, h₅⟩
  rcases Prog.require_ok_iff.1 ht₅ with ⟨hend, rfl⟩
  rcases Prog.bind_ok_iff.1 h₅ with ⟨_, t₆, ht₆, h₆⟩
  rcases Prog.require_ok_iff.1 ht₆ with ⟨hmod, rfl⟩
  rw [Prog.gets_bind] at h₆
  rcases Prog.bind_ok_iff.1 h₆ with ⟨_, t₇, ht₇, h₇⟩
  rcases index_ok_iff.1 ht₇ with ⟨-, rfl⟩
  rcases Prog.bind_ok_iff.1 h₇ with ⟨_, t₈, ht₈, h₈⟩
  rcases Prog.require_ok_iff.1 ht₈ with ⟨-, rfl⟩
  rcases Prog.bind_ok_iff.1 h₈ with ⟨_, t₉, ht₉, h₉⟩
  rcases assertBlockUnused_ok ht₉ with ⟨rfl, hnone⟩
  cases h₉
  refine ⟨rfl, ?_, hle, Nat.dvd_of_mod_eq_zero hmod, hend, ?_⟩
  · exact (Nat.div_mul_cancel (Nat.dvd_of_mod_eq_zero halign)).symm
  · intro g hg
    exact Rep.notMem_of_mark (hnone g hg)

/-- The checks of `free_pages` change nothing, and the worst they do is to panic. -/
theorem freeChecks_checks (addr order : ℕ) :
    Prog.Checks Fault.IsPanic (freeChecks addr order) := by
  have hunused : ∀ frame, Prog.Checks Fault.IsPanic (assertBlockUnused frame order) := by
    intro frame
    refine Prog.checks_forRange (fun i => ?_) _
    refine (addU64_checks frame i).bind fun j => ?_
    refine (Prog.checks_gets _).bind fun fo => ?_
    exact (index_checks fo j).bind fun v => Prog.checks_require trivial
  have hindex : Prog.Checks Fault.IsPanic (frameIndex addr) :=
    (Prog.checks_require trivial).bind fun _ => Prog.checks_pure _
  unfold freeChecks
  refine (Prog.checks_require trivial).bind fun _ => ?_
  refine hindex.bind fun frame => ?_
  refine (Prog.checks_gets _).bind fun total => ?_
  refine (addU64_checks frame _).bind fun last => ?_
  refine (Prog.checks_require trivial).bind fun _ => ?_
  refine (Prog.checks_require trivial).bind fun _ => ?_
  refine (Prog.checks_gets _).bind fun fo => ?_
  refine (index_checks fo frame).bind fun v => ?_
  refine (Prog.checks_require trivial).bind fun _ => ?_
  exact (hunused frame).bind fun _ => Prog.checks_pure frame

/-- Room for one more block: the counter cannot overflow. -/
theorem Returnable.count_le (hI : Inv s) (hr : Returnable s order frame) :
    (freeSet s ∪ block order frame).ncard = s.pmm.freeFrames + 2 ^ order ∧
      s.pmm.freeFrames + 2 ^ order ≤ s.pmm.totalFrames := by
  rcases hI.rep with ⟨L, hR, -⟩
  have hdisj : Disjoint (freeSet s) (block order frame) := by
    rw [Set.disjoint_right]
    exact hr.unused
  have hcard : (freeSet s ∪ block order frame).ncard = s.pmm.freeFrames + 2 ^ order := by
    rw [Set.ncard_union_eq hdisj hR.freeSet_finite (block_finite _ _), ncard_block, hI.count]
  refine ⟨hcard, ?_⟩
  have hsub : freeSet s ∪ block order frame ⊆ (Finset.range s.pmm.totalFrames : Set ℕ) := by
    rintro g (hg | hg)
    · exact Finset.mem_coe.2 (Finset.mem_range.2 (hR.freeSet_lt hg))
    · exact Finset.mem_coe.2 (Finset.mem_range.2 (Nat.lt_of_lt_of_le hg.2 hr.in_range))
  have hle := Set.ncard_le_ncard hsub (Finset.finite_toSet _)
  rwa [hcard, Set.ncard_coe_finset, Finset.card_range] at hle

/-- `free_pages` on a block that passes its checks. -/
theorem freePages_spec (hI : Inv s) (hr : Returnable s order frame) (hlt : frame < 2 ^ 52) :
    Prog.Ends (¬ PtrsOk s) (freePages (frame * frameSize) order) s fun _ s' =>
      Grew s s' (block order frame) := by
  rcases hI.rep with ⟨L, hR, hC⟩
  rcases hr.count_le hI with ⟨hcard, hroom⟩
  have htotal := hI.total_lt
  have hsum : maxOrder - (maxOrder - order) = order := by
    have := hr.order_le
    omega
  have hP : Pending L { s with pmm := { s.pmm with freeFrames := s.pmm.freeFrames + 2 ^ order } }
      (maxOrder - (maxOrder - order)) frame := by
    rw [hsum]
    refine ⟨hr.order_le, hr.aligned, hr.in_range, end_le_of_dvd hr.order_le hr.aligned hlt, ?_⟩
    rw [← hR.freeSet_eq]
    exact hr.unused
  rcases coalesce_spec (maxOrder - order) (by omega) (hR.setFree _) hC hP with
    ⟨b, t, hrun, L', hM⟩
  rw [hsum] at hM
  have hfields := hM.fields
  have heq : (freePages (frame * frameSize) order).run s = (listPush b.1 b.2).run t := by
    unfold freePages
    rw [Prog.bind_of_ok (freeChecks_of_returnable hI hr), Prog.gets_bind,
      Prog.bind_of_ok (addU64_of_lt (by omega) s), Prog.update_bind, Prog.bind_of_ok hrun]
  have hptrs : ¬ PtrsOk t → ¬ PtrsOk s := fun h => by rwa [hfields.ptrsOk_iff] at h
  have hpush := (hM.rep.push_ends hM.pending).mono hptrs (fun _ _ h => h)
  unfold Prog.Ends at hpush ⊢
  rw [heq]
  cases hx : (listPush b.1 b.2).run t with
  | stop e u =>
      rw [hx] at hpush
      exact hpush
  | ok _ u =>
      rw [hx] at hpush
      rcases hpush with ⟨hRu, hS, hmem⟩
      have hfree : freeSet u = freeSet s ∪ block order frame := by
        rw [hRu.freeSet_eq, covered_pushBlock, hM.union_eq, ← hR.freeSet_eq]
      refine ⟨⟨?_, ⟨_, hRu, coalesced_pushBlock hM.coalesced hM.no_buddy⟩, ?_⟩, ?_, ?_, hfree, ?_⟩
      · rw [hS.total, hfields.total]
        exact htotal
      · rw [hS.free, hfields.free, hfree, hcard]
      · rw [hS.total, hfields.total]
      · rw [hS.hhdm, hfields.hhdm]
      · intro g hg
        rw [hRu.freeSet_eq, covered_pushBlock, Set.mem_union, not_or] at hg
        have hold : g ∉ covered (blocksOf L) := by
          intro h
          have hin : g ∈ covered (blocksOf L') ∪ block b.2 b.1 := by
            rw [hM.union_eq]
            exact Or.inl h
          rcases hin with hin | hin
          · exact hg.1 hin
          · exact hg.2 hin
        refine (hmem g hg.1 ?_).trans (hM.mem_eq g hold)
        rintro rfl
        exact hg.2 (self_mem_block _ _)

/-- What a `free_pages` call that returned has done. -/
theorem freePages_ok (hI : Inv s) {s' : Phys} {addr : ℕ} {u : Unit} (haddr : addr < 2 ^ 64)
    (h : (freePages addr order).run s = .ok u s') :
    ∃ f, addr = f * frameSize ∧ Returnable s order f ∧ Grew s s' (block order f) := by
  have h' := h
  unfold freePages at h'
  rcases Prog.bind_ok_iff.1 h' with ⟨f, t, ht, -⟩
  rcases freeChecks_ok ht with ⟨-, rfl, hr⟩
  have hlt : f < 2 ^ 52 := by
    unfold frameSize at haddr
    omega
  exact ⟨f, rfl, hr, (freePages_spec hI hr hlt).of_ok h⟩

end

/-! ## Adding a range -/

theorem two_pow_trailingZeros_dvd (a : ℕ) : 2 ^ trailingZeros a ∣ a := by
  have hlow : ∀ k, (∀ j < k, a.testBit j = false) → 2 ^ k ∣ a := by
    intro k hk
    apply Nat.dvd_of_mod_eq_zero
    apply Nat.eq_of_testBit_eq
    intro j
    rw [Nat.testBit_mod_two_pow, Nat.zero_testBit]
    by_cases hj : j < k
    · simp [hk j hj]
    · simp [hj]
  unfold trailingZeros
  cases hfind : (List.range 64).find? a.testBit with
  | none =>
      apply hlow
      intro j hj
      simpa using List.find?_eq_none.1 hfind j (List.mem_range.2 hj)
  | some i =>
      apply hlow
      intro j hj
      simpa using (List.find?_range_eq_some.1 hfind).2.2 j hj

/-- The order that `add_range` picks fits the alignment and the length. -/
theorem rangeOrder_spec (start : ℕ) {count : ℕ} (hcount : 0 < count) (hlt : count < 2 ^ 64) :
    rangeOrder start count ≤ maxOrder ∧ 2 ^ rangeOrder start count ∣ start ∧
      2 ^ rangeOrder start count ≤ count := by
  have hlog : Nat.log2 count < 64 := (Nat.log2_lt hcount.ne').2 hlt
  have hsize : 63 - leadingZeros count = Nat.log2 count := by
    unfold leadingZeros
    rw [if_neg hcount.ne']
    omega
  refine ⟨Nat.min_le_right _ _, ?_, ?_⟩
  · by_cases hz : start = 0
    · rw [hz]
      exact dvd_zero _
    · have hle : rangeOrder start count ≤ trailingZeros start := by
        unfold rangeOrder
        rw [if_neg hz]
        exact (Nat.min_le_left _ _).trans (Nat.min_le_left _ _)
      exact (pow_dvd_pow 2 hle).trans (two_pow_trailingZeros_dvd start)
  · have hle : rangeOrder start count ≤ Nat.log2 count := by
      unfold rangeOrder
      rw [hsize]
      exact (Nat.min_le_left _ _).trans (Nat.min_le_right _ _)
    exact (Nat.pow_le_pow_right (by omega) hle).trans (Nat.log2_self_le hcount.ne')

/-- `add_range` is a sequence of `free_pages` calls: it keeps what they all keep. -/
theorem addRange_induction {P : Phys → Prop}
    (hstep : ∀ {t t' : Phys} {addr order : ℕ} {u : Unit}, addr < 2 ^ 64 → P t →
      (freePages addr order).run t = .ok u t' → P t') :
    ∀ (count start : ℕ) {s s' : Phys} {u : Unit}, P s →
      (addRange start count).run s = .ok u s' → P s' := by
  intro count
  induction count using Nat.strong_induction_on with
  | _ count ih =>
      intro start s s' u hP h
      unfold addRange at h
      by_cases hz : count = 0
      · rw [dif_pos hz] at h
        cases h
        exact hP
      · rw [dif_neg hz] at h
        rcases Prog.bind_ok_iff.1 h with ⟨_, t₁, ht₁, h₁⟩
        rcases Prog.bind_ok_iff.1 h₁ with ⟨start', t₂, ht₂, h₂⟩
        rcases addU64_ok_iff.1 ht₂ with ⟨-, rfl, rfl⟩
        rcases Prog.bind_ok_iff.1 h₂ with ⟨_, t₃, ht₃, h₃⟩
        rcases Prog.bind_ok_iff.1 ht₃ with ⟨_, t₄, ht₄, hp⟩
        rcases Prog.require_ok_iff.1 ht₄ with ⟨-, rfl⟩
        cases hp
        have hpos := Nat.two_pow_pos (rangeOrder start count)
        exact ih _ (by omega) _ (hstep (Nat.mod_lt _ (by omega)) hP ht₁) h₃

/-- A range is its first block and the rest. -/
theorem block_union_Ico {start count order : ℕ} (hle : 2 ^ order ≤ count) :
    block order start ∪
        Set.Ico (start + 2 ^ order) (start + 2 ^ order + (count - 2 ^ order)) =
      Set.Ico start (start + count) := by
  have hpos := Nat.two_pow_pos order
  ext g
  simp only [Set.mem_union, mem_block, Set.mem_Ico]
  omega

/-- What an `add_range` call that returned has done. -/
theorem addRange_ok : ∀ (count start : ℕ) {s s' : Phys} {u : Unit}, Inv s →
    start + count ≤ 2 ^ 52 → (addRange start count).run s = .ok u s' →
    Grew s s' (Set.Ico start (start + count)) := by
  intro count
  induction count using Nat.strong_induction_on with
  | _ count ih =>
      intro start s s' u hI hlt h
      unfold addRange at h
      by_cases hz : count = 0
      · rw [dif_pos hz] at h
        cases h
        rw [hz, Nat.add_zero, Set.Ico_self]
        exact Grew.refl hI
      rw [dif_neg hz] at h
      have hcount : 0 < count := Nat.pos_of_ne_zero hz
      rcases rangeOrder_spec start hcount (by omega) with ⟨-, -, hle⟩
      have hpos := Nat.two_pow_pos (rangeOrder start count)
      rcases Prog.bind_ok_iff.1 h with ⟨_, t₁, ht₁, h₁⟩
      rcases Prog.bind_ok_iff.1 h₁ with ⟨start', t₂, ht₂, h₂⟩
      rcases addU64_ok_iff.1 ht₂ with ⟨-, rfl, rfl⟩
      rw [Prog.bind_of_ok (subU64_of_le hle t₂)] at h₂
      have hshl : shlU64 start frameShift = start * frameSize :=
        shlU64_of_lt (by unfold frameShift; omega)
      rw [hshl] at ht₁
      rcases freePages_ok hI (by unfold frameSize; omega) ht₁ with ⟨f, hf, -, hG⟩
      have hfs : f = start := by
        unfold frameSize at hf
        omega
      subst hfs
      rw [← block_union_Ico hle]
      exact hG.trans (ih _ (by omega) _ hG.inv (by omega) h₂)

/-- `add_range` on a range in memory that has no free frame. -/
theorem addRange_spec : ∀ (count start : ℕ) {s : Phys}, Inv s →
    start + count ≤ s.pmm.totalFrames → start + count ≤ 2 ^ 52 →
    (∀ g ∈ Set.Ico start (start + count), g ∉ freeSet s) →
    Prog.Ends (¬ PtrsOk s) (addRange start count) s fun _ s' =>
      Grew s s' (Set.Ico start (start + count)) := by
  intro count
  induction count using Nat.strong_induction_on with
  | _ count ih =>
      intro start s hI hend hlt hunused
      unfold addRange
      by_cases hz : count = 0
      · rw [dif_pos hz, hz, Nat.add_zero, Set.Ico_self]
        exact Prog.ends_of_ok rfl (Grew.refl hI)
      rw [dif_neg hz]
      have hcount : 0 < count := Nat.pos_of_ne_zero hz
      rcases rangeOrder_spec start hcount (by omega) with ⟨hmax, hal, hle⟩
      have hpos := Nat.two_pow_pos (rangeOrder start count)
      have hshl : shlU64 start frameShift = start * frameSize :=
        shlU64_of_lt (by unfold frameShift; omega)
      have hr : Returnable s (rangeOrder start count) start := by
        refine ⟨hmax, hal, by omega, ?_⟩
        intro g hg
        rw [mem_block] at hg
        exact hunused g ⟨hg.1, by omega⟩
      dsimp only
      rw [hshl]
      refine (freePages_spec hI hr (by omega)).bind ?_
      intro _ t hG
      have hrest : (do
          let start' ← addU64 start (2 ^ rangeOrder start count)
          let _ ← subU64 count (2 ^ rangeOrder start count)
          addRange start' (count - 2 ^ rangeOrder start count)).run t =
          (addRange (start + 2 ^ rangeOrder start count)
            (count - 2 ^ rangeOrder start count)).run t := by
        rw [Prog.bind_of_ok (addU64_of_lt (by omega) t), Prog.bind_of_ok (subU64_of_le hle t)]
      -- the rest of the range is still unused
      have hunused' : ∀ g ∈ Set.Ico (start + 2 ^ rangeOrder start count)
          (start + 2 ^ rangeOrder start count + (count - 2 ^ rangeOrder start count)),
          g ∉ freeSet t := by
        intro g hg
        have h₁ := hg.1
        have h₂ := hg.2
        rw [hG.free_eq]
        rintro (h | h)
        · exact hunused g ⟨by omega, by omega⟩ h
        · rw [mem_block] at h
          omega
      have hptrs : ¬ PtrsOk t → ¬ PtrsOk s := by
        unfold PtrsOk
        rw [hG.total, hG.hhdm]
        exact id
      refine Prog.Ends.congr hrest (Prog.Ends.mono (ih _ (by omega) _ hG.inv ?_ ?_ hunused')
        hptrs ?_)
      · rw [hG.total]
        omega
      · omega
      · intro _ u hA
        rw [← block_union_Ico hle]
        exact hG.trans hA

end Prometheos.Pmm
