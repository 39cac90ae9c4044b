import Prometheos.Pmm.Runs

/-!
# What `add_range` passes to `free_pages`

`add_range` cuts a range of frames into aligned blocks and frees them one after the
other. `rangeBlocks` is the list of these blocks; `addRange_eq_forM` says that the loop
is nothing but the calls of `free_pages` on them.

`Adds x F` is the contract that the calls share: on a state whose free frames are
disjoint from `F`, the code `x` returns and adds exactly `F` to the free set. Contracts
compose along disjoint sets (`Adds.bind`, `adds_forM`), so a range may be handed over in
pieces and in any order. That the order bytes come out the same is the normal form of
`Inv.frameOrder_eq`.
-/

namespace Prometheos.Pmm

open Dyadic

/-! ## The blocks of a range -/

/-- The blocks, by first frame and order, that `add_range` cuts the range into. -/
def rangeBlocks (start count : ℕ) : List (ℕ × ℕ) :=
  if _h : count = 0 then []
  else
    let order := rangeOrder start count
    (start, order) :: rangeBlocks (start + 2 ^ order) (count - 2 ^ order)
termination_by count
decreasing_by
  have := Nat.two_pow_pos (rangeOrder start count)
  omega

/-- The frames of a block. -/
def blockFrames (b : ℕ × ℕ) : Set ℕ := block b.2 b.1

/-- The call of `free_pages` that `add_range` makes for a block. -/
def freeBlock (b : ℕ × ℕ) : Run Phys Unit := freePages (shlU64 b.1 frameShift) b.2

/-- The loop of `add_range` consists of its calls of `free_pages`. -/
theorem addRange_eq_forM : ∀ (count start : ℕ), start + count < 2 ^ 64 → ∀ s : Phys,
    (addRange start count).run s = ((rangeBlocks start count).forM freeBlock).run s := by
  intro count
  induction count using Nat.strong_induction_on with
  | _ count ih =>
      intro start hlt s
      unfold addRange rangeBlocks
      by_cases hz : count = 0
      · rw [dif_pos hz, dif_pos hz]
        rfl
      rw [dif_neg hz, dif_neg hz]
      rcases rangeOrder_spec start (Nat.pos_of_ne_zero hz) (by omega) with ⟨-, -, hle⟩
      have hpos := Nat.two_pow_pos (rangeOrder start count)
      change (freePages _ _ >>= _).run s = (freePages _ _ >>= _).run s
      rw [Prog.run_bind, Prog.run_bind]
      cases (freePages (shlU64 start frameShift) (rangeOrder start count)).run s with
      | stop e t => rfl
      | ok u t =>
          -- the block is no longer than what is left
          change (addU64 start _ >>= _).run t = _
          rw [Prog.bind_of_ok (addU64_of_lt (by omega) t), Prog.bind_of_ok (subU64_of_le hle t)]
          exact ih _ (by omega) _ (by omega) t

/-- The blocks of a range are aligned, of an order the allocator has, and inside it. -/
theorem rangeBlocks_spec : ∀ (count start : ℕ), count < 2 ^ 64 → ∀ b ∈ rangeBlocks start count,
    b.2 ≤ maxOrder ∧ 2 ^ b.2 ∣ b.1 ∧ blockFrames b ⊆ Set.Ico start (start + count) := by
  intro count
  induction count using Nat.strong_induction_on with
  | _ count ih =>
      intro start hlt b hb
      unfold rangeBlocks at hb
      by_cases hz : count = 0
      · rw [dif_pos hz] at hb
        exact absurd hb List.not_mem_nil
      rw [dif_neg hz] at hb
      rcases rangeOrder_spec start (Nat.pos_of_ne_zero hz) hlt with ⟨hmax, hal, hle⟩
      have hpos := Nat.two_pow_pos (rangeOrder start count)
      rw [← block_union_Ico hle]
      rcases List.mem_cons.1 hb with rfl | hb
      · exact ⟨hmax, hal, Set.subset_union_left⟩
      · rcases ih _ (by omega) _ (by omega) b hb with ⟨hmax', hal', hsub⟩
        exact ⟨hmax', hal', hsub.trans Set.subset_union_right⟩

/-- The blocks of a range are disjoint. -/
theorem rangeBlocks_pairwise : ∀ (count start : ℕ), count < 2 ^ 64 →
    (rangeBlocks start count).Pairwise fun b c => Disjoint (blockFrames b) (blockFrames c) := by
  intro count
  induction count using Nat.strong_induction_on with
  | _ count ih =>
      intro start hlt
      unfold rangeBlocks
      by_cases hz : count = 0
      · rw [dif_pos hz]
        exact List.Pairwise.nil
      rw [dif_neg hz]
      have hpos := Nat.two_pow_pos (rangeOrder start count)
      refine List.Pairwise.cons ?_ (ih _ (by omega) _ (by omega))
      intro c hc
      rcases rangeBlocks_spec _ _ (by omega) c hc with ⟨-, -, hsub⟩
      rw [Set.disjoint_left]
      intro g hg hg'
      have h₁ := (hsub hg').1
      have h₂ : g < start + 2 ^ rangeOrder start count := hg.2
      omega

/-! ## Contracts -/

/-- `x` returns and adds the frames `F`, wherever they are in range and none of them is
free. -/
def Adds (x : Run Phys Unit) (F : Set ℕ) : Prop :=
  ∀ s, Inv s → PtrsOk s → (∀ g ∈ F, g < s.pmm.totalFrames) → Disjoint F (freeSet s) →
    ∃ s', x.run s = .ok () s' ∧ Grew s s' F

theorem adds_pure : Adds (pure ()) ∅ :=
  fun s hI _ _ _ => ⟨s, rfl, Grew.refl hI⟩

/-- Disjoint sets of frames are added one after the other. -/
theorem Adds.bind {x y : Run Phys Unit} {F G : Set ℕ} (hx : Adds x F) (hy : Adds y G)
    (hdisj : Disjoint F G) : Adds (x >>= fun _ => y) (F ∪ G) := by
  intro s hI hptrs hrange hunused
  rw [Set.disjoint_union_left] at hunused
  rcases hx s hI hptrs (fun g hg => hrange g (Or.inl hg)) hunused.1 with ⟨t, ht, hF⟩
  have hunused' : Disjoint G (freeSet t) := by
    rw [hF.free_eq, Set.disjoint_union_right]
    exact ⟨hunused.2, hdisj.symm⟩
  have hrange' : ∀ g ∈ G, g < t.pmm.totalFrames := by
    rw [hF.total]
    exact fun g hg => hrange g (Or.inr hg)
  rcases hy t hF.inv (hF.ptrsOk hptrs) hrange' hunused' with ⟨u, hu, hG⟩
  exact ⟨u, (Prog.bind_of_ok ht).trans hu, hF.trans hG⟩

/-- The frames of all members of a list. -/
def allFrames {α : Type} (F : α → Set ℕ) (l : List α) : Set ℕ := {g | ∃ a ∈ l, g ∈ F a}

theorem allFrames_nil {α : Type} (F : α → Set ℕ) : allFrames F [] = ∅ := by
  ext g
  simp [allFrames]

theorem allFrames_cons {α : Type} (F : α → Set ℕ) (a : α) (l : List α) :
    allFrames F (a :: l) = F a ∪ allFrames F l := by
  ext g
  simp [allFrames]

/-- A loop over pairwise disjoint sets of frames adds them all. -/
theorem adds_forM {α : Type} {f : α → Run Phys Unit} {F : α → Set ℕ} :
    ∀ {l : List α}, (∀ a ∈ l, Adds (f a) (F a)) → (l.Pairwise fun a b => Disjoint (F a) (F b)) →
      Adds (l.forM f) (allFrames F l) := by
  intro l
  induction l with
  | nil =>
      intro _ _
      rw [allFrames_nil]
      exact adds_pure
  | cons a l ih =>
      intro hadds hpair
      rcases List.pairwise_cons.1 hpair with ⟨ha, hrest⟩
      have hdisj : Disjoint (F a) (allFrames F l) := by
        rw [Set.disjoint_right]
        rintro g ⟨b, hb, hg⟩
        exact Set.disjoint_right.1 (ha b hb) hg
      rw [allFrames_cons]
      exact (hadds a List.mem_cons_self).bind
        (ih (fun b hb => hadds b (List.mem_cons_of_mem a hb)) hrest) hdisj

/-- With valid pointers, memory has at most `2 ^ 52` frames. -/
theorem PtrsOk.lt {s : Phys} (h : PtrsOk s) {n : ℕ} (hn : n ≤ s.pmm.totalFrames) : n ≤ 2 ^ 52 := by
  by_contra hlt
  have := (h (n - 1) (by omega)).frame_lt
  omega

/-- There are at most as many free frames as frames. -/
theorem Inv.freeFrames_le {s : Phys} (hI : Inv s) : s.pmm.freeFrames ≤ s.pmm.totalFrames := by
  rcases hI.rep with ⟨L, hR, -⟩
  have hsub : freeSet s ⊆ (Finset.range s.pmm.totalFrames : Set ℕ) := by
    intro g hg
    exact Finset.mem_coe.2 (Finset.mem_range.2 (hR.freeSet_lt hg))
  have hle := Set.ncard_le_ncard hsub (Finset.finite_toSet _)
  rwa [← hI.count, Set.ncard_coe_finset, Finset.card_range] at hle

theorem freeBlock_adds {b : ℕ × ℕ} (ho : b.2 ≤ maxOrder) (hal : 2 ^ b.2 ∣ b.1) :
    Adds (freeBlock b) (blockFrames b) := by
  intro s hI hptrs hrange hunused
  have hlast := hrange (b.1 + 2 ^ b.2 - 1) (by
    have := Nat.two_pow_pos b.2
    exact ⟨by omega, by omega⟩)
  have hfirst := hrange b.1 (self_mem_block b.2 b.1)
  have hlt := (hptrs b.1 hfirst).frame_lt
  have hr : Returnable s b.2 b.1 := ⟨ho, hal, by omega, Set.disjoint_left.1 hunused⟩
  rcases (freePages_spec hI hr hlt).exists_ok (not_not_intro hptrs) with ⟨_, s', hrun, hG⟩
  have hshl : shlU64 b.1 frameShift = b.1 * frameSize :=
    shlU64_of_lt (by unfold frameShift; omega)
  refine ⟨s', ?_, hG⟩
  unfold freeBlock
  rw [hshl]
  exact hrun

theorem addRange_adds (start count : ℕ) :
    Adds (addRange start count) (Set.Ico start (start + count)) := by
  intro s hI hptrs hrange hunused
  by_cases hz : count = 0
  · refine ⟨s, ?_, ?_⟩
    · unfold addRange
      rw [dif_pos hz]
      rfl
    · rw [hz, Nat.add_zero, Set.Ico_self]
      exact Grew.refl hI
  have hend : start + count ≤ s.pmm.totalFrames := by
    have := hrange (start + count - 1) ⟨by omega, by omega⟩
    omega
  rcases (addRange_spec count start hI hend (hptrs.lt hend) (Set.disjoint_left.1 hunused)).exists_ok
    (not_not_intro hptrs) with ⟨_, s', hrun, hG⟩
  exact ⟨s', hrun, hG⟩

/-- The blocks of a range make up the range. -/
theorem allFrames_rangeBlocks : ∀ (count start : ℕ), count < 2 ^ 64 →
    allFrames blockFrames (rangeBlocks start count) = Set.Ico start (start + count) := by
  intro count
  induction count using Nat.strong_induction_on with
  | _ count ih =>
      intro start hlt
      unfold rangeBlocks
      by_cases hz : count = 0
      · rw [dif_pos hz, hz, Nat.add_zero, Set.Ico_self, allFrames_nil]
      rw [dif_neg hz]
      rcases rangeOrder_spec start (Nat.pos_of_ne_zero hz) hlt with ⟨-, -, hle⟩
      have hpos := Nat.two_pow_pos (rangeOrder start count)
      dsimp only
      rw [allFrames_cons, ih _ (by omega) _ (by omega)]
      exact block_union_Ico hle

/-- Where `add_range` returns, the range was in memory and none of its frames was free. -/
theorem addRange_returns : ∀ (count start : ℕ) {s s' : Phys}, Inv s →
    s.pmm.totalFrames < 2 ^ 52 → start < 2 ^ 52 → count < 2 ^ 64 →
    (addRange start count).run s = .ok () s' →
    (count = 0 ∨ start + count ≤ s.pmm.totalFrames) ∧
      Disjoint (Set.Ico start (start + count)) (freeSet s) ∧
      Grew s s' (Set.Ico start (start + count)) := by
  intro count
  induction count using Nat.strong_induction_on with
  | _ count ih =>
      intro start s s' hI htotal hstart hcount h
      unfold addRange at h
      by_cases hz : count = 0
      · rw [dif_pos hz] at h
        cases h
        rw [hz, Nat.add_zero, Set.Ico_self]
        exact ⟨Or.inl rfl, Set.empty_disjoint _, Grew.refl hI⟩
      rw [dif_neg hz] at h
      rcases rangeOrder_spec start (Nat.pos_of_ne_zero hz) hcount with ⟨-, -, hle⟩
      have hpos := Nat.two_pow_pos (rangeOrder start count)
      rcases Prog.bind_ok_iff.1 h with ⟨_, t, ht, h₁⟩
      rcases Prog.bind_ok_iff.1 h₁ with ⟨start', t₂, ht₂, h₂⟩
      rcases addU64_ok_iff.1 ht₂ with ⟨-, rfl, rfl⟩
      rw [Prog.bind_of_ok (subU64_of_le hle t₂)] at h₂
      have hshl : shlU64 start frameShift = start * frameSize :=
        shlU64_of_lt (by unfold frameShift; omega)
      rw [hshl] at ht
      rcases freePages_ok hI (by unfold frameSize; omega) ht with ⟨f, hf, hr, hG⟩
      have hfs : f = start := by
        unfold frameSize at hf
        omega
      subst hfs
      have hin := hr.in_range
      rcases ih _ (by omega) _ hG.inv (by rw [hG.total]; exact htotal) (by omega) (by omega) h₂ with
        ⟨hend, hdisj, hG'⟩
      rw [hG.free_eq, Set.disjoint_union_right] at hdisj
      rw [hG.total] at hend
      rw [← block_union_Ico hle, Set.disjoint_union_left]
      exact ⟨Or.inr (by omega), ⟨Set.disjoint_left.2 hr.unused, hdisj.1⟩, hG.trans hG'⟩

/-! ## Pieces -/

/-- The range that starts at `start`, in consecutive pieces of the given lengths. -/
def consecutive (start : ℕ) : List ℕ → List (ℕ × ℕ)
  | [] => []
  | n :: lens => (start, n) :: consecutive (start + n) lens

/-- `add_range` on one piece after the other. -/
def addRanges (pieces : List (ℕ × ℕ)) : Run Phys Unit := pieces.forM fun p => addRange p.1 p.2

/-- The frames of a piece. -/
def pieceFrames (p : ℕ × ℕ) : Set ℕ := Set.Ico p.1 (p.1 + p.2)

/-- The pieces make up the range. -/
theorem allFrames_consecutive : ∀ (lens : List ℕ) (start : ℕ),
    allFrames pieceFrames (consecutive start lens) = Set.Ico start (start + lens.sum) := by
  intro lens
  induction lens with
  | nil =>
      intro start
      rw [consecutive, allFrames_nil, List.sum_nil, Nat.add_zero, Set.Ico_self]
  | cons n lens ih =>
      intro start
      rw [consecutive, allFrames_cons, ih, List.sum_cons, ← Nat.add_assoc]
      exact Set.Ico_union_Ico_eq_Ico (Nat.le_add_right _ _) (Nat.le_add_right _ _)

/-- No two pieces have a common frame. -/
theorem consecutive_pairwise : ∀ (lens : List ℕ) (start : ℕ),
    (consecutive start lens).Pairwise fun p q => Disjoint (pieceFrames p) (pieceFrames q) := by
  intro lens
  induction lens with
  | nil => exact fun _ => List.Pairwise.nil
  | cons n lens ih =>
      intro start
      refine List.Pairwise.cons ?_ (ih _)
      intro q hq
      rw [Set.disjoint_left]
      intro g hg hg'
      have hin : g ∈ allFrames pieceFrames (consecutive (start + n) lens) := ⟨q, hq, hg'⟩
      rw [allFrames_consecutive] at hin
      exact absurd hg.2 (Nat.not_lt.2 hin.1)

/-- The pieces of a range, in any order, add up to the range. -/
theorem addRanges_adds {start : ℕ} {lens : List ℕ} {pieces : List (ℕ × ℕ)}
    (hperm : pieces.Perm (consecutive start lens)) :
    Adds (addRanges pieces) (Set.Ico start (start + lens.sum)) := by
  have hset : allFrames pieceFrames pieces = Set.Ico start (start + lens.sum) := by
    rw [← allFrames_consecutive]
    ext g
    constructor
    · rintro ⟨p, hp, hg⟩
      exact ⟨p, hperm.mem_iff.1 hp, hg⟩
    · rintro ⟨p, hp, hg⟩
      exact ⟨p, hperm.mem_iff.2 hp, hg⟩
  rw [← hset]
  refine adds_forM (fun p _ => addRange_adds p.1 p.2) ?_
  exact (hperm.pairwise_iff fun h => h.symm).2 (consecutive_pairwise lens start)

/-! ## The range as a whole -/

/-- `add_range` on a range in memory that has no free frame, in a reachable state whose
direct map covers memory. It consists of calls of `free_pages` on aligned blocks; each of
them lies in the range, and none of its frames is free when its turn comes. The call
returns, and adds exactly the range to the free set. The order bytes at the end are those
that any other way of handing the range over leaves behind: in consecutive pieces, in any
order. -/
theorem addRange_exact {s : Phys} (h : Reachable s) (hptrs : PtrsOk s) {start count : ℕ}
    (hend : start + count ≤ s.pmm.totalFrames)
    (hunused : ∀ g, start ≤ g → g < start + count → g ∉ freeSet s) :
    (addRange start count).run s = ((rangeBlocks start count).forM freeBlock).run s ∧
    (∀ before f o after, rangeBlocks start count = before ++ (f, o) :: after →
      o ≤ maxOrder ∧ 2 ^ o ∣ f ∧ ∃ t, (before.forM freeBlock).run s = .ok () t ∧
        ∀ g, f ≤ g → g < f + 2 ^ o → start ≤ g ∧ g < start + count ∧ g ∉ freeSet t) ∧
    ∃ s', (addRange start count).run s = .ok () s' ∧
      freeSet s' = freeSet s ∪ {g | start ≤ g ∧ g < start + count} ∧
      ∀ lens pieces, lens.sum = count → pieces.Perm (consecutive start lens) →
        ∃ u, (addRanges pieces).run s = .ok () u ∧ u.pmm.frameOrder = s'.pmm.frameOrder := by
  have hI := h.inv
  have hsmall := hptrs.lt hend
  have hdisj : Disjoint (Set.Ico start (start + count)) (freeSet s) := by
    rw [Set.disjoint_left]
    exact fun g hg => hunused g hg.1 hg.2
  have hrange : ∀ g ∈ Set.Ico start (start + count), g < s.pmm.totalFrames :=
    fun g hg => Nat.lt_of_lt_of_le hg.2 hend
  refine ⟨addRange_eq_forM count start (by omega) s, ?_, ?_⟩
  · intro before f o after hsplit
    have hblocks := rangeBlocks_spec count start (by omega)
    have hpair := rangeBlocks_pairwise count start (by omega)
    rw [hsplit] at hblocks hpair
    rcases hblocks (f, o) (by simp) with ⟨ho, hal, hsub⟩
    rcases List.pairwise_append.1 hpair with ⟨hpair₁, -, hpair₂⟩
    -- the blocks before this one have been added to the free set
    have hin : allFrames blockFrames before ⊆ Set.Ico start (start + count) := by
      rintro g ⟨b, hb, hg⟩
      exact (hblocks b (List.mem_append_left _ hb)).2.2 hg
    have hadds : Adds (before.forM freeBlock) (allFrames blockFrames before) := by
      refine adds_forM (fun b hb => ?_) hpair₁
      rcases hblocks b (List.mem_append_left _ hb) with ⟨hob, halb, -⟩
      exact freeBlock_adds hob halb
    rcases hadds s hI hptrs (fun g hg => hrange g (hin hg)) (hdisj.mono_left hin) with ⟨t, ht, hG⟩
    refine ⟨ho, hal, t, ht, ?_⟩
    intro g hle hlt
    have hg : g ∈ Set.Ico start (start + count) := hsub ⟨hle, hlt⟩
    refine ⟨hg.1, hg.2, ?_⟩
    rw [hG.free_eq]
    rintro (hfree | ⟨b, hb, hgb⟩)
    · exact hunused g hg.1 hg.2 hfree
    · exact Set.disjoint_left.1 (hpair₂ b hb (f, o) List.mem_cons_self) hgb ⟨hle, hlt⟩
  · rcases addRange_adds start count s hI hptrs hrange hdisj with ⟨s', hrun, hG⟩
    refine ⟨s', hrun, hG.free_eq, ?_⟩
    intro lens pieces hsum hperm
    have hadds := addRanges_adds hperm
    rw [hsum] at hadds
    rcases hadds s hI hptrs hrange hdisj with ⟨u, hu, hG'⟩
    -- the two runs end with the same free set
    refine ⟨u, hu, hG'.inv.frameOrder_eq hG.inv ?_ ?_⟩
    · rw [hG'.total, hG.total]
    · rw [hG'.free_eq, hG.free_eq]

/-- Three frames after frame 0, handed over at once or in three pieces. -/
theorem addRange_exact_three_frames : ∃ s s' u, Reachable s ∧ PtrsOk s ∧
    (addRange 1 3).run s = .ok () s' ∧ (addRanges [(2, 1), (3, 1), (1, 1)]).run s = .ok () u ∧
    u.pmm.frameOrder = s'.pmm.frameOrder := by
  have hruns : ∀ s, Fresh s → s.pmm.totalFrames = 4 → s.pmm.hhdmOffset = 4096 →
      ∃ s' u, Reachable s ∧ PtrsOk s ∧ (addRange 1 3).run s = .ok () s' ∧
        (addRanges [(2, 1), (3, 1), (1, 1)]).run s = .ok () u ∧
        u.pmm.frameOrder = s'.pmm.frameOrder := by
    intro s hfresh htotal hhdm
    have hreach : Reachable s := ⟨s, hfresh, .refl⟩
    have hptrs : PtrsOk s := by
      intro f hf
      unfold PtrOk blockPtr
      omega
    have hunused : ∀ g, 1 ≤ g → g < 1 + 3 → g ∉ freeSet s := by
      intro g _ _
      rw [hfresh.freeSet_eq]
      exact Set.notMem_empty g
    rcases addRange_exact hreach hptrs (by omega) hunused with ⟨-, -, s', hrun, -, hpieces⟩
    rcases hpieces [1, 1, 1] [(2, 1), (3, 1), (1, 1)] rfl (by decide) with ⟨u, hu, horder⟩
    exact ⟨s', u, hreach, hptrs, hrun, hu, horder⟩
  exact ⟨_, hruns _ ⟨[0, 0, 0, 0], 4, 4096, fun _ _ => 0, by decide, rfl⟩ rfl rfl⟩

/-- The second of two frames has no pointer: nothing is wrong with the range, but handing it
over panics. -/
theorem addRange_push_overflow : ∃ s s', Reachable s ∧ 1 + 1 ≤ s.pmm.totalFrames ∧
    freeSet s = ∅ ∧ (addRange 1 1).run s = .stop (.panic "attempt to add with overflow") s' := by
  have hfresh : Fresh _ := ⟨[0, 0], 2, 2 ^ 64 - 4096, fun _ _ => 0, by decide, rfl⟩
  unfold addRange
  exact ⟨_, _, ⟨_, hfresh, .refl⟩, by decide, hfresh.freeSet_eq, rfl⟩

end Prometheos.Pmm
