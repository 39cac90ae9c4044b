import Prometheos.Pmm.AddRange

/-!
# Which words of memory the allocator writes

The allocator keeps its lists in the free frames themselves: `FreeBlock { prev, next }` lies
in the first 16 bytes of a block's first frame. `LinkWrites F s s'` says that memory differs
in such links only: in the first two words of frames in `F`, and each changed word is a link
to a frame in `F`, or none.

`freePages_writes` is the result for `free_pages`: it writes links between the frames that
start a free block before the call or after it, and nothing else. `Tracked s T t` follows it
through a run: since the state `s`, nothing but the first two words of the frames `T` has
changed, and these hold links. After a sequence of `free_pages` calls, `T` is made of the
frames that started a free block at some moment (`Touched`, `Tracked.forM`).
-/

namespace Prometheos.Pmm

open Dyadic Linked

/-- The word is a link to a frame in `F`, or none. -/
def LinkInto (hhdm : ℕ) (F : Set ℕ) (w : Word) : Prop :=
  ∃ node : Option ℕ, (∀ f, node = some f → f ∈ F) ∧ w = ptrWord (node.map (blockPtr hhdm))

/-- Memory differs in links between the frames in `F` only. -/
def LinkWrites (F : Set ℕ) (s s' : Phys) : Prop :=
  ∀ g j, s'.mem g j ≠ s.mem g j → g ∈ F ∧ j < 2 ∧ LinkInto s.pmm.hhdmOffset F (s'.mem g j)

theorem LinkInto.mono {hhdm : ℕ} {F G : Set ℕ} {w : Word} (h : LinkInto hhdm F w) (hFG : F ⊆ G) :
    LinkInto hhdm G w := by
  rcases h with ⟨node, hnode, hw⟩
  exact ⟨node, fun f hf => hFG (hnode f hf), hw⟩

theorem LinkWrites.refl (F : Set ℕ) (s : Phys) : LinkWrites F s s :=
  fun _ _ hne => absurd rfl hne

theorem LinkWrites.mono {F G : Set ℕ} {s s' : Phys} (h : LinkWrites F s s') (hFG : F ⊆ G) :
    LinkWrites G s s' := by
  intro g j hne
  rcases h g j hne with ⟨hg, hj, hw⟩
  exact ⟨hFG hg, hj, hw.mono hFG⟩

theorem LinkWrites.trans {F : Set ℕ} {s t u : Phys} (h : LinkWrites F s t) (h' : LinkWrites F t u)
    (hhdm : t.pmm.hhdmOffset = s.pmm.hhdmOffset) : LinkWrites F s u := by
  intro g j hne
  by_cases hlast : u.mem g j = t.mem g j
  · rw [hlast] at hne ⊢
    exact h g j hne
  · have hw := h' g j hlast
    rwa [hhdm] at hw

/-- A word that is read as a link is that link. -/
theorem eq_ptrWord_of_wordPtr {w : Word} {p : Option ℕ} (h : wordPtr w = p) : w = ptrWord p := by
  unfold wordPtr at h
  by_cases hw : w = 0
  · rw [if_pos hw] at h
    rw [hw, ← h]
    rfl
  · rw [if_neg hw] at h
    rw [← h]
    simp [ptrWord]

/-! ## The list operations -/

/-- The first frames of the listed blocks. -/
def starts (L : ℕ → List ℕ) : Set ℕ := {g | ∃ o, g ∈ L o}

section

variable {L : ℕ → List ℕ} {s s' : Phys} {order frame : ℕ}

/-- The links of a listed block. -/
theorem Rep.link_words (hR : Rep L s) (hf : frame ∈ starts L) {j : ℕ} (hj : j < 2) :
    LinkInto s.pmm.hhdmOffset (starts L) (s.mem frame j) := by
  rcases hf with ⟨o, hf⟩
  rcases List.append_of_mem hf with ⟨l₁, l₂, hL⟩
  rcases hR.neighbours hL with ⟨hp, hn⟩
  have hcases : j = 0 ∨ j = 1 := by omega
  rcases hcases with rfl | rfl
  · refine ⟨l₁.getLast?, ?_, eq_ptrWord_of_wordPtr hp⟩
    intro f hf'
    refine ⟨o, ?_⟩
    rw [hL]
    exact List.mem_append_left _ (List.mem_of_getLast? hf')
  · refine ⟨l₂.head?, ?_, eq_ptrWord_of_wordPtr hn⟩
    intro f hf'
    refine ⟨o, ?_⟩
    rw [hL]
    exact List.mem_append_right _ (List.mem_cons_of_mem _ (List.mem_of_mem_head? hf'))

theorem Rep.push_writes (hR : Rep L s) (hP : Pending L s order frame)
    (h : (listPush frame order).run s = .ok () s') :
    LinkWrites (starts (pushBlock L order frame)) s s' := by
  have hpos := Nat.two_pow_pos order
  have haddr := hP.addr_lt
  have hptr := listPush_ok (by omega) h
  have hnone : ∀ g ∈ block order frame, s.pmm.frameOrder[g]? = some orderNone := by
    intro g hg
    apply hR.mark_of_notMem (Nat.lt_of_lt_of_le hg.2 hP.in_range)
    rw [hR.freeSet_eq]
    exact hP.unused g hg
  rw [listPush_eq hptr hP.order_le hP.in_range hR.order_len hnone (hR.head_eq hP.order_le)] at h
  cases h
  have hself : frame ∈ starts (pushBlock L order frame) :=
    ⟨order, mem_pushBlock.2 (Or.inl ⟨rfl, rfl⟩)⟩
  have hhead : ∀ g, (L order).head? = some g → g ∈ starts (pushBlock L order frame) :=
    fun g hg => ⟨order, mem_pushBlock.2 (Or.inr (List.mem_of_mem_head? hg))⟩
  intro g j hne
  dsimp only at hne ⊢
  rw [pushMem_apply] at hne ⊢
  split_ifs at hne ⊢ with h₁ h₂ h₃
  · -- the old head gets its predecessor
    refine ⟨hhead g h₁.1, by omega, some frame, ?_, rfl⟩
    rintro f ⟨⟩
    exact hself
  · refine ⟨h₂.1 ▸ hself, by omega, (L order).head?, hhead, rfl⟩
  · exact ⟨h₃.1 ▸ hself, by omega, none, nofun, rfl⟩
  · exact absurd rfl hne

theorem Rep.remove_writes (hR : Rep L s) (hf : frame ∈ L order)
    (h : (listRemove frame order).run s = .ok () s') : LinkWrites (starts L) s s' := by
  have horder := hR.order_le order frame hf
  have hlists : order < s.pmm.freeLists.length := by
    rw [hR.lists_len]
    exact Nat.lt_succ_of_le horder
  rcases List.append_of_mem hf with ⟨l₁, l₂, hL⟩
  rcases hR.neighbours hL with ⟨hp, hn⟩
  rw [listRemove_eq (hR.ptr_ok order frame hf) horder (hR.in_range order frame hf) hR.order_len
    (hR.mark_self hf) hlists hp hn] at h
  cases h
  have hprev : ∀ g, l₁.getLast? = some g → g ∈ starts L := by
    intro g hg
    refine ⟨order, ?_⟩
    rw [hL]
    exact List.mem_append_left _ (List.mem_of_getLast? hg)
  have hnext : ∀ g, l₂.head? = some g → g ∈ starts L := by
    intro g hg
    refine ⟨order, ?_⟩
    rw [hL]
    exact List.mem_append_right _ (List.mem_cons_of_mem _ (List.mem_of_mem_head? hg))
  intro g j hne
  dsimp only at hne ⊢
  rw [removeMem_apply] at hne ⊢
  split_ifs at hne ⊢ with h₁ h₂
  · exact ⟨hnext g h₁.1, by omega, l₁.getLast?, hprev, rfl⟩
  · exact ⟨hprev g h₂.1, by omega, l₂.head?, hnext, rfl⟩
  · exact absurd rfl hne

theorem Rep.starts_dropBlock (hR : Rep L s) (order frame : ℕ) :
    starts (dropBlock L order frame) ⊆ starts L := by
  rintro g ⟨o, hg⟩
  exact ⟨o, ((mem_dropBlock (hR.nodup order)).1 hg).1⟩

end

/-! ## Freeing -/

/-- The coalescing loop writes links between listed blocks. -/
theorem coalesce_writes : ∀ (n : ℕ) {L : ℕ → List ℕ} {s s' : Phys} {frame : ℕ} {b : ℕ × ℕ},
    n ≤ maxOrder → Rep L s → Pending L s (maxOrder - n) frame →
    (coalesce n frame).run s = .ok b s' → LinkWrites (starts L) s s' := by
  intro n
  induction n with
  | zero =>
      intro L s s' frame b _ _ _ h
      cases h
      exact LinkWrites.refl _ s
  | succ n ih =>
      intro L s s' frame b hn hR hP h
      have hlt : maxOrder - (n + 1) < maxOrder := by omega
      have hnext : maxOrder - (n + 1) + 1 = maxOrder - n := by omega
      have hmod : (maxOrder - (n + 1)) % 2 ^ 8 = maxOrder - (n + 1) :=
        Nat.mod_eq_of_lt (by unfold maxOrder; omega)
      unfold coalesce at h
      rw [Prog.gets_bind, hmod] at h
      split_ifs at h with hrange
      · cases h
        exact LinkWrites.refl _ s
      rw [Prog.gets_bind] at h
      rcases Prog.bind_ok_iff.1 h with ⟨v, t₁, ht₁, h₁⟩
      rcases index_ok_iff.1 ht₁ with ⟨hget, rfl⟩
      split_ifs at h₁ with hv
      · cases h₁
        exact LinkWrites.refl _ _
      -- the buddy is listed: it is taken off its list and the loop goes on
      rw [not_not.1 hv] at hget
      have hb : frame ^^^ 2 ^ (maxOrder - (n + 1)) ∈ L (maxOrder - (n + 1)) := by
        have hne : maxOrder - (n + 1) ≠ orderNone := by
          unfold maxOrder orderNone
          omega
        have hcell := hR.listed _ _ hget hne
        rwa [cell_of_dvd (dvd_xor hP.aligned)] at hcell
      rcases hR.remove hb with ⟨t, hrun, hRt, hS, -⟩
      rw [Prog.bind_of_ok hrun] at h₁
      have hPt := Pending.merge hR hP hlt hb hS
      have haddr := hP.addr_lt
      have hpos := Nat.two_pow_pos (maxOrder - (n + 1))
      have hmask : frame &&& notU64 (2 ^ (maxOrder - (n + 1))) =
          cell (maxOrder - (n + 1) + 1) frame := and_mask_eq_cell hP.aligned (by omega)
      rw [hmask, hnext] at h₁
      rw [hnext] at hPt
      have hrest := ih (by omega) hRt hPt h₁
      exact (hR.remove_writes hb hrun).trans (hrest.mono (hR.starts_dropBlock _ _)) hS.hhdm

/-- The first frames of the free blocks. -/
def blockStarts (s : Phys) : Set ℕ := {g | ∃ o, FreeBlock s o g}

theorem Rep.blockStarts_eq {L : ℕ → List ℕ} {s : Phys} (hR : Rep L s) :
    blockStarts s = starts L := by
  ext g
  constructor
  · rintro ⟨o, hg⟩
    exact ⟨o, (hR.freeBlock_iff o g).1 hg⟩
  · rintro ⟨o, hg⟩
    exact ⟨o, (hR.freeBlock_iff o g).2 hg⟩

/-- `free_pages` writes links between the frames that start a free block before the call or
after it. -/
theorem freePages_writes {s s' : Phys} (hI : Inv s) {order addr : ℕ} (haddr : addr < 2 ^ 64)
    (h : (freePages addr order).run s = .ok () s') :
    LinkWrites (blockStarts s ∪ blockStarts s') s s' := by
  rcases hI.rep with ⟨L, hR, hC⟩
  rcases freePages_ok hI haddr h with ⟨f, rfl, hr, -⟩
  rcases hr.count_le hI with ⟨-, hroom⟩
  have htotal := hI.total_lt
  have hlt : f < 2 ^ 52 := by
    unfold frameSize at haddr
    omega
  have hsum : maxOrder - (maxOrder - order) = order := by
    have := hr.order_le
    omega
  have hP : Pending L { s with pmm := { s.pmm with freeFrames := s.pmm.freeFrames + 2 ^ order } }
      (maxOrder - (maxOrder - order)) f := by
    rw [hsum]
    refine ⟨hr.order_le, hr.aligned, hr.in_range, end_le_of_dvd hr.order_le hr.aligned hlt, ?_⟩
    rw [← hR.freeSet_eq]
    exact hr.unused
  rcases coalesce_spec (maxOrder - order) (by omega) (hR.setFree _) hC hP with
    ⟨b, t, hrun, L', hM⟩
  unfold freePages at h
  rw [Prog.bind_of_ok (freeChecks_of_returnable hI hr), Prog.gets_bind,
    Prog.bind_of_ok (addU64_of_lt (by omega) s), Prog.update_bind, Prog.bind_of_ok hrun] at h
  -- the loop only edits lists of `s`; the push only edits lists of `s'`
  have hmerge := coalesce_writes (maxOrder - order) (by omega) (hR.setFree _) hP hrun
  have hpush := hM.rep.push_writes hM.pending h
  have hR' := ((hM.rep.push_ends hM.pending).of_ok h).1
  rw [← hR.blockStarts_eq] at hmerge
  rw [← hR'.blockStarts_eq] at hpush
  exact LinkWrites.trans (s := s) (hmerge.mono Set.subset_union_left)
    (hpush.mono Set.subset_union_right) hM.fields.hhdm

/-! ## Runs -/

/-- Since the state `s`, memory has changed in the links of the frames `T` only. -/
structure Tracked (s : Phys) (T : Set ℕ) (t : Phys) : Prop where
  inv : Inv t
  total : t.pmm.totalFrames = s.pmm.totalFrames
  hhdm : t.pmm.hhdmOffset = s.pmm.hhdmOffset
  starts : blockStarts t ⊆ T
  below : ∀ g ∈ T, g < s.pmm.totalFrames
  links : ∀ g ∈ T, ∀ j < 2, LinkInto s.pmm.hhdmOffset T (t.mem g j)
  kept : ∀ g j, ¬ (g ∈ T ∧ j < 2) → t.mem g j = s.mem g j

theorem Inv.blockStarts_lt {s : Phys} (hI : Inv s) {g : ℕ} (hg : g ∈ blockStarts s) :
    g < s.pmm.totalFrames := by
  rcases hI.rep with ⟨L, hR, -⟩
  rw [hR.blockStarts_eq] at hg
  rcases hg with ⟨o, hg⟩
  exact Nat.lt_of_lt_of_le (Nat.lt_add_of_pos_right (Nat.two_pow_pos o)) (hR.in_range o g hg)

/-- The links of the free blocks lead to free blocks. -/
theorem Inv.link_words {s : Phys} (hI : Inv s) {g j : ℕ} (hg : g ∈ blockStarts s) (hj : j < 2) :
    LinkInto s.pmm.hhdmOffset (blockStarts s) (s.mem g j) := by
  rcases hI.rep with ⟨L, hR, -⟩
  rw [hR.blockStarts_eq] at hg ⊢
  exact hR.link_words hg hj

theorem Inv.tracked {s : Phys} (hI : Inv s) : Tracked s (blockStarts s) s :=
  ⟨hI, rfl, rfl, subset_rfl, fun _ hg => hI.blockStarts_lt hg,
    fun _ hg _ hj => hI.link_words hg hj, fun _ _ _ => rfl⟩

/-- One call of `free_pages`. -/
theorem Tracked.free {s t t' : Phys} {T : Set ℕ} (h : Tracked s T t) {addr order : ℕ}
    (haddr : addr < 2 ^ 64) (hrun : (freePages addr order).run t = .ok () t') :
    Tracked s (T ∪ blockStarts t') t' := by
  rcases freePages_ok h.inv haddr hrun with ⟨f, -, -, hG⟩
  have hW := freePages_writes h.inv haddr hrun
  have hsub : blockStarts t ∪ blockStarts t' ⊆ T ∪ blockStarts t' :=
    Set.union_subset_union_left _ h.starts
  have hhdm := hG.hhdm.trans h.hhdm
  refine ⟨hG.inv, hG.total.trans h.total, hhdm, Set.subset_union_right, ?_, ?_, ?_⟩
  · rintro g (hg | hg)
    · exact h.below g hg
    · rw [← h.total, ← hG.total]
      exact hG.inv.blockStarts_lt hg
  · intro g hg j hj
    by_cases hsame : t'.mem g j = t.mem g j
    · rcases hg with hg | hg
      · rw [hsame]
        exact (h.links g hg j hj).mono Set.subset_union_left
      · rw [← hhdm]
        exact (hG.inv.link_words hg hj).mono Set.subset_union_right
    · -- what the call writes are links
      have hlink := (hW g j hsame).2.2
      rw [h.hhdm] at hlink
      exact hlink.mono hsub
  · intro g j hout
    have hsame : t'.mem g j = t.mem g j := by
      by_contra hne
      rcases hW g j hne with ⟨hg, hj, -⟩
      exact hout ⟨hsub hg, hj⟩
    rw [hsame]
    exact h.kept g j fun hin => hout ⟨Or.inl hin.1, hin.2⟩

theorem Tracked.addRange {s t t' : Phys} {T : Set ℕ} (h : Tracked s T t) {start count : ℕ}
    (hrun : (addRange start count).run t = .ok () t') :
    ∃ T', T ⊆ T' ∧ Tracked s T' t' := by
  refine addRange_induction (P := fun u => ∃ T', T ⊆ T' ∧ Tracked s T' u) ?_ count start
    ⟨T, subset_rfl, h⟩ hrun
  rintro u u' addr order _ haddr ⟨T', hT, hU⟩ hfree
  exact ⟨_, hT.trans Set.subset_union_left, hU.free haddr hfree⟩

/-- The frames that start a maximal block of free frames at some moment, while the blocks
`bs` are added to the free frames `F` one after the other. -/
def Touched (F : Set ℕ) (bs : List (ℕ × ℕ)) : Set ℕ :=
  {g | ∃ before, before <+: bs ∧ ∃ o, IsMaximal maxOrder (F ∪ allFrames blockFrames before) o g}

theorem Inv.blockStarts_eq {s : Phys} (hI : Inv s) :
    blockStarts s = {g | ∃ o, IsMaximal maxOrder (freeSet s) o g} := by
  ext g
  exact exists_congr fun o => hI.freeBlock_iff_isMaximal o g

theorem Inv.touched_nil {s : Phys} (hI : Inv s) : Touched (freeSet s) [] = blockStarts s := by
  rw [hI.blockStarts_eq]
  ext g
  constructor
  · rintro ⟨before, hpre, hmax⟩
    rw [List.prefix_nil.1 hpre, allFrames_nil, Set.union_empty] at hmax
    exact hmax
  · intro hmax
    refine ⟨[], List.prefix_rfl, ?_⟩
    rw [allFrames_nil, Set.union_empty]
    exact hmax

theorem Inv.touched_cons {s : Phys} (hI : Inv s) (b : ℕ × ℕ) (bs : List (ℕ × ℕ)) :
    Touched (freeSet s) (b :: bs) = blockStarts s ∪ Touched (freeSet s ∪ blockFrames b) bs := by
  rw [← hI.touched_nil]
  ext g
  constructor
  · rintro ⟨before, hpre, hmax⟩
    cases before with
    | nil => exact Or.inl ⟨[], List.prefix_rfl, hmax⟩
    | cons c before =>
        rcases List.cons_prefix_cons.1 hpre with ⟨rfl, hrest⟩
        rw [allFrames_cons, ← Set.union_assoc] at hmax
        exact Or.inr ⟨before, hrest, hmax⟩
  · rintro (⟨before, hpre, hmax⟩ | ⟨before, hpre, hmax⟩)
    · rw [List.prefix_nil.1 hpre] at hmax
      exact ⟨[], List.nil_prefix, hmax⟩
    · rw [Set.union_assoc, ← allFrames_cons] at hmax
      exact ⟨b :: before, List.cons_prefix_cons.2 ⟨rfl, hpre⟩, hmax⟩

/-- A sequence of calls of `free_pages`. -/
theorem Tracked.forM {s u : Phys} : ∀ {bs : List (ℕ × ℕ)} {t : Phys} {T : Set ℕ}, Tracked s T t →
    (∀ b ∈ bs, b.1 < 2 ^ 52) → (bs.forM freeBlock).run t = .ok () u →
    Tracked s (T ∪ Touched (freeSet t) bs) u := by
  intro bs
  induction bs with
  | nil =>
      intro t T h _ hrun
      cases hrun
      rw [h.inv.touched_nil, Set.union_eq_left.2 h.starts]
      exact h
  | cons b bs ih =>
      intro t T h hlt hrun
      rcases Prog.bind_ok_iff.1 hrun with ⟨_, t₁, ht₁, hrest⟩
      have hb := hlt b List.mem_cons_self
      have hshl : shlU64 b.1 frameShift = b.1 * frameSize :=
        shlU64_of_lt (by unfold frameShift; omega)
      have haddr : shlU64 b.1 frameShift < 2 ^ 64 := by
        rw [hshl]
        unfold frameSize
        omega
      rcases freePages_ok h.inv haddr ht₁ with ⟨f, hf, -, hG⟩
      have hfb : f = b.1 := by
        rw [hshl] at hf
        unfold frameSize at hf
        omega
      have hfree : freeSet t₁ = freeSet t ∪ blockFrames b := by
        rw [hG.free_eq, hfb]
        rfl
      have hnext := ih (h.free haddr ht₁) (fun c hc => hlt c (List.mem_cons_of_mem _ hc)) hrest
      -- the frames that start a block after the call are touched before the next one
      have hstarts : blockStarts t₁ ⊆ Touched (freeSet t₁) bs := by
        rw [← hG.inv.touched_nil]
        rintro g ⟨before, hpre, hmax⟩
        rw [List.prefix_nil.1 hpre] at hmax
        exact ⟨[], List.nil_prefix, hmax⟩
      rw [Set.union_assoc, Set.union_eq_right.2 hstarts, hfree] at hnext
      rw [h.inv.touched_cons, ← Set.union_assoc, Set.union_eq_left.2 h.starts]
      exact hnext

end Prometheos.Pmm
