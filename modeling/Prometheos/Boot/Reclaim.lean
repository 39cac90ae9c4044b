import Prometheos.Boot.Memmap

/-!
# `reclaim_bootloader` and the memory it reads from

The loop of `reclaim_bootloader` over a memory map that lies in the memory to be reclaimed
(`Boot/Memmap.lean`). `Memmap.exact_of_undisturbed` says that it does what it is meant to do if
it finds the words it needs as they were: the state in which it comes to an entry is then the
one in which the blocks before, and nothing else, have been freed (`Memmap.Clean`).
`Memmap.exact_only_if` says which of these words it cannot do without: along a run that ends
well (`Memmap.Trace`), every entry with frames has been found as it was.

`reclaim_exact` puts the two together, and `reclaim_loses_entry` is a map of two entries of
which the second is lost.
-/

namespace Prometheos

namespace Boot

open Pmm Dyadic

namespace Memmap

variable [Limine]

/-! ## The frames freed so far -/

/-- The frames of the reclaimable entries before entry `k`. -/
def framesBefore (memmap : Memmap) (s : Phys) (k : ℕ) : Set ℕ :=
  {g | ∃ i < k, g ∈ (memmap.entryAt s i).reclaimed}

theorem framesBefore_succ (memmap : Memmap) (s : Phys) (k : ℕ) :
    memmap.framesBefore s (k + 1) =
      memmap.framesBefore s k ∪ (memmap.entryAt s k).reclaimed := by
  ext g
  constructor
  · rintro ⟨i, hi, hg⟩
    rcases Nat.lt_succ_iff_lt_or_eq.1 hi with hlt | rfl
    · exact Or.inl ⟨i, hlt, hg⟩
    · exact Or.inr hg
  · rintro (⟨i, hi, hg⟩ | hg)
    · exact ⟨i, Nat.lt_succ_of_lt hi, hg⟩
    · exact ⟨k, Nat.lt_succ_self k, hg⟩

theorem reclaimFrames_entries (memmap : Memmap) (s : Phys) :
    reclaimFrames (memmap.entries s) = memmap.framesBefore s memmap.len := by
  ext g
  constructor
  · rintro ⟨e, he, hg⟩
    rcases List.mem_map.1 he with ⟨i, hi, rfl⟩
    exact ⟨i, List.mem_range.1 hi, hg⟩
  · rintro ⟨i, hi, hg⟩
    exact ⟨_, List.mem_map_of_mem (List.mem_range.2 hi), hg⟩

theorem blocksBefore_succ (memmap : Memmap) (s : Phys) (k : ℕ) :
    memmap.blocksBefore s (k + 1) = memmap.blocksBefore s k ++ (memmap.entryAt s k).blocks := by
  unfold blocksBefore
  rw [List.range_succ, List.flatMap_append, List.flatMap_singleton]

section

variable {memmap : Memmap} {s t : Phys} {k : ℕ}

theorem Valid.end_le (hv : memmap.Valid s) (hk : k < memmap.len)
    (hkind : (memmap.entryAt s k).kind = .bootloaderReclaimable) :
    (memmap.entryAt s k).first + (memmap.entryAt s k).count ≤ s.pmm.totalFrames := by
  have h := hv.in_range k hk hkind
  unfold frameSize at h
  unfold Entry.first Entry.count frameShift
  omega

theorem Valid.frames_lt (hv : memmap.Valid s) (hk : k ≤ memmap.len) {g : ℕ}
    (hg : g ∈ memmap.framesBefore s k) : g < s.pmm.totalFrames := by
  rcases hg with ⟨i, hi, hkind, -, hlt⟩
  exact Nat.lt_of_lt_of_le hlt (hv.end_le (by omega) hkind)

theorem Valid.frames_unused (hv : memmap.Valid s) (hk : k ≤ memmap.len) :
    Disjoint (memmap.framesBefore s k) (freeSet s) := by
  rw [Set.disjoint_left]
  rintro g ⟨i, hi, hg⟩
  exact Set.disjoint_left.1 (hv.unused i (by omega)) hg

theorem Valid.frames_apart (hv : memmap.Valid s) (hk : k < memmap.len) :
    Disjoint (memmap.framesBefore s k) (memmap.entryAt s k).reclaimed := by
  rw [Set.disjoint_left]
  rintro g ⟨i, hi, hg⟩
  exact Set.disjoint_left.1 (hv.apart i (by omega) k hk (by omega)) hg

/-- The blocks before entry `k` add up to the frames before entry `k`. -/
theorem Valid.adds (hv : memmap.Valid s) : ∀ {k : ℕ}, k ≤ memmap.len →
    Adds ((memmap.blocksBefore s k).forM freeBlock) (memmap.framesBefore s k) := by
  intro k
  induction k with
  | zero =>
      intro _
      have hempty : memmap.framesBefore s 0 = ∅ := by
        rw [Set.eq_empty_iff_forall_notMem]
        rintro g ⟨i, hi, -⟩
        exact Nat.not_lt_zero i hi
      rw [hempty]
      exact adds_pure
  | succ k ih =>
      intro hk u hI hptrs hrange hunused
      have hcount := entryOf_count_lt s (memmap.slot k)
      have hadds := (ih (by omega)).bind
        (Entry.blocks_adds (e := memmap.entryAt s k) (hcount.trans (by decide)))
        (hv.frames_apart (by omega))
      rw [framesBefore_succ] at hrange hunused ⊢
      rw [blocksBefore_succ, Prog.forM_append_run]
      exact hadds u hI hptrs hrange hunused

theorem Valid.block_lt (hv : memmap.Valid s) (hsmall : s.pmm.totalFrames < 2 ^ 52)
    (hk : k ≤ memmap.len) : ∀ b ∈ memmap.blocksBefore s k, b.1 < 2 ^ 52 := by
  intro b hb
  rcases List.mem_flatMap.1 hb with ⟨i, hi, hb⟩
  have hilt : i < memmap.len := Nat.lt_of_lt_of_le (List.mem_range.1 hi) hk
  unfold Entry.blocks at hb
  split_ifs at hb with hkind
  · have hcount := entryOf_count_lt s (memmap.slot i)
    rcases rangeBlocks_spec _ _ (hcount.trans (by decide)) b hb with ⟨-, -, hsub⟩
    have hlt := (hsub (self_mem_block b.2 b.1)).2
    exact (Nat.lt_of_lt_of_le hlt (hv.end_le hilt hkind)).trans hsmall
  · exact absurd hb List.not_mem_nil

/-- The state in which the blocks before entry `k`, and nothing else, have been freed. -/
structure Clean (memmap : Memmap) (s : Phys) (k : ℕ) (t : Phys) : Prop where
  run : ((memmap.blocksBefore s k).forM freeBlock).run s = .ok () t
  grew : Grew s t (memmap.framesBefore s k)
  tracked : Tracked s (Touched (freeSet s) (memmap.blocksBefore s k)) t

theorem Clean.of_run (hv : memmap.Valid s) (hI : Inv s) (hptrs : PtrsOk s)
    (hsmall : s.pmm.totalFrames < 2 ^ 52) (hk : k ≤ memmap.len)
    (hrun : ((memmap.blocksBefore s k).forM freeBlock).run s = .ok () t) :
    memmap.Clean s k t := by
  rcases hv.adds hk s hI hptrs (fun g hg => hv.frames_lt hk hg) (hv.frames_unused hk) with
    ⟨t', ht', hG⟩
  rw [hrun] at ht'
  cases ht'
  refine ⟨hrun, hG, ?_⟩
  have hT := hI.tracked.forM (hv.block_lt hsmall hk) hrun
  have hstarts : blockStarts s ⊆ Touched (freeSet s) (memmap.blocksBefore s k) := by
    rw [← hI.touched_nil]
    rintro g ⟨before, hpre, hmax⟩
    rw [List.prefix_nil.1 hpre] at hmax
    exact ⟨[], List.nil_prefix, hmax⟩
  rwa [Set.union_eq_right.2 hstarts] at hT

/-- The next entry, once its blocks have been freed. -/
theorem Clean.next (hC : memmap.Clean s k t) (hv : memmap.Valid s) (hI : Inv s)
    (hptrs : PtrsOk s) (hsmall : s.pmm.totalFrames < 2 ^ 52) (hk : k < memmap.len) {t' : Phys}
    (hrun : ((memmap.entryAt s k).blocks.forM freeBlock).run t = .ok () t') :
    memmap.Clean s (k + 1) t' := by
  refine Clean.of_run hv hI hptrs hsmall hk ?_
  rw [blocksBefore_succ, Prog.forM_append_run, Prog.bind_of_ok hC.run]
  exact hrun

/-- The blocks of the next entry can be freed. -/
theorem Clean.exists_next (hC : memmap.Clean s k t) (hv : memmap.Valid s) (hI : Inv s)
    (hptrs : PtrsOk s) (hsmall : s.pmm.totalFrames < 2 ^ 52) (hk : k < memmap.len) :
    ∃ t', ((memmap.entryAt s k).blocks.forM freeBlock).run t = .ok () t' ∧
      memmap.Clean s (k + 1) t' := by
  rcases hv.adds hk s hI hptrs (fun g hg => hv.frames_lt hk hg) (hv.frames_unused hk) with
    ⟨t', ht', -⟩
  have hrun := ht'
  rw [blocksBefore_succ, Prog.forM_append_run, Prog.bind_of_ok hC.run] at hrun
  exact ⟨t', hrun, Clean.of_run hv hI hptrs hsmall hk ht'⟩

/-- Entry `k` is found as it was, as far as it counts. -/
theorem Undisturbed.found (hu : memmap.Undisturbed s) (hC : memmap.Clean s k t)
    (hdirect : DirectMap s) (hhigh : HigherHalf s) (hk : k < memmap.len) :
    wordAt t (memmap.slot k) = wordAt s (memmap.slot k) ∧
      (entryOf t (memmap.slot k)).reclaimed = (memmap.entryAt s k).reclaimed := by
  have hT := hC.tracked
  have hptr := wordAt_kept hT (hu.pointer k hk)
  refine ⟨hptr, ?_⟩
  rcases Set.eq_empty_or_nonempty (memmap.entryAt s k).reclaimed with hempty | hne
  · rw [hempty]
    by_cases hkind : (memmap.entryAt s k).kind = .bootloaderReclaimable
    · -- the length is the one of an empty entry
      apply Entry.reclaimed_of_count
      have hlength := wordAt_kept hT (hu.length k hk hkind)
      have hcount : (entryOf t (memmap.slot k)).count = (memmap.entryAt s k).count := by
        change wordAt t (wordAt t _ + _) / _ = wordAt s _ / _
        rw [hptr, hlength]
      rw [hcount]
      have hz := (Entry.blocks_of_empty hempty).2
      unfold Entry.added at hz
      rwa [if_pos hkind] at hz
    · apply Entry.reclaimed_of_kind_ne
      by_cases htype : IsLink s (Touched (freeSet s) (memmap.blocksBefore s k))
          (wordAt t (memmap.slot k) + Limine.entryType)
      · exact kind_ne_of_link hT hdirect hhigh htype
      · unfold entryAt at hkind
        rw [Ne, entryOf_kind_iff, wordAt_kept hT htype, hptr, ← entryOf_kind_iff]
        exact hkind
  · -- all words of the entry are as they were
    have htype := wordAt_kept hT (hu.type k hk hne)
    have hbase := wordAt_kept hT (hu.base k hk hne)
    have hlength := wordAt_kept hT (hu.length k hk hne.choose_spec.1)
    have heq : entryOf t (memmap.slot k) = memmap.entryAt s k := by
      unfold entryAt entryOf
      rw [hptr, htype, hbase, hlength]
    rw [heq]

/-! ## Undisturbed runs -/

/-- The counter of free frames goes up by what the entry adds. -/
theorem Clean.count (hC : memmap.Clean s k t) {t' : Phys} (hC' : memmap.Clean s (k + 1) t')
    (hv : memmap.Valid s) (hk : k < memmap.len) :
    t'.pmm.freeFrames = t.pmm.freeFrames + (memmap.entryAt s k).added := by
  rcases hC.grew.inv.rep with ⟨L, hR, -⟩
  rcases Entry.ncard_reclaimed (memmap.entryAt s k) with ⟨hfin, hcard⟩
  have hset : freeSet t' = freeSet t ∪ (memmap.entryAt s k).reclaimed := by
    rw [hC'.grew.free_eq, hC.grew.free_eq, framesBefore_succ, Set.union_assoc]
  have hdisj : Disjoint (freeSet t) (memmap.entryAt s k).reclaimed := by
    rw [hC.grew.free_eq, Set.disjoint_union_left]
    exact ⟨(hv.unused k hk).symm, hv.frames_apart hk⟩
  rw [hC'.grew.inv.count, hC.grew.inv.count, hset,
    Set.ncard_union_eq hdisj hR.freeSet_finite hfin, hcard]

/-- The loop frees the blocks of all entries and counts their frames. -/
theorem reclaimEntries_run (hv : memmap.Valid s) (hu : memmap.Undisturbed s) (hI : Inv s)
    (hdirect : DirectMap s) (hhigh : HigherHalf s) (hsmall : s.pmm.totalFrames < 2 ^ 52) :
    ∀ (n k r : ℕ) (t : Phys), k + n = memmap.len → memmap.Clean s k t →
      t.pmm.freeFrames = s.pmm.freeFrames + r →
      ∃ r' u, (reclaimEntries (memmap.slot k) n r).run t = .ok r' u ∧
        memmap.Clean s memmap.len u ∧ u.pmm.freeFrames = s.pmm.freeFrames + r' := by
  intro n
  induction n with
  | zero =>
      intro k r t hn hC hr
      rw [Nat.add_zero] at hn
      rw [← hn]
      exact ⟨r, t, rfl, hC, hr⟩
  | succ n ih =>
      intro k r t hn hC hr
      have hk : k < memmap.len := by omega
      rcases hC.exists_next hv hI hdirect.ptrsOk hsmall hk with ⟨t', hblocks, hC'⟩
      rcases hu.found hC hdirect hhigh hk with ⟨hptr, hsame⟩
      rcases Entry.blocks_eq hsame with ⟨hb, ha⟩
      have hcount := hC.count hC' hv hk
      have hle := hC'.grew.inv.freeFrames_le
      rw [hC'.grew.total] at hle
      have hplaced : ∀ p ∈ memmap.words s k, t.pmm.hhdmOffset ≤ p := by
        intro p hp
        rw [hC.grew.hhdm]
        exact (hv.placed k hk p hp).1
      unfold words at hplaced
      rw [← hptr] at hplaced
      have hbody := reclaimEntry_run (r := r) (hplaced _ (by simp)) (hplaced _ (by simp))
        (hplaced _ (by simp)) (hplaced _ (by simp)) (hb ▸ hblocks) (by omega)
      have hslot : memmap.slot k + 8 = memmap.slot (k + 1) := by
        unfold slot
        omega
      rcases ih (k + 1) (r + (entryOf t (memmap.slot k)).added) t' (by omega) hC' (by omega) with
        ⟨r', u, hrun, hend⟩
      refine ⟨r', u, ?_, hend⟩
      unfold reclaimEntries
      rw [Prog.bind_of_ok hbody, hslot]
      exact hrun

theorem Clean.zero (memmap : Memmap) (hI : Inv s) : memmap.Clean s 0 s := by
  have hempty : memmap.framesBefore s 0 = ∅ := by
    rw [Set.eq_empty_iff_forall_notMem]
    rintro g ⟨i, hi, -⟩
    exact Nat.not_lt_zero i hi
  refine ⟨rfl, ?_, ?_⟩
  · rw [hempty]
    exact Grew.refl hI
  · have hnil : memmap.blocksBefore s 0 = [] := rfl
    rw [hnil, hI.touched_nil]
    exact hI.tracked

/-- If no word that counts is overwritten before its turn, the call frees the entries, and counts
what it adds to the free frames. -/
theorem reclaimBootloader_grew (hv : memmap.Valid s) (hu : memmap.Undisturbed s) (hI : Inv s)
    (hdirect : DirectMap s) (hhigh : HigherHalf s) :
    ∃ r u, memmap.reclaimBootloader.run s = .ok r u ∧
      Grew s u (reclaimFrames (memmap.entries s)) ∧ u.pmm.freeFrames = s.pmm.freeFrames + r.1 := by
  have hsmall := hhigh.total_lt hdirect
  rcases reclaimEntries_run hv hu hI hdirect hhigh hsmall memmap.len 0 0 s (by omega)
    (Clean.zero memmap hI) rfl with ⟨r, u, hrun, hC, hr⟩
  have hle := hC.grew.inv.freeFrames_le
  rw [hC.grew.total] at hle
  have hbytes : r * frameSize < 2 ^ 64 := by
    unfold frameSize
    omega
  have hslot : memmap.slot 0 = memmap.ptr := rfl
  rw [hslot] at hrun
  refine ⟨(r, r * frameSize / 1024), u, ?_, ?_, hr⟩
  · unfold reclaimBootloader
    rw [Prog.bind_of_ok hrun, Prog.bind_of_ok (mulU64_of_lt hbytes u)]
    rfl
  · rw [reclaimFrames_entries]
    exact hC.grew

/-- So it does what it should. -/
theorem exact_of_undisturbed (hv : memmap.Valid s) (hu : memmap.Undisturbed s) (hI : Inv s)
    (hdirect : DirectMap s) (hhigh : HigherHalf s) : memmap.Exact s := by
  rcases reclaimBootloader_grew hv hu hI hdirect hhigh with ⟨r, u, hrun, hG, hr⟩
  refine ⟨r, u, hrun, ?_, hG.free_eq⟩
  -- the counters count the free sets
  rcases hI.rep with ⟨L, hR, -⟩
  rcases hG.inv.rep with ⟨L', hR', -⟩
  have hfin : (reclaimFrames (memmap.entries s)).Finite := by
    refine hR'.freeSet_finite.subset ?_
    rw [hG.free_eq]
    exact Set.subset_union_right
  have hdisj : Disjoint (freeSet s) (reclaimFrames (memmap.entries s)) := by
    rw [reclaimFrames_entries]
    exact (hv.frames_unused le_rfl).symm
  have hcard := hG.inv.count
  rw [hG.free_eq, Set.ncard_union_eq hdisj hR.freeSet_finite hfin, ← hI.count] at hcard
  omega

end

/-! ## Runs that end well -/

/-- The states of a run of the loop from `s`: `t k` is the one in which it comes to entry `k`. -/
structure Trace (memmap : Memmap) (s : Phys) (t : ℕ → Phys) : Prop where
  start : t 0 = s
  step : ∀ k < memmap.len, ∃ r r',
    (reclaimEntry (memmap.slot k) r).run (t k) = .ok r' (t (k + 1))

theorem reclaimEntries_trace : ∀ (n : ℕ) {ptr r r' : ℕ} {s s' : Phys},
    (reclaimEntries ptr n r).run s = .ok r' s' →
    ∃ t : ℕ → Phys, t 0 = s ∧ t n = s' ∧ ∀ k < n, ∃ a a',
      (reclaimEntry (ptr + 8 * k) a).run (t k) = .ok a' (t (k + 1)) := by
  intro n
  induction n with
  | zero =>
      intro ptr r r' s s' h
      cases h
      exact ⟨fun _ => s, rfl, rfl, fun k hk => absurd hk (Nat.not_lt_zero k)⟩
  | succ n ih =>
      intro ptr r r' s s' h
      rcases Prog.bind_ok_iff.1 h with ⟨r₁, s₁, hbody, hrest⟩
      rcases ih hrest with ⟨t, h0, hn, hstep⟩
      refine ⟨fun k => k.casesOn s t, rfl, hn, ?_⟩
      intro k hk
      cases k with
      | zero =>
          refine ⟨r, r₁, ?_⟩
          rw [Nat.mul_zero, Nat.add_zero]
          change (reclaimEntry ptr r).run s = .ok r₁ (t 0)
          rw [h0]
          exact hbody
      | succ k =>
          rcases hstep k (by omega) with ⟨a, a', hrun⟩
          have hptr : ptr + 8 * (k + 1) = ptr + 8 + 8 * k := by omega
          rw [hptr]
          exact ⟨a, a', hrun⟩

section

variable {memmap : Memmap} {s : Phys} {t : ℕ → Phys}

/-- Along a run, memory changes in links only. -/
theorem Trace.tracked (hR : memmap.Trace s t) (hI : Inv s) :
    ∀ k ≤ memmap.len, ∃ T, Tracked s T (t k) := by
  intro k
  induction k with
  | zero =>
      intro _
      rw [hR.start]
      exact ⟨_, hI.tracked⟩
  | succ k ih =>
      intro hk
      rcases ih (by omega) with ⟨T, hT⟩
      rcases hR.step k hk with ⟨r, r', hrun⟩
      rcases reclaimEntry_ok hrun with ⟨-, -, ⟨-, hsame⟩ | ⟨-, hadd⟩⟩
      · rw [hsame]
        exact ⟨T, hT⟩
      · rcases hT.addRange hadd with ⟨T', -, hT'⟩
        exact ⟨T', hT'⟩

/-- Along a run, the free set grows by the frames of the entries that are found. -/
theorem Trace.freeSet_eq (hR : memmap.Trace s t) (hI : Inv s)
    (hsmall : s.pmm.totalFrames < 2 ^ 52) : ∀ k ≤ memmap.len,
    freeSet (t k) = freeSet s ∪ {g | ∃ i < k, g ∈ (entryOf (t i) (memmap.slot i)).reclaimed} := by
  intro k
  induction k with
  | zero =>
      intro _
      rw [hR.start]
      simp
  | succ k ih =>
      intro hk
      rcases hR.tracked hI k (by omega) with ⟨T, hT⟩
      rcases hR.step k hk with ⟨r, r', hrun⟩
      rcases reclaimEntry_grew hT.inv (hT.total ▸ hsmall) hrun with ⟨-, hG, -, -⟩
      rw [hG.free_eq, ih (by omega), Set.union_assoc]
      congr 1
      ext g
      constructor
      · rintro (⟨i, hi, hg⟩ | hg)
        · exact ⟨i, Nat.lt_succ_of_lt hi, hg⟩
        · exact ⟨k, Nat.lt_succ_self k, hg⟩
      · rintro ⟨i, hi, hg⟩
        rcases Nat.lt_succ_iff_lt_or_eq.1 hi with hlt | rfl
        · exact Or.inl ⟨i, hlt, hg⟩
        · exact Or.inr hg

/-- A run that adds the right frames in the end has added the frames of each entry in its
turn. -/
theorem Trace.found (hR : memmap.Trace s t) (hv : memmap.Valid s) (hI : Inv s)
    (hdirect : DirectMap s) (hhigh : HigherHalf s)
    (hend : freeSet (t memmap.len) = freeSet s ∪ reclaimFrames (memmap.entries s)) :
    ∀ k < memmap.len,
      (entryOf (t k) (memmap.slot k)).reclaimed = (memmap.entryAt s k).reclaimed := by
  have hsmall := hhigh.total_lt hdirect
  have hfree := hR.freeSet_eq hI hsmall
  -- what an entry adds was not free when its turn came
  have hunused : ∀ k < memmap.len,
      Disjoint (entryOf (t k) (memmap.slot k)).reclaimed (freeSet (t k)) := by
    intro k hk
    rcases hR.tracked hI k hk.le with ⟨T, hT⟩
    rcases hR.step k hk with ⟨r, r', hrun⟩
    exact (reclaimEntry_grew hT.inv (hT.total ▸ hsmall) hrun).2.2.1
  have hearlier : ∀ i < memmap.len, ∀ j < i, Disjoint (entryOf (t i) (memmap.slot i)).reclaimed
      (entryOf (t j) (memmap.slot j)).reclaimed := by
    intro i hi j hj
    refine (hunused i hi).mono_right ?_
    rw [hfree i hi.le]
    exact fun g hg => Or.inr ⟨j, hj, hg⟩
  refine eq_of_covers hv.apart ?_ ?_ ?_
  · intro i hi j hj hne
    rcases Nat.lt_or_gt_of_ne hne with hlt | hlt
    · exact (hearlier j hj i hlt).symm
    · exact hearlier i hi j hlt
  · intro k hk
    rcases hR.tracked hI k hk.le with ⟨T, hT⟩
    rcases hR.step k hk with ⟨r, r', hrun⟩
    exact reclaimed_cases hT hdirect hhigh (reclaimEntry_ok hrun).1
      (reclaimEntry_grew hT.inv (hT.total ▸ hsmall) hrun).2.2.2
  · intro k hk g hg
    have hin : g ∈ freeSet (t memmap.len) := by
      rw [hend, reclaimFrames_entries]
      exact Or.inr ⟨k, hk, hg⟩
    rw [hfree _ le_rfl] at hin
    rcases hin with hin | hin
    · exact absurd hin (Set.disjoint_left.1 (hv.unused k hk) hg)
    · exact hin

/-- Such a run goes through the states that the entries as they were lead to. -/
theorem Trace.clean (hR : memmap.Trace s t) (hv : memmap.Valid s) (hI : Inv s)
    (hdirect : DirectMap s) (hhigh : HigherHalf s)
    (hfound : ∀ k < memmap.len,
      (entryOf (t k) (memmap.slot k)).reclaimed = (memmap.entryAt s k).reclaimed) :
    ∀ k ≤ memmap.len, memmap.Clean s k (t k) := by
  have hsmall := hhigh.total_lt hdirect
  intro k
  induction k with
  | zero =>
      intro _
      rw [hR.start]
      exact Clean.zero memmap hI
  | succ k ih =>
      intro hk
      have hC := ih (by omega)
      rcases hR.step k hk with ⟨r, r', hrun⟩
      have hblocks :=
        (reclaimEntry_grew hC.grew.inv (hC.grew.total ▸ hsmall) hrun).1
      rw [(Entry.blocks_eq (hfound k hk)).1] at hblocks
      exact hC.next hv hI hdirect.ptrsOk hsmall hk hblocks

/-- If the loop does what it should, no pointer, type or length of an entry with frames has
been overwritten when its turn came, and no base that is not 0. -/
theorem exact_only_if (hv : memmap.Valid s) (hI : Inv s) (hdirect : DirectMap s)
    (hhigh : HigherHalf s) (hexact : memmap.Exact s) {k : ℕ} (hk : k < memmap.len)
    (hne : (memmap.entryAt s k).reclaimed.Nonempty) :
    ¬ memmap.Overwritten s k (memmap.slot k) ∧
      ¬ memmap.Overwritten s k (wordAt s (memmap.slot k) + Limine.entryType) ∧
      ¬ memmap.Overwritten s k (wordAt s (memmap.slot k) + Limine.entryLength) ∧
      (memmap.Overwritten s k (wordAt s (memmap.slot k) + Limine.entryBase) →
        (memmap.entryAt s k).first = 0) := by
  rcases hexact with ⟨r, s', hrun, -, hend⟩
  rcases Prog.bind_ok_iff.1 hrun with ⟨r₁, u, hloop, hrest⟩
  rcases Prog.bind_ok_iff.1 hrest with ⟨_, u', hmul, hp⟩
  rcases mulU64_ok_iff.1 hmul with ⟨-, -, rfl⟩
  cases hp
  rcases reclaimEntries_trace _ hloop with ⟨t, h0, hlast, hstep⟩
  have hR : memmap.Trace s t := ⟨h0, hstep⟩
  rw [← hlast] at hend
  have hfound := hR.found hv hI hdirect hhigh hend
  have hC := hR.clean hv hI hdirect hhigh hfound k hk.le
  have hT := hC.tracked
  rcases hR.step k hk with ⟨a, a', hbody⟩
  have hread := (reclaimEntry_ok hbody).1
  have hfits := (reclaimEntry_grew hC.grew.inv
    (hC.grew.total ▸ hhigh.total_lt hdirect) hbody).2.2.2
  have hne' := hne
  rw [← hfound k hk] at hne'
  -- an entry that is found empty has no frames
  have hptr : ¬ memmap.Overwritten s k (memmap.slot k) := by
    intro hover
    rw [reclaimed_of_pointer_link hT hdirect hhigh hover hread hfits] at hne'
    exact Set.not_nonempty_empty hne'
  have hsame := wordAt_kept hT hptr
  rw [← hsame]
  refine ⟨hptr, ?_, ?_, ?_⟩
  · intro hover
    rw [Entry.reclaimed_of_kind_ne (kind_ne_of_link hT hdirect hhigh hover)] at hne'
    exact Set.not_nonempty_empty hne'
  · intro hover
    rw [reclaimed_of_length_link hT hdirect hhigh hover hfits] at hne'
    exact Set.not_nonempty_empty hne'
  · intro hover
    rcases reclaimed_of_base_link hT hdirect hhigh hover hfits with hempty | hzero
    · rw [hempty] at hne'
      exact absurd hne' Set.not_nonempty_empty
    · -- the two entries have the same first frame
      have hmem : (entryOf (t k) (memmap.slot k)).first ∈
          (entryOf (t k) (memmap.slot k)).reclaimed := by
        rcases hne' with ⟨g, hkind, h₁, h₂⟩
        exact ⟨hkind, le_refl _, by omega⟩
      rw [hfound k hk, hzero] at hmem
      exact Nat.le_zero.1 hmem.2.1

/-- `reclaim_bootloader` on a memory map that lies in the memory to be reclaimed. If no pointer
of the map, no length of a reclaimable entry, and no type or base of one with frames is
overwritten before the loop comes to it, then the call adds exactly the frames of the entries
that were reclaimable when it was made, and reports their number. Conversely, if it does, then
no entry with frames had its pointer, its type or its length overwritten, nor its base unless
the base is frame 0. -/
theorem reclaim_exact (h : Reachable s) (hdirect : DirectMap s) (hhigh : HigherHalf s)
    (hv : memmap.Valid s) :
    (memmap.Undisturbed s → memmap.Exact s) ∧
    (memmap.Exact s → ∀ k < memmap.len, (memmap.entryAt s k).reclaimed.Nonempty →
      ¬ memmap.Overwritten s k (memmap.slot k) ∧
      ¬ memmap.Overwritten s k (wordAt s (memmap.slot k) + Limine.entryType) ∧
      ¬ memmap.Overwritten s k (wordAt s (memmap.slot k) + Limine.entryLength) ∧
      (memmap.Overwritten s k (wordAt s (memmap.slot k) + Limine.entryBase) →
        (memmap.entryAt s k).first = 0)) := by
  constructor
  · intro hu
    exact exact_of_undisturbed hv hu h.inv hdirect hhigh
  · intro hexact k hk hne
    exact exact_only_if hv h.inv hdirect hhigh hexact hk hne

end

end Memmap

/-! ## A map of two entries

The entries are laid out as the protocol documents it. -/

section

local instance limineDocumented : Limine := Limine.documented

/-- Eight frames, none of them free yet. -/
def eightFrames (m : Mem) : Phys :=
  ⟨⟨List.replicate numOrders none, List.replicate 8 orderNone, 8, 0, 0x100000⟩, m⟩

/-- The frames 2 and 3 are one reclaimable entry, frame 6 is another. The pointers are in
frame 6, the first entry is in frame 3, and the second one in frame 2, at word `w`. -/
def twoReclaimable (w : ℕ) : Mem := fun f i =>
  if f = 6 ∧ i = 8 then 0x103020
  else if f = 6 ∧ i = 9 then BitVec.ofNat 64 (0x102000 + 8 * w)
  else if f = 3 ∧ i = 4 then 0x2000
  else if f = 3 ∧ i = 5 then 0x2000
  else if f = 3 ∧ i = 6 then 5
  else if f = 2 ∧ i = w then 0x6000
  else if f = 2 ∧ i = w + 1 then 0x1000
  else if f = 2 ∧ i = w + 2 then 5
  else 0

/-- The pointers of the map. -/
def twoPointers : Memmap := ⟨0x106040, 2⟩

theorem eightFrames_reachable (m : Mem) : Reachable (eightFrames m) :=
  ⟨_, ⟨List.replicate 8 0, 8, 0x100000, m, by decide, rfl⟩, .refl⟩

theorem eightFrames_free (m : Mem) : freeSet (eightFrames m) = ∅ :=
  Fresh.freeSet_eq ⟨List.replicate 8 0, 8, 0x100000, m, by decide, rfl⟩

theorem twoReclaimable_valid {w : ℕ} (hw : w = 0 ∨ w = 4) :
    twoPointers.Valid (eightFrames (twoReclaimable w)) := by
  have h0 : twoPointers.entryAt (eightFrames (twoReclaimable w)) 0 =
      ⟨0x2000, 0x2000, .bootloaderReclaimable⟩ := by
    rcases hw with rfl | rfl <;> rfl
  have h1 : twoPointers.entryAt (eightFrames (twoReclaimable w)) 1 =
      ⟨0x6000, 0x1000, .bootloaderReclaimable⟩ := by
    rcases hw with rfl | rfl <;> rfl
  have hlt : ∀ k < twoPointers.len, k = 0 ∨ k = 1 := by
    intro k hk
    change k < 2 at hk
    omega
  refine ⟨?_, ?_, ?_, ?_⟩
  · intro k hk _
    rcases hlt k hk with rfl | rfl
    · rw [h0]
      change 0x2000 + 0x2000 ≤ 8 * 4096
      omega
    · rw [h1]
      change 0x6000 + 0x1000 ≤ 8 * 4096
      omega
  · intro i hi j hj hne
    rcases hlt i hi with rfl | rfl <;> rcases hlt j hj with rfl | rfl
    · exact absurd rfl hne
    · rw [h0, h1, Set.disjoint_left]
      rintro g ⟨-, -, hg⟩ ⟨-, hg', -⟩
      change g < 4 at hg
      change 6 ≤ g at hg'
      omega
    · rw [h0, h1, Set.disjoint_left]
      rintro g ⟨-, hg, -⟩ ⟨-, -, hg'⟩
      change g < 4 at hg'
      change 6 ≤ g at hg
      omega
    · exact absurd rfl hne
  · intro k hk
    rw [eightFrames_free]
    exact Set.disjoint_empty _
  · have hframes : ∀ g, g = 2 ∨ g = 3 ∨ g = 6 → g ∈ reclaimFrames
        (twoPointers.entries (eightFrames (twoReclaimable w))) := by
      intro g hg
      rw [Memmap.reclaimFrames_entries]
      rcases hg with rfl | rfl | rfl
      · refine ⟨0, by decide, ?_⟩
        rw [h0]
        exact ⟨rfl, by decide, by decide⟩
      · refine ⟨0, by decide, ?_⟩
        rw [h0]
        exact ⟨rfl, by decide, by decide⟩
      · refine ⟨1, by decide, ?_⟩
        rw [h1]
        exact ⟨rfl, by decide, by decide⟩
    have hwords : ∀ k < 2, ∀ p ∈ twoPointers.words (eightFrames (twoReclaimable w)) k,
        0x100000 ≤ p ∧ 8 ∣ p - 0x100000 ∧
          (ptrFrame 0x100000 p = 2 ∨ ptrFrame 0x100000 p = 3 ∨ ptrFrame 0x100000 p = 6) := by
      rcases hw with rfl | rfl <;> decide
    intro k hk p hp
    rcases hwords k hk p hp with ⟨hle, hal, hframe⟩
    exact ⟨hle, hal, hframes _ hframe⟩

theorem eightFrames_mapped (m : Mem) :
    DirectMap (eightFrames m) ∧ HigherHalf (eightFrames m) := by
  refine ⟨⟨?_, ?_⟩, ?_⟩
  · change 0 < 0x100000
    omega
  · change 0x100000 + 8 * 4096 ≤ 2 ^ 64
    omega
  · change (8 + 1) * 4096 ≤ 0x100000
    omega

/-- The second entry behind the first 16 bytes of frame 2: all three frames are reclaimed. -/
theorem reclaim_exact_behind_links :
    twoPointers.Valid (eightFrames (twoReclaimable 4)) ∧
      twoPointers.Exact (eightFrames (twoReclaimable 4)) := by
  have hv := twoReclaimable_valid (w := 4) (Or.inr rfl)
  rcases eightFrames_mapped (twoReclaimable 4) with ⟨hdirect, hhigh⟩
  refine ⟨hv, (Memmap.reclaim_exact (eightFrames_reachable _) hdirect hhigh hv).1 ?_⟩
  -- none of the words is one of the first two of its frame
  have hwords : ∀ k < 2, ∀ p ∈ twoPointers.words (eightFrames (twoReclaimable 4)) k,
      ¬ ptrIndex 0x100000 p < 2 := by decide
  refine ⟨?_, ?_, ?_, ?_⟩
  · exact fun k hk h => hwords k hk _ (by simp [Memmap.words]) h.2
  · exact fun k hk _ h => hwords k hk _ (by simp [Memmap.words]) h.2
  · exact fun k hk _ h => hwords k hk _ (by simp [Memmap.words]) h.2
  · exact fun k hk _ h => hwords k hk _ (by simp [Memmap.words]) h.2

/-- The second entry at the start of frame 2: its base and length are overwritten when the
first entry is reclaimed, and frame 6 is lost. -/
theorem reclaim_loses_entry :
    Reachable (eightFrames (twoReclaimable 0)) ∧ DirectMap (eightFrames (twoReclaimable 0)) ∧
      HigherHalf (eightFrames (twoReclaimable 0)) ∧
      twoPointers.Valid (eightFrames (twoReclaimable 0)) ∧
      6 ∈ reclaimFrames (twoPointers.entries (eightFrames (twoReclaimable 0))) ∧
      (∃ s', twoPointers.reclaimBootloader.run (eightFrames (twoReclaimable 0)) = .ok (2, 8) s' ∧
        6 ∉ freeSet s') ∧
      ¬ twoPointers.Exact (eightFrames (twoReclaimable 0)) := by
  have hmem : 6 ∈ reclaimFrames (twoPointers.entries (eightFrames (twoReclaimable 0))) :=
    ⟨_, List.mem_map_of_mem (List.mem_range.2 (show 1 < 2 by decide)), rfl, by decide, by decide⟩
  have hrun : ∃ s', twoPointers.reclaimBootloader.run (eightFrames (twoReclaimable 0)) =
      .ok (2, 8) s' ∧ s'.pmm.frameOrder[6]? = some orderNone := by
    simp only [Memmap.reclaimBootloader, Memmap.reclaimEntries, Memmap.reclaimEntry, twoPointers]
    unfold addRange
    unfold addRange
    exact ⟨_, rfl, rfl⟩
  rcases hrun with ⟨s', hrun, hmark⟩
  have hlost := Rep.notMem_of_mark hmark
  rcases eightFrames_mapped (twoReclaimable 0) with ⟨hdirect, hhigh⟩
  refine ⟨eightFrames_reachable _, hdirect, hhigh, twoReclaimable_valid (Or.inl rfl), hmem,
    ⟨s', hrun, hlost⟩, ?_⟩
  rintro ⟨r, u, hrun', -, hfree⟩
  rw [hrun] at hrun'
  cases hrun'
  apply hlost
  rw [hfree]
  exact Or.inr hmem

end

end Boot

end Prometheos
