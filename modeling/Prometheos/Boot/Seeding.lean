import Prometheos.Boot.Init

/-!
# What `mm::init` starts with

On a memory map that keeps Limine's promises (`LimineMap`), with a usable entry that is large
enough for the order bytes and a direct map for all memory, `mm::init` does not stop, and the
free frames of the allocator it returns are the usable ones, without frame 0 and without the
frames of the order bytes (`init_exact`). `init_holds` says the same of the allocator's state, for
what `mm::init` does next.

`Boot.Init` says which frames the loops have added when they return. Here it is shown that they
do return: what `add_range` is called with is in range and not free yet.
-/

namespace Prometheos.Boot

open Pmm Dyadic

/-! ## Memory maps -/

/-- The byte at `x` is in the entry. -/
def Entry.Has (e : Entry) (x : ℕ) : Prop := e.base ≤ x ∧ x < e.base + e.length

/-- What Limine promises: usable entries are aligned and overlap no other entry, and physical
memory ends at `2 ^ 52`. -/
structure LimineMap (memmap : List Entry) : Prop where
  base_aligned : ∀ e ∈ memmap, e.kind = .usable → e.base % frameSize = 0
  length_aligned : ∀ e ∈ memmap, e.kind = .usable → e.length % frameSize = 0
  apart : memmap.Pairwise fun e e' => e.kind = .usable ∨ e'.kind = .usable →
    ∀ x, ¬ (Entry.Has e x ∧ Entry.Has e' x)
  fits : ∀ e ∈ memmap, e.base + e.length ≤ 2 ^ 52

/-- The largest end of an entry, and of what was seen before. -/
def highest (memmap : List Entry) (n : ℕ) : ℕ :=
  memmap.foldl (fun n e => max n (e.base + e.length)) n

/-- `total_frames`. -/
def totalFrames (memmap : List Entry) : ℕ := (highest memmap 0 + 4096 - 1) / 4096

/-- `order_bytes`. -/
def orderBytes (memmap : List Entry) : ℕ := (totalFrames memmap + 4096 - 1) / 4096 * 4096

/-- Every byte of the frame is in the entry. -/
def Entry.HasFrame (e : Entry) (f : ℕ) : Prop :=
  e.base ≤ f * frameSize ∧ (f + 1) * frameSize ≤ e.base + e.length

/-- A byte of the frame is among `n` bytes from `start` on. -/
def Touches (start n f : ℕ) : Prop := ∃ x, start ≤ x ∧ x < start + n ∧ x / frameSize = f

theorem le_highest : ∀ (memmap : List Entry) (n : ℕ),
    n ≤ highest memmap n ∧ ∀ e ∈ memmap, e.base + e.length ≤ highest memmap n := by
  intro memmap
  induction memmap with
  | nil => exact fun n => ⟨le_refl n, nofun⟩
  | cons entry memmap ih =>
      intro n
      rcases ih (max n (entry.base + entry.length)) with ⟨hn, hrest⟩
      change max n (entry.base + entry.length) ≤ highest (entry :: memmap) n at hn
      refine ⟨by omega, ?_⟩
      intro e he
      rcases List.mem_cons.1 he with rfl | he
      · omega
      · exact hrest e he

theorem highest_le {b : ℕ} : ∀ (memmap : List Entry) (n : ℕ), n ≤ b →
    (∀ e ∈ memmap, e.base + e.length ≤ b) → highest memmap n ≤ b := by
  intro memmap
  induction memmap with
  | nil => exact fun n hn _ => hn
  | cons entry memmap ih =>
      intro n hn hall
      have hentry := hall entry List.mem_cons_self
      exact ih _ (max_le hn hentry) fun e he => hall e (List.mem_cons_of_mem _ he)

section

variable {memmap : List Entry}

theorem LimineMap.highest_le (h : LimineMap memmap) : highest memmap 0 ≤ 2 ^ 52 :=
  Boot.highest_le memmap 0 (Nat.zero_le _) h.fits

theorem LimineMap.totalFrames_le (h : LimineMap memmap) : totalFrames memmap ≤ 2 ^ 40 := by
  have hle := h.highest_le
  unfold totalFrames
  omega

/-- Every entry ends before the last frame does. -/
theorem end_le_totalFrames {e : Entry} (he : e ∈ memmap) :
    (e.base + e.length) / 2 ^ frameShift ≤ totalFrames memmap := by
  have hle := (le_highest memmap 0).2 e he
  unfold totalFrames frameShift
  omega

theorem LimineMap.tail {e : Entry} (h : LimineMap (e :: memmap)) : LimineMap memmap := by
  refine ⟨?_, ?_, (List.pairwise_cons.1 h.apart).2, ?_⟩
  · exact fun e' he' => h.base_aligned e' (List.mem_cons_of_mem _ he')
  · exact fun e' he' => h.length_aligned e' (List.mem_cons_of_mem _ he')
  · exact fun e' he' => h.fits e' (List.mem_cons_of_mem _ he')

/-- The seeding loop goes over whole frames. -/
theorem hasFrame_iff {e : Entry} {f : ℕ} (hbase : e.base % frameSize = 0) :
    Entry.HasFrame e f ↔
      e.base / 2 ^ frameShift ≤ f ∧ f < (e.base + e.length) / 2 ^ frameShift := by
  unfold Entry.HasFrame frameSize frameShift
  unfold frameSize at hbase
  omega

theorem mem_seedFrames_iff (h : LimineMap memmap) {orderFirst orderLast f : ℕ} :
    f ∈ seedFrames orderFirst orderLast memmap ↔ 1 ≤ f ∧ (f < orderFirst ∨ orderLast ≤ f) ∧
      ∃ e ∈ memmap, e.kind = .usable ∧ Entry.HasFrame e f := by
  unfold seedFrames
  constructor
  · rintro ⟨hpos, hside, e, he, hk, hframe⟩
    exact ⟨hpos, hside, e, he, hk, (hasFrame_iff (h.base_aligned e he hk)).2 hframe⟩
  · rintro ⟨hpos, hside, e, he, hk, hframe⟩
    exact ⟨hpos, hside, e, he, hk, (hasFrame_iff (h.base_aligned e he hk)).1 hframe⟩

/-- An entry has no frame in common with those behind it. -/
theorem LimineMap.seedFrames_disjoint {e : Entry} (h : LimineMap (e :: memmap))
    (orderFirst orderLast : ℕ) : Disjoint (seedFrames orderFirst orderLast [e])
      (seedFrames orderFirst orderLast memmap) := by
  rw [Set.disjoint_left]
  rintro f ⟨-, -, e₁, he₁, hk₁, hframe₁⟩ hf
  rcases (mem_seedFrames_iff h.tail).1 hf with ⟨-, -, e', he', hk', hframe'⟩
  cases List.mem_singleton.1 he₁
  have hframe := (hasFrame_iff (h.base_aligned e List.mem_cons_self hk₁)).2 hframe₁
  -- they would share the first byte of the frame
  refine (List.pairwise_cons.1 h.apart).1 e' he' (Or.inl hk₁) (f * frameSize) ?_
  unfold Entry.HasFrame frameSize at hframe hframe'
  unfold Entry.Has frameSize
  omega

end

/-! ## The loops return -/

theorem highestEnd_run {σ : Type} : ∀ {memmap : List Entry} (n : ℕ) (s : σ),
    (∀ e ∈ memmap, e.base + e.length < 2 ^ 64) →
    (highestEnd memmap n : Run σ ℕ).run s = .ok (highest memmap n) s := by
  intro memmap
  induction memmap with
  | nil => exact fun n s _ => rfl
  | cons entry memmap ih =>
      intro n s hfit
      have hmax : (if entry.base + entry.length > n then entry.base + entry.length else n) =
          max n (entry.base + entry.length) := by
        split <;> omega
      unfold highestEnd
      rw [Prog.bind_of_ok (addU64_of_lt (hfit entry List.mem_cons_self) s), hmax]
      exact ih _ s fun e he => hfit e (List.mem_cons_of_mem _ he)

section

variable {s : Phys} {orderFirst orderLast : ℕ}

/-- A piece of frames that are in range and not free yet is added. -/
theorem seedPiece_ends {first last : ℕ} (hI : Inv s) (hptrs : PtrsOk s)
    (hlast : last ≤ s.pmm.totalFrames) (hlast' : last ≤ 2 ^ 52)
    (hunused : ∀ g ∈ Set.Ico (max first 1) last, g ∉ freeSet s) :
    ∃ s', (seedPiece first last).run s = .ok () s' ∧ Grew s s' (Set.Ico (max first 1) last) := by
  have hreturns : ∃ s', (seedPiece first last).run s = .ok () s' := by
    have hstart : (if first = 0 then 1 else first) = max first 1 := by
      split <;> omega
    unfold seedPiece
    rw [hstart]
    dsimp only
    split_ifs with hle hgt
    · exact ⟨s, rfl⟩
    · have hsum : max first 1 + (last - max first 1) = last := by omega
      rw [← hsum] at hunused
      rcases (addRange_spec _ _ hI (by omega) (by omega) hunused).exists_ok
        (not_not_intro hptrs) with ⟨_, s', hrun, -⟩
      exact ⟨s', hrun⟩
    · exact ⟨s, rfl⟩
  rcases hreturns with ⟨s', hrun⟩
  exact ⟨s', hrun, seedPiece_ok hI hlast' hrun⟩

theorem seedEntry_ends {entry : Entry} (hI : Inv s) (hptrs : PtrsOk s)
    (hlt : entry.base + entry.length ≤ 2 ^ 52)
    (hend : (entry.base + entry.length) / 2 ^ frameShift ≤ s.pmm.totalFrames)
    (horder : orderFirst ≤ orderLast)
    (hunused : ∀ g ∈ seedFrames orderFirst orderLast [entry], g ∉ freeSet s) :
    ∃ s', (seedEntry orderFirst orderLast entry).run s = .ok () s' := by
  unfold seedEntry
  split_ifs with hk
  · exact ⟨s, rfl⟩
  have hsmall : (entry.base + entry.length) / 2 ^ frameShift ≤ 2 ^ 52 :=
    (Nat.div_le_self _ _).trans hlt
  -- what the pieces are is among the frames to be seeded
  have hseed : ∀ g, 1 ≤ g → (g < orderFirst ∨ orderLast ≤ g) →
      entry.base / 2 ^ frameShift ≤ g → g < (entry.base + entry.length) / 2 ^ frameShift →
      g ∉ freeSet s := by
    intro g hpos hside hlo hhi
    exact hunused g ⟨hpos, hside, entry, List.mem_singleton.2 rfl, not_not.1 hk, hlo, hhi⟩
  have hsum : entry.base + entry.length < 2 ^ 64 := by omega
  have hbefore : ∃ t, (seedPiece (entry.base / 2 ^ frameShift)
      (min ((entry.base + entry.length) / 2 ^ frameShift) orderFirst)).run s = .ok () t ∧
      Grew s t (Set.Ico (max (entry.base / 2 ^ frameShift) 1)
        (min ((entry.base + entry.length) / 2 ^ frameShift) orderFirst)) := by
    refine seedPiece_ends hI hptrs (by omega) (by omega) ?_
    intro g hg
    rw [Set.mem_Ico] at hg
    exact hseed g (by omega) (by omega) (by omega) (by omega)
  rcases hbefore with ⟨t, hfirst, hgrew⟩
  have hbehind : ∃ s', (seedPiece (max (entry.base / 2 ^ frameShift) orderLast)
      ((entry.base + entry.length) / 2 ^ frameShift)).run t = .ok () s' ∧
      Grew t s' (Set.Ico (max (max (entry.base / 2 ^ frameShift) orderLast) 1)
        ((entry.base + entry.length) / 2 ^ frameShift)) := by
    refine seedPiece_ends hgrew.inv (hgrew.ptrsOk hptrs) (hgrew.total ▸ hend) hsmall ?_
    intro g hg
    rw [Set.mem_Ico] at hg
    rw [hgrew.free_eq]
    rintro (hfree | hpiece)
    · exact hseed g (by omega) (by omega) (by omega) (by omega) hfree
    · -- the pieces lie on two sides of the order bytes
      rw [Set.mem_Ico] at hpiece
      omega
  rcases hbehind with ⟨s', hsecond, -⟩
  refine ⟨s', ?_⟩
  dsimp only
  rw [Prog.bind_of_ok (addU64_of_lt hsum s), Prog.bind_of_ok hfirst]
  exact hsecond

/-- The seeding loop returns: no frame is seeded twice, and all of them are in range. -/
theorem seedEntries_ends (horder : orderFirst ≤ orderLast) :
    ∀ {memmap : List Entry} {s : Phys}, LimineMap memmap → Inv s → PtrsOk s →
    (∀ e ∈ memmap, (e.base + e.length) / 2 ^ frameShift ≤ s.pmm.totalFrames) →
    Disjoint (freeSet s) (seedFrames orderFirst orderLast memmap) →
    ∃ s', (seedEntries orderFirst orderLast memmap).run s = .ok () s' ∧
      Grew s s' (seedFrames orderFirst orderLast memmap) := by
  intro memmap s hmap hI hptrs hend hdisj
  have hreturns : ∃ s', (seedEntries orderFirst orderLast memmap).run s = .ok () s' := by
    induction memmap generalizing s with
    | nil => exact ⟨s, rfl⟩
    | cons entry memmap ih =>
        rw [seedFrames_cons, Set.disjoint_union_right] at hdisj
        rcases seedEntry_ends hI hptrs (hmap.fits entry List.mem_cons_self)
          (hend entry List.mem_cons_self) horder
          (fun g hg hfree => Set.disjoint_left.1 hdisj.1 hfree hg) with ⟨t, hrun⟩
        have hgrew := seedEntry_ok hI horder hrun
        have hrest : Disjoint (freeSet t) (seedFrames orderFirst orderLast memmap) := by
          rw [hgrew.free_eq, Set.disjoint_union_left]
          exact ⟨hdisj.2, hmap.seedFrames_disjoint orderFirst orderLast⟩
        have hend' : ∀ e ∈ memmap, (e.base + e.length) / 2 ^ frameShift ≤ t.pmm.totalFrames := by
          intro e he
          rw [hgrew.total]
          exact hend e (List.mem_cons_of_mem _ he)
        rcases ih hmap.tail hgrew.inv (hgrew.ptrsOk hptrs) hend' hrest with ⟨s', hrun'⟩
        refine ⟨s', ?_⟩
        unfold seedEntries
        rw [Prog.bind_of_ok hrun]
        exact hrun'
  rcases hreturns with ⟨s', hrun⟩
  exact ⟨s', hrun, seedEntries_ok horder memmap hI hrun⟩

end

/-! ## `mm::init` -/

/-- The entry that is chosen for the order bytes. -/
theorem orderPhys_spec {memmap : List Entry} {n : ℕ}
    (h : ∃ e ∈ memmap, e.kind = .usable ∧ n ≤ e.length) :
    ∃ e ∈ memmap, e.kind = .usable ∧ n ≤ e.length ∧ orderPhys memmap n = e.base := by
  unfold orderPhys
  cases hfind : memmap.find? fun e => e.kind = .usable ∧ e.length ≥ n with
  | none =>
      rcases h with ⟨e, he, hk, hn⟩
      have hnot := List.find?_eq_none.1 hfind e he
      exact absurd (decide_eq_true ⟨hk, hn⟩) hnot
  | some e =>
      have hchosen := List.find?_some hfind
      rw [decide_eq_true_eq] at hchosen
      exact ⟨e, List.mem_of_find?_eq_some hfind, hchosen.1, hchosen.2, rfl⟩

/-- The frames of the order bytes are those that the seeding loop leaves out. -/
theorem touches_iff {order total f : ℕ} (horder : order % frameSize = 0) :
    Touches order total f ↔ order / 2 ^ frameShift ≤ f ∧
      f < order / 2 ^ frameShift + (total + 4096 - 1) / 4096 * 4096 / 2 ^ frameShift := by
  unfold Touches frameShift
  unfold frameSize at horder ⊢
  constructor
  · rintro ⟨x, hlo, hhi, rfl⟩
    omega
  · rintro ⟨hlo, hhi⟩
    exact ⟨f * 4096, by omega, by omega, by omega⟩

/-- The direct map covers the frames of a memory map, and its offset is not null. -/
structure Covers (hhdm : ℕ) (memmap : List Entry) : Prop where
  offset_pos : 0 < hhdm
  offset_lt : hhdm < 2 ^ 64
  fits : hhdm + totalFrames memmap * frameSize ≤ 2 ^ 64

/-- The array of order bytes has an address. -/
theorem Covers.order_lt {memmap : List Entry} {hhdm : ℕ} (h : Covers hhdm memmap) {e : Entry}
    (he : e ∈ memmap) (hlen : orderBytes memmap ≤ e.length) : e.base + hhdm < 2 ^ 64 := by
  have hoffset := h.offset_lt
  have hfits := h.fits
  have hend := (le_highest memmap 0).2 e he
  unfold orderBytes totalFrames at hlen
  unfold totalFrames frameSize at hfits
  omega

/-- On such a map `mm::init` comes to its seeding loop, with a new allocator over the memory. -/
theorem init_new {memmap : List Entry} {hhdm : ℕ} (hmap : LimineMap memmap)
    (hcovers : Covers hhdm memmap) {e : Entry} (he : e ∈ memmap)
    (hlen : orderBytes memmap ≤ e.length)
    (hphys : orderPhys memmap (orderBytes memmap) = e.base) (m : Mem) :
    ∃ pmm, Fresh pmm ∧ pmm.pmm.totalFrames = totalFrames memmap ∧ pmm.pmm.hhdmOffset = hhdm ∧
      pmm.mem = m ∧ (init memmap hhdm).run m = (onLocal pmm (seedEntries (e.base / 2 ^ frameShift)
        (e.base / 2 ^ frameShift + orderBytes memmap / 2 ^ frameShift) memmap)).run m := by
  have hhigh := hmap.highest_le
  have htotal := hmap.totalFrames_le
  have hfits := hmap.fits e he
  have hends : ∀ e ∈ memmap, e.base + e.length < 2 ^ 64 := by
    intro e he
    exact (hmap.fits e he).trans_lt (by decide)
  have htop : (alignUp (highest memmap 0) frameSize).run m =
      .ok ((highest memmap 0 + 4096 - 1) / 4096 * 4096) m := by
    unfold frameSize
    exact alignUp_page (by omega) m
  have hframes : (highest memmap 0 + 4096 - 1) / 4096 * 4096 / 2 ^ frameShift =
      totalFrames memmap := by
    unfold frameShift totalFrames
    omega
  have hbytes : (alignUp (totalFrames memmap) frameSize).run m = .ok (orderBytes memmap) m := by
    unfold frameSize orderBytes
    exact alignUp_page (by omega) m
  have hlast : e.base / 2 ^ frameShift + orderBytes memmap / 2 ^ frameShift < 2 ^ 64 := by
    have h₁ := Nat.div_le_self e.base (2 ^ frameShift)
    have h₂ := Nat.div_le_self (orderBytes memmap) (2 ^ frameShift)
    omega
  have hne : e.base ≠ 2 ^ 64 - 1 := by omega
  have hnew : ∃ pmm, (new (List.replicate (totalFrames memmap) 0) (totalFrames memmap) hhdm).run m =
      .ok pmm m ∧ pmm.pmm.totalFrames = totalFrames memmap ∧ pmm.pmm.hhdmOffset = hhdm ∧
      pmm.mem = m := by
    unfold new
    rw [Prog.require_bind List.length_replicate.symm]
    exact ⟨_, rfl, rfl, rfl, rfl⟩
  rcases hnew with ⟨pmm, hnew, hnewTotal, hnewHhdm, hnewMem⟩
  refine ⟨pmm, ⟨_, _, _, m, htotal.trans_lt (by decide), hnew⟩, hnewTotal, hnewHhdm, hnewMem, ?_⟩
  unfold init
  rw [Prog.bind_of_ok (highestEnd_run 0 m hends), Prog.bind_of_ok htop]
  dsimp only
  rw [hframes, Prog.bind_of_ok hbytes, hphys, Prog.require_bind hne,
    Prog.bind_of_ok (addU64_of_lt (hcovers.order_lt he hlen) m), Prog.bind_of_ok hnew,
    Prog.bind_of_ok (addU64_of_lt hlast m)]

theorem init_run {memmap : List Entry} {hhdm : ℕ} (hmap : LimineMap memmap)
    (hcovers : Covers hhdm memmap) {e : Entry} (he : e ∈ memmap)
    (hlen : orderBytes memmap ≤ e.length)
    (hphys : orderPhys memmap (orderBytes memmap) = e.base) (m : Mem) :
    ∃ pmm, Fresh pmm ∧ pmm.pmm.totalFrames = totalFrames memmap ∧ pmm.pmm.hhdmOffset = hhdm ∧
      (init memmap hhdm).run m = (onLocal pmm (seedEntries (e.base / 2 ^ frameShift)
        (e.base / 2 ^ frameShift + orderBytes memmap / 2 ^ frameShift) memmap)).run m := by
  rcases init_new hmap hcovers he hlen hphys m with ⟨pmm, hfresh, htotal, hhdm, -, hinit⟩
  exact ⟨pmm, hfresh, htotal, hhdm, hinit⟩

theorem onLocal_of_ok {pmm s : Phys} {x : Run Phys Unit} (h : x.run pmm = .ok () s) (m : Mem) :
    (onLocal pmm x).run m = .ok s s.mem := by
  unfold onLocal
  dsimp only
  rw [h]

/-- `mm::init` returns an allocator whose free frames are the usable ones, without frame 0 and
the frames of the order bytes, which lie in the one usable entry chosen for them. -/
theorem init_exact {memmap : List Entry} {hhdm : ℕ} (hmap : LimineMap memmap)
    (hroom : ∃ e ∈ memmap, e.kind = .usable ∧ orderBytes memmap ≤ e.length)
    (hcovers : Covers hhdm memmap) (m : Mem) :
    ∃ s m', (init memmap hhdm).run m = .ok s m' ∧
      s.pmm.totalFrames = totalFrames memmap ∧
      (∀ f, f ∈ freeSet s ↔ 1 ≤ f ∧ (∃ e ∈ memmap, e.kind = .usable ∧ Entry.HasFrame e f) ∧
        ¬ Touches (orderPhys memmap (orderBytes memmap)) s.pmm.totalFrames f) ∧
      s.pmm.freeFrames = (freeSet s).ncard ∧
      (∃ e ∈ memmap, e.kind = .usable ∧ orderPhys memmap (orderBytes memmap) = e.base ∧
        ∀ x, e.base ≤ x → x < e.base + s.pmm.totalFrames → Entry.Has e x) ∧
      ∀ e ∈ memmap, e.kind = .usable → ∀ f, Entry.HasFrame e f → f < s.pmm.totalFrames := by
  rcases orderPhys_spec hroom with ⟨e₀, he₀, hk₀, hlen₀, hphys⟩
  rcases init_run hmap hcovers he₀ hlen₀ hphys m with ⟨pmm, hfresh, htotal, hhdm, hinit⟩
  have hptrs : PtrsOk pmm := by
    refine DirectMap.ptrsOk ⟨?_, ?_⟩
    · rw [hhdm]
      exact hcovers.offset_pos
    · rw [hhdm, htotal]
      exact hcovers.fits
  have hends : ∀ e ∈ memmap, (e.base + e.length) / 2 ^ frameShift ≤ pmm.pmm.totalFrames := by
    intro e he
    rw [htotal]
    exact end_le_totalFrames he
  have hdisj : ∀ F, Disjoint (freeSet pmm) F := by
    intro F
    rw [hfresh.freeSet_eq]
    exact Set.empty_disjoint F
  rcases seedEntries_ends (Nat.le_add_right _ _) hmap hfresh.inv hptrs hends (hdisj _) with
    ⟨s, hseed, hgrew⟩
  have hs : s.pmm.totalFrames = totalFrames memmap := hgrew.total.trans htotal
  refine ⟨s, s.mem, hinit.trans (onLocal_of_ok hseed m), hs, ?_, hgrew.inv.count, ?_, ?_⟩
  · intro f
    rw [hgrew.free_eq, hfresh.freeSet_eq, Set.empty_union, mem_seedFrames_iff hmap, hphys, hs,
      touches_iff (hmap.base_aligned e₀ he₀ hk₀)]
    have hside : (f < e₀.base / 2 ^ frameShift ∨
        e₀.base / 2 ^ frameShift + orderBytes memmap / 2 ^ frameShift ≤ f) ↔
        ¬ (e₀.base / 2 ^ frameShift ≤ f ∧
          f < e₀.base / 2 ^ frameShift + orderBytes memmap / 2 ^ frameShift) := by
      omega
    rw [hside]
    exact and_congr_right fun _ => and_comm
  · refine ⟨e₀, he₀, hk₀, hphys, ?_⟩
    intro x hlo hhi
    refine ⟨hlo, ?_⟩
    rw [hs] at hhi
    unfold orderBytes at hlen₀
    omega
  · intro e he hk f hframe
    have hlt := ((hasFrame_iff (hmap.base_aligned e he hk)).1 hframe).2
    rw [hs]
    exact hlt.trans_le (end_le_totalFrames he)

/-- Two usable entries; the order bytes are in frame 0, and frame 3 is not usable. -/
def twoEntries : List Entry :=
  [⟨0x0, 0x3000, .usable⟩, ⟨0x3010, 0x20, .other 1⟩, ⟨0x4000, 0x2000, .usable⟩]

theorem limineMap_twoEntries : LimineMap twoEntries := by
  refine ⟨by decide, by decide, ?_, by decide⟩
  simp only [twoEntries, List.pairwise_cons, List.forall_mem_cons, List.not_mem_nil,
    false_implies, implies_true, List.Pairwise.nil, and_true, Entry.Has]
  refine ⟨⟨fun _ x => ?_, fun _ x => ?_⟩, fun _ x => ?_⟩ <;> omega

/-- On this map the free frames are 1, 2, 4 and 5. -/
theorem init_exact_twoEntries : LimineMap twoEntries ∧ Covers 0xFFFF800000000000 twoEntries ∧
    ∃ s m', (init twoEntries 0xFFFF800000000000).run (fun _ _ => 0) = .ok s m' ∧
      (1 ∈ freeSet s ∧ 5 ∈ freeSet s) ∧ 0 ∉ freeSet s ∧ 3 ∉ freeSet s := by
  have hcovers : Covers 0xFFFF800000000000 twoEntries := ⟨by decide, by decide, by decide⟩
  have hroom : ∃ e ∈ twoEntries, e.kind = .usable ∧ orderBytes twoEntries ≤ e.length := by decide
  rcases init_exact limineMap_twoEntries hroom hcovers (fun _ _ => 0) with
    ⟨s, m', hrun, htotal, hfree, -⟩
  have hphys : orderPhys twoEntries (orderBytes twoEntries) = 0 := by decide
  have htotal6 : totalFrames twoEntries = 6 := by decide
  have htouches : ∀ f, Touches 0 6 f ↔ f = 0 := by
    intro f
    rw [touches_iff rfl]
    unfold frameShift
    omega
  refine ⟨limineMap_twoEntries, hcovers, s, m', hrun, ?_⟩
  simp only [hfree, hphys, htotal, htotal6, htouches]
  simp [twoEntries, Entry.HasFrame, frameSize]

/-- If the direct map does not reach all memory, the first frame that is freed may have no
pointer. -/
theorem init_overflow : LimineMap [⟨0, 0x4000, .usable⟩] ∧
    (∃ e ∈ [(⟨0, 0x4000, .usable⟩ : Entry)], e.kind = .usable ∧
      orderBytes [⟨0, 0x4000, .usable⟩] ≤ e.length) ∧
    ∃ msg m', (init [⟨0, 0x4000, .usable⟩] (2 ^ 64 - 4096)).run (fun _ _ => 0) =
      .stop (.panic msg) m' := by
  refine ⟨⟨by decide, by decide, List.pairwise_singleton _ _, by decide⟩, by decide, ?_⟩
  simp only [init, seedEntries, seedEntry, seedPiece]
  unfold addRange
  exact ⟨_, _, rfl⟩

/-! ## The allocator as it is installed -/

/-- The frames that `mm::init` gives to the allocator: the usable ones, without frame 0 and the
frames of the order bytes. -/
def available (memmap : List Entry) : Set ℕ :=
  {f | 1 ≤ f ∧ (∃ e ∈ memmap, e.kind = .usable ∧ Entry.HasFrame e f) ∧
    ¬ Touches (orderPhys memmap (orderBytes memmap)) (totalFrames memmap) f}

theorem mem_available_iff {memmap : List Entry} (hmap : LimineMap memmap) {e : Entry}
    (he : e ∈ memmap) (hk : e.kind = .usable)
    (hphys : orderPhys memmap (orderBytes memmap) = e.base) (f : ℕ) :
    f ∈ available memmap ↔ f ∈ seedFrames (e.base / 2 ^ frameShift)
      (e.base / 2 ^ frameShift + orderBytes memmap / 2 ^ frameShift) memmap := by
  have hside : (f < e.base / 2 ^ frameShift ∨
      e.base / 2 ^ frameShift + orderBytes memmap / 2 ^ frameShift ≤ f) ↔
      ¬ Touches e.base (totalFrames memmap) f := by
    rw [touches_iff (hmap.base_aligned e he hk), ← orderBytes]
    omega
  rw [mem_seedFrames_iff hmap, hside]
  unfold available
  rw [hphys]
  exact and_congr_right fun _ => and_comm

/-- Nobody has a block of it yet, and the memory that is not free was not written. -/
theorem init_holds {memmap : List Entry} {hhdm : ℕ} (hmap : LimineMap memmap)
    (hroom : ∃ e ∈ memmap, e.kind = .usable ∧ orderBytes memmap ≤ e.length)
    (hcovers : Covers hhdm memmap) (m : Mem) :
    ∃ s, (init memmap hhdm).run m = .ok s s.mem ∧ Holds s [] ∧
      s.pmm.totalFrames = totalFrames memmap ∧ s.pmm.hhdmOffset = hhdm ∧
      freeSet s = available memmap ∧ ∀ g, g ∉ available memmap → s.mem g = m g := by
  obtain ⟨e, he, hk, hlen, hphys⟩ := orderPhys_spec hroom
  obtain ⟨pmm, hfresh, htotal, hhdm, hmem, hinit⟩ := init_new hmap hcovers he hlen hphys m
  have hdirect : DirectMap pmm := by
    constructor
    · rw [hhdm]
      exact hcovers.offset_pos
    · rw [hhdm, htotal]
      exact hcovers.fits
  have hends : ∀ e ∈ memmap, (e.base + e.length) / 2 ^ frameShift ≤ pmm.pmm.totalFrames := by
    intro e he
    rw [htotal]
    exact end_le_totalFrames he
  have hdisj : ∀ F, Disjoint (freeSet pmm) F := by
    intro F
    rw [hfresh.freeSet_eq]
    exact Set.empty_disjoint F
  obtain ⟨s, hseed, hgrew⟩ :=
    seedEntries_ends (Nat.le_add_right _ _) hmap hfresh.inv hdirect.ptrsOk hends (hdisj _)
  have hfree : freeSet s = available memmap := by
    ext f
    rw [hgrew.free_eq, hfresh.freeSet_eq, Set.empty_union, mem_available_iff hmap he hk hphys]
  refine ⟨s, hinit.trans (onLocal_of_ok hseed m), ?_, hgrew.total.trans htotal,
    hgrew.hhdm.trans hhdm, hfree, ?_⟩
  · exact ⟨hgrew.inv, hdirect.congr hgrew.total hgrew.hhdm, by simp, List.Pairwise.nil, by simp⟩
  · intro g hg
    rw [← hfree] at hg
    rw [hgrew.mem_eq g hg, hmem]

end Prometheos.Boot
