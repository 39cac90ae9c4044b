import Prometheos.Boot.Reclaim

/-!
# Who gets frame 0

After `mm::init` blocks are allocated and freed, and at some moment `reclaim_bootloader` is called.
`mm::init` keeps frame 0 out of the free set; `reclaim_bootloader` does not look for it. Until the
call, the memory map stands in memory as it was (`Awaits`), so what the call adds is known if it
finds the map undisturbed. Frame 0 then stays with nobody exactly as long as no entry to be
reclaimed has it (`frame_zero_withheld_iff`).

In a map that is disturbed, a null link in the place of a base is read as address 0: then frame 0
is handed out although no entry has it (`frame_zero_from_link`).
-/

namespace Prometheos.Boot

open Pmm Dyadic

/-- The allocator after `mm::init`, the blocks it has given out so far (freed or not),
and whether the bootloader's memory has been reclaimed. -/
structure State where
  phys : Phys
  given : List (ℕ × ℕ)
  reclaimed : Bool

/-- No entry to be reclaimed has frame 0. -/
def ReclaimSparesZero (entries : List Entry) : Prop :=
  ∀ e ∈ entries, e.kind = .bootloaderReclaimable → e.base < frameSize → e.length < frameSize

instance (entries : List Entry) : Decidable (ReclaimSparesZero entries) :=
  inferInstanceAs (Decidable (∀ e ∈ entries, _ → _ → _))

theorem zero_mem_reclaimFrames (entries : List Entry) :
    0 ∈ reclaimFrames entries ↔ ¬ ReclaimSparesZero entries := by
  unfold ReclaimSparesZero
  push Not
  constructor
  · rintro ⟨e, he, hk, h1, h2⟩
    refine ⟨e, he, hk, ?_, ?_⟩
    · unfold frameShift at h1
      unfold frameSize
      omega
    · unfold frameShift at h1 h2
      unfold frameSize
      omega
  · rintro ⟨e, he, hk, h1, h2⟩
    unfold frameSize at h1 h2
    refine ⟨e, he, hk, ?_, ?_⟩
    · unfold frameShift
      omega
    · unfold frameShift
      omega

section

variable [Limine]

/-- The map in memory tells of the same entries to be reclaimed. -/
structure Memmap.Shows (memmap : Memmap) (s : Phys) (entries : List Entry) : Prop where
  len_eq : memmap.len = entries.length
  base_eq : ∀ k e, entries[k]? = some e → (memmap.entryAt s k).base = e.base
  length_eq : ∀ k e, entries[k]? = some e → (memmap.entryAt s k).length = e.length
  kind_iff : ∀ k e, entries[k]? = some e →
    ((memmap.entryAt s k).kind = .bootloaderReclaimable ↔ e.kind = .bootloaderReclaimable)

theorem Memmap.Shows.reclaimFrames_eq {memmap : Memmap} {s : Phys} {entries : List Entry}
    (h : memmap.Shows s entries) :
    reclaimFrames (memmap.entries s) = reclaimFrames entries := by
  ext g
  rw [Memmap.reclaimFrames_entries]
  constructor
  · rintro ⟨k, hk, hkind, hfirst, hlast⟩
    rw [h.len_eq] at hk
    have he := List.getElem?_eq_getElem hk
    unfold Entry.first Entry.count at *
    rw [h.base_eq k _ he] at hfirst hlast
    rw [h.length_eq k _ he] at hlast
    exact ⟨_, List.getElem_mem hk, (h.kind_iff k _ he).1 hkind, hfirst, hlast⟩
  · rintro ⟨e, hmem, hkind, hfirst, hlast⟩
    rcases List.getElem?_of_mem hmem with ⟨k, he⟩
    have hk : k < memmap.len := by
      rw [h.len_eq]
      exact (List.getElem?_eq_some_iff.1 he).1
    refine ⟨k, hk, (h.kind_iff k e he).2 hkind, ?_, ?_⟩
    · unfold Entry.first
      rw [h.base_eq k e he]
      exact hfirst
    · unfold Entry.first Entry.count
      rw [h.base_eq k e he, h.length_eq k e he]
      exact hlast

/-! ## Runs -/

/-- One call, or a write to memory that is neither free nor the bootloader's. The call of
`reclaim_bootloader` is made in a state with the property `C`. -/
inductive Step (memmap : Memmap) (C : Phys → Prop) (b : State) : State → Prop
  | reclaim {r : ℕ × ℕ} {s' : Phys} : b.reclaimed = false → C b.phys →
      memmap.reclaimBootloader.run b.phys = .ok r s' → Step memmap C b ⟨s', b.given, true⟩
  | allocNone (order : ℕ) {s' : Phys} : (allocPages order).run b.phys = .ok none s' →
      Step memmap C b ⟨s', b.given, b.reclaimed⟩
  | allocSome (order addr : ℕ) {s' : Phys} :
      (allocPages order).run b.phys = .ok (some addr) s' →
      Step memmap C b ⟨s', (addr, order) :: b.given, b.reclaimed⟩
  | free (addr order : ℕ) {s' : Phys} : (addr, order) ∈ b.given →
      (freePages addr order).run b.phys = .ok () s' →
      Step memmap C b ⟨s', b.given, b.reclaimed⟩
  | write {m : Mem} : (∀ f ∈ freeSet b.phys, m f = b.phys.mem f) →
      (b.reclaimed = false → ∀ f ∈ reclaimFrames (memmap.entries b.phys), m f = b.phys.mem f) →
      Step memmap C b ⟨{ b.phys with mem := m }, b.given, b.reclaimed⟩

/-- The runs that start with the allocator `s` of `mm::init`. -/
def RunFrom (memmap : Memmap) (C : Phys → Prop) (s : Phys) (b : State) : Prop :=
  Relation.ReflTransGen (Step memmap C) ⟨s, [], false⟩ b

/-- No allocation in a run returns a block with frame 0. -/
def ZeroWithheld (memmap : Memmap) (C : Phys → Prop) (s : Phys) : Prop :=
  ∀ b, RunFrom memmap C s b → ∀ order addr s',
    (allocPages order).run b.phys = .ok (some addr) s' → 0 ∉ frames (addr, order)

variable {memmap : Memmap} {C : Phys → Prop} {s t : Phys} {b b' : State}

/-! ## Before the call -/

/-- The allocator is in `t`, the map as it was in `s`. -/
structure Memmap.Stands (memmap : Memmap) (s t : Phys) : Prop where
  total : t.pmm.totalFrames = s.pmm.totalFrames
  hhdm : t.pmm.hhdmOffset = s.pmm.hhdmOffset
  free_sub : freeSet t ⊆ freeSet s
  kept : ∀ f ∈ reclaimFrames (memmap.entries s), t.mem f = s.mem f

theorem Memmap.Valid.unused_frames (hv : memmap.Valid s) :
    Disjoint (reclaimFrames (memmap.entries s)) (freeSet s) := by
  rw [Memmap.reclaimFrames_entries]
  exact hv.frames_unused le_rfl

/-- An entry is the same in two states whose memory agrees on its words. -/
theorem Memmap.entryAt_congr {k : ℕ} (hhdm : t.pmm.hhdmOffset = s.pmm.hhdmOffset)
    (h : ∀ p ∈ memmap.words s k,
      t.mem (ptrFrame s.pmm.hhdmOffset p) = s.mem (ptrFrame s.pmm.hhdmOffset p)) :
    memmap.words t k = memmap.words s k ∧ memmap.entryAt t k = memmap.entryAt s k := by
  have hword : ∀ p ∈ memmap.words s k, Memmap.wordAt t p = Memmap.wordAt s p := by
    intro p hp
    unfold Memmap.wordAt
    rw [hhdm, h p hp]
  unfold Memmap.words at hword
  have hslot := hword (memmap.slot k) (by simp)
  have htype := hword (Memmap.wordAt s (memmap.slot k) + Limine.entryType) (by simp)
  have hbase := hword (Memmap.wordAt s (memmap.slot k) + Limine.entryBase) (by simp)
  have hlength := hword (Memmap.wordAt s (memmap.slot k) + Limine.entryLength) (by simp)
  unfold Memmap.words Memmap.entryAt Memmap.entryOf
  rw [hslot, htype, hbase, hlength]
  exact ⟨rfl, rfl⟩

/-- The words of the map lie in memory that nobody touched. -/
theorem Memmap.Stands.entryAt_eq (h : memmap.Stands s t) (hv : memmap.Valid s) {k : ℕ}
    (hk : k < memmap.len) :
    memmap.words t k = memmap.words s k ∧ memmap.entryAt t k = memmap.entryAt s k := by
  refine Memmap.entryAt_congr h.hhdm ?_
  intro p hp
  exact h.kept _ (hv.placed k hk p hp).2.2

theorem Memmap.Stands.entries_eq (h : memmap.Stands s t) (hv : memmap.Valid s) :
    memmap.entries t = memmap.entries s := by
  refine List.map_congr_left ?_
  intro k hk
  exact (h.entryAt_eq hv (List.mem_range.1 hk)).2

theorem Memmap.Stands.valid (h : memmap.Stands s t) (hv : memmap.Valid s) : memmap.Valid t := by
  refine ⟨?_, ?_, ?_, ?_⟩
  · intro k hk
    rw [(h.entryAt_eq hv hk).2, h.total]
    exact hv.in_range k hk
  · intro i hi j hj
    rw [(h.entryAt_eq hv hi).2, (h.entryAt_eq hv hj).2]
    exact hv.apart i hi j hj
  · intro k hk
    rw [(h.entryAt_eq hv hk).2]
    exact (hv.unused k hk).mono_right h.free_sub
  · intro k hk
    rw [(h.entryAt_eq hv hk).1, h.hhdm, h.entries_eq hv]
    exact hv.placed k hk

/-- What is known until `reclaim_bootloader` is called: what was given out was free after
`mm::init`, and the map stands. -/
structure Awaits (memmap : Memmap) (s : Phys) (b : State) : Prop extends
    memmap.Stands s b.phys where
  inv : Inv b.phys
  given_sub : ∀ g ∈ b.given, g.1 < 2 ^ 64 ∧ frames g ⊆ freeSet s

theorem Step.awaits (h : Step memmap C b b') (hv : memmap.Valid s) (hA : Awaits memmap s b)
    (hbefore : b'.reclaimed = false) : Awaits memmap s b' := by
  -- memory to be reclaimed is not free
  have hnotfree : ∀ f ∈ reclaimFrames (memmap.entries s), f ∉ freeSet s :=
    fun f hf => Set.disjoint_left.1 hv.unused_frames hf
  cases h with
  | reclaim _ _ _ => cases hbefore
  | allocNone order hrun =>
      rw [(allocPages_ok hA.inv hrun).2.1]
      exact hA
  | allocSome order addr hrun =>
      rcases allocPages_ok hA.inv hrun with ⟨-, f, rfl, htook⟩
      refine ⟨⟨htook.total.trans hA.total, htook.hhdm.trans hA.hhdm, ?_, ?_⟩, htook.inv, ?_⟩
      · rw [htook.free_eq]
        exact Set.sdiff_subset.trans hA.free_sub
      · intro g hg
        rw [htook.mem_eq g fun hfree => hnotfree g hg (hA.free_sub hfree)]
        exact hA.kept g hg
      · intro g hg
        rcases List.mem_cons.1 hg with rfl | hg
        · have hlt := htook.addr_lt
          refine ⟨by unfold frameSize; omega, ?_⟩
          rw [frames_mul]
          exact htook.subset.trans hA.free_sub
        · exact hA.given_sub g hg
  | @free addr order s' hg hrun =>
      rcases hA.given_sub _ hg with ⟨hlt, hsub⟩
      rcases freePages_ok hA.inv hlt hrun with ⟨f, rfl, -, hG⟩
      rw [frames_mul] at hsub
      have hfree : freeSet s' ⊆ freeSet s := by
        rw [hG.free_eq]
        exact Set.union_subset hA.free_sub hsub
      refine ⟨⟨hG.total.trans hA.total, hG.hhdm.trans hA.hhdm, hfree, ?_⟩, hG.inv, hA.given_sub⟩
      intro g hg
      rw [hG.mem_eq g fun h => hnotfree g hg (hfree h)]
      exact hA.kept g hg
  | write hfree hmap =>
      rw [hA.entries_eq hv] at hmap
      refine ⟨⟨hA.total, hA.hhdm, hA.free_sub, ?_⟩, hA.inv.write hfree, hA.given_sub⟩
      intro f hf
      exact (hmap hbefore f hf).trans (hA.kept f hf)

/-! ## Frame 0 -/

/-- Frame 0 is not free, and was in no block that was given out. -/
structure Withheld (b : State) : Prop where
  inv : Inv b.phys
  not_free : 0 ∉ freeSet b.phys
  not_given : ∀ g ∈ b.given, g.1 < 2 ^ 64 ∧ 0 ∉ frames g

/-- Only the call of `reclaim_bootloader` can bring frame 0 in. -/
theorem Step.withheld (h : Step memmap C b b') (hW : Withheld b)
    (hreclaim : ∀ r s', b.reclaimed = false → C b.phys →
      memmap.reclaimBootloader.run b.phys = .ok r s' → Inv s' ∧ 0 ∉ freeSet s') :
    Withheld b' := by
  cases h with
  | reclaim hfirst hC hrun =>
      rcases hreclaim _ _ hfirst hC hrun with ⟨hI, hzero⟩
      exact ⟨hI, hzero, hW.not_given⟩
  | allocNone order hrun =>
      rw [(allocPages_ok hW.inv hrun).2.1]
      exact hW
  | allocSome order addr hrun =>
      rcases allocPages_ok hW.inv hrun with ⟨-, f, rfl, htook⟩
      refine ⟨htook.inv, ?_, ?_⟩
      · rw [htook.free_eq]
        exact fun h0 => hW.not_free h0.1
      · intro g hg
        rcases List.mem_cons.1 hg with rfl | hg
        · have hlt := htook.addr_lt
          refine ⟨by unfold frameSize; omega, ?_⟩
          rw [frames_mul]
          exact fun h0 => hW.not_free (htook.subset h0)
        · exact hW.not_given g hg
  | free addr order hg hrun =>
      -- what comes back was given out, so it does not contain frame 0
      rcases hW.not_given _ hg with ⟨hlt, hzero⟩
      rcases freePages_ok hW.inv hlt hrun with ⟨f, rfl, -, hG⟩
      rw [frames_mul] at hzero
      refine ⟨hG.inv, ?_, hW.not_given⟩
      rw [hG.free_eq]
      rintro (h0 | h0)
      · exact hW.not_free h0
      · exact hzero h0
  | write hfree _ => exact ⟨hW.inv.write hfree, hW.not_free, hW.not_given⟩

/-- What is known along a run. -/
structure Guarded (memmap : Memmap) (s : Phys) (b : State) : Prop where
  awaits : b.reclaimed = false → Awaits memmap s b
  withheld : Withheld b

theorem Memmap.Stands.mapped (h : memmap.Stands s t) (hdirect : DirectMap s)
    (hhigh : HigherHalf s) : DirectMap t ∧ HigherHalf t := by
  refine ⟨⟨?_, ?_⟩, ?_⟩
  · rw [h.hhdm]
    exact hdirect.offset_pos
  · rw [h.hhdm, h.total]
    exact hdirect.fits
  · unfold HigherHalf
    rw [h.hhdm, h.total]
    exact hhigh

theorem Step.guarded (h : Step memmap memmap.Undisturbed b b') (hv : memmap.Valid s)
    (hdirect : DirectMap s) (hhigh : HigherHalf s)
    (hspare : 0 ∉ reclaimFrames (memmap.entries s)) (hG : Guarded memmap s b) :
    Guarded memmap s b' := by
  have hbefore : b'.reclaimed = false → b.reclaimed = false := by
    cases h with
    | reclaim _ _ _ => exact fun h => absurd h Bool.false_ne_true.symm
    | allocNone _ _ => exact id
    | allocSome _ _ _ => exact id
    | free _ _ _ _ => exact id
    | write _ _ => exact id
  refine ⟨fun h' => h.awaits hv (hG.awaits (hbefore h')) h', h.withheld hG.withheld ?_⟩
  intro r s' hfirst hu hrun
  -- the call adds the frames of the entries as they were after `mm::init`
  have hA := hG.awaits hfirst
  rcases hA.mapped hdirect hhigh with ⟨hdirect', hhigh'⟩
  rcases Memmap.reclaimBootloader_grew (hA.valid hv) hu hA.inv hdirect' hhigh' with
    ⟨r', u, hrun', hgrew, -⟩
  cases hrun.symm.trans hrun'
  refine ⟨hgrew.inv, ?_⟩
  rw [hgrew.free_eq, hA.entries_eq hv]
  rintro (h0 | h0)
  · exact hG.withheld.not_free h0
  · exact hspare h0

/-- As long as frame 0 is free, some run of allocations hands it out. -/
theorem exists_alloc_zero (memmap : Memmap) (C : Phys → Prop) : ∀ (n : ℕ) {b : State},
    Inv b.phys → PtrsOk b.phys → 0 ∈ freeSet b.phys → (freeSet b.phys).ncard = n →
    ∃ b', Relation.ReflTransGen (Step memmap C) b b' ∧
      ∃ addr s', (allocPages 0).run b'.phys = .ok (some addr) s' ∧ 0 ∈ frames (addr, 0) := by
  intro n
  induction n using Nat.strong_induction_on with
  | _ n ih =>
      intro b hI hptrs hzero hcard
      rcases (allocPages_spec hI (Nat.zero_le maxOrder)).exists_ok (not_not_intro hptrs) with
        ⟨r, s', hrun, hpost⟩
      cases r with
      | none =>
          refine absurd ?_ (hpost.2 0 (dvd_zero _))
          rw [block_zero]
          exact Set.singleton_subset_iff.2 hzero
      | some addr =>
          rcases hpost with ⟨f, rfl, htook⟩
          by_cases hf : f = 0
          · refine ⟨b, Relation.ReflTransGen.refl, _, s', hrun, ?_⟩
            rw [frames_mul, block_zero, hf]
            exact Set.mem_singleton 0
          · -- another frame was taken; frame 0 is still free, among fewer frames
            rcases hI.rep with ⟨L, hR, -⟩
            have hzero' : 0 ∈ freeSet s' := by
              rw [htook.free_eq, block_zero]
              exact ⟨hzero, fun h => hf (Set.mem_singleton_iff.1 h).symm⟩
            have hless : (freeSet s').ncard < n := by
              rw [← hcard, htook.free_eq]
              refine Set.ncard_lt_ncard ⟨Set.sdiff_subset, ?_⟩ hR.freeSet_finite
              intro hsub
              exact (hsub (htook.subset (self_mem_block 0 f))).2 (self_mem_block 0 f)
            have hptrs' : PtrsOk s' := by
              unfold PtrsOk
              rw [htook.total, htook.hhdm]
              exact hptrs
            have hnext := ih _ hless (b := ⟨s', (f * frameSize, 0) :: b.given, b.reclaimed⟩)
              htook.inv hptrs' hzero' rfl
            rcases hnext with ⟨b', hsteps, hout⟩
            exact ⟨b', Relation.ReflTransGen.head (Step.allocSome 0 _ hrun) hsteps, hout⟩

/-- Frame 0 is handed out to nobody, in any run after `mm::init` in which `reclaim_bootloader` finds
the memory map undisturbed, if no entry to be reclaimed has frame 0; and if one has, and the map is
undisturbed after `mm::init`, then some such run hands it out. -/
theorem frame_zero_withheld_iff {entries : List Entry} {hhdm : ℕ} {m m' : Mem}
    (hinit : (init entries hhdm).run m = .ok s m') (hmap : memmap.Shows s entries)
    (hv : memmap.Valid s) (hdirect : DirectMap s) (hhigh : HigherHalf s) :
    (ReclaimSparesZero entries → ZeroWithheld memmap memmap.Undisturbed s) ∧
    (memmap.Undisturbed s → ZeroWithheld memmap memmap.Undisturbed s →
      ReclaimSparesZero entries) := by
  rcases init_ok hinit with ⟨-, hI, -, orderFirst, orderLast, hfree⟩
  have hzero : 0 ∉ freeSet s := by
    rw [hfree]
    rintro ⟨hpos, -⟩
    omega
  constructor
  · intro hspare b hrun order addr s' halloc
    have hstart : Guarded memmap s ⟨s, [], false⟩ :=
      ⟨fun _ => ⟨⟨rfl, rfl, subset_rfl, fun _ _ => rfl⟩, hI,
          fun g hg => absurd hg List.not_mem_nil⟩,
        hI, hzero, fun g hg => absurd hg List.not_mem_nil⟩
    have hnot : 0 ∉ reclaimFrames (memmap.entries s) := by
      rw [hmap.reclaimFrames_eq]
      exact fun h0 => (zero_mem_reclaimFrames entries).1 h0 hspare
    have hG : Guarded memmap s b := by
      refine reach_invariant ?_ hrun hstart
      intro t t' hstep
      exact hstep.guarded hv hdirect hhigh hnot
    rcases allocPages_ok hG.withheld.inv halloc with ⟨-, f, rfl, htook⟩
    rw [frames_mul]
    exact fun h0 => hG.withheld.not_free (htook.subset h0)
  · intro hu hsafe
    by_contra hbad
    rcases Memmap.reclaimBootloader_grew hv hu hI hdirect hhigh with ⟨r, t, hreclaim, hG, -⟩
    have hin : 0 ∈ freeSet t := by
      rw [hG.free_eq, hmap.reclaimFrames_eq]
      exact Or.inr ((zero_mem_reclaimFrames entries).2 hbad)
    rcases exists_alloc_zero memmap memmap.Undisturbed _ (b := ⟨t, [], true⟩) hG.inv
      (hG.ptrsOk hdirect.ptrsOk) hin rfl with ⟨b', hsteps, addr, s', halloc, hout⟩
    exact hsafe b' (Relation.ReflTransGen.head (Step.reclaim rfl hu hreclaim) hsteps) 0 addr s'
      halloc hout

end

/-! ## Three maps

The maps stand in memory as the protocol documents it, behind a direct map at `0x100000`. -/

/-- Memory that is 0 but for some words, which are given with their frame and index. -/
def memOf (words : List (ℕ × ℕ × ℕ)) : Mem := fun f i =>
  match words.find? fun w => w.1 = f ∧ w.2.1 = i with
  | some w => BitVec.ofNat 64 w.2.2
  | none => 0

/-- The frames 0 and 1 are usable, 2 and 3 are to be reclaimed, and 4 takes the order bytes. -/
def lowUsable : List Entry :=
  [⟨0x4000, 0x1000, .usable⟩, ⟨0, 0x2000, .usable⟩, ⟨0x2000, 0x2000, .bootloaderReclaimable⟩]

/-- That map in frame 3, behind its pointers. -/
def lowUsableMem : Mem := memOf
  [(3, 8, 0x103080), (3, 9, 0x103098), (3, 10, 0x1030B0),
    (3, 16, 0x4000), (3, 17, 0x1000), (3, 18, 0), (3, 19, 0), (3, 20, 0x2000), (3, 21, 0),
    (3, 22, 0x2000), (3, 23, 0x2000), (3, 24, 5)]

/-- The pointers. -/
def threePointers : Memmap := ⟨0x103040, 3⟩

/-- `mm::init` seeds frame 1, and leaves the map as it is. -/
theorem lowUsable_run : ∃ s, (init lowUsable 0x100000).run lowUsableMem = .ok s s.mem ∧
    s.pmm.totalFrames = 5 ∧ s.pmm.hhdmOffset = 0x100000 ∧ s.mem 3 = lowUsableMem 3 := by
  simp only [init, lowUsable, seedEntries, seedEntry, seedPiece]
  unfold addRange
  unfold addRange
  exact ⟨_, rfl, rfl, rfl, rfl⟩

section

local instance limineLaidOut : Limine := Limine.documented

/-- A state with that memory. -/
def lowUsablePhys : Phys := ⟨⟨[], [], 5, 0, 0x100000⟩, lowUsableMem⟩

/-- What the words of the map say, and where they are. -/
theorem lowUsable_entries : (∀ k < 3, ∀ p ∈ threePointers.words lowUsablePhys k,
      0x100000 ≤ p ∧ 8 ∣ p - 0x100000 ∧ ptrFrame 0x100000 p = 3 ∧ 2 ≤ ptrIndex 0x100000 p) ∧
    (List.range 3).map (threePointers.entryAt lowUsablePhys) =
      [⟨0x4000, 0x1000, .other 0⟩, ⟨0, 0x2000, .other 0⟩,
        ⟨0x2000, 0x2000, .bootloaderReclaimable⟩] := by
  decide

variable {s : Phys}

theorem lowUsable_entryAt (hhdm : s.pmm.hhdmOffset = 0x100000) (hmem : s.mem 3 = lowUsableMem 3)
    {k : ℕ} (hk : k < 3) : threePointers.words s k = threePointers.words lowUsablePhys k ∧
      threePointers.entryAt s k = threePointers.entryAt lowUsablePhys k := by
  refine Memmap.entryAt_congr hhdm ?_
  intro p hp
  have hframe : ptrFrame lowUsablePhys.pmm.hhdmOffset p = 3 := (lowUsable_entries.1 k hk p hp).2.2.1
  rw [hframe]
  exact hmem

/-- The entries that the loop finds: only the last one counts. -/
theorem lowUsable_cases (hhdm : s.pmm.hhdmOffset = 0x100000) (hmem : s.mem 3 = lowUsableMem 3)
    {k : ℕ} (hk : k < 3) :
    k = 2 ∧ threePointers.entryAt s k = ⟨0x2000, 0x2000, .bootloaderReclaimable⟩ ∨
      k ≠ 2 ∧ (threePointers.entryAt s k).reclaimed = ∅ := by
  have hplain : ∀ k < 3, k = 2 ∧ threePointers.entryAt lowUsablePhys k =
      ⟨0x2000, 0x2000, .bootloaderReclaimable⟩ ∨
      k ≠ 2 ∧ (threePointers.entryAt lowUsablePhys k).kind ≠ .bootloaderReclaimable := by
    decide
  rw [(lowUsable_entryAt hhdm hmem hk).2]
  rcases hplain k hk with h | ⟨hne, hkind⟩
  · exact Or.inl h
  · exact Or.inr ⟨hne, Entry.reclaimed_of_kind_ne hkind⟩

theorem lowUsable_shows (hhdm : s.pmm.hhdmOffset = 0x100000) (hmem : s.mem 3 = lowUsableMem 3) :
    threePointers.Shows s lowUsable := by
  have hplain : ∀ k < 3, ∀ e ∈ lowUsable[k]?,
      (threePointers.entryAt lowUsablePhys k).base = e.base ∧
      (threePointers.entryAt lowUsablePhys k).length = e.length ∧
      ((threePointers.entryAt lowUsablePhys k).kind = .bootloaderReclaimable ↔
        e.kind = .bootloaderReclaimable) := by
    decide
  have hall : ∀ k e, lowUsable[k]? = some e →
      (threePointers.entryAt s k).base = e.base ∧
      (threePointers.entryAt s k).length = e.length ∧
      ((threePointers.entryAt s k).kind = .bootloaderReclaimable ↔
        e.kind = .bootloaderReclaimable) := by
    intro k e he
    have hk : k < 3 := (List.getElem?_eq_some_iff.1 he).1
    rw [(lowUsable_entryAt hhdm hmem hk).2]
    exact hplain k hk e he
  refine ⟨rfl, ?_, ?_, ?_⟩
  · exact fun k e he => (hall k e he).1
  · exact fun k e he => (hall k e he).2.1
  · exact fun k e he => (hall k e he).2.2

theorem lowUsable_valid (htotal : s.pmm.totalFrames = 5) (hhdm : s.pmm.hhdmOffset = 0x100000)
    (hmem : s.mem 3 = lowUsableMem 3) (hfree : ∀ g ∈ freeSet s, ¬ (2 ≤ g ∧ g < 4)) :
    threePointers.Valid s := by
  have hlast : threePointers.entryAt s 2 = ⟨0x2000, 0x2000, .bootloaderReclaimable⟩ := by
    rcases lowUsable_cases hhdm hmem (by decide : 2 < 3) with ⟨-, h⟩ | ⟨hne, -⟩
    · exact h
    · exact absurd rfl hne
  refine ⟨?_, ?_, ?_, ?_⟩
  · intro k hk _
    have hplain : ∀ k < 3, (threePointers.entryAt lowUsablePhys k).base +
        (threePointers.entryAt lowUsablePhys k).length ≤ 5 * frameSize := by
      decide
    rw [(lowUsable_entryAt hhdm hmem hk).2, htotal]
    exact hplain k hk
  · intro i hi j hj hne
    rcases lowUsable_cases hhdm hmem hi with ⟨rfl, -⟩ | ⟨-, hempty⟩
    · rcases lowUsable_cases hhdm hmem hj with ⟨rfl, -⟩ | ⟨-, hempty⟩
      · exact absurd rfl hne
      · rw [hempty]
        exact Set.disjoint_empty _
    · rw [hempty]
      exact Set.empty_disjoint _
  · intro k hk
    rcases lowUsable_cases hhdm hmem hk with ⟨-, h⟩ | ⟨-, hempty⟩
    · rw [h, Set.disjoint_left]
      rintro g ⟨-, hlo, hhi⟩ hg
      exact hfree g hg ⟨hlo, hhi⟩
    · rw [hempty]
      exact Set.empty_disjoint _
  · intro k hk p hp
    rw [(lowUsable_entryAt hhdm hmem hk).1] at hp
    rcases lowUsable_entries.1 k hk p hp with ⟨hle, hal, hframe, -⟩
    rw [hhdm, hframe, Memmap.reclaimFrames_entries]
    refine ⟨hle, hal, 2, by decide, ?_⟩
    rw [hlast]
    exact ⟨rfl, by decide, by decide⟩

theorem lowUsable_undisturbed (hhdm : s.pmm.hhdmOffset = 0x100000)
    (hmem : s.mem 3 = lowUsableMem 3) : threePointers.Undisturbed s := by
  -- no word of the map is one of the first two of its frame
  have hwords : ∀ k < 3, ∀ p ∈ threePointers.words s k, ¬ threePointers.Overwritten s k p := by
    intro k hk p hp hover
    have hindex := hover.2
    rw [(lowUsable_entryAt hhdm hmem hk).1] at hp
    rw [hhdm] at hindex
    exact Nat.not_lt.2 (lowUsable_entries.1 k hk p hp).2.2.2 hindex
  refine ⟨?_, ?_, ?_, ?_⟩
  · exact fun k hk => hwords k hk _ (by simp [Memmap.words])
  · exact fun k hk _ => hwords k hk _ (by simp [Memmap.words])
  · exact fun k hk _ => hwords k hk _ (by simp [Memmap.words])
  · exact fun k hk _ => hwords k hk _ (by simp [Memmap.words])

/-- Frame 0 is usable, and the frames 2 and 3 are reclaimed: in no run frame 0 is handed out. -/
theorem frame_zero_withheld_reclaimed : ∃ m s m', (init lowUsable 0x100000).run m = .ok s m' ∧
    threePointers.Shows s lowUsable ∧
    (∃ b, RunFrom threePointers threePointers.Undisturbed s b ∧ b.reclaimed = true ∧
      2 ∈ freeSet b.phys ∧ 3 ∈ freeSet b.phys) ∧
    ZeroWithheld threePointers threePointers.Undisturbed s := by
  rcases lowUsable_run with ⟨s, hinit, htotal, hhdm, hmem⟩
  rcases init_ok hinit with ⟨-, hI, -, orderFirst, orderLast, hseeds⟩
  have hfree : ∀ g ∈ freeSet s, ¬ (2 ≤ g ∧ g < 4) := by
    have husable : ∀ e ∈ lowUsable, e.kind = .usable →
        4 ≤ e.base / 2 ^ frameShift ∨ (e.base + e.length) / 2 ^ frameShift ≤ 2 := by
      decide
    rw [hseeds]
    rintro g ⟨-, -, e, he, hkind, hlo, hhi⟩ hg
    have hends := husable e he hkind
    omega
  have hmap := lowUsable_shows hhdm hmem
  have hv := lowUsable_valid htotal hhdm hmem hfree
  have hu := lowUsable_undisturbed hhdm hmem
  have hdirect : DirectMap s := by
    refine ⟨?_, ?_⟩
    · rw [hhdm]
      decide
    · rw [hhdm, htotal]
      decide
  have hhigh : HigherHalf s := by
    unfold HigherHalf
    rw [hhdm, htotal]
    decide
  rcases Memmap.reclaimBootloader_grew hv hu hI hdirect hhigh with ⟨r, t, hrun, hG, -⟩
  have hadded : ∀ g, 2 ≤ g → g < 4 → g ∈ freeSet t := by
    intro g hlo hhi
    rw [hG.free_eq, hmap.reclaimFrames_eq]
    exact Or.inr ⟨⟨0x2000, 0x2000, .bootloaderReclaimable⟩, by decide, rfl, hlo, hhi⟩
  refine ⟨_, s, _, hinit, hmap, ⟨⟨t, [], true⟩, ?_, rfl, ?_, ?_⟩, ?_⟩
  · exact Relation.ReflTransGen.single (Step.reclaim rfl hu hrun)
  · exact hadded 2 (by decide) (by decide)
  · exact hadded 3 (by decide) (by decide)
  · exact (frame_zero_withheld_iff hinit hmap hv hdirect hhigh).1 (by decide)

/-- Three frames; the bootloader's memory starts at physical address 0. -/
def lowMap : List Entry := [⟨0, 0x1000, .bootloaderReclaimable⟩, ⟨0x1000, 0x2000, .usable⟩]

/-- That map in frame 0, behind its pointers. -/
def lowMapMem : Mem := memOf
  [(0, 8, 0x100080), (0, 9, 0x100098), (0, 16, 0), (0, 17, 0x1000), (0, 18, 5),
    (0, 19, 0x1000), (0, 20, 0x2000), (0, 21, 0)]

theorem lowMap_run : ∃ s, (init lowMap 0x100000).run lowMapMem = .ok s s.mem ∧
    ∃ r t, (Memmap.reclaimBootloader ⟨0x100040, 2⟩).run s = .ok r t ∧
    ∃ u, (allocPages 0).run t = .ok (some 0) u := by
  simp only [init, lowMap, seedEntries, seedEntry, seedPiece, Memmap.reclaimBootloader,
    Memmap.reclaimEntries, Memmap.reclaimEntry]
  unfold addRange
  unfold addRange
  exact ⟨_, rfl, _, _, rfl, _, rfl⟩

/-- On that map, the first allocation after `reclaim_bootloader` returns frame 0. -/
theorem frame_zero_handed_out : ∃ s b s', (init lowMap 0x100000).run lowMapMem = .ok s s.mem ∧
    RunFrom ⟨0x100040, 2⟩ (fun _ => True) s b ∧ (allocPages 0).run b.phys = .ok (some 0) s' := by
  rcases lowMap_run with ⟨s, hinit, r, t, hreclaim, u, halloc⟩
  exact ⟨s, ⟨t, [], true⟩, u, hinit,
    Relation.ReflTransGen.single (Step.reclaim rfl trivial hreclaim), halloc⟩

/-- The frames 2, 3 and 4 are to be reclaimed, and 5 takes the order bytes. -/
def midMap : List Entry :=
  [⟨0x2000, 0x2000, .bootloaderReclaimable⟩, ⟨0x4000, 0x1000, .bootloaderReclaimable⟩,
    ⟨0x5000, 0x1000, .usable⟩]

/-- That map in frame 4, but for the second entry, whose base is the second word of frame 2. -/
def midMapMem : Mem := memOf
  [(4, 8, 0x104080), (4, 9, 0x102008), (4, 10, 0x104098),
    (4, 16, 0x2000), (4, 17, 0x2000), (4, 18, 5), (2, 1, 0x4000), (2, 2, 0x1000), (2, 3, 5),
    (4, 19, 0x5000), (4, 20, 0x1000), (4, 21, 0)]

theorem midMap_run : ∃ s, (init midMap 0x100000).run midMapMem = .ok s s.mem ∧
    ∃ r t, (Memmap.reclaimBootloader ⟨0x104040, 3⟩).run s = .ok r t ∧
    ∃ u, (allocPages 0).run t = .ok (some 0) u := by
  simp only [init, midMap, seedEntries, seedEntry, seedPiece, Memmap.reclaimBootloader,
    Memmap.reclaimEntries, Memmap.reclaimEntry]
  unfold addRange
  unfold addRange
  exact ⟨_, rfl, _, _, rfl, _, rfl⟩

/-- No entry has frame 0. But when the first one was reclaimed, the base of the second is a null
link, and frame 0 is added in place of frame 4. -/
theorem frame_zero_from_link : ReclaimSparesZero midMap ∧
    ∃ s b s', (init midMap 0x100000).run midMapMem = .ok s s.mem ∧
      RunFrom ⟨0x104040, 3⟩ (fun _ => True) s b ∧ (allocPages 0).run b.phys = .ok (some 0) s' := by
  rcases midMap_run with ⟨s, hinit, r, t, hreclaim, u, halloc⟩
  exact ⟨by decide, s, ⟨t, [], true⟩, u, hinit,
    Relation.ReflTransGen.single (Step.reclaim rfl trivial hreclaim), halloc⟩

end

end Prometheos.Boot
