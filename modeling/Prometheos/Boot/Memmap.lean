import Prometheos.Boot.Init
import Prometheos.Pmm.Links

/-!
# The memory map in memory (`pmm::reclaim_bootloader`)

The memory map that `reclaim_bootloader` walks is an array of pointers to entries, and the
bootloader keeps both in memory that the call gives away. `add_range` puts the links of its
lists into the first 16 bytes of the frames it frees, so the loop may read a word that it has
overwritten itself.

So the loop of the model reads the entries from memory, one after the other
(`Memmap.reclaimBootloader`). A word is `Overwritten` when the loop comes to entry `k` if it is
one of the first two words of a frame that started a free block at some moment before. For one
entry, this module says what the loop does with what it finds (`Memmap.reclaimEntry_grew`) and
what it can find in the place of a word that was overwritten (`Memmap.kind_ne_of_link`): a link is
neither the type nor a possible length of an entry to reclaim.
-/

namespace Prometheos

/-! ## Entries -/

/-- `entry.base >> FRAME_SHIFT`. -/
def Entry.first (e : Entry) : ℕ := e.base / 2 ^ Pmm.frameShift

/-- `entry.length >> FRAME_SHIFT`. -/
def Entry.count (e : Entry) : ℕ := e.length / 2 ^ Pmm.frameShift

/-- The frames that `reclaim_bootloader` adds for an entry. -/
def Entry.reclaimed (e : Entry) : Set ℕ :=
  {g | e.kind = .bootloaderReclaimable ∧ e.first ≤ g ∧ g < e.first + e.count}

/-- The blocks that `reclaim_bootloader` passes to `free_pages` for an entry. -/
def Entry.blocks (e : Entry) : List (ℕ × ℕ) :=
  if e.kind = .bootloaderReclaimable then Pmm.rangeBlocks e.first e.count else []

/-- The entry adds nothing, or it ends within memory. -/
def Entry.FitsIn (e : Entry) (totalFrames : ℕ) : Prop :=
  e.reclaimed = ∅ ∨ e.first + e.count ≤ totalFrames

/-- What `reclaim_bootloader` counts for an entry. -/
def Entry.added (e : Entry) : ℕ := if e.kind = .bootloaderReclaimable then e.count else 0

namespace Boot

open Pmm Dyadic

/-! ## The loop on memory -/

/-- The frames of the entries that `reclaim_bootloader` adds. -/
def reclaimFrames (memmap : List Entry) : Set ℕ :=
  {g | ∃ e ∈ memmap, e.kind = .bootloaderReclaimable ∧
    e.base / 2 ^ frameShift ≤ g ∧ g < e.base / 2 ^ frameShift + e.length / 2 ^ frameShift}

/-- What the kernel uses of the `limine` crate's memory map: the offsets of the fields of an
`Entry`, the first two of which take the place of the links of a `FreeBlock`, and the type of
the entries to reclaim. -/
class Limine where
  entryBase : ℕ
  entryLength : ℕ
  entryType : ℕ
  memmapBootloaderReclaimable : ℕ
  first_words : entryBase < 16 ∧ entryLength < 16
  type_in_frame : entryType < frameSize
  type_small : 0 < memmapBootloaderReclaimable ∧ memmapBootloaderReclaimable < frameSize

/-- As the Limine protocol documents it: `base`, `length` and `type`, and the type 5. -/
@[reducible] def Limine.documented : Limine :=
  ⟨0, 8, 16, 5, by decide, by decide, by decide⟩

/-- `memmap: &[&Entry]`: where the pointers are, and how many. -/
structure Memmap where
  ptr : ℕ
  len : ℕ

/-- Read a `u64`. -/
def loadU64 (p : ℕ) : Run Phys ℕ := do
  let hhdm ← Prog.gets (·.pmm.hhdmOffset)
  let w ← onMem (load hhdm p)
  pure w.toNat

namespace Memmap

variable [Limine]

/-- The body of the loop of `reclaim_bootloader`, with the iterator at `ptr`. -/
def reclaimEntry (ptr reclaimed : ℕ) : Run Phys ℕ := do
  let entry ← loadU64 ptr
  let type ← loadU64 (entry + Limine.entryType)
  if type ≠ Limine.memmapBootloaderReclaimable then pure reclaimed
  else do
    let base ← loadU64 (entry + Limine.entryBase)
    let first := base / 2 ^ frameShift
    let length ← loadU64 (entry + Limine.entryLength)
    let count := length / 2 ^ frameShift
    addRange first count
    addU64 reclaimed count

/-- The loop of `reclaim_bootloader`, with `n` entries left. -/
def reclaimEntries : ℕ → ℕ → ℕ → Run Phys ℕ
  | _, 0, reclaimed => pure reclaimed
  | ptr, n + 1, reclaimed => do
      let reclaimed' ← reclaimEntry ptr reclaimed
      reclaimEntries (ptr + 8) n reclaimed'

/-- `pmm::reclaim_bootloader`; the result is what it prints, the number of frames and
their size in KiB. -/
def reclaimBootloader (memmap : Memmap) : Run Phys (ℕ × ℕ) := do
  let reclaimed ← reclaimEntries memmap.ptr memmap.len 0
  let bytes ← mulU64 reclaimed frameSize
  pure (reclaimed, bytes / 1024)

/-! ## The map as it stands in memory -/

/-- The word that a pointer points to. -/
def wordAt (s : Phys) (p : ℕ) : ℕ :=
  (s.mem (ptrFrame s.pmm.hhdmOffset p) (ptrIndex s.pmm.hhdmOffset p)).toNat

/-- The entry that the pointer at `ptr` leads to. -/
def entryOf (s : Phys) (ptr : ℕ) : Entry where
  base := wordAt s (wordAt s ptr + Limine.entryBase)
  length := wordAt s (wordAt s ptr + Limine.entryLength)
  kind :=
    if wordAt s (wordAt s ptr + Limine.entryType) = Limine.memmapBootloaderReclaimable
    then .bootloaderReclaimable else .other (wordAt s (wordAt s ptr + Limine.entryType))

/-- Where the pointer to entry `k` is. -/
def slot (memmap : Memmap) (k : ℕ) : ℕ := memmap.ptr + 8 * k

/-- Entry `k` of the map. -/
def entryAt (memmap : Memmap) (s : Phys) (k : ℕ) : Entry := entryOf s (memmap.slot k)

/-- The entries of the map. -/
def entries (memmap : Memmap) (s : Phys) : List Entry :=
  (List.range memmap.len).map (memmap.entryAt s)

/-- Where the words of entry `k` are: its pointer and its three fields. -/
def words (memmap : Memmap) (s : Phys) (k : ℕ) : List ℕ :=
  [memmap.slot k, wordAt s (memmap.slot k) + Limine.entryType,
    wordAt s (memmap.slot k) + Limine.entryBase, wordAt s (memmap.slot k) + Limine.entryLength]

/-- A memory map in memory: the reclaimable entries are in range, do not overlap and are not
free, and the map lies in them. -/
structure Valid (memmap : Memmap) (s : Phys) : Prop where
  in_range : ∀ k < memmap.len, (memmap.entryAt s k).kind = .bootloaderReclaimable →
    (memmap.entryAt s k).base + (memmap.entryAt s k).length ≤ s.pmm.totalFrames * frameSize
  apart : ∀ i < memmap.len, ∀ j < memmap.len, i ≠ j →
    Disjoint (memmap.entryAt s i).reclaimed (memmap.entryAt s j).reclaimed
  unused : ∀ k < memmap.len, Disjoint (memmap.entryAt s k).reclaimed (freeSet s)
  placed : ∀ k < memmap.len, ∀ p ∈ memmap.words s k, s.pmm.hhdmOffset ≤ p ∧
    8 ∣ p - s.pmm.hhdmOffset ∧
    ptrFrame s.pmm.hhdmOffset p ∈ reclaimFrames (memmap.entries s)

/-- `reclaim_bootloader` returns, has added the frames of the reclaimable entries to the free
set, and reports their number. -/
def Exact (memmap : Memmap) (s : Phys) : Prop :=
  ∃ r s', memmap.reclaimBootloader.run s = .ok r s' ∧
    r.1 = (reclaimFrames (memmap.entries s)).ncard ∧
    freeSet s' = freeSet s ∪ reclaimFrames (memmap.entries s)

/-- The blocks that are freed before the loop comes to entry `k`. -/
def blocksBefore (memmap : Memmap) (s : Phys) (k : ℕ) : List (ℕ × ℕ) :=
  (List.range k).flatMap fun i => (memmap.entryAt s i).blocks

/-- When the loop comes to entry `k`, the word at `p` has been overwritten with a link: it is
one of the first two words of a frame that has started a free block. -/
def Overwritten (memmap : Memmap) (s : Phys) (k p : ℕ) : Prop :=
  ptrFrame s.pmm.hhdmOffset p ∈ Touched (freeSet s) (memmap.blocksBefore s k) ∧
    ptrIndex s.pmm.hhdmOffset p < 2

/-- No pointer of the map, and no word that counts of a reclaimable entry, has been overwritten
when its turn comes. -/
structure Undisturbed (memmap : Memmap) (s : Phys) : Prop where
  pointer : ∀ k < memmap.len, ¬ memmap.Overwritten s k (memmap.slot k)
  length : ∀ k < memmap.len, (memmap.entryAt s k).kind = .bootloaderReclaimable →
    ¬ memmap.Overwritten s k (wordAt s (memmap.slot k) + Limine.entryLength)
  type : ∀ k < memmap.len, (memmap.entryAt s k).reclaimed.Nonempty →
    ¬ memmap.Overwritten s k (wordAt s (memmap.slot k) + Limine.entryType)
  base : ∀ k < memmap.len, (memmap.entryAt s k).reclaimed.Nonempty →
    ¬ memmap.Overwritten s k (wordAt s (memmap.slot k) + Limine.entryBase)

end Memmap

/-- The direct map begins above physical memory. -/
def HigherHalf (s : Phys) : Prop := (s.pmm.totalFrames + 1) * frameSize ≤ s.pmm.hhdmOffset

end Boot

/-! ## Frames and blocks of an entry -/

section

open Pmm Dyadic

variable {e e' : Entry}

theorem Entry.reclaimed_of_kind (h : e.kind = .bootloaderReclaimable) :
    e.reclaimed = Set.Ico e.first (e.first + e.count) := by
  ext g
  exact ⟨fun hg => hg.2, fun hg => ⟨h, hg⟩⟩

theorem Entry.reclaimed_of_kind_ne (h : e.kind ≠ .bootloaderReclaimable) : e.reclaimed = ∅ := by
  rw [Set.eq_empty_iff_forall_notMem]
  exact fun g hg => h hg.1

theorem Entry.reclaimed_of_count (h : e.count = 0) : e.reclaimed = ∅ := by
  rw [Set.eq_empty_iff_forall_notMem]
  rintro g ⟨-, h₁, h₂⟩
  omega

/-- An entry that adds nothing is skipped, or its range is empty. -/
theorem Entry.blocks_of_empty (h : e.reclaimed = ∅) : e.blocks = [] ∧ e.added = 0 := by
  by_cases hk : e.kind = .bootloaderReclaimable
  · have hz : e.count = 0 := by
      by_contra hne
      have hmem : e.first ∈ e.reclaimed := ⟨hk, le_refl _, by omega⟩
      rw [h] at hmem
      exact hmem
    unfold Entry.blocks Entry.added
    rw [if_pos hk, if_pos hk, hz]
    unfold rangeBlocks
    exact ⟨dif_pos rfl, rfl⟩
  · unfold Entry.blocks Entry.added
    rw [if_neg hk, if_neg hk]
    exact ⟨rfl, rfl⟩

/-- The frames determine the blocks. -/
theorem Entry.blocks_eq (h : e.reclaimed = e'.reclaimed) :
    e.blocks = e'.blocks ∧ e.added = e'.added := by
  rcases Set.eq_empty_or_nonempty e.reclaimed with hempty | ⟨g, hg⟩
  · have hempty' : e'.reclaimed = ∅ := h ▸ hempty
    rcases Entry.blocks_of_empty hempty with ⟨h₁, h₂⟩
    rcases Entry.blocks_of_empty hempty' with ⟨h₁', h₂'⟩
    rw [h₁, h₂, h₁', h₂']
    exact ⟨rfl, rfl⟩
  · have hg' : g ∈ e'.reclaimed := h ▸ hg
    have hk := hg.1
    have hk' := hg'.1
    rw [Entry.reclaimed_of_kind hk, Entry.reclaimed_of_kind hk'] at h
    have h₁ : e.first < e.first + e.count := Nat.lt_of_le_of_lt hg.2.1 hg.2.2
    have hbounds := (Set.Ico_eq_Ico_iff (Or.inl h₁)).1 h
    have hfirst : e.first = e'.first := hbounds.1
    have hcount : e.count = e'.count := by omega
    unfold Entry.blocks Entry.added
    rw [if_pos hk, if_pos hk', if_pos hk, if_pos hk', hfirst, hcount]
    exact ⟨rfl, rfl⟩

theorem Entry.ncard_reclaimed (e : Entry) :
    e.reclaimed.Finite ∧ e.reclaimed.ncard = e.added := by
  unfold Entry.added
  by_cases hk : e.kind = .bootloaderReclaimable
  · rw [if_pos hk, Entry.reclaimed_of_kind hk, ← Finset.coe_Ico, Set.ncard_coe_finset,
      Nat.card_Ico, Nat.add_sub_cancel_left]
    exact ⟨Finset.finite_toSet _, rfl⟩
  · rw [if_neg hk, Entry.reclaimed_of_kind_ne hk, Set.ncard_empty]
    exact ⟨Set.finite_empty, rfl⟩

/-- Freeing the blocks of an entry adds its frames. -/
theorem Entry.blocks_adds (hlt : e.count < 2 ^ 64) :
    Adds (e.blocks.forM freeBlock) e.reclaimed := by
  by_cases hk : e.kind = .bootloaderReclaimable
  · unfold Entry.blocks
    rw [if_pos hk, Entry.reclaimed_of_kind hk, ← allFrames_rangeBlocks _ _ hlt]
    refine adds_forM (fun b hb => ?_) (rangeBlocks_pairwise _ _ hlt)
    rcases rangeBlocks_spec _ _ hlt b hb with ⟨ho, hal, -⟩
    exact freeBlock_adds ho hal
  · unfold Entry.blocks
    rw [if_neg hk, Entry.reclaimed_of_kind_ne hk]
    exact adds_pure

end

/-- Each of the sets `C i` is the interval `O i`, or empty, or as long an interval from 0 on.
If no two of them meet, and together they contain all the `O i`, they are the `O i`. -/
theorem eq_of_covers {n : ℕ} {O C : ℕ → Set ℕ}
    (hO : ∀ i < n, ∀ j < n, i ≠ j → Disjoint (O i) (O j))
    (hC : ∀ i < n, ∀ j < n, i ≠ j → Disjoint (C i) (C j))
    (hshape : ∀ i < n, C i = O i ∨ C i = ∅ ∨ ∃ b c, O i = Set.Ico b (b + c) ∧ C i = Set.Ico 0 c)
    (hcovers : ∀ i < n, ∀ g ∈ O i, ∃ j < n, g ∈ C j) : ∀ i < n, C i = O i := by
  -- an interval that was moved to 0 was there before
  have hzero : ∀ i < n, ∀ b c, O i = Set.Ico b (b + c) → C i = Set.Ico 0 c → C i = O i := by
    intro i hi b c hOi hCi
    rcases Nat.eq_zero_or_pos c with rfl | hpos
    · rw [hOi, hCi, Nat.add_zero, Set.Ico_self, Set.Ico_self]
    have hlast : b + c - 1 ∈ O i := by
      rw [hOi]
      exact ⟨by omega, by omega⟩
    rcases hcovers i hi _ hlast with ⟨j, hj, hin⟩
    by_cases hji : j = i
    · rw [hji, hCi] at hin
      have hb : b = 0 := by
        have := hin.2
        omega
      rw [hOi, hCi, hb, Nat.zero_add]
    rcases hshape j hj with hown | hempty | ⟨b', c', -, hCj⟩
    · rw [hown] at hin
      exact absurd hin (Set.disjoint_left.1 (hO i hi j hj (Ne.symm hji)) hlast)
    · rw [hempty] at hin
      exact absurd hin (Set.notMem_empty _)
    · -- two intervals from 0 on would meet
      rw [hCj] at hin
      have h0 : 0 ∈ C j := by
        rw [hCj]
        exact ⟨le_refl 0, Nat.lt_of_le_of_lt (Nat.zero_le _) hin.2⟩
      have h0' : 0 ∈ C i := by
        rw [hCi]
        exact ⟨le_refl 0, hpos⟩
      exact absurd h0' (Set.disjoint_left.1 (hC j hj i hi hji) h0)
  have hcases : ∀ i < n, C i = O i ∨ C i = ∅ := by
    intro i hi
    rcases hshape i hi with hown | hempty | ⟨b, c, hOi, hCi⟩
    · exact Or.inl hown
    · exact Or.inr hempty
    · exact Or.inl (hzero i hi b c hOi hCi)
  intro i hi
  rcases hcases i hi with hown | hempty
  · exact hown
  · -- what the others contain is not in this interval
    rw [hempty, eq_comm, Set.eq_empty_iff_forall_notMem]
    intro g hg
    rcases hcovers i hi g hg with ⟨j, hj, hin⟩
    rcases hcases j hj with hown' | hempty'
    · have hij : i ≠ j := by
        rintro rfl
        rw [hempty] at hin
        exact hin
      rw [hown'] at hin
      exact Set.disjoint_left.1 (hO i hi j hj hij) hg hin
    · rw [hempty'] at hin
      exact hin

namespace Boot

open Pmm Dyadic

/-! ## One entry -/

theorem HigherHalf.total_lt {s : Phys} (h : HigherHalf s) (hdirect : DirectMap s) :
    s.pmm.totalFrames < 2 ^ 52 := by
  have hfits := hdirect.fits
  unfold HigherHalf frameSize at h
  unfold frameSize at hfits
  omega

theorem loadU64_ok_iff {p v : ℕ} {s s' : Phys} :
    (loadU64 p).run s = .ok v s' ↔ s.pmm.hhdmOffset ≤ p ∧ v = Memmap.wordAt s p ∧ s' = s := by
  constructor
  · intro h
    unfold loadU64 at h
    rw [Prog.gets_bind] at h
    rcases Prog.bind_ok_iff.1 h with ⟨w, t, ht, h₁⟩
    rcases Prog.zoom_ok_iff.1 ht with ⟨m, hm, rfl⟩
    rcases Prog.bind_ok_iff.1 hm with ⟨_, m₁, hm₁, hm₂⟩
    rcases Prog.require_ok_iff.1 hm₁ with ⟨hle, rfl⟩
    cases hm₂
    cases h₁
    exact ⟨hle, rfl, rfl⟩
  · rintro ⟨hle, rfl, rfl⟩
    unfold loadU64
    rw [Prog.gets_bind, Prog.bind_of_ok (onMem_of_ok (load_of_le hle _))]
    rfl

namespace Memmap

theorem wordAt_lt (s : Phys) (p : ℕ) : wordAt s p < 2 ^ 64 := BitVec.isLt _

/-- The word at `p` is a link of one of the frames `T`. -/
def IsLink (s : Phys) (T : Set ℕ) (p : ℕ) : Prop :=
  ptrFrame s.pmm.hhdmOffset p ∈ T ∧ ptrIndex s.pmm.hhdmOffset p < 2

theorem wordAt_kept {s t : Phys} {T : Set ℕ} {p : ℕ} (hT : Tracked s T t)
    (hp : ¬ IsLink s T p) : wordAt t p = wordAt s p := by
  unfold wordAt
  rw [hT.hhdm, hT.kept _ _ hp]

/-- A link is null, or a pointer into the direct map. -/
theorem wordAt_link {s t : Phys} {T : Set ℕ} {p : ℕ} (hT : Tracked s T t)
    (hdirect : DirectMap s) (hp : IsLink s T p) :
    wordAt t p = 0 ∨ ∃ f ∈ T, wordAt t p = blockPtr s.pmm.hhdmOffset f := by
  rcases hT.links _ hp.1 _ hp.2 with ⟨node, hnode, hw⟩
  unfold wordAt
  rw [hT.hhdm, hw]
  cases node with
  | none => exact Or.inl rfl
  | some f =>
      have hf := hnode f rfl
      refine Or.inr ⟨f, hf, ?_⟩
      exact Nat.mod_eq_of_lt (hdirect.ptrsOk f (hT.below f hf)).2

variable [Limine]

theorem entryOf_kind_iff (s : Phys) (ptr : ℕ) :
    (entryOf s ptr).kind = .bootloaderReclaimable ↔
      wordAt s (wordAt s ptr + Limine.entryType) = Limine.memmapBootloaderReclaimable := by
  unfold entryOf
  dsimp only
  split_ifs with h
  · exact iff_of_true rfl h
  · exact iff_of_false nofun h

theorem entryOf_first_lt (s : Phys) (ptr : ℕ) : (entryOf s ptr).first < 2 ^ 52 := by
  have := wordAt_lt s (wordAt s ptr + Limine.entryBase)
  change wordAt s _ / 2 ^ 12 < 2 ^ 52
  omega

theorem entryOf_count_lt (s : Phys) (ptr : ℕ) : (entryOf s ptr).count < 2 ^ 52 := by
  have := wordAt_lt s (wordAt s ptr + Limine.entryLength)
  change wordAt s _ / 2 ^ 12 < 2 ^ 52
  omega

/-- What the body of the loop has done where it returns. -/
theorem reclaimEntry_ok {ptr r r' : ℕ} {t t' : Phys}
    (h : (reclaimEntry ptr r).run t = .ok r' t') :
    t.pmm.hhdmOffset ≤ wordAt t ptr + Limine.entryType ∧ r' = r + (entryOf t ptr).added ∧
      ((entryOf t ptr).kind ≠ .bootloaderReclaimable ∧ t' = t ∨
        (entryOf t ptr).kind = .bootloaderReclaimable ∧
          (addRange (entryOf t ptr).first (entryOf t ptr).count).run t = .ok () t') := by
  unfold reclaimEntry at h
  rcases Prog.bind_ok_iff.1 h with ⟨_, t₁, ht₁, h₁⟩
  rcases loadU64_ok_iff.1 ht₁ with ⟨-, rfl, rfl⟩
  rcases Prog.bind_ok_iff.1 h₁ with ⟨_, t₂, ht₂, h₂⟩
  rcases loadU64_ok_iff.1 ht₂ with ⟨htype, rfl, rfl⟩
  refine ⟨htype, ?_⟩
  unfold Entry.added
  split_ifs at h₂ with hk
  · have hkind := mt (entryOf_kind_iff _ ptr).1 hk
    cases h₂
    rw [if_neg hkind]
    exact ⟨rfl, Or.inl ⟨hkind, rfl⟩⟩
  · have hkind := (entryOf_kind_iff _ ptr).2 (not_not.1 hk)
    rcases Prog.bind_ok_iff.1 h₂ with ⟨_, t₃, ht₃, h₃⟩
    rcases loadU64_ok_iff.1 ht₃ with ⟨-, rfl, rfl⟩
    rcases Prog.bind_ok_iff.1 h₃ with ⟨_, t₄, ht₄, h₄⟩
    rcases loadU64_ok_iff.1 ht₄ with ⟨-, rfl, rfl⟩
    rcases Prog.bind_ok_iff.1 h₄ with ⟨_, t₅, ht₅, h₅⟩
    rcases addU64_ok_iff.1 h₅ with ⟨-, rfl, rfl⟩
    rw [if_pos hkind]
    exact ⟨rfl, Or.inr ⟨hkind, ht₅⟩⟩

/-- The body of the loop on an entry whose words can be read. -/
theorem reclaimEntry_run {ptr r : ℕ} {t t' : Phys} (hptr : t.pmm.hhdmOffset ≤ ptr)
    (htype : t.pmm.hhdmOffset ≤ wordAt t ptr + Limine.entryType)
    (hbase : t.pmm.hhdmOffset ≤ wordAt t ptr + Limine.entryBase)
    (hlength : t.pmm.hhdmOffset ≤ wordAt t ptr + Limine.entryLength)
    (hblocks : ((entryOf t ptr).blocks.forM freeBlock).run t = .ok () t')
    (hroom : r + (entryOf t ptr).added < 2 ^ 64) :
    (reclaimEntry ptr r).run t = .ok (r + (entryOf t ptr).added) t' := by
  unfold reclaimEntry
  rw [Prog.bind_of_ok (loadU64_ok_iff.2 ⟨hptr, rfl, rfl⟩),
    Prog.bind_of_ok (loadU64_ok_iff.2 ⟨htype, rfl, rfl⟩)]
  unfold Entry.blocks at hblocks
  unfold Entry.added at hroom ⊢
  by_cases hk : (entryOf t ptr).kind = .bootloaderReclaimable
  · rw [if_pos hk] at hblocks hroom ⊢
    rw [if_neg (not_not_intro ((entryOf_kind_iff t ptr).1 hk)),
      Prog.bind_of_ok (loadU64_ok_iff.2 ⟨hbase, rfl, rfl⟩)]
    dsimp only
    rw [Prog.bind_of_ok (loadU64_ok_iff.2 ⟨hlength, rfl, rfl⟩)]
    have hfirst := entryOf_first_lt t ptr
    have hcount := entryOf_count_lt t ptr
    rw [← addRange_eq_forM _ _ (by omega)] at hblocks
    exact (Prog.bind_of_ok hblocks).trans (addU64_of_lt hroom t')
  · rw [if_neg hk] at hblocks ⊢
    cases hblocks
    rw [if_pos fun h => hk ((entryOf_kind_iff _ ptr).2 h)]
    rfl

/-- Where the body returns, it has freed the blocks of the entry it found: they were in
memory and not free. -/
theorem reclaimEntry_grew {ptr r r' : ℕ} {t t' : Phys} (hI : Inv t)
    (htotal : t.pmm.totalFrames < 2 ^ 52) (h : (reclaimEntry ptr r).run t = .ok r' t') :
    ((entryOf t ptr).blocks.forM freeBlock).run t = .ok () t' ∧
      Grew t t' (entryOf t ptr).reclaimed ∧ Disjoint (entryOf t ptr).reclaimed (freeSet t) ∧
      (entryOf t ptr).FitsIn t.pmm.totalFrames := by
  have hfirst := entryOf_first_lt t ptr
  have hcount := entryOf_count_lt t ptr
  unfold Entry.blocks
  rcases reclaimEntry_ok h with ⟨-, -, ⟨hk, rfl⟩ | ⟨hk, hrun⟩⟩
  · rw [if_neg hk, Entry.reclaimed_of_kind_ne hk]
    exact ⟨rfl, Grew.refl hI, Set.empty_disjoint _, Or.inl (Entry.reclaimed_of_kind_ne hk)⟩
  · rcases addRange_returns _ _ hI htotal hfirst (by omega) hrun with ⟨hend, hdisj, hG⟩
    rw [if_pos hk, Entry.reclaimed_of_kind hk, ← addRange_eq_forM _ _ (by omega)]
    refine ⟨hrun, hG, hdisj, ?_⟩
    rcases hend with hz | hend
    · exact Or.inl (Entry.reclaimed_of_count hz)
    · exact Or.inr hend

/-! ## The entry that the loop finds -/

section

variable {memmap : Memmap} {s t : Phys} {T : Set ℕ} {ptr : ℕ}

/-- A link is not the type of a reclaimable entry. -/
theorem kind_ne_of_link (hT : Tracked s T t) (hdirect : DirectMap s) (hhigh : HigherHalf s)
    (hp : IsLink s T (wordAt t ptr + Limine.entryType)) :
    (entryOf t ptr).kind ≠ .bootloaderReclaimable := by
  rw [Ne, entryOf_kind_iff]
  have hsmall := Limine.type_small
  unfold HigherHalf frameSize at *
  rcases wordAt_link hT hdirect hp with h0 | ⟨f, -, hf⟩
  · omega
  · have := le_blockPtr s.pmm.hhdmOffset f
    omega

/-- With a link for its length, an entry that lies in memory is empty. -/
theorem reclaimed_of_length_link (hT : Tracked s T t) (hdirect : DirectMap s)
    (hhigh : HigherHalf s) (hp : IsLink s T (wordAt t ptr + Limine.entryLength))
    (hend : (entryOf t ptr).FitsIn t.pmm.totalFrames) :
    (entryOf t ptr).reclaimed = ∅ := by
  rcases hend with hempty | hend
  · exact hempty
  · apply Entry.reclaimed_of_count
    have hcount : (entryOf t ptr).count =
        wordAt t (wordAt t ptr + Limine.entryLength) / 4096 := rfl
    rw [hT.total] at hend
    unfold HigherHalf frameSize at hhigh
    rcases wordAt_link hT hdirect hp with h0 | ⟨f, -, hf⟩
    · omega
    · have := le_blockPtr s.pmm.hhdmOffset f
      omega

/-- With a link for its base, an entry that lies in memory is empty or begins at frame 0. -/
theorem reclaimed_of_base_link (hT : Tracked s T t) (hdirect : DirectMap s)
    (hhigh : HigherHalf s) (hp : IsLink s T (wordAt t ptr + Limine.entryBase))
    (hend : (entryOf t ptr).FitsIn t.pmm.totalFrames) :
    (entryOf t ptr).reclaimed = ∅ ∨ (entryOf t ptr).first = 0 := by
  rcases hend with hempty | hend
  · exact Or.inl hempty
  · refine Or.inr ?_
    have hfirst : (entryOf t ptr).first =
        wordAt t (wordAt t ptr + Limine.entryBase) / 4096 := rfl
    rw [hT.total] at hend
    unfold HigherHalf frameSize at hhigh
    rcases wordAt_link hT hdirect hp with h0 | ⟨f, -, hf⟩
    · omega
    · have := le_blockPtr s.pmm.hhdmOffset f
      omega

/-- With a link for its pointer, an entry that can be read and lies in memory is empty: a
block of the allocator is read as an entry, and its links as base and length. -/
theorem reclaimed_of_pointer_link (hT : Tracked s T t) (hdirect : DirectMap s)
    (hhigh : HigherHalf s) (hp : IsLink s T ptr)
    (hread : t.pmm.hhdmOffset ≤ wordAt t ptr + Limine.entryType)
    (hend : (entryOf t ptr).FitsIn t.pmm.totalFrames) :
    (entryOf t ptr).reclaimed = ∅ := by
  have hlength := Limine.first_words.2
  have htype := Limine.type_in_frame
  rcases wordAt_link hT hdirect hp with h0 | ⟨f, hf, hword⟩
  · -- a null pointer is not in the direct map
    rw [hT.hhdm] at hread
    unfold HigherHalf frameSize at hhigh
    unfold frameSize at htype
    omega
  · refine reclaimed_of_length_link hT hdirect hhigh ?_ hend
    rw [hword]
    unfold IsLink ptrFrame ptrIndex blockPtr
    have hoff : f * 4096 + s.pmm.hhdmOffset + Limine.entryLength - s.pmm.hhdmOffset =
        f * 4096 + Limine.entryLength := by omega
    have hframe : (f * 4096 + Limine.entryLength) / 4096 = f := by omega
    rw [hoff, hframe]
    exact ⟨hf, by omega⟩

/-- Whatever the loop finds in place of entry `k`, it adds the frames of the entry, or
nothing, or as many frames from frame 0 on. -/
theorem reclaimed_cases (hT : Tracked s T t) (hdirect : DirectMap s) (hhigh : HigherHalf s)
    {k : ℕ} (hread : t.pmm.hhdmOffset ≤ wordAt t (memmap.slot k) + Limine.entryType)
    (hend : (entryOf t (memmap.slot k)).FitsIn t.pmm.totalFrames) :
    (entryOf t (memmap.slot k)).reclaimed = (memmap.entryAt s k).reclaimed ∨
      (entryOf t (memmap.slot k)).reclaimed = ∅ ∨
      ∃ b c, (memmap.entryAt s k).reclaimed = Set.Ico b (b + c) ∧
        (entryOf t (memmap.slot k)).reclaimed = Set.Ico 0 c := by
  by_cases hptr : IsLink s T (memmap.slot k)
  · exact Or.inr (Or.inl (reclaimed_of_pointer_link hT hdirect hhigh hptr hread hend))
  by_cases htype : IsLink s T (wordAt t (memmap.slot k) + Limine.entryType)
  · exact Or.inr (Or.inl (Entry.reclaimed_of_kind_ne (kind_ne_of_link hT hdirect hhigh htype)))
  by_cases hlength : IsLink s T (wordAt t (memmap.slot k) + Limine.entryLength)
  · exact Or.inr (Or.inl (reclaimed_of_length_link hT hdirect hhigh hlength hend))
  -- pointer, type and length are as they were
  have hptr' := wordAt_kept hT hptr
  have htype' := wordAt_kept hT htype
  have hlength' := wordAt_kept hT hlength
  have hkind : (entryOf t (memmap.slot k)).kind = .bootloaderReclaimable ↔
      (memmap.entryAt s k).kind = .bootloaderReclaimable := by
    unfold entryAt
    rw [entryOf_kind_iff, entryOf_kind_iff, htype', hptr']
  have hcount : (entryOf t (memmap.slot k)).count = (memmap.entryAt s k).count := by
    change wordAt t _ / _ = wordAt s _ / _
    rw [hlength', hptr']
  by_cases hk : (memmap.entryAt s k).kind = .bootloaderReclaimable
  · rw [Entry.reclaimed_of_kind (hkind.2 hk), Entry.reclaimed_of_kind hk, hcount]
    by_cases hbase : IsLink s T (wordAt t (memmap.slot k) + Limine.entryBase)
    · rcases reclaimed_of_base_link hT hdirect hhigh hbase hend with hempty | hzero
      · rw [Entry.reclaimed_of_kind (hkind.2 hk), hcount] at hempty
        exact Or.inr (Or.inl hempty)
      · rw [hzero, Nat.zero_add]
        exact Or.inr (Or.inr ⟨_, _, rfl, rfl⟩)
    · have hfirst : (entryOf t (memmap.slot k)).first = (memmap.entryAt s k).first := by
        change wordAt t _ / _ = wordAt s _ / _
        rw [wordAt_kept hT hbase, hptr']
      rw [hfirst]
      exact Or.inl rfl
  · rw [Entry.reclaimed_of_kind_ne (mt hkind.1 hk)]
    exact Or.inr (Or.inl rfl)

end

end Memmap

end Boot

end Prometheos
