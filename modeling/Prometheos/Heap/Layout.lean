import Prometheos.Heap.Model
import Prometheos.Pmm.Ownership

/-!
# Size classes and the layout of a slab

Bucket `b` has objects of `objSize b` bytes. Object `j` of the slab in frame `f` lies
`j * objSize b` bytes into the frame, for `1 ≤ j < slots b`; the header takes the place
of object 0. A request that `bucket_for` puts into bucket `b` fits into an object of it
and is aligned by it, and a large request fits its block of frames.
-/

namespace Prometheos.Heap

open Pmm

/-! ## Powers of two -/

theorem trailingZeros_two_pow {k : ℕ} (hk : k < 64) : trailingZeros (2 ^ k) = k := by
  unfold trailingZeros
  have hfind : (List.range 64).find? (2 ^ k).testBit = some k := by
    rw [List.find?_range_eq_some]
    refine ⟨Nat.testBit_two_pow_self, List.mem_range.2 hk, ?_⟩
    intro j hj
    rw [Nat.testBit_two_pow_of_ne (by omega)]
    rfl
  rw [hfind, Option.getD_some]

/-- Rounding up to a power of two: the exponent, and the bound. -/
theorem nextPowerOfTwo_spec (n : ℕ) : ∃ k, nextPowerOfTwo n = 2 ^ k ∧ n ≤ 2 ^ k ∧
    ∀ l, n ≤ 2 ^ l → k ≤ l := by
  unfold nextPowerOfTwo
  by_cases hn : n ≤ 1
  · rw [if_pos hn]
    exact ⟨0, rfl, hn, fun l _ => Nat.zero_le l⟩
  · rw [if_neg hn]
    refine ⟨Nat.log2 (n - 1) + 1, rfl, ?_, ?_⟩
    · have hlt : n - 1 < 2 ^ (Nat.log2 (n - 1) + 1) := Nat.lt_log2_self
      omega
    · intro l hl
      have hne : n - 1 ≠ 0 := by omega
      have hlt : n - 1 < 2 ^ l := by omega
      exact (Nat.log2_lt hne).2 hlt

/-! ## Slabs -/

/-- The size of the objects of a bucket. -/
def objSize (b : ℕ) : ℕ := 2 ^ (minBucketShift + b)

/-- The number of places of a slab, that of the header included. -/
def slots (b : ℕ) : ℕ := 2 ^ (8 - b)

/-- Object `j` of the slab in frame `f`. -/
def objPtr (hhdm b f j : ℕ) : ℕ := blockPtr hhdm f + j * objSize b

theorem objSizes_getElem? {b : ℕ} (hb : b < numBuckets) : objSizes[b]? = some (objSize b) := by
  unfold objSizes
  rw [List.getElem?_map, List.getElem?_range hb]
  rfl

theorem slots_mul_objSize {b : ℕ} (hb : b < numBuckets) : slots b * objSize b = 4096 := by
  have hb' : b < 7 := hb
  unfold slots objSize minBucketShift
  rw [← pow_add, show 8 - b + (4 + b) = 12 by omega]
  norm_num

theorem two_le_slots {b : ℕ} (hb : b < numBuckets) : 2 ≤ slots b := by
  have hb' : b < 7 := hb
  unfold slots
  calc 2 = 2 ^ 1 := rfl
    _ ≤ 2 ^ (8 - b) := Nat.pow_le_pow_right (by omega) (by omega)

theorem sixteen_dvd_objSize (b : ℕ) : 16 ∣ objSize b := by
  unfold objSize minBucketShift
  exact pow_dvd_pow 2 (Nat.le_add_right 4 b)

theorem objSize_pos (b : ℕ) : 0 < objSize b := Nat.two_pow_pos _

/-- The number of objects `refill` puts into a slab. -/
def objsPerSlab (b : ℕ) : ℕ := (frameSize - nextMultipleOf headerSize (objSize b)) / objSize b

/-- The header takes the place of one object. -/
theorem nextMultipleOf_header (b : ℕ) : nextMultipleOf headerSize (objSize b) = objSize b := by
  have h16 : 16 ≤ objSize b := Nat.le_of_dvd (objSize_pos b) (sixteen_dvd_objSize b)
  have hone : (16 + objSize b - 1) / objSize b = 1 :=
    Nat.div_eq_of_lt_le (by omega) (by omega)
  unfold nextMultipleOf headerSize
  rw [hone, Nat.one_mul]

theorem objsPerSlab_eq {b : ℕ} (hb : b < numBuckets) : objsPerSlab b = slots b - 1 := by
  have hsub : frameSize - objSize b = (slots b - 1) * objSize b := by
    rw [Nat.sub_mul, slots_mul_objSize hb, Nat.one_mul]
    rfl
  unfold objsPerSlab
  rw [nextMultipleOf_header, hsub, Nat.mul_div_cancel _ (objSize_pos b)]

/-- Objects start on a word, behind the header, and inside the frame. -/
theorem obj_bounds {b j : ℕ} (hb : b < numBuckets) (hj : j < slots b) :
    (j + 1) * objSize b ≤ 4096 := by
  rw [← slots_mul_objSize hb]
  exact Nat.mul_le_mul_right _ hj

theorem objPtr_sub (hhdm b f j : ℕ) : objPtr hhdm b f j - hhdm = f * 4096 + j * objSize b := by
  unfold objPtr blockPtr
  omega

theorem ptrFrame_objPtr {hhdm b f j : ℕ} (hb : b < numBuckets) (hj : j < slots b) :
    ptrFrame hhdm (objPtr hhdm b f j) = f := by
  have hbound := obj_bounds hb hj
  have hpos := objSize_pos b
  rw [Nat.add_mul] at hbound
  unfold ptrFrame
  rw [objPtr_sub]
  omega

theorem ptrIndex_objPtr {hhdm b f j : ℕ} (hb : b < numBuckets) (hj : j < slots b) :
    ptrIndex hhdm (objPtr hhdm b f j) = j * objSize b / 8 := by
  have hbound := obj_bounds hb hj
  have hpos := objSize_pos b
  rw [Nat.add_mul] at hbound
  unfold ptrIndex
  rw [objPtr_sub]
  omega

/-- Different objects have their links in different words, and none in the header. -/
theorem objWord_inj {b j j' : ℕ} (h : j * objSize b / 8 = j' * objSize b / 8) : j = j' := by
  rcases sixteen_dvd_objSize b with ⟨q, hq⟩
  have hpos := objSize_pos b
  have h₁ : j * objSize b / 8 = j * (2 * q) := by
    rw [hq, show j * (16 * q) = j * (2 * q) * 8 by ring, Nat.mul_div_cancel _ (by omega)]
  have h₂ : j' * objSize b / 8 = j' * (2 * q) := by
    rw [hq, show j' * (16 * q) = j' * (2 * q) * 8 by ring, Nat.mul_div_cancel _ (by omega)]
  rw [h₁, h₂] at h
  exact Nat.eq_of_mul_eq_mul_right (by omega) h

theorem two_le_objWord {b j : ℕ} (hj : 1 ≤ j) : 2 ≤ j * objSize b / 8 := by
  have hle : objSize b ≤ j * objSize b := Nat.le_mul_of_pos_left _ hj
  have h16 : 16 ≤ objSize b := Nat.le_of_dvd (objSize_pos b) (sixteen_dvd_objSize b)
  omega

theorem objPtr_inj {hhdm b f f' j j' : ℕ} (hb : b < numBuckets) (hj : j < slots b)
    (hj' : j' < slots b) (h : objPtr hhdm b f j = objPtr hhdm b f' j') : f = f' ∧ j = j' := by
  have hf : f = f' := by
    rw [← @ptrFrame_objPtr hhdm b f j hb hj, h, ptrFrame_objPtr hb hj']
  subst hf
  refine ⟨rfl, ?_⟩
  unfold objPtr at h
  exact Nat.eq_of_mul_eq_mul_right (objSize_pos b) (by omega)

/-- `dealloc` finds the slab of an object by masking its pointer. -/
theorem objPtr_and_mask {hhdm b f j : ℕ} (hb : b < numBuckets) (hj : j < slots b)
    (hal : 4096 ∣ hhdm) (hlt : objPtr hhdm b f j < 2 ^ 64) :
    objPtr hhdm b f j &&& notU64 (frameSize - 1) = blockPtr hhdm f := by
  have hbound := obj_bounds hb hj
  have hpos := objSize_pos b
  rw [Nat.add_mul] at hbound
  have hmask : objPtr hhdm b f j &&& notU64 (frameSize - 1) =
      objPtr hhdm b f j / 4096 * 4096 := and_notU64_low (k := 12) hlt
  rw [hmask]
  rcases hal with ⟨q, rfl⟩
  unfold objPtr blockPtr
  omega

/-! ## Bytes -/

/-- The bytes of a frame. -/
def frameSpan (hhdm f : ℕ) : Set ℕ := Set.Ico (blockPtr hhdm f) (blockPtr hhdm f + frameSize)

/-- The bytes of the header of a slab. -/
def headerSpan (hhdm f : ℕ) : Set ℕ := Set.Ico (blockPtr hhdm f) (blockPtr hhdm f + headerSize)

/-- The bytes of an object. -/
def objSpan (hhdm b f j : ℕ) : Set ℕ :=
  Set.Ico (objPtr hhdm b f j) (objPtr hhdm b f j + objSize b)

/-- The bytes of a word. -/
def wordSpan (hhdm f i : ℕ) : Set ℕ :=
  Set.Ico (blockPtr hhdm f + 8 * i) (blockPtr hhdm f + 8 * i + 8)

section

variable {hhdm b f j i : ℕ}

theorem ptrFrame_of_mem {a : ℕ} (h : a ∈ frameSpan hhdm f) : ptrFrame hhdm a = f := by
  rcases h with ⟨hlo, hhi⟩
  unfold blockPtr at hlo hhi
  unfold frameSize at hhi
  unfold ptrFrame
  omega

theorem objSpan_subset (hb : b < numBuckets) (hj : j < slots b) :
    objSpan hhdm b f j ⊆ frameSpan hhdm f := by
  have hbound := obj_bounds hb hj
  rw [Nat.add_mul] at hbound
  refine Set.Ico_subset_Ico (Nat.le_add_right _ _) ?_
  unfold objPtr frameSize
  omega

theorem headerSpan_subset : headerSpan hhdm f ⊆ frameSpan hhdm f :=
  Set.Ico_subset_Ico_right (Nat.add_le_add_left (by decide) _)

theorem wordSpan_subset (hi : i < 512) : wordSpan hhdm f i ⊆ frameSpan hhdm f := by
  refine Set.Ico_subset_Ico (Nat.le_add_right _ _) ?_
  unfold frameSize
  omega

theorem wordSpan_subset_header (hi : i < 2) : wordSpan hhdm f i ⊆ headerSpan hhdm f := by
  refine Set.Ico_subset_Ico (Nat.le_add_right _ _) ?_
  unfold headerSize
  omega

/-- The link of an object is inside the object. -/
theorem wordSpan_subset_obj : wordSpan hhdm f (j * objSize b / 8) ⊆ objSpan hhdm b f j := by
  have h16 : 16 ≤ objSize b := Nat.le_of_dvd (objSize_pos b) (sixteen_dvd_objSize b)
  have h8 : 8 ∣ j * objSize b :=
    ((Dvd.intro 2 rfl : 8 ∣ 16).trans (sixteen_dvd_objSize b)).mul_left j
  have heq : 8 * (j * objSize b / 8) = j * objSize b := Nat.mul_div_cancel' h8
  unfold wordSpan objSpan objPtr
  rw [heq]
  exact Set.Ico_subset_Ico_right (by omega)

theorem objSpan_disjoint {j' : ℕ} (hne : j ≠ j') :
    Disjoint (objSpan hhdm b f j) (objSpan hhdm b f j') := by
  rw [Set.disjoint_left]
  rintro a ⟨hlo, hhi⟩ ⟨hlo', hhi'⟩
  unfold objPtr at hlo hhi hlo' hhi'
  rcases Nat.lt_or_gt_of_ne hne with hlt | hlt
  · have hle := Nat.mul_le_mul_right (objSize b) (Nat.succ_le_of_lt hlt)
    rw [Nat.succ_mul] at hle
    omega
  · have hle := Nat.mul_le_mul_right (objSize b) (Nat.succ_le_of_lt hlt)
    rw [Nat.succ_mul] at hle
    omega

theorem objSpan_header (hj : 1 ≤ j) : Disjoint (objSpan hhdm b f j) (headerSpan hhdm f) := by
  have h16 : 16 ≤ objSize b := Nat.le_of_dvd (objSize_pos b) (sixteen_dvd_objSize b)
  have hle : objSize b ≤ j * objSize b := Nat.le_mul_of_pos_left _ hj
  rw [Set.disjoint_left]
  rintro a ⟨hlo, -⟩ ⟨-, hhi⟩
  unfold objPtr at hlo
  unfold headerSize at hhi
  omega

theorem objSize_dvd_objPtr (hb : b < numBuckets) (hal : 4096 ∣ hhdm) :
    objSize b ∣ objPtr hhdm b f j := by
  have hdvd : objSize b ∣ 4096 := Dvd.intro_left _ (slots_mul_objSize hb)
  unfold objPtr blockPtr
  exact Nat.dvd_add (Nat.dvd_add (hdvd.mul_left f) (hdvd.trans hal)) (Nat.dvd_mul_left _ j)

end

/-! ## What a request needs -/

/-- Two powers of two of which one is not above the other. -/
theorem pow_dvd_of_le {a k : ℕ} (ha : ∃ l, a = 2 ^ l) (hle : a ≤ 2 ^ k) : a ∣ 2 ^ k := by
  rcases ha with ⟨l, rfl⟩
  exact pow_dvd_pow 2 ((Nat.pow_le_pow_iff_right (by omega)).1 hle)

/-- A small request fits into an object of its bucket, which is aligned for it. -/
theorem bucketFor_spec {layout : Layout} {b : ℕ} (h : bucketFor layout = some b) :
    b < numBuckets ∧ layout.size ≤ objSize b ∧ layout.align ∣ objSize b := by
  unfold bucketFor at h
  dsimp only at h
  split at h
  · cases h
  · rename_i hle
    rcases nextPowerOfTwo_spec (max (max layout.size layout.align) (2 ^ minBucketShift)) with
      ⟨k, hk, hneed, hmin⟩
    have hk10 : k ≤ maxBucketShift := hmin _ (Nat.le_of_not_gt hle)
    have hk4 : minBucketShift ≤ k :=
      (Nat.pow_le_pow_iff_right (show 1 < 2 by omega)).1 ((Nat.le_max_right _ _).trans hneed)
    unfold maxBucketShift at hk10
    rw [hk, trailingZeros_two_pow (by omega)] at h
    rcases Option.some.inj h with rfl
    have hsize : objSize (k - minBucketShift) = 2 ^ k := by
      unfold objSize
      rw [show minBucketShift + (k - minBucketShift) = k by omega]
    have hmax := (Nat.le_max_left (max layout.size layout.align) (2 ^ minBucketShift)).trans hneed
    refine ⟨?_, ?_, ?_⟩
    · unfold minBucketShift at hk4 ⊢
      unfold numBuckets maxBucketShift minBucketShift
      omega
    · rw [hsize]
      exact (Nat.le_max_left _ _).trans hmax
    · rw [hsize]
      exact pow_dvd_of_le layout.align_pow ((Nat.le_max_right _ _).trans hmax)

/-- A large request fits into its block, which is aligned for it. -/
theorem orderForLarge_spec {layout : Layout} {o : ℕ} (h : orderForLarge layout = some o) :
    o ≤ maxOrder ∧ layout.size ≤ 2 ^ o * frameSize ∧ layout.align ∣ 2 ^ o * frameSize := by
  unfold orderForLarge at h
  dsimp only at h
  split at h
  · cases h
  · rename_i hle
    rcases nextPowerOfTwo_spec ((max layout.size layout.align + frameSize - 1) / frameSize) with
      ⟨k, hk, hneed, -⟩
    have hk64 : k < 64 := by
      by_contra hge
      -- the trailing zeros of a power beyond the word are all 64
      have htz : trailingZeros (2 ^ k) = 64 := by
        unfold trailingZeros
        rw [List.find?_eq_none.2]
        · rfl
        · intro j hj
          rw [Nat.testBit_two_pow_of_ne (by have := List.mem_range.1 hj; omega)]
          simp
      rw [hk, htz] at hle
      exact hle (by decide)
    rw [hk, trailingZeros_two_pow hk64] at h hle
    rcases Option.some.inj h with rfl
    have hmax : max layout.size layout.align ≤ 2 ^ k * frameSize := by
      unfold frameSize at hneed ⊢
      omega
    refine ⟨Nat.le_of_not_gt hle, (Nat.le_max_left _ _).trans hmax, ?_⟩
    have hpow : 2 ^ k * frameSize = 2 ^ (k + 12) := by
      rw [pow_add]
      rfl
    rw [hpow] at hmax ⊢
    exact pow_dvd_of_le layout.align_pow ((Nat.le_max_right _ _).trans hmax)

end Prometheos.Heap
