import Mathlib.Order.BourbakiWitt
import Mathlib.Order.CompletePartialOrder
import Mathlib.Order.Interval.Set.Basic
import Mathlib.Data.Nat.Bitwise
import Mathlib.Tactic.Ring

/-!
# Dyadic blocks and coalesced tilings

A *block* of order `o` is `2 ^ o` consecutive numbers that start at a multiple
of `2 ^ o`. Two blocks are nested or disjoint, and every block of order `o + 1`
is the union of two *buddies* of order `o`.

The abstract content of a buddy allocator is a family `B` of pairwise disjoint
blocks. When no two buddies below the top order are both in the family, the
family is determined by the set it covers: it consists of the maximal blocks of
that set (`Tiling.mem_iff_isMaximal`). The engine is `Tiling.exists_mem_of_subset`:
a covered block lies inside one member.
-/

namespace Dyadic

/-- The numbers of the block of order `o` that starts at `b`. -/
def block (o b : ℕ) : Set ℕ := Set.Ico b (b + 2 ^ o)

/-- The start of the block of order `o` that contains `f`. -/
def cell (o f : ℕ) : ℕ := f / 2 ^ o * 2 ^ o

theorem mem_block {o b f : ℕ} : f ∈ block o b ↔ b ≤ f ∧ f < b + 2 ^ o := Iff.rfl

theorem self_mem_block (o b : ℕ) : b ∈ block o b :=
  ⟨le_refl b, Nat.lt_add_of_pos_right (Nat.two_pow_pos o)⟩

theorem block_zero (b : ℕ) : block 0 b = {b} := by
  ext f
  rw [mem_block, Set.mem_singleton_iff]
  omega

theorem dvd_cell (o f : ℕ) : 2 ^ o ∣ cell o f := Nat.dvd_mul_left _ _

theorem mem_block_cell (o f : ℕ) : f ∈ block o (cell o f) := by
  have h1 : f / 2 ^ o * 2 ^ o ≤ f := Nat.div_mul_le_self f (2 ^ o)
  have h2 : f < f / 2 ^ o * 2 ^ o + 2 ^ o := Nat.lt_div_mul_add (Nat.two_pow_pos o)
  exact ⟨h1, h2⟩

/-- All members of a block have the same quotient by its size. -/
theorem div_eq_of_mem {o b f : ℕ} (hd : 2 ^ o ∣ b) (hf : f ∈ block o b) :
    f / 2 ^ o = b / 2 ^ o := by
  obtain ⟨q, rfl⟩ := hd
  rw [Nat.mul_div_cancel_left q (Nat.two_pow_pos o)]
  apply Nat.div_eq_of_lt_le
  · rw [Nat.mul_comm]
    exact hf.1
  · rw [Nat.add_mul, Nat.one_mul, Nat.mul_comm q]
    exact hf.2

/-- A block is the cell of each of its members. -/
theorem cell_eq_of_mem {o b f : ℕ} (hd : 2 ^ o ∣ b) (hf : f ∈ block o b) : cell o f = b := by
  rw [cell, div_eq_of_mem hd hf, Nat.div_mul_cancel hd]

theorem cell_of_dvd {o b : ℕ} (hd : 2 ^ o ∣ b) : cell o b = b :=
  cell_eq_of_mem hd (self_mem_block o b)

/-- Of two blocks with a common member, the smaller lies inside the larger. -/
theorem block_subset_of_mem {o o' b b' f : ℕ} (ho : o ≤ o') (hd : 2 ^ o ∣ b) (hd' : 2 ^ o' ∣ b')
    (hf : f ∈ block o b) (hf' : f ∈ block o' b') : block o b ⊆ block o' b' := by
  obtain ⟨k, rfl⟩ := Nat.exists_eq_add_of_le ho
  intro g hg
  -- the quotient by the larger size factors through the quotient by the smaller
  have hdiv : g / 2 ^ (o + k) = f / 2 ^ (o + k) := by
    rw [pow_add, ← Nat.div_div_eq_div_mul, ← Nat.div_div_eq_div_mul,
      div_eq_of_mem hd hg, div_eq_of_mem hd hf]
  have hcell : cell (o + k) g = b' := by
    rw [cell, hdiv]
    exact cell_eq_of_mem hd' hf'
  rw [← hcell]
  exact mem_block_cell (o + k) g

/-- A block inside another one of the same order is that block. -/
theorem eq_of_block_subset {o b b' : ℕ} (h : block o b ⊆ block o b') : b = b' := by
  have h1 := h (self_mem_block o b)
  have hpos := Nat.two_pow_pos o
  have h2 : b + 2 ^ o - 1 ∈ block o b' := h ⟨by omega, by omega⟩
  simp only [mem_block] at h1 h2
  omega

/-- A block inside another has at most its order. -/
theorem order_le_of_block_subset {o o' b b' : ℕ} (h : block o b ⊆ block o' b') : o ≤ o' := by
  have h1 := h (self_mem_block o b)
  have hpos := Nat.two_pow_pos o
  have h2 : b + 2 ^ o - 1 ∈ block o' b' := h ⟨by omega, by omega⟩
  simp only [mem_block] at h1 h2
  exact (Nat.pow_le_pow_iff_right (by omega)).1 (show 2 ^ o ≤ 2 ^ o' by omega)

/-! ## Buddies -/

/-- An aligned start is even or odd as a multiple of `2 ^ o`. -/
theorem even_or_odd {o b : ℕ} (hd : 2 ^ o ∣ b) :
    2 ^ (o + 1) ∣ b ∨ ∃ c, 2 ^ (o + 1) ∣ c ∧ b = c + 2 ^ o := by
  obtain ⟨q, rfl⟩ := hd
  rcases Nat.even_or_odd' q with ⟨r, rfl | rfl⟩
  · exact Or.inl ⟨r, by ring⟩
  · exact Or.inr ⟨2 ^ (o + 1) * r, ⟨r, rfl⟩, by ring⟩

/-- The buddy of an even block is the one after it. -/
theorem xor_of_even {o b : ℕ} (hd : 2 ^ (o + 1) ∣ b) : b ^^^ 2 ^ o = b + 2 ^ o := by
  obtain ⟨q, rfl⟩ := hd
  have hlt : 2 ^ o < 2 ^ (o + 1) := Nat.pow_lt_pow_right (by omega) (by omega)
  rw [Nat.two_pow_add_eq_or_of_lt hlt q]
  apply Nat.eq_of_testBit_eq
  intro i
  rw [Nat.testBit_xor, Nat.testBit_or, Nat.testBit_two_pow_mul, Nat.testBit_two_pow]
  by_cases hi : o = i
  · subst hi
    simp
  · simp [hi]

/-- The buddy of an odd block is the one before it. -/
theorem xor_of_odd {o c : ℕ} (hd : 2 ^ (o + 1) ∣ c) : (c + 2 ^ o) ^^^ 2 ^ o = c := by
  rw [← xor_of_even hd, Nat.xor_assoc, Nat.xor_self, Nat.xor_zero]

theorem dvd_of_dvd_succ {o b : ℕ} (hd : 2 ^ (o + 1) ∣ b) : 2 ^ o ∣ b :=
  (pow_dvd_pow 2 (Nat.le_succ o)).trans hd

/-- The buddy of an aligned block is aligned. -/
theorem dvd_xor {o b : ℕ} (hd : 2 ^ o ∣ b) : 2 ^ o ∣ b ^^^ 2 ^ o := by
  rcases even_or_odd hd with h | ⟨c, hc, rfl⟩
  · rw [xor_of_even h]
    exact Nat.dvd_add hd (dvd_refl _)
  · rw [xor_of_odd hc]
    exact dvd_of_dvd_succ hc

/-- The block above an odd block starts at its buddy. -/
theorem cell_succ_of_odd {o c : ℕ} (hd : 2 ^ (o + 1) ∣ c) : cell (o + 1) (c + 2 ^ o) = c := by
  have hpos := Nat.two_pow_pos o
  exact cell_eq_of_mem hd ⟨by omega, by rw [pow_succ]; omega⟩

/-- Two buddies make up the block above them. -/
theorem block_succ_cell {o b : ℕ} (hd : 2 ^ o ∣ b) :
    block (o + 1) (cell (o + 1) b) = block o b ∪ block o (b ^^^ 2 ^ o) := by
  ext f
  rw [Set.mem_union]
  rcases even_or_odd hd with h | ⟨c, hc, rfl⟩
  · rw [cell_of_dvd h, xor_of_even h]
    simp only [mem_block, pow_succ]
    omega
  · rw [cell_succ_of_odd hc, xor_of_odd hc]
    simp only [mem_block, pow_succ]
    omega

/-- Clearing bit `o` of an aligned start below `2 ^ w`, with a mask of `w` bits,
gives the start of the block above. -/
theorem and_mask_eq_cell {o b w : ℕ} (hd : 2 ^ o ∣ b) (hb : b < 2 ^ w) :
    b &&& ((2 ^ w - 1) ^^^ 2 ^ o) = cell (o + 1) b := by
  have hclear : ∀ c, 2 ^ (o + 1) ∣ c → c.testBit o = false := by
    rintro c ⟨q, rfl⟩
    rw [Nat.testBit_two_pow_mul]
    simp
  have hhigh : ∀ i, w ≤ i → b.testBit i = false := fun i hi =>
    Nat.testBit_lt_two_pow (hb.trans_le (Nat.pow_le_pow_right (by omega) hi))
  apply Nat.eq_of_testBit_eq
  intro i
  rw [Nat.testBit_and, Nat.testBit_xor, Nat.testBit_two_pow_sub_one, Nat.testBit_two_pow]
  rcases even_or_odd hd with h | ⟨c, hc, rfl⟩
  · rw [cell_of_dvd h]
    by_cases hi : o = i
    · subst hi
      simp [hclear b h]
    · by_cases hw : i < w
      · simp [hi, hw]
      · simp [hi, hhigh i (by omega)]
  · rw [cell_succ_of_odd hc]
    have hbit : (c + 2 ^ o).testBit i = (c.testBit i ^^ decide (o = i)) := by
      rw [← xor_of_even hc, Nat.testBit_xor, Nat.testBit_two_pow]
    by_cases hi : o = i
    · subst hi
      have hlt : o < w := by
        by_contra hge
        have hset := hhigh o (by omega)
        rw [hbit, hclear c hc] at hset
        simp at hset
      simp [hclear c hc, hlt]
    · by_cases hw : i < w
      · simp [hbit, hi, hw]
      · have hz := hhigh i (by omega)
        rw [hbit] at hz
        simp_all

/-! ## Tilings -/

/-- The numbers covered by a family of blocks, `B o` being the starts of its
blocks of order `o`. -/
def covered (B : ℕ → Set ℕ) : Set ℕ := {f | ∃ o, ∃ b ∈ B o, f ∈ block o b}

/-- A family of pairwise disjoint blocks of order at most `top`. -/
structure Tiling (top : ℕ) (B : ℕ → Set ℕ) : Prop where
  order_le : ∀ o, ∀ b ∈ B o, o ≤ top
  aligned : ∀ o, ∀ b ∈ B o, 2 ^ o ∣ b
  disjoint : ∀ o o', ∀ b ∈ B o, ∀ b' ∈ B o', ∀ f, f ∈ block o b → f ∈ block o' b' →
    o = o' ∧ b = b'

/-- No two buddies below the top order are both in the family. -/
def Coalesced (top : ℕ) (B : ℕ → Set ℕ) : Prop :=
  ∀ o < top, ∀ b ∈ B o, b ^^^ 2 ^ o ∉ B o

/-- `b` starts a maximal block of order at most `top` inside `S`. -/
structure IsMaximal (top : ℕ) (S : Set ℕ) (o b : ℕ) : Prop where
  order_le : o ≤ top
  aligned : 2 ^ o ∣ b
  subset : block o b ⊆ S
  maximal : ∀ o' b', o' ≤ top → 2 ^ o' ∣ b' → block o' b' ⊆ S → block o b ⊆ block o' b' →
    o' = o ∧ b' = b

section Tilings

variable {top : ℕ} {B : ℕ → Set ℕ}

theorem block_subset_covered {o b : ℕ} (hb : b ∈ B o) : block o b ⊆ covered B :=
  fun _ hf => ⟨o, b, hb, hf⟩

/-- In a coalesced tiling, a covered block lies inside one member. -/
theorem Tiling.exists_mem_of_subset (hT : Tiling top B) (hC : Coalesced top B) :
    ∀ {o b : ℕ}, o ≤ top → 2 ^ o ∣ b → block o b ⊆ covered B →
      ∃ o', ∃ b' ∈ B o', block o b ⊆ block o' b' := by
  intro o
  induction o with
  | zero =>
      intro b _ _ hsub
      obtain ⟨o', b', hb', hf⟩ := hsub (self_mem_block 0 b)
      exact ⟨o', b', hb', block_subset_of_mem (Nat.zero_le o') (by simp)
        (hT.aligned o' b' hb') (self_mem_block 0 b) hf⟩
  | succ o ih =>
      intro b ho hd hsub
      -- each half lies inside a member; if neither member is larger than its
      -- half, the two halves are members and buddies
      have hd0 := dvd_of_dvd_succ hd
      have hpar : block (o + 1) b = block o b ∪ block o (b ^^^ 2 ^ o) := by
        have h := block_succ_cell hd0
        rwa [cell_of_dvd hd] at h
      have hl : block o b ⊆ block (o + 1) b := hpar ▸ Set.subset_union_left
      have hr : block o (b ^^^ 2 ^ o) ⊆ block (o + 1) b := hpar ▸ Set.subset_union_right
      have hgrow : ∀ c o' b', block o c ⊆ block (o + 1) b → b' ∈ B o' → block o c ⊆ block o' b' →
          o < o' → block (o + 1) b ⊆ block o' b' := by
        intro c o' b' hc hb' hsub' hlt
        exact block_subset_of_mem hlt hd (hT.aligned o' b' hb') (hc (self_mem_block o c))
          (hsub' (self_mem_block o c))
      obtain ⟨o₁, b₁, hb₁, hs₁⟩ := ih (by omega) hd0 (hl.trans hsub)
      obtain ⟨o₂, b₂, hb₂, hs₂⟩ := ih (by omega) (dvd_xor hd0) (hr.trans hsub)
      rcases (order_le_of_block_subset hs₁).lt_or_eq with hlt | rfl
      · exact ⟨o₁, b₁, hb₁, hgrow b o₁ b₁ hl hb₁ hs₁ hlt⟩
      rcases (order_le_of_block_subset hs₂).lt_or_eq with hlt | rfl
      · exact ⟨o₂, b₂, hb₂, hgrow _ o₂ b₂ hr hb₂ hs₂ hlt⟩
      · rw [← eq_of_block_subset hs₁] at hb₁
        rw [← eq_of_block_subset hs₂] at hb₂
        exact absurd hb₂ (hC o (by omega) b hb₁)

/-- A coalesced tiling consists of the maximal blocks of the set it covers. -/
theorem Tiling.mem_iff_isMaximal (hT : Tiling top B) (hC : Coalesced top B) (o b : ℕ) :
    b ∈ B o ↔ IsMaximal top (covered B) o b := by
  constructor
  · intro hb
    refine ⟨hT.order_le o b hb, hT.aligned o b hb, block_subset_covered hb, ?_⟩
    intro o' b' ho' hd' hsub hin
    obtain ⟨o₁, b₁, hb₁, hs₁⟩ := hT.exists_mem_of_subset hC ho' hd' hsub
    have hself := self_mem_block o b
    obtain ⟨rfl, rfl⟩ := hT.disjoint o o₁ b hb b₁ hb₁ b hself (hs₁ (hin hself))
    have horder := Nat.le_antisymm (order_le_of_block_subset hs₁) (order_le_of_block_subset hin)
    subst horder
    exact ⟨rfl, eq_of_block_subset hs₁⟩
  · intro hmax
    obtain ⟨o₁, b₁, hb₁, hs₁⟩ := hT.exists_mem_of_subset hC hmax.order_le hmax.aligned hmax.subset
    obtain ⟨rfl, rfl⟩ := hmax.maximal o₁ b₁ (hT.order_le o₁ b₁ hb₁) (hT.aligned o₁ b₁ hb₁)
      (block_subset_covered hb₁) hs₁
    exact hb₁

end Tilings

end Dyadic
