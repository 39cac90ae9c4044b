import Mathlib.Algebra.GroupWithZero.Nat
import Prometheos.Lib.Prog

/-!
# The machine the kernel runs on

What the modules of the kernel share: 64-bit words, physical memory, the ways a
run can end badly, and the checked arithmetic of the default `dev` profile.

* Physical memory is a function of the frame number and of the index of an
  8-byte word in that frame. The kernel reaches it only through the direct map
  (HHDM): the pointer `hhdm + 4096 * f + 8 * i` designates word `i` of frame `f`.
* `u64` values are natural numbers; `+`, `-` and `*` on them stop with the panic of
  the `dev` profile when the result leaves the type, `<<` drops the bits that
  are shifted out.
* `Option<NonNull<T>>` is a word that is `0` for `None`.
-/

namespace Prometheos

/-- A 64-bit word of memory. -/
abbrev Word := BitVec 64

/-- Physical memory: frame number, then index of the word in the frame. -/
abbrev Mem := ℕ → ℕ → Word

/-- The numerals of `Fin 256`, the values of a `u8`. -/
instance neZero_256 : NeZero 256 := ⟨by decide⟩

/-- Why a run stops: a Rust panic with its message, or an operation whose
behaviour the language leaves undefined. -/
inductive Fault where
  | panic (msg : String)
  | undefined (what : String)
deriving DecidableEq, Repr

/-- The fault is a panic. -/
def Fault.IsPanic : Fault → Prop
  | .panic _ => True
  | .undefined _ => False

/-- Kernel code over the state `σ`. -/
abbrev Run (σ α : Type) := Prog Fault σ α

/-- The format `{:#x}`. -/
def hex (n : ℕ) : String := "0x" ++ String.ofList (Nat.toDigits 16 n)

variable {σ α : Type}

/-! ## `u64` and `u32` arithmetic -/

/-- `a + b`. -/
def addU64 (a b : ℕ) : Run σ ℕ := do
  Prog.require (a + b < 2 ^ 64) (.panic "attempt to add with overflow")
  pure (a + b)

/-- `a - b`. -/
def subU64 (a b : ℕ) : Run σ ℕ := do
  Prog.require (b ≤ a) (.panic "attempt to subtract with overflow")
  pure (a - b)

/-- `a * b`. -/
def mulU64 (a b : ℕ) : Run σ ℕ := do
  Prog.require (a * b < 2 ^ 64) (.panic "attempt to multiply with overflow")
  pure (a * b)

/-- `a + b` on `u32`. -/
def addU32 (a b : ℕ) : Run σ ℕ := do
  Prog.require (a + b < 2 ^ 32) (.panic "attempt to add with overflow")
  pure (a + b)

/-- `a << k`. -/
def shlU64 (a k : ℕ) : ℕ := (a * 2 ^ k) % 2 ^ 64

/-- `!a`. -/
def notU64 (a : ℕ) : ℕ := (2 ^ 64 - 1) ^^^ a

/-- `a.trailing_zeros()`. -/
def trailingZeros (a : ℕ) : ℕ := ((List.range 64).find? a.testBit).getD 64

/-- `a.leading_zeros()`. -/
def leadingZeros (a : ℕ) : ℕ := if a = 0 then 64 else 63 - Nat.log2 a

theorem addU64_of_lt {a b : ℕ} (h : a + b < 2 ^ 64) (s : σ) :
    (addU64 a b : Run σ ℕ).run s = .ok (a + b) s := Prog.require_bind h _ _ s

theorem addU64_ok_iff {a b c : ℕ} {s s' : σ} :
    (addU64 a b : Run σ ℕ).run s = .ok c s' ↔ a + b < 2 ^ 64 ∧ c = a + b ∧ s' = s :=
  Prog.require_pure_ok_iff

theorem addU32_of_lt {a b : ℕ} (h : a + b < 2 ^ 32) (s : σ) :
    (addU32 a b : Run σ ℕ).run s = .ok (a + b) s := Prog.require_bind h _ _ s

theorem addU32_ok_iff {a b c : ℕ} {s s' : σ} :
    (addU32 a b : Run σ ℕ).run s = .ok c s' ↔ a + b < 2 ^ 32 ∧ c = a + b ∧ s' = s :=
  Prog.require_pure_ok_iff

theorem addU64_ends {B : Prop} {a b : ℕ} (h : ¬ B → a + b < 2 ^ 64) (s : σ) :
    Prog.Ends B (addU64 a b : Run σ ℕ) s fun c s' => c = a + b ∧ s' = s := by
  refine (Prog.ends_require h _ s).bind ?_
  rintro _ _ ⟨-, rfl⟩
  exact ⟨rfl, rfl⟩

theorem addU64_checks (a b : ℕ) : Prog.Checks Fault.IsPanic (addU64 a b : Run σ ℕ) :=
  (Prog.checks_require trivial).bind fun _ => Prog.checks_pure _

theorem mulU64_of_lt {a b : ℕ} (h : a * b < 2 ^ 64) (s : σ) :
    (mulU64 a b : Run σ ℕ).run s = .ok (a * b) s := Prog.require_bind h _ _ s

theorem mulU64_ok_iff {a b c : ℕ} {s s' : σ} :
    (mulU64 a b : Run σ ℕ).run s = .ok c s' ↔ a * b < 2 ^ 64 ∧ c = a * b ∧ s' = s :=
  Prog.require_pure_ok_iff

theorem mulU64_ends {B : Prop} {a b : ℕ} (h : ¬ B → a * b < 2 ^ 64) (s : σ) :
    Prog.Ends B (mulU64 a b : Run σ ℕ) s fun c s' => c = a * b ∧ s' = s := by
  refine (Prog.ends_require h _ s).bind ?_
  rintro _ _ ⟨-, rfl⟩
  exact ⟨rfl, rfl⟩

theorem subU64_of_le {a b : ℕ} (h : b ≤ a) (s : σ) :
    (subU64 a b : Run σ ℕ).run s = .ok (a - b) s := Prog.require_bind h _ _ s

theorem shlU64_of_lt {a k : ℕ} (h : a * 2 ^ k < 2 ^ 64) : shlU64 a k = a * 2 ^ k :=
  Nat.mod_eq_of_lt h

/-- Clearing the low bits of a `u64`. -/
theorem and_notU64_low {p k : ℕ} (hp : p < 2 ^ 64) :
    p &&& notU64 (2 ^ k - 1) = p / 2 ^ k * 2 ^ k := by
  apply Nat.eq_of_testBit_eq
  intro i
  rw [Nat.testBit_and, notU64, Nat.testBit_xor, Nat.testBit_two_pow_sub_one,
    Nat.testBit_two_pow_sub_one, Nat.testBit_mul_two_pow, Nat.testBit_div_two_pow]
  have hhigh : ¬ i < 64 → p.testBit i = false := fun h64 =>
    Nat.testBit_lt_two_pow (Nat.lt_of_lt_of_le hp (Nat.pow_le_pow_right (by omega) (by omega)))
  by_cases hi : i < k
  · have hlow : ¬ k ≤ i := Nat.not_le.2 hi
    by_cases h64 : i < 64
    · simp [hi, h64, hlow]
    · simp [hlow, hhigh h64]
  · have hle : k ≤ i := Nat.le_of_not_lt hi
    have hadd : i - k + k = i := by omega
    by_cases h64 : i < 64
    · simp [hi, h64, hle, hadd]
    · simp [hadd, hhigh h64]

/-! ## Slices -/

/-- `l[i]`. -/
def index (l : List α) (i : ℕ) : Run σ α :=
  match l[i]? with
  | some a => pure a
  | none => Prog.fault (.panic
      s!"index out of bounds: the len is {l.length} but the index is {i}")

/-- The slice after `l[i] = a`. -/
def setIndex (l : List α) (i : ℕ) (a : α) : Run σ (List α) := do
  Prog.require (i < l.length) (.panic
    s!"index out of bounds: the len is {l.length} but the index is {i}")
  pure (l.set i a)

theorem index_of_eq {l : List α} {i : ℕ} {a : α} (h : l[i]? = some a) (s : σ) :
    (index l i : Run σ α).run s = .ok a s := by
  unfold index
  rw [h]
  rfl

theorem index_ok_iff {l : List α} {i : ℕ} {a : α} {s s' : σ} :
    (index l i : Run σ α).run s = .ok a s' ↔ l[i]? = some a ∧ s' = s := by
  unfold index
  cases h : l[i]? with
  | none => simp
  | some b =>
      simp only [Prog.run_pure, Outcome.ok.injEq, Option.some.injEq]
      exact ⟨fun ⟨h1, h2⟩ => ⟨h1, h2.symm⟩, fun ⟨h1, h2⟩ => ⟨h1, h2.symm⟩⟩

theorem index_checks (l : List α) (i : ℕ) : Prog.Checks Fault.IsPanic (index l i : Run σ α) := by
  unfold index
  cases l[i]? with
  | none => exact Prog.checks_fault trivial
  | some a => exact Prog.checks_pure a

theorem setIndex_of_lt {l : List α} {i : ℕ} (h : i < l.length) (a : α) (s : σ) :
    (setIndex l i a : Run σ (List α)).run s = .ok (l.set i a) s := Prog.require_bind h _ _ s

/-! ## Pointers -/

/-- `NonNull::new_unchecked`. -/
def newUnchecked (virt : ℕ) : Run σ ℕ := do
  Prog.require (virt ≠ 0) (.undefined "NonNull::new_unchecked on a null pointer")
  pure virt

/-- `Option<NonNull<T>>` as it is stored. -/
def ptrWord : Option ℕ → Word
  | none => 0
  | some p => BitVec.ofNat 64 p

/-- `Option<NonNull<T>>` as it is loaded. -/
def wordPtr (w : Word) : Option ℕ := if w = 0 then none else some w.toNat

@[simp] theorem wordPtr_none : wordPtr (ptrWord none) = none := rfl

theorem wordPtr_some {p : ℕ} (h0 : p ≠ 0) (h : p < 2 ^ 64) :
    wordPtr (ptrWord (some p)) = some p := by
  have hn : (BitVec.ofNat 64 p).toNat = p := by
    rw [BitVec.toNat_ofNat, Nat.mod_eq_of_lt h]
  have hne : BitVec.ofNat 64 p ≠ 0 := by
    intro hz
    apply h0
    rw [← hn, hz]
    rfl
  unfold wordPtr ptrWord
  rw [if_neg hne, hn]

/-! ## Memory through the direct map -/

/-- The size of a frame in bytes. -/
def frameSize : ℕ := 4096

/-- The frame a pointer into the direct map points into. -/
def ptrFrame (hhdm p : ℕ) : ℕ := (p - hhdm) / 4096

/-- The word of its frame a pointer into the direct map points to. -/
def ptrIndex (hhdm p : ℕ) : ℕ := (p - hhdm) % 4096 / 8

/-- Memory with one word replaced. -/
def Mem.set (m : Mem) (f i : ℕ) (w : Word) : Mem :=
  fun g j => if g = f ∧ j = i then w else m g j

/-- Read the word at a pointer. -/
def load (hhdm p : ℕ) : Run Mem Word := do
  Prog.require (hhdm ≤ p) (.undefined "read outside the direct map")
  Prog.gets fun m => m (ptrFrame hhdm p) (ptrIndex hhdm p)

/-- Write the word at a pointer. -/
def store (hhdm p : ℕ) (w : Word) : Run Mem Unit := do
  Prog.require (hhdm ≤ p) (.undefined "write outside the direct map")
  Prog.update fun m => m.set (ptrFrame hhdm p) (ptrIndex hhdm p) w

theorem Mem.set_apply (m : Mem) (f i : ℕ) (w : Word) (g j : ℕ) :
    m.set f i w g j = if g = f ∧ j = i then w else m g j := rfl

@[simp] theorem Mem.set_self (m : Mem) (f i : ℕ) (w : Word) : m.set f i w f i = w := by
  simp [Mem.set]

theorem Mem.set_frame_ne (m : Mem) {f g : ℕ} (i : ℕ) (w : Word) (h : g ≠ f) :
    m.set f i w g = m g := by
  funext j
  simp [Mem.set, h]

theorem load_of_le {hhdm p : ℕ} (h : hhdm ≤ p) (m : Mem) :
    (load hhdm p).run m = .ok (m (ptrFrame hhdm p) (ptrIndex hhdm p)) m := Prog.require_bind h _ _ m

theorem store_of_le {hhdm p : ℕ} (h : hhdm ≤ p) (w : Word) (m : Mem) :
    (store hhdm p w).run m = .ok () (m.set (ptrFrame hhdm p) (ptrIndex hhdm p) w) :=
  Prog.require_bind h _ _ m

end Prometheos
