import Prometheos.Vmm.Runs

/-!
# The addresses of a page

The specifications of `map` and `unmap` speak about paths. Here they are read as statements
about addresses, with `translate` as the observer: the paths below the path of a page are
those of its addresses (`isPrefix_iff_inPage`), so that

* `map_exact`: `map` changes what the addresses of the page translate to, and of no other;
* `unmap_exact`: `unmap` succeeds on the pages that are mapped with their size, and takes
  the translation from their addresses and from no other;
* `map_atomic`: `map` leaves every table as it was if it fails.
-/

namespace Prometheos.Vmm

open Pmm

/-! ## Addresses and paths -/

/-- An address of the page at `virt`. -/
def InPage (virt : ℕ) (size : PageSize) (a : ℕ) : Prop := virt ≤ a ∧ a < virt + size.bytes

/-- The level of the tables that hold the leaves of a page size. -/
def pageLevel : PageSize → ℕ
  | .base => 0
  | .large => 1
  | .huge => 2

/-- The address is translated by a leaf of the size. -/
def TranslatedBy (s : Vm) (virt : ℕ) (size : PageSize) : Prop :=
  ∃ w, walk s (pagePath virt .base) = some (pageLevel size, w)

section

variable {s : Vm} {virt a : ℕ} {size : PageSize}

theorem isCanonical_iff :
    isCanonical a = true ↔ a < 2 ^ 47 ∨ 2 ^ 64 - 2 ^ 47 ≤ a ∧ a < 2 ^ 64 := by
  unfold isCanonical
  rw [decide_eq_true_iff]
  omega

theorem bytes_eq (size : PageSize) : size.bytes = 2 ^ (12 + 9 * pageLevel size) := by
  cases size with
  | base => rfl
  | large => rfl
  | huge => rfl

theorem length_pagePath (virt : ℕ) (size : PageSize) :
    4 - (pagePath virt size).length = pageLevel size := by
  cases size with
  | base => rfl
  | large => rfl
  | huge => rfl

theorem pagePath_length_le (virt : ℕ) (size : PageSize) : (pagePath virt size).length ≤ 4 := by
  cases size with
  | base => exact le_refl 4
  | large => exact Nat.le_succ 3
  | huge => exact (by decide : 2 ≤ 4)

/-- The path of a page is the path of its first address, cut off at the leaf. -/
theorem pagePath_isPrefix (virt : ℕ) (size : PageSize) :
    pagePath virt size <+: pagePath virt .base := by
  cases size with
  | base => exact List.prefix_rfl
  | large => exact ⟨[idx 0 virt], rfl⟩
  | huge => exact ⟨[idx 1 virt, idx 0 virt], rfl⟩

theorem idx_eq_iff (l virt a : ℕ) :
    idx l virt = idx l a ↔ virt / 2 ^ (12 + 9 * l) % 512 = a / 2 ^ (12 + 9 * l) % 512 :=
  Fin.ext_iff

theorem InPage.isCanonical (h : InPage virt size a) (hcan : isCanonical virt = true)
    (hal : virt % size.bytes = 0) : Vmm.isCanonical a = true := by
  rcases h with ⟨hle, hlt⟩
  rw [isCanonical_iff] at hcan ⊢
  cases size with
  | base =>
      change virt % 2 ^ 12 = 0 at hal
      change a < virt + 2 ^ 12 at hlt
      omega
  | large =>
      change virt % 2 ^ 21 = 0 at hal
      change a < virt + 2 ^ 21 at hlt
      omega
  | huge =>
      change virt % 2 ^ 30 = 0 at hal
      change a < virt + 2 ^ 30 at hlt
      omega

/-- The paths below a page are those of its addresses. The bits of an address above its
indices play no part in a path, but those of two canonical addresses are the same if their
first indices are. -/
theorem isPrefix_iff_inPage (hv : isCanonical virt = true) (ha : isCanonical a = true)
    (hal : virt % size.bytes = 0) :
    pagePath virt size <+: pagePath a .base ↔ InPage virt size a := by
  rw [isCanonical_iff] at hv ha
  unfold InPage
  cases size with
  | base =>
      change virt % 2 ^ 12 = 0 at hal
      simp only [pagePath, List.cons_prefix_cons, List.nil_prefix, idx_eq_iff, PageSize.bytes,
        Nat.reduceMul, Nat.reduceAdd, and_true]
      omega
  | large =>
      change virt % 2 ^ 21 = 0 at hal
      simp only [pagePath, List.cons_prefix_cons, List.nil_prefix, idx_eq_iff, PageSize.bytes,
        Nat.reduceMul, Nat.reduceAdd, and_true]
      omega
  | huge =>
      change virt % 2 ^ 30 = 0 at hal
      simp only [pagePath, List.cons_prefix_cons, List.nil_prefix, idx_eq_iff, PageSize.bytes,
        Nat.reduceMul, Nat.reduceAdd, and_true]
      omega

/-- A page is mapped with its size if its leaf is at the end of its path. -/
theorem translatedBy_iff : TranslatedBy s virt size ↔
    ∃ w, walk s (pagePath virt size) = some (4 - (pagePath virt size).length, w) := by
  have hpre := pagePath_isPrefix virt size
  have hlen := length_pagePath virt size
  constructor
  · rintro ⟨w, hw⟩
    -- the table of the leaf is where the path of the page ends
    rcases Radix.exists_of_walk hw with ⟨p, i, r, n, heq, hp, hk, hlevel, rfl⟩
    have hle : p.length ≤ 3 := length_of_tableAt hp
    have hpre' : p ++ [i] <+: pagePath virt .base := ⟨r, by rw [heq, List.append_assoc]; rfl⟩
    have hlen' : (pagePath virt size).length = (p ++ [i]).length := by
      have hpos := pagePath_length_le virt size
      rw [List.length_append, List.length_singleton]
      omega
    have hpath : pagePath virt size = p ++ [i] :=
      (List.prefix_of_prefix_length_le hpre hpre' hlen'.le).eq_of_length hlen'
    rw [hlen, hpath, hlevel]
    exact ⟨_, walk_append_leaf hp hk []⟩
  · rintro ⟨w, hw⟩
    rcases hpre with ⟨r, hr⟩
    refine ⟨w, ?_⟩
    rw [← hr, ← hlen]
    exact Radix.walk_append_of_some hw r

/-- The offset of an address into its page. -/
theorem InPage.mod_eq (h : InPage virt size a) (hal : virt % size.bytes = 0) :
    a % size.bytes = a - virt := by
  rcases h with ⟨hle, hlt⟩
  rcases Nat.dvd_of_mod_eq_zero hal with ⟨k, rfl⟩
  have hoff : a - size.bytes * k < size.bytes := by omega
  have hsum : a = size.bytes * k + (a - size.bytes * k) := by omega
  calc a % size.bytes = (size.bytes * k + (a - size.bytes * k)) % size.bytes := by rw [← hsum]
    _ = (a - size.bytes * k) % size.bytes := Nat.mul_add_mod _ _ _
    _ = a - size.bytes * k := Nat.mod_eq_of_lt hoff

end

/-! ## Leaves -/

theorem Tree.readable {s : Vm} {init held : List ℕ} {others : List (ℕ × ℕ)}
    (hT : Tree init others s held) : Readable s :=
  ⟨hT.hhdm_eq, hT.top_eq, fun _ _ hp => (hT.ptr_ok hp).2⟩

/-- The address of a frame has no other bits than an entry has for it. -/
theorem ofNat_and_addrMask {a : ℕ} (hmod : a % 4096 = 0) (hlt : a < 2 ^ 52) :
    BitVec.ofNat 64 a &&& addrMask = BitVec.ofNat 64 a := by
  apply BitVec.eq_of_toNat_eq
  rw [toNat_and_addrMask, frameOf, BitVec.toNat_ofNat]
  omega

/-- The flags of a page of the base size. -/
theorem base_flags (flags : PTFlags) : (flags.bits ||| flagP) &&& addrMask = 0#64 ∧
    (flags.bits ||| flagP) &&& flagP = flagP ∧
    (flags.bits ||| flagP) &&& leafMask = flags.bits &&& leafMask := by
  have haddr : ptAll &&& addrMask = 0#64 := by decide
  have hP : flagP &&& addrMask = 0#64 := by decide
  have hleaf : flagP &&& leafMask = 0#64 := by decide
  refine ⟨?_, ?_, ?_⟩
  · rw [← flags.within, BitVec.and_or_distrib_right, BitVec.and_assoc, haddr, hP,
      BitVec.and_zero, BitVec.or_zero]
  · ext i hi
    rw [BitVec.getElem_and, BitVec.getElem_or]
    cases flagP[i] with
    | false => rw [Bool.and_false]
    | true => rw [Bool.or_true, Bool.and_true]
  · rw [BitVec.and_or_distrib_right, hleaf, BitVec.or_zero]

/-- The flags of a larger page. -/
theorem leaf_flags (flags : PTFlags) :
    ((flags.bits &&& leafMask) ||| flagP ||| flagPS) &&& addrMask = 0#64 ∧
    ((flags.bits &&& leafMask) ||| flagP ||| flagPS) &&& flagP = flagP ∧
    ((flags.bits &&& leafMask) ||| flagP ||| flagPS) &&& leafMask = flags.bits &&& leafMask := by
  have haddr : leafMask &&& addrMask = 0#64 := by decide
  have hself : leafMask &&& leafMask = leafMask := BitVec.and_self
  have hcommon : leafMask &&& flagP = 0#64 := by decide
  have hP : flagP &&& addrMask = 0#64 ∧ flagP &&& leafMask = 0#64 := by decide
  have hPS : flagPS &&& addrMask = 0#64 ∧ flagPS &&& flagP = 0#64 ∧ flagPS &&& leafMask = 0#64 := by
    decide
  simp only [BitVec.and_or_distrib_right, BitVec.and_assoc, haddr, hself, hcommon, hP.1, hP.2,
    hPS.1, hPS.2.1, hPS.2.2, BitVec.and_self, BitVec.and_zero, BitVec.or_zero, BitVec.zero_or,
    and_self]

section

variable [X86] {s s' : Vm} {virt phys a : ℕ} {flags : PTFlags} {size : PageSize}

/-- The flags that `map` gives to a page touch no address bit, and they are those the caller
asked for, with the page present. -/
theorem leafFlags_eq (flags : PTFlags) (size : PageSize) :
    leafFlags flags size &&& addrMask = 0#64 ∧ leafFlags flags size &&& flagP = flagP ∧
      leafFlags flags size &&& leafMask = flags.bits &&& leafMask := by
  have hcommon : flags.bits &&& leafMask &&& leafMask = flags.bits &&& leafMask := by
    rw [BitVec.and_assoc, BitVec.and_self]
  cases size with
  | base => exact base_flags flags
  | large =>
      unfold leafFlags pdLeaf
      rw [X86.pdTruncate_eq _ hcommon]
      exact leaf_flags flags
  | huge =>
      unfold leafFlags pdptLeaf
      rw [X86.pdptTruncate_eq _ hcommon]
      exact leaf_flags flags

/-- The frame of the entry. -/
theorem frameOf_leafEntry (flags : PTFlags) (hmod : phys % size.bytes = 0)
    (hphys : phys < 2 ^ 52) : frameOf (leafEntry phys flags size) * 4096 = phys := by
  have hpage := mod_frame_of_mod_bytes hmod
  have hmask : leafEntry phys flags size &&& addrMask = BitVec.ofNat 64 phys &&& addrMask := by
    unfold leafEntry
    rw [BitVec.and_or_distrib_right, (leafFlags_eq flags size).1, BitVec.or_zero]
  rw [← toNat_and_addrMask, hmask, toNat_and_addrMask, frameOf, BitVec.toNat_ofNat]
  omega

/-- What the leaf says about an address of its page. -/
theorem leafView_leafEntry (flags : PTFlags) (hmod : phys % size.bytes = 0) (hphys : phys < 2 ^ 52)
    (hal : virt % size.bytes = 0) (ha : InPage virt size a) :
    ∃ f, leafView a (pageLevel size, leafEntry phys flags size) = (phys + (a - virt), f) ∧
      f.bits &&& flagP = flagP ∧ f.bits &&& leafMask = flags.bits &&& leafMask := by
  rcases leafFlags_eq flags size with ⟨-, hP, hleaf⟩
  have hframe := frameOf_leafEntry flags hmod hphys
  -- the address has no bit where the flags are
  have hbits :
      (X86.ptTruncate (leafEntry phys flags size)).bits = leafFlags flags size &&& ptAll := by
    have hno : addrMask &&& ptAll = 0#64 := by decide
    unfold leafEntry
    rw [X86.ptTruncate_eq, BitVec.and_or_distrib_right,
      ← ofNat_and_addrMask (mod_frame_of_mod_bytes hmod) hphys, BitVec.and_assoc, hno,
      BitVec.and_zero, BitVec.zero_or]
  have hallP : ptAll &&& flagP = flagP := by decide
  have hallLeaf : ptAll &&& leafMask = leafMask := by decide
  refine ⟨X86.ptTruncate (leafEntry phys flags size), Prod.ext ?_ rfl, ?_, ?_⟩
  · change frameOf _ * 4096 + a % 2 ^ (12 + 9 * pageLevel size) = _
    rw [hframe, ← bytes_eq, ha.mod_eq hal]
  · rw [hbits, BitVec.and_assoc, hallP, hP]
  · rw [hbits, BitVec.and_assoc, hallLeaf, hleaf]

/-! ## `map` -/

theorem translation_congr
    (h : isCanonical a = true → walk s' (pagePath a .base) = walk s (pagePath a .base)) :
    translation s' a = translation s a := by
  unfold translation
  by_cases hcan : isCanonical a = true
  · rw [if_pos hcan, if_pos hcan, h hcan]
  · rw [if_neg hcan, if_neg hcan]

/-- A change that leaves the walks off a page leaves the other addresses. -/
theorem translation_eq_of_not_inPage (hcan : isCanonical virt = true)
    (hal : virt % size.bytes = 0)
    (hother : ∀ q, ¬ pagePath virt size <+: q → walk s' q = walk s q) (ha : ¬ InPage virt size a) :
    translation s' a = translation s a :=
  translation_congr fun hcan' => hother _ fun h => ha ((isPrefix_iff_inPage hcan hcan' hal).1 h)

/-- The walk of an address of a page. -/
theorem translation_of_inPage {o : Option (ℕ × Word)} (hcan : isCanonical virt = true)
    (hal : virt % size.bytes = 0) (hbelow : ∀ r, walk s (pagePath virt size ++ r) = o)
    (ha : InPage virt size a) : translation s a = o.map (leafView a) := by
  have hcan' := ha.isCanonical hcan hal
  rcases (isPrefix_iff_inPage hcan hcan' hal).2 ha with ⟨r, hr⟩
  unfold translation
  rw [if_pos hcan', ← hr, hbelow]

theorem isCanonical_of_translation {x : ℕ × PTFlags} (h : translation s a = some x) :
    isCanonical a = true := by
  unfold translation at h
  split at h
  · assumption
  · cases h

/-- Whatever the size of the leaf, the addresses of a 4 KiB page are translated in a row. -/
theorem translation_of_page (hcan : isCanonical virt = true) (hal : virt % PageSize.base.bytes = 0)
    (ha : InPage virt .base a) :
    translation s a = (translation s virt).map fun x => (x.1 + (a - virt), x.2) := by
  have hpath : pagePath virt .base = pagePath a .base :=
    ((isPrefix_iff_inPage hcan (ha.isCanonical hcan hal) hal).2 ha).eq_of_length rfl
  unfold translation
  rw [if_pos hcan, if_pos (ha.isCanonical hcan hal), hpath, Option.map_map]
  refine congrArg (fun f => Option.map f _) (funext fun x => ?_)
  -- the offset into the page is added to the offset of the page into the leaf
  have hmod : a % 2 ^ (12 + 9 * x.1) = virt % 2 ^ (12 + 9 * x.1) + (a - virt) := by
    rcases ha with ⟨hle, hlt⟩
    change virt % 2 ^ 12 = 0 at hal
    change a < virt + 2 ^ 12 at hlt
    have hdiv : a / 2 ^ 12 = virt / 2 ^ 12 := by omega
    rw [Nat.pow_add, Nat.mod_mul, Nat.mod_mul, hdiv, hal]
    omega
  refine Prod.ext ?_ rfl
  change frameOf x.2 * 4096 + a % 2 ^ (12 + 9 * x.1) =
    frameOf x.2 * 4096 + virt % 2 ^ (12 + 9 * x.1) + (a - virt)
  rw [hmod, Nat.add_assoc]

theorem translate_eq_iff {init held : List ℕ} {others : List (ℕ × ℕ)}
    (hT : Tree init others s held) {o : Option (ℕ × PTFlags)} :
    (translate a).run s = .ok o s ↔ translation s a = o := by
  rw [translate_spec hT.readable]
  simp

/-- `map` is exact: the addresses of the page translate to the frame they were asked to,
with the flags they were asked to have, and the other addresses as before. -/
theorem map_exact {init held : List ℕ} {others : List (ℕ × ℕ)} (hT : Tree init others s held)
    (hphys : phys < 2 ^ 52) (hrun : (map virt phys flags size).run s = .ok (.ok ()) s') :
    (∀ a, virt ≤ a → a < virt + size.bytes → ∃ f : PTFlags,
      (translate a).run s' = .ok (some (phys + (a - virt), f)) s' ∧
        f.bits &&& flagP = flagP ∧ f.bits &&& leafMask = flags.bits &&& leafMask) ∧
    ∀ a, ¬ (virt ≤ a ∧ a < virt + size.bytes) → ∃ r,
      (translate a).run s' = .ok r s' ∧ (translate a).run s = .ok r s := by
  rcases map_of_ok hT hrun with ⟨⟨held', hT'⟩, -, ⟨hcan, hal, hmod⟩, -, hM⟩
  constructor
  · intro a hle hlt
    have ha : InPage virt size a := ⟨hle, hlt⟩
    rcases leafView_leafEntry flags hmod hphys hal ha with ⟨f, hview, hP, hleaf⟩
    refine ⟨f, ?_, hP, hleaf⟩
    have hbelow := hM.below
    rw [length_pagePath] at hbelow
    rw [translate_spec hT'.readable, translation_of_inPage hcan hal hbelow ha, Option.map_some,
      hview]
  · intro a ha
    refine ⟨translation s a, ?_, translate_spec hT.readable a⟩
    rw [translate_spec hT'.readable, translation_eq_of_not_inPage hcan hal hM.other ha]

end

/-- The page of `base_page_run` is exactly there. -/
theorem map_exact_base_page : letI := X86.documented
    ∃ (s s' : Vm) (held : List ℕ), Tree [4] [] s held ∧
      (map 0 0 ⟨flagRW, rfl⟩ .base).run s = .ok (.ok ()) s' ∧
      (∃ f : PTFlags, (translate 4095).run s' = .ok (some (4095, f)) s' ∧
        f.bits &&& flagP = flagP ∧ f.bits &&& leafMask = flagRW &&& leafMask) ∧
      ∃ r, (translate 4096).run s' = .ok r s' ∧ (translate 4096).run s = .ok r s := by
  let := X86.documented
  rcases base_page_run with ⟨s₁, hseed, s₂, halloc, htotal, -, s', hmap, -⟩
  have hT := (seeded_start (by decide) (by decide) hseed halloc htotal).tree
  have hexact := map_exact hT (by decide) hmap
  exact ⟨_, s', _, hT, hmap, hexact.1 4095 (by decide) (by decide), hexact.2 4096 (by decide)⟩

/-! ## `unmap` -/

section

variable [X86] {s s' : Vm} {virt a : ℕ} {size : PageSize}

theorem unmap_args (h : (unmap virt size).run s = .ok (.ok ()) s') :
    isCanonical virt = true ∧ virt % size.bytes = 0 := by
  unfold unmap at h
  by_cases hcan : isCanonical virt = true
  · refine ⟨hcan, ?_⟩
    rw [if_neg (by simp [hcan])] at h
    by_contra hal
    rw [if_pos hal] at h
    cases h
  · rw [if_pos (by simp [hcan])] at h
    cases h

/-- `unmap` is exact: it succeeds if the address is the start of a page that is mapped with
this size, and takes the translation from the addresses of this page only. If it fails, it
changes nothing. -/
theorem unmap_exact {init held : List ℕ} {others : List (ℕ × ℕ)} (hT : Tree init others s held)
    (virt : ℕ) (size : PageSize) : ∃ r s', (unmap virt size).run s = .ok r s' ∧
      (r = .ok () ↔
        isCanonical virt = true ∧ virt % size.bytes = 0 ∧ TranslatedBy s virt size) ∧
      (r = .ok () →
        (∀ a, virt ≤ a → a < virt + size.bytes → (translate a).run s' = .ok none s') ∧
        ∀ a, ¬ (virt ≤ a ∧ a < virt + size.bytes) → ∃ o,
          (translate a).run s' = .ok o s' ∧ (translate a).run s = .ok o s) ∧
      (r ≠ .ok () → s' = s) := by
  rcases unmap_spec hT virt size with ⟨r, s', held', hrun, hT', hpost⟩
  refine ⟨r, s', hrun, ?_⟩
  cases r with
  | ok _ =>
      rcases hpost with ⟨hleaf, hU⟩
      rcases unmap_args hrun with ⟨hcan, hal⟩
      refine ⟨iff_of_true rfl ⟨hcan, hal, translatedBy_iff.2 hleaf⟩, fun _ => ⟨?_, ?_⟩,
        fun h => absurd rfl h⟩
      · intro a hle hlt
        rw [translate_spec hT'.readable, translation_of_inPage hcan hal hU.below ⟨hle, hlt⟩]
        rfl
      · intro a ha
        refine ⟨translation s a, ?_, translate_spec hT.readable a⟩
        rw [translate_spec hT'.readable, translation_eq_of_not_inPage hcan hal hU.other ha]
  | error e =>
      -- every error says why the call could not succeed
      have hfail : s' = s ∧
          ¬ (isCanonical virt = true ∧ virt % size.bytes = 0 ∧ TranslatedBy s virt size) := by
        cases e with
        | notMapped =>
            refine ⟨hpost.1, fun h => ?_⟩
            rcases translatedBy_iff.1 h.2.2 with ⟨w, hw⟩
            exact hpost.2 w hw
        | nonCanonical =>
            refine ⟨hpost.1, fun h => ?_⟩
            exact Bool.false_ne_true (hpost.2.symm.trans h.1)
        | misaligned => exact ⟨hpost.1, fun h => hpost.2 h.2.1⟩
      have hne : (Except.error e : Except UnmapError Unit) ≠ .ok () := by simp
      exact ⟨iff_of_false hne hfail.2, fun h => absurd h hne, fun _ => hfail.1⟩

end

/-- The page of `base_page_run` can be unmapped, and a larger one at its place cannot. -/
theorem unmap_exact_base_page : letI := X86.documented
    ∃ (s : Vm) (held : List ℕ), Tree [4] [] s held ∧
      (∃ s', (unmap 0 .base).run s = .ok (.ok ()) s' ∧ (translate 0).run s' = .ok none s') ∧
      ∃ r, (unmap 0 .large).run s = .ok r s := by
  let := X86.documented
  rcases base_page_run with ⟨s₁, hseed, s₂, halloc, htotal, -, s', hmap, -⟩
  have hT := (seeded_start (by decide) (by decide) hseed halloc htotal).tree
  rcases map_of_ok hT hmap with ⟨⟨held, hT'⟩, -, hpost⟩
  have hbelow := hpost.2.2.below []
  rw [List.append_nil] at hbelow
  rcases unmap_exact hT' 0 .base with ⟨r, u, hrun, hiff, hok, -⟩
  have hr : r = .ok () := hiff.2 ⟨by decide, by decide, _, hbelow⟩
  rcases unmap_exact hT' 0 .large with ⟨r', u', hrun', hiff', -, hno⟩
  have hr' : r' ≠ .ok () := by
    intro h
    rcases (hiff'.1 h).2.2 with ⟨w, hw⟩
    cases hbelow.symm.trans hw
  subst hr
  cases hno hr'
  exact ⟨s', held, hT', ⟨u, hrun, (hok rfl).1 0 (le_refl 0) (by decide)⟩, r', hrun'⟩

/-! ## Failures -/

/-- `map` is atomic: if it fails, then every entry of every table is as it was, and so are
the free frames. A page that is already mapped is found before any table is created. And `map`
returns whenever the physical address fits into an entry. -/
theorem map_atomic [X86] {s : Vm} {init held : List ℕ} {others : List (ℕ × ℕ)}
    (hT : Tree init others s held)
    (hzero : ∀ p n (i : Fin 512), tableAt s p = some n → (s.phys.mem n i).getLsbD 0 = false →
      s.phys.mem n i = 0)
    (virt phys : ℕ) (flags : PTFlags) (size : PageSize) :
    (phys < 2 ^ 52 → ∃ r s', (map virt phys flags size).run s = .ok r s') ∧
    ∀ e s', (map virt phys flags size).run s = .ok (.error e) s' →
      s'.topLevel = s.topLevel ∧ (∀ p, tableAt s' p = tableAt s p) ∧
      (∀ p n (i : Fin 512), tableAt s p = some n → s'.phys.mem n i = s.phys.mem n i) ∧
      freeSet s'.phys = freeSet s.phys ∧ s'.phys.pmm.freeFrames = s.phys.pmm.freeFrames ∧
      (e = .alreadyMapped → s' = s) := by
  constructor
  · intro hphys
    rcases map_spec hT virt hphys flags size with ⟨r, s', -, hrun, -⟩
    exact ⟨r, s', hrun⟩
  intro e s' hrun
  rcases map_of_ok hT hrun with ⟨⟨held', hT'⟩, -, hpost⟩
  have hsame : s' = s ∨ Restored s s' ∧ e = .outOfMemory := by
    cases e with
    | alreadyMapped => exact Or.inl hpost.2.2
    | outOfMemory => exact Or.inr ⟨hpost.1, rfl⟩
    | nonCanonical => exact Or.inl hpost.1
    | misaligned => exact Or.inl hpost.1
  rcases hsame with rfl | ⟨hR, rfl⟩
  · exact ⟨rfl, fun _ => rfl, fun _ _ _ _ => rfl, rfl, rfl, fun _ => rfl⟩
  · refine ⟨hR.top, hR.tables, ?_, hR.free_eq, ?_, fun h => by cases h⟩
    · -- an entry that was cleared was not present, and so zero before
      intro p n i hp
      rcases hR.mem n (hT.notFree hp) i with hmem | ⟨habs, hmem⟩
      · exact hmem
      · rw [hmem, hzero p n i hp habs]
    · rw [hT'.holds.inv.count, hT.holds.inv.count, hR.free_eq]

/-- Of two frames one holds an empty PML4: there is no frame for the PD of a page. Between
the second and the third store the PDPT in frame 1 is linked. -/
theorem short_run : letI := X86.documented
    ∃ s₁, (addRange 1 2).run (freshPhys 3) = .ok () s₁ ∧ ∃ s₂,
      (allocPages 0).run s₁ = .ok (some (2 * frameSize)) s₂ ∧ s₂.pmm.totalFrames = 3 ∧ ∃ s',
      (map 0 0 ⟨flagRW, rfl⟩ .base).run (emptyVm s₂ 2) = .ok (.error .outOfMemory) s' ∧
      ∃ m₁ m₂ m₃, s'.trace = [.free 1, .store m₃, .store m₂, .store m₁, .alloc 1] ∧
        kind 3 (m₂ 2 0) = .table 1 ∧ s'.phys.pmm.frameOrder[1]? = some 0 := by
  unfold addRange
  unfold addRange
  unfold addRange
  exact ⟨_, rfl, _, rfl, rfl, _, rfl, _, _, _, rfl, rfl, rfl⟩

/-- The PDPT that was created for the page is taken back. -/
theorem map_atomic_out_of_memory : letI := X86.documented
    ∃ (s s' : Vm) (held : List ℕ), Tree [2] [] s held ∧
      (map 0 0 ⟨flagRW, rfl⟩ .base).run s = .ok (.error .outOfMemory) s' ∧
      freeSet s'.phys = freeSet s.phys ∧ ∀ p, tableAt s' p = tableAt s p := by
  let := X86.documented
  rcases short_run with ⟨s₁, hseed, s₂, halloc, htotal, s', hmap, -⟩
  have hT := (seeded_start (by decide) (by decide) hseed halloc htotal).tree
  have hzero : ∀ p n (i : Fin 512), tableAt (emptyVm s₂ 2) p = some n →
      ((emptyVm s₂ 2).phys.mem n i).getLsbD 0 = false → (emptyVm s₂ 2).phys.mem n i = 0 := by
    intro p n i hp _
    rw [(tableAt_emptyVm.1 hp).2, emptyVm_entry]
  rcases (map_atomic hT hzero 0 0 ⟨flagRW, rfl⟩ .base).2 _ _ hmap with
    ⟨-, htables, -, hfree, -⟩
  exact ⟨_, s', _, hT, hmap, hfree, htables⟩

end Prometheos.Vmm
