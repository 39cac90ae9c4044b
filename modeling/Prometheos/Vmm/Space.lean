import Prometheos.Vmm.Ranges

/-!
# The address space

What the page tables are for. An address space is a set of pages, no two of which share an
address, with a physical address and flags for each (`Space`). `map` adds a page where there is
none, `unmap` takes one away; `map_range` adds all its pages or none, and `unmap_range` takes pages
away until it meets one that is not there. Nothing is said about tables.

`spaceOf` reads the address space off the tables, and every call of the virtual memory manager is
a step of the address space (`spaceOf_map`, `spaceOf_unmap`, `spaceOf_mapRange`,
`spaceOf_unmapRange`). What `translate` finds is what the address space says
(`translation_eq_some_iff`).
-/

namespace Prometheos.Vmm

open Pmm

/-! ## Pages -/

/-- A page, at an address where one can be. -/
structure Page where
  start : ℕ
  size : PageSize
  canonical : isCanonical start = true
  aligned : start % size.bytes = 0
deriving DecidableEq

namespace Page

def addresses (P : Page) : Set ℕ := {a | InPage P.start P.size a}

/-- The way to the entry of the page. -/
def path (P : Page) : List (Fin 512) := pagePath P.start P.size

variable {P Q : Page} {a : ℕ}

theorem isCanonical_of_mem (h : a ∈ P.addresses) : isCanonical a = true :=
  InPage.isCanonical h P.canonical P.aligned

theorem path_isPrefix_iff (ha : isCanonical a = true) :
    P.path <+: pagePath a .base ↔ a ∈ P.addresses :=
  isPrefix_iff_inPage P.canonical ha P.aligned

theorem start_mem (P : Page) : P.start ∈ P.addresses :=
  ⟨le_refl _, Nat.lt_add_of_pos_right (bytes_pos P.size)⟩

theorem level_eq (P : Page) : 4 - P.path.length = pageLevel P.size := length_pagePath P.start P.size

theorem path_length (P : Page) : P.path.length + pageLevel P.size = 4 := by
  have hle := pagePath_length_le P.start P.size
  have hlevel := P.level_eq
  unfold path at hlevel ⊢
  omega

theorem pageLevel_injective {size size' : PageSize} (h : pageLevel size = pageLevel size') :
    size = size' := by
  cases size <;> cases size' <;> first | rfl | cases h

/-- A page is known from its size and one of its addresses. -/
theorem eq_of_mem (hsize : P.size = Q.size) (hP : a ∈ P.addresses) (hQ : a ∈ Q.addresses) :
    P = Q := by
  have hp := InPage.mod_eq hP P.aligned
  have hq := InPage.mod_eq hQ Q.aligned
  have hle := hP.1
  have hle' := hQ.1
  rw [hsize] at hp
  have hstart : P.start = Q.start := by omega
  cases P
  cases Q
  cases hsize
  cases hstart
  rfl

/-- If one path is the beginning of the other, then the one page is part of the other. -/
theorem addresses_subset (h : P.path <+: Q.path) : Q.addresses ⊆ P.addresses := by
  intro a ha
  have hcan := isCanonical_of_mem ha
  exact (path_isPrefix_iff hcan).1 (h.trans ((path_isPrefix_iff hcan).2 ha))

theorem eq_of_path_eq (h : P.path = Q.path) : P = Q := by
  have hsize : P.size = Q.size := by
    refine pageLevel_injective ?_
    rw [← P.level_eq, ← Q.level_eq, h]
  refine eq_of_mem hsize P.start_mem (addresses_subset ?_ P.start_mem)
  rw [h]

/-- Pages that share an address are one inside the other. -/
theorem prefix_or_prefix (hP : a ∈ P.addresses) (hQ : a ∈ Q.addresses) :
    P.path <+: Q.path ∨ Q.path <+: P.path := by
  have hcan := isCanonical_of_mem hP
  exact List.prefix_or_prefix_of_prefix ((path_isPrefix_iff hcan).2 hP)
    ((path_isPrefix_iff hcan).2 hQ)

/-- The page of a size around an address. -/
theorem exists_mem (hcan : isCanonical a = true) (size : PageSize) :
    ∃ P : Page, P.size = size ∧ a ∈ P.addresses := by
  have hpos := bytes_pos size
  have hdecomp := Nat.div_add_mod a size.bytes
  have hlt := Nat.mod_lt a hpos
  refine ⟨⟨size.bytes * (a / size.bytes), size, ?_, Nat.mul_mod_right _ _⟩, rfl, ?_, ?_⟩
  · rw [isCanonical_iff] at hcan ⊢
    cases size with
    | base =>
        change a < _ ∨ _ at hcan
        change 2 ^ 12 * (a / 2 ^ 12) < _ ∨ _ ≤ 2 ^ 12 * (a / 2 ^ 12) ∧ 2 ^ 12 * (a / 2 ^ 12) < _
        omega
    | large =>
        change 2 ^ 21 * (a / 2 ^ 21) < _ ∨ _ ≤ 2 ^ 21 * (a / 2 ^ 21) ∧ 2 ^ 21 * (a / 2 ^ 21) < _
        omega
    | huge =>
        change 2 ^ 30 * (a / 2 ^ 30) < _ ∨ _ ≤ 2 ^ 30 * (a / 2 ^ 30) ∧ 2 ^ 30 * (a / 2 ^ 30) < _
        omega
  · change size.bytes * (a / size.bytes) ≤ a
    omega
  · change a < size.bytes * (a / size.bytes) + size.bytes
    omega

end Page

/-! ## Address spaces -/

/-- Pages that do not overlap, with their physical addresses and flags. -/
structure Space where
  pages : Page → Option (ℕ × PTFlags)
  apart : ∀ P Q, pages P ≠ none → pages Q ≠ none → P ≠ Q → Disjoint P.addresses Q.addresses

namespace Space

variable {A : Space} {P : Page}

@[ext]
theorem ext {A B : Space} (h : ∀ P, A.pages P = B.pages P) : A = B := by
  cases A
  cases B
  cases funext h
  rfl

/-- The page overlaps with none. -/
def Free (A : Space) (P : Page) : Prop :=
  ∀ Q, A.pages Q ≠ none → Disjoint P.addresses Q.addresses

/-- With one more page. -/
def insert (A : Space) (P : Page) (x : ℕ × PTFlags) (hfree : A.Free P) : Space where
  pages := Function.update A.pages P (some x)
  apart := by
    intro Q R hQ hR hne
    by_cases hQP : Q = P
    · subst hQP
      rw [Function.update_of_ne (Ne.symm hne)] at hR
      exact hfree R hR
    · rw [Function.update_of_ne hQP] at hQ
      by_cases hRP : R = P
      · subst hRP
        exact (hfree Q hQ).symm
      · rw [Function.update_of_ne hRP] at hR
        exact A.apart Q R hQ hR hne

/-- Without a page. -/
def erase (A : Space) (P : Page) : Space where
  pages := Function.update A.pages P none
  apart := by
    have hmem : ∀ Q, Function.update A.pages P none Q ≠ none → A.pages Q ≠ none := by
      intro Q hQ
      by_cases hQP : Q = P
      · subst hQP
        rw [Function.update_self] at hQ
        exact absurd rfl hQ
      · rwa [Function.update_of_ne hQP] at hQ
    intro Q R hQ hR hne
    exact A.apart Q R (hmem Q hQ) (hmem R hR) hne

/-- The address is in a page, and this is what it stands for. -/
def Translates (A : Space) (a : ℕ) (x : ℕ × PTFlags) : Prop :=
  ∃ P y, A.pages P = some y ∧ a ∈ P.addresses ∧ x = (y.1 + (a - P.start), y.2)

/-- The flags a page is given: those that were asked for. -/
def Granted (flags given : PTFlags) : Prop :=
  given.bits &&& flagP = flagP ∧ given.bits &&& leafMask = flags.bits &&& leafMask

/-- `map`. -/
inductive Map (A : Space) (virt phys : ℕ) (flags : PTFlags) (size : PageSize) :
    Except MapError Unit → Space → Prop
  | nonCanonical : isCanonical virt = false → Map A virt phys flags size (.error .nonCanonical) A
  | misaligned : isCanonical virt = true → virt % size.bytes ≠ 0 ∨ phys % size.bytes ≠ 0 →
      Map A virt phys flags size (.error .misaligned) A
  | alreadyMapped (P : Page) : P.start = virt → P.size = size → phys % size.bytes = 0 →
      ¬ A.Free P → Map A virt phys flags size (.error .alreadyMapped) A
  | outOfMemory (P : Page) : P.start = virt → P.size = size → phys % size.bytes = 0 →
      A.Free P → Map A virt phys flags size (.error .outOfMemory) A
  | mapped (P : Page) (given : PTFlags) (hfree : A.Free P) : P.start = virt → P.size = size →
      phys % size.bytes = 0 → phys < 2 ^ 52 → Granted flags given →
      Map A virt phys flags size (.ok ()) (A.insert P (phys, given) hfree)

/-- `unmap`. -/
inductive Unmap (A : Space) (virt : ℕ) (size : PageSize) : Except UnmapError Unit → Space → Prop
  | nonCanonical : isCanonical virt = false → Unmap A virt size (.error .nonCanonical) A
  | misaligned : isCanonical virt = true → virt % size.bytes ≠ 0 →
      Unmap A virt size (.error .misaligned) A
  | notMapped (P : Page) : P.start = virt → P.size = size → A.pages P = none →
      Unmap A virt size (.error .notMapped) A
  | unmapped (P : Page) : P.start = virt → P.size = size → A.pages P ≠ none →
      Unmap A virt size (.ok ()) (A.erase P)

/-- The first `n` turns of a loop. -/
inductive Turns (turn : ℕ → Space → Space → Prop) (A : Space) : ℕ → Space → Prop
  | zero : Turns turn A 0 A
  | succ {n : ℕ} {B C : Space} : Turns turn A n B → turn n B C → Turns turn A (n + 1) C

/-- `map_range`: all pages, or none. -/
def MapRange (A : Space) (virt phys pages : ℕ) (flags : PTFlags) (size : PageSize)
    (r : Except MapError Unit) (A' : Space) : Prop :=
  let turn := fun j B C =>
    Map B (virt + j * size.bytes) (phys + j * size.bytes) flags size (.ok ()) C
  (r = .ok () ∧ Turns turn A pages A') ∨
    ∃ e, r = .error e ∧ A' = A ∧ ∃ j < pages, ∃ B, Turns turn A j B ∧
      Map B (virt + j * size.bytes) (phys + j * size.bytes) flags size (.error e) B

/-- `unmap_range`: page by page, until one is not there. -/
def UnmapRange (A : Space) (virt pages : ℕ) (size : PageSize) (r : Except UnmapError Unit)
    (A' : Space) : Prop :=
  let turn := fun j B C => Unmap B (virt + j * size.bytes) size (.ok ()) C
  (r = .ok () ∧ Turns turn A pages A') ∨
    ∃ e, r = .error e ∧ ∃ j < pages, Turns turn A j A' ∧
      Unmap A' (virt + j * size.bytes) size (.error e) A'

theorem Map.eq_of_error {A B : Space} {virt phys : ℕ} {flags : PTFlags} {size : PageSize}
    {e : MapError} (h : A.Map virt phys flags size (.error e) B) : B = A := by
  cases h <;> rfl

theorem Unmap.eq_of_error {A B : Space} {virt : ℕ} {size : PageSize} {e : UnmapError}
    (h : A.Unmap virt size (.error e) B) : B = A := by
  cases h <;> rfl

end Space

/-! ## The address space of the tables -/

/-- What the tables say about a page. -/
def pageLeaf [X86] (s : Vm) (P : Page) : Option (ℕ × PTFlags) :=
  (walk s P.path).bind fun x =>
    if x.1 = pageLevel P.size then some (frameOf x.2 * 4096, X86.ptTruncate x.2) else none

section

variable [X86] {s s' : Vm} {P Q : Page} {a : ℕ}

theorem pageLeaf_eq_some_iff {y : ℕ × PTFlags} : pageLeaf s P = some y ↔
    ∃ w, walk s P.path = some (pageLevel P.size, w) ∧
      y = (frameOf w * 4096, X86.ptTruncate w) := by
  unfold pageLeaf
  rw [Option.bind_eq_some_iff]
  constructor
  · rintro ⟨⟨l, w⟩, hw, hy⟩
    split at hy
    · rename_i hl
      cases hl
      exact ⟨w, hw, (Option.some.inj hy).symm⟩
    · cases hy
  · rintro ⟨w, hw, rfl⟩
    exact ⟨(pageLevel P.size, w), hw, if_pos rfl⟩

theorem pageLeaf_ne_none_iff :
    pageLeaf s P ≠ none ↔ ∃ w, walk s P.path = some (pageLevel P.size, w) := by
  rw [Option.ne_none_iff_exists']
  constructor
  · rintro ⟨y, hy⟩
    obtain ⟨w, hw, -⟩ := pageLeaf_eq_some_iff.1 hy
    exact ⟨w, hw⟩
  · rintro ⟨w, hw⟩
    exact ⟨_, pageLeaf_eq_some_iff.2 ⟨w, hw, rfl⟩⟩

theorem pageLeaf_congr (h : walk s' P.path = walk s P.path) : pageLeaf s' P = pageLeaf s P := by
  unfold pageLeaf
  rw [h]

/-- A leaf ends the walk, so that there is no page inside a page. -/
theorem eq_of_isPrefix (hP : pageLeaf s P ≠ none) (hQ : pageLeaf s Q ≠ none)
    (hpre : P.path <+: Q.path) : P = Q := by
  obtain ⟨w, hw⟩ := pageLeaf_ne_none_iff.1 hP
  obtain ⟨w', hw'⟩ := pageLeaf_ne_none_iff.1 hQ
  obtain ⟨r, hr⟩ := hpre
  have hbelow : walk s (P.path ++ r) = _ := Radix.walk_append_of_some hw r
  rw [hr, hw'] at hbelow
  have hlevel : pageLevel Q.size = pageLevel P.size :=
    congrArg Prod.fst (Option.some.inj hbelow)
  refine Page.eq_of_path_eq (List.IsPrefix.eq_of_length ⟨r, hr⟩ ?_)
  have hp := P.path_length
  have hq := Q.path_length
  omega

/-- The address space that the tables stand for. -/
def spaceOf (s : Vm) : Space where
  pages := pageLeaf s
  apart := by
    intro P Q hP hQ hne
    rw [Set.disjoint_left]
    intro a haP haQ
    rcases Page.prefix_or_prefix haP haQ with hpre | hpre
    · exact hne (eq_of_isPrefix hP hQ hpre)
    · exact hne (eq_of_isPrefix hQ hP hpre).symm

theorem spaceOf_congr (h : ∀ q, walk s' q = walk s q) : spaceOf s' = spaceOf s :=
  Space.ext fun _ => pageLeaf_congr (h _)

/-! ## Translations -/

omit [X86] in
/-- The leaf that translates an address is that of a page around it. -/
theorem exists_page_of_walk (hcan : isCanonical a = true) {l : ℕ} {w : Word}
    (h : walk s (pagePath a .base) = some (l, w)) :
    ∃ P : Page, a ∈ P.addresses ∧ walk s P.path = some (pageLevel P.size, w) ∧
      pageLevel P.size = l := by
  -- the PML4 has no leaves
  obtain ⟨size, hsize⟩ : ∃ size, pageLevel size = l := by
    obtain ⟨p, i, r, n, -, hp, hk, hlevel, -⟩ := Radix.exists_of_walk h
    have hne : p.length ≠ 0 := by
      intro hzero
      rw [hzero] at hk
      exact kind_three_ne_leaf _ hk
    obtain rfl | rfl | rfl : l = 0 ∨ l = 1 ∨ l = 2 := by omega
    · exact ⟨.base, rfl⟩
    · exact ⟨.large, rfl⟩
    · exact ⟨.huge, rfl⟩
  obtain ⟨P, hP, ha⟩ := Page.exists_mem hcan size
  have hlen : (pagePath a P.size).length = P.path.length := by
    have h₁ := length_pagePath a P.size
    have h₂ := pagePath_length_le a P.size
    have h₃ := P.path_length
    omega
  have hpath : pagePath a P.size = P.path :=
    (List.prefix_of_prefix_length_le (pagePath_isPrefix a P.size)
      ((Page.path_isPrefix_iff hcan).2 ha) hlen.le).eq_of_length hlen
  have htrans : TranslatedBy s a P.size := ⟨w, by rw [h, hP, hsize]⟩
  obtain ⟨w', hw'⟩ := translatedBy_iff.1 htrans
  rw [hpath, P.level_eq] at hw'
  -- it is the same leaf
  obtain ⟨r, hr⟩ := (Page.path_isPrefix_iff hcan).2 ha
  have hsame : walk s (P.path ++ r) = _ := Radix.walk_append_of_some hw' r
  rw [hr, h] at hsame
  have hww : w = w' := congrArg Prod.snd (Option.some.inj hsame)
  exact ⟨P, ha, hww ▸ hw', by rw [hP, hsize]⟩

/-- `translate` finds what the address space says. -/
theorem translation_eq_some_iff {x : ℕ × PTFlags} :
    translation s a = some x ↔ (spaceOf s).Translates a x := by
  constructor
  · intro h
    have hcan := isCanonical_of_translation h
    unfold translation at h
    rw [if_pos hcan] at h
    obtain ⟨⟨l, w⟩, hw, hx⟩ := Option.map_eq_some_iff.1 h
    obtain ⟨P, ha, hP, rfl⟩ := exists_page_of_walk hcan hw
    refine ⟨P, _, pageLeaf_eq_some_iff.2 ⟨w, hP, rfl⟩, ha, ?_⟩
    rw [← hx]
    refine Prod.ext ?_ rfl
    change frameOf w * 4096 + a % 2 ^ (12 + 9 * pageLevel P.size) = _
    rw [← bytes_eq, InPage.mod_eq ha P.aligned]
  · rintro ⟨P, y, hy, ha, rfl⟩
    obtain ⟨w, hw, rfl⟩ := pageLeaf_eq_some_iff.1 hy
    have hbelow : ∀ r, walk s (pagePath P.start P.size ++ r) = some (pageLevel P.size, w) :=
      fun r => Radix.walk_append_of_some hw r
    rw [translation_of_inPage P.canonical P.aligned hbelow ha, Option.map_some]
    refine congrArg some (Prod.ext ?_ rfl)
    change frameOf w * 4096 + a % 2 ^ (12 + 9 * pageLevel P.size) = _
    rw [← bytes_eq, InPage.mod_eq ha P.aligned]

/-- Without empty tables, the pages that can be mapped are those that overlap with none. -/
theorem free_iff_not_occupied (hno : NoEmpty s) : (spaceOf s).Free P ↔ ¬ Occupied s P.path := by
  unfold Page.path
  rw [occupied_iff hno P.canonical P.aligned]
  constructor
  · rintro hfree ⟨a, ha, htrans⟩
    obtain ⟨x, hx⟩ := Option.ne_none_iff_exists'.1 htrans
    obtain ⟨Q, y, hQ, haQ, -⟩ := translation_eq_some_iff.1 hx
    have hmapped : (spaceOf s).pages Q ≠ none := by
      rw [hQ]
      exact Option.some_ne_none y
    exact Set.disjoint_left.1 (hfree Q hmapped) ha haQ
  · intro hnone Q hQ
    rw [Set.disjoint_left]
    intro a haP haQ
    obtain ⟨y, hy⟩ := Option.ne_none_iff_exists'.1 hQ
    have htrans := translation_eq_some_iff.2 ⟨Q, y, hy, haQ, rfl⟩
    exact hnone ⟨a, haP, by rw [htrans]; exact Option.some_ne_none _⟩

/-! ## The calls -/

/-- The flags in the entry of a page. -/
theorem granted_leafEntry {phys : ℕ} (flags : PTFlags) {size : PageSize}
    (hmod : phys % size.bytes = 0) (hphys : phys < 2 ^ 52) :
    Space.Granted flags (X86.ptTruncate (leafEntry phys flags size)) := by
  have hin : InPage 0 size 0 := ⟨le_refl 0, Nat.lt_add_of_pos_right (bytes_pos size)⟩
  obtain ⟨f, hview, hgranted⟩ := leafView_leafEntry flags hmod hphys (Nat.zero_mod _) hin
  have hf : X86.ptTruncate (leafEntry phys flags size) = f := congrArg Prod.snd hview
  rw [hf]
  exact hgranted

/-- One more page. -/
theorem spaceOf_mapped {phys : ℕ} {flags : PTFlags} (hmod : phys % P.size.bytes = 0)
    (hphys : phys < 2 ^ 52) (hM : Mapped s s' P.path (leafEntry phys flags P.size))
    (hfree : (spaceOf s).Free P) :
    spaceOf s' = (spaceOf s).insert P
      (phys, X86.ptTruncate (leafEntry phys flags P.size)) hfree := by
  have hbelow := hM.below
  rw [P.level_eq] at hbelow
  refine Space.ext fun Q => ?_
  change pageLeaf s' Q = Function.update (pageLeaf s) P _ Q
  by_cases hQ : Q = P
  · subst hQ
    rw [Function.update_self, pageLeaf_eq_some_iff]
    refine ⟨leafEntry phys flags Q.size, ?_, ?_⟩
    · have hself := hbelow []
      rwa [List.append_nil] at hself
    · rw [frameOf_leafEntry flags hmod hphys]
  · rw [Function.update_of_ne hQ]
    by_cases hpre : P.path <+: Q.path
    · -- inside the page there is no other page, neither before nor after
      have hP : pageLeaf s' P ≠ none := by
        have hself := hbelow []
        rw [List.append_nil] at hself
        exact pageLeaf_ne_none_iff.2 ⟨_, hself⟩
      have hnone' : pageLeaf s' Q = none := by
        by_contra hne
        exact hQ (eq_of_isPrefix hP hne hpre).symm
      have hnone : pageLeaf s Q = none := by
        obtain ⟨r, hr⟩ := hpre
        have hwalk := Radix.walk_append_of_none hM.vacant.1 hM.vacant.2 r
        unfold pageLeaf walk
        rw [← hr, hwalk]
        rfl
      rw [hnone', hnone]
    · exact pageLeaf_congr (hM.other _ hpre)

/-- One page less. -/
theorem spaceOf_unmapped (hP : pageLeaf s P ≠ none) (hU : Unmapped s s' P.path) :
    spaceOf s' = (spaceOf s).erase P := by
  refine Space.ext fun Q => ?_
  change pageLeaf s' Q = Function.update (pageLeaf s) P none Q
  have hgone : ∀ R : Page, P.path <+: R.path → pageLeaf s' R = none := by
    rintro R ⟨r, hr⟩
    unfold pageLeaf
    rw [← hr, hU.below r]
    rfl
  by_cases hQ : Q = P
  · subst hQ
    rw [Function.update_self, hgone Q List.prefix_rfl]
  · rw [Function.update_of_ne hQ]
    by_cases hpre : P.path <+: Q.path
    · rw [hgone Q hpre]
      by_contra hne
      exact hQ (eq_of_isPrefix hP (Ne.symm hne) hpre).symm
    · exact pageLeaf_congr (hU.other _ hpre)

variable {init : List ℕ} {others : List (ℕ × ℕ)} {virt phys pages : ℕ} {flags : PTFlags}
  {size : PageSize}

/-- The address is looked at first. -/
theorem map_of_nonCanonical (h : isCanonical virt = false) :
    (map virt phys flags size).run s = .ok (.error .nonCanonical) s := by
  unfold map
  rw [if_pos (by simp [h])]
  rfl

/-- The arguments are looked at first. -/
theorem unmap_checked {r : Except UnmapError Unit} (h : (unmap virt size).run s = .ok r s') :
    isCanonical virt = false ∧ r = .error .nonCanonical ∨ isCanonical virt = true ∧
      (virt % size.bytes ≠ 0 ∧ r = .error .misaligned ∨ virt % size.bytes = 0) := by
  unfold unmap at h
  by_cases hcan : isCanonical virt = true
  · right
    refine ⟨hcan, ?_⟩
    rw [if_neg (by simp [hcan])] at h
    by_cases hal : virt % size.bytes ≠ 0
    · rw [if_pos hal] at h
      cases h
      exact Or.inl ⟨hal, rfl⟩
    · exact Or.inr (not_not.1 hal)
  · left
    rw [if_pos (by simp [hcan])] at h
    cases h
    exact ⟨Bool.eq_false_iff.2 hcan, rfl⟩

/-- `map` is a step of the address space. -/
theorem spaceOf_map {r : Except MapError Unit} (h : Tidy init others s)
    (hrun : (map virt phys flags size).run s = .ok r s') :
    (spaceOf s).Map virt phys flags size r (spaceOf s') := by
  obtain ⟨⟨held, hT⟩, hno⟩ := h
  obtain ⟨-, -, hpost⟩ := map_of_ok hT hrun
  cases r with
  | ok _ =>
      obtain ⟨⟨hcan, hal, hmod⟩, hphys, hM⟩ := hpost
      have hfree : (spaceOf s).Free ⟨virt, size, hcan, hal⟩ := by
        rw [free_iff_not_occupied hno, Occupied, not_or, not_not, not_not]
        exact hM.vacant
      have hins := spaceOf_mapped (P := ⟨virt, size, hcan, hal⟩) hmod hphys hM hfree
      rw [hins]
      exact .mapped _ _ hfree rfl rfl hmod hphys (granted_leafEntry flags hmod hphys)
  | error e =>
      rw [spaceOf_congr hpost.restored.walks]
      cases e with
      | alreadyMapped =>
          obtain ⟨⟨hcan, hal, hmod⟩, hocc, -⟩ := hpost
          refine .alreadyMapped ⟨virt, size, hcan, hal⟩ rfl rfl hmod ?_
          rw [free_iff_not_occupied hno]
          exact not_not_intro hocc
      | outOfMemory =>
          obtain ⟨-, ⟨⟨hcan, hal, hmod⟩, hvac⟩, -⟩ := hpost
          exact .outOfMemory ⟨virt, size, hcan, hal⟩ rfl rfl hmod
            ((free_iff_not_occupied hno).2 hvac)
      | nonCanonical => exact .nonCanonical hpost.2
      | misaligned =>
          refine .misaligned ?_ hpost.2
          by_contra hcan
          cases hrun.symm.trans (map_of_nonCanonical (Bool.eq_false_iff.2 hcan))

/-- `unmap` is a step of the address space. -/
theorem spaceOf_unmap {r : Except UnmapError Unit} (h : Tidy init others s)
    (hrun : (unmap virt size).run s = .ok r s') :
    (spaceOf s).Unmap virt size r (spaceOf s') := by
  obtain ⟨⟨held, hT⟩, -⟩ := h
  obtain ⟨r', t, held', hrun', -, hpost⟩ := unmap_spec hT virt size
  cases hrun.symm.trans hrun'
  cases r with
  | ok _ =>
      obtain ⟨⟨w, hw⟩, hU⟩ := hpost
      obtain ⟨hcan, hal⟩ := unmap_args hrun
      have hP : pageLeaf s ⟨virt, size, hcan, hal⟩ ≠ none := by
        rw [length_pagePath] at hw
        exact pageLeaf_ne_none_iff.2 ⟨w, hw⟩
      rw [spaceOf_unmapped (P := ⟨virt, size, hcan, hal⟩) hP hU]
      exact .unmapped ⟨virt, size, hcan, hal⟩ rfl rfl hP
  | error e =>
      have hargs := unmap_checked hrun
      cases e with
      | notMapped =>
          obtain ⟨rfl, hnone⟩ := hpost
          obtain ⟨-, hr⟩ | ⟨hcan, ⟨-, hr⟩ | hal⟩ := hargs
          · cases hr
          · cases hr
          · refine .notMapped ⟨virt, size, hcan, hal⟩ rfl rfl ?_
            by_contra hne
            obtain ⟨w, hw⟩ := pageLeaf_ne_none_iff.1 hne
            exact hnone w (by rw [length_pagePath]; exact hw)
      | nonCanonical =>
          obtain ⟨rfl, hcan⟩ := hpost
          exact .nonCanonical hcan
      | misaligned =>
          obtain ⟨rfl, hal⟩ := hpost
          obtain ⟨-, hr⟩ | ⟨hcan, -⟩ := hargs
          · cases hr
          · exact .misaligned hcan hal

/-- The loop of `unmap_range`. -/
theorem unmapPages_space {A : Space} : ∀ {k i : ℕ} {t s' : Vm} {r : Except UnmapError Unit},
    i + k = pages → Tidy init others t →
    Space.Turns (fun j B C => B.Unmap (virt + j * size.bytes) size (.ok ()) C) A i (spaceOf t) →
    (unmapPages virt size k i).run t = .ok r s' →
    A.UnmapRange virt pages size r (spaceOf s') := by
  intro k
  induction k with
  | zero =>
      intro i t s' r hi _ hturns hrun
      cases hrun
      exact Or.inl ⟨rfl, hi ▸ hturns⟩
  | succ k ih =>
      intro i t s' r hi htidy hturns hrun
      obtain ⟨res, t₁, hcall, ⟨rfl, hrest⟩ | ⟨e, rfl, rfl, rfl⟩⟩ := unmapPages_turn hrun
      · exact ih (by omega) (htidy.unmap hcall) (hturns.succ (spaceOf_unmap htidy hcall)) hrest
      · have hstep := spaceOf_unmap htidy hcall
        have hsame := hstep.eq_of_error
        rw [hsame] at hstep ⊢
        exact Or.inr ⟨e, rfl, i, by omega, hturns, hstep⟩

/-- `unmap_range` is a step of the address space. -/
theorem spaceOf_unmapRange {r : Except UnmapError Unit} (h : Tidy init others s)
    (hrun : (unmapRange virt pages size).run s = .ok r s') :
    (spaceOf s).UnmapRange virt pages size r (spaceOf s') :=
  unmapPages_space (Nat.zero_add pages) h .zero hrun

/-- The loop of `map_range`: the pages that were mapped are there, or were unmapped again. -/
theorem mapPages_space (h : Tidy init others s) :
    ∀ {k i : ℕ} {t s' : Vm} {r : Except MapError Unit}, i + k = pages → Tidy init others t →
    LaidRange init others s t virt phys flags size i →
    Space.Turns (fun j B C => B.Map (virt + j * size.bytes) (phys + j * size.bytes) flags size
      (.ok ()) C) (spaceOf s) i (spaceOf t) →
    (mapPages virt phys flags size k i).run t = .ok r s' →
    (spaceOf s).MapRange virt phys pages flags size r (spaceOf s') := by
  intro k
  induction k with
  | zero =>
      intro i t s' r hi _ _ hturns hrun
      cases hrun
      exact Or.inl ⟨rfl, hi ▸ hturns⟩
  | succ k ih =>
      intro i t s' r hi htidy hlaid hturns hrun
      obtain ⟨res, t₁, hcall, ⟨rfl, hrest⟩ | ⟨e, rfl, rfl, hundo⟩⟩ := mapPages_turn hrun
      · exact ih (by omega) (htidy.map hcall) ((hlaid.turn hcall).1 rfl)
          (hturns.succ (spaceOf_map htidy hcall)) hrest
      · have hstep := spaceOf_map htidy hcall
        rw [hstep.eq_of_error] at hstep
        -- the pages before this one are unmapped
        have hlaid₁ := (hlaid.turn hcall).2 e rfl
        obtain ⟨held₁, hT₁⟩ := hlaid₁.tree
        obtain ⟨held', hT', hC⟩ := unmapBefore_cleared hT₁ hlaid₁.pagesAt hundo
        obtain ⟨⟨held, hT⟩, hno⟩ := h
        have hback := spaceOf_congr (hlaid₁.undone hno hT hT' hC).1
        exact Or.inr ⟨e, rfl, hback, i, by omega, spaceOf t, hturns, hstep⟩

/-- `map_range` is a step of the address space. -/
theorem spaceOf_mapRange {r : Except MapError Unit} (h : Tidy init others s)
    (hrun : (mapRange virt phys pages flags size).run s = .ok r s') :
    (spaceOf s).MapRange virt phys pages flags size r (spaceOf s') := by
  obtain ⟨held, hT⟩ := h.1
  exact mapPages_space h (Nat.zero_add pages) h (LaidRange.zero hT) .zero hrun

end

end Prometheos.Vmm
