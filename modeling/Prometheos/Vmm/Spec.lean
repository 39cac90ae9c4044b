import Prometheos.Vmm.Edits

/-!
# What the virtual memory manager does

* `map_run`: `map` maps exactly the page it was asked for, or leaves the tables as they
  were; it stops only at a free page for which the physical address is too wide;
* `unmap_spec`: `unmap` ends, and it unmaps exactly the page it was asked for, or changes
  nothing;
* `translate_spec`: `translate` follows the indices of the address.
-/

namespace Prometheos.Vmm

open Pmm
open Radix (Kind)

/-! ## Pages -/

/-- The index of an address on a level. -/
def idx (l virt : ℕ) : Fin 512 := ⟨virt / 2 ^ (12 + 9 * l) % 512, Nat.mod_lt _ (by decide)⟩

/-- The path of the page that contains an address. -/
def pagePath (virt : ℕ) : PageSize → List (Fin 512)
  | .huge => [idx 3 virt, idx 2 virt]
  | .large => [idx 3 virt, idx 2 virt, idx 1 virt]
  | .base => [idx 3 virt, idx 2 virt, idx 1 virt, idx 0 virt]

theorem pagePath_head (virt : ℕ) (size : PageSize) : [idx 3 virt] <+: pagePath virt size := by
  cases size with
  | base => exact ⟨_, rfl⟩
  | large => exact ⟨_, rfl⟩
  | huge => exact ⟨_, rfl⟩

theorem one_lt_pagePath (virt : ℕ) (size : PageSize) : 1 < (pagePath virt size).length := by
  cases size with
  | base => exact (by decide : 1 < 4)
  | large => exact (by decide : 1 < 3)
  | huge => exact (by decide : 1 < 2)

theorem dvd_bytes (size : PageSize) : 4096 ∣ size.bytes := by
  cases size with
  | base => exact ⟨1, rfl⟩
  | large => exact ⟨2 ^ 9, rfl⟩
  | huge => exact ⟨2 ^ 18, rfl⟩

/-- The flags `map` gives to a page. -/
def leafFlags [X86] (flags : PTFlags) : PageSize → Word
  | .huge => pdptLeaf flags
  | .large => pdLeaf flags
  | .base => flags.bits ||| flagP

/-- The entry `map` writes for a page. -/
def leafEntry [X86] (phys : ℕ) (flags : PTFlags) (size : PageSize) : Word :=
  BitVec.ofNat 64 phys ||| leafFlags flags size

/-- The number of tables that are missing on the way to the last entry of a path. -/
def missing (s : Vm) (p : List (Fin 512)) : ℕ :=
  (List.range p.length).countP fun k => tableAt s (p.take k) = none

section

variable {s : Vm} {p q : List (Fin 512)}

theorem tableAt_eq_none_of_isPrefix (hpre : q <+: p) (h : tableAt s q = none) :
    tableAt s p = none := by
  rcases hpre with ⟨r, rfl⟩
  rw [Option.eq_none_iff_forall_ne_some]
  intro g hg
  rcases Radix.tableAt_of_append hg with ⟨n, hn, -⟩
  exact Option.some_ne_none n (hn.symm.trans h)

/-- All tables below a missing one are missing. -/
theorem le_missing (hpre : q <+: p) (h : tableAt s q = none) :
    p.length - q.length ≤ missing s p := by
  have hlen := hpre.length_le
  have hall : ∀ k ∈ List.range' q.length (p.length - q.length),
      tableAt s (p.take k) = none := by
    intro k hk
    rw [List.mem_range'_1] at hk
    refine tableAt_eq_none_of_isPrefix ?_ h
    rw [List.prefix_iff_eq_take] at hpre
    rw [hpre]
    exact (List.take_prefix_take_left (by omega))
  have hsplit : List.range p.length =
      List.range' 0 q.length ++ List.range' q.length (p.length - q.length) := by
    have happ := List.range'_append_1 (s := 0) (m := q.length) (n := p.length - q.length)
    rw [Nat.zero_add, Nat.add_sub_cancel' hlen] at happ
    rw [List.range_eq_range', happ]
  unfold missing
  rw [hsplit, List.countP_append]
  have hcount : (List.range' q.length (p.length - q.length)).countP
      (fun k => tableAt s (p.take k) = none) = p.length - q.length := by
    rw [List.countP_eq_length.2 (by simpa using hall), List.length_range']
  omega

end

/-! ## `translate` -/

/-- The pointers to the tables do not overflow. -/
structure Readable (s : Vm) : Prop where
  hhdm_eq : s.hhdmOffset = s.phys.pmm.hhdmOffset
  top_eq : s.topLevel = root s * frameSize
  ptr_lt : ∀ p f, tableAt s p = some f → blockPtr s.hhdmOffset f < 2 ^ 64

/-- The physical address and the flags of an address that is mapped by the leaf `w` of
level `l`. -/
def leafView [X86] (virt : ℕ) : ℕ × Word → ℕ × PTFlags
  | (l, w) => (frameOf w * 4096 + virt % 2 ^ (12 + 9 * l), X86.ptTruncate w)

/-- What an address translates to. -/
def translation [X86] (s : Vm) (virt : ℕ) : Option (ℕ × PTFlags) :=
  if isCanonical virt then (walk s (pagePath virt .base)).map (leafView virt) else none

section

variable [X86] {s : Vm} {virt : ℕ}

/-- The crate's indices are those of the paths. -/
theorem pml4Index_eq (virt : ℕ) : X86.pml4Index virt = (idx 3 virt : ℕ) := X86.pml4Index_eq virt

theorem pdptIndex_eq (virt : ℕ) : X86.pdptIndex virt = (idx 2 virt : ℕ) := X86.pdptIndex_eq virt

theorem pdIndex_eq (virt : ℕ) : X86.pdIndex virt = (idx 1 virt : ℕ) := X86.pdIndex_eq virt

theorem ptIndex_eq (virt : ℕ) : X86.ptIndex virt = (idx 0 virt : ℕ) := X86.ptIndex_eq virt

theorem translateLeaf_spec (virt : ℕ) (w : Word) {l : ℕ} (hl : l ≤ 2) (s : Vm) :
    (translateLeaf virt w (2 ^ (12 + 9 * l))).run s = .ok (some (leafView virt (l, w))) s := by
  have haddr : X86.address w = frameOf w * 4096 := by
    rw [X86.address_eq, toNat_and_addrMask]
  have hoff : virt % 2 ^ (12 + 9 * l) < 2 ^ 30 :=
    (Nat.mod_lt _ (Nat.two_pow_pos _)).trans_le (Nat.pow_le_pow_right (by decide) (by omega))
  have hframe := frameOf_lt w
  have hlt : frameOf w * 4096 + virt % 2 ^ (12 + 9 * l) < 2 ^ 64 := by omega
  unfold translateLeaf
  rw [haddr, Nat.and_two_pow_sub_one_eq_mod, Prog.bind_of_ok (addU64_of_lt hlt s)]
  rfl

/-- `translate` from the PT on. -/
theorem translatePt_spec (hR : Readable s) {pt : ℕ}
    (hp : tableAt s [idx 3 virt, idx 2 virt, idx 1 virt] = some pt) :
    (translatePt virt s.hhdmOffset (pt * frameSize)).run s =
      .ok ((walk s (pagePath virt .base)).map (leafView virt)) s := by
  have hread := readEntry_slot (f := pt) hR.hhdm_eq.symm (idx 0 virt).isLt
  unfold translatePt
  rw [ptIndex_eq, Prog.bind_of_ok (entrySlot_frame (hR.ptr_lt _ _ hp) (idx 0 virt).isLt s),
    Prog.bind_of_ok hread]
  cases hk : kind 0 (s.phys.mem pt (idx 0 virt)) with
  | table f => exact absurd hk (kind_zero_ne_table _ f)
  | absent =>
      have hwalk : walk s (pagePath virt .base) = none := walk_append_absent hp hk []
      rw [if_neg (not_isPresent hk), hwalk]
      rfl
  | leaf =>
      have hwalk : walk s (pagePath virt .base) = some (0, _) := walk_append_leaf hp hk []
      rw [if_pos (isPresent_of_leaf hk), hwalk]
      exact translateLeaf_spec virt _ (Nat.zero_le 2) s

/-- `translate` from the PD on. -/
theorem translatePd_spec (hR : Readable s) {pd : ℕ}
    (hp : tableAt s [idx 3 virt, idx 2 virt] = some pd) :
    (translatePd virt s.hhdmOffset (pd * frameSize)).run s =
      .ok ((walk s (pagePath virt .base)).map (leafView virt)) s := by
  have hread := readEntry_slot (f := pd) hR.hhdm_eq.symm (idx 1 virt).isLt
  unfold translatePd
  rw [pdIndex_eq, Prog.bind_of_ok (entrySlot_frame (hR.ptr_lt _ _ hp) (idx 1 virt).isLt s),
    Prog.bind_of_ok hread]
  cases hk : kind 1 (s.phys.mem pd (idx 1 virt)) with
  | absent =>
      have hwalk : walk s (pagePath virt .base) = none :=
        walk_append_absent hp hk [idx 0 virt]
      rw [if_neg (not_isPresent hk), hwalk]
      rfl
  | leaf =>
      have hwalk : walk s (pagePath virt .base) = some (1, _) :=
        walk_append_leaf hp hk [idx 0 virt]
      rw [if_pos (isPresent_of_leaf hk), if_pos (isPage_of_leaf (le_refl 1) hk), hwalk]
      exact translateLeaf_spec virt _ (show 1 ≤ 2 by decide) s
  | table pt =>
      rw [if_pos (isPresent_of_table hk), if_neg (not_isPage_of_table (by decide) hk),
        address_of_table hk]
      exact translatePt_spec hR (tableAt_snoc_iff.2 ⟨pd, hp, hk⟩)

/-- `translate` from the PDPT on. -/
theorem translatePdpt_spec (hR : Readable s) {pdpt : ℕ}
    (hp : tableAt s [idx 3 virt] = some pdpt) :
    (translatePdpt virt s.hhdmOffset (pdpt * frameSize)).run s =
      .ok ((walk s (pagePath virt .base)).map (leafView virt)) s := by
  have hread := readEntry_slot (f := pdpt) hR.hhdm_eq.symm (idx 2 virt).isLt
  unfold translatePdpt
  rw [pdptIndex_eq, Prog.bind_of_ok (entrySlot_frame (hR.ptr_lt _ _ hp) (idx 2 virt).isLt s),
    Prog.bind_of_ok hread]
  cases hk : kind 2 (s.phys.mem pdpt (idx 2 virt)) with
  | absent =>
      have hwalk : walk s (pagePath virt .base) = none :=
        walk_append_absent hp hk [idx 1 virt, idx 0 virt]
      rw [if_neg (not_isPresent hk), hwalk]
      rfl
  | leaf =>
      have hwalk : walk s (pagePath virt .base) = some (2, _) :=
        walk_append_leaf hp hk [idx 1 virt, idx 0 virt]
      rw [if_pos (isPresent_of_leaf hk), if_pos (isPage_of_leaf (by decide) hk), hwalk]
      exact translateLeaf_spec virt _ (le_refl 2) s
  | table pd =>
      rw [if_pos (isPresent_of_table hk), if_neg (not_isPage_of_table (le_refl 2) hk),
        address_of_table hk]
      exact translatePd_spec hR (tableAt_snoc_iff.2 ⟨pdpt, hp, hk⟩)

/-- `translate` follows the indices of the address. -/
theorem translate_spec (hR : Readable s) (virt : ℕ) :
    (translate virt).run s = .ok (translation s virt) s := by
  unfold translate translation
  by_cases hcan : isCanonical virt = true
  · have hread := readEntry_slot (f := root s) hR.hhdm_eq.symm (idx 3 virt).isLt
    rw [if_pos hcan, if_pos hcan, Prog.gets_bind, Prog.gets_bind, pml4Index_eq, hR.top_eq,
      Prog.bind_of_ok (entrySlot_frame (hR.ptr_lt _ _ (tableAt_nil s)) (idx 3 virt).isLt s),
      Prog.bind_of_ok hread]
    cases hk : kind 3 (s.phys.mem (root s) (idx 3 virt)) with
    | absent =>
        have hwalk : walk s (pagePath virt .base) = none :=
          walk_append_absent (tableAt_nil s) hk [idx 2 virt, idx 1 virt, idx 0 virt]
        rw [if_neg (not_isPresent hk), hwalk]
        rfl
    | leaf => exact absurd hk (kind_three_ne_leaf _)
    | table pdpt =>
        rw [if_pos (isPresent_of_table hk), address_of_table hk]
        exact translatePdpt_spec hR (tableAt_snoc_iff.2 ⟨root s, tableAt_nil s, hk⟩)
  · rw [if_neg hcan, if_neg hcan]
    rfl

end

/-! ## `map` -/

/-- The arguments are accepted. -/
def Accepted (virt phys : ℕ) (size : PageSize) : Prop :=
  isCanonical virt = true ∧ virt % size.bytes = 0 ∧ phys % size.bytes = 0

/-- A call of `map` that only a lack of frames can make fail. -/
def Vacant (s : Vm) (virt phys : ℕ) (size : PageSize) : Prop :=
  Accepted virt phys size ∧ ¬ Occupied s (pagePath virt size)

/-- There are frames for some of the tables that are missing, but not for all. -/
def Short (s : Vm) (p : List (Fin 512)) : Prop :=
  0 < s.phys.pmm.freeFrames ∧ s.phys.pmm.freeFrames < missing s p

/-- The outcomes of `map`. -/
def MapPost [X86] (s : Vm) (virt phys : ℕ) (flags : PTFlags) (size : PageSize) :
    Except MapError Unit → Vm → Prop
  | .ok (), s' => Accepted virt phys size ∧ phys < 2 ^ 52 ∧
      Mapped s s' (pagePath virt size) (leafEntry phys flags size)
  | .error .alreadyMapped, s' => Accepted virt phys size ∧ Occupied s (pagePath virt size) ∧ s' = s
  | .error .outOfMemory, s' => Restored s s' ∧ Vacant s virt phys size ∧
      s.phys.pmm.freeFrames < missing s (pagePath virt size) ∧
      (s' = s ∨ Short s (pagePath virt size))
  | .error .nonCanonical, s' => s' = s ∧ isCanonical virt = false
  | .error .misaligned, s' => s' = s ∧ (virt % size.bytes ≠ 0 ∨ phys % size.bytes ≠ 0)

/-- How a call of `map` in the state `s` ends: it returns, or the page is free and the physical
address does not fit into an entry. -/
def MapEnds [X86] (init : List ℕ) (others : List (ℕ × ℕ)) (s : Vm) (virt phys : ℕ)
    (flags : PTFlags) (size : PageSize) (o : Outcome Fault Vm (Except MapError Unit)) : Prop :=
  (∃ r s' held', o = .ok r s' ∧ Tree init others s' held' ∧ Moved s [] s' [] ∧
    MapPost s virt phys flags size r s') ∨
  (Vacant s virt phys size ∧ 2 ^ 52 ≤ phys ∧ ∃ e s', o = .stop e s')

section

variable {s s₁ s₂ : Vm}

/-- The frames there were when one table could be created. -/
theorem freeFrames_eq_one {p : List (Fin 512)} {n f : ℕ} {i : Fin 512} (hI : Inv s.phys)
    (h : Installed s s₁ p n i f) (hempty : freeSet s₁.phys = ∅) : s.phys.pmm.freeFrames = 1 := by
  have hset : freeSet s.phys = {f} := by
    rw [h.free_eq, Set.sdiff_eq_empty] at hempty
    exact hempty.antisymm (Set.singleton_subset_iff.2 h.fresh)
  rw [hI.count, hset, Set.ncard_singleton]

/-- The frames there were when two tables could be created. -/
theorem freeFrames_eq_two {p p' : List (Fin 512)} {n n' f f' : ℕ} {i i' : Fin 512}
    (hI : Inv s.phys) (h : Installed s s₁ p n i f) (h' : Installed s₁ s₂ p' n' i' f')
    (hempty : freeSet s₂.phys = ∅) : s.phys.pmm.freeFrames = 2 := by
  have hset₁ : freeSet s₁.phys = {f'} := by
    rw [h'.free_eq, Set.sdiff_eq_empty] at hempty
    exact hempty.antisymm (Set.singleton_subset_iff.2 h'.fresh)
  have hfresh := h'.fresh
  rw [h.free_eq] at hfresh
  have hset : freeSet s.phys = {f, f'} := by
    rw [h.free_eq] at hset₁
    ext g
    constructor
    · intro hg
      by_cases hgf : g = f
      · exact Or.inl hgf
      · exact Or.inr (hset₁ ▸ (⟨hg, hgf⟩ : g ∈ freeSet s.phys \ {f}))
    · rintro (rfl | rfl)
      · exact h.fresh
      · exact hfresh.1
  rw [hI.count, hset, Set.ncard_pair fun heq => hfresh.2 heq.symm]

end

section

variable [X86] {init held : List ℕ} {others : List (ℕ × ℕ)} {s s₁ s₂ : Vm} {virt phys : ℕ}
  {flags : PTFlags} {size : PageSize}

omit [X86] in
/-- A page starts at a frame. -/
theorem mod_frame_of_mod_bytes (hmod : phys % size.bytes = 0) : phys % 4096 = 0 :=
  Nat.mod_eq_zero_of_dvd ((dvd_bytes size).trans (Nat.dvd_of_mod_eq_zero hmod))

/-- The entry that `map` writes is a leaf on the level of its table. -/
theorem kind_leafEntry (virt : ℕ) (flags : PTFlags) (hmod : phys % size.bytes = 0) :
    kind (4 - (pagePath virt size).length) (leafEntry phys flags size) = .leaf := by
  have hpage := mod_frame_of_mod_bytes hmod
  cases size with
  | base => exact kind_ptEntry flags hpage
  | large => exact kind_leafEntry_of_le _ (show 1 ≤ 2 by decide) hpage
  | huge => exact kind_leafEntry_of_le _ (show 2 ≤ 2 by decide) hpage

/-- The last step of `map`, after tables were added. -/
theorem mapLeaf_post (flags : PTFlags) (i : Fin 512) {p : List (Fin 512)} {n : ℕ}
    (hacc : Accepted virt phys size) (hpath : p ++ [i] = pagePath virt size) (hG : Grown s s₁)
    (hM : Moved s [] s₁ p) (hT : Tree init others s₁ held) (hp : tableAt s₁ p = some n)
    (hold : s₁ = s ∨ ∀ j : Fin 512, s₁.phys.mem n j = 0) :
    MapEnds init others s virt phys flags size ((do
      let slot ← entrySlot (n * frameSize) i s.hhdmOffset
      mapLeaf virt slot phys (leafFlags flags size) : Run Vm (Except MapError Unit)).run s₁) := by
  have hleaf : kind (3 - p.length) (leafEntry phys flags size) = .leaf := by
    have hkind := kind_leafEntry virt flags hacc.2.2
    rw [← hpath, List.length_append, List.length_singleton] at hkind
    exact (Nat.add_sub_add_right 3 1 p.length) ▸ hkind
  have hok := hT.ptr_ok hp
  rw [hG.hhdm] at hok
  rw [Prog.bind_of_ok (entrySlot_frame hok.2 i.isLt s₁), ← hG.hhdm]
  by_cases hk : kind (3 - p.length) (s₁.phys.mem n i) = .absent
  · rcases Nat.lt_or_ge phys (2 ^ 52) with hphys | hphys
    · left
      rcases mapLeaf_spec virt hT hp hk (mod_frame_of_mod_bytes hacc.2.2) hphys rfl hleaf with
        ⟨s', hrun, hmapped, hT', hM'⟩
      exact ⟨_, s', held, hrun, hT', hM.trans hM', hacc, hphys, hpath ▸ hmapped.of_grown hG⟩
    · -- the assertion in `new`
      right
      have hvac : ¬ Occupied s (pagePath virt size) :=
        hG.not_occupied hp hk (hpath ▸ List.prefix_refl _)
      exact ⟨⟨hacc, hvac⟩, hphys, _, _, mapLeaf_refused virt _ hT hk hphys⟩
  · -- the entry is in use
    left
    rcases hold with rfl | hzero
    · have hrun := mapLeaf_occupied virt phys (leafFlags flags size) hT hk
      exact ⟨_, s₁, held, hrun, hT, Moved.refl s₁ [], hacc, hpath ▸ occupied_snoc hp hk, rfl⟩
    · rw [hzero i] at hk
      exact absurd (kind_zero_word _) hk

/-- `map` from the PT on. -/
theorem mapPt_spec (flags : PTFlags) {pt : ℕ} (hG : Grown s s₁)
    (hM : Moved s [] s₁ [idx 3 virt, idx 2 virt, idx 1 virt]) (hT : Tree init others s₁ held)
    (hp : tableAt s₁ [idx 3 virt, idx 2 virt, idx 1 virt] = some pt)
    (hold : s₁ = s ∨ ∀ j : Fin 512, s₁.phys.mem pt j = 0)
    (hacc : Accepted virt phys .base) :
    MapEnds init others s virt phys flags .base
      ((mapPt virt phys flags s.hhdmOffset (pt * frameSize)).run s₁) := by
  unfold mapPt
  rw [ptIndex_eq]
  exact (mapLeaf_post flags (idx 0 virt) hacc rfl hG hM hT hp hold :)

/-- The test for a leaf that `map` makes before it goes down. -/
theorem isPage_iff {l : ℕ} {w : Word} (hl : 1 ≤ l ∧ l ≤ 2) :
    (X86.isPresent w && X86.isPage w) = true ↔ kind l w = .leaf := by
  rw [Bool.and_eq_true, X86.isPresent_eq, X86.isPage_eq, kind_eq_leaf_iff]
  have hne : l ≠ 0 := by omega
  simp only [hne, hl.2, false_or, true_and]

omit [X86] in
/-- A table is missing, and there is no frame. -/
theorem lt_missing_of_empty {p q : List (Fin 512)} (hI : Inv s.phys) (hempty : freeSet s.phys = ∅)
    (hpre : q <+: p) (hlen : q.length < p.length) (hnone : tableAt s q = none) :
    s.phys.pmm.freeFrames < missing s p := by
  have hle := le_missing hpre hnone
  rw [hI.count, hempty, Set.ncard_empty]
  omega

omit [X86] in
/-- If there is no frame for a PD, then the PDPT was found, or it took the last frame. -/
theorem short_of_pdpt {pdpt : ℕ} {newPdpt : Bool} (hI : Inv s.phys)
    (h₁ : Prepared s s₁ newPdpt [] (root s) (idx 3 virt) pdpt) (hempty : freeSet s₁.phys = ∅)
    (hnone : tableAt s₁ [idx 3 virt, idx 2 virt] = none)
    (hpre : [idx 3 virt, idx 2 virt] <+: pagePath virt size)
    (hlen : 3 ≤ (pagePath virt size).length) :
    s.phys.pmm.freeFrames < missing s (pagePath virt size) ∧
      (newPdpt = false ∨ Short s (pagePath virt size)) := by
  rcases h₁ with ⟨hfound, rfl, -⟩ | ⟨-, hI₁⟩
  · exact ⟨lt_missing_of_empty hI hempty hpre hlen hnone, Or.inl hfound⟩
  · have hle := le_missing (List.IsPrefix.trans ⟨_, rfl⟩ hpre) hI₁.tableAt_eq_none
    change _ - 1 ≤ _ at hle
    have hcount := freeFrames_eq_one hI hI₁ hempty
    have hshort : Short s (pagePath virt size) := ⟨by omega, by omega⟩
    exact ⟨hshort.2, Or.inr hshort⟩

omit [X86] in
/-- If there is no frame for a PT, then the PDPT and the PD were found, or took the last frames. -/
theorem short_of_pd {pdpt pd : ℕ} {newPdpt newPd : Bool} (hI : Inv s.phys)
    (h₁ : Prepared s s₁ newPdpt [] (root s) (idx 3 virt) pdpt)
    (h₂ : Prepared s₁ s₂ newPd [idx 3 virt] pdpt (idx 2 virt) pd) (hempty : freeSet s₂.phys = ∅)
    (hnone : tableAt s₂ [idx 3 virt, idx 2 virt, idx 1 virt] = none) :
    s.phys.pmm.freeFrames < missing s (pagePath virt .base) ∧
      (newPdpt = false ∧ newPd = false ∨ Short s (pagePath virt .base)) := by
  rcases h₁.old_or_zero (tableAt_nil s) (Or.inl rfl) with ⟨hfound, -, rfl⟩ | ⟨-, hI₁, hzero⟩
  · rcases h₂ with ⟨hfound', rfl, -⟩ | ⟨-, hI₂⟩
    · have hpre : [idx 3 virt, idx 2 virt, idx 1 virt] <+: pagePath virt .base := ⟨_, rfl⟩
      exact ⟨lt_missing_of_empty hI hempty hpre (Nat.lt_succ_self 3) hnone,
        Or.inl ⟨hfound, hfound'⟩⟩
    · have hle := le_missing (p := pagePath virt .base) ⟨_, rfl⟩ hI₂.tableAt_eq_none
      change 2 ≤ _ at hle
      have hcount := freeFrames_eq_one hI hI₂ hempty
      have hshort : Short s₁ (pagePath virt .base) := ⟨by omega, by omega⟩
      exact ⟨hshort.2, Or.inr hshort⟩
  · -- below a new PDPT there is no PD to be found
    rcases h₂.old_or_zero h₁.tableAt_eq (Or.inr hzero) with ⟨-, hs, -⟩ | ⟨-, hI₂, -⟩
    · exact absurd hs hI₁.ne
    · have hle := le_missing (p := pagePath virt .base) ⟨_, rfl⟩ hI₁.tableAt_eq_none
      change 3 ≤ _ at hle
      have hcount := freeFrames_eq_two hI hI₁ hI₂ hempty
      have hshort : Short s (pagePath virt .base) := ⟨by omega, by omega⟩
      exact ⟨hshort.2, Or.inr hshort⟩

/-- `map` from the PD on. -/
theorem mapPd_spec (flags : PTFlags) {pdpt pd : ℕ} {newPdpt newPd : Bool}
    (hT₀ : Tree init others s held)
    (h₁ : Prepared s s₁ newPdpt [] (root s) (idx 3 virt) pdpt) {held₁ : List ℕ}
    (hT₁ : Tree init others s₁ held₁)
    (h₂ : Prepared s₁ s₂ newPd [idx 3 virt] pdpt (idx 2 virt) pd) {held₂ : List ℕ}
    (hT : Tree init others s₂ held₂) (hsize : size ≠ .huge)
    (hacc : Accepted virt phys size) :
    MapEnds init others s virt phys flags size ((mapPd virt phys flags size s.hhdmOffset
      (slotPtr s.hhdmOffset (root s) (idx 3 virt)) (pdpt * frameSize) newPdpt
      (slotPtr s.hhdmOffset pdpt (idx 2 virt)) (pd * frameSize) newPd).run s₂) := by
  have hG := h₁.grown.trans h₂.grown
  have hM : Moved s [] s₂ [idx 3 virt, idx 2 virt] :=
    (h₁.moved (tableAt_nil s) hT₀ hT₁).trans (h₂.moved h₁.tableAt_eq hT₁ hT)
  have hp := h₂.tableAt_eq
  have hpd : s₂ = s ∨ ∀ j : Fin 512, s₂.phys.mem pd j = 0 :=
    h₂.same_or_zero h₁.tableAt_eq (h₁.same_or_zero (tableAt_nil s) (Or.inl rfl))
  unfold mapPd
  rw [pdIndex_eq]
  by_cases hl : size = .large
  · -- a large page ends here
    subst hl
    simp only [if_true]
    exact (mapLeaf_post flags (idx 1 virt) hacc rfl hG hM hT hp hpd :)
  · have hbase : size = .base := by
      cases size with
      | base => rfl
      | large => exact absurd rfl hl
      | huge => exact absurd rfl hsize
    subst hbase
    have hok := hT.ptr_ok hp
    rw [hG.hhdm] at hok
    have hread := readEntry_slot (f := pd) hT.hhdm_eq.symm (idx 1 virt).isLt
    rw [hG.hhdm] at hread
    rw [Prog.bind_of_ok (entrySlot_frame hok.2 (idx 1 virt).isLt s₂), if_neg hl,
      Prog.bind_of_ok hread]
    by_cases hleaf : kind 1 (s₂.phys.mem pd (idx 1 virt)) = .leaf
    · -- the page is part of a large one
      rw [if_pos ((isPage_iff ⟨le_refl 1, by decide⟩).2 hleaf)]
      rcases hpd with rfl | hzero
      · refine Or.inl ⟨_, _, held₂, rfl, hT, Moved.refl _ [], hacc, ?_, rfl⟩
        exact occupied_of_leaf hp hleaf ⟨[idx 0 virt], rfl⟩
      · rw [hzero] at hleaf
        cases (kind_zero_word _).symm.trans hleaf
    · rw [if_neg (fun h => hleaf ((isPage_iff ⟨le_refl 1, by decide⟩).1 h))]
      have hnext := nextTable_spec (i := idx 1 virt) hT hp (le_refl 2) hleaf
        (show pdParent = flagP ||| flagRW ||| flagUS from rfl)
      rw [hG.hhdm] at hnext
      rcases hnext with ⟨hk, hempty, hrun⟩ | ⟨pt, newPt, s₃, held₃, hrun, h₃, hT₃⟩
      · -- out of memory: both tables are rolled back
        rcases h₂.undo (Restored.refl s₂) hT with ⟨s₃, held₃, hrun₃, hR₃, hT₃, hsame₃⟩
        rcases h₁.undo hR₃ hT₃ with ⟨s₄, held₄, hrun₄, hR₄, hT₄, hsame₄⟩
        rw [h₁.grown.hhdm] at hrun₃
        have hvac := hG.not_occupied hp hk (⟨_, rfl⟩ : _ <+: pagePath virt .base)
        refine Or.inl ⟨.error .outOfMemory, s₄, held₄, ?_, hT₄, hR₄.moved hT₀, hR₄, ⟨hacc, hvac⟩,
          ?_⟩
        · rw [Prog.bind_of_ok hrun]
          refine (Prog.bind_of_ok hrun₃).trans ?_
          exact (Prog.bind_of_ok hrun₄).trans rfl
        · obtain ⟨hlack, ⟨hpdpt, hpd⟩ | hshort⟩ := short_of_pd hT₀.holds.inv h₁ h₂ hempty
            (tableAt_snoc_of_absent hp hk)
          · refine ⟨hlack, Or.inl ?_⟩
            rw [hsame₄ hpdpt, hsame₃ hpd, h₂.eq_of_found hpd, h₁.eq_of_found hpdpt]
          · exact ⟨hlack, Or.inr hshort⟩
      · have hpt := h₃.same_or_zero hp hpd
        rw [Prog.bind_of_ok hrun]
        exact mapPt_spec flags (hG.trans h₃.grown) (hM.trans (h₃.moved hp hT hT₃)) hT₃
          h₃.tableAt_eq hpt hacc

/-- `map` from the PDPT on. -/
theorem mapPdpt_spec (flags : PTFlags) {pdpt : ℕ} {newPdpt : Bool}
    (hT₀ : Tree init others s held)
    (h₁ : Prepared s s₁ newPdpt [] (root s) (idx 3 virt) pdpt) {held₁ : List ℕ}
    (hT : Tree init others s₁ held₁) (hacc : Accepted virt phys size) :
    MapEnds init others s virt phys flags size ((mapPdpt virt phys flags size s.hhdmOffset
      (slotPtr s.hhdmOffset (root s) (idx 3 virt)) (pdpt * frameSize) newPdpt).run s₁) := by
  have hG := h₁.grown
  have hM : Moved s [] s₁ [idx 3 virt] := h₁.moved (tableAt_nil s) hT₀ hT
  have hp := h₁.tableAt_eq
  have hpdpt : s₁ = s ∨ ∀ j : Fin 512, s₁.phys.mem pdpt j = 0 :=
    h₁.same_or_zero (tableAt_nil s) (Or.inl rfl)
  unfold mapPdpt
  rw [pdptIndex_eq]
  by_cases hh : size = .huge
  · -- a huge page ends here
    subst hh
    simp only [if_true]
    exact (mapLeaf_post flags (idx 2 virt) hacc rfl hG hM hT hp hpdpt :)
  · have hpre : [idx 3 virt, idx 2 virt] <+: pagePath virt size ∧
        3 ≤ (pagePath virt size).length := by
      cases size with
      | base => exact ⟨⟨[idx 1 virt, idx 0 virt], rfl⟩, show 3 ≤ 4 by decide⟩
      | large => exact ⟨⟨[idx 1 virt], rfl⟩, le_refl 3⟩
      | huge => exact absurd rfl hh
    have hok := hT.ptr_ok hp
    rw [hG.hhdm] at hok
    have hread := readEntry_slot (f := pdpt) hT.hhdm_eq.symm (idx 2 virt).isLt
    rw [hG.hhdm] at hread
    rw [Prog.bind_of_ok (entrySlot_frame hok.2 (idx 2 virt).isLt s₁), if_neg hh,
      Prog.bind_of_ok hread]
    by_cases hleaf : kind 2 (s₁.phys.mem pdpt (idx 2 virt)) = .leaf
    · -- the page is part of a huge one
      rw [if_pos ((isPage_iff ⟨by decide, le_refl 2⟩).2 hleaf)]
      rcases hpdpt with rfl | hzero
      · exact Or.inl ⟨_, _, held₁, rfl, hT, Moved.refl _ [], hacc,
          occupied_of_leaf hp hleaf hpre.1, rfl⟩
      · rw [hzero] at hleaf
        cases (kind_zero_word _).symm.trans hleaf
    · rw [if_neg (fun h => hleaf ((isPage_iff ⟨by decide, le_refl 2⟩).1 h))]
      have hnext := nextTable_spec (i := idx 2 virt) hT hp (show 1 ≤ 2 by decide) hleaf
        (show pdptParent = flagP ||| flagRW ||| flagUS from rfl)
      rw [hG.hhdm] at hnext
      rcases hnext with ⟨hk, hempty, hrun⟩ | ⟨pd, newPd, s₂, held₂, hrun, h₂, hT₂⟩
      · -- out of memory: the table is rolled back
        rcases h₁.undo (Restored.refl s₁) hT with ⟨s₂, held₂, hrun₂, hR₂, hT₂, hsame₂⟩
        refine Or.inl ⟨.error .outOfMemory, s₂, held₂, ?_, hT₂, hR₂.moved hT₀, hR₂,
          ⟨hacc, hG.not_occupied hp hk hpre.1⟩, ?_⟩
        · rw [Prog.bind_of_ok hrun]
          exact (Prog.bind_of_ok hrun₂).trans rfl
        · obtain ⟨hlack, hpdpt | hshort⟩ := short_of_pdpt hT₀.holds.inv h₁ hempty
            (tableAt_snoc_of_absent hp hk) hpre.1 hpre.2
          · refine ⟨hlack, Or.inl ?_⟩
            rw [hsame₂ hpdpt, h₁.eq_of_found hpdpt]
          · exact ⟨hlack, Or.inr hshort⟩
      · rw [Prog.bind_of_ok hrun]
        exact mapPd_spec flags hT₀ h₁ hT h₂ hT₂ hh hacc

/-- `map` maps the page, or leaves the tables as they were. It loses no frame, and leaves no
empty table behind. -/
theorem map_run (hT : Tree init others s held) (virt phys : ℕ) (flags : PTFlags)
    (size : PageSize) :
    MapEnds init others s virt phys flags size ((map virt phys flags size).run s) := by
  unfold map
  by_cases hcan : isCanonical virt = true
  · have hcan' : ¬ (!isCanonical virt) = true := by simp [hcan]
    rw [if_neg hcan']
    by_cases hal : virt % size.bytes ≠ 0 ∨ phys % size.bytes ≠ 0
    · rw [if_pos hal]
      exact Or.inl ⟨_, s, held, rfl, hT, Moved.refl s [], rfl, hal⟩
    · rw [if_neg hal]
      rw [not_or, not_not, not_not] at hal
      have hok := hT.ptr_ok (tableAt_nil s)
      rw [Prog.gets_bind, Prog.gets_bind, pml4Index_eq, hT.top_eq,
        Prog.bind_of_ok (entrySlot_frame hok.2 (idx 3 virt).isLt s)]
      -- an entry of the PML4 is never a leaf
      have hleaf := kind_three_ne_leaf (s.phys.mem (root s) (idx 3 virt))
      rcases nextTable_spec (i := idx 3 virt) hT (tableAt_nil s) (Nat.zero_le 2) hleaf
        (show pml4Parent = flagP ||| flagRW ||| flagUS from rfl) with
        ⟨hk, hempty, hrun⟩ | ⟨pdpt, newPdpt, s₁, held₁, hrun, h₁, hT₁⟩
      · rw [Prog.bind_of_ok hrun]
        refine Or.inl ⟨_, s, held, rfl, hT, Moved.refl s [], Restored.refl s, ⟨⟨hcan, hal⟩, ?_⟩, ?_,
          Or.inl rfl⟩
        · exact (Grown.refl s).not_occupied (tableAt_nil s) hk (pagePath_head virt size)
        · refine lt_missing_of_empty hT.holds.inv hempty (pagePath_head virt size) ?_
            (tableAt_snoc_of_absent (tableAt_nil s) hk)
          exact one_lt_pagePath virt size
      · rw [Prog.bind_of_ok hrun]
        exact mapPdpt_spec flags hT h₁ hT₁ ⟨hcan, hal⟩
  · have hcan' : (!isCanonical virt) = true := by simp [hcan]
    rw [if_pos hcan']
    exact Or.inl ⟨_, s, held, rfl, hT, Moved.refl s [], rfl, Bool.not_eq_true _ ▸ hcan⟩

/-- What a call of `map` that returned has done. -/
theorem map_of_ok {s' : Vm} {r : Except MapError Unit} (hT : Tree init others s held)
    (hrun : (map virt phys flags size).run s = .ok r s') :
    (∃ held', Tree init others s' held') ∧ Moved s [] s' [] ∧
      MapPost s virt phys flags size r s' := by
  rcases map_run hT virt phys flags size with ⟨r', t, held', hrun', hpost⟩ | ⟨-, -, e, t, hstop⟩
  · cases hrun.symm.trans hrun'
    exact ⟨⟨held', hpost.1⟩, hpost.2⟩
  · cases hrun.symm.trans hstop

/-- `map` returns if the physical address fits into an entry. -/
theorem map_spec (hT : Tree init others s held) (virt : ℕ) {phys : ℕ} (hphys : phys < 2 ^ 52)
    (flags : PTFlags) (size : PageSize) :
    ∃ r s' held', (map virt phys flags size).run s = .ok r s' ∧ Tree init others s' held' ∧
      MapPost s virt phys flags size r s' := by
  rcases map_run hT virt phys flags size with ⟨r, s', held', hrun, hT', -, hpost⟩ | ⟨-, hle, -⟩
  · exact ⟨r, s', held', hrun, hT', hpost⟩
  · exact absurd hphys (Nat.not_lt.2 hle)

/-- `map` as a part of a program that may stop if `B`. -/
theorem map_ends {B : Prop} (hT : Tree init others s held) (hB : ¬ B → phys < 2 ^ 52) :
    Prog.Ends B (map virt phys flags size) s fun r s' => (∃ held', Tree init others s' held') ∧
      MapPost s virt phys flags size r s' := by
  rcases map_run hT virt phys flags size with
    ⟨r, s', held', hrun, hT', -, hpost⟩ | ⟨-, hle, e, s', hstop⟩
  · exact Prog.ends_of_ok hrun ⟨⟨held', hT'⟩, hpost⟩
  · unfold Prog.Ends
    rw [hstop]
    exact not_not.1 fun h => Nat.not_lt.2 hle (hB h)

/-! ## `unmap` -/

/-- The outcomes of `unmap`. -/
def UnmapPost (s : Vm) (virt : ℕ) (size : PageSize) : Except UnmapError Unit → Vm → Prop
  | .ok (), s' => (∃ w, walk s (pagePath virt size) = some (4 - (pagePath virt size).length, w)) ∧
      Unmapped s s' (pagePath virt size)
  | .error .notMapped, s' => s' = s ∧
      ∀ w, walk s (pagePath virt size) ≠ some (4 - (pagePath virt size).length, w)
  | .error .nonCanonical, s' => s' = s ∧ isCanonical virt = false
  | .error .misaligned, s' => s' = s ∧ virt % size.bytes ≠ 0

section

variable {P : List (Fin 512)} {i j k : Fin 512} {pdpt pd pt : ℕ} {held₁ : List ℕ}

/-- The PD and the PDPT are given back if they became empty. -/
theorem Unmapped.pd_ends (hU : Unmapped s s₁ P) (hM : Moved s [] s₁ [i, j])
    (hT : Tree init others s₁ held₁) (h₁ : tableAt s₁ [i] = some pdpt)
    (h₂ : tableAt s₁ [i, j] = some pd) :
    ∃ s' held', (do
        reclaimPd (slotPtr s.hhdmOffset pdpt j) (pd * frameSize) s.hhdmOffset
        reclaimPdpt (slotPtr s.hhdmOffset (root s) i) (pdpt * frameSize) s.hhdmOffset
        pure (.ok ()) : Run Vm (Except UnmapError Unit)).run s₁ = .ok (.ok ()) s' ∧
      Tree init others s' held' ∧ Unmapped s s' P ∧ Moved s [] s' [] := by
  rcases reclaimPd_spec hT h₁ h₂ (le_refl 1) with
    ⟨s₂, held₂, hrun, hT₂, hsh, hkeep, hM₂⟩
  have h₁' : tableAt s₂ [i] = some pdpt := by rw [hkeep [i] (snoc_ne [i] j), h₁]
  rcases (hU.shrunk hsh).pdpt_ends (hM.trans hM₂) hT₂ h₁' with ⟨s', held', hrun', hpost⟩
  rw [hU.hhdm] at hrun
  exact ⟨s', held', (Prog.bind_of_ok hrun).trans hrun', hpost⟩

/-- The PT, the PD and the PDPT are given back if they became empty. -/
theorem Unmapped.pt_ends (hU : Unmapped s s₁ P) (hM : Moved s [] s₁ [i, j, k])
    (hT : Tree init others s₁ held₁) (h₁ : tableAt s₁ [i] = some pdpt)
    (h₂ : tableAt s₁ [i, j] = some pd) (h₃ : tableAt s₁ [i, j, k] = some pt) :
    ∃ s' held', (do
        reclaimPt (slotPtr s.hhdmOffset pd k) (pt * frameSize) s.hhdmOffset
        reclaimPd (slotPtr s.hhdmOffset pdpt j) (pd * frameSize) s.hhdmOffset
        reclaimPdpt (slotPtr s.hhdmOffset (root s) i) (pdpt * frameSize) s.hhdmOffset
        pure (.ok ()) : Run Vm (Except UnmapError Unit)).run s₁ = .ok (.ok ()) s' ∧
      Tree init others s' held' ∧ Unmapped s s' P ∧ Moved s [] s' [] := by
  rcases reclaimPd_spec hT h₂ h₃ (show 1 ≤ 2 by decide) with
    ⟨s₂, held₂, hrun, hT₂, hsh, hkeep, hM₂⟩
  have h₁' : tableAt s₂ [i] = some pdpt := by
    rw [hkeep [i] (by simp), h₁]
  have h₂' : tableAt s₂ [i, j] = some pd := by
    rw [hkeep [i, j] (snoc_ne [i, j] k), h₂]
  rcases (hU.shrunk hsh).pd_ends (hM.trans hM₂) hT₂ h₁' h₂' with ⟨s', held', hrun', hpost⟩
  rw [hU.hhdm] at hrun
  exact ⟨s', held', (Prog.bind_of_ok hrun).trans hrun', hpost⟩

end

/-- `unmap` from the PT on. -/
theorem unmapPt_spec {pdpt pd pt : ℕ} (hT : Tree init others s held)
    (h₁ : tableAt s [idx 3 virt] = some pdpt) (h₂ : tableAt s [idx 3 virt, idx 2 virt] = some pd)
    (h₃ : tableAt s [idx 3 virt, idx 2 virt, idx 1 virt] = some pt) :
    ∃ r s' held', (unmapPt virt s.hhdmOffset (slotPtr s.hhdmOffset (root s) (idx 3 virt))
        (pdpt * frameSize) (slotPtr s.hhdmOffset pdpt (idx 2 virt)) (pd * frameSize)
        (slotPtr s.hhdmOffset pd (idx 1 virt)) (pt * frameSize)).run s = .ok r s' ∧
      Tree init others s' held' ∧ Moved s [] s' [] ∧ UnmapPost s virt .base r s' := by
  have hread := readEntry_slot (f := pt) hT.hhdm_eq.symm (idx 0 virt).isLt
  unfold unmapPt
  rw [ptIndex_eq, Prog.bind_of_ok (entrySlot_frame (hT.ptr_ok h₃).2 (idx 0 virt).isLt s),
    Prog.bind_of_ok hread]
  cases hk : kind 0 (s.phys.mem pt (idx 0 virt)) with
  | table f => exact absurd hk (kind_zero_ne_table _ f)
  | absent =>
      have hpres : X86.isPresent (s.phys.mem pt (idx 0 virt)) = false :=
            Bool.eq_false_iff.2 (not_isPresent hk)
      rw [hpres, Bool.not_false, if_pos rfl]
      refine ⟨_, s, held, rfl, hT, Moved.refl s [], rfl, ?_⟩
      intro w hw
      cases (walk_append_absent h₃ hk []).symm.trans hw
  | leaf =>
      have hpres : X86.isPresent (s.phys.mem pt (idx 0 virt)) = true := isPresent_of_leaf hk
      rw [hpres, Bool.not_true, if_neg Bool.false_ne_true]
      rcases clearLeaf_spec hT h₃ hk virt with ⟨s₁, hwrite, hflush, hT₁, hU, htab, hM⟩
      rcases hU.pt_ends hM hT₁ ((htab _).trans h₁) ((htab _).trans h₂) ((htab _).trans h₃) with
        ⟨s', held', hrun, hT', hU', hM'⟩
      refine ⟨.ok (), s', held', ?_, hT', hM', ⟨_, walk_append_leaf h₃ hk []⟩, hU'⟩
      exact (Prog.bind_of_ok hwrite).trans ((Prog.bind_of_ok hflush).trans hrun)

/-- The test that `unmap` makes for a leaf. -/
theorem not_leaf_iff {l : ℕ} {w : Word} (hl : 1 ≤ l ∧ l ≤ 2) :
    (!X86.isPresent w || !X86.isPage w) = true ↔ kind l w ≠ .leaf := by
  rw [Ne, ← isPage_iff hl]
  cases X86.isPresent w <;> cases X86.isPage w <;> decide

/-- The test that `unmap` makes before it goes down. -/
theorem not_table_iff {l : ℕ} {w : Word} (hl : 1 ≤ l ∧ l ≤ 2) :
    (!X86.isPresent w || X86.isPage w) = true ↔ ∀ f, kind l w ≠ .table f := by
  cases hk : kind l w with
  | absent =>
      rw [X86.isPresent_eq, kind_eq_absent_iff.1 hk]
      simp
  | leaf =>
      have hleaf := (isPage_iff hl).2 hk
      rw [Bool.and_eq_true] at hleaf
      rw [hleaf.2]
      simp
  | table f =>
      have hpage := not_isPage_of_table hl.2 hk
      have hpres : X86.isPresent w = true := isPresent_of_table hk
      rw [Bool.not_eq_true] at hpage
      rw [hpage, hpres]
      simp

/-- `unmap` from the PD on. -/
theorem unmapPd_spec {pdpt pd : ℕ} (hT : Tree init others s held)
    (h₁ : tableAt s [idx 3 virt] = some pdpt) (h₂ : tableAt s [idx 3 virt, idx 2 virt] = some pd)
    (hsize : size ≠ .huge) :
    ∃ r s' held', (unmapPd virt size s.hhdmOffset (slotPtr s.hhdmOffset (root s) (idx 3 virt))
        (pdpt * frameSize) (slotPtr s.hhdmOffset pdpt (idx 2 virt)) (pd * frameSize)).run s =
          .ok r s' ∧
      Tree init others s' held' ∧ Moved s [] s' [] ∧ UnmapPost s virt size r s' := by
  have hread := readEntry_slot (f := pd) hT.hhdm_eq.symm (idx 1 virt).isLt
  unfold unmapPd
  rw [pdIndex_eq, Prog.bind_of_ok (entrySlot_frame (hT.ptr_ok h₂).2 (idx 1 virt).isLt s),
    Prog.bind_of_ok hread]
  by_cases hl : size = .large
  · subst hl
    rw [if_pos rfl]
    by_cases hleaf : kind 1 (s.phys.mem pd (idx 1 virt)) = .leaf
    · rw [if_neg (fun h => (not_leaf_iff ⟨le_refl 1, by decide⟩).1 h hleaf)]
      rcases clearLeaf_spec hT h₂ hleaf virt with ⟨s₁, hwrite, hflush, hT₁, hU, htab, hM⟩
      rcases hU.pd_ends hM hT₁ ((htab _).trans h₁) ((htab _).trans h₂) with
        ⟨s', held', hrun, hT', hU', hM'⟩
      refine ⟨.ok (), s', held', ?_, hT', hM', ⟨_, walk_append_leaf h₂ hleaf []⟩, hU'⟩
      exact (Prog.bind_of_ok hwrite).trans ((Prog.bind_of_ok hflush).trans hrun)
    · rw [if_pos ((not_leaf_iff ⟨le_refl 1, by decide⟩).2 hleaf)]
      refine ⟨_, s, held, rfl, hT, Moved.refl s [], rfl, ?_⟩
      intro w hw
      rcases leaf_of_walk (p := [idx 3 virt, idx 2 virt]) (show 2 ≤ 3 by decide) hw with
        ⟨n, hn, hk, -⟩
      cases Option.some.inj (h₂.symm.trans hn)
      exact hleaf hk
  · have hbase : size = .base := by
      cases size with
      | base => rfl
      | large => exact absurd rfl hl
      | huge => exact absurd rfl hsize
    subst hbase
    rw [if_neg hl]
    by_cases hno : ∀ f, kind 1 (s.phys.mem pd (idx 1 virt)) ≠ .table f
    · rw [if_pos ((not_table_iff ⟨le_refl 1, by decide⟩).2 hno)]
      refine ⟨_, s, held, rfl, hT, Moved.refl s [], rfl, ?_⟩
      exact fun w => walk_ne_of_not_table (r := []) h₂ hno (le_refl 3)
    · rw [if_neg (fun h => hno ((not_table_iff ⟨le_refl 1, by decide⟩).1 h))]
      rw [not_forall] at hno
      rcases hno with ⟨pt, hk⟩
      rw [not_not] at hk
      have h₃ : tableAt s [idx 3 virt, idx 2 virt, idx 1 virt] = some pt :=
        tableAt_snoc_iff.2 ⟨pd, h₂, hk⟩
      rw [address_of_table hk]
      exact unmapPt_spec hT h₁ h₂ h₃

/-- `unmap` from the PDPT on. -/
theorem unmapPdpt_spec {pdpt : ℕ} (hT : Tree init others s held)
    (h₁ : tableAt s [idx 3 virt] = some pdpt) :
    ∃ r s' held', (unmapPdpt virt size s.hhdmOffset
        (slotPtr s.hhdmOffset (root s) (idx 3 virt)) (pdpt * frameSize)).run s = .ok r s' ∧
      Tree init others s' held' ∧ Moved s [] s' [] ∧ UnmapPost s virt size r s' := by
  have hread := readEntry_slot (f := pdpt) hT.hhdm_eq.symm (idx 2 virt).isLt
  unfold unmapPdpt
  rw [pdptIndex_eq, Prog.bind_of_ok (entrySlot_frame (hT.ptr_ok h₁).2 (idx 2 virt).isLt s),
    Prog.bind_of_ok hread]
  by_cases hh : size = .huge
  · subst hh
    rw [if_pos rfl]
    by_cases hleaf : kind 2 (s.phys.mem pdpt (idx 2 virt)) = .leaf
    · rw [if_neg (fun h => (not_leaf_iff ⟨by decide, le_refl 2⟩).1 h hleaf)]
      rcases clearLeaf_spec hT h₁ hleaf virt with ⟨s₁, hwrite, hflush, hT₁, hU, htab, hM⟩
      rcases hU.pdpt_ends hM hT₁ ((htab _).trans h₁) with ⟨s', held', hrun, hT', hU', hM'⟩
      refine ⟨.ok (), s', held', ?_, hT', hM', ⟨_, walk_append_leaf h₁ hleaf []⟩, hU'⟩
      exact (Prog.bind_of_ok hwrite).trans ((Prog.bind_of_ok hflush).trans hrun)
    · rw [if_pos ((not_leaf_iff ⟨by decide, le_refl 2⟩).2 hleaf)]
      refine ⟨_, s, held, rfl, hT, Moved.refl s [], rfl, ?_⟩
      intro w hw
      rcases leaf_of_walk (p := [idx 3 virt]) (show 1 ≤ 3 by decide) hw with ⟨n, hn, hk, -⟩
      cases Option.some.inj (h₁.symm.trans hn)
      exact hleaf hk
  · rw [if_neg hh]
    by_cases hno : ∀ f, kind 2 (s.phys.mem pdpt (idx 2 virt)) ≠ .table f
    · rw [if_pos ((not_table_iff ⟨by decide, le_refl 2⟩).2 hno)]
      refine ⟨_, s, held, rfl, hT, Moved.refl s [], rfl, fun w => ?_⟩
      cases size with
      | huge => exact absurd rfl hh
      | large => exact walk_ne_of_not_table (r := []) h₁ hno (show 2 ≤ 3 by decide)
      | base => exact walk_ne_of_not_table (r := [idx 1 virt]) h₁ hno (le_refl 3)
    · rw [if_neg (fun h => hno ((not_table_iff ⟨by decide, le_refl 2⟩).1 h))]
      rw [not_forall] at hno
      rcases hno with ⟨pd, hk⟩
      rw [not_not] at hk
      have h₂ : tableAt s [idx 3 virt, idx 2 virt] = some pd := tableAt_snoc_iff.2 ⟨pdpt, h₁, hk⟩
      rw [address_of_table hk]
      exact unmapPd_spec hT h₁ h₂ hh

/-- `unmap` ends: it unmaps the page, or changes nothing. It loses no frame, and leaves no empty
table behind. -/
theorem unmap_run (hT : Tree init others s held) (virt : ℕ) (size : PageSize) :
    ∃ r s' held', (unmap virt size).run s = .ok r s' ∧ Tree init others s' held' ∧
      Moved s [] s' [] ∧ UnmapPost s virt size r s' := by
  unfold unmap
  by_cases hcan : isCanonical virt = true
  · have hcan' : ¬ (!isCanonical virt) = true := by simp [hcan]
    rw [if_neg hcan']
    by_cases hal : virt % size.bytes ≠ 0
    · rw [if_pos hal]
      exact ⟨_, s, held, rfl, hT, Moved.refl s [], rfl, hal⟩
    · have hread := readEntry_slot (f := root s) hT.hhdm_eq.symm (idx 3 virt).isLt
      rw [if_neg hal, Prog.gets_bind, Prog.gets_bind, pml4Index_eq, hT.top_eq,
        Prog.bind_of_ok (entrySlot_frame (hT.ptr_ok (tableAt_nil s)).2 (idx 3 virt).isLt s),
        Prog.bind_of_ok hread]
      cases hk : kind 3 (s.phys.mem (root s) (idx 3 virt)) with
      | leaf => exact absurd hk (kind_three_ne_leaf _)
      | absent =>
          have hpres : X86.isPresent (s.phys.mem (root s) (idx 3 virt)) = false :=
            Bool.eq_false_iff.2 (not_isPresent hk)
          have hno : ∀ f, kind 3 (s.phys.mem (root s) (idx 3 virt)) ≠ .table f := by simp [hk]
          rw [hpres, Bool.not_false, if_pos rfl]
          refine ⟨_, s, held, rfl, hT, Moved.refl s [], rfl, fun w => ?_⟩
          cases size with
          | huge => exact walk_ne_of_not_table (r := []) (tableAt_nil s) hno (show 1 ≤ 3 by decide)
          | large =>
              exact walk_ne_of_not_table (r := [idx 2 virt]) (tableAt_nil s) hno
                (show 2 ≤ 3 by decide)
          | base =>
              exact walk_ne_of_not_table (r := [idx 2 virt, idx 1 virt]) (tableAt_nil s) hno
                (le_refl 3)
      | table pdpt =>
          have hpres : X86.isPresent (s.phys.mem (root s) (idx 3 virt)) = true :=
            isPresent_of_table hk
          have h₁ : tableAt s [idx 3 virt] = some pdpt :=
            tableAt_snoc_iff.2 ⟨root s, tableAt_nil s, hk⟩
          rw [hpres, Bool.not_true, if_neg Bool.false_ne_true, address_of_table hk]
          exact unmapPdpt_spec hT h₁
  · have hcan' : (!isCanonical virt) = true := by simp [hcan]
    rw [if_pos hcan']
    exact ⟨_, s, held, rfl, hT, Moved.refl s [], rfl, Bool.not_eq_true _ ▸ hcan⟩

theorem unmap_spec (hT : Tree init others s held) (virt : ℕ) (size : PageSize) :
    ∃ r s' held', (unmap virt size).run s = .ok r s' ∧ Tree init others s' held' ∧
      UnmapPost s virt size r s' := by
  rcases unmap_run hT virt size with ⟨r, s', held', hrun, hT', -, hpost⟩
  exact ⟨r, s', held', hrun, hT', hpost⟩

end

end Prometheos.Vmm
