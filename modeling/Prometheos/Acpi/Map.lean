import Prometheos.Acpi.Request

/-!
# Sessions of uACPI

A session is a run of calls of `uacpi_kernel_map` and `uacpi_kernel_unmap` in which each unmap
returns a mapping that is outstanding. An outstanding mapping, and what was mapped before the
session, survives as long as the calls are careful (`Careful`): a map meets no page that leads
elsewhere, and an unmap no page that is needed otherwise. The first call that is not careful
takes something away (`mappings_survive`); two mappings in one page are enough for that
(`shared_page_lost`).
-/

namespace Prometheos.Acpi

open Pmm Vmm Boot

/-! ## `uacpi_kernel_map` -/

/-- From `s` to `s'` nothing was unmapped, and what was mapped leads to the physical address
at its place in the direct map. -/
structure Extended [X86] (others : List (ℕ × ℕ)) (s s' : Vm) : Prop where
  tree : ∃ init held, Tree init others s' held
  hhdm : s'.hhdmOffset = s.hhdmOffset
  keeps : ∀ a x, translation s a = some x → translation s' a = some x
  adds : ∀ a x, translation s' a = some x → translation s a = some x ∨ x.1 + s.hhdmOffset = a

section

variable [X86] {init held : List ℕ} {others : List (ℕ × ℕ)} {s s' : Vm}

theorem Upto.extended {t : Vm} {lo phys : ℕ} (h : Upto init others s t lo phys) :
    Extended others s t := by
  refine ⟨⟨init, h.tree⟩, h.hhdm, fun a x => h.keeps, ?_⟩
  intro a x hx
  cases hold : translation s a with
  | none =>
      rcases h.adds hold hx with ⟨p, ⟨-, hlt, hmod⟩, ⟨hle, hin⟩, hfst⟩
      change a < p + s.hhdmOffset + 4096 at hin
      right
      rw [hfst]
      omega
  | some y => exact Or.inl ((h.keeps hold).symm.trans hx)

/-- What a call of `uacpi_kernel_map` that returns has done. -/
theorem uacpiKernelMap_spec {addr len virt : ℕ} (hT : Tree init others s held)
    (hrun : (uacpiKernelMap addr len).run s = .ok virt s') :
    Extended others s s' ∧ (virt ≠ 0 → virt = addr + s.hhdmOffset ∧
      ∀ b < len, translation s' (addr + b + s.hhdmOffset) ≠ none) := by
  rcases uacpiKernelMap_run hT hrun with ⟨rfl, h⟩ | ⟨rfl, p, -, t, e, h, -, hmap⟩
  · refine ⟨h.extended, fun _ => ⟨rfl, fun b hb => ?_⟩⟩
    have hp : PageOf (pagesFrom addr) (pagesTo addr len) ((addr + b) / 4096 * 4096) := by
      unfold PageOf pagesFrom pagesTo
      omega
    refine h.there hp ⟨by omega, ?_⟩
    change _ < (addr + b) / 4096 * 4096 + s.hhdmOffset + 4096
    omega
  · exact ⟨(h.toUpto.failed hmap).extended, fun h => absurd rfl h⟩

end

/-! ## `uacpi_kernel_unmap` -/

/-- From `s` to `s'` the pages from `lo` to `hi` were unmapped that were mapped by leaves of
their own, and nothing else. -/
structure Cut (others : List (ℕ × ℕ)) (lo hi : ℕ) (s s' : Vm) : Prop where
  tree : ∃ init held, Tree init others s' held
  hhdm : s'.hhdmOffset = s.hhdmOffset
  gone : ∀ a, isCanonical a = true → lo ≤ a → a < hi → TranslatedBy s a .base →
    walk s' (pagePath a .base) = none
  kept : ∀ a, isCanonical a = true → ¬ (lo ≤ a ∧ a < hi ∧ TranslatedBy s a .base) →
    walk s' (pagePath a .base) = walk s (pagePath a .base)

section

variable [X86] {init held : List ℕ} {others : List (ℕ × ℕ)} {s s' : Vm}

omit [X86] in
theorem Cut.refl (hT : Tree init others s held) {lo hi : ℕ} (h : hi ≤ lo) :
    Cut others lo hi s s := by
  refine ⟨⟨init, held, hT⟩, rfl, ?_, fun _ _ _ => rfl⟩
  intro a _ hlo hhi
  omega

omit [X86] in
theorem Cut.trans {t : Vm} {lo mid hi : ℕ} (h : Cut others lo mid s t)
    (h' : Cut others mid hi t s') (hle : lo ≤ mid) (hle' : mid ≤ hi) :
    Cut others lo hi s s' := by
  -- beyond the middle the pages are mapped as they were
  have hsame : ∀ a, isCanonical a = true → mid ≤ a →
      walk t (pagePath a .base) = walk s (pagePath a .base) := by
    intro a ha hmid
    refine h.kept a ha ?_
    omega
  have hleaf : ∀ a, isCanonical a = true → mid ≤ a →
      (TranslatedBy t a .base ↔ TranslatedBy s a .base) := by
    intro a ha hmid
    unfold TranslatedBy
    rw [hsame a ha hmid]
  refine ⟨h'.tree, h'.hhdm.trans h.hhdm, ?_, ?_⟩
  · intro a ha hlo hhi hby
    by_cases hmid : mid ≤ a
    · exact h'.gone a ha hmid hhi ((hleaf a ha hmid).2 hby)
    · rw [h'.kept a ha (by omega)]
      exact h.gone a ha hlo (by omega) hby
  · intro a ha hnot
    by_cases hmid : mid ≤ a
    · rw [← hsame a ha hmid]
      refine h'.kept a ha ?_
      rintro ⟨-, hhi, hby⟩
      exact hnot ⟨by omega, hhi, (hleaf a ha hmid).1 hby⟩
    · rw [h'.kept a ha (by omega)]
      refine h.kept a ha ?_
      rintro ⟨hlo, -, hby⟩
      exact hnot ⟨hlo, by omega, hby⟩

/-- One turn of the loop. -/
theorem unmap_page {virt : ℕ} (hT : Tree init others s held)
    (hal : virt % PageSize.base.bytes = 0) : ∃ r s', (Vmm.unmap virt .base).run s = .ok r s' ∧
      Cut others virt (virt + PageSize.base.bytes) s s' := by
  rcases unmap_spec hT virt .base with ⟨r, s', held', hrun, hT', hpost⟩
  refine ⟨r, s', hrun, ?_⟩
  -- a page has the path of its addresses
  have hpage : ∀ a, isCanonical a = true → InPage virt .base a →
      isCanonical virt = true ∧ pagePath a .base = pagePath virt .base := by
    intro a ha hin
    have hcan : isCanonical virt = true := by
      rcases hin with ⟨hlo, hhi⟩
      rw [isCanonical_iff] at ha ⊢
      change virt % 2 ^ 12 = 0 at hal
      change a < virt + 2 ^ 12 at hhi
      omega
    have hpre := (isPrefix_iff_inPage hcan ha hal).2 hin
    exact ⟨hcan, (hpre.eq_of_length rfl).symm⟩
  cases r with
  | ok u =>
      rcases hpost with ⟨⟨w, hw⟩, hU⟩
      refine ⟨⟨init, held', hT'⟩, hU.hhdm, ?_, ?_⟩
      · intro a ha hlo hhi _
        have hnone := hU.below []
        rw [List.append_nil] at hnone
        rw [(hpage a ha ⟨hlo, hhi⟩).2, hnone]
      · intro a ha hnot
        refine hU.other _ fun hpre => hnot ?_
        have hin := (isPrefix_iff_inPage (unmap_args hrun).1 ha hal).1 hpre
        refine ⟨hin.1, hin.2, w, ?_⟩
        rw [(hpage a ha hin).2]
        exact hw
  | error e =>
      have hfail : s' = s ∧ ¬ (isCanonical virt = true ∧ TranslatedBy s virt .base) := by
        cases e with
        | notMapped => exact ⟨hpost.1, fun ⟨_, w, hw⟩ => hpost.2 w hw⟩
        | nonCanonical =>
            exact ⟨hpost.1, fun h => Bool.false_ne_true (hpost.2.symm.trans h.1)⟩
        | misaligned => exact absurd hal hpost.2
      rcases hfail with ⟨rfl, hno⟩
      refine ⟨⟨init, held', hT'⟩, rfl, ?_, fun _ _ _ => rfl⟩
      intro a ha hlo hhi hby
      rcases hpage a ha ⟨hlo, hhi⟩ with ⟨hcan, hpath⟩
      unfold TranslatedBy at hby
      rw [hpath] at hby
      exact absurd ⟨hcan, hby⟩ hno

/-- The loop of `uacpi_kernel_unmap`. -/
theorem unmapLoop_spec {page last : ℕ} (hpage : page = PageSize.base.bytes)
    (hlast : last % page = 0) (hlt64 : last < 2 ^ 64) :
    ∀ {n virt : ℕ} {s : Vm} {init held : List ℕ}, Tree init others s held →
    virt % page = 0 → last ≤ virt + n → ∃ s', (unmapLoop page last n virt).run s = .ok () s' ∧
      Cut others virt last s s' := by
  intro n
  induction n with
  | zero =>
      intro virt s init held hT _ hle
      exact ⟨s, rfl, Cut.refl hT (by omega)⟩
  | succ n ih =>
      intro virt s init held hT hal hle
      unfold unmapLoop
      by_cases hlt : virt < last
      · have hnext : virt + page ≤ last := by
          rcases Nat.dvd_of_mod_eq_zero hal with ⟨k, rfl⟩
          rcases Nat.dvd_of_mod_eq_zero hlast with ⟨l, rfl⟩
          have hkl : k + 1 ≤ l := Nat.lt_of_mul_lt_mul_left hlt
          calc page * k + page = page * (k + 1) := (Nat.mul_succ page k).symm
            _ ≤ page * l := Nat.mul_le_mul_left page hkl
        have hpos : 0 < page := hpage ▸ Nat.two_pow_pos 12
        have hal₁ : (virt + page) % page = 0 := by rw [Nat.add_mod_right, hal]
        rcases unmap_page hT (hpage ▸ hal) with ⟨r, s₁, hunmap, hcut⟩
        rw [← hpage] at hcut
        rcases hcut.tree with ⟨init₁, held₁, hT₁⟩
        rcases ih hT₁ hal₁ (by omega) with ⟨s', hloop, hrest⟩
        refine ⟨s', ?_, hcut.trans hrest (Nat.le_add_right virt page) hnext⟩
        rw [if_pos hlt, Prog.bind_of_ok hunmap, Prog.bind_of_ok (addU64_of_lt (by omega) s₁)]
        exact hloop
      · rw [if_neg hlt]
        exact ⟨s, rfl, Cut.refl hT (by omega)⟩

/-- `uacpi_kernel_unmap` returns, and cuts the pages of the range off. -/
theorem uacpiKernelUnmap_spec {addr len : ℕ} (hT : Tree init others s held)
    (hlt : addr + len + 4096 < 2 ^ 64) : ∃ s', (uacpiKernelUnmap addr len).run s = .ok () s' ∧
      Cut others (pagesFrom addr) (pagesTo addr len) s s' := by
  have hlast : pagesTo addr len < 2 ^ 64 := by
    unfold pagesTo
    omega
  have hloop : ∃ s', (unmapLoop 4096 (pagesTo addr len) (pagesTo addr len - pagesFrom addr)
      (pagesFrom addr)).run s = .ok () s' ∧
      Cut others (pagesFrom addr) (pagesTo addr len) s s' :=
    unmapLoop_spec (by rfl) (Nat.mul_mod_left _ _) hlast hT (Nat.mul_mod_left _ _) le_add_tsub
  rcases hloop with ⟨s', hloop, hcut⟩
  refine ⟨s', ?_, hcut⟩
  unfold uacpiKernelUnmap basePageSize
  rw [Prog.bind_of_ok (alignDown_page (by omega) s),
    Prog.bind_of_ok (addU64_of_lt (by omega) s), Prog.bind_of_ok (alignUp_page hlt s)]
  exact hloop

/-- A call that returns had room for the end of its pages. -/
theorem lt_of_uacpiKernelUnmap {addr len : ℕ}
    (hrun : (uacpiKernelUnmap addr len).run s = .ok () s') : addr + len + 4096 < 2 ^ 64 := by
  unfold uacpiKernelUnmap at hrun
  rcases Prog.bind_ok_iff.1 hrun with ⟨_, _, -, hsum⟩
  exact lt_of_pagesTo hsum

end

/-! ## Sessions -/

/-- A call, with what it is about. -/
inductive Call where
  /-- `uacpi_kernel_map` succeeds. -/
  | map (addr len : ℕ)
  /-- `uacpi_kernel_map` returns the null pointer. -/
  | refused (addr len : ℕ)
  /-- `uacpi_kernel_unmap` returns the mapping. -/
  | unmap (addr len : ℕ)

/-- The manager, and the mappings that are outstanding: their physical address and length. -/
structure Session where
  vm : Vm
  live : List (ℕ × ℕ)

namespace Session

/-- A call is made. -/
inductive Does [X86] (S : Session) : Call → Session → Prop
  | map {addr len virt : ℕ} {s' : Vm} :
      (uacpiKernelMap addr len).run S.vm = .ok virt s' → virt ≠ 0 →
      Does S (.map addr len) ⟨s', (addr, len) :: S.live⟩
  | refused {addr len : ℕ} {s' : Vm} :
      (uacpiKernelMap addr len).run S.vm = .ok 0 s' →
      Does S (.refused addr len) ⟨s', S.live⟩
  | unmap {addr len : ℕ} {s' : Vm} :
      (addr, len) ∈ S.live →
      (uacpiKernelUnmap (addr + S.vm.hhdmOffset) len).run S.vm = .ok () s' →
      Does S (.unmap addr len) ⟨s', S.live.erase (addr, len)⟩

/-- What every call must leave as it is, when the session began in `s₀`: the bytes of the
outstanding mappings, and what was mapped before. -/
def Survives [X86] (s₀ : Vm) (S : Session) : Prop :=
  (∀ m ∈ S.live, ∀ b < m.2, ∃ f,
    (translate (m.1 + b + S.vm.hhdmOffset)).run S.vm = .ok (some (m.1 + b, f)) S.vm) ∧
  ∀ a x, (translate a).run s₀ = .ok (some x) s₀ → (translate a).run S.vm = .ok (some x) S.vm

/-- A map finds no byte of its range mapped elsewhere. An unmap takes no page away that holds
a byte of another outstanding mapping, or that was mapped before the session; it can only
take pages away that have a leaf of their own. -/
def Careful [X86] (s₀ : Vm) (S : Session) : Call → Prop
  | .map addr len => ∀ b < len, ∀ x,
      (translate (addr + b + S.vm.hhdmOffset)).run S.vm = .ok (some x) S.vm → x.1 = addr + b
  | .refused _ _ => True
  | .unmap addr len => ∀ a, isCanonical a = true →
      pagesFrom (addr + S.vm.hhdmOffset) ≤ a → a < pagesTo (addr + S.vm.hhdmOffset) len →
      TranslatedBy S.vm a .base →
      (∀ x, (translate a).run s₀ ≠ .ok (some x) s₀) ∧
      ∀ m ∈ S.live.erase (addr, len), ∀ b < m.2, a ≠ m.1 + b + S.vm.hhdmOffset

/-- A call that meets the condition `C` is made. -/
def Step [X86] (C : Session → Call → Prop) (S S' : Session) : Prop := ∃ c, C S c ∧ S.Does c S'

/-- Before the first call. -/
structure Start (others : List (ℕ × ℕ)) (S : Session) : Prop where
  tree : ∃ init held, Tree init others S.vm held
  live_eq : S.live = []

end Session

section

variable [X86] {others : List (ℕ × ℕ)} {s₀ : Vm} {S S' : Session}

/-- What is known of a session between two calls. -/
structure Session.Intact (others : List (ℕ × ℕ)) (s₀ : Vm) (S : Session) : Prop where
  start : ∃ init held, Tree init others s₀ held
  tree : ∃ init held, Tree init others S.vm held
  survives : S.Survives s₀

namespace Session

theorem survives_iff {init₀ held₀ init held : List ℕ} (hT₀ : Tree init₀ others s₀ held₀)
    (hT : Tree init others S.vm held) : S.Survives s₀ ↔
      (∀ m ∈ S.live, ∀ b < m.2, ∃ f,
        translation S.vm (m.1 + b + S.vm.hhdmOffset) = some (m.1 + b, f)) ∧
      ∀ a x, translation s₀ a = some x → translation S.vm a = some x := by
  simp only [Survives, translate_eq_iff hT₀, translate_eq_iff hT]

/-- Nothing is lost when pages are only added. -/
theorem survives_of_extended {s' : Vm} (hS : S.Intact others s₀)
    (hE : Extended others S.vm s') : Survives s₀ ⟨s', S.live⟩ := by
  rcases hS.start with ⟨init₀, held₀, hT₀⟩
  rcases hS.tree with ⟨init, held, hT⟩
  rcases hE.tree with ⟨init', held', hT'⟩
  rcases (survives_iff hT₀ hT).1 hS.survives with ⟨hlive, hbefore⟩
  refine (survives_iff hT₀ hT').2 ⟨?_, fun a x hx => hE.keeps a x (hbefore a x hx)⟩
  intro m hm b hb
  rcases hlive m hm b hb with ⟨f, hf⟩
  refine ⟨f, ?_⟩
  rw [hE.hhdm]
  exact hE.keeps _ _ hf

/-- The new mapping is there if no byte of it led elsewhere. -/
theorem survives_map_iff {addr len : ℕ} {s' : Vm} (hS : S.Intact others s₀)
    (hE : Extended others S.vm s')
    (hthere : ∀ b < len, translation s' (addr + b + S.vm.hhdmOffset) ≠ none) :
    Survives s₀ ⟨s', (addr, len) :: S.live⟩ ↔ S.Careful s₀ (.map addr len) := by
  rcases hS.start with ⟨init₀, held₀, hT₀⟩
  rcases hS.tree with ⟨init, held, hT⟩
  rcases hE.tree with ⟨init', held', hT'⟩
  rcases (survives_iff hT₀ hT').1 (survives_of_extended hS hE) with ⟨hlive, hbefore⟩
  rw [survives_iff hT₀ hT']
  simp only [Careful, translate_eq_iff hT]
  constructor
  · rintro ⟨hlive', -⟩ b hb x hx
    rcases hlive' _ List.mem_cons_self b hb with ⟨f, hf⟩
    rw [hE.hhdm] at hf
    cases hf.symm.trans (hE.keeps _ x hx)
    rfl
  · intro hcareful
    refine ⟨?_, hbefore⟩
    intro m hm b hb
    rcases List.mem_cons.1 hm with rfl | hm
    · rcases Option.ne_none_iff_exists'.1 (hthere b hb) with ⟨⟨p, f⟩, hx⟩
      -- a byte that was there before is in its place, and so is a new one
      have hp : p = addr + b := by
        rcases hE.adds _ _ hx with hold | hnew
        · exact hcareful b hb _ hold
        · change p + S.vm.hhdmOffset = _ at hnew
          omega
      rw [hp] at hx
      rw [hE.hhdm]
      exact ⟨f, hx⟩
    · exact hlive m hm b hb

/-- The pages that an unmap takes away are those it must not. -/
theorem survives_unmap_iff {addr len : ℕ} {s' : Vm} (hS : S.Intact others s₀)
    (hC : Cut others (pagesFrom (addr + S.vm.hhdmOffset))
      (pagesTo (addr + S.vm.hhdmOffset) len) S.vm s') :
    Survives s₀ ⟨s', S.live.erase (addr, len)⟩ ↔ S.Careful s₀ (.unmap addr len) := by
  rcases hS.start with ⟨init₀, held₀, hT₀⟩
  rcases hS.tree with ⟨init, held, hT⟩
  rcases hC.tree with ⟨init', held', hT'⟩
  rcases (survives_iff hT₀ hT).1 hS.survives with ⟨hlive, hbefore⟩
  rw [survives_iff hT₀ hT']
  simp only [Careful, ne_eq, translate_eq_iff hT₀, hC.hhdm]
  constructor
  · -- an address that was cut off leads nowhere
    rintro ⟨hlive', hbefore'⟩ a ha hlo hhi hby
    have hnone : translation s' a = none := by
      unfold translation
      rw [if_pos ha, hC.gone a ha hlo hhi hby]
      rfl
    constructor
    · intro x hx
      cases hnone.symm.trans (hbefore' a x hx)
    · rintro m hm b hb rfl
      rcases hlive' m hm b hb with ⟨f, hf⟩
      cases hnone.symm.trans hf
  · intro hcareful
    -- the others are as they were
    have hkept : ∀ a x, translation S.vm a = some x →
        ¬ (pagesFrom (addr + S.vm.hhdmOffset) ≤ a ∧ a < pagesTo (addr + S.vm.hhdmOffset) len ∧
          TranslatedBy S.vm a .base) → translation s' a = some x := by
      intro a x hx hnot
      rw [← hx]
      exact translation_congr fun hcan => hC.kept a hcan hnot
    constructor
    · intro m hm b hb
      rcases hlive m (List.mem_of_mem_erase hm) b hb with ⟨f, hf⟩
      refine ⟨f, hkept _ _ hf ?_⟩
      rintro ⟨hlo, hhi, hby⟩
      exact (hcareful _ (isCanonical_of_translation hf) hlo hhi hby).2 m hm b hb rfl
    · intro a x hx
      have hx' := hbefore a x hx
      refine hkept a x hx' ?_
      rintro ⟨hlo, hhi, hby⟩
      exact (hcareful a (isCanonical_of_translation hx') hlo hhi hby).1 x hx

/-- The session survives a call if and only if the call is careful. -/
theorem Does.survives_iff {c : Call} (h : S.Does c S') (hS : S.Intact others s₀) :
    (∃ init held, Tree init others S'.vm held) ∧ (S'.Survives s₀ ↔ S.Careful s₀ c) := by
  rcases hS.tree with ⟨init, held, hT⟩
  cases h with
  | map hrun hvirt =>
      rcases uacpiKernelMap_spec hT hrun with ⟨hE, hdone⟩
      exact ⟨hE.tree, survives_map_iff hS hE (hdone hvirt).2⟩
  | refused hrun =>
      rcases uacpiKernelMap_spec hT hrun with ⟨hE, -⟩
      exact ⟨hE.tree, iff_of_true (survives_of_extended hS hE) trivial⟩
  | unmap hmem hrun =>
      rcases uacpiKernelUnmap_spec hT (lt_of_uacpiKernelUnmap hrun) with ⟨t, hrun', hC⟩
      cases hrun.symm.trans hrun'
      exact ⟨hC.tree, survives_unmap_iff hS hC⟩

theorem Start.intact (h : S.Start others) : S.Intact others S.vm := by
  refine ⟨h.tree, h.tree, ?_, fun _ _ hx => hx⟩
  rw [h.live_eq]
  exact fun m hm => absurd hm List.not_mem_nil

/-- As long as everything that is mapped has its place in the direct map, a map finds nothing
elsewhere. -/
theorem careful_map_of_placed {init held : List ℕ} (hT : Tree init others S.vm held)
    (hplaced : ∀ a x, translation S.vm a = some x → x.1 + S.vm.hhdmOffset = a) (addr len : ℕ) :
    S.Careful s₀ (.map addr len) := by
  intro b _ x hx
  rw [translate_eq_iff hT] at hx
  exact Nat.add_right_cancel (hplaced _ _ hx)

theorem Step.intact (h : Step (Careful s₀) S S') (hS : S.Intact others s₀) :
    S'.Intact others s₀ := by
  rcases h with ⟨c, hcareful, hdoes⟩
  rcases hdoes.survives_iff hS with ⟨htree, hiff⟩
  exact ⟨hS.start, htree, hiff.2 hcareful⟩

end Session

/-- In a session of careful calls every outstanding mapping is in place, and so is what was
mapped before the session. The first call that is not careful changes that. -/
theorem mappings_survive {S₀ : Session} (hstart : S₀.Start others)
    (hrun : Relation.ReflTransGen (Session.Step (Session.Careful S₀.vm)) S₀ S) :
    S.Survives S₀.vm ∧
      ∀ c S', S.Does c S' → (S'.Survives S₀.vm ↔ S.Careful S₀.vm c) := by
  have hS : S.Intact others S₀.vm := by
    refine reach_invariant ?_ hrun hstart.intact
    exact fun _ _ hstep => hstep.intact
  exact ⟨hS.survives, fun c S' hdoes => (hdoes.survives_iff hS).2⟩

end

/-- A range is mapped, and then another one: in the next page, or in the same. -/
theorem two_ranges_run : letI := X86.documented
    ∃ s₁, (addRange 1 4).run (freshPhys 5) = .ok () s₁ ∧ ∃ s₂,
      (allocPages 0).run s₁ = .ok (some (4 * frameSize)) s₂ ∧ s₂.pmm.totalFrames = 5 ∧ ∃ t₁,
      (uacpiKernelMap 0 8).run (emptyVm s₂ 4) = .ok 4096 t₁ ∧ t₁.hhdmOffset = 4096 ∧
      (∃ t₂, (uacpiKernelMap 4096 8).run t₁ = .ok 8192 t₂ ∧ t₂.hhdmOffset = 4096) ∧ ∃ t₂,
      (uacpiKernelMap 8 8).run t₁ = .ok 4104 t₂ ∧ t₂.hhdmOffset = 4096 ∧
      TranslatedBy t₂ 4104 .base := by
  unfold addRange
  unfold addRange
  unfold addRange
  unfold addRange
  exact ⟨_, rfl, _, rfl, rfl, _, rfl, rfl, ⟨_, rfl, rfl⟩, _, rfl, rfl, _, rfl⟩

/-- Two ranges in two pages are mapped, and the first is returned. The second is in place. -/
theorem mappings_survive_returned : letI := X86.documented
    ∃ S₀ S₁ S₂ S : Session, S₀.Start [] ∧
      S₀.Does (.map 0 8) S₁ ∧ S₁.Does (.map 4096 8) S₂ ∧ S₂.Does (.unmap 0 8) S ∧
      Relation.ReflTransGen (Session.Step (Session.Careful S₀.vm)) S₀ S ∧
      S.live = [(4096, 8)] ∧ S.Survives S₀.vm := by
  let := X86.documented
  rcases two_ranges_run with
    ⟨s₁, hseed, s₂, halloc, htotal, t₁, hmap₁, hhdm₁, ⟨t₂, hmap₂, hhdm₂⟩, -⟩
  have hT := (seeded_start (by decide) (by decide) hseed halloc htotal).tree
  have hE₁ := (uacpiKernelMap_spec hT hmap₁).1
  rcases hE₁.tree with ⟨init₁, held₁, hT₁⟩
  rcases (uacpiKernelMap_spec hT₁ hmap₂).1.tree with ⟨init₂, held₂, hT₂⟩
  rcases uacpiKernelUnmap_spec hT₂ (by decide : 4096 + 8 + 4096 < 2 ^ 64) with ⟨t₃, hunmap, -⟩
  set S₀ : Session := ⟨emptyVm s₂ 4, []⟩ with hS₀
  have hstart : S₀.Start [] := ⟨⟨_, _, hT⟩, rfl⟩
  have hdoes₁ : S₀.Does (.map 0 8) ⟨t₁, [(0, 8)]⟩ := .map hmap₁ (by decide)
  have hdoes₂ : Session.Does ⟨t₁, [(0, 8)]⟩ (.map 4096 8) ⟨t₂, [(4096, 8), (0, 8)]⟩ :=
    .map hmap₂ (by decide)
  have hdoes₃ : Session.Does ⟨t₂, [(4096, 8), (0, 8)]⟩ (.unmap 0 8) ⟨t₃, [(4096, 8)]⟩ := by
    refine .unmap (List.mem_cons_of_mem _ List.mem_cons_self) ?_
    rw [hhdm₂]
    exact hunmap
  -- nothing is mapped before, and after the first call only what has its place
  have hempty : ∀ a x, translation S₀.vm a ≠ some x := by
    intro a x hx
    rw [translation_emptyVm] at hx
    cases hx
  have hcareful₁ : S₀.Careful S₀.vm (.map 0 8) :=
    Session.careful_map_of_placed hT (fun a x hx => absurd hx (hempty a x)) 0 8
  have hcareful₂ : Session.Careful S₀.vm ⟨t₁, [(0, 8)]⟩ (.map 4096 8) := by
    refine Session.careful_map_of_placed hT₁ ?_ 4096 8
    intro a x hx
    rw [hE₁.hhdm]
    exact (hE₁.adds a x hx).resolve_left (hempty a x)
  -- the pages of the first range end where the second begins
  have hcareful₃ : Session.Careful S₀.vm ⟨t₂, [(4096, 8), (0, 8)]⟩ (.unmap 0 8) := by
    intro a _ _ hhi _
    constructor
    · intro x hx
      exact hempty a x ((translate_eq_iff hT).1 hx)
    · intro m hm b _ heq
      rcases List.mem_singleton.1 hm with rfl
      change a = 4096 + b + t₂.hhdmOffset at heq
      change a < pagesTo (0 + t₂.hhdmOffset) 8 at hhi
      unfold pagesTo at hhi
      omega
  have hrun : Relation.ReflTransGen (Session.Step (Session.Careful S₀.vm)) S₀
      ⟨t₃, [(4096, 8)]⟩ :=
    ((Relation.ReflTransGen.single ⟨_, hcareful₁, hdoes₁⟩).tail ⟨_, hcareful₂, hdoes₂⟩).tail
      ⟨_, hcareful₃, hdoes₃⟩
  exact ⟨S₀, _, _, _, hstart, hdoes₁, hdoes₂, hdoes₃, hrun, rfl, (mappings_survive hstart hrun).1⟩

/-- Two mappings share a page. When the first is returned, the second is gone. -/
theorem shared_page_lost : letI := X86.documented
    ∃ S₀ S : Session, S₀.Start [] ∧ Relation.ReflTransGen (Session.Step fun _ _ => True) S₀ S ∧
      S.live = [(8, 8)] ∧ (translate (8 + S.vm.hhdmOffset)).run S.vm = .ok none S.vm ∧
      ¬ S.Survives S₀.vm := by
  let := X86.documented
  rcases two_ranges_run with
    ⟨s₁, hseed, s₂, halloc, htotal, t₁, hmap₁, -, -, t₂, hmap₂, hhdm, hby⟩
  have hT := (seeded_start (by decide) (by decide) hseed halloc htotal).tree
  rcases (uacpiKernelMap_spec hT hmap₁).1.tree with ⟨init₁, held₁, hT₁⟩
  rcases (uacpiKernelMap_spec hT₁ hmap₂).1.tree with ⟨init₂, held₂, hT₂⟩
  rcases uacpiKernelUnmap_spec hT₂ (by decide : 4096 + 8 + 4096 < 2 ^ 64) with
    ⟨t₃, hunmap, ⟨init₃, held₃, hT₃⟩, hhdm₃, hgone, -⟩
  set S₀ : Session := ⟨emptyVm s₂ 4, []⟩ with hS₀
  have hstart : S₀.Start [] := ⟨⟨_, _, hT⟩, rfl⟩
  -- the second mapping begins at `8 + hhdm = 4104`
  have hnone : (translate (8 + t₃.hhdmOffset)).run t₃ = .ok none t₃ := by
    rw [translate_eq_iff hT₃, hhdm₃, hhdm]
    unfold translation
    rw [if_pos (by decide), hgone 4104 (by decide) (by decide) (by decide) hby]
    rfl
  have hdoes₁ : S₀.Does (.map 0 8) ⟨t₁, [(0, 8)]⟩ := .map hmap₁ (by decide)
  have hdoes₂ : Session.Does ⟨t₁, [(0, 8)]⟩ (.map 8 8) ⟨t₂, [(8, 8), (0, 8)]⟩ :=
    .map hmap₂ (by decide)
  have hdoes₃ : Session.Does ⟨t₂, [(8, 8), (0, 8)]⟩ (.unmap 0 8) ⟨t₃, [(8, 8)]⟩ := by
    refine .unmap (List.mem_cons_of_mem _ List.mem_cons_self) ?_
    rw [hhdm]
    exact hunmap
  have hmaps : Relation.ReflTransGen (Session.Step fun _ _ => True) S₀
      ⟨t₂, [(8, 8), (0, 8)]⟩ :=
    (Relation.ReflTransGen.single ⟨_, trivial, hdoes₁⟩).tail ⟨_, trivial, hdoes₂⟩
  refine ⟨S₀, ⟨t₃, [(8, 8)]⟩, hstart, hmaps.tail ⟨_, trivial, hdoes₃⟩, rfl, hnone, ?_⟩
  intro hsurvives
  rcases hsurvives.1 (8, 8) List.mem_cons_self 0 (by decide) with ⟨f, hf⟩
  cases hnone.symm.trans hf

end Prometheos.Acpi
