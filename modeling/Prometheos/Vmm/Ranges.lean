import Prometheos.Vmm.Populated

/-!
# Ranges

`map_range` maps page after page, and unmaps those it has mapped if one fails. `Laid s t J` says
that `t` is `s` with the pages `J` mapped on top of it, and `Cleared t t' K` that `t'` is `t`
without the pages `K`. The first after the second is the identity on what is translated
(`Laid.cleared`), and if there are no empty tables also on the free frames: the walks then show
where the tables are, so that every table which was created has been given back
(`Laid.freeSet_eq`).

* `mapRange_all_or_nothing`: a `map_range` maps all its pages, or changes nothing;
* `unmapRange_undoes`: an `unmap_range` takes a `map_range` back, also if other pages were mapped
  and unmapped in between.
-/

namespace Prometheos.Vmm

open Pmm

/-! ## Pages on top of a state -/

/-- The pages of `J` were mapped, with these leaves, where nothing was mapped. -/
structure Laid (s t : Vm) (J : Set (List (Fin 512) × Word)) : Prop where
  vacant : ∀ x ∈ J, ∀ r, walk s (x.1 ++ r) = none
  mapped : ∀ x ∈ J, ∀ r, walk t (x.1 ++ r) = some (4 - x.1.length, x.2)
  other : ∀ q, (∀ x ∈ J, ¬ x.1 <+: q) → walk t q = walk s q
  tables : ∀ q g, tableAt s q = some g → tableAt t q = some g
  moved : Moved s [] t []

/-- The pages of `K` were unmapped. -/
structure Cleared (t t' : Vm) (K : Set (List (Fin 512))) : Prop where
  cleared : ∀ p ∈ K, ∀ r, walk t' (p ++ r) = none
  other : ∀ q, (∀ p ∈ K, ¬ p <+: q) → walk t' q = walk t q
  tables : ∀ q g, tableAt t' q = some g → tableAt t q = some g
  moved : Moved t [] t' []

section

variable {s t t' : Vm} {J : Set (List (Fin 512) × Word)} {K : Set (List (Fin 512))}
  {p q : List (Fin 512)} {leaf : Word}

theorem Laid.refl (s : Vm) : Laid s s ∅ :=
  ⟨fun _ h => h.elim, fun _ h => h.elim, fun _ _ => rfl, fun _ _ h => h, Moved.refl s []⟩

theorem Cleared.refl (t : Vm) : Cleared t t ∅ :=
  ⟨fun _ h => h.elim, fun _ _ => rfl, fun _ _ h => h, Moved.refl t []⟩

/-- What was mapped in the beginning still is. -/
theorem Laid.walk_eq (h : Laid s t J) {x : ℕ × Word} (hq : walk s q = some x) :
    walk t q = some x := by
  rw [h.other q, hq]
  rintro y hy ⟨r, rfl⟩
  exact Option.some_ne_none x (hq.symm.trans (h.vacant y hy r))

/-- One more page. -/
theorem Laid.insert (h : Laid s t J) (hM : Mapped t t' p leaf) (hmoved : Moved t [] t' []) :
    Laid s t' (insert (p, leaf) J) := by
  refine ⟨?_, ?_, ?_, fun q g hq => hM.tables q g (h.tables q g hq), h.moved.trans hmoved⟩
  · rintro x (rfl | hx) r
    · -- what was there at the start would be there still
      rw [Option.eq_none_iff_forall_ne_some]
      intro y hy
      have hnone := Radix.walk_append_of_none hM.vacant.1 hM.vacant.2 r
      exact Option.some_ne_none y ((h.walk_eq hy).symm.trans hnone)
    · exact h.vacant x hx r
  · rintro x (rfl | hx) r
    · exact hM.below r
    · exact hM.walk_eq (h.mapped x hx r)
  · intro q hq
    rw [hM.other q (hq _ (Set.mem_insert _ _)),
      h.other q fun x hx => hq x (Set.mem_insert_of_mem _ hx)]

/-- A call that was rolled back. -/
theorem Laid.restored {init held : List ℕ} {others : List (ℕ × ℕ)} (h : Laid s t J)
    (hR : Restored t t') (hT : Tree init others t held) : Laid s t' J := by
  refine ⟨h.vacant, ?_, ?_, ?_, h.moved.trans (hR.moved hT)⟩
  · intro x hx r
    rw [hR.walks, h.mapped x hx r]
  · intro q hq
    rw [hR.walks, h.other q hq]
  · intro q g hq
    rw [hR.tables, h.tables q g hq]

/-- One page less. -/
theorem Cleared.insert {u : Vm} (h : Cleared u t K) (hU : Unmapped t t' p)
    (hmoved : Moved t [] t' []) : Cleared u t' (insert p K) := by
  refine ⟨?_, ?_, fun q g hq => h.tables q g (hU.tables q g hq), h.moved.trans hmoved⟩
  · rintro p' (rfl | hp') r
    · exact hU.below r
    · by_cases hpre : p <+: p' ++ r
      · rcases hpre with ⟨r', hr'⟩
        rw [← hr']
        exact hU.below r'
      · rw [hU.other _ hpre]
        exact h.cleared p' hp' r
  · intro q hq
    rw [hU.other q (hq _ (Set.mem_insert _ _)),
      h.other q fun p hp => hq p (Set.mem_insert_of_mem _ hp)]

/-- The pages are unmapped again: the walks are those from before. -/
theorem Laid.cleared (h : Laid s t J) (hC : Cleared t t' (Prod.fst '' J)) (q : List (Fin 512)) :
    walk t' q = walk s q := by
  by_cases hq : ∃ x ∈ J, x.1 <+: q
  · rcases hq with ⟨x, hx, r, rfl⟩
    rw [hC.cleared x.1 ⟨x, hx, rfl⟩ r, h.vacant x hx r]
  · have hnot : ∀ x ∈ J, ¬ x.1 <+: q := fun x hx hpre => hq ⟨x, hx, hpre⟩
    rw [hC.other q, h.other q hnot]
    rintro _ ⟨x, hx, rfl⟩
    exact hnot x hx

/-- The pages are unmapped again: the free frames are those from before. A table of the start is
there in the end, for there is a leaf below it, and it is the same one, for it was there all the
time; and a table of the end was there at the start. -/
theorem Laid.freeSet_eq {init init' held held' : List ℕ} {others : List (ℕ × ℕ)}
    (h : Laid s t J) (hC : Cleared t t' (Prod.fst '' J)) (hno : NoEmpty s)
    (hT : Tree init others s held) (hT' : Tree init' others t' held') :
    freeSet t'.phys = freeSet s.phys := by
  have hno' : NoEmpty t' := hC.moved.noEmpty (h.moved.noEmpty hno)
  have hwalk := h.cleared hC
  have hthere : ∀ q g, tableAt s q = some g → tableAt t' q = some g := by
    intro q g hq
    rcases Radix.exists_tableAt_of_walk_eq kind_zero_ne_table hno.entry hwalk hq with ⟨g', hg'⟩
    have hsame := (h.tables q g hq).symm.trans (hC.tables q g' hg')
    rw [Option.some.inj hsame]
    exact hg'
  have hback : ∀ q g, tableAt t' q = some g → tableAt s q = some g := by
    intro q g hq
    rcases Radix.exists_tableAt_of_walk_eq kind_zero_ne_table hno'.entry (fun q => (hwalk q).symm)
      hq with ⟨g', hg'⟩
    rw [Option.some.inj (hq.symm.trans (hthere q g' hg'))]
    exact hg'
  -- a frame is free or a table, and not both
  have hpool : pool t' = pool s := hC.moved.pool_eq.trans h.moved.pool_eq
  ext f
  constructor
  · intro hf
    have hin : f ∈ pool s := hpool ▸ Or.inl hf
    rcases hin with hfree | ⟨q, hq⟩
    · exact hfree
    · exact absurd hf (hT'.notFree (hthere q f hq))
  · intro hf
    have hin : f ∈ pool t' := hpool.symm ▸ Or.inl hf
    rcases hin with hfree | ⟨q, hq⟩
    · exact hfree
    · exact absurd hf (hT.notFree (hback q f hq))

end

/-! ## The pages of a range -/

/-- The path of page `j` of a range. -/
def rangePath (virt : ℕ) (size : PageSize) (j : ℕ) : List (Fin 512) :=
  pagePath (virt + j * size.bytes) size

/-- The paths of the first `n` pages. -/
def rangePaths (virt : ℕ) (size : PageSize) (n : ℕ) : Set (List (Fin 512)) :=
  {p | ∃ j < n, p = rangePath virt size j}

/-- The first `n` pages, with their leaves. -/
def rangeLeaves [X86] (virt phys : ℕ) (flags : PTFlags) (size : PageSize) (n : ℕ) :
    Set (List (Fin 512) × Word) :=
  {x | ∃ j < n, x = (rangePath virt size j, leafEntry (phys + j * size.bytes) flags size)}

/-- Pages `0` to `n - 1` of the range are mapped with the size of the range. -/
def PagesAt (s : Vm) (virt : ℕ) (size : PageSize) (n : ℕ) : Prop :=
  ∀ j < n, PageAt s (virt + j * size.bytes) size

section

variable {virt n j : ℕ} {size : PageSize}

theorem setOf_lt_succ {α : Type} (f : ℕ → α) (n : ℕ) :
    {x | ∃ j < n + 1, x = f j} = insert (f n) {x | ∃ j < n, x = f j} := by
  ext x
  constructor
  · rintro ⟨j, hj, rfl⟩
    rcases Nat.lt_succ_iff_lt_or_eq.1 hj with hlt | rfl
    · exact Or.inr ⟨j, hlt, rfl⟩
    · exact Or.inl rfl
  · rintro (rfl | ⟨j, hj, rfl⟩)
    · exact ⟨n, Nat.lt_succ_self n, rfl⟩
    · exact ⟨j, Nat.lt_succ_of_lt hj, rfl⟩

theorem setOf_lt_zero {α : Type} (f : ℕ → α) : {x | ∃ j < 0, x = f j} = ∅ := by
  ext x
  constructor
  · rintro ⟨j, hj, -⟩
    exact absurd hj (Nat.not_lt_zero j)
  · exact fun h => h.elim

theorem fst_rangeLeaves [X86] (virt phys : ℕ) (flags : PTFlags) (size : PageSize) (n : ℕ) :
    Prod.fst '' rangeLeaves virt phys flags size n = rangePaths virt size n := by
  ext p
  constructor
  · rintro ⟨x, ⟨j, hj, rfl⟩, rfl⟩
    exact ⟨j, hj, rfl⟩
  · rintro ⟨j, hj, rfl⟩
    exact ⟨_, ⟨j, hj, rfl⟩, rfl⟩

/-- The addresses of a range are those of its pages. -/
theorem inPage_range_iff {a : ℕ} : (∃ j < n, InPage (virt + j * size.bytes) size a) ↔
    virt ≤ a ∧ a < virt + n * size.bytes := by
  have hpos := bytes_pos size
  constructor
  · rintro ⟨j, hj, hle, hlt⟩
    have hmul : (j + 1) * size.bytes ≤ n * size.bytes := Nat.mul_le_mul_right _ hj
    rw [Nat.succ_mul] at hmul
    omega
  · rintro ⟨hle, hlt⟩
    have hdiv := Nat.div_add_mod (a - virt) size.bytes
    have hmod := Nat.mod_lt (a - virt) hpos
    rw [Nat.mul_comm] at hdiv
    refine ⟨(a - virt) / size.bytes, ?_, ?_, ?_⟩
    · rw [Nat.div_lt_iff_lt_mul hpos]
      omega
    · omega
    · omega

/-- Two pages of a range have different paths. -/
theorem rangePath_not_isPrefix {j k : ℕ}
    (hj : isCanonical (virt + j * size.bytes) = true)
    (hal : (virt + j * size.bytes) % size.bytes = 0)
    (hk : isCanonical (virt + k * size.bytes) = true) (hjk : j < k) :
    ¬ rangePath virt size j <+: rangePath virt size k := by
  intro hpre
  have hin := (isPrefix_iff_inPage hj hk hal).1 (hpre.trans (pagePath_isPrefix _ size))
  have hmul : (j + 1) * size.bytes ≤ k * size.bytes := Nat.mul_le_mul_right _ hjk
  rw [Nat.succ_mul] at hmul
  have hlt := hin.2
  omega

end

/-! ## The loops -/

theorem lt_of_isCanonical {a : ℕ} (h : isCanonical a = true) : a < 2 ^ 64 := by
  rw [isCanonical_iff] at h
  omega

section

variable [X86] {init held : List ℕ} {others : List (ℕ × ℕ)} {s t u : Vm} {virt phys n i : ℕ}
  {flags : PTFlags} {size : PageSize}

/-- A turn of a loop that unmaps: the page is still there, and it is unmapped. -/
theorem Cleared.turn (hC : Cleared u t (rangePaths virt size i)) (hT : Tree init others t held)
    (hpages : PagesAt u virt size n) (hi : i < n) :
    ∃ t' held', (unmap (virt + i * size.bytes) size).run t = .ok (.ok ()) t' ∧
      Tree init others t' held' ∧ Cleared u t' (rangePaths virt size (i + 1)) := by
  rcases hpages i hi with ⟨hcan, hal, w, hw⟩
  have hstill : walk t (rangePath virt size i) = walk u (rangePath virt size i) := by
    refine hC.other _ ?_
    rintro _ ⟨j, hj, rfl⟩
    rcases hpages j (hj.trans hi) with ⟨hcanj, halj, -⟩
    exact rangePath_not_isPrefix hcanj halj hcan hj
  rcases unmap_run hT (virt + i * size.bytes) size with ⟨r, t', held', hrun, hT', hM, hpost⟩
  cases hpost.eq_ok ⟨hcan, hal, w, hstill.trans hw⟩
  refine ⟨t', held', hrun, hT', ?_⟩
  unfold rangePaths
  rw [setOf_lt_succ]
  exact hC.insert hpost.2 hM

/-- `unmap_range` of pages that are mapped succeeds, and unmaps them. -/
theorem unmapPages_run (hpages : PagesAt u virt size n) :
    ∀ {k i : ℕ} {t : Vm} {held : List ℕ}, i + k = n → Tree init others t held →
    Cleared u t (rangePaths virt size i) →
    ∃ t' held', (unmapPages virt size k i).run t = .ok (.ok ()) t' ∧ Tree init others t' held' ∧
      Cleared u t' (rangePaths virt size n) := by
  intro k
  induction k with
  | zero =>
      intro i t held hi hT hC
      exact ⟨t, held, rfl, hT, hi ▸ hC⟩
  | succ k ih =>
      intro i t held hi hT hC
      have hlt := lt_of_isCanonical (hpages i (by omega)).1
      rcases hC.turn hT hpages (by omega) with ⟨t₁, held₁, hrun, hT₁, hC₁⟩
      rcases ih (by omega) hT₁ hC₁ with ⟨t', held', hrest, hpost⟩
      refine ⟨t', held', ?_, hpost⟩
      unfold unmapPages
      rw [Prog.bind_of_ok (mulU64_of_lt (by omega) t), Prog.bind_of_ok (addU64_of_lt hlt t),
        Prog.bind_of_ok hrun]
      exact hrest

/-- The rollback of `map_range` unmaps the pages that were mapped. -/
theorem unmapBefore_cleared {s' : Vm} (hT : Tree init others t held)
    (hpages : PagesAt t virt size n) (hrun : (unmapBefore virt size n).run t = .ok () s') :
    ∃ held', Tree init others s' held' ∧ Cleared t s' (rangePaths virt size n) := by
  refine unmapBefore_of_ok
    (I := fun j v => ∃ held', Tree init others v held' ∧ Cleared t v (rangePaths virt size j))
    hrun ⟨held, hT, ?_⟩ ?_
  · unfold rangePaths
    rw [setOf_lt_zero]
    exact Cleared.refl t
  · rintro j hj r v v' ⟨held₁, hT₁, hC⟩ hcall
    rcases hC.turn hT₁ hpages hj with ⟨v₁, held₂, hcall', hT₂, hC₂⟩
    cases hcall.symm.trans hcall'
    exact ⟨held₂, hT₂, hC₂⟩

/-- The first `i` pages of a range were mapped on top of `s`. -/
structure LaidRange (init : List ℕ) (others : List (ℕ × ℕ)) (s t : Vm) (virt phys : ℕ)
    (flags : PTFlags) (size : PageSize) (i : ℕ) : Prop where
  tree : ∃ held, Tree init others t held
  laid : Laid s t (rangeLeaves virt phys flags size i)
  accepted : ∀ j < i, Accepted (virt + j * size.bytes) (phys + j * size.bytes) size
  phys_lt : ∀ j < i, phys + j * size.bytes < 2 ^ 52

theorem LaidRange.pagesAt (h : LaidRange init others s t virt phys flags size i) :
    PagesAt t virt size i := by
  intro j hj
  rcases h.accepted j hj with ⟨hcan, hal, -⟩
  refine ⟨hcan, hal, leafEntry (phys + j * size.bytes) flags size, ?_⟩
  have hmapped := h.laid.mapped _ ⟨j, hj, rfl⟩ []
  rw [List.append_nil] at hmapped
  exact hmapped

theorem LaidRange.zero (hT : Tree init others s held) :
    LaidRange init others s s virt phys flags size 0 := by
  refine ⟨⟨held, hT⟩, ?_, fun j hj => absurd hj (Nat.not_lt_zero j),
    fun j hj => absurd hj (Nat.not_lt_zero j)⟩
  unfold rangeLeaves
  rw [setOf_lt_zero]
  exact Laid.refl s

/-- A turn of `map_range`. -/
theorem LaidRange.turn {t' : Vm} {r : Except MapError Unit}
    (h : LaidRange init others s t virt phys flags size i)
    (hrun : (map (virt + i * size.bytes) (phys + i * size.bytes) flags size).run t = .ok r t') :
    (r = .ok () → LaidRange init others s t' virt phys flags size (i + 1)) ∧
      ∀ e, r = .error e → LaidRange init others s t' virt phys flags size i := by
  rcases h.tree with ⟨held, hT⟩
  rcases map_of_ok hT hrun with ⟨htree, hM, hpost⟩
  constructor
  · rintro rfl
    refine ⟨htree, ?_, ?_, ?_⟩
    · unfold rangeLeaves
      rw [setOf_lt_succ]
      exact h.laid.insert hpost.2.2 hM
    · intro j hj
      rcases Nat.lt_succ_iff_lt_or_eq.1 hj with hlt | rfl
      · exact h.accepted j hlt
      · exact hpost.1
    · intro j hj
      rcases Nat.lt_succ_iff_lt_or_eq.1 hj with hlt | rfl
      · exact h.phys_lt j hlt
      · exact hpost.2.1
  · rintro e rfl
    exact ⟨htree, h.laid.restored hpost.restored hT, h.accepted, h.phys_lt⟩

/-- The loop of `map_range`: it maps all pages, or some, which are then unmapped. -/
theorem mapPages_run : ∀ {k i : ℕ} {t s' : Vm} {r : Except MapError Unit}, i + k = n →
    LaidRange init others s t virt phys flags size i →
    (mapPages virt phys flags size k i).run t = .ok r s' →
    r = .ok () ∧ LaidRange init others s s' virt phys flags size n ∨
      ∃ e j t₁, r = .error e ∧ LaidRange init others s t₁ virt phys flags size j ∧
        (unmapBefore virt size j).run t₁ = .ok () s' := by
  intro k
  induction k with
  | zero =>
      intro i t s' r hi h hrun
      cases hrun
      exact Or.inl ⟨rfl, hi ▸ h⟩
  | succ k ih =>
      intro i t s' r hi h hrun
      rcases mapPages_turn hrun with ⟨res, t₁, hcall, ⟨hok, hrest⟩ | ⟨e, herr, hr, hundo⟩⟩
      · exact ih (by omega) ((h.turn hcall).1 hok) hrest
      · exact Or.inr ⟨e, i, t₁, hr, (h.turn hcall).2 e herr, hundo⟩

/-- A rollback: the walks and the free frames are those from before. -/
theorem LaidRange.undone {s' : Vm} {held' : List ℕ}
    (h : LaidRange init others s t virt phys flags size i) (hno : NoEmpty s)
    (hT : Tree init others s held) (hT' : Tree init others s' held')
    (hC : Cleared t s' (rangePaths virt size i)) :
    (∀ q, walk s' q = walk s q) ∧ freeSet s'.phys = freeSet s.phys := by
  rw [← fst_rangeLeaves virt phys flags size i] at hC
  exact ⟨h.laid.cleared hC, h.laid.freeSet_eq hC hno hT hT'⟩

/-! ## `map_range` -/

omit [X86] in
/-- An address that is in no page of a range. -/
theorem not_isPrefix_of_not_mem {a j : ℕ} (ha : ¬ (virt ≤ a ∧ a < virt + n * size.bytes))
    (hcan : isCanonical (virt + j * size.bytes) = true)
    (hal : (virt + j * size.bytes) % size.bytes = 0) (hcan' : isCanonical a = true) (hj : j < n) :
    ¬ rangePath virt size j <+: pagePath a .base :=
  fun hpre => ha (inPage_range_iff.1 ⟨j, hj, (isPrefix_iff_inPage hcan hcan' hal).1 hpre⟩)

/-- After a `map_range` the addresses of the range translate to the frames that were asked for,
and the others as before. -/
theorem LaidRange.translation_eq (h : LaidRange init others s t virt phys flags size n) (a : ℕ) :
    (virt ≤ a → a < virt + n * size.bytes →
      ∃ f, translation t a = some (phys + (a - virt), f)) ∧
    (¬ (virt ≤ a ∧ a < virt + n * size.bytes) → translation t a = translation s a) := by
  constructor
  · intro hle hlt
    rcases inPage_range_iff.2 ⟨hle, hlt⟩ with ⟨j, hj, ha⟩
    rcases h.accepted j hj with ⟨hcan, hal, hmod⟩
    have hbelow := h.laid.mapped _ ⟨j, hj, rfl⟩
    change ∀ r, walk t (pagePath _ size ++ r) = some (4 - (pagePath _ size).length, _) at hbelow
    rw [length_pagePath] at hbelow
    rcases leafView_leafEntry flags hmod (h.phys_lt j hj) hal ha with ⟨f, hview, -⟩
    have hoffset : phys + j * size.bytes + (a - (virt + j * size.bytes)) = phys + (a - virt) := by
      have hstart := ha.1
      omega
    rw [hoffset] at hview
    exact ⟨f, by rw [translation_of_inPage hcan hal hbelow ha, Option.map_some, hview]⟩
  · intro ha
    refine translation_congr fun hcan' => h.laid.other _ ?_
    rintro _ ⟨j, hj, rfl⟩
    rcases h.accepted j hj with ⟨hcan, hal, -⟩
    exact not_isPrefix_of_not_mem ha hcan hal hcan' hj

end

/-- `map_range` is all or nothing. It returns if no address leaves `u64` and the physical range
fits into entries. If it succeeds, every address of the range translates to the one at the same
place of the physical range, and the others as before. If it fails, then every address translates as
before, and the free frames are those from before. -/
theorem mapRange_all_or_nothing [X86] {init held : List ℕ} {others : List (ℕ × ℕ)} {s : Vm}
    (hT : Tree init others s held) (hno : NoEmpty s) (virt phys pages : ℕ) (flags : PTFlags)
    (size : PageSize) :
    (Fits virt pages size → phys + pages * size.bytes ≤ 2 ^ 52 →
      ∃ r s', (mapRange virt phys pages flags size).run s = .ok r s') ∧
    ∀ r s', (mapRange virt phys pages flags size).run s = .ok r s' →
      (r = .ok () →
        (∀ k < pages * size.bytes, ∃ f,
          (translate (virt + k)).run s' = .ok (some (phys + k, f)) s') ∧
        ∀ a, ¬ (virt ≤ a ∧ a < virt + pages * size.bytes) → ∃ o,
          (translate a).run s' = .ok o s' ∧ (translate a).run s = .ok o s) ∧
      (∀ e, r = .error e →
        (∀ a, ∃ o, (translate a).run s' = .ok o s' ∧ (translate a).run s = .ok o s) ∧
        freeSet s'.phys = freeSet s.phys) := by
  constructor
  · intro hv hp
    rcases (mapRange_spec hT virt phys pages flags size).exists_ok (fun h => h ⟨hv, hp⟩) with
      ⟨r, s', hrun, -⟩
    exact ⟨r, s', hrun⟩
  · intro r s' hrun
    rcases mapPages_run (Nat.zero_add pages) (LaidRange.zero hT) hrun with
      ⟨rfl, h⟩ | ⟨e, j, t, rfl, h, hundo⟩
    · rcases h.tree with ⟨held', hT'⟩
      refine ⟨fun _ => ⟨?_, ?_⟩, nofun⟩
      · intro k hk
        rcases (h.translation_eq (virt + k)).1 (Nat.le_add_right _ _) (by omega) with ⟨f, hf⟩
        rw [Nat.add_sub_cancel_left] at hf
        exact ⟨f, by rw [translate_spec hT'.readable, hf]⟩
      · intro a ha
        refine ⟨translation s a, ?_, translate_spec hT.readable a⟩
        rw [translate_spec hT'.readable, (h.translation_eq a).2 ha]
    · refine ⟨nofun, fun _ _ => ?_⟩
      rcases h.tree with ⟨held₁, hT₁⟩
      rcases unmapBefore_cleared hT₁ h.pagesAt hundo with ⟨held', hT', hC⟩
      rcases h.undone hno hT hT' hC with ⟨hwalk, hfree⟩
      refine ⟨fun a => ⟨translation s a, ?_, translate_spec hT.readable a⟩, hfree⟩
      rw [translate_spec hT'.readable, translation_congr fun _ => hwalk _]

set_option maxRecDepth 20000 in
/-- One frame is left beside the PML4. The first of two huge pages takes it for its PDPT, and the
second one needs a PDPT of its own. -/
theorem short_range_run : letI := X86.documented
    ∃ s₁, (addRange 1 2).run (freshPhys 3) = .ok () s₁ ∧ ∃ s₂,
      (allocPages 0).run s₁ = .ok (some (2 * frameSize)) s₂ ∧ s₂.pmm.totalFrames = 3 ∧ ∃ s',
      (mapRange 0x7FC0000000 0 2 ⟨flagRW, rfl⟩ .huge).run (emptyVm s₂ 2) =
        .ok (.error .outOfMemory) s' := by
  unfold addRange
  unfold addRange
  unfold addRange
  exact ⟨_, rfl, _, rfl, rfl, _, rfl⟩

/-- The frame is free again, and the first page is not mapped. -/
theorem mapRange_all_or_nothing_short : letI := X86.documented
    ∃ s s' : Vm, NoEmpty s ∧
      (mapRange 0x7FC0000000 0 2 ⟨flagRW, rfl⟩ .huge).run s = .ok (.error .outOfMemory) s' ∧
      (∃ o, (translate 0x7FC0000000).run s' = .ok o s' ∧
        (translate 0x7FC0000000).run s = .ok o s) ∧
      freeSet s'.phys = freeSet s.phys := by
  let := X86.documented
  rcases short_range_run with ⟨s₁, hseed, s₂, halloc, htotal, s', hrun⟩
  have hT := (seeded_start (by decide) (by decide) hseed halloc htotal).tree
  have hno := noEmpty_emptyVm s₂ 2
  rcases (mapRange_all_or_nothing hT hno 0x7FC0000000 0 2 ⟨flagRW, rfl⟩ .huge).2 _ _ hrun with
    ⟨-, hfails⟩
  rcases hfails _ rfl with ⟨htrans, hfree⟩
  exact ⟨_, s', hno, hrun, htrans 0x7FC0000000, hfree⟩

/-! ## `unmap_range` -/

/-- A successful `map` or `unmap` of a page that does not meet the addresses from `lo` to `hi`. -/
inductive Aside [X86] (lo hi : ℕ) (s : Vm) : Vm → Prop
  | map (virt phys : ℕ) (flags : PTFlags) (size : PageSize) {s' : Vm} :
      virt + size.bytes ≤ lo ∨ hi ≤ virt →
      (Vmm.map virt phys flags size).run s = .ok (.ok ()) s' → Aside lo hi s s'
  | unmap (virt : ℕ) (size : PageSize) {s' : Vm} : virt + size.bytes ≤ lo ∨ hi ≤ virt →
      (Vmm.unmap virt size).run s = .ok (.ok ()) s' → Aside lo hi s s'

section

variable [X86] {init held : List ℕ} {others : List (ℕ × ℕ)} {s s' : Vm} {virt n : ℕ}
  {size : PageSize}

/-- The pages of a range stay while others are mapped and unmapped. -/
theorem Aside.pagesAt (h : Aside virt (virt + n * size.bytes) s s')
    (hT : ∃ held, Tree init others s held) (hpages : PagesAt s virt size n) :
    (∃ held, Tree init others s' held) ∧ PagesAt s' virt size n := by
  rcases hT with ⟨held, hT⟩
  cases h with
  | map v p flags size' _ hrun =>
      rcases map_of_ok hT hrun with ⟨htree, -, hpost⟩
      exact ⟨htree, fun j hj => hpost.pageAt (hpages j hj)⟩
  | unmap v size' hapart hrun =>
      rcases unmap_spec hT v size' with ⟨r, t, held', hrun', hT', hpost⟩
      cases hrun.symm.trans hrun'
      rcases unmap_args hrun with ⟨hcan', hal'⟩
      refine ⟨⟨held', hT'⟩, ?_⟩
      intro j hj
      rcases hpages j hj with ⟨hcan, hal, w, hw⟩
      refine ⟨hcan, hal, w, ?_⟩
      rw [hpost.2.other, hw]
      -- the first address of the page would be in the page that was unmapped
      intro hpre
      have hin := (isPrefix_iff_inPage hcan' hcan hal').1 (hpre.trans (pagePath_isPrefix _ size))
      have hmem := inPage_range_iff.1
        (⟨j, hj, le_refl _, Nat.lt_add_of_pos_right (bytes_pos size)⟩ :
          ∃ j' < n, InPage (virt + j' * size.bytes) size (virt + j * size.bytes))
      rcases hin with ⟨hle, hlt⟩
      omega

/-- After an `unmap_range` no address of the range is translated, and the others are translated
as before. -/
theorem Cleared.translation_eq (hC : Cleared s s' (rangePaths virt size n))
    (hpages : PagesAt s virt size n) (a : ℕ) :
    (virt ≤ a → a < virt + n * size.bytes → translation s' a = none) ∧
    (¬ (virt ≤ a ∧ a < virt + n * size.bytes) → translation s' a = translation s a) := by
  constructor
  · intro hle hlt
    rcases inPage_range_iff.2 ⟨hle, hlt⟩ with ⟨j, hj, ha⟩
    rcases hpages j hj with ⟨hcan, hal, -⟩
    rw [translation_of_inPage hcan hal (hC.cleared _ ⟨j, hj, rfl⟩) ha]
    rfl
  · intro ha
    refine translation_congr fun hcan' => hC.other _ ?_
    rintro _ ⟨j, hj, rfl⟩
    rcases hpages j hj with ⟨hcan, hal, -⟩
    exact not_isPrefix_of_not_mem ha hcan hal hcan' hj

end

/-- `unmap_range` undoes `map_range`. After a `map_range` that succeeded, and calls that map and
unmap other pages, it succeeds; no address of the range is translated then, and the others are
translated as before the call. If there were no other calls, then all addresses translate as
before the `map_range`, and the free frames are those from before it. -/
theorem unmapRange_undoes [X86] {init held : List ℕ} {others : List (ℕ × ℕ)} {s s₁ s₂ : Vm}
    {virt phys pages : ℕ} {flags : PTFlags} {size : PageSize} (hT : Tree init others s held)
    (hno : NoEmpty s) (hmap : (mapRange virt phys pages flags size).run s = .ok (.ok ()) s₁)
    (haside : Relation.ReflTransGen (Aside virt (virt + pages * size.bytes)) s₁ s₂) :
    ∃ s₃, (unmapRange virt pages size).run s₂ = .ok (.ok ()) s₃ ∧
      (∀ a, virt ≤ a → a < virt + pages * size.bytes → (translate a).run s₃ = .ok none s₃) ∧
      (∀ a, ¬ (virt ≤ a ∧ a < virt + pages * size.bytes) → ∃ o,
        (translate a).run s₃ = .ok o s₃ ∧ (translate a).run s₂ = .ok o s₂) ∧
      (s₂ = s₁ →
        (∀ a, ∃ o, (translate a).run s₃ = .ok o s₃ ∧ (translate a).run s = .ok o s) ∧
        freeSet s₃.phys = freeSet s.phys) := by
  rcases mapPages_run (Nat.zero_add pages) (LaidRange.zero hT) hmap with
    ⟨-, hlaid⟩ | ⟨e, _, _, hr, -⟩
  · have hstep : ∀ t t', Aside virt (virt + pages * size.bytes) t t' →
        (∃ held, Tree init others t held) ∧ PagesAt t virt size pages →
        (∃ held, Tree init others t' held) ∧ PagesAt t' virt size pages :=
      fun _ _ h hinv => h.pagesAt hinv.1 hinv.2
    rcases reach_invariant hstep haside ⟨hlaid.tree, hlaid.pagesAt⟩ with ⟨⟨held₂, hT₂⟩, hpages⟩
    have hstart : Cleared s₂ s₂ (rangePaths virt size 0) := by
      unfold rangePaths
      rw [setOf_lt_zero]
      exact Cleared.refl s₂
    rcases unmapPages_run hpages (Nat.zero_add pages) hT₂ hstart with ⟨s₃, held₃, hrun, hT₃, hC⟩
    refine ⟨s₃, hrun, ?_, ?_, ?_⟩
    · intro a hle hlt
      rw [translate_spec hT₃.readable, (hC.translation_eq hpages a).1 hle hlt]
    · intro a ha
      refine ⟨translation s₂ a, ?_, translate_spec hT₂.readable a⟩
      rw [translate_spec hT₃.readable, (hC.translation_eq hpages a).2 ha]
    · rintro rfl
      rcases hlaid.undone hno hT hT₃ hC with ⟨hwalk, hfree⟩
      refine ⟨fun a => ⟨translation s a, ?_, translate_spec hT.readable a⟩, hfree⟩
      rw [translate_spec hT₃.readable, translation_congr fun _ => hwalk _]
  · cases hr

/-- A range of one huge page, and another page beside it, which uses the same PDPT. -/
theorem page_beside_run : letI := X86.documented
    ∃ s₁, (addRange 1 2).run (freshPhys 3) = .ok () s₁ ∧ ∃ s₂,
      (allocPages 0).run s₁ = .ok (some (2 * frameSize)) s₂ ∧ s₂.pmm.totalFrames = 3 ∧ ∃ s,
      (mapRange 0 0 1 ⟨flagRW, rfl⟩ .huge).run (emptyVm s₂ 2) = .ok (.ok ()) s ∧ ∃ s',
        (map 0x40000000 0 ⟨flagRW, rfl⟩ .huge).run s = .ok (.ok ()) s' := by
  unfold addRange
  unfold addRange
  unfold addRange
  exact ⟨_, rfl, _, rfl, rfl, _, rfl, _, rfl⟩

/-- The range is unmapped, and the page beside it stays. -/
theorem unmapRange_undoes_page_beside : letI := X86.documented
    ∃ s₀ s s' s₃ : Vm, NoEmpty s₀ ∧
      (mapRange 0 0 1 ⟨flagRW, rfl⟩ .huge).run s₀ = .ok (.ok ()) s ∧
      (map 0x40000000 0 ⟨flagRW, rfl⟩ .huge).run s = .ok (.ok ()) s' ∧
      (unmapRange 0 1 .huge).run s' = .ok (.ok ()) s₃ ∧ (translate 0).run s₃ = .ok none s₃ ∧
      ∃ o, (translate 0x40000000).run s₃ = .ok o s₃ ∧
        (translate 0x40000000).run s' = .ok o s' := by
  let := X86.documented
  rcases page_beside_run with ⟨s₁, hseed, s₂, halloc, htotal, s, hrange, s', hmap⟩
  have hT := (seeded_start (by decide) (by decide) hseed halloc htotal).tree
  have haside : Relation.ReflTransGen (Aside 0 (0 + 1 * PageSize.bytes .huge)) s s' :=
    Relation.ReflTransGen.single (.map 0x40000000 0 ⟨flagRW, rfl⟩ .huge (by decide) hmap)
  have hno := noEmpty_emptyVm s₂ 2
  rcases unmapRange_undoes hT hno hrange haside with ⟨s₃, hrun, hin, hout, -⟩
  exact ⟨_, s, s', s₃, hno, hrange, hmap, hrun, hin 0 (le_refl 0) (by decide),
    hout 0x40000000 (by decide)⟩

end Prometheos.Vmm
