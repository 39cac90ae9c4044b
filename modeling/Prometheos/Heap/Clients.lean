import Prometheos.Heap.Spec
import Mathlib.Data.List.Count

/-!
# Live blocks and the objects of the slabs

The clients of the heap hold live blocks, each a pointer with the layout it was
requested with. `Clients` relates them to the slabs: a small live block is an object
that is on no free list, every object that is on no free list is live, and different
live blocks have different pointers. From this follows how many objects are live, which
`Peaks` turns into the number of slabs.
-/

namespace Prometheos.Heap

open Pmm

/-! ## Counting -/

/-- The number of live objects of a bucket. -/
def liveIn (b : ℕ) (live : List (ℕ × Layout)) : ℕ := live.countP fun e => bucketFor e.2 = some b

/-- The number of slabs of a bucket. -/
def slabsIn (b : ℕ) (cr : List (ℕ × ℕ)) : ℕ := cr.countP fun e => e.1 = b

/-- The number of free objects of a bucket. -/
def freeIn (free : ℕ → List ℕ) (b : ℕ) : List (ℕ × ℕ) → ℕ
  | [] => 0
  | e :: cr => (if e.1 = b then (free e.2).length else 0) + freeIn free b cr

section

variable {free : ℕ → List ℕ} {b f : ℕ} {js : List ℕ}

theorem freeIn_update_of_notMem {cr : List (ℕ × ℕ)} (h : (b, f) ∉ cr) :
    freeIn (Function.update free f js) b cr = freeIn free b cr := by
  induction cr with
  | nil => rfl
  | cons e cr ih =>
      rw [List.mem_cons, not_or] at h
      unfold freeIn
      rw [ih h.2]
      by_cases hb : e.1 = b
      · have hf : e.2 ≠ f := fun hf => h.1 (by rw [← hb, ← hf])
        rw [Function.update_of_ne hf]
      · rw [if_neg hb, if_neg hb]

/-- The free list of one slab of the bucket changes. -/
theorem freeIn_update {cr : List (ℕ × ℕ)} (hnd : (cr.map Prod.snd).Nodup) (h : (b, f) ∈ cr) :
    freeIn (Function.update free f js) b cr + (free f).length = freeIn free b cr + js.length := by
  induction cr with
  | nil => exact absurd h List.not_mem_nil
  | cons e cr ih =>
      rw [List.map_cons, List.nodup_cons] at hnd
      unfold freeIn
      rcases List.mem_cons.1 h with rfl | hin
      · have hnot : (b, f) ∉ cr := fun hin => hnd.1 (List.mem_map_of_mem hin)
        rw [freeIn_update_of_notMem hnot, Function.update_self]
        simp only [if_true]
        omega
      · have hne : e.2 ≠ f := by
          intro hf
          exact hnd.1 (by rw [hf]; exact List.mem_map_of_mem hin)
        have := ih hnd.2 hin
        rw [Function.update_of_ne hne]
        omega

/-- No slab of the bucket has a free object. -/
theorem freeIn_eq_zero {cr : List (ℕ × ℕ)} (h : ∀ g, (b, g) ∈ cr → free g = []) :
    freeIn free b cr = 0 := by
  induction cr with
  | nil => rfl
  | cons e cr ih =>
      unfold freeIn
      rw [ih fun g hg => h g (List.mem_cons_of_mem _ hg)]
      by_cases hb : e.1 = b
      · have he : (b, e.2) ∈ e :: cr := by
          rw [← hb]
          exact List.mem_cons_self
        rw [if_pos hb, h e.2 he]
        rfl
      · rw [if_neg hb]

end

theorem liveIn_cons_of_eq {b p : ℕ} {layout : Layout} (live : List (ℕ × Layout))
    (h : bucketFor layout = some b) : liveIn b ((p, layout) :: live) = liveIn b live + 1 :=
  List.countP_cons_of_pos (by simpa using h)

theorem liveIn_cons_of_ne {b p : ℕ} {layout : Layout} (live : List (ℕ × Layout))
    (h : bucketFor layout ≠ some b) : liveIn b ((p, layout) :: live) = liveIn b live :=
  List.countP_cons_of_neg (by simpa using h)

theorem liveIn_perm {b : ℕ} {live live' : List (ℕ × Layout)} (h : live.Perm live') :
    liveIn b live = liveIn b live' := h.countP_eq _

/-! ## Live blocks -/

/-- The live blocks and the slabs `cr` with their free lists. -/
structure Clients (hhdm : ℕ) (cr : List (ℕ × ℕ)) (live : List (ℕ × Layout)) (free : ℕ → List ℕ) :
    Prop where
  small : ∀ e ∈ live, ∀ b, bucketFor e.2 = some b → ∃ f j, (b, f) ∈ cr ∧ (1 ≤ j ∧ j < slots b) ∧
    e.1 = objPtr hhdm b f j ∧ j ∉ free f
  large : ∀ e ∈ live, bucketFor e.2 = none → ∃ f o, orderForLarge e.2 = some o ∧
    e.1 = blockPtr hhdm f
  used : ∀ b f, (b, f) ∈ cr → ∀ j, 1 ≤ j → j < slots b → j ∈ free f ∨
    ∃ e ∈ live, bucketFor e.2 = some b ∧ e.1 = objPtr hhdm b f j
  nodup : (live.map Prod.fst).Nodup
  count : ∀ b, liveIn b live + freeIn free b cr = slabsIn b cr * (slots b - 1)

/-- An object of a slab never starts a frame. -/
theorem objPtr_ne_blockPtr {hhdm b f j f' : ℕ} (hb : b < numBuckets) (hj : 1 ≤ j ∧ j < slots b) :
    objPtr hhdm b f j ≠ blockPtr hhdm f' := by
  have hbound := obj_bounds hb hj.2
  have hpos := objSize_pos b
  have hle : objSize b ≤ j * objSize b := Nat.le_mul_of_pos_left _ hj.1
  rw [Nat.add_mul] at hbound
  unfold objPtr blockPtr
  omega

section

variable {hhdm b f j : ℕ} {cr : List (ℕ × ℕ)} {live : List (ℕ × Layout)} {free : ℕ → List ℕ}
  {js : List ℕ} {layout : Layout}

/-- An object on a free list is not live. -/
theorem Clients.notMem_of_free (hC : Clients hhdm cr live free)
    (hlt : ∀ b f, (b, f) ∈ cr → b < numBuckets) (hnd : (cr.map Prod.snd).Nodup)
    (hf : (b, f) ∈ cr) (hj : 1 ≤ j ∧ j < slots b) (hfree : j ∈ free f) :
    objPtr hhdm b f j ∉ live.map Prod.fst := by
  intro hin
  rcases List.mem_map.1 hin with ⟨e, he, heq⟩
  cases hk : bucketFor e.2 with
  | none =>
      rcases hC.large e he hk with ⟨f', -, -, hptr⟩
      exact objPtr_ne_blockPtr (hlt b f hf) hj (heq.symm.trans hptr)
  | some b' =>
      rcases hC.small e he b' hk with ⟨f', j', hf', hj', hptr, hnot⟩
      have hframe : f' = f := by
        have h1 := @ptrFrame_objPtr hhdm b' f' j' (hlt b' f' hf') hj'.2
        have h2 := @ptrFrame_objPtr hhdm b f j (hlt b f hf) hj.2
        rw [← hptr, heq] at h1
        exact h1.symm.trans h2
      subst hframe
      have hbucket : b' = b :=
        congrArg Prod.fst (List.inj_on_of_nodup_map hnd hf' hf rfl)
      subst hbucket
      rcases objPtr_inj (hlt _ _ hf) hj'.2 hj.2 (hptr.symm.trans heq) with ⟨-, rfl⟩
      exact hnot hfree

/-- The first object of a free list becomes live. -/
theorem Clients.pop (hC : Clients hhdm cr live free)
    (hlt : ∀ b f, (b, f) ∈ cr → b < numBuckets) (hnd : (cr.map Prod.snd).Nodup)
    (hb : bucketFor layout = some b) (hf : (b, f) ∈ cr) (hj : 1 ≤ j ∧ j < slots b)
    (hfree : free f = j :: js) (hjs : (j :: js).Nodup) :
    Clients hhdm cr ((objPtr hhdm b f j, layout) :: live) (Function.update free f js) := by
  have hjfree : j ∈ free f := by
    rw [hfree]
    exact List.mem_cons_self
  have hsub : ∀ g i, i ∈ Function.update free f js g → i ∈ free g := by
    intro g i hi
    by_cases hg : g = f
    · rw [hg, Function.update_self] at hi
      rw [hg, hfree]
      exact List.mem_cons_of_mem _ hi
    · rwa [Function.update_of_ne hg] at hi
  refine ⟨?_, ?_, ?_, ?_, ?_⟩
  · intro e he b' hb'
    rcases List.mem_cons.1 he with rfl | he
    · rw [hb, Option.some.injEq] at hb'
      subst hb'
      refine ⟨f, j, hf, hj, rfl, ?_⟩
      rw [Function.update_self]
      exact (List.nodup_cons.1 hjs).1
    · rcases hC.small e he b' hb' with ⟨f', j', hf', hj', hptr, hnot⟩
      exact ⟨f', j', hf', hj', hptr, fun hin => hnot (hsub f' j' hin)⟩
  · intro e he hk
    rcases List.mem_cons.1 he with rfl | he
    · rw [hb] at hk
      cases hk
    · exact hC.large e he hk
  · intro b' f' hf' i hi₁ hi₂
    rcases hC.used b' f' hf' i hi₁ hi₂ with hin | ⟨e, he, hbe, hptr⟩
    · by_cases hg : f' = f
      · subst hg
        have hbucket : b' = b := congrArg Prod.fst (List.inj_on_of_nodup_map hnd hf' hf rfl)
        subst hbucket
        rw [hfree] at hin
        rw [Function.update_self]
        rcases List.mem_cons.1 hin with rfl | hin
        · exact Or.inr ⟨_, List.mem_cons_self, hb, rfl⟩
        · exact Or.inl hin
      · rw [Function.update_of_ne hg]
        exact Or.inl hin
    · exact Or.inr ⟨e, List.mem_cons_of_mem _ he, hbe, hptr⟩
  · rw [List.map_cons, List.nodup_cons]
    exact ⟨hC.notMem_of_free hlt hnd hf hj hjfree, hC.nodup⟩
  · intro b'
    have hcount := hC.count b'
    by_cases hbb : b' = b
    · subst hbb
      have hupd : freeIn (Function.update free f js) b' cr + (free f).length =
          freeIn free b' cr + js.length := freeIn_update hnd hf
      rw [hfree, List.length_cons] at hupd
      rw [liveIn_cons_of_eq live hb]
      omega
    · have hne : bucketFor layout ≠ some b' := by
        rw [hb]
        exact fun h => hbb (Option.some.inj h).symm
      have hnot : (b', f) ∉ cr := fun hin =>
        hbb (congrArg Prod.fst (List.inj_on_of_nodup_map hnd hin hf rfl))
      rw [liveIn_cons_of_ne live hne, freeIn_update_of_notMem hnot]
      exact hcount

/-- A live object goes back to the free list of its slab. -/
theorem Clients.push (hC : Clients hhdm cr live free)
    (hlt : ∀ b f, (b, f) ∈ cr → b < numBuckets) (hnd : (cr.map Prod.snd).Nodup)
    {e : ℕ × Layout} (he : e ∈ live) (hb : bucketFor e.2 = some b) (hf : (b, f) ∈ cr)
    (hj : 1 ≤ j ∧ j < slots b) (hptr : e.1 = objPtr hhdm b f j) :
    Clients hhdm cr (live.erase e) (Function.update free f (j :: free f)) := by
  have hperm := List.perm_cons_erase he
  have hnodup : (e.1 :: (live.erase e).map Prod.fst).Nodup :=
    (hperm.map Prod.fst).nodup_iff.1 hC.nodup
  rw [List.nodup_cons] at hnodup
  have hmem : ∀ e' ∈ live.erase e, e' ∈ live := fun e' he' => List.mem_of_mem_erase he'
  -- the other live blocks have other pointers
  have hother : ∀ e' ∈ live.erase e, e'.1 ≠ objPtr hhdm b f j := by
    intro e' he' heq
    exact hnodup.1 (by rw [hptr, ← heq]; exact List.mem_map_of_mem he')
  refine ⟨?_, fun e' he' => hC.large e' (hmem e' he'), ?_, hnodup.2, ?_⟩
  · intro e' he' b' hb'
    rcases hC.small e' (hmem e' he') b' hb' with ⟨f', j', hf', hj', hptr', hnot⟩
    refine ⟨f', j', hf', hj', hptr', ?_⟩
    by_cases hg : f' = f
    · subst hg
      have hbucket : b' = b := congrArg Prod.fst (List.inj_on_of_nodup_map hnd hf' hf rfl)
      subst hbucket
      rw [Function.update_self]
      intro hin
      rcases List.mem_cons.1 hin with rfl | hin
      · exact hother e' he' hptr'
      · exact hnot hin
    · rw [Function.update_of_ne hg]
      exact hnot
  · intro b' f' hf' i hi₁ hi₂
    rcases hC.used b' f' hf' i hi₁ hi₂ with hin | ⟨e', he', hbe, hptr'⟩
    · left
      by_cases hg : f' = f
      · rw [hg, Function.update_self]
        exact List.mem_cons_of_mem _ (hg ▸ hin)
      · rw [Function.update_of_ne hg]
        exact hin
    · by_cases hee : e' = e
      · -- the object that was freed
        left
        subst hee
        rw [hb, Option.some.injEq] at hbe
        subst hbe
        rcases objPtr_inj (hlt b f hf) hj.2 hi₂ (hptr.symm.trans hptr') with ⟨rfl, rfl⟩
        rw [Function.update_self]
        exact List.mem_cons_self
      · right
        exact ⟨e', (List.mem_erase_of_ne hee).2 he', hbe, hptr'⟩
  · intro b'
    have hcount := hC.count b'
    rw [liveIn_perm hperm] at hcount
    by_cases hbb : b' = b
    · subst hbb
      have hupd : freeIn (Function.update free f (j :: free f)) b' cr + (free f).length =
          freeIn free b' cr + (j :: free f).length := freeIn_update hnd hf
      rw [List.length_cons] at hupd
      rw [liveIn_cons_of_eq (live.erase e) hb] at hcount
      omega
    · have hne : bucketFor e.2 ≠ some b' := by
        rw [hb]
        exact fun h => hbb (Option.some.inj h).symm
      have hnot : (b', f) ∉ cr := fun hin =>
        hbb (congrArg Prod.fst (List.inj_on_of_nodup_map hnd hin hf rfl))
      rw [liveIn_cons_of_ne (live.erase e) hne] at hcount
      rw [freeIn_update_of_notMem hnot]
      exact hcount

/-- A new slab, with all its objects free. -/
theorem Clients.addSlab (hC : Clients hhdm cr live free) (hnew : ∀ b, (b, f) ∉ cr) (b : ℕ) :
    Clients hhdm ((b, f) :: cr) live
      (Function.update free f (List.range' 1 (slots b - 1))) := by
  refine ⟨?_, hC.large, ?_, hC.nodup, ?_⟩
  · intro e he b' hb'
    rcases hC.small e he b' hb' with ⟨f', j', hf', hj', hptr, hnot⟩
    have hne : f' ≠ f := by
      rintro rfl
      exact hnew b' hf'
    refine ⟨f', j', List.mem_cons_of_mem _ hf', hj', hptr, ?_⟩
    rw [Function.update_of_ne hne]
    exact hnot
  · intro b' f' hf' i hi₁ hi₂
    rcases List.mem_cons.1 hf' with heq | hold
    · cases heq
      left
      rw [Function.update_self, List.mem_range'_1]
      omega
    · have hne : f' ≠ f := by
        rintro rfl
        exact hnew b' hold
      rw [Function.update_of_ne hne]
      exact hC.used b' f' hold i hi₁ hi₂
  · intro b'
    have hcount := hC.count b'
    unfold freeIn slabsIn
    rw [freeIn_update_of_notMem (hnew b')]
    by_cases hbb : b = b'
    · subst hbb
      rw [if_pos rfl, Function.update_self, List.length_range',
        List.countP_cons_of_pos (by simp), Nat.add_mul, Nat.one_mul]
      unfold slabsIn at hcount
      omega
    · rw [if_neg hbb, List.countP_cons_of_neg (by simpa using hbb), Nat.zero_add]
      exact hcount

/-- A block of frames becomes live. -/
theorem Clients.addLarge (hC : Clients hhdm cr live free) {o : ℕ} (hb : bucketFor layout = none)
    (ho : orderForLarge layout = some o) (hnew : blockPtr hhdm f ∉ live.map Prod.fst) :
    Clients hhdm cr ((blockPtr hhdm f, layout) :: live) free := by
  refine ⟨?_, ?_, ?_, ?_, ?_⟩
  · intro e he b' hb'
    rcases List.mem_cons.1 he with rfl | he
    · rw [hb] at hb'
      cases hb'
    · exact hC.small e he b' hb'
  · intro e he hk
    rcases List.mem_cons.1 he with rfl | he
    · exact ⟨f, o, ho, rfl⟩
    · exact hC.large e he hk
  · intro b' f' hf' i hi₁ hi₂
    rcases hC.used b' f' hf' i hi₁ hi₂ with hin | ⟨e, he, hbe, hptr⟩
    · exact Or.inl hin
    · exact Or.inr ⟨e, List.mem_cons_of_mem _ he, hbe, hptr⟩
  · rw [List.map_cons, List.nodup_cons]
    exact ⟨hnew, hC.nodup⟩
  · intro b'
    rw [liveIn_cons_of_ne live (by rw [hb]; exact (Option.some_ne_none b').symm)]
    exact hC.count b'

/-- A live block of frames is given back. -/
theorem Clients.dropLarge (hC : Clients hhdm cr live free) {e : ℕ × Layout} (he : e ∈ live)
    (hb : bucketFor e.2 = none) : Clients hhdm cr (live.erase e) free := by
  have hperm := List.perm_cons_erase he
  have hmem : ∀ e' ∈ live.erase e, e' ∈ live := fun e' he' => List.mem_of_mem_erase he'
  have hnodup : (e.1 :: (live.erase e).map Prod.fst).Nodup :=
    (hperm.map Prod.fst).nodup_iff.1 hC.nodup
  refine ⟨fun e' he' => hC.small e' (hmem e' he'), fun e' he' => hC.large e' (hmem e' he'), ?_,
    (List.nodup_cons.1 hnodup).2, ?_⟩
  · intro b' f' hf' i hi₁ hi₂
    rcases hC.used b' f' hf' i hi₁ hi₂ with hin | ⟨e', he', hbe, hptr⟩
    · exact Or.inl hin
    · have hne : e' ≠ e := by
        rintro rfl
        rw [hb] at hbe
        cases hbe
      exact Or.inr ⟨e', (List.mem_erase_of_ne hne).2 he', hbe, hptr⟩
  · intro b'
    have hcount := hC.count b'
    rw [liveIn_perm hperm,
      liveIn_cons_of_ne (live.erase e) (by rw [hb]; exact (Option.some_ne_none b').symm)] at hcount
    exact hcount

end

/-! ## The number of slabs -/

/-- The largest number of live objects so far, and the slabs it needs. -/
structure Peaks (cr : List (ℕ × ℕ)) (live : List (ℕ × Layout)) (peak : ℕ → ℕ) : Prop where
  ge : ∀ b, liveIn b live ≤ peak b
  le : ∀ b, peak b ≤ slabsIn b cr * (slots b - 1)
  gt : ∀ b, slabsIn b cr = 0 ∨ (slabsIn b cr - 1) * (slots b - 1) < peak b

/-- The peaks after a call. -/
def raise (peak : ℕ → ℕ) (live : List (ℕ × Layout)) (b : ℕ) : ℕ := max (peak b) (liveIn b live)

section

variable {hhdm : ℕ} {cr : List (ℕ × ℕ)} {live live' : List (ℕ × Layout)} {free : ℕ → List ℕ}
  {peak : ℕ → ℕ}

/-- No slab was added. -/
theorem Peaks.raise (hP : Peaks cr live peak) (hC : Clients hhdm cr live' free) :
    Peaks cr live' (raise peak live') := by
  refine ⟨fun b => le_max_right _ _, ?_, ?_⟩
  · intro b
    have hcount := hC.count b
    exact max_le (hP.le b) (by omega)
  · intro b
    rcases hP.gt b with h0 | hlt
    · exact Or.inl h0
    · exact Or.inr (lt_of_lt_of_le hlt (le_max_left _ _))

/-- A slab was added when all objects of the bucket were live. -/
theorem Peaks.addSlab {b f : ℕ} (hP : Peaks cr live peak) (hC : Clients hhdm cr live free)
    (hfull : ∀ g, (b, g) ∈ cr → free g = []) {free' : ℕ → List ℕ}
    (hC' : Clients hhdm ((b, f) :: cr) live' free') (hgrow : liveIn b live' = liveIn b live + 1) :
    Peaks ((b, f) :: cr) live' (Heap.raise peak live') := by
  refine ⟨fun b => le_max_right _ _, ?_, ?_⟩
  · intro b'
    have hcount := hC'.count b'
    have hmono : slabsIn b' cr ≤ slabsIn b' ((b, f) :: cr) :=
      List.Sublist.countP_le (List.sublist_cons_self _ _)
    exact max_le ((hP.le b').trans (Nat.mul_le_mul_right _ hmono)) (by omega)
  · intro b'
    by_cases hbb : b = b'
    · -- the new object is the first one of the new slab
      subst hbb
      right
      have hcount := hC.count b
      have hsucc : slabsIn b ((b, f) :: cr) = slabsIn b cr + 1 :=
        List.countP_cons_of_pos (by simp)
      rw [freeIn_eq_zero hfull] at hcount
      rw [hsucc, Nat.add_sub_cancel, ← hcount]
      unfold Heap.raise
      omega
    · have hsame : slabsIn b' ((b, f) :: cr) = slabsIn b' cr :=
        List.countP_cons_of_neg (by simpa using hbb)
      rw [hsame]
      rcases hP.gt b' with h0 | hlt
      · exact Or.inl h0
      · exact Or.inr (lt_of_lt_of_le hlt (le_max_left _ _))

theorem Peaks.erase (hP : Peaks cr live peak) (e : ℕ × Layout) :
    Peaks cr (live.erase e) peak := by
  refine ⟨?_, hP.le, hP.gt⟩
  intro b
  exact (List.Sublist.countP_le List.erase_sublist).trans (hP.ge b)

/-- The number of slabs is the peak divided by the objects of a slab, rounded up. -/
theorem Peaks.slabsIn_eq (hP : Peaks cr live peak) {b : ℕ} (hb : b < numBuckets) :
    slabsIn b cr = (peak b + objsPerSlab b - 1) / objsPerSlab b := by
  have hslots := two_le_slots hb
  have hle := hP.le b
  rw [objsPerSlab_eq hb]
  symm
  rcases hP.gt b with h0 | hlt
  · rw [h0, Nat.zero_mul] at hle
    rw [h0]
    exact Nat.div_eq_of_lt (by omega)
  · rw [Nat.sub_mul, Nat.one_mul] at hlt
    refine Nat.div_eq_of_lt_le (by omega) ?_
    rw [Nat.succ_mul]
    omega

end

end Prometheos.Heap
