import Prometheos.Mm.Runs

/-!
# When an allocation fails

`alloc` returns null in two situations only (`World.Exhausted`). A small request fails if all
objects of all slabs of its bucket are live and no frame is free; free objects of other buckets do
not help, since a slab stays in its bucket. A large request fails if its order is too high or no
aligned block of that order is free.

So a request within the number of objects that were once live is always met, and takes no frame
(`alloc_fails_iff`); and what was freed can be had again (`freed_again`).
-/

namespace Prometheos.Heap

open Pmm

section

variable {w : World} {free parts : ℕ → List ℕ} {layout : Layout} {b p : ℕ} {h' : Heap}

theorem of_freeIn_eq_zero {cr : List (ℕ × ℕ)} (h : freeIn free b cr = 0) {g : ℕ}
    (hg : (b, g) ∈ cr) : free g = [] := by
  induction cr with
  | nil => exact absurd hg List.not_mem_nil
  | cons e cr ih =>
      unfold freeIn at h
      rcases List.mem_cons.1 hg with rfl | hg
      · rw [if_pos rfl] at h
        exact List.eq_nil_of_length_eq_zero (Nat.eq_zero_of_add_eq_zero_right h)
      · apply ih _ hg
        omega

/-- No slab of the bucket has a free object exactly if all objects are live. -/
theorem Sound.full_iff (hS : Sound w free parts) (hb : b < numBuckets) :
    (∀ g, (b, g) ∈ created w.heap.refills → free g = []) ↔
      liveIn b w.live = slabsIn b (created w.heap.refills) * objsPerSlab b := by
  have hcount := hS.clients.count b
  rw [objsPerSlab_eq hb]
  constructor
  · intro hfull
    rw [freeIn_eq_zero hfull] at hcount
    exact hcount
  · intro hall g hg
    apply of_freeIn_eq_zero _ hg
    omega

/-- When `alloc_small` fails; if it does not have to make a slab, it takes no frame. -/
theorem Sound.allocSmall_null (hS : Sound w free parts) (hb : bucketFor layout = some b)
    (hrun : (alloc layout).run w.heap = .ok p h') :
    (p = 0 ↔ freeSet w.heap.phys = ∅ ∧ ∀ g, (b, g) ∈ created w.heap.refills → free g = []) ∧
    ((¬ ∀ g, (b, g) ∈ created w.heap.refills → free g = []) →
      freeSet h'.phys = freeSet w.heap.phys) := by
  have hR := hS.rep
  have hlt := (bucketFor_spec hb).1
  obtain ⟨p', h'', hrun', hhdm, hpost, hheaders⟩ := allocSmall_spec hR hlt
  unfold alloc at hrun
  rw [hb] at hrun
  cases hrun.symm.trans hrun'
  cases hpost with
  | pop f j js parts' hf hfree hp hlog hR' =>
      have hj := (hR.slab b f hf).range j (by rw [hfree]; exact List.mem_cons_self)
      have hsome : ¬ ∀ g, (b, g) ∈ created w.heap.refills → free g = [] := by
        intro hfull
        rw [hfull f hf] at hfree
        cases hfree
      constructor
      · rw [hp]
        exact ⟨fun h => absurd h (hR.ptr_ok hf hj.2).1, fun h => absurd h.2 hsome⟩
      · -- the frames of slabs are the same, and they are not free
        intro _
        have hstock := hheaders.stock_eq
        unfold stock at hstock
        rw [hlog] at hstock
        ext g
        have hg := Set.ext_iff.1 hstock g
        constructor
        · intro hin
          rcases hg.1 (Or.inl hin) with hold | ⟨b', hslab⟩
          · exact hold
          · rw [← hlog] at hslab
            exact absurd hin (hR'.notFree hslab)
        · intro hin
          rcases hg.2 (Or.inl hin) with hnew | ⟨b', hslab⟩
          · exact hnew
          · exact absurd hin (hR.notFree hslab)
  | fresh f parts' hfull hfree hp hlog hR' =>
      have hin : (b, f) ∈ created h'.refills := by
        rw [hlog, created_some]
        exact List.mem_cons_self
      have hslots := two_le_slots hlt
      have hne := (hR'.ptr_ok hin (show 1 < slots b by omega)).1
      rw [hhdm, ← hp] at hne
      constructor
      · constructor
        · exact fun h => absurd h hne
        · rintro ⟨hempty, -⟩
          rw [hempty] at hfree
          exact absurd hfree (Set.notMem_empty f)
      · exact fun h => absurd hfull h
  | fail parts' hfull hempty hp hlog hR' =>
      exact ⟨⟨fun _ => ⟨hempty, hfull⟩, fun _ => hp⟩, fun h => absurd hfull h⟩

/-- When `alloc_large` fails. -/
theorem Sound.allocLarge_null (hS : Sound w free parts) (hb : bucketFor layout = none)
    (hrun : (alloc layout).run w.heap = .ok p h') :
    p = 0 ↔ ∀ o, orderForLarge layout = some o → ∀ f, 2 ^ o ∣ f →
      ¬ Dyadic.block o f ⊆ freeSet w.heap.phys := by
  have hR := hS.rep
  obtain ⟨p', h'', hrun', -, -, hpost⟩ := allocLarge_spec hR layout
  unfold alloc at hrun
  rw [hb] at hrun
  cases hrun.symm.trans hrun'
  rcases hpost with ⟨hp, -, hno⟩ | ⟨f, o, ho, hp, htook, -⟩
  · exact ⟨fun _ => hno, fun _ => hp⟩
  · constructor
    · intro h
      have hpos := hR.holds.direct.offset_pos
      rw [← hR.hhdm_eq] at hpos
      rw [hp] at h
      unfold blockPtr at h
      omega
    · intro hno
      exact absurd htook.subset (hno o ho f htook.aligned)

/-- The block of a large request is free after it was given back. -/
theorem Sound.dealloc_large (hS : Sound w free parts) {e : ℕ × Layout} (he : e ∈ w.live)
    (hb : bucketFor e.2 = none) (hrun : (dealloc e.1 e.2).run w.heap = .ok () h') :
    ∃ f o, orderForLarge e.2 = some o ∧ 2 ^ o ∣ f ∧ Dyadic.block o f ⊆ freeSet h'.phys := by
  obtain ⟨f, o, ho, hptr⟩ := hS.clients.large e he hb
  have hperm : (largeBlocks w.heap.hhdmOffset w.live).Perm
      (largeBlocks w.heap.hhdmOffset ((e.1, e.2) :: w.live.erase e)) :=
    largeBlocks_perm (List.perm_cons_erase he)
  rw [largeBlocks_cons_large _ hb ho, hptr, blockPtr_sub] at hperm
  have hR := hS.rep.perm (hperm.append_right w.foreign)
  obtain ⟨h'', hrun', -, -, hgrew, -⟩ := deallocLarge_spec ho hR
  unfold dealloc at hrun
  rw [if_neg (hS.ptr_ne_zero he), hb, hptr] at hrun
  cases hrun.symm.trans hrun'
  obtain ⟨-, g, hg, haligned, -⟩ := hR.holds.blocks (f * frameSize, o)
    (List.mem_append_right _ List.mem_cons_self)
  have hgf : g = f := (Nat.eq_of_mul_eq_mul_right (by decide : 0 < frameSize) hg).symm
  refine ⟨f, o, ho, hgf ▸ haligned, ?_⟩
  rw [hgrew.free_eq]
  exact Set.subset_union_right

end

end Prometheos.Heap

namespace Prometheos.Mm

open Pmm

/-- There is nothing to give out for requests with this layout. -/
def World.Exhausted (w : World) (layout : Layout) : Prop :=
  (∀ b, Heap.bucketFor layout = some b → w.kernel.phys.pmm.freeFrames = 0 ∧
    Heap.liveIn b w.live =
      Heap.slabsIn b (Heap.created w.kernel.refills) * Heap.objsPerSlab b) ∧
  (Heap.bucketFor layout = none → ∀ o, Heap.orderForLarge layout = some o → ∀ f, 2 ^ o ∣ f →
    ¬ Dyadic.block o f ⊆ freeSet w.kernel.phys)

section

variable {init held : List ℕ} {w : World} {free parts : ℕ → List ℕ} {layout : Layout} {b p : ℕ}
  {k' : Kernel}

theorem World.exhausted_small_iff (hb : Heap.bucketFor layout = some b) :
    w.Exhausted layout ↔ w.kernel.phys.pmm.freeFrames = 0 ∧ Heap.liveIn b w.live =
      Heap.slabsIn b (Heap.created w.kernel.refills) * Heap.objsPerSlab b := by
  unfold World.Exhausted
  simp [hb]

theorem World.exhausted_large_iff (hb : Heap.bucketFor layout = none) :
    w.Exhausted layout ↔ ∀ o, Heap.orderForLarge layout = some o → ∀ f, 2 ^ o ∣ f →
      ¬ Dyadic.block o f ⊆ freeSet w.kernel.phys := by
  unfold World.Exhausted
  simp [hb]

theorem Sound.freeFrames_eq_zero_iff (hS : Sound init w held free parts) :
    w.kernel.phys.pmm.freeFrames = 0 ↔ freeSet w.kernel.phys = ∅ := by
  have hI : Inv w.kernel.phys := hS.heap.rep.holds.inv
  obtain ⟨L, hR, -⟩ := hI.rep
  rw [hI.count, Set.ncard_eq_zero hR.freeSet_finite]

/-- `alloc` fails exactly if there is nothing to give out. -/
theorem Sound.alloc_null_iff (hS : Sound init w held free parts)
    (hrun : (onHeap (Heap.alloc layout)).run w.kernel = .ok p k') :
    p = 0 ↔ w.Exhausted layout := by
  obtain ⟨h', halloc, -⟩ := Prog.zoom_ok_iff.1 hrun
  change (Heap.alloc layout).run (w.heapWorld held).heap = .ok p h' at halloc
  cases hb : Heap.bucketFor layout with
  | none => exact (hS.heap.allocLarge_null hb halloc).trans (World.exhausted_large_iff hb).symm
  | some b =>
      have hfull := hS.heap.full_iff (Heap.bucketFor_spec hb).1
      rw [World.exhausted_small_iff hb, hS.freeFrames_eq_zero_iff]
      exact (hS.heap.allocSmall_null hb halloc).1.trans (and_congr_right fun _ => hfull)

/-- Within the peak no slab has to be made. -/
theorem Sound.alloc_within_peak (hS : Sound init w held free parts)
    (hb : Heap.bucketFor layout = some b) (hpeak : Heap.liveIn b w.live < w.peak b)
    (hrun : (onHeap (Heap.alloc layout)).run w.kernel = .ok p k') :
    p ≠ 0 ∧ freeSet k'.phys = freeSet w.kernel.phys := by
  obtain ⟨h', halloc, rfl⟩ := Prog.zoom_ok_iff.1 hrun
  change (Heap.alloc layout).run (w.heapWorld held).heap = .ok p h' at halloc
  have hlt := (Heap.bucketFor_spec hb).1
  obtain ⟨hnull, hkept⟩ := hS.heap.allocSmall_null hb halloc
  have hle : w.peak b ≤ Heap.slabsIn b (Heap.created w.kernel.refills) * Heap.objsPerSlab b := by
    rw [Heap.objsPerSlab_eq hlt]
    exact hS.heap.peaks.le b
  have hnot : ¬ ∀ g, (b, g) ∈ Heap.created w.kernel.refills → free g = [] := by
    intro h
    have hall : Heap.liveIn b w.live = _ := (hS.heap.full_iff hlt).1 h
    change Heap.liveIn b w.live =
      Heap.slabsIn b (Heap.created w.kernel.refills) * Heap.objsPerSlab b at hall
    omega
  exact ⟨fun h => hnot (hnull.1 h).2, hkept hnot⟩

end

/-- When an allocation fails, at every moment of a run. `alloc` returns, and it returns null exactly
if there is nothing to give out for the layout. In particular it does not if more objects of the
bucket have been live before than are now, and then it takes no frame. -/
theorem alloc_fails_iff [X86] {init : List ℕ} {w₀ w : World} (hstart : w₀.Start init)
    (hrun : Relation.ReflTransGen World.Step w₀ w) (layout : Layout) :
    ∃ p k', (onHeap (Heap.alloc layout)).run w.kernel = .ok p k' ∧
      (p = 0 ↔ w.Exhausted layout) ∧
      ∀ b, Heap.bucketFor layout = some b → Heap.liveIn b w.live < w.peak b →
        p ≠ 0 ∧ freeSet k'.phys = freeSet w.kernel.phys := by
  obtain ⟨⟨held, free, parts, hS⟩, -⟩ := hstart.reach hrun
  obtain ⟨p, h', halloc, -⟩ := hS.heap.alloc_ends layout
  have hcall : (onHeap (Heap.alloc layout)).run w.kernel = .ok p (w.kernel.setHeap h') :=
    Prog.zoom_of_ok halloc
  exact ⟨p, _, hcall, hS.alloc_null_iff hcall,
    fun b hb hpeak => hS.alloc_within_peak hb hpeak hcall⟩

/-- Two pages. -/
def twoPages : Layout := ⟨8192, 4096, 12, rfl⟩

/-- A slab has room for a second kilobyte when no frame is left, but there are no two pages. -/
theorem alloc_fails_iff_slab_and_page : letI := X86.documented
    ∃ w₀ w : World, w₀.Start [1] ∧ Relation.ReflTransGen World.Step w₀ w ∧
      (∃ p k', (onHeap (Heap.alloc Heap.kilobyte)).run w.kernel = .ok p k' ∧ p ≠ 0) ∧
      ∃ k', (onHeap (Heap.alloc twoPages)).run w.kernel = .ok 0 k' := by
  let := X86.documented
  obtain ⟨w₀, w, w', p, hstart, -, hcall, hlive, hmap, hsame, -, hnone⟩ := slab_and_page_steps
  have hfirst : Relation.ReflTransGen World.Step w₀ w := .single (Or.inl hcall)
  have hrun : Relation.ReflTransGen World.Step w₀ w' :=
    hfirst.tail (Or.inr (Or.inl hmap))
  refine ⟨w₀, w', hstart, hrun, ?_, ?_⟩
  · obtain ⟨q, k', halloc, hiff, -⟩ := alloc_fails_iff hstart hrun Heap.kilobyte
    refine ⟨q, k', halloc, ?_⟩
    have hlive₁ : Heap.liveIn 6 w'.live = 1 := by
      rw [hsame, hlive, Heap.liveIn_cons_of_eq [] rfl]
      rfl
    have hthree : Heap.objsPerSlab 6 = 3 := rfl
    rw [Ne, hiff, World.exhausted_small_iff (b := 6) rfl, hlive₁, hthree]
    omega
  · obtain ⟨q, k', halloc, hiff, -⟩ := alloc_fails_iff hstart hrun twoPages
    obtain ⟨⟨held, free, parts, hS⟩, -⟩ := hstart.reach hrun
    have hempty : freeSet w'.kernel.phys = ∅ := hS.freeFrames_eq_zero_iff.1 hnone
    have hzero : q = 0 := by
      rw [hiff, World.exhausted_large_iff rfl, hempty]
      intro o _ f _ hsub
      exact hsub (Dyadic.self_mem_block o f)
    exact ⟨k', hzero ▸ halloc⟩

/-- A request with the layout `l'` fits where one with the layout `l` was. -/
def Replaces (l l' : Layout) : Prop :=
  (∃ b, Heap.bucketFor l = some b ∧ Heap.bucketFor l' = some b) ∨
  (Heap.bucketFor l = none ∧ Heap.bucketFor l' = none ∧ ∃ o o', Heap.orderForLarge l = some o ∧
    Heap.orderForLarge l' = some o' ∧ o' ≤ o)

/-- What was freed can be had again: after a live block was freed, a request that fits in its place
is met, in whatever state the memory is. -/
theorem freed_again [X86] {init : List ℕ} {w₀ w : World} (hstart : w₀.Start init)
    (hrun : Relation.ReflTransGen World.Step w₀ w) {e : ℕ × Layout} (he : e ∈ w.live)
    {layout : Layout} (hfits : Replaces e.2 layout) :
    ∃ k₁ p k₂, (onHeap (Heap.dealloc e.1 e.2)).run w.kernel = .ok () k₁ ∧
      (onHeap (Heap.alloc layout)).run k₁ = .ok p k₂ ∧ p ≠ 0 := by
  obtain ⟨⟨held, free, parts, hS⟩, -⟩ := hstart.reach hrun
  obtain ⟨h₁, hdealloc, -⟩ := hS.heap.dealloc_ends he
  have hfree : (onHeap (Heap.dealloc e.1 e.2)).run w.kernel = .ok () (w.kernel.setHeap h₁) :=
    Prog.zoom_of_ok hdealloc
  have hcall : w.HeapCall (w.lose e (w.kernel.setHeap h₁)) := .dealloc e he hfree
  obtain ⟨free₁, parts₁, hK⟩ := hcall.kept hS
  obtain ⟨p, h₂, halloc, -⟩ := hK.sound.heap.alloc_ends layout
  have hagain : (onHeap (Heap.alloc layout)).run (w.lose e (w.kernel.setHeap h₁)).kernel =
      .ok p ((w.kernel.setHeap h₁).setHeap h₂) := Prog.zoom_of_ok halloc
  refine ⟨_, p, _, hfree, hagain, ?_⟩
  rcases hfits with ⟨b, hb, hb'⟩ | ⟨hb, hb', o, o', ho, ho', hle⟩
  · -- one live object less than before
    apply (hK.sound.alloc_within_peak hb' _ hagain).1
    have hpeak : Heap.liveIn b w.live ≤ w.peak b := hS.heap.peaks.ge b
    rw [Heap.liveIn_perm (List.perm_cons_erase he), Heap.liveIn_cons_of_eq _ hb] at hpeak
    exact hpeak
  · -- the block that was given back is free
    obtain ⟨f, o₁, ho₁, haligned, hsub⟩ := hS.heap.dealloc_large he hb hdealloc
    cases ho.symm.trans ho₁
    have haligned' : 2 ^ o' ∣ f := (pow_dvd_pow 2 hle).trans haligned
    have hpart : Dyadic.block o' f ⊆ Dyadic.block o f := Dyadic.block_subset_of_mem hle haligned'
      haligned (Dyadic.self_mem_block o' f) (Dyadic.self_mem_block o f)
    intro hp
    have hnone := (World.exhausted_large_iff hb').1 ((hK.sound.alloc_null_iff hagain).1 hp)
    exact hnone o' ho' f haligned' (hpart.trans hsub)

/-- Another object of the same size. -/
theorem freed_again_slab_and_page : letI := X86.documented
    ∃ (w₀ w : World) (e : ℕ × Layout), w₀.Start [1] ∧ Relation.ReflTransGen World.Step w₀ w ∧
      e ∈ w.live ∧ Replaces e.2 (Heap.uacpiLayout 700) ∧ ∃ k₁ p k₂,
        (onHeap (Heap.dealloc e.1 e.2)).run w.kernel = .ok () k₁ ∧
        (onHeap (Heap.alloc (Heap.uacpiLayout 700))).run k₁ = .ok p k₂ ∧ p ≠ 0 := by
  let := X86.documented
  obtain ⟨w₀, w, w', p, hstart, -, hcall, hlive, -⟩ := slab_and_page_steps
  have hrun : Relation.ReflTransGen World.Step w₀ w := .single (Or.inl hcall)
  have he : (p, Heap.kilobyte) ∈ w.live := by
    rw [hlive]
    exact List.mem_cons_self
  have hfits : Replaces Heap.kilobyte (Heap.uacpiLayout 700) := Or.inl ⟨6, rfl, rfl⟩
  exact ⟨w₀, w, _, hstart, hrun, he, hfits, freed_again hstart hrun he hfits⟩

end Prometheos.Mm
