import Prometheos.Heap.Runs
import Prometheos.Vmm.Populated

/-!
# What the parts of the memory management leave alone

A call of the virtual memory manager writes to tables and to free frames (`Vmm.Confined`); a call
of the heap writes to free frames, to the headers of slabs and to the links of free objects
(`Heap.Confined`). Hence the heap does not touch the tables, and the virtual memory manager does
not touch the heap.
-/

namespace Prometheos

/-- The frames of outstanding blocks are in range. -/
theorem Pmm.Holds.mem_frames_lt {s : Phys} {out : List (ℕ × ℕ)} (hH : Pmm.Holds s out) {b : ℕ × ℕ}
    (hb : b ∈ out) {g : ℕ} (hg : g ∈ Pmm.frames b) : g < s.pmm.totalFrames := by
  obtain ⟨-, f, hf, -, hend⟩ := hH.blocks b hb
  rw [Pmm.frames_of_eq hf] at hg
  exact hg.2.trans_le hend

/-! ## What a call of the virtual memory manager leaves alone -/

namespace Vmm

open Pmm

/-- From `s` to `s'` no frame is lost, and only tables and free frames are written to. -/
structure Confined (s s' : Vm) : Prop where
  hhdm : s'.hhdmOffset = s.hhdmOffset
  top : s'.topLevel = s.topLevel
  total : s'.phys.pmm.totalFrames = s.phys.pmm.totalFrames
  pool_eq : pool s' = pool s
  outside : ∀ g, g ∉ pool s → s'.phys.mem g = s.phys.mem g

theorem Confined.refl (s : Vm) : Confined s s :=
  ⟨rfl, rfl, rfl, rfl, fun _ _ => rfl⟩

section

variable [X86] {init held : List ℕ} {others : List (ℕ × ℕ)} {s t t' : Vm}

theorem Confined.map {v p : ℕ} {flags : PTFlags} {size : PageSize} {r : Except MapError Unit}
    (h : (∃ held, Tree init others t held) ∧ Confined s t)
    (hrun : (map v p flags size).run t = .ok r t') :
    (∃ held, Tree init others t' held) ∧ Confined s t' := by
  obtain ⟨⟨held, hT⟩, hC⟩ := h
  obtain ⟨htree, hM, hpost⟩ := map_of_ok hT hrun
  have hlayout : t'.hhdmOffset = t.hhdmOffset ∧
      t'.phys.pmm.totalFrames = t.phys.pmm.totalFrames := by
    rcases hpost.cases with rfl | hmapped | ⟨hR, -⟩
    · exact ⟨rfl, rfl⟩
    · exact ⟨hmapped.hhdm, hmapped.total⟩
    · exact ⟨hR.hhdm, hR.total⟩
  refine ⟨htree, hlayout.1.trans hC.hhdm, hpost.top_eq.trans hC.top,
    hlayout.2.trans hC.total, hM.pool_eq.trans hC.pool_eq, ?_⟩
  intro g hg
  rw [hM.outside g (hC.pool_eq ▸ hg), hC.outside g hg]

theorem Confined.unmap {v : ℕ} {size : PageSize} {r : Except UnmapError Unit}
    (h : (∃ held, Tree init others t held) ∧ Confined s t)
    (hrun : (unmap v size).run t = .ok r t') :
    (∃ held, Tree init others t' held) ∧ Confined s t' := by
  obtain ⟨⟨held, hT⟩, hC⟩ := h
  obtain ⟨r', u, held', hrun', hT', hM, hpost⟩ := unmap_run hT v size
  cases hrun.symm.trans hrun'
  have hlayout : t'.hhdmOffset = t.hhdmOffset ∧
      t'.phys.pmm.totalFrames = t.phys.pmm.totalFrames := by
    rcases hpost.cases with rfl | hU
    · exact ⟨rfl, rfl⟩
    · exact ⟨hU.hhdm, hU.total⟩
  refine ⟨⟨held', hT'⟩, hlayout.1.trans hC.hhdm, hpost.top_eq.trans hC.top,
    hlayout.2.trans hC.total, hM.pool_eq.trans hC.pool_eq, ?_⟩
  intro g hg
  rw [hM.outside g (hC.pool_eq ▸ hg), hC.outside g hg]

theorem World.Call.confined {w w' : World} (h : w.Call w') (hT : Tree init w.others w.vm held) :
    (∃ held', Tree init w.others w'.vm held') ∧ Confined w.vm w'.vm := by
  have hstart : (∃ held, Tree init w.others w.vm held) ∧ Confined w.vm w.vm :=
    ⟨⟨held, hT⟩, Confined.refl w.vm⟩
  cases h with
  | map virt phys flags size hrun => exact Confined.map hstart hrun
  | unmap virt size hrun => exact Confined.unmap hstart hrun
  | mapRange virt phys pages flags size hrun =>
      exact mapPages_invariant
        (I := fun t => (∃ held, Tree init w.others t held) ∧ Confined w.vm t)
        (fun _ _ _ _ _ h hrun => Confined.map h hrun) (fun _ _ _ _ h hrun => Confined.unmap h hrun)
        hstart hrun
  | unmapRange virt pages size hrun =>
      exact unmapPages_invariant
        (I := fun t => (∃ held, Tree init w.others t held) ∧ Confined w.vm t)
        (fun _ _ _ _ h hrun => Confined.unmap h hrun) hstart hrun

end

/-- The tables are as they were when nobody wrote to them. -/
theorem Tree.of_kept {init held : List ℕ} {others others' : List (ℕ × ℕ)} {s : Vm} {t : Phys}
    (hT : Tree init others s held) (hH : Holds t (tableBlocks held ++ others'))
    (hhdm : t.pmm.hhdmOffset = s.phys.pmm.hhdmOffset)
    (htotal : t.pmm.totalFrames = s.phys.pmm.totalFrames)
    (hmem : ∀ f ∈ held, t.mem f = s.phys.mem f) :
    Tree init others' { s with phys := t } held ∧
      (∀ q, tableAt { s with phys := t } q = tableAt s q) ∧
      ∀ q, walk { s with phys := t } q = walk s q := by
  have hkept : ∀ (p : List (Fin 512)) (i : Fin 512) f, tableAt s p = some f →
      entries t.mem f i = entries s.phys.mem f i := by
    intro p i f hp
    exact congrFun (hmem f (hT.mem_of_tableAt hp)) i
  have htab : ∀ q, tableAt { s with phys := t } q = tableAt s q := by
    intro q
    refine Radix.tableAt_congr ?_
    intro p i _ f _ hp
    exact hkept p i f hp
  have hwalk : ∀ q, walk { s with phys := t } q = walk s q := by
    intro q
    refine Radix.walk_congr ?_
    intro p i _ f _ hp
    exact hkept p i f hp
  refine ⟨⟨?_, hT.top_eq, ?_, hH, ?_, ?_, hT.ledger, hT.root_kept, hT.seen⟩, htab, hwalk⟩
  · exact hT.hhdm_eq.trans hhdm.symm
  · exact htotal.trans_le hT.total_le
  · intro f
    simp only [htab]
    exact hT.mem_iff f
  · intro a b f ha hb
    exact hT.unshared a b f ((htab a).symm.trans ha) ((htab b).symm.trans hb)

end Vmm

/-! ## What a call of the heap leaves alone -/

namespace Heap

open Pmm

section

variable {w : World} {free parts : ℕ → List ℕ} {f i : ℕ}

/-- The words of live blocks are not the heap's. -/
theorem Sound.live_not_heapWord (hS : Sound w free parts) {e : ℕ × Layout} (he : e ∈ w.live)
    (hi : i < 512) (hmeet : ¬ Disjoint (World.span e) (wordSpan w.heap.hhdmOffset f i)) :
    ¬ HeapWord w.heap free f i := by
  rintro (hfree | ⟨b, hf, hhead | ⟨j, hj, rfl⟩⟩)
  · exact hmeet ((hS.frame_disjoint he hfree).mono_right (wordSpan_subset hi))
  · exact hmeet ((hS.header_disjoint he hf).mono_right (wordSpan_subset_header hhead))
  · exact hmeet ((hS.obj_disjoint he hf hj).mono_right wordSpan_subset_obj)

/-- The words of the blocks of others are not the heap's. -/
theorem Sound.foreign_not_heapWord (hS : Sound w free parts) {c : ℕ × ℕ} (hc : c ∈ w.foreign)
    (hf : f ∈ frames c) : ¬ HeapWord w.heap free f i := by
  have hother : c ∈ w.others := List.mem_append_right _ hc
  rintro (hfree | ⟨b, hslab, -⟩)
  · exact hS.rep.holds.notMem_freeSet (List.mem_append_right _ hother) hf hfree
  · exact hS.others_apart hslab hother hf

/-- The bytes of live blocks are in slabs and behind large blocks. -/
theorem Sound.frame_of_span (hS : Sound w free parts) {e : ℕ × Layout} (he : e ∈ w.live) {a : ℕ}
    (ha : a ∈ World.span e) : ptrFrame w.heap.hhdmOffset a ∈
      outFrames (slabBlocks w.heap.refills ++ largeBlocks w.heap.hhdmOffset w.live) := by
  cases hbe : bucketFor e.2 with
  | none =>
      obtain ⟨f', o, ho, hptr⟩ := hS.clients.large e he hbe
      refine ⟨(f' * frameSize, o), List.mem_append_right _ ?_, ptrFrame_mem_frames ho hptr ha⟩
      unfold largeBlocks
      rw [List.mem_filterMap]
      refine ⟨e, he, ?_⟩
      rw [if_pos hbe, ho, hptr, blockPtr_sub]
      rfl
  | some b =>
      obtain ⟨f', j, hf', hj, hptr, -⟩ := hS.clients.small e he b hbe
      have hobj := objSpan_subset (hS.rep.bucket_lt b f' hf') hj.2 (span_subset_obj hbe hptr ha)
      rw [ptrFrame_of_mem hobj]
      exact ⟨_, List.mem_append_left _ (mem_slabBlocks hf'), mem_frames_self f'⟩

/-- The bytes of live blocks are in the direct map. -/
theorem Sound.span_direct (hS : Sound w free parts) {e : ℕ × Layout} (he : e ∈ w.live) {a : ℕ}
    (ha : a ∈ World.span e) : w.heap.hhdmOffset ≤ a ∧
      a - w.heap.hhdmOffset < w.heap.phys.pmm.totalFrames * frameSize := by
  have hle : w.heap.hhdmOffset ≤ e.1 := by
    cases hbe : bucketFor e.2 with
    | none =>
        obtain ⟨f, o, -, hptr⟩ := hS.clients.large e he hbe
        rw [hptr]
        exact le_blockPtr _ f
    | some b =>
        obtain ⟨f, j, -, -, hptr, -⟩ := hS.clients.small e he b hbe
        rw [hptr]
        exact (le_blockPtr _ f).trans (Nat.le_add_right _ _)
  obtain ⟨c, hc, hf⟩ := hS.frame_of_span he ha
  have hout : c ∈ slabBlocks w.heap.refills ++ w.others := by
    unfold World.others
    rw [← List.append_assoc]
    exact List.mem_append_left _ hc
  have hlt := hS.rep.holds.mem_frames_lt hout hf
  refine ⟨hle.trans ha.1, ?_⟩
  unfold ptrFrame at hlt
  unfold frameSize
  omega

/-- Live blocks have no byte in the blocks of others. -/
theorem Sound.live_not_foreign (hS : Sound w free parts) {e : ℕ × Layout} (he : e ∈ w.live)
    {c : ℕ × ℕ} (hc : c ∈ w.foreign) (hf : f ∈ frames c) (hi : i < 512) :
    Disjoint (World.span e) (wordSpan w.heap.hhdmOffset f i) := by
  have hH := hS.rep.holds
  unfold World.others at hH
  rw [← List.append_assoc] at hH
  rw [Set.disjoint_left]
  intro a ha hin
  have hmine := hS.frame_of_span he ha
  rw [ptrFrame_of_mem (wordSpan_subset hi hin)] at hmine
  exact hH.notMem_others hmine ⟨c, hc, hf⟩

/-- A block that stays live keeps its words. -/
theorem Confined.live_word {w' : World} {free' parts' : ℕ → List ℕ} (hC : Confined w free w' free')
    (hS : Sound w free parts) (hS' : Sound w' free' parts') {e : ℕ × Layout} (he : e ∈ w.live)
    (he' : e ∈ w'.live) (hi : i < 512)
    (hmeet : ¬ Disjoint (World.span e) (wordSpan w.heap.hhdmOffset f i)) :
    w'.heap.phys.mem f i = w.heap.phys.mem f i := by
  by_contra hne
  rcases hC.mem f i hne with h | h
  · exact hS.live_not_heapWord he hi hmeet h
  · rw [← hC.hhdm] at hmeet
    exact hS'.live_not_heapWord he' hi hmeet h

/-- The heap does not write to the blocks of others. -/
theorem Confined.foreign_frame {w' : World} {free' parts' : ℕ → List ℕ}
    (hC : Confined w free w' free') (hS : Sound w free parts) (hS' : Sound w' free' parts')
    {c : ℕ × ℕ} (hc : c ∈ w.foreign) (hc' : c ∈ w'.foreign) (hf : f ∈ frames c) :
    w'.heap.phys.mem f = w.heap.phys.mem f := by
  funext i
  by_contra hne
  rcases hC.mem f i hne with h | h
  · exact hS.foreign_not_heapWord hc hf h
  · exact hS'.foreign_not_heapWord hc' hf h

end

end Heap

end Prometheos
