import Prometheos.Heap.Rep

/-!
# What the heap's operations do to its slabs

Each operation changes one slab, and the active and partial slabs of one bucket.
`Rep.edit` is the lemma for such a change; `Rep.withPhys` is the one for everything
that leaves the slabs alone. The two specifications, `allocSmall_spec` and
`deallocSmall_spec`, say which object leaves or enters the free list of which slab.
-/

namespace Prometheos.Heap

open Pmm Linked

variable {h h' : Heap} {others others' : List (ℕ × ℕ)} {free parts : ℕ → List ℕ}
  {b f j : ℕ} {js : List ℕ}

/-! ## Changes of the state -/

/-- The heap with another memory. -/
def withMem (h : Heap) (m : Mem) : Heap := { h with phys := { h.phys with mem := m } }

/-- From `h` to `h'` only the slab in frame `f`, `active[b]` and `partial[b]` change. -/
structure Edited (h h' : Heap) (b f : ℕ) (act part : Option ℕ) : Prop where
  hhdm : h'.hhdmOffset = h.hhdmOffset
  refills : h'.refills = h.refills
  pmm : h'.phys.pmm = h.phys.pmm
  mem : ∀ g, g ≠ f → h'.phys.mem g = h.phys.mem g
  active_len : h'.active.length = h.active.length
  active_at : h'.active[b]? = some act
  active_other : ∀ b', b' ≠ b → h'.active[b']? = h.active[b']?
  partials_len : h'.partials.length = h.partials.length
  partials_at : h'.partials[b]? = some part
  partials_other : ∀ b', b' ≠ b → h'.partials[b']? = h.partials[b']?

/-- The physical memory changes, but not the links of the heap. -/
theorem Rep.withPhys (hR : Rep h others free parts) {s' : Phys}
    (hH : Holds s' (slabBlocks h.refills ++ others'))
    (hhdm : s'.pmm.hhdmOffset = h.phys.pmm.hhdmOffset)
    (hhead : ∀ b f, (b, f) ∈ created h.refills →
      s'.mem f 0 = h.phys.mem f 0 ∧ s'.mem f 1 = h.phys.mem f 1)
    (hobjs : ∀ b f, (b, f) ∈ created h.refills → ∀ j ∈ free f,
      s'.mem f (j * objSize b / 8) = h.phys.mem f (j * objSize b / 8)) :
    Rep { h with phys := s' } others' free parts := by
  refine ⟨?_, hR.active_len, hR.partials_len, hH, hR.bucket_lt, ?_, hR.active_mem, ?_,
    hR.part_mem, hR.placed⟩
  · change h.hhdmOffset = s'.pmm.hhdmOffset
    rw [hhdm]
    exact hR.hhdm_eq
  · intro b f hf
    exact (hR.slab b f hf).congr (hR.bucket_lt b f hf) (hhead b f hf).2 (hobjs b f hf)
  · intro b hb
    rcases hR.chain b hb with ⟨head, hhd, hc⟩
    refine ⟨head, hhd, ChainTo.congr hc ?_⟩
    intro p hp
    rcases List.mem_map.1 hp with ⟨g, hg, rfl⟩
    simp only [linkAt, ptrFrame_blockPtr, ptrIndex_blockPtr]
    rw [(hhead b g (hR.part_mem b g hg).1).1]

theorem Rep.perm (hR : Rep h others free parts) (hp : others.Perm others') :
    Rep h others' free parts :=
  hR.withPhys (hR.holds.perm (hp.append_left _)) rfl (fun _ _ _ => ⟨rfl, rfl⟩)
    (fun _ _ _ _ _ => rfl)

theorem IsActive.congr {act : Option ℕ} (hact : h'.active[b]? = some act)
    (hhdm : h'.hhdmOffset = h.hhdmOffset) :
    IsActive h' b f ↔ act = some (blockPtr h.hhdmOffset f) := by
  unfold IsActive
  rw [hact, hhdm, Option.some.injEq]

/-- One slab and the places of its bucket change. -/
theorem Rep.edit (hR : Rep h others free parts) (hf : (b, f) ∈ created h.refills)
    {act part : Option ℕ} {ps : List ℕ} (hE : Edited h h' b f act part)
    (hlist : FreeList h.hhdmOffset h'.phys.mem b f js)
    (hchain : Chain (linkAt h.hhdmOffset h'.phys.mem) part (ps.map (blockPtr h.hhdmOffset)))
    (hact : ∀ p, act = some p → ∃ g, p = blockPtr h.hhdmOffset g ∧ (b, g) ∈ created h.refills)
    (hpart : ∀ g ∈ ps, (b, g) ∈ created h.refills ∧ Function.update free f js g ≠ [] ∧
      act ≠ some (blockPtr h.hhdmOffset g))
    (hplaced : ∀ g, (b, g) ∈ created h.refills → act = some (blockPtr h.hhdmOffset g) ∨
      g ∈ ps ∨ Function.update free f js g = []) :
    Rep h' others (Function.update free f js) (Function.update parts b ps) := by
  have hactive : ∀ b' g, b' ≠ b → (IsActive h' b' g ↔ IsActive h b' g) := by
    intro b' g hne
    unfold IsActive
    rw [hE.active_other b' hne, hE.hhdm]
  -- slabs of other buckets are in other frames
  have hframe : ∀ b' g, b' ≠ b → (b', g) ∈ created h.refills → g ≠ f := by
    rintro b' g hne hg rfl
    exact hne (hR.bucket_unique hg hf)
  refine ⟨?_, ?_, ?_, ?_, ?_, ?_, ?_, ?_, ?_, ?_⟩
  · rw [hE.hhdm, hE.pmm]
    exact hR.hhdm_eq
  · rw [hE.active_len]
    exact hR.active_len
  · rw [hE.partials_len]
    exact hR.partials_len
  · have hphys : h'.phys = ⟨h.phys.pmm, h'.phys.mem⟩ := by rw [← hE.pmm]
    rw [hE.refills, hphys]
    refine hR.holds.write ?_
    intro g hg
    exact hE.mem g fun hgf => hR.notFree hf (hgf ▸ hg)
  · rw [hE.refills]
    exact hR.bucket_lt
  · intro b' g hg
    rw [hE.refills] at hg
    rw [hE.hhdm]
    by_cases hgf : g = f
    · subst hgf
      rw [hR.bucket_unique hg hf, Function.update_self]
      exact hlist
    · rw [Function.update_of_ne hgf]
      refine (hR.slab b' g hg).congr (hR.bucket_lt b' g hg) ?_ ?_
      · rw [hE.mem g hgf]
      · intro j _
        rw [hE.mem g hgf]
  · intro b' p hp
    rw [hE.hhdm, hE.refills]
    by_cases hb : b' = b
    · subst hb
      rw [hE.active_at, Option.some.injEq] at hp
      exact hact p hp
    · rw [hE.active_other b' hb] at hp
      exact hR.active_mem b' p hp
  · intro b' hb'
    rw [hE.hhdm]
    by_cases hb : b' = b
    · subst hb
      rw [Function.update_self]
      exact ⟨part, hE.partials_at, hchain⟩
    · rcases hR.chain b' hb' with ⟨head, hhd, hc⟩
      rw [Function.update_of_ne hb]
      refine ⟨head, (hE.partials_other b' hb).trans hhd, ChainTo.congr hc ?_⟩
      intro p hp
      rcases List.mem_map.1 hp with ⟨g, hg, rfl⟩
      simp only [linkAt, ptrFrame_blockPtr, ptrIndex_blockPtr]
      rw [hE.mem g (hframe b' g hb (hR.part_mem b' g hg).1)]
  · intro b' g hg
    rw [hE.refills]
    by_cases hb : b' = b
    · subst hb
      rw [Function.update_self] at hg
      rw [IsActive.congr hE.active_at hE.hhdm]
      exact hpart g hg
    · rw [Function.update_of_ne hb] at hg
      rcases hR.part_mem b' g hg with ⟨hcr, hfree, hna⟩
      rw [Function.update_of_ne (hframe b' g hb hcr), hactive b' g hb]
      exact ⟨hcr, hfree, hna⟩
  · intro b' g hg
    rw [hE.refills] at hg
    by_cases hb : b' = b
    · subst hb
      rw [Function.update_self, IsActive.congr hE.active_at hE.hhdm]
      exact hplaced g hg
    · rw [Function.update_of_ne hb, Function.update_of_ne (hframe b' g hb hg), hactive b' g hb]
      exact hR.placed b' g hg

/-! ## Reading and writing -/

theorem onPmm_of_ok {α : Type} {x : Run Phys α} {a : α} {s' : Phys}
    (hx : x.run h.phys = .ok a s') : (onPmm x).run h = .ok a { h with phys := s' } :=
  Prog.zoom_of_ok hx

theorem readLink_of_le {hhdm p : ℕ} (hh : h.hhdmOffset = hhdm) (hle : hhdm ≤ p) :
    (readLink p).run h = .ok (linkAt hhdm h.phys.mem p) h := by
  subst hh
  unfold readLink
  rw [Prog.gets_bind, Prog.bind_of_ok (onPmm_of_ok (onMem_of_ok (load_of_le hle _)))]
  rfl

theorem writeLink_of_le {hhdm p : ℕ} (hh : h.hhdmOffset = hhdm) (hle : hhdm ≤ p)
    (link : Option ℕ) :
    (writeLink p link).run h = .ok () (withMem h
      (h.phys.mem.set (ptrFrame hhdm p) (ptrIndex hhdm p) (ptrWord link))) := by
  subst hh
  unfold writeLink
  rw [Prog.gets_bind, onPmm_of_ok (onMem_of_ok (store_of_le hle _ _))]
  rfl

theorem le_objPtr (hhdm b f j : ℕ) : hhdm ≤ objPtr hhdm b f j :=
  (le_blockPtr hhdm f).trans (Nat.le_add_right _ _)

theorem readFree_block {hhdm : ℕ} (hh : h.hhdmOffset = hhdm) (f : ℕ) :
    (readFree (blockPtr hhdm f)).run h = .ok (wordPtr (h.phys.mem f 1)) h := by
  unfold readFree
  rw [readLink_of_le hh (Nat.le_add_right_of_le (le_blockPtr _ f))]
  simp [linkAt]

theorem writeFree_block {hhdm : ℕ} (hh : h.hhdmOffset = hhdm) (f : ℕ) (link : Option ℕ) :
    (writeFree (blockPtr hhdm f) link).run h =
      .ok () (withMem h (h.phys.mem.set f 1 (ptrWord link))) := by
  unfold writeFree
  rw [writeLink_of_le hh (Nat.le_add_right_of_le (le_blockPtr _ f))]
  simp

theorem readSlabNext_block {hhdm : ℕ} (hh : h.hhdmOffset = hhdm) (f : ℕ) :
    (readSlabNext (blockPtr hhdm f)).run h = .ok (wordPtr (h.phys.mem f 0)) h := by
  unfold readSlabNext
  rw [readLink_of_le hh (le_blockPtr _ f)]
  simp [linkAt]

theorem writeSlabNext_block {hhdm : ℕ} (hh : h.hhdmOffset = hhdm) (f : ℕ) (link : Option ℕ) :
    (writeSlabNext (blockPtr hhdm f) link).run h =
      .ok () (withMem h (h.phys.mem.set f 0 (ptrWord link))) := by
  unfold writeSlabNext
  rw [writeLink_of_le hh (le_blockPtr _ f)]
  simp

theorem readNext_obj {hhdm : ℕ} (hh : h.hhdmOffset = hhdm) (b f j : ℕ) :
    (readNext (objPtr hhdm b f j)).run h =
      .ok (linkAt hhdm h.phys.mem (objPtr hhdm b f j)) h := readLink_of_le hh (le_objPtr _ _ _ _)

theorem writeNext_obj {hhdm : ℕ} (hh : h.hhdmOffset = hhdm) (hb : b < numBuckets)
    (hj : j < slots b) (f : ℕ) (link : Option ℕ) :
    (writeNext (objPtr hhdm b f j) link).run h =
      .ok () (withMem h (h.phys.mem.set f (j * objSize b / 8) (ptrWord link))) := by
  unfold writeNext
  rw [writeLink_of_le hh (le_objPtr _ _ _ _), ptrFrame_objPtr hb hj, ptrIndex_objPtr hb hj]

theorem newUnchecked_of_ne {σ : Type} {p : ℕ} (hp : p ≠ 0) (s : σ) :
    (newUnchecked p : Run σ ℕ).run s = .ok p s := Prog.require_bind hp _ _ s

theorem physToVirt_frame (hp : PtrOk h.hhdmOffset f) :
    (physToVirt (f * frameSize)).run h = .ok (blockPtr h.hhdmOffset f) h := by
  unfold physToVirt
  rw [Prog.gets_bind]
  exact addU64_of_lt hp.2 h

theorem setActive_of_lt (hb : b < h.active.length) (slab : Option ℕ) :
    (setActive b slab).run h = .ok () { h with active := h.active.set b slab } := by
  unfold setActive
  rw [Prog.gets_bind, Prog.bind_of_ok (setIndex_of_lt hb slab h), Prog.run_update]

theorem setPartial_of_lt (hb : b < h.partials.length) (slab : Option ℕ) :
    (setPartial b slab).run h = .ok () { h with partials := h.partials.set b slab } := by
  unfold setPartial
  rw [Prog.gets_bind, Prog.bind_of_ok (setIndex_of_lt hb slab h), Prog.run_update]

/-! ## Taking an object -/

/-- The active slab of the bucket has a free object: it is taken. -/
theorem popObj_spec (hR : Rep h others free parts) (hf : (b, f) ∈ created h.refills)
    (hact : IsActive h b f) (hfree : free f = j :: js) :
    ∃ h', (popObj (blockPtr h.hhdmOffset f) (objPtr h.hhdmOffset b f j)).run h =
        .ok (objPtr h.hhdmOffset b f j) h' ∧
      h'.refills = h.refills ∧ h'.hhdmOffset = h.hhdmOffset ∧ h'.phys.pmm = h.phys.pmm ∧
      (∃ w, h'.phys.mem = h.phys.mem.set f 1 w) ∧
      Rep h' others (Function.update free f js) parts := by
  have hb := hR.bucket_lt b f hf
  have hlist := hR.slab b f hf
  rw [hfree] at hlist
  rcases hR.chain b hb with ⟨head, hhead, hchain⟩
  refine ⟨withMem h (h.phys.mem.set f 1
    (ptrWord (linkAt h.hhdmOffset h.phys.mem (objPtr h.hhdmOffset b f j)))), ?_, rfl, rfl, rfl,
    ⟨_, rfl⟩, ?_⟩
  · unfold popObj
    rw [Prog.bind_of_ok (readNext_obj rfl b f j), Prog.bind_of_ok (writeFree_block rfl f _)]
    rfl
  · have hE : Edited h (withMem h (h.phys.mem.set f 1
        (ptrWord (linkAt h.hhdmOffset h.phys.mem (objPtr h.hhdmOffset b f j))))) b f
        (some (blockPtr h.hhdmOffset f)) head :=
      ⟨rfl, rfl, rfl, fun g hg => Mem.set_frame_ne _ _ _ hg, rfl, hact, fun _ _ => rfl, rfl,
        hhead, fun _ _ => rfl⟩
    have hparts : Function.update parts b (parts b) = parts := Function.update_eq_self b parts
    rw [← hparts]
    -- the active slab is not in the list of partial ones
    have hne : ∀ g ∈ parts b, g ≠ f := by
      rintro g hg rfl
      exact (hR.part_mem b g hg).2.2 hact
    refine hR.edit hf hE (hlist.pop hb) ?_ ?_ ?_ ?_
    · refine ChainTo.congr hchain ?_
      intro p hp
      rcases List.mem_map.1 hp with ⟨g, hg, rfl⟩
      simp only [linkAt, ptrFrame_blockPtr, ptrIndex_blockPtr]
      change wordPtr (Mem.set _ _ _ _ g 0) = _
      rw [Mem.set_frame_ne _ _ _ (hne g hg)]
    · rintro p hp
      exact ⟨f, (Option.some.inj hp).symm, hf⟩
    · intro g hg
      rcases hR.part_mem b g hg with ⟨hcr, hne', hna⟩
      rw [Function.update_of_ne (hne g hg)]
      refine ⟨hcr, hne', ?_⟩
      intro heq
      exact hne g hg (blockPtr_inj (Option.some.inj heq).symm)
    · intro g hg
      by_cases hgf : g = f
      · exact Or.inl (by rw [hgf])
      · rw [Function.update_of_ne hgf]
        rcases hR.placed b g hg with hga | hga
        · unfold IsActive at hga hact
          rw [hact, Option.some.injEq] at hga
          exact Or.inl hga
        · exact Or.inr hga

/-! ## Finding a slab -/

/-- `inner.active[bucket] = None`, when the active slab is full. -/
theorem Rep.clearActive (hR : Rep h others free parts)
    (hfull : ∀ f, IsActive h b f → free f = []) :
    Rep { h with active := h.active.set b none } others free parts := by
  have hother : ∀ b' g, b' ≠ b →
      (IsActive { h with active := h.active.set b none } b' g ↔ IsActive h b' g) := by
    intro b' g hne
    unfold IsActive
    rw [List.getElem?_set_ne (Ne.symm hne)]
  have hself : ∀ g, ¬ IsActive { h with active := h.active.set b none } b g := by
    intro g hg
    unfold IsActive at hg
    rw [List.getElem?_set] at hg
    simp at hg
  refine ⟨hR.hhdm_eq, ?_, hR.partials_len, hR.holds, hR.bucket_lt, hR.slab, ?_, hR.chain, ?_, ?_⟩
  · rw [← hR.active_len]
    exact List.length_set
  · intro b' p hp
    change (h.active.set b none)[b']? = _ at hp
    by_cases hb : b' = b
    · rw [hb, List.getElem?_set] at hp
      simp at hp
    · rw [List.getElem?_set_ne (Ne.symm hb)] at hp
      exact hR.active_mem b' p hp
  · intro b' g hg
    rcases hR.part_mem b' g hg with ⟨hcr, hne, hna⟩
    refine ⟨hcr, hne, ?_⟩
    by_cases hb : b' = b
    · rw [hb]
      exact hself g
    · rw [hother b' g hb]
      exact hna
  · intro b' g hg
    rcases hR.placed b' g hg with hact | hrest
    · by_cases hb : b' = b
      · rw [hb] at hact
        exact Or.inr (Or.inr (hfull g hact))
      · exact Or.inl ((hother b' g hb).2 hact)
    · exact Or.inr hrest

theorem takePartial_none (hR : Rep h others free parts) (hb : b < numBuckets)
    (hparts : parts b = []) : (takePartial b).run h = .ok none h := by
  rcases hR.chain b hb with ⟨head, hhead, hchain⟩
  rw [hparts] at hchain
  have hnone : head = none := hchain
  subst hnone
  unfold takePartial
  rw [Prog.gets_bind, Prog.bind_of_ok (index_of_eq hhead h)]
  rfl

/-- The first partial slab is unlinked and becomes the active one. -/
theorem takePartial_some (hR : Rep h others free parts) {fs : List ℕ}
    (hparts : parts b = f :: fs) (hnone : ∀ g, ¬ IsActive h b g) :
    ∃ h₁ h₂, (takePartial b).run h = .ok (some (blockPtr h.hhdmOffset f)) h₁ ∧
      (setActive b (some (blockPtr h.hhdmOffset f))).run h₁ = .ok () h₂ ∧
      h₂.refills = h.refills ∧ h₂.hhdmOffset = h.hhdmOffset ∧ h₂.phys.pmm = h.phys.pmm ∧
      (∃ w, h₂.phys.mem = h.phys.mem.set f 0 w) ∧
      IsActive h₂ b f ∧ Rep h₂ others free (Function.update parts b fs) := by
  have hmem : f ∈ parts b := by
    rw [hparts]
    exact List.mem_cons_self
  rcases hR.part_mem b f hmem with ⟨hf, -, -⟩
  have hb := hR.bucket_lt b f hf
  rcases hR.chain b hb with ⟨head, hhead, hchain⟩
  rw [hparts, List.map_cons] at hchain
  have hnodup := hchain.nodup
  rcases hchain with ⟨hheadf, hrest⟩
  have hnotin : f ∉ fs := by
    intro hin
    exact (List.nodup_cons.1 hnodup).1 (List.mem_map_of_mem hin)
  have hlen : b < h.active.length := by
    rw [hR.active_len]
    exact hb
  have hplen : b < h.partials.length := by
    rw [hR.partials_len]
    exact hb
  subst hheadf
  refine ⟨{ withMem h (h.phys.mem.set f 0 (ptrWord none)) with
      partials := h.partials.set b (wordPtr (h.phys.mem f 0)) }, _, ?_,
    setActive_of_lt (by exact hlen) _, rfl, rfl, rfl, ⟨_, rfl⟩, ?_, ?_⟩
  · -- the three steps of `take_partial`
    unfold takePartial
    rw [Prog.gets_bind, Prog.bind_of_ok (index_of_eq hhead h)]
    refine (Prog.bind_of_ok (readSlabNext_block rfl f)).trans ?_
    refine (Prog.bind_of_ok (setPartial_of_lt hplen _)).trans ?_
    refine (Prog.bind_of_ok (writeSlabNext_block (by rfl) f none)).trans ?_
    rfl
  · exact List.getElem?_set_self hlen
  · have hupd : Function.update free f (free f) = free := Function.update_eq_self f free
    rw [← hupd]
    have hE : Edited h { withMem h (h.phys.mem.set f 0 (ptrWord none)) with
        partials := h.partials.set b (wordPtr (h.phys.mem f 0))
        active := h.active.set b (some (blockPtr h.hhdmOffset f)) } b f
        (some (blockPtr h.hhdmOffset f)) (wordPtr (h.phys.mem f 0)) :=
      ⟨rfl, rfl, rfl, fun g hg => Mem.set_frame_ne _ _ _ hg, List.length_set,
        List.getElem?_set_self hlen, fun b' hb' => List.getElem?_set_ne (Ne.symm hb'),
        List.length_set, List.getElem?_set_self hplen,
        fun b' hb' => List.getElem?_set_ne (Ne.symm hb')⟩
    refine hR.edit hf hE ?_ ?_ ?_ ?_ ?_
    · refine (hR.slab b f hf).congr hb ?_ ?_
      · change Mem.set _ _ _ _ f 1 = _
        rw [Mem.set_apply, if_neg (by omega)]
      · intro i hi
        have hword := two_le_objWord (b := b) ((hR.slab b f hf).range i hi).1
        change Mem.set _ _ _ _ f _ = _
        rw [Mem.set_apply, if_neg (by omega)]
    · have hrest' : Chain (linkAt h.hhdmOffset h.phys.mem) (wordPtr (h.phys.mem f 0))
          (fs.map (blockPtr h.hhdmOffset)) := by
        have hlink : linkAt h.hhdmOffset h.phys.mem (blockPtr h.hhdmOffset f) =
            wordPtr (h.phys.mem f 0) := by simp [linkAt]
        rw [← hlink]
        exact hrest
      refine ChainTo.congr hrest' ?_
      intro p hp
      rcases List.mem_map.1 hp with ⟨g, hg, rfl⟩
      have hgf : g ≠ f := fun heq => hnotin (heq ▸ hg)
      simp only [linkAt, ptrFrame_blockPtr, ptrIndex_blockPtr]
      change wordPtr (Mem.set _ _ _ _ g 0) = _
      rw [Mem.set_frame_ne _ _ _ hgf]
    · intro p hp
      exact ⟨f, (Option.some.inj hp).symm, hf⟩
    · intro g hg
      have hgp : g ∈ parts b := by
        rw [hparts]
        exact List.mem_cons_of_mem _ hg
      rcases hR.part_mem b g hgp with ⟨hcr, hne, -⟩
      rw [hupd]
      refine ⟨hcr, hne, ?_⟩
      intro heq
      exact hnotin (blockPtr_inj (Option.some.inj heq) ▸ hg)
    · intro g hg
      rw [hupd]
      rcases hR.placed b g hg with hact | hpart | hfull
      · exact absurd hact (hnone g)
      · rw [hparts] at hpart
        rcases List.mem_cons.1 hpart with rfl | hin
        · exact Or.inl rfl
        · exact Or.inr (Or.inl hin)
      · exact Or.inr (Or.inr hfull)

/-! ## Making a slab -/

/-- The loop of `refill` threads the objects `1, …, n` in front of the list. -/
theorem threadObjs_spec {s : Phys} {hhdm : ℕ} (hD : DirectMap s) (hb : b < numBuckets)
    (hf : f < s.pmm.totalFrames) (hhdm_eq : hhdm = s.pmm.hhdmOffset) :
    ∀ (n : ℕ) {head : Option ℕ} {h : Heap}, n < slots b → h.hhdmOffset = hhdm →
      wordPtr (ptrWord head) = head →
      ObjChain hhdm h.phys.mem b f head (List.range' (n + 1) (slots b - 1 - n)) →
      ∃ head' m', (threadObjs (objPtr hhdm b f 1) (objSize b) n head).run h =
          .ok head' (withMem h m') ∧
        wordPtr (ptrWord head') = head' ∧
        ObjChain hhdm m' b f head' (List.range' 1 (slots b - 1)) ∧
        ∀ g, g ≠ f → m' g = h.phys.mem g := by
  intro n
  induction n with
  | zero =>
      intro head h _ _ hword hchain
      exact ⟨head, h.phys.mem, rfl, hword, hchain, fun _ _ => rfl⟩
  | succ n ih =>
      intro head h hn hh hword hchain
      have hobj : objPtr hhdm b f 1 + n * objSize b = objPtr hhdm b f (n + 1) := by
        unfold objPtr
        ring
      have hok := objPtr_ok hD hhdm_eq hf hb hn
      have hlist : List.range' (n + 1) (slots b - 1 - n) =
          (n + 1) :: List.range' (n + 1 + 1) (slots b - 1 - (n + 1)) := by
        rw [← List.range'_succ]
        congr 1
        omega
      have hchain' : ObjChain hhdm (h.phys.mem.set f ((n + 1) * objSize b / 8) (ptrWord head)) b f
          (some (objPtr hhdm b f (n + 1))) (List.range' (n + 1) (slots b - 1 - n)) := by
        rw [hlist]
        refine hchain.cons hb ?_ hn ?_ hword
        · intro i hi
          rw [List.mem_range'_1] at hi
          omega
        · intro hi
          rw [List.mem_range'_1] at hi
          omega
      rcases ih (h := withMem h (h.phys.mem.set f ((n + 1) * objSize b / 8) (ptrWord head)))
        (by omega) hh (wordPtr_some hok.1 hok.2) hchain' with ⟨head', m', hrun, hword', hc, hmem⟩
      refine ⟨head', m', ?_, hword', hc, ?_⟩
      · unfold threadObjs
        dsimp only
        rw [hobj, Prog.bind_of_ok (writeNext_obj hh hb hn f head),
          Prog.bind_of_ok (newUnchecked_of_ne hok.1 _)]
        exact hrun
      · intro g hg
        rw [hmem g hg]
        exact Mem.set_frame_ne _ _ _ hg

/-- `refill` lays out a slab in a new frame: all its objects are free. -/
theorem makeSlab_spec (hD : DirectMap h.phys) (hh : h.hhdmOffset = h.phys.pmm.hhdmOffset)
    (hb : b < numBuckets) (hf : f < h.phys.pmm.totalFrames) :
    ∃ m', (makeSlab (objSize b) (f * frameSize)).run h =
        .ok (blockPtr h.hhdmOffset f) (withMem h m') ∧
      FreeList h.hhdmOffset m' b f (List.range' 1 (slots b - 1)) ∧
      ∀ g, g ≠ f → m' g = h.phys.mem g := by
  have hslots := two_le_slots hb
  have hmul := slots_mul_objSize hb
  have h16 : 16 ≤ objSize b := Nat.le_of_dvd (objSize_pos b) (sixteen_dvd_objSize b)
  have hbase := hD.ptrsOk f hf
  rw [← hh] at hbase
  have hoff := nextMultipleOf_header b
  have hcount := objsPerSlab_eq hb
  unfold objsPerSlab at hcount
  rw [hoff] at hcount
  have hfirst : blockPtr h.hhdmOffset f + objSize b = objPtr h.hhdmOffset b f 1 := by
    unfold objPtr
    rw [Nat.one_mul]
  have hnil : ObjChain h.hhdmOffset h.phys.mem b f none
      (List.range' (slots b - 1 + 1) (slots b - 1 - (slots b - 1))) := by
    rw [Nat.sub_self]
    exact rfl
  rcases threadObjs_spec hD hb hf hh (slots b - 1) (by omega) rfl rfl hnil with
    ⟨head', m', hrun, hword, hchain, hmem⟩
  have hpos : (frameSize - nextMultipleOf headerSize (objSize b)) / objSize b > 0 := by
    rw [hoff, hcount]
    omega
  refine ⟨(m'.set f 0 (ptrWord none)).set f 1 (ptrWord head'), ?_, ⟨?_, ?_⟩, ?_⟩
  · unfold makeSlab
    rw [Prog.bind_of_ok (physToVirt_frame hbase), Prog.require_bind hpos, hoff, hcount, hfirst]
    refine (Prog.bind_of_ok hrun).trans ?_
    refine (Prog.bind_of_ok (writeSlabNext_block (by rfl) f none)).trans ?_
    refine (Prog.bind_of_ok (writeFree_block (by rfl) f head')).trans ?_
    exact newUnchecked_of_ne hbase.1 _
  · rw [Mem.set_self, hword]
    refine hchain.congr hb ?_ ?_
    · intro j hj
      rw [List.mem_range'_1] at hj
      omega
    · intro j hj
      rw [List.mem_range'_1] at hj
      have hwj := two_le_objWord (b := b) hj.1
      rw [Mem.set_apply, if_neg (by omega), Mem.set_apply, if_neg (by omega)]
  · intro j hj
    rw [List.mem_range'_1] at hj
    omega
  · intro g hg
    rw [Mem.set_frame_ne _ _ _ hg, Mem.set_frame_ne _ _ _ hg]
    exact hmem g hg

/-- A new slab, in a frame that was free, becomes the active one. -/
theorem Rep.addSlab (hR : Rep h others free parts) (hb : b < numBuckets)
    (hnone : ∀ g, ¬ IsActive h b g) {s' : Phys} {m' : Mem} (htook : Took h.phys s' 0 f)
    (hlist : FreeList h.hhdmOffset m' b f js) (hmem : ∀ g, g ≠ f → m' g = s'.mem g) :
    Rep ⟨{ s' with mem := m' }, h.hhdmOffset,
      h.active.set b (some (blockPtr h.hhdmOffset f)), h.partials, (b, some f) :: h.refills⟩
      others (Function.update free f js) parts := by
  have hlen : b < h.active.length := by
    rw [hR.active_len]
    exact hb
  have hfree : f ∈ freeSet h.phys := htook.subset (Dyadic.self_mem_block 0 f)
  have hne : ∀ b' g, (b', g) ∈ created h.refills → g ≠ f := by
    rintro b' g hg rfl
    exact hR.notFree hg hfree
  have hsame : ∀ b' g, (b', g) ∈ created h.refills → m' g = h.phys.mem g := by
    intro b' g hg
    rw [hmem g (hne b' g hg)]
    exact htook.mem_eq g (hR.notFree hg)
  have hactive : ∀ b' g, b' ≠ b → (IsActive ⟨{ s' with mem := m' }, h.hhdmOffset,
      h.active.set b (some (blockPtr h.hhdmOffset f)), h.partials, (b, some f) :: h.refills⟩ b' g ↔
      IsActive h b' g) := by
    intro b' g hb'
    unfold IsActive
    rw [List.getElem?_set_ne (Ne.symm hb')]
  refine ⟨?_, ?_, hR.partials_len, ?_, ?_, ?_, ?_, ?_, ?_, ?_⟩
  · change h.hhdmOffset = s'.pmm.hhdmOffset
    rw [htook.hhdm]
    exact hR.hhdm_eq
  · rw [← hR.active_len]
    exact List.length_set
  · refine Holds.write (hR.holds.took (Nat.zero_le _) htook) ?_
    intro g hg
    refine hmem g ?_
    rintro rfl
    rw [htook.free_eq] at hg
    exact hg.2 (Dyadic.self_mem_block 0 g)
  · intro b' g hg
    rcases List.mem_cons.1 hg with heq | hg
    · cases heq
      exact hb
    · exact hR.bucket_lt b' g hg
  · intro b' g hg
    rcases List.mem_cons.1 hg with heq | hg
    · cases heq
      rw [Function.update_self]
      exact hlist
    · rw [Function.update_of_ne (hne b' g hg)]
      have hm := hsame b' g hg
      refine (hR.slab b' g hg).congr (hR.bucket_lt b' g hg) ?_ ?_
      · change m' g 1 = _
        rw [hm]
      · intro i _
        change m' g _ = _
        rw [hm]
  · intro b' p hp
    change (h.active.set b _)[b']? = _ at hp
    by_cases hb' : b' = b
    · subst hb'
      rw [List.getElem?_set_self hlen, Option.some.injEq, Option.some.injEq] at hp
      exact ⟨f, hp.symm, List.mem_cons_self⟩
    · rw [List.getElem?_set_ne (Ne.symm hb')] at hp
      rcases hR.active_mem b' p hp with ⟨g, hg, hcr⟩
      exact ⟨g, hg, List.mem_cons_of_mem _ hcr⟩
  · intro b' hb'
    rcases hR.chain b' hb' with ⟨head, hhead, hc⟩
    refine ⟨head, hhead, ChainTo.congr hc ?_⟩
    intro p hp
    rcases List.mem_map.1 hp with ⟨g, hg, rfl⟩
    simp only [linkAt, ptrFrame_blockPtr, ptrIndex_blockPtr]
    rw [hsame b' g (hR.part_mem b' g hg).1]
  · intro b' g hg
    rcases hR.part_mem b' g hg with ⟨hcr, hnil, hna⟩
    rw [Function.update_of_ne (hne b' g hcr)]
    refine ⟨List.mem_cons_of_mem _ hcr, hnil, ?_⟩
    by_cases hb' : b' = b
    · subst hb'
      intro hact
      unfold IsActive at hact
      rw [List.getElem?_set_self hlen, Option.some.injEq, Option.some.injEq] at hact
      exact hne b' g hcr (blockPtr_inj hact).symm
    · rw [hactive b' g hb']
      exact hna
  · intro b' g hg
    rcases List.mem_cons.1 hg with heq | hold
    · cases heq
      exact Or.inl (List.getElem?_set_self hlen)
    · rw [Function.update_of_ne (hne b' g hold)]
      by_cases hb' : b' = b
      · subst hb'
        rcases hR.placed b' g hold with hact | hrest
        · exact absurd hact (hnone g)
        · exact Or.inr hrest
      · rw [hactive b' g hb']
        exact hR.placed b' g hold

theorem Rep.logNone (hR : Rep h others free parts) (b : ℕ) :
    Rep { h with refills := (b, none) :: h.refills } others free parts :=
  ⟨hR.hhdm_eq, hR.active_len, hR.partials_len, hR.holds, hR.bucket_lt, hR.slab, hR.active_mem,
    hR.chain, hR.part_mem, hR.placed⟩

/-- What `alloc_small` does: it takes the first free object of a slab that has one; if
the bucket has no free object at all, it takes one of a new slab, or fails. -/
inductive SmallPost (h : Heap) (others : List (ℕ × ℕ)) (free : ℕ → List ℕ) (b p : ℕ) (h' : Heap) :
    Prop
  | pop (f j : ℕ) (js : List ℕ) (parts' : ℕ → List ℕ) :
      (b, f) ∈ created h.refills → free f = j :: js → p = objPtr h.hhdmOffset b f j →
      h'.refills = h.refills → Rep h' others (Function.update free f js) parts' →
      SmallPost h others free b p h'
  | fresh (f : ℕ) (parts' : ℕ → List ℕ) :
      (∀ g, (b, g) ∈ created h.refills → free g = []) → f ∈ freeSet h.phys →
      p = objPtr h.hhdmOffset b f 1 → h'.refills = (b, some f) :: h.refills →
      Rep h' others (Function.update free f (List.range' 2 (slots b - 2))) parts' →
      SmallPost h others free b p h'
  | fail (parts' : ℕ → List ℕ) :
      (∀ g, (b, g) ∈ created h.refills → free g = []) → freeSet h.phys = ∅ → p = 0 →
      h'.refills = (b, none) :: h.refills → Rep h' others free parts' →
      SmallPost h others free b p h'

/-- The frames that are free or slabs. -/
def stock (h : Heap) : Set ℕ := {f | f ∈ freeSet h.phys ∨ ∃ b, (b, f) ∈ created h.refills}

/-- From `h` to `h'` no frame is lost, and only frames that were free and headers of slabs are
written to. -/
structure HeadersOnly (h h' : Heap) : Prop where
  total : h'.phys.pmm.totalFrames = h.phys.pmm.totalFrames
  stock_eq : h'.stock = h.stock
  mem : ∀ g i, h'.phys.mem g i ≠ h.phys.mem g i →
    g ∈ freeSet h.phys ∨ ∃ b, (b, g) ∈ created h.refills ∧ i < 2

theorem HeadersOnly.refl (h : Heap) : HeadersOnly h h :=
  ⟨rfl, rfl, fun _ _ hne => absurd rfl hne⟩

/-- One word of a header is written. -/
theorem HeadersOnly.set {h h₁ h' : Heap} {f i : ℕ} {w : Word} (hH : HeadersOnly h h₁)
    (hf : f ∈ h.stock) (hi : i < 2) (hpmm : h'.phys.pmm = h₁.phys.pmm)
    (hlog : h'.refills = h₁.refills) (hmem : h'.phys.mem = h₁.phys.mem.set f i w) :
    HeadersOnly h h' := by
  have hfree : freeSet h'.phys = freeSet h₁.phys := by
    unfold freeSet
    rw [hpmm]
  refine ⟨by rw [hpmm, hH.total], ?_, ?_⟩
  · rw [← hH.stock_eq]
    unfold stock
    rw [hfree, hlog]
  · intro g k hne
    rw [hmem, Mem.set_apply] at hne
    by_cases hcell : g = f ∧ k = i
    · rcases hcell with ⟨rfl, rfl⟩
      exact hf.imp_right fun ⟨b, hb⟩ => ⟨b, hb, hi⟩
    · rw [if_neg hcell] at hne
      exact hH.mem g k hne

/-- The end of `alloc_small`: the slab is made active and its first object is taken. -/
theorem takeFirst_spec {h₁ h₂ : Heap} (hR : Rep h₂ others free parts)
    (hset : (setActive b (some (blockPtr h₂.hhdmOffset f))).run h₁ = .ok () h₂)
    (hf : (b, f) ∈ created h₂.refills) (hact : IsActive h₂ b f) (hfree : free f = j :: js) :
    ∃ h', (do
        setActive b (some (blockPtr h₂.hhdmOffset f))
        let free ← readFree (blockPtr h₂.hhdmOffset f)
        let obj ← unwrapUnchecked free
        popObj (blockPtr h₂.hhdmOffset f) obj : Run Heap ℕ).run h₁ =
          .ok (objPtr h₂.hhdmOffset b f j) h' ∧
      h'.refills = h₂.refills ∧ h'.hhdmOffset = h₂.hhdmOffset ∧ h'.phys.pmm = h₂.phys.pmm ∧
      (∃ w, h'.phys.mem = h₂.phys.mem.set f 1 w) ∧
      Rep h' others (Function.update free f js) parts := by
  have hlist := (hR.slab b f hf).chain
  rw [hfree] at hlist
  have hhead : wordPtr (h₂.phys.mem f 1) = some (objPtr h₂.hhdmOffset b f j) := hlist.1
  rcases popObj_spec hR hf hact hfree with ⟨h', hrun, hpost⟩
  refine ⟨h', ?_, hpost⟩
  refine (Prog.bind_of_ok hset).trans ?_
  refine (Prog.bind_of_ok (readFree_block rfl f)).trans ?_
  rw [hhead]
  exact hrun

theorem refill_none (hb : b < numBuckets)
    (halloc : (allocPages 0).run h.phys = .ok none h.phys) :
    (refill b).run h = .ok none { h with refills := (b, none) :: h.refills } := by
  unfold refill
  rw [Prog.bind_of_ok (index_of_eq (objSizes_getElem? hb) h), Prog.bind_of_ok (onPmm_of_ok halloc)]
  rfl

/-- `refill` with a frame: the new slab, made active, has all its objects free. -/
theorem refill_some (hR : Rep h others free parts) (hb : b < numBuckets)
    (hnone : ∀ g, ¬ IsActive h b g) {s' : Phys}
    (halloc : (allocPages 0).run h.phys = .ok (some (f * frameSize)) s')
    (htook : Took h.phys s' 0 f) :
    ∃ h₁ h₂, (refill b).run h = .ok (some (blockPtr h.hhdmOffset f)) h₁ ∧
      (setActive b (some (blockPtr h.hhdmOffset f))).run h₁ = .ok () h₂ ∧
      h₂.refills = (b, some f) :: h.refills ∧ h₂.hhdmOffset = h.hhdmOffset ∧
      HeadersOnly h h₂ ∧ IsActive h₂ b f ∧
      Rep h₂ others (Function.update free f (List.range' 1 (slots b - 1))) parts := by
  have hD : DirectMap s' := hR.holds.direct.congr htook.total htook.hhdm
  have hh : h.hhdmOffset = s'.pmm.hhdmOffset := hR.hhdm_eq.trans htook.hhdm.symm
  have hlt : f < s'.pmm.totalFrames := (htook.returnable hR.holds.inv (Nat.zero_le _)).in_range
  have hlen : b < h.active.length := by
    rw [hR.active_len]
    exact hb
  have hslab := makeSlab_spec (h := ⟨s', h.hhdmOffset, h.active, h.partials,
    (b, some f) :: h.refills⟩) hD hh hb hlt
  rcases hslab with ⟨m', hrun, hlist, hmem⟩
  refine ⟨withMem ⟨s', h.hhdmOffset, h.active, h.partials, (b, some f) :: h.refills⟩ m', _, ?_,
    setActive_of_lt (by exact hlen) _, rfl, rfl, ?_, List.getElem?_set_self hlen,
    hR.addSlab hb hnone htook hlist hmem⟩
  · have hdiv : f * frameSize / frameSize = f := Nat.mul_div_cancel f (by decide)
    unfold refill
    rw [Prog.bind_of_ok (index_of_eq (objSizes_getElem? hb) h),
      Prog.bind_of_ok (onPmm_of_ok halloc), Prog.update_bind]
    simp only [Option.map_some, hdiv]
    refine (Prog.bind_of_ok hrun).trans ?_
    rfl
  · have hfree := htook.subset (Dyadic.self_mem_block 0 f)
    refine ⟨htook.total, ?_, ?_⟩
    · ext g
      change (g ∈ freeSet s' ∨ ∃ b', (b', g) ∈ (b, f) :: created h.refills) ↔ _
      rw [htook.free_eq, Dyadic.block_zero]
      constructor
      · rintro (hg | ⟨b', hg⟩)
        · exact Or.inl hg.1
        · rcases List.mem_cons.1 hg with heq | hg
          · cases heq
            exact Or.inl hfree
          · exact Or.inr ⟨b', hg⟩
      · rintro (hg | ⟨b', hg⟩)
        · by_cases hgf : g = f
          · exact Or.inr ⟨b, hgf ▸ List.mem_cons_self⟩
          · exact Or.inl ⟨hg, hgf⟩
        · exact Or.inr ⟨b', List.mem_cons_of_mem _ hg⟩
    · -- what is written was free
      intro g i hne
      left
      by_contra hg
      have hgf : g ≠ f := fun heq => hg (heq ▸ hfree)
      refine hne ?_
      change m' g i = _
      rw [hmem g hgf]
      exact congrFun (htook.mem_eq g hg) i

/-- `alloc_small` when the active slab, if there is one, is full. -/
theorem allocSlow_spec (hR : Rep h others free parts) (hb : b < numBuckets)
    (hfull : ∀ f, IsActive h b f → free f = []) :
    ∃ p h', (allocSlow b).run h = .ok p h' ∧ h'.hhdmOffset = h.hhdmOffset ∧
      SmallPost h others free b p h' ∧ HeadersOnly h h' := by
  have hlen : b < h.active.length := by
    rw [hR.active_len]
    exact hb
  have hR₀ := hR.clearActive hfull
  have hnone : ∀ g, ¬ IsActive { h with active := h.active.set b none } b g := by
    intro g hg
    unfold IsActive at hg
    rw [List.getElem?_set_self hlen] at hg
    simp at hg
  unfold allocSlow
  rw [Prog.bind_of_ok (setActive_of_lt hlen none)]
  cases hparts : parts b with
  | cons f fs =>
      -- a partial slab has a free object
      have hmem : f ∈ parts b := by
        rw [hparts]
        exact List.mem_cons_self
      rcases hR.part_mem b f hmem with ⟨hf, hfree, -⟩
      rcases List.exists_cons_of_ne_nil hfree with ⟨j, js, hjs⟩
      rcases takePartial_some hR₀ hparts hnone with
        ⟨h₁, h₂, htake, hset, hlog, hhdm, hpmm, ⟨w₂, hmem₂⟩, hact, hR₂⟩
      rw [← hhdm] at hset
      have hf₂ : (b, f) ∈ created h₂.refills := by
        rw [hlog]
        exact hf
      rcases takeFirst_spec hR₂ hset hf₂ hact hjs with
        ⟨h', hrun, hlog', hhdm', hpmm', ⟨w', hmem'⟩, hR'⟩
      have hslab : f ∈ h.stock := Or.inr ⟨b, hf⟩
      have hheaders : HeadersOnly h h₂ :=
        (HeadersOnly.refl h).set hslab (by omega) hpmm hlog hmem₂
      refine ⟨objPtr h₂.hhdmOffset b f j, h', ?_, hhdm'.trans hhdm,
        SmallPost.pop f j js _ hf hjs ?_ ?_ hR', hheaders.set hslab (by omega) hpmm' hlog' hmem'⟩
      · have hnext : (nextSlab b).run { h with active := h.active.set b none } =
            .ok (some (blockPtr h₂.hhdmOffset f)) h₁ := by
          unfold nextSlab
          rw [Prog.bind_of_ok htake, hhdm]
          rfl
        rw [Prog.bind_of_ok hnext]
        exact hrun
      · rw [hhdm]
      · rw [hlog', hlog]
  | nil =>
      -- no slab of the bucket has a free object
      have hall : ∀ g, (b, g) ∈ created h.refills → free g = [] := by
        intro g hg
        rcases hR₀.placed b g hg with hact | hpart | hfree
        · exact absurd hact (hnone g)
        · rw [hparts] at hpart
          exact absurd hpart List.not_mem_nil
        · exact hfree
      have hnext : (nextSlab b).run { h with active := h.active.set b none } =
          (refill b).run { h with active := h.active.set b none } := by
        unfold nextSlab
        rw [Prog.bind_of_ok (takePartial_none hR₀ hb hparts)]
      rcases hR.holds.allocPages_ends (Nat.zero_le maxOrder) with ⟨r, s', halloc, hpost⟩
      cases r with
      | none =>
          have hempty : freeSet h.phys = ∅ := AllocPost.freeSet_eq_empty hpost
          rcases hpost with ⟨rfl, -⟩
          have hrefill := refill_none (h := { h with active := h.active.set b none }) hb halloc
          rw [← hnext] at hrefill
          refine ⟨0, ⟨h.phys, h.hhdmOffset, h.active.set b none, h.partials,
            (b, none) :: h.refills⟩, ?_, rfl,
            SmallPost.fail parts hall hempty rfl rfl (hR₀.logNone b),
            rfl, rfl, (HeadersOnly.refl h).mem⟩
          rw [Prog.bind_of_ok hrefill]
          rfl
      | some addr =>
          rcases hpost with ⟨f, rfl, htook⟩
          rcases refill_some hR₀ hb hnone halloc htook with
            ⟨h₁, h₂, hrefill, hset, hlog, hhdm, hheaders, hact, hR₂⟩
          have hfirst : Function.update free f (List.range' 1 (slots b - 1)) f =
              1 :: List.range' 2 (slots b - 2) := by
            have hslots := two_le_slots hb
            rw [Function.update_self, show slots b - 1 = slots b - 2 + 1 by omega,
              List.range'_succ]
          have hf₂ : (b, f) ∈ created h₂.refills := by
            rw [hlog]
            exact List.mem_cons_self
          rw [← hhdm] at hset
          have hfound : (nextSlab b).run { h with active := h.active.set b none } =
              .ok (some (blockPtr h₂.hhdmOffset f)) h₁ := by
            rw [hnext, hhdm]
            exact hrefill
          rcases takeFirst_spec hR₂ hset hf₂ hact hfirst with
            ⟨h', hrun, hlog', hhdm', hpmm', ⟨w', hmem'⟩, hR'⟩
          rw [Function.update_idem] at hR'
          have hfree : f ∈ freeSet h.phys := htook.subset (Dyadic.self_mem_block 0 f)
          have hheaders' : HeadersOnly h h₂ := ⟨hheaders.total, hheaders.stock_eq, hheaders.mem⟩
          refine ⟨objPtr h₂.hhdmOffset b f 1, h', ?_, hhdm'.trans hhdm,
            SmallPost.fresh f _ hall hfree ?_ ?_ hR',
            hheaders'.set (Or.inl hfree) (by omega) hpmm' hlog' hmem'⟩
          · rw [Prog.bind_of_ok hfound]
            exact hrun
          · rw [hhdm]
          · rw [hlog', hlog]

/-- `alloc_small`: it returns, and takes an object as described. -/
theorem allocSmall_spec (hR : Rep h others free parts) (hb : b < numBuckets) :
    ∃ p h', (allocSmall b).run h = .ok p h' ∧ h'.hhdmOffset = h.hhdmOffset ∧
      SmallPost h others free b p h' ∧ HeadersOnly h h' := by
  have hlen : b < h.active.length := by
    rw [hR.active_len]
    exact hb
  have hget := List.getElem?_eq_getElem hlen
  unfold allocSmall
  rw [Prog.gets_bind, Prog.bind_of_ok (index_of_eq hget h)]
  cases hact : h.active[b] with
  | none =>
      refine allocSlow_spec hR hb ?_
      intro f hf
      unfold IsActive at hf
      rw [hget, hact] at hf
      cases hf
  | some p =>
      rw [hact] at hget
      rcases hR.active_mem b p hget with ⟨f, rfl, hf⟩
      have hlist := (hR.slab b f hf).chain
      dsimp only
      rw [Prog.bind_of_ok (readFree_block rfl f)]
      cases hfree : free f with
      | nil =>
          rw [hfree] at hlist
          have hhead : wordPtr (h.phys.mem f 1) = none := hlist
          rw [hhead]
          refine allocSlow_spec hR hb ?_
          intro g hg
          unfold IsActive at hg
          rw [hget, Option.some.injEq, Option.some.injEq] at hg
          rw [← blockPtr_inj hg]
          exact hfree
      | cons j js =>
          rw [hfree] at hlist
          have hhead : wordPtr (h.phys.mem f 1) = some (objPtr h.hhdmOffset b f j) := hlist.1
          rw [hhead]
          rcases popObj_spec hR hf hget hfree with ⟨h', hrun, hlog, hhdm, hpmm, ⟨w, hmem⟩, hR'⟩
          exact ⟨_, h', hrun, hhdm, SmallPost.pop f j js parts hf hfree rfl hlog hR',
            (HeadersOnly.refl h).set (Or.inr ⟨b, hf⟩) (by omega) hpmm hlog hmem⟩

/-! ## Giving an object back -/

/-- The memory after an object was linked in front of the free list of its slab. -/
def pushObjMem (m : Mem) (hhdm b f j : ℕ) : Mem :=
  (m.set f (j * objSize b / 8) (ptrWord (wordPtr (m f 1)))).set f 1
    (ptrWord (some (objPtr hhdm b f j)))

theorem pushObjMem_frame_ne (m : Mem) (hhdm b f j : ℕ) {g : ℕ} (hg : g ≠ f) :
    pushObjMem m hhdm b f j g = m g := by
  unfold pushObjMem
  rw [Mem.set_frame_ne _ _ _ hg, Mem.set_frame_ne _ _ _ hg]

theorem pushObjMem_link (m : Mem) (hhdm : ℕ) {b f j : ℕ} (hj : 1 ≤ j) :
    pushObjMem m hhdm b f j f 0 = m f 0 := by
  have hword := two_le_objWord (b := b) hj
  unfold pushObjMem
  rw [Mem.set_apply, if_neg (by omega), Mem.set_apply, if_neg (by omega)]

/-- The words that are written: the object's and the head of the list. -/
theorem pushObjMem_ne (m : Mem) (hhdm b f j : ℕ) (g i : ℕ)
    (hne : pushObjMem m hhdm b f j g i ≠ m g i) : g = f ∧ (i < 2 ∨ i = j * objSize b / 8) := by
  unfold pushObjMem at hne
  rw [Mem.set_apply, Mem.set_apply] at hne
  by_cases hhead : g = f ∧ i = 1
  · exact ⟨hhead.1, Or.inl (by omega)⟩
  · rw [if_neg hhead] at hne
    by_cases hobj : g = f ∧ i = j * objSize b / 8
    · exact ⟨hobj.1, Or.inr hobj.2⟩
    · rw [if_neg hobj] at hne
      exact absurd rfl hne

/-- The slab keeps its place when it is active or partial already. -/
theorem Rep.pushObj (hR : Rep h others free parts) (hf : (b, f) ∈ created h.refills)
    (hj : 1 ≤ j ∧ j < slots b) (hnew : j ∉ free f) (hstay : IsActive h b f ∨ f ∈ parts b) :
    Rep (withMem h (pushObjMem h.phys.mem h.hhdmOffset b f j)) others
      (Function.update free f (j :: free f)) parts := by
  have hb := hR.bucket_lt b f hf
  have hok := hR.ptr_ok hf hj.2
  rcases hR.chain b hb with ⟨head, hhead, hchain⟩
  have hlen : b < h.active.length := by
    rw [hR.active_len]
    exact hb
  have hget := List.getElem?_eq_getElem hlen
  have hE : Edited h (withMem h (pushObjMem h.phys.mem h.hhdmOffset b f j)) b f h.active[b] head :=
    ⟨rfl, rfl, rfl, fun g hg => pushObjMem_frame_ne _ _ _ _ _ hg, rfl, hget, fun _ _ => rfl, rfl,
      hhead, fun _ _ => rfl⟩
  have hactive : ∀ g, IsActive h b g ↔ h.active[b] = some (blockPtr h.hhdmOffset g) := by
    intro g
    unfold IsActive
    rw [hget, Option.some.injEq]
  have hupd : ∀ g, free g ≠ [] → Function.update free f (j :: free f) g ≠ [] := by
    intro g hg
    by_cases hgf : g = f
    · rw [hgf, Function.update_self]
      exact List.cons_ne_nil _ _
    · rw [Function.update_of_ne hgf]
      exact hg
  have hparts : Function.update parts b (parts b) = parts := Function.update_eq_self b parts
  rw [← hparts]
  refine hR.edit hf hE ((hR.slab b f hf).push hb hj hnew hok.1 hok.2) ?_ ?_ ?_ ?_
  · refine ChainTo.congr hchain ?_
    intro p hp
    rcases List.mem_map.1 hp with ⟨g, hg, rfl⟩
    simp only [linkAt, ptrFrame_blockPtr, ptrIndex_blockPtr]
    by_cases hgf : g = f
    · rw [hgf]
      exact congrArg wordPtr (pushObjMem_link _ _ hj.1)
    · exact congrArg wordPtr (congrFun (pushObjMem_frame_ne _ _ _ _ _ hgf) 0)
  · intro p hp
    exact hR.active_mem b p (by rw [hget, hp])
  · intro g hg
    rcases hR.part_mem b g hg with ⟨hcr, hne, hna⟩
    rw [hactive] at hna
    exact ⟨hcr, hupd g hne, hna⟩
  · intro g hg
    by_cases hgf : g = f
    · rw [hgf, ← hactive]
      rcases hstay with hstay | hstay
      · exact Or.inl hstay
      · exact Or.inr (Or.inl hstay)
    · rw [← hactive, Function.update_of_ne hgf]
      exact hR.placed b g hg

/-- A full slab that was detached becomes a partial one. -/
theorem Rep.pushObj_partial (hR : Rep h others free parts) (hf : (b, f) ∈ created h.refills)
    (hj : 1 ≤ j ∧ j < slots b) (hfull : free f = []) (hna : ¬ IsActive h b f) {head : Option ℕ}
    (hhead : h.partials[b]? = some head) :
    Rep { withMem h ((pushObjMem h.phys.mem h.hhdmOffset b f j).set f 0 (ptrWord head)) with
        partials := h.partials.set b (some (blockPtr h.hhdmOffset f)) } others
      (Function.update free f (j :: free f)) (Function.update parts b (f :: parts b)) := by
  have hb := hR.bucket_lt b f hf
  have hok := hR.ptr_ok hf hj.2
  have hplen : b < h.partials.length := by
    rw [hR.partials_len]
    exact hb
  have hlen : b < h.active.length := by
    rw [hR.active_len]
    exact hb
  have hget := List.getElem?_eq_getElem hlen
  have hactive : ∀ g, IsActive h b g ↔ h.active[b] = some (blockPtr h.hhdmOffset g) := by
    intro g
    unfold IsActive
    rw [hget, Option.some.injEq]
  rcases hR.chain b hb with ⟨head', hhead', hchain⟩
  rw [hhead] at hhead'
  rcases Option.some.inj hhead' with rfl
  -- a full slab is in no list, so the links of the listed ones are not touched
  have hnotin : ∀ g ∈ parts b, g ≠ f := by
    rintro g hg rfl
    exact (hR.part_mem b g hg).2.1 hfull
  have hheadword : wordPtr (ptrWord head) = head := by
    have hmap : head = (parts b).head?.map (blockPtr h.hhdmOffset) := by
      rw [← hchain.head?_eq, List.head?_map]
    rw [hmap]
    refine wordPtr_ptrWord_map ?_
    intro g hg
    exact hR.base_ok (hR.part_mem b g (List.mem_of_mem_head? hg)).1
  have hE : Edited h { withMem h ((pushObjMem h.phys.mem h.hhdmOffset b f j).set f 0
      (ptrWord head)) with partials := h.partials.set b (some (blockPtr h.hhdmOffset f)) } b f
      h.active[b] (some (blockPtr h.hhdmOffset f)) :=
    ⟨rfl, rfl, rfl, fun g hg => (Mem.set_frame_ne _ _ _ hg).trans
      (pushObjMem_frame_ne _ _ _ _ _ hg), rfl, hget, fun _ _ => rfl, List.length_set,
      List.getElem?_set_self hplen, fun b' hb' => List.getElem?_set_ne (Ne.symm hb')⟩
  have hnew : j ∉ free f := by
    rw [hfull]
    exact List.not_mem_nil
  have hpush := (hR.slab b f hf).push hb hj hnew hok.1 hok.2
  refine hR.edit hf hE (hpush.congr hb ?_ ?_) ?_ ?_ ?_ ?_
  · change Mem.set _ _ _ _ f 1 = _
    rw [Mem.set_apply, if_neg (by omega)]
    rfl
  · intro i hi
    have hword := two_le_objWord (b := b) (hpush.range i hi).1
    change Mem.set _ _ _ _ f _ = _
    rw [Mem.set_apply, if_neg (by omega)]
    rfl
  · refine ⟨rfl, ?_⟩
    have hlink : linkAt h.hhdmOffset ((pushObjMem h.phys.mem h.hhdmOffset b f j).set f 0
        (ptrWord head)) (blockPtr h.hhdmOffset f) = head := by
      simp only [linkAt, ptrFrame_blockPtr, ptrIndex_blockPtr]
      rw [Mem.set_self, hheadword]
    change ChainTo _ (linkAt h.hhdmOffset ((pushObjMem h.phys.mem h.hhdmOffset b f j).set f 0
        (ptrWord head)) (blockPtr h.hhdmOffset f)) _ _
    rw [hlink]
    refine ChainTo.congr hchain ?_
    intro p hp
    rcases List.mem_map.1 hp with ⟨g, hg, rfl⟩
    simp only [linkAt, ptrFrame_blockPtr, ptrIndex_blockPtr]
    refine congrArg wordPtr (congrFun ?_ 0)
    exact (Mem.set_frame_ne _ _ _ (hnotin g hg)).trans
      (pushObjMem_frame_ne _ _ _ _ _ (hnotin g hg))
  · intro p hp
    exact hR.active_mem b p (by rw [hget, hp])
  · intro g hg
    rcases List.mem_cons.1 hg with rfl | hg
    · rw [Function.update_self, ne_eq, ne_eq, ← hactive]
      exact ⟨hf, List.cons_ne_nil _ _, hna⟩
    · rcases hR.part_mem b g hg with ⟨hcr, hne, hnag⟩
      rw [hactive] at hnag
      rw [Function.update_of_ne (hnotin g hg)]
      exact ⟨hcr, hne, hnag⟩
  · intro g hg
    by_cases hgf : g = f
    · exact Or.inr (Or.inl (hgf ▸ List.mem_cons_self))
    · rw [← hactive, Function.update_of_ne hgf]
      rcases hR.placed b g hg with hact | hpart | hnil
      · exact Or.inl hact
      · exact Or.inr (Or.inl (List.mem_cons_of_mem _ hpart))
      · exact Or.inr (Or.inr hnil)

/-- `dealloc_small` puts the object in front of the free list of its slab. -/
theorem deallocSmall_spec (hR : Rep h others free parts) (hf : (b, f) ∈ created h.refills)
    (hj : 1 ≤ j ∧ j < slots b) (hnew : j ∉ free f) :
    ∃ h' parts', (deallocSmall b (blockPtr h.hhdmOffset f) (objPtr h.hhdmOffset b f j)).run h =
        .ok () h' ∧ h'.refills = h.refills ∧ h'.hhdmOffset = h.hhdmOffset ∧
      h'.phys.pmm = h.phys.pmm ∧
      (∀ g i, h'.phys.mem g i ≠ h.phys.mem g i → g = f ∧ (i < 2 ∨ i = j * objSize b / 8)) ∧
      Rep h' others (Function.update free f (j :: free f)) parts' := by
  have hb := hR.bucket_lt b f hf
  have hok := hR.ptr_ok hf hj.2
  have hbase := hR.base_ok hf
  have hpush := pushObjMem_ne h.phys.mem h.hhdmOffset b f j
  have hlen : b < h.active.length := by
    rw [hR.active_len]
    exact hb
  have hplen : b < h.partials.length := by
    rw [hR.partials_len]
    exact hb
  have hget := List.getElem?_eq_getElem hlen
  have hlist := (hR.slab b f hf).chain
  -- up to the test, whatever the slab's place is
  have hrun : (deallocSmall b (blockPtr h.hhdmOffset f) (objPtr h.hhdmOffset b f j)).run h =
      Prog.run (if h.active[b] = some (blockPtr h.hhdmOffset f) then pure ()
        else if wordPtr (h.phys.mem f 1) = none then pushPartial b (blockPtr h.hhdmOffset f)
        else pure ()) (withMem h (pushObjMem h.phys.mem h.hhdmOffset b f j)) := by
    unfold deallocSmall
    refine (Prog.bind_of_ok (readFree_block rfl f)).trans ?_
    refine (Prog.bind_of_ok (writeNext_obj rfl hb hj.2 f _)).trans ?_
    refine (Prog.bind_of_ok (newUnchecked_of_ne hok.1 _)).trans ?_
    refine (Prog.bind_of_ok (writeFree_block (by rfl) f _)).trans ?_
    rw [Prog.gets_bind]
    exact Prog.bind_of_ok (index_of_eq hget _)
  rw [hrun]
  by_cases hact : h.active[b] = some (blockPtr h.hhdmOffset f)
  · rw [if_pos hact]
    refine ⟨_, parts, rfl, rfl, rfl, rfl, hpush, hR.pushObj hf hj hnew (Or.inl ?_)⟩
    unfold IsActive
    rw [hget, hact]
  rw [if_neg hact]
  have hna : ¬ IsActive h b f := by
    unfold IsActive
    rw [hget, Option.some.injEq]
    exact hact
  cases hfree : free f with
  | nil =>
      rw [hfree] at hlist
      have hhead : wordPtr (h.phys.mem f 1) = none := hlist
      rw [if_pos hhead]
      have hpget := List.getElem?_eq_getElem hplen
      rw [← hfree]
      refine ⟨_, _, ?_, ?_, ?_, ?_, ?_, hR.pushObj_partial hf hj hfree hna hpget⟩
      · unfold pushPartial
        rw [Prog.gets_bind]
        refine (Prog.bind_of_ok (index_of_eq (by exact hpget) _)).trans ?_
        refine (Prog.bind_of_ok (writeSlabNext_block (by rfl) f _)).trans ?_
        refine (Prog.bind_of_ok (newUnchecked_of_ne hbase.1 _)).trans ?_
        exact setPartial_of_lt (by exact hplen) _
      · rfl
      · rfl
      · rfl
      · intro g i hne
        change Mem.set _ _ _ _ g i ≠ _ at hne
        rw [Mem.set_apply] at hne
        by_cases hcell : g = f ∧ i = 0
        · exact ⟨hcell.1, Or.inl (by omega)⟩
        · rw [if_neg hcell] at hne
          exact hpush g i hne
  | cons i is =>
      rw [hfree] at hlist
      have hhead : wordPtr (h.phys.mem f 1) = some (objPtr h.hhdmOffset b f i) := hlist.1
      have hstay : IsActive h b f ∨ f ∈ parts b := by
        rcases hR.placed b f hf with hact' | hpart | hnil
        · exact Or.inl hact'
        · exact Or.inr hpart
        · rw [hfree] at hnil
          cases hnil
      rw [if_neg (by rw [hhead]; exact Option.some_ne_none _), ← hfree]
      exact ⟨_, parts, rfl, rfl, rfl, rfl, hpush, hR.pushObj hf hj hnew hstay⟩

/-! ## Large requests -/

/-- A call of the allocator by somebody else, or for a large request. -/
theorem Rep.took (hR : Rep h others free parts) {order : ℕ} {s' : Phys} (ho : order ≤ maxOrder)
    (htook : Took h.phys s' order f) :
    Rep { h with phys := s' } ((f * frameSize, order) :: others) free parts := by
  have hsame : ∀ b g, (b, g) ∈ created h.refills → s'.mem g = h.phys.mem g :=
    fun b g hg => htook.mem_eq g (hR.notFree hg)
  refine hR.withPhys ((hR.holds.took ho htook).perm List.perm_middle.symm) htook.hhdm ?_ ?_
  · intro b g hg
    rw [hsame b g hg]
    exact ⟨rfl, rfl⟩
  · intro b g hg i _
    rw [hsame b g hg]

theorem Rep.gave {c : ℕ × ℕ} (hR : Rep h (c :: others) free parts) {s' : Phys}
    (hf : c.1 = f * frameSize) (hgrew : Grew h.phys s' (Dyadic.block c.2 f)) :
    Rep { h with phys := s' } others free parts := by
  have hH : Holds s' (slabBlocks h.refills ++ others) :=
    (hR.holds.perm List.perm_middle).gave hf hgrew
  have hsame : ∀ b g, (b, g) ∈ created h.refills → s'.mem g = h.phys.mem g := by
    intro b g hg
    exact hgrew.mem_eq g (hH.notMem_freeSet (mem_blocks hg) (mem_frames_self g))
  refine hR.withPhys hH hgrew.hhdm ?_ ?_
  · intro b g hg
    rw [hsame b g hg]
    exact ⟨rfl, rfl⟩
  · intro b g hg i _
    rw [hsame b g hg]

/-- `alloc_large`: a block of frames for the request, or null and nothing changed. -/
theorem allocLarge_spec (hR : Rep h others free parts) (layout : Layout) :
    ∃ p h', (allocLarge layout).run h = .ok p h' ∧ h'.hhdmOffset = h.hhdmOffset ∧
      h'.refills = h.refills ∧
      ((p = 0 ∧ h' = h ∧ ∀ o, orderForLarge layout = some o →
          ∀ f, 2 ^ o ∣ f → ¬ Dyadic.block o f ⊆ freeSet h.phys) ∨
        ∃ f o, orderForLarge layout = some o ∧ p = blockPtr h.hhdmOffset f ∧
          Took h.phys h'.phys o f ∧ Rep h' ((f * frameSize, o) :: others) free parts) := by
  unfold allocLarge
  cases ho : orderForLarge layout with
  | none =>
      refine ⟨0, h, rfl, rfl, rfl, Or.inl ⟨rfl, rfl, ?_⟩⟩
      intro o' ho'
      cases ho'
  | some o =>
      have hle := (orderForLarge_spec ho).1
      rcases hR.holds.allocPages_ends hle with ⟨r, s', halloc, hpost⟩
      dsimp only
      rw [Prog.bind_of_ok (onPmm_of_ok halloc)]
      cases r with
      | none =>
          rcases hpost with ⟨rfl, hno⟩
          refine ⟨0, h, rfl, rfl, rfl, Or.inl ⟨rfl, rfl, ?_⟩⟩
          intro o' ho'
          cases ho'
          exact hno
      | some addr =>
          rcases hpost with ⟨f, rfl, htook⟩
          have hD : DirectMap s' := hR.holds.direct.congr htook.total htook.hhdm
          have hend := (htook.returnable hR.holds.inv hle).in_range
          have hpos := Nat.two_pow_pos o
          have hptr := hD.ptrsOk f (by omega)
          rw [htook.hhdm, ← hR.hhdm_eq] at hptr
          exact ⟨_, _, physToVirt_frame (by exact hptr), rfl, rfl,
            Or.inr ⟨f, o, rfl, rfl, htook, hR.took hle htook⟩⟩

/-- `dealloc_large` on a block that is out. -/
theorem deallocLarge_spec {layout : Layout} {o : ℕ} (ho : orderForLarge layout = some o)
    (hR : Rep h ((f * frameSize, o) :: others) free parts) :
    ∃ h', (deallocLarge (blockPtr h.hhdmOffset f) layout).run h = .ok () h' ∧
      h'.hhdmOffset = h.hhdmOffset ∧ h'.refills = h.refills ∧
      Grew h.phys h'.phys (Dyadic.block o f) ∧ Rep h' others free parts := by
  have hin : (f * frameSize, o) ∈ slabBlocks h.refills ++ (f * frameSize, o) :: others :=
    List.mem_append_right _ List.mem_cons_self
  rcases hR.holds.freePages_ends hin with ⟨g, s', hg, hrun, hgrew⟩
  have hphys : (virtToPhys (blockPtr h.hhdmOffset f)).run h = .ok (f * frameSize) h := by
    unfold virtToPhys
    rw [Prog.gets_bind, subU64_of_le (le_blockPtr _ f)]
    unfold blockPtr
    rw [Nat.add_sub_cancel]
    rfl
  have hgf : g = f := by
    unfold frameSize at hg
    dsimp only at hg
    omega
  refine ⟨_, ?_, ?_, ?_, hgf ▸ hgrew, hR.gave hg hgrew⟩
  · unfold deallocLarge
    rw [ho]
    dsimp only
    rw [Prog.bind_of_ok hphys]
    exact onPmm_of_ok hrun
  · rfl
  · rfl

end Prometheos.Heap
