import Prometheos.Pmm.Spec

/-!
# Runs of the physical memory manager

`Reachable s`: the state `s` is reached from `Pmm::new` by calls of `alloc_pages`,
`free_pages` and `add_range` that return, with arbitrary arguments, and by writes of
the allocator's clients to memory that is not free. Every such state satisfies the
allocator's invariant (`Reachable.inv`); what the invariant says of the lists, of the
order bytes and of the counter is spelled out in the theorems after it. The clients, with the
frames that were seeded and the blocks that are out, come in `Pmm.Ownership`.
-/

namespace Prometheos.Pmm

open Dyadic Linked

/-! ## The transitions -/

/-- One transition of the allocator and its clients. -/
inductive Step (s : Phys) : Phys → Prop
  | alloc (order : ℕ) {r : Option ℕ} {s' : Phys} :
      (allocPages order).run s = .ok r s' → Step s s'
  | free (addr order : ℕ) {s' : Phys} :
      addr < 2 ^ 64 → (freePages addr order).run s = .ok () s' → Step s s'
  | addRange (start count : ℕ) {s' : Phys} :
      (addRange start count).run s = .ok () s' → Step s s'
  -- a client writes to frames that are not free
  | write {m : Mem} : (∀ f ∈ freeSet s, m f = s.mem f) → Step s { s with mem := m }

/-- The state that `Pmm::new` returns. -/
def Fresh (s : Phys) : Prop :=
  ∃ frameOrder totalFrames hhdmOffset m, totalFrames < 2 ^ 64 ∧
    (new frameOrder totalFrames hhdmOffset).run m = .ok s m

/-- The states of all runs from `Pmm::new`. -/
def Reachable (s : Phys) : Prop := ∃ s₀, Fresh s₀ ∧ Relation.ReflTransGen Step s₀ s

/-! ## The invariant -/

theorem Fresh.fields {s : Phys} (h : Fresh s) :
    s.pmm.freeLists = List.replicate numOrders none ∧
      s.pmm.frameOrder = List.replicate s.pmm.totalFrames orderNone ∧
      s.pmm.freeFrames = 0 ∧ s.pmm.totalFrames < 2 ^ 64 := by
  rcases h with ⟨fo, total, hhdm, m, htotal, hrun⟩
  unfold new at hrun
  rcases Prog.bind_ok_iff.1 hrun with ⟨_, t, ht, h₁⟩
  rcases Prog.require_ok_iff.1 ht with ⟨hlen, rfl⟩
  cases h₁
  exact ⟨rfl, by rw [← hlen], rfl, htotal⟩

theorem Fresh.freeSet_eq {s : Phys} (h : Fresh s) : freeSet s = ∅ := by
  rcases h.fields with ⟨-, horder, -, -⟩
  rw [Set.eq_empty_iff_forall_notMem]
  rintro g ⟨o, hg, ho⟩
  rw [horder] at hg
  exact ho (List.eq_of_mem_replicate (List.mem_of_getElem? hg))

/-- `Pmm::new` represents no block at all. -/
theorem Fresh.inv {s : Phys} (h : Fresh s) : Inv s := by
  rcases h.fields with ⟨hlists, horder, hfree, htotal⟩
  have hR : Rep (fun _ => []) s := by
    refine ⟨?_, ?_, ?_, ?_, ?_, ?_, ?_, ?_, ?_⟩
    · rw [hlists, List.length_replicate]
    · rw [horder, List.length_replicate]
    · intro o ho
      refine ⟨none, ?_, rfl, trivial⟩
      have hlt : o < numOrders := Nat.lt_succ_of_le ho
      rw [hlists, List.getElem?_replicate_of_lt hlt]
    · simp
    · simp
    · simp
    · simp
    · simp
    · intro g o hg ho
      have hmem : g ∈ freeSet s := ⟨o, hg, ho⟩
      rw [h.freeSet_eq] at hmem
      exact absurd hmem (Set.notMem_empty g)
  refine ⟨htotal, ⟨_, hR, ?_⟩, ?_⟩
  · intro o _ b hb
    exact absurd hb List.not_mem_nil
  · rw [hfree, h.freeSet_eq, Set.ncard_empty]

/-- Writes outside the free frames do not reach the links. -/
theorem Rep.write {L : ℕ → List ℕ} {s : Phys} (hR : Rep L s) {m : Mem}
    (hm : ∀ f ∈ freeSet s, m f = s.mem f) : Rep L { s with mem := m } := by
  refine ⟨hR.lists_len, hR.order_len, ?_, hR.order_le, hR.aligned, hR.in_range, hR.ptr_ok,
    hR.marked, hR.listed⟩
  have hsame : ∀ o, ∀ f ∈ L o, m f = s.mem f := by
    intro o f hf
    apply hm
    rw [hR.freeSet_eq]
    exact block_subset_covered hf (self_mem_block o f)
  intro o ho
  rcases hR.linked o ho with ⟨h, hh, hl⟩
  refine ⟨h, hh, hl.congr ?_ ?_⟩
  · intro y hy
    rcases List.mem_map.1 hy with ⟨f, hf, rfl⟩
    simp [nextOf, hsame o f hf]
  · intro y hy
    rcases List.mem_map.1 hy with ⟨f, hf, rfl⟩
    simp [prevOf, hsame o f hf]

theorem Inv.write {s : Phys} (hI : Inv s) {m : Mem} (hm : ∀ f ∈ freeSet s, m f = s.mem f) :
    Inv { s with mem := m } := by
  rcases hI.rep with ⟨L, hR, hC⟩
  exact ⟨hI.total_lt, ⟨L, hR.write hm, hC⟩, hI.count⟩

/-- An `alloc_pages` that returns was asked for an order in range. -/
theorem allocPages_ok {s s' : Phys} (hI : Inv s) {order : ℕ} {r : Option ℕ}
    (h : (allocPages order).run s = .ok r s') : order ≤ maxOrder ∧ AllocPost s order r s' := by
  have h' := h
  unfold allocPages at h'
  rcases Prog.bind_ok_iff.1 h' with ⟨_, t, ht, -⟩
  rcases Prog.require_ok_iff.1 ht with ⟨hle, -⟩
  exact ⟨hle, (allocPages_spec hI hle).of_ok h⟩

theorem Step.inv {s s' : Phys} (h : Step s s') (hI : Inv s) : Inv s' := by
  cases h with
  | @alloc order r _ hrun =>
      cases r with
      | none =>
          rw [(allocPages_ok hI hrun).2.1]
          exact hI
      | some addr =>
          rcases (allocPages_ok hI hrun).2 with ⟨f, -, htook⟩
          exact htook.inv
  | free addr order haddr hrun =>
      rcases freePages_ok hI haddr hrun with ⟨f, -, -, hgave⟩
      exact hgave.inv
  | addRange start count hrun =>
      refine addRange_induction (P := Inv) ?_ _ _ hI hrun
      intro t t' addr order u haddr ht hfree
      rcases freePages_ok ht haddr hfree with ⟨f, -, -, hgave⟩
      exact hgave.inv
  | write hm => exact hI.write hm

theorem Reachable.inv {s : Phys} (h : Reachable s) : Inv s := by
  rcases h with ⟨s₀, hfresh, hsteps⟩
  refine reach_invariant ?_ hsteps hfresh.inv
  intro t t' hstep hI
  exact hstep.inv hI

/-! ## The representation -/

/-- In every reachable state the lists, the links in memory, the order bytes and the
counter describe the same blocks: for each order the list that starts at
`free_lists[o]` is finite, acyclic and doubly linked; each listed block is aligned, in
range and marked with its order; each marked frame lies in exactly one listed block;
and `free_frames` is the number of frames in the listed blocks. -/
theorem reachable_represents {s : Phys} (h : Reachable s) :
    ∃ L : ℕ → List ℕ,
      (∀ o ≤ maxOrder, (L o).Nodup ∧ ∃ head, s.pmm.freeLists[o]? = some head ∧
        DList (nextOf s) (prevOf s) head ((L o).map (blockPtr s.pmm.hhdmOffset))) ∧
      (∀ o ≤ maxOrder, ∀ f ∈ L o, 2 ^ o ∣ f ∧ f + 2 ^ o ≤ s.pmm.totalFrames ∧
        ∀ g, f ≤ g → g < f + 2 ^ o → s.pmm.frameOrder[g]? = some o) ∧
      (∀ g v, s.pmm.frameOrder[g]? = some v → v ≠ orderNone →
        ∃! b : ℕ × ℕ, b.1 ≤ maxOrder ∧ b.2 ∈ L b.1 ∧ g ∈ block b.1 b.2) ∧
      s.pmm.freeFrames = ∑ o ∈ Finset.range numOrders, (L o).length * 2 ^ o := by
  have hI := h.inv
  rcases hI.rep with ⟨L, hR, -⟩
  refine ⟨L, ?_, ?_, ?_, ?_⟩
  · intro o ho
    exact ⟨hR.nodup o, hR.linked o ho⟩
  · intro o ho f hf
    exact ⟨hR.aligned o f hf, hR.in_range o f hf, fun g h₁ h₂ => hR.marked o f hf g ⟨h₁, h₂⟩⟩
  · intro g v hg hv
    have hcell := hR.listed g v hg hv
    refine ⟨(v, cell v g), ⟨hR.order_le v _ hcell, hcell, mem_block_cell v g⟩, ?_⟩
    rintro ⟨o, f⟩ ⟨-, hf, hgf⟩
    rcases hR.tiling.disjoint o v f hf _ hcell g hgf (mem_block_cell v g) with ⟨rfl, rfl⟩
    rfl
  · rw [hI.count, ← hR.blockSum_eq, blockSum]

/-- Eight frames, none of them free yet. -/
def noneOfEight : Phys := ⟨⟨List.replicate 12 none, List.replicate 8 255, 8, 0, 4096⟩, fun _ _ => 0⟩

/-- The frames 0 to 3 are freed as one block, which is split to allocate frame 0. The frames 5, 7
and 4 are freed, the last of which is merged with frame 5. There are two blocks of order 0 then,
and two of order 1. -/
theorem split_and_merged_run : ∃ s₁, (freePages 0 2).run noneOfEight = .ok () s₁ ∧
    ∃ s₂, (allocPages 0).run s₁ = .ok (some 0) s₂ ∧
    ∃ s₃, (freePages 0x5000 0).run s₂ = .ok () s₃ ∧
    ∃ s₄, (freePages 0x7000 0).run s₃ = .ok () s₄ ∧
    ∃ s, (freePages 0x4000 0).run s₄ = .ok () s ∧
      s.pmm.frameOrder = [255, 0, 1, 1, 1, 1, 255, 0] ∧ s.pmm.freeFrames = 6 ∧
      s.pmm.freeLists[0]? = some (some 0x8000) ∧ Chain (nextOf s) (some 0x8000) [0x8000, 0x2000] ∧
      s.pmm.freeLists[1]? = some (some 0x5000) ∧ Chain (nextOf s) (some 0x5000) [0x5000, 0x3000] :=
  ⟨_, rfl, _, rfl, _, rfl, _, rfl, _, rfl, rfl, rfl, rfl, ⟨rfl, rfl, rfl⟩, rfl, rfl, rfl, rfl⟩

/-- In that state, both lists are doubly linked, and lead to the blocks that are marked. -/
theorem reachable_represents_split_and_merged : ∃ s, Reachable s ∧
    s.pmm.frameOrder = [255, 0, 1, 1, 1, 1, 255, 0] ∧
    (∃ head, s.pmm.freeLists[0]? = some head ∧
      DList (nextOf s) (prevOf s) head [0x8000, 0x2000]) ∧
    (∃ head, s.pmm.freeLists[1]? = some head ∧
      DList (nextOf s) (prevOf s) head [0x5000, 0x3000]) ∧
    s.pmm.freeFrames = 6 ∧ ∃ L : ℕ → List ℕ,
      s.pmm.freeFrames = ∑ o ∈ Finset.range numOrders, (L o).length * 2 ^ o := by
  rcases split_and_merged_run with
    ⟨s₁, h₁, s₂, h₂, s₃, h₃, s₄, h₄, s, h, horder, hcount, hhead₀, hchain₀, hhead₁, hchain₁⟩
  have hreach : Reachable s :=
    ⟨noneOfEight, ⟨List.replicate 8 0, 8, 4096, fun _ _ => 0, by decide, rfl⟩,
      ((((Relation.ReflTransGen.single (Step.free 0 2 (by decide) h₁)).tail
        (Step.alloc 0 h₂)).tail (Step.free 0x5000 0 (by decide) h₃)).tail
        (Step.free 0x7000 0 (by decide) h₄)).tail (Step.free 0x4000 0 (by decide) h)⟩
  rcases reachable_represents hreach with ⟨L, hlists, -, -, hsum⟩
  -- the list that starts at a head is the one the links run through
  have hlist : ∀ o ≤ maxOrder, ∀ {head : Option ℕ} {l : List ℕ},
      s.pmm.freeLists[o]? = some head → Chain (nextOf s) head l →
      ∃ head, s.pmm.freeLists[o]? = some head ∧ DList (nextOf s) (prevOf s) head l := by
    intro o ho head l hhead hchain
    rcases (hlists o ho).2 with ⟨head', hhead', hdlist⟩
    cases hhead.symm.trans hhead'
    rw [hchain.unique hdlist.chain]
    exact ⟨head, hhead, hdlist⟩
  exact ⟨s, hreach, horder, hlist 0 (by decide) hhead₀ hchain₀, hlist 1 (by decide) hhead₁ hchain₁,
    hcount, L, hsum⟩

/-! ## The normal form -/

/-- The list of order `o` runs through the block that starts at frame `f`. -/
def FreeBlock (s : Phys) (o f : ℕ) : Prop :=
  ∃ head l, s.pmm.freeLists[o]? = some head ∧ Chain (nextOf s) head l ∧
    blockPtr s.pmm.hhdmOffset f ∈ l

theorem Rep.freeBlock_iff {L : ℕ → List ℕ} {s : Phys} (hR : Rep L s) (o f : ℕ) :
    FreeBlock s o f ↔ f ∈ L o := by
  constructor
  · rintro ⟨head, l, hhead, hchain, hf⟩
    have ho : o ≤ maxOrder := by
      have hlt := (List.getElem?_eq_some_iff.1 hhead).1
      rw [hR.lists_len] at hlt
      exact Nat.le_of_lt_succ hlt
    rcases hR.linked o ho with ⟨head', hhead', hl⟩
    rw [hhead] at hhead'
    rcases Option.some.inj hhead' with rfl
    -- a head has one chain only
    rw [hchain.unique hl.chain] at hf
    rcases List.mem_map.1 hf with ⟨g, hg, heq⟩
    rwa [blockPtr_inj heq] at hg
  · intro hf
    rcases hR.linked o (hR.order_le o f hf) with ⟨head, hhead, hl⟩
    exact ⟨head, _, hhead, hl.chain, List.mem_map_of_mem hf⟩

/-- The free blocks are the maximal aligned blocks of free frames. -/
theorem Inv.freeBlock_iff_isMaximal {s : Phys} (hI : Inv s) (o f : ℕ) :
    FreeBlock s o f ↔ IsMaximal maxOrder (freeSet s) o f := by
  rcases hI.rep with ⟨L, hR, hC⟩
  rw [hR.freeBlock_iff, hR.freeSet_eq]
  exact hR.tiling.mem_iff_isMaximal hC o f

/-- The order bytes are a function of the number of frames and of the free set. -/
theorem Inv.frameOrder_eq {s s' : Phys} (hI : Inv s) (hI' : Inv s')
    (htotal : s.pmm.totalFrames = s'.pmm.totalFrames) (hfree : freeSet s = freeSet s') :
    s.pmm.frameOrder = s'.pmm.frameOrder := by
  rcases hI.rep with ⟨L, hR, hC⟩
  rcases hI'.rep with ⟨L', hR', hC'⟩
  apply List.ext_getElem?
  intro g
  rcases Nat.lt_or_ge g s.pmm.totalFrames with hlt | hge
  · by_cases hg : g ∈ freeSet s
    · rcases hg with ⟨o, ho, hne⟩
      have hcell := hR.listed g o ho hne
      -- the block of `g` is maximal, so the other state lists it as well
      have hmax := (hI.freeBlock_iff_isMaximal o _).1 ((hR.freeBlock_iff o _).2 hcell)
      rw [hfree] at hmax
      have hcell' := (hR'.freeBlock_iff o _).1 ((hI'.freeBlock_iff_isMaximal o _).2 hmax)
      rw [ho, hR'.marked o _ hcell' g (mem_block_cell o g)]
    · rw [hR.mark_of_notMem hlt hg]
      rw [hfree] at hg
      rw [htotal] at hlt
      rw [hR'.mark_of_notMem hlt hg]
  · rw [List.getElem?_eq_none (by rw [hR.order_len]; exact hge),
      List.getElem?_eq_none (by rw [hR'.order_len, ← htotal]; exact hge)]

theorem Took.returnable {s s' : Phys} {order frame : ℕ} (hI : Inv s) (ho : order ≤ maxOrder)
    (h : Took s s' order frame) : Returnable s' order frame := by
  rcases hI.rep with ⟨L, hR, -⟩
  refine ⟨ho, h.aligned, ?_, ?_⟩
  · have hpos := Nat.two_pow_pos order
    have hlast := hR.freeSet_lt (h.subset (show frame + 2 ^ order - 1 ∈ block order frame from
      ⟨by omega, by omega⟩))
    rw [h.total]
    omega
  · intro g hg hfree
    rw [h.free_eq] at hfree
    exact hfree.2 hg

/-- The free structure of a reachable state is in normal form: no two buddies below
`MAX_ORDER` are both free, and the free blocks are the maximal aligned blocks of free
frames. So the order bytes and the counter depend on the set of free frames only, and
an allocation that is freed again leaves them as they were. -/
theorem reachable_canonical {s : Phys} (h : Reachable s) :
    (∀ o < maxOrder, ∀ f, FreeBlock s o f → ¬ FreeBlock s o (f ^^^ 2 ^ o)) ∧
    (∀ o f, FreeBlock s o f ↔ IsMaximal maxOrder (freeSet s) o f) ∧
    (∀ s', Reachable s' → s'.pmm.totalFrames = s.pmm.totalFrames → freeSet s' = freeSet s →
      s'.pmm.frameOrder = s.pmm.frameOrder ∧ s'.pmm.freeFrames = s.pmm.freeFrames) ∧
    (∀ order addr t, (allocPages order).run s = .ok (some addr) t →
      (PtrsOk s → ∃ u, (freePages addr order).run t = .ok () u) ∧
      ∀ u, (freePages addr order).run t = .ok () u →
        u.pmm.frameOrder = s.pmm.frameOrder ∧ u.pmm.freeFrames = s.pmm.freeFrames) := by
  have hI := h.inv
  refine ⟨?_, hI.freeBlock_iff_isMaximal, ?_, ?_⟩
  · rcases hI.rep with ⟨L, hR, hC⟩
    intro o ho f hf hb
    rw [hR.freeBlock_iff] at hf hb
    exact hC o ho f hf hb
  · intro s' h' htotal hfree
    refine ⟨h'.inv.frameOrder_eq hI htotal hfree, ?_⟩
    rw [h'.inv.count, hI.count, hfree]
  · intro order addr t halloc
    rcases allocPages_ok hI halloc with ⟨ho, f, rfl, htook⟩
    have hfree := freePages_spec htook.inv (htook.returnable hI ho) htook.addr_lt
    constructor
    · intro hptrs
      have hptrs' : PtrsOk t := by
        unfold PtrsOk
        rw [htook.total, htook.hhdm]
        exact hptrs
      rcases hfree.exists_ok (not_not_intro hptrs') with ⟨_, u, hu, -⟩
      exact ⟨u, hu⟩
    · intro u hu
      have hgave := hfree.of_ok hu
      have hset : freeSet u = freeSet s := by
        rw [hgave.free_eq, htook.free_eq, Set.sdiff_union_of_subset htook.subset]
      refine ⟨hgave.inv.frameOrder_eq hI (hgave.total.trans htook.total) hset, ?_⟩
      rw [hgave.inv.count, hI.count, hset]

/-- The state after two frees in one order, and the same two in the other. -/
theorem reachable_canonical_two_frames :
    ∃ s s', Reachable s ∧ Reachable s' ∧ s.pmm.frameOrder = [1, 1] ∧
      s'.pmm.frameOrder = s.pmm.frameOrder ∧ FreeBlock s 1 0 := by
  have hfresh : Fresh _ := ⟨[0, 0], 2, 4096, fun _ _ => 0, by decide, rfl⟩
  have hreach : Reachable _ := ⟨_, hfresh, Relation.ReflTransGen.tail
    (Relation.ReflTransGen.single (Step.free 0 0 (by decide) rfl))
    (Step.free 4096 0 (by decide) rfl)⟩
  have hreach' : Reachable _ := ⟨_, hfresh, Relation.ReflTransGen.tail
    (Relation.ReflTransGen.single (Step.free 4096 0 (by decide) rfl))
    (Step.free 0 0 (by decide) rfl)⟩
  refine ⟨_, _, hreach, hreach', rfl, ?_, ?_⟩
  · exact ((reachable_canonical hreach).2.2.1 _ hreach' rfl rfl).1
  · exact ⟨_, [4096], rfl, ⟨rfl, rfl⟩, by decide⟩

/-! ## Completeness -/

/-- Allocation is complete and exact: in every reachable state, a call that returns finds a
block if there is an aligned run of free frames, takes exactly this run, and changes nothing
if there is none. It returns if every frame has its pointer. -/
theorem alloc_complete {s : Phys} (h : Reachable s) {order : ℕ} (ho : order ≤ maxOrder) :
    (PtrsOk s → ∃ r s', (allocPages order).run s = .ok r s') ∧
    ∀ r s', (allocPages order).run s = .ok r s' →
      (r ≠ none ↔ ∃ f, 2 ^ order ∣ f ∧ ∀ g, f ≤ g → g < f + 2 ^ order → g ∈ freeSet s) ∧
      (∀ addr, r = some addr → ∃ f, addr = shlU64 f frameShift ∧ f * frameSize < 2 ^ 64 ∧
        2 ^ order ∣ f ∧ (∀ g, f ≤ g → g < f + 2 ^ order → g ∈ freeSet s) ∧
        freeSet s' = freeSet s \ {g | f ≤ g ∧ g < f + 2 ^ order} ∧
        s'.pmm.freeFrames + 2 ^ order = s.pmm.freeFrames) ∧
      (r = none → s' = s) := by
  have hI := h.inv
  constructor
  · intro hptrs
    rcases (allocPages_spec hI ho).exists_ok (not_not_intro hptrs) with ⟨r, s', hrun, -⟩
    exact ⟨r, s', hrun⟩
  · intro r s' hrun
    rcases allocPages_ok hI hrun with ⟨-, hpost⟩
    cases r with
    | none =>
        rcases hpost with ⟨rfl, hnone⟩
        refine ⟨iff_of_false (fun hne => hne rfl) ?_, ?_, fun _ => rfl⟩
        · rintro ⟨f, hdvd, hsub⟩
          exact hnone f hdvd fun g hg => hsub g hg.1 hg.2
        · intro addr haddr
          cases haddr
    | some addr =>
        rcases hpost with ⟨f, rfl, htook⟩
        have hsub : ∀ g, f ≤ g → g < f + 2 ^ order → g ∈ freeSet s :=
          fun g hle hlt => htook.subset ⟨hle, hlt⟩
        have hlt : f * 2 ^ frameShift < 2 ^ 64 := by
          have hf := htook.addr_lt
          change f * 4096 < 2 ^ 64
          omega
        refine ⟨iff_of_true (Option.some_ne_none _) ⟨f, htook.aligned, hsub⟩, ?_,
          fun hnone => absurd hnone (Option.some_ne_none _)⟩
        intro addr haddr
        cases haddr
        refine ⟨f, (shlU64_of_lt hlt).symm, hlt, htook.aligned, hsub, htook.free_eq, ?_⟩
        -- the counters count the free sets
        rcases hI.rep with ⟨L, hR, -⟩
        have hcard := Set.ncard_sdiff_add_ncard_of_subset htook.subset hR.freeSet_finite
        rw [htook.inv.count, hI.count, htook.free_eq, ← ncard_block order f]
        exact hcard

/-- Two frames are freed as one block, of which frame 0 is allocated. -/
theorem one_of_two_run : ∃ s, (freePages 0 1).run
      ⟨⟨List.replicate 12 none, [255, 255], 2, 0, 4096⟩, fun _ _ => 0⟩ = .ok () s ∧
    s.pmm.frameOrder = [1, 1] ∧
    ∃ s', (allocPages 0).run s = .ok (some 0) s' ∧ s'.pmm.freeFrames = 1 :=
  ⟨_, rfl, rfl, _, rfl, rfl⟩

/-- Of a block of two free frames, an allocation takes the first, and leaves the second. -/
theorem alloc_complete_two_frames : ∃ s s', Reachable s ∧ freeSet s = {0, 1} ∧
    (allocPages 0).run s = .ok (some 0) s' ∧ freeSet s' = {1} ∧ s'.pmm.freeFrames = 1 := by
  rcases one_of_two_run with ⟨s, hrun, horder, s', halloc, hcount⟩
  have hreach : Reachable s :=
    ⟨_, ⟨[0, 0], 2, 4096, fun _ _ => 0, by decide, rfl⟩,
      Relation.ReflTransGen.single (Step.free 0 1 (by decide) hrun)⟩
  have hset : freeSet s = {0, 1} := by
    ext g
    unfold freeSet
    rw [Set.mem_ofPred_eq, horder]
    rcases g with _ | _ | g <;> simp [orderNone]
  rcases (alloc_complete hreach (Nat.zero_le maxOrder)).2 _ _ halloc with ⟨-, hsome, -⟩
  rcases hsome 0 rfl with ⟨f, haddr, hlt, -, -, hfree, -⟩
  -- the address is that of frame 0
  have hf : f = 0 := by
    rw [shlU64_of_lt hlt] at haddr
    unfold frameShift at haddr
    omega
  refine ⟨s, s', hreach, hset, halloc, ?_, hcount⟩
  rw [hfree, hset, hf]
  ext g
  simp only [Set.mem_sdiff, Set.mem_insert_iff, Set.mem_singleton_iff, Set.mem_ofPred_eq]
  omega

/-- The last frame of two has no pointer: its buddy is free, but the block of both cannot
be split. -/
theorem alloc_split_overflow : ∃ s, Reachable s ∧ 0 ∈ freeSet s ∧
    ∃ s', (allocPages 0).run s = .stop (.panic "attempt to add with overflow") s' := by
  have hreach : Reachable _ :=
    ⟨_, ⟨[0, 0], 2, 2 ^ 64 - 4096, fun _ _ => 0, by decide, rfl⟩,
      Relation.ReflTransGen.single (Step.free 0 1 (by decide) rfl)⟩
  exact ⟨_, hreach, ⟨1, rfl, by decide⟩, _, rfl⟩

/-! ## Rejected frees -/

/-- What `free_pages` must reject. -/
def BadFree (s : Phys) (addr order : ℕ) : Prop :=
  maxOrder < order ∨ addr % 4096 ≠ 0 ∨ s.pmm.totalFrames < addr / 4096 + 2 ^ order ∨
    addr / 4096 % 2 ^ order ≠ 0 ∨
    ∃ g, addr / 4096 ≤ g ∧ g < addr / 4096 + 2 ^ order ∧ g ∈ freeSet s

theorem not_badFree_iff {s : Phys} {addr order : ℕ} :
    ¬ BadFree s addr order ↔
      addr = addr / 4096 * frameSize ∧ Returnable s order (addr / 4096) := by
  unfold BadFree
  push Not
  constructor
  · rintro ⟨ho, haddr, hend, hmod, hfree⟩
    refine ⟨?_, ho, Nat.dvd_of_mod_eq_zero hmod, hend, fun g hg => hfree g hg.1 hg.2⟩
    change addr = addr / 4096 * 4096
    omega
  · rintro ⟨haddr, hr⟩
    refine ⟨hr.order_le, ?_, hr.in_range, Nat.mod_eq_zero_of_dvd hr.aligned,
      fun g hle hlt => hr.unused g ⟨hle, hlt⟩⟩
    change addr = addr / 4096 * 4096 at haddr
    omega

/-- A bad free is rejected before anything is changed. Every other free returns if every
frame has its pointer, and adds the frames of the block to the free set. -/
theorem free_rejects {s : Phys} (h : Reachable s) {addr : ℕ} (haddr : addr < 2 ^ 64)
    (order : ℕ) :
    (BadFree s addr order → ∃ msg, (freePages addr order).run s = .stop (.panic msg) s) ∧
    (¬ BadFree s addr order → PtrsOk s → ∃ s', (freePages addr order).run s = .ok () s') ∧
    ∀ s', (freePages addr order).run s = .ok () s' →
      freeSet s' = freeSet s ∪ {g | addr / 4096 ≤ g ∧ g < addr / 4096 + 2 ^ order} := by
  have hI := h.inv
  have hframe : addr / 4096 < 2 ^ 52 := by omega
  refine ⟨?_, ?_, ?_⟩
  · intro hbad
    rcases freeChecks_checks addr order s with ⟨f, hrun⟩ | ⟨e, he, hrun⟩
    · -- what passes the checks is not bad
      rcases freeChecks_ok hrun with ⟨-, rfl, hr⟩
      have hdiv : f * frameSize / 4096 = f := Nat.mul_div_cancel f (by decide)
      refine absurd hbad (not_badFree_iff.2 ?_)
      rw [hdiv]
      exact ⟨rfl, hr⟩
    · cases e with
      | panic msg => exact ⟨msg, Prog.bind_of_stop hrun⟩
      | undefined what => exact he.elim
  · intro hgood hptrs
    rcases not_badFree_iff.1 hgood with ⟨heq, hr⟩
    rcases (freePages_spec hI hr hframe).exists_ok (not_not_intro hptrs) with ⟨_, s', hrun, -⟩
    rw [heq]
    exact ⟨s', hrun⟩
  · intro s' hrun
    rcases freePages_ok hI haddr hrun with ⟨f, rfl, -, hgrew⟩
    have hdiv : f * frameSize / 4096 = f := Nat.mul_div_cancel f (by decide)
    rw [hdiv]
    exact hgrew.free_eq

/-- A frame is given to the allocator, and then once more. -/
theorem free_rejects_double_free : ∃ s, Reachable s ∧ BadFree s 0 0 ∧
    ∃ msg, (freePages 0 0).run s = .stop (.panic msg) s := by
  have hreach : Reachable _ :=
    ⟨_, ⟨[0], 1, 4096, fun _ _ => 0, by decide, rfl⟩,
      Relation.ReflTransGen.single (Step.free 0 0 (by decide) rfl)⟩
  have hreject : ∀ s, Reachable s → 0 ∈ freeSet s → BadFree s 0 0 ∧
      ∃ msg, (freePages 0 0).run s = .stop (.panic msg) s := by
    intro s hs hfree
    have hbad : BadFree s 0 0 :=
      Or.inr (Or.inr (Or.inr (Or.inr ⟨0, le_refl 0, by decide, hfree⟩)))
    exact ⟨hbad, (free_rejects hs (by decide) 0).1 hbad⟩
  exact ⟨_, hreach, hreject _ hreach ⟨0, rfl, by decide⟩⟩

/-- The second of two frames has no pointer: nothing is wrong with its free, but the call
panics when it has counted the frame. -/
theorem free_push_overflow : ∃ s s', Reachable s ∧ ¬ BadFree s 4096 0 ∧
    (freePages 4096 0).run s = .stop (.panic "attempt to add with overflow") s' ∧
    s.pmm.freeFrames = 0 ∧ s'.pmm.freeFrames = 1 := by
  have hfresh : Fresh _ := ⟨[0, 0], 2, 2 ^ 64 - 4096, fun _ _ => 0, by decide, rfl⟩
  refine ⟨_, _, ⟨_, hfresh, .refl⟩, ?_, rfl, rfl, rfl⟩
  refine not_badFree_iff.2 ⟨rfl, Nat.zero_le _, one_dvd _, by decide, ?_⟩
  intro g _
  rw [hfresh.freeSet_eq]
  exact Set.notMem_empty g

end Prometheos.Pmm
