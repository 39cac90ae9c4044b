import Prometheos.Vmm.Ranges

/-!
# The paging-structure caches

The MMU may cache any present entry that refers to a table, at any moment, and keeps it
until the kernel flushes. A cached entry is stale when the frame it refers to has been
given back to the physical memory manager.

The trace of a call says what the MMU could see of it: every store to a table, with memory
as it was then, and the allocations, frees and flushes in between. `Watch` runs through a
trace and lets the MMU cache between any two events. What is stale at the end of a call was
freed after its last flush (`Watch.sound`), which gives `no_stale_walk`: the calls leave
nothing stale behind, except a `map` that runs out of frames half-way. There the tables that
were already linked are cleared and freed without a flush (`stale_walk_out_of_memory`).
-/

namespace Prometheos.Vmm

open Pmm

/-! ## The MMU -/

/-- What the MMU sees, and what it remembers. -/
structure Mmu where
  /-- Memory. -/
  mem : Mem
  /-- The tables that cached entries refer to. -/
  cached : Set ℕ
  /-- The tables of cached entries whose frame was given back. -/
  stale : Set ℕ
  /-- The frames that were given back, and not taken again since. -/
  returned : Set ℕ

namespace Mmu

/-- An entry that refers to the table `f` is cached. -/
def fill (u : Mmu) (f : ℕ) : Mmu :=
  { u with cached := insert f u.cached, stale := u.stale ∪ ({f} ∩ u.returned) }

/-- There is a present entry that refers to the table `f`. -/
def MayFill (top : ℕ) (u : Mmu) (f : ℕ) : Prop :=
  ∃ p, p ≠ [] ∧ Radix.tableAt kind (entries u.mem) 3 top p = some f

/-- An event of the kernel. -/
def see (u : Mmu) : Event → Mmu
  | .alloc f => { u with returned := u.returned \ {f} }
  | .free f => { u with
      stale := u.stale ∪ ({f} ∩ u.cached)
      returned := insert f u.returned }
  | .store m => { u with mem := m }
  | .flush => { u with cached := ∅, stale := ∅ }

end Mmu

/-- The MMU watches the events of a trace, the last of which is the first of the list, and
caches what it likes in between. -/
inductive Watch (top : ℕ) (u : Mmu) : List Event → Mmu → Prop
  | start : Watch top u [] u
  | fill {t : List Event} {v : Mmu} {f : ℕ} :
      Watch top u t v → v.MayFill top f → Watch top u t (v.fill f)
  | event {t : List Event} {v : Mmu} (e : Event) : Watch top u t v → Watch top u (e :: t) (v.see e)

section

variable {top : ℕ} {u v : Mmu} {t : List Event} {init held : List ℕ}

/-- After a store the MMU sees what was stored. -/
theorem Watch.mem_eq {m : Mem} (h : Watch top u (.store m :: t) v) : v.mem = m := by
  generalize ht : Event.store m :: t = t' at h
  induction h with
  | start => cases ht
  | fill _ _ ih => exact ih ht
  | event e _ _ =>
      cases ht
      rfl

/-- What the MMU knows at a moment of a call. -/
structure Sound (top : ℕ) (held : List ℕ) (t : List Event) (v : Mmu) : Prop where
  nodup : held.Nodup
  tables : ∀ f ∈ tablesIn v.mem 3 top, f ∈ held
  returned : ∀ f ∈ v.returned, f ∉ held
  stale : ∀ f ∈ v.stale, f ∈ unflushed t

/-- An entry that can be cached refers to a frame that was not given back. -/
theorem Sound.fill {f : ℕ} (h : Sound top held t v) (hf : v.MayFill top f) :
    Sound top held t (v.fill f) := by
  rcases hf with ⟨p, -, hp⟩
  refine ⟨h.nodup, h.tables, h.returned, ?_⟩
  rintro g (hg | ⟨rfl, hg⟩)
  · exact h.stale g hg
  · exact absurd (h.tables g ⟨p, hp⟩) (h.returned g hg)

/-- The frames that are stale were freed since the last flush. -/
theorem Watch.sound (h : Watch top u t v) (hseen : Seen init top t)
    (hheld : holdings init t = some held) (hinit : Sound top init [] u) :
    Sound top held t v := by
  induction h generalizing held with
  | start =>
      cases hheld
      exact hinit
  | fill _ hf ih => exact (ih hseen hheld).fill hf
  | @event t v e hwatch ih =>
      cases e with
      | alloc f =>
          rcases Option.bind_eq_some_iff.1 hheld with ⟨held₀, hheld₀, hf⟩
          have hS := ih hseen hheld₀
          split at hf
          · cases hf
          · rename_i hnot
            cases hf
            refine ⟨List.nodup_cons.2 ⟨hnot, hS.nodup⟩, ?_, ?_, hS.stale⟩
            · exact fun g hg => List.mem_cons_of_mem f (hS.tables g hg)
            · rintro g ⟨hg, hne⟩ hin
              rcases List.mem_cons.1 hin with rfl | hin
              · exact hne rfl
              · exact hS.returned g hg hin
      | free f =>
          rcases Option.bind_eq_some_iff.1 hheld with ⟨held₀, hheld₀, hf⟩
          rcases hseen with ⟨hseen, m, t', rfl, hgone⟩
          have hS := ih hseen hheld₀
          split at hf
          · cases hf
            refine ⟨hS.nodup.erase f, ?_, ?_, ?_⟩
            · -- the parent entry was cleared before
              intro g hg
              have hne : g ≠ f := by
                rintro rfl
                rw [← hwatch.mem_eq] at hgone
                exact hgone hg
              exact (List.mem_erase_of_ne hne).2 (hS.tables g hg)
            · rintro g (rfl | hg) hin
              · exact (hS.nodup.mem_erase_iff.1 hin).1 rfl
              · exact hS.returned g hg (List.mem_of_mem_erase hin)
            · rintro g (hg | ⟨rfl, -⟩)
              · exact List.mem_cons_of_mem f (hS.stale g hg)
              · exact List.mem_cons_self
          · cases hf
      | store m =>
          rcases hseen with ⟨hseen, held₀, hheld₀, htables⟩
          have hS := ih hseen hheld
          cases Option.some.inj (hheld₀.symm.trans hheld)
          exact ⟨hS.nodup, htables, hS.returned, hS.stale⟩
      | flush =>
          have hS := ih hseen hheld
          exact ⟨hS.nodup, hS.tables, hS.returned, fun f hf => hf.elim⟩

end

/-! ## Runs -/

/-- A call of the manager. -/
inductive Request where
  | map (virt phys : ℕ) (flags : PTFlags) (size : PageSize)
  | unmap (virt : ℕ) (size : PageSize)
  | mapRange (virt phys pages : ℕ) (flags : PTFlags) (size : PageSize)
  | unmapRange (virt pages : ℕ) (size : PageSize)

namespace Request

/-- The call returns. -/
def Returns [X86] (s s' : Vm) : Request → Prop
  | .map virt phys flags size => ∃ r, (Vmm.map virt phys flags size).run s = .ok r s'
  | .unmap virt size => ∃ r, (Vmm.unmap virt size).run s = .ok r s'
  | .mapRange virt phys pages flags size =>
      ∃ r, (Vmm.mapRange virt phys pages flags size).run s = .ok r s'
  | .unmapRange virt pages size => ∃ r, (Vmm.unmapRange virt pages size).run s = .ok r s'

/-- The call does not run out of frames between two tables of its first page. -/
def Enough (s : Vm) : Request → Prop
  | .map virt phys _ size => ¬ (Vacant s virt phys size ∧ Short s (pagePath virt size))
  | .mapRange virt phys pages _ size =>
      0 < pages → ¬ (Vacant s virt phys size ∧ Short s (pagePath virt size))
  | .unmap _ _ => True
  | .unmapRange _ _ _ => True

end Request

/-- The manager, the blocks of the other clients, and the MMU. -/
structure Platform where
  vm : Vm
  others : List (ℕ × ℕ)
  mmu : Mmu

namespace Platform

/-- The MMU, as it looks at memory between two calls. -/
def view (P : Platform) : Mmu := { P.mmu with mem := P.vm.phys.mem }

/-- One step: a call that meets the condition `C`, with the MMU watching it from an empty
trace on; a step of the other clients; an entry that is cached between two calls. -/
inductive Step [X86] (C : Vm → Request → Prop) (P : Platform) : Platform → Prop
  | call (q : Request) {s' : Vm} {v : Mmu} :
      C P.vm q → q.Returns { P.vm with trace := [] } s' → Watch (root P.vm) P.view s'.trace v →
      Step C P ⟨s', P.others, v⟩
  | foreign {t : Phys} {others' : List (ℕ × ℕ)} :
      OtherStep P.vm.phys P.others t others' →
      Step C P ⟨{ P.vm with phys := t }, others', P.mmu⟩
  | fill {f : ℕ} : P.view.MayFill (root P.vm) f → Step C P ⟨P.vm, P.others, P.view.fill f⟩

/-- The tables as `take_ownership` leaves them, before any call. -/
structure Start (P : Platform) : Prop where
  world : ∃ init, World.Start init ⟨P.vm, P.others⟩
  fresh : P.mmu.stale = ∅ ∧ P.mmu.returned = ∅

/-- The ownership invariant, with nothing stale and no table given back. -/
structure Coherent (P : Platform) : Prop where
  tree : ∃ init held, Tree init P.others P.vm held ∧ ∀ f ∈ P.mmu.returned, f ∉ held
  stale_eq : P.mmu.stale = ∅

end Platform

section

variable [X86] {init held : List ℕ} {others : List (ℕ × ℕ)} {s s' : Vm}

omit [X86] in
/-- The trace may start anew. -/
theorem Tree.restart (hT : Tree init others s held) :
    Tree held others { s with trace := [] } held :=
  ⟨hT.hhdm_eq, hT.top_eq, hT.total_le, hT.holds, hT.mem_iff, hT.unshared, rfl,
    List.not_mem_nil, trivial⟩

/-- What a call does to the tables; it leaves no frame that was freed after the last flush. -/
theorem Request.Returns.spec {q : Request} (h : q.Returns s s') (hT : Tree init others s held)
    (hquiet : unflushed s.trace = []) (henough : q.Enough s) :
    Kept init others s s' ∧ unflushed s'.trace = [] := by
  cases q with
  | map virt phys flags size =>
      rcases h with ⟨r, hrun⟩
      rcases map_of_ok hT hrun with ⟨htree, -, hpost⟩
      exact ⟨⟨htree, hpost.top_eq⟩, hpost.flushed hquiet henough⟩
  | unmap virt size =>
      rcases h with ⟨r, hrun⟩
      rcases unmap_spec hT virt size with ⟨r', t, held', hrun', hT', hpost⟩
      cases hrun.symm.trans hrun'
      exact ⟨⟨⟨held', hT'⟩, hpost.top_eq⟩, hpost.flushed hquiet⟩
  | mapRange virt phys pages flags size =>
      rcases h with ⟨r, hrun⟩
      rcases (mapRange_spec hT virt phys pages flags size).of_ok hrun with ⟨hK, hflush⟩
      exact ⟨hK, hflush hquiet henough⟩
  | unmapRange virt pages size =>
      rcases h with ⟨r, hrun⟩
      rcases (unmapRange_spec hT virt pages size).of_ok hrun with ⟨hK, hflush⟩
      exact ⟨hK, hflush hquiet⟩

namespace Platform

variable {P P' : Platform}

omit [X86] in
/-- The MMU between two calls. -/
theorem sound_view (hT : Tree init P.others P.vm held) (hret : ∀ f ∈ P.mmu.returned, f ∉ held)
    (hstale : P.mmu.stale = ∅) : Sound (root P.vm) held [] P.view := by
  refine ⟨hT.held_nodup, ?_, hret, ?_⟩
  · rintro f ⟨p, hp⟩
    exact hT.mem_of_tableAt hp
  · intro f hf
    change f ∈ P.mmu.stale at hf
    rw [hstale] at hf
    exact hf.elim

theorem Step.coherent (h : Step (fun s q => q.Enough s) P P') (hP : P.Coherent) :
    P'.Coherent := by
  rcases hP.tree with ⟨init, held, hT, hret⟩
  have hS := sound_view hT hret hP.stale_eq
  cases h with
  | @call q s' v henough hreturns hwatch =>
      have hT₀ := hT.restart
      have henough' : q.Enough { P.vm with trace := [] } := by
        cases q <;> exact henough
      rcases hreturns.spec hT₀ rfl henough' with ⟨⟨⟨held', hT'⟩, htop⟩, hquiet⟩
      have hroot : root s' = root P.vm := by
        unfold root
        rw [htop]
      have hseen := hT'.seen
      rw [hroot] at hseen
      have hS' := hwatch.sound hseen hT'.ledger hS
      refine ⟨⟨held, held', hT', hS'.returned⟩, Set.eq_empty_iff_forall_notMem.2 ?_⟩
      intro f hf
      have hin := hS'.stale f hf
      rw [hquiet] at hin
      exact List.not_mem_nil hin
  | foreign hstep => exact ⟨⟨init, held, hT.foreign hstep, hret⟩, hP.stale_eq⟩
  | fill hfill =>
      have hS' := hS.fill hfill
      refine ⟨⟨init, held, hT, hS'.returned⟩, Set.eq_empty_iff_forall_notMem.2 ?_⟩
      exact fun f hf => List.not_mem_nil (hS'.stale f hf)

omit [X86] in
theorem Start.coherent (h : P.Start) : P.Coherent := by
  rcases h.world with ⟨init, hstart⟩
  refine ⟨⟨init, init, hstart.tree, ?_⟩, h.fresh.1⟩
  rw [h.fresh.2]
  exact fun f hf => hf.elim

end Platform

/-- No call leaves a cached entry behind whose table it, or a call before it, gave back, as
long as no `map` runs out of frames between two tables of a page, and no `map_range` on its
first page. -/
theorem no_stale_walk {P₀ P : Platform} (hstart : P₀.Start)
    (hrun : Relation.ReflTransGen (Platform.Step fun s q => q.Enough s) P₀ P) :
    P.mmu.stale = ∅ := by
  have hcoherent : P.Coherent := by
    refine reach_invariant ?_ hrun hstart.coherent
    exact fun _ _ hstep => hstep.coherent
  exact hcoherent.stale_eq

end

/-- The MMU need not cache anything. -/
theorem Watch.exists_of_trace (top : ℕ) (u : Mmu) (t : List Event) : ∃ v, Watch top u t v := by
  induction t with
  | nil => exact ⟨u, .start⟩
  | cons e t ih =>
      rcases ih with ⟨v, hv⟩
      exact ⟨v.see e, hv.event e⟩

/-- The top level is never missing. -/
theorem missing_cons_le (s : Vm) (i : Fin 512) (p : List (Fin 512)) :
    missing s (i :: p) ≤ p.length := by
  unfold missing
  rw [List.length_cons, List.range_succ_eq_map, List.countP_cons_of_neg]
  · refine List.countP_le_length.trans ?_
    rw [List.length_map, List.length_range]
  · exact fun h => Option.some_ne_none (root s) (of_decide_eq_true h)

/-- The MMU before anything is cached. -/
def coldMmu (m : Mem) : Mmu := ⟨m, ∅, ∅, ∅⟩

/-- A page that is mapped where there were no tables is unmapped: its PDPT is free again. -/
theorem pdpt_given_back [X86] {s s' : Vm} {init held : List ℕ} {others : List (ℕ × ℕ)}
    {virt phys : ℕ} {flags : PTFlags} (hT : Tree init others s held) (hno : NoEmpty s)
    (habs : tableAt s [idx 3 virt] = none)
    (hmap : (map virt phys flags .base).run s = .ok (.ok ()) s') :
    ∃ f t, tableAt s' [idx 3 virt] = some f ∧
      (unmap virt .base).run { s' with trace := [] } = .ok (.ok ()) t ∧ f ∈ freeSet t.phys := by
  rcases map_of_ok hT hmap with ⟨⟨held', hT'⟩, hM, hpost⟩
  rcases unmap_run hT'.restart virt .base with ⟨r, t, held'', hrun, hT'', hM', hpost'⟩
  cases hpost'.eq_ok hpost.self_pageAt
  have hL := (Laid.refl s).insert hpost.2.2 hM
  have hL' : Laid s { s' with trace := [] } _ :=
    ⟨hL.vacant, hL.mapped, hL.other, hL.tables, hL.moved.pool_eq, hL.moved.populated,
      hL.moved.outside⟩
  have hC := (Cleared.refl { s' with trace := [] }).insert hpost'.2 hM'
  rcases leaf_of_walk (p := [idx 3 virt, idx 2 virt, idx 1 virt]) (le_refl 3)
    (hpost.2.2.below []) with ⟨n, hn, -⟩
  rcases Radix.tableAt_of_append (p := [idx 3 virt]) (q := [idx 2 virt, idx 1 virt]) hn with
    ⟨f, hf, -⟩
  refine ⟨f, t, hf, hrun, ?_⟩
  rw [hL'.freeSet_eq (by simpa using hC) hno hT hT'']
  -- the frame was free before the page was mapped, for it was no table then
  have hpool : f ∈ pool s := hM.pool_eq ▸ Or.inr ⟨_, hf⟩
  rcases hpool with hfree | ⟨q, hq⟩
  · exact hfree
  · have hsame := hT'.unshared _ _ _ (hpost.2.2.tables q f hq) hf
    rw [hsame, habs] at hq
    cases hq

/-- A page is mapped and unmapped again. The MMU has cached the entry of the PML4 when its table
is given back, and has dropped it when the call returns. -/
theorem no_stale_walk_given_back : letI := X86.documented
    ∃ (P₀ P₁ P : Platform) (f : ℕ), P₀.Start ∧
      Relation.ReflTransGen (Platform.Step fun s q => q.Enough s) P₀ P₁ ∧
      Platform.Step (fun s q => q.Enough s) P₁ P ∧ f ∈ P₁.mmu.cached ∧
      f ∉ freeSet P₁.vm.phys ∧ f ∈ freeSet P.vm.phys ∧ P.mmu.stale = ∅ := by
  let := X86.documented
  rcases base_page_run with ⟨s₁, hseed, s₂, halloc, htotal, hfree, s', hmap, -⟩
  have hstart := seeded_start (by decide) (by decide) hseed halloc htotal
  set P₀ : Platform := ⟨emptyVm s₂ 4, [], coldMmu s₂.mem⟩ with hP₀
  have hP : P₀.Start := ⟨⟨_, hstart⟩, rfl, rfl⟩
  have henough : (Request.map 0 0 ⟨flagRW, rfl⟩ .base).Enough P₀.vm := by
    rintro ⟨-, -, hshort⟩
    have hmissing := missing_cons_le P₀.vm (idx 3 0) [idx 2 0, idx 1 0, idx 0 0]
    change s₂.pmm.freeFrames < _ at hshort
    rw [hfree] at hshort
    exact absurd (hshort.trans_le hmissing) (lt_irrefl 3)
  have habs : tableAt (emptyVm s₂ 4) [idx 3 0] = none := by
    rw [Option.eq_none_iff_forall_ne_some]
    exact fun g hg => List.cons_ne_nil _ _ (tableAt_emptyVm.1 hg).1
  rcases pdpt_given_back hstart.tree (noEmpty_emptyVm s₂ 4) habs hmap with ⟨f, t, hf, hunmap, hback⟩
  rcases Watch.exists_of_trace (root P₀.vm) P₀.view s'.trace with ⟨v, hv⟩
  have hstep : Platform.Step (fun s q => q.Enough s) P₀ ⟨s', [], v⟩ :=
    .call (.map 0 0 ⟨flagRW, rfl⟩ .base) henough ⟨_, hmap⟩ hv
  -- the MMU caches the entry of the PML4
  set P₁ : Platform := ⟨s', [], (Platform.view ⟨s', [], v⟩).fill f⟩ with hP₁
  have hfill : Platform.Step (fun s q => q.Enough s) ⟨s', [], v⟩ P₁ :=
    .fill ⟨_, List.cons_ne_nil _ _, hf⟩
  have hrun := (Relation.ReflTransGen.single hstep).tail hfill
  rcases Watch.exists_of_trace (root P₁.vm) P₁.view t.trace with ⟨v', hv'⟩
  have hlast : Platform.Step (fun s q => q.Enough s) P₁ ⟨t, [], v'⟩ :=
    .call (.unmap 0 .base) trivial ⟨_, hunmap⟩ hv'
  rcases map_of_ok hstart.tree hmap with ⟨⟨held, hT'⟩, -⟩
  exact ⟨P₀, P₁, _, f, hP, hrun, hlast, Set.mem_insert _ _, hT'.notFree hf, hback,
    no_stale_walk hP (hrun.tail hlast)⟩

/-- There is a frame for the PDPT of a page, and none for its PD: the MMU caches the entry
of the PML4 before the table is taken back, and keeps it when the call has returned. -/
theorem stale_walk_out_of_memory : letI := X86.documented
    ∃ P₀ P : Platform, P₀.Start ∧ Platform.Step (fun _ _ => True) P₀ P ∧ 1 ∈ P.mmu.stale ∧
      1 ∈ freeSet P.vm.phys := by
  let := X86.documented
  rcases short_run with
    ⟨s₁, hseed, s₂, halloc, htotal, s', hmap, m₁, m₂, m₃, htrace, hlinked, horder⟩
  have hstart := seeded_start (by decide) (by decide) hseed halloc htotal
  set P₀ : Platform := ⟨emptyVm s₂ 2, [], coldMmu s₂.mem⟩ with hP₀
  have hroot : root P₀.vm = 2 := root_emptyVm s₂ 2
  -- the entry is cached after the second store
  have hfill : Mmu.MayFill (root P₀.vm)
      (((P₀.view.see (.alloc 1)).see (.store m₁)).see (.store m₂)) 1 := by
    refine ⟨[0], List.cons_ne_nil _ _, ?_⟩
    rw [hroot]
    exact Radix.tableAt_cons_iff.2 ⟨1, hlinked, rfl⟩
  have hlink : Watch (root P₀.vm) P₀.view [.store m₂, .store m₁, .alloc 1] _ :=
    ((Watch.start.event _).event _).event _
  have hwatch := ((hlink.fill hfill).event (.store m₃)).event (.free 1)
  rw [← htrace] at hwatch
  have hstep : Platform.Step (fun _ _ => True) P₀ _ :=
    .call (.map 0 0 ⟨flagRW, rfl⟩ .base) trivial ⟨_, hmap⟩ hwatch
  exact ⟨P₀, _, ⟨⟨_, hstart⟩, rfl, rfl⟩, hstep, Or.inr ⟨rfl, Or.inl rfl⟩, ⟨0, horder, by decide⟩⟩

end Prometheos.Vmm
