import Prometheos.Vmm.Spec

/-!
# Runs of the virtual memory manager

The manager together with the other clients of the physical memory manager: they allocate
blocks, free only their own, and write only to their own.

* `mapRange_spec`, `unmapRange_spec`: the range calls keep the ownership invariant;
* `tables_owned`: the ownership invariant holds at every moment of a run.
-/

namespace Prometheos.Vmm

open Pmm

/-! ## Ranges -/

/-- A page of this size is mapped at the address. -/
def PageAt (s : Vm) (virt : ℕ) (size : PageSize) : Prop :=
  isCanonical virt = true ∧ virt % size.bytes = 0 ∧
    ∃ w, walk s (pagePath virt size) = some (4 - (pagePath virt size).length, w)

section

variable {s s' : Vm} {virt : ℕ} {size : PageSize} {r : Except UnmapError Unit}

/-- What `unmap` can do. -/
theorem UnmapPost.cases (h : UnmapPost s virt size r s') :
    s' = s ∨ Unmapped s s' (pagePath virt size) := by
  cases r with
  | ok _ => exact Or.inr h.2
  | error e =>
      cases e with
      | notMapped => exact Or.inl h.1
      | nonCanonical => exact Or.inl h.1
      | misaligned => exact Or.inl h.1

theorem UnmapPost.top_eq (h : UnmapPost s virt size r s') : s'.topLevel = s.topLevel := by
  rcases h.cases with rfl | hU
  · rfl
  · exact hU.top

theorem UnmapPost.flushed (h : UnmapPost s virt size r s') (hquiet : unflushed s.trace = []) :
    unflushed s'.trace = [] := by
  rcases h.cases with rfl | hU
  · exact hquiet
  · exact hU.flushed

/-- `unmap` of a page that is mapped succeeds. -/
theorem UnmapPost.eq_ok (h : UnmapPost s virt size r s') (hp : PageAt s virt size) :
    r = .ok () := by
  rcases hp with ⟨hcan, hal, w, hw⟩
  cases r with
  | ok _ => rfl
  | error e =>
      cases e with
      | notMapped => exact absurd hw (h.2 w)
      | nonCanonical => exact absurd (h.2.symm.trans hcan) Bool.false_ne_true
      | misaligned => exact absurd hal h.2

/-- And it flushes. -/
theorem UnmapPost.flushed_of_pageAt (h : UnmapPost s virt size r s')
    (hp : PageAt s virt size) : unflushed s'.trace = [] := by
  cases h.eq_ok hp
  exact h.2.flushed

end

/-- What every call keeps. -/
structure Kept (init : List ℕ) (others : List (ℕ × ℕ)) (s s' : Vm) : Prop where
  tree : ∃ held, Tree init others s' held
  top : s'.topLevel = s.topLevel

section

variable [X86] {init held : List ℕ} {others : List (ℕ × ℕ)} {s s' : Vm} {virt phys : ℕ}
  {flags : PTFlags} {size : PageSize} {pages : ℕ} {r : Except MapError Unit}

/-- What `map` can do. -/
theorem MapPost.cases (h : MapPost s virt phys flags size r s') :
    s' = s ∨ Mapped s s' (pagePath virt size) (leafEntry phys flags size) ∨
      Restored s s' ∧ Vacant s virt phys size ∧ Short s (pagePath virt size) := by
  cases r with
  | ok _ => exact Or.inr (Or.inl h.2.2)
  | error e =>
      cases e with
      | alreadyMapped => exact Or.inl h.2.2
      | outOfMemory =>
          rcases h.2.2.2 with hsame | hshort
          · exact Or.inl hsame
          · exact Or.inr (Or.inr ⟨h.1, h.2.1, hshort⟩)
      | nonCanonical => exact Or.inl h.1
      | misaligned => exact Or.inl h.1

/-- A call that fails is undone. -/
theorem MapPost.restored {e : MapError} (h : MapPost s virt phys flags size (.error e) s') :
    Restored s s' := by
  cases e with
  | alreadyMapped => exact h.2.2 ▸ Restored.refl s
  | outOfMemory => exact h.1
  | nonCanonical => exact h.1 ▸ Restored.refl s
  | misaligned => exact h.1 ▸ Restored.refl s

theorem MapPost.top_eq (h : MapPost s virt phys flags size r s') :
    s'.topLevel = s.topLevel := by
  rcases h.cases with rfl | hM | ⟨hR, -⟩
  · rfl
  · exact hM.top
  · exact hR.top

omit [X86] in
/-- A page that is mapped takes no mapping away. -/
theorem Mapped.walk_eq {p q : List (Fin 512)} {leaf : Word} (hM : Mapped s s' p leaf)
    {x : ℕ × Word} (hq : walk s q = some x) : walk s' q = some x := by
  rw [hM.other q, hq]
  rintro ⟨r, rfl⟩
  have hnone := Radix.walk_append_of_none hM.vacant.1 hM.vacant.2 r
  exact Option.some_ne_none x (hq.symm.trans hnone)

/-- `map` takes no mapping away. -/
theorem MapPost.walk_eq (h : MapPost s virt phys flags size r s')
    {q : List (Fin 512)} {x : ℕ × Word} (hq : walk s q = some x) : walk s' q = some x := by
  rcases h.cases with rfl | hM | ⟨hR, -⟩
  · exact hq
  · exact hM.walk_eq hq
  · rw [hR.walks, hq]

theorem MapPost.pageAt (h : MapPost s virt phys flags size r s')
    {a : ℕ} {size' : PageSize} (hp : PageAt s a size') : PageAt s' a size' := by
  rcases hp with ⟨hcan, hal, w, hw⟩
  exact ⟨hcan, hal, w, h.walk_eq hw⟩

/-- The page is there after a call that succeeded. -/
theorem MapPost.self_pageAt (h : MapPost s virt phys flags size (.ok ()) s') :
    PageAt s' virt size := by
  refine ⟨h.1.1, h.1.2.1, leafEntry phys flags size, ?_⟩
  have hbelow := h.2.2.below []
  rw [List.append_nil] at hbelow
  exact hbelow

/-- `map` leaves a freed table in the caches only when it runs out of frames half-way. -/
theorem MapPost.flushed (h : MapPost s virt phys flags size r s') (hquiet : unflushed s.trace = [])
    (hnot : ¬ (Vacant s virt phys size ∧ Short s (pagePath virt size))) :
    unflushed s'.trace = [] := by
  rcases h.cases with rfl | hM | ⟨-, hshort⟩
  · exact hquiet
  · exact hM.flushed
  · exact absurd hshort hnot

variable {B : Prop}

/-- The rollback of `map_range`: its first step flushes. -/
theorem unmapBefore_spec {i : ℕ} (hT : Tree init others s held)
    (hB : ¬ B → ∀ j < i, virt + j * size.bytes < 2 ^ 64)
    (hp : 0 < i → PageAt s virt size) :
    Prog.Ends B (unmapBefore virt size i) s fun _ s' => (i = 0 → s' = s) ∧
      Kept init others s s' ∧ (0 < i → unflushed s'.trace = []) := by
  refine Prog.forRange_ends
    (I := fun j t => (j = 0 → t = s) ∧ Kept init others s t ∧ (0 < j → unflushed t.trace = []))
    ⟨fun _ => rfl, ⟨⟨held, hT⟩, rfl⟩, fun h => absurd h (Nat.lt_irrefl 0)⟩ ?_
  rintro j hj t ⟨hzero, hK, hflush⟩
  refine (mulU64_ends (fun h => lt_of_le_of_lt (Nat.le_add_left _ _) (hB h j hj)) t).bind ?_
  rintro back t₁ ⟨rfl, rfl⟩
  refine (addU64_ends (fun h => hB h j hj) t₁).bind ?_
  rintro v t₂ ⟨rfl, rfl⟩
  rcases hK.tree with ⟨held₁, hT₁⟩
  rcases unmap_spec hT₁ (virt + j * size.bytes) size with ⟨r, t', held', hrun, hT', hpost⟩
  refine Prog.Ends.congr (Prog.bind_of_ok hrun) ?_
  refine ⟨fun h => absurd h (Nat.succ_ne_zero j), ⟨⟨held', hT'⟩, ?_⟩, fun _ => ?_⟩
  · rw [hpost.top_eq, hK.top]
  · cases j with
    | zero =>
        -- the first page is still mapped
        rw [Nat.zero_mul, Nat.add_zero] at hpost
        refine hpost.flushed_of_pageAt ?_
        rw [hzero rfl]
        exact hp hj
    | succ j => exact hpost.flushed (hflush (Nat.succ_pos j))

/-- The loop of `map_range`. A failure after the first page is followed by a flush. -/
theorem mapPages_spec (flags : PTFlags) (hB : ¬ B → ∀ j < pages, virt + j * size.bytes < 2 ^ 64 ∧
      phys + j * size.bytes < 2 ^ 52) : ∀ {n i : ℕ} {s : Vm} {held : List ℕ}, i + n = pages →
    Tree init others s held → (0 < i → PageAt s virt size) →
    Prog.Ends B (mapPages virt phys flags size n i) s fun _ s' => Kept init others s s' ∧
      (unflushed s.trace = [] →
        (i = 0 → 0 < n → ¬ (Vacant s virt phys size ∧ Short s (pagePath virt size))) →
        unflushed s'.trace = []) := by
  intro n
  induction n with
  | zero =>
      intro i s held _ hT _
      exact ⟨⟨⟨held, hT⟩, rfl⟩, fun h _ => h⟩
  | succ n ih =>
      intro i s held hi hT hp
      have hlt : i < pages := by omega
      refine (mulU64_ends
        (fun h => lt_of_le_of_lt (Nat.le_add_left _ _) (hB h i hlt).1) s).bind ?_
      rintro step s₁ ⟨rfl, rfl⟩
      refine (addU64_ends (fun h => (hB h i hlt).1) s₁).bind ?_
      rintro v s₂ ⟨rfl, rfl⟩
      refine (addU64_ends (fun h => (hB h i hlt).2.trans (by decide)) s₂).bind ?_
      rintro p s₃ ⟨rfl, rfl⟩
      refine (map_ends hT fun h => (hB h i hlt).2).bind ?_
      rintro r t ⟨⟨held₁, hT₁⟩, hpost⟩
      cases r with
      | ok u =>
          have hp₁ : 0 < i + 1 → PageAt t virt size := by
            intro _
            cases i with
            | zero =>
                rw [Nat.zero_mul, Nat.add_zero] at hpost
                exact hpost.self_pageAt
            | succ i => exact hpost.pageAt (hp (Nat.succ_pos i))
          refine (ih (by omega) hT₁ hp₁).mono (fun h => h) ?_
          rintro _ s' ⟨hK, hflush⟩
          refine ⟨⟨hK.tree, hK.top.trans hpost.top_eq⟩, fun _ _ => hflush hpost.2.2.flushed ?_⟩
          exact fun h => absurd h (Nat.succ_ne_zero i)
      | error e =>
          refine Prog.Ends.bind (unmapBefore_spec hT₁ (fun h j hj => (hB h j (by omega)).1)
            fun h => hpost.pageAt (hp h)) ?_
          rintro _ s' ⟨hzero, hK, hflush⟩
          refine ⟨⟨hK.tree, hK.top.trans hpost.top_eq⟩, fun hquiet hfirst => ?_⟩
          cases i with
          | zero =>
              rw [Nat.zero_mul, Nat.add_zero, Nat.add_zero] at hpost
              rw [hzero rfl]
              exact hpost.flushed hquiet (hfirst rfl (Nat.succ_pos n))
          | succ i => exact hflush (Nat.succ_pos i)

/-- The loop of `unmap_range`. -/
theorem unmapPages_spec (hB : ¬ B → ∀ j < pages, virt + j * size.bytes < 2 ^ 64) :
    ∀ {n i : ℕ} {s : Vm} {held : List ℕ}, i + n = pages → Tree init others s held →
    Prog.Ends B (unmapPages virt size n i) s fun _ s' => Kept init others s s' ∧
      (unflushed s.trace = [] → unflushed s'.trace = []) := by
  intro n
  induction n with
  | zero =>
      intro i s held _ hT
      exact ⟨⟨⟨held, hT⟩, rfl⟩, fun h => h⟩
  | succ n ih =>
      intro i s held hi hT
      have hlt : i < pages := by omega
      refine (mulU64_ends
        (fun h => lt_of_le_of_lt (Nat.le_add_left _ _) (hB h i hlt)) s).bind ?_
      rintro step s₁ ⟨rfl, rfl⟩
      refine (addU64_ends (fun h => hB h i hlt) s₁).bind ?_
      rintro v s₂ ⟨rfl, rfl⟩
      rcases unmap_spec hT (virt + i * size.bytes) size with ⟨r, t, held₁, hrun, hT₁, hpost⟩
      refine Prog.Ends.congr (Prog.bind_of_ok hrun) ?_
      cases r with
      | ok u =>
          refine (ih (by omega) hT₁).mono (fun h => h) ?_
          rintro _ s' ⟨hK, hflush⟩
          exact ⟨⟨hK.tree, hK.top.trans hpost.top_eq⟩, fun _ => hflush hpost.2.flushed⟩
      | error e => exact ⟨⟨⟨held₁, hT₁⟩, hpost.top_eq⟩, hpost.flushed⟩

/-- No address of a range leaves `u64`. -/
def Fits (addr pages : ℕ) (size : PageSize) : Prop := addr + pages * size.bytes ≤ 2 ^ 64

omit [X86] in
theorem bytes_pos (size : PageSize) : 0 < size.bytes := by
  cases size with
  | base => decide
  | large => decide
  | huge => decide

omit [X86] in
theorem Fits.lt (h : Fits virt pages size) {j : ℕ} (hj : j < pages) :
    virt + j * size.bytes < 2 ^ 64 := by
  have hpos := bytes_pos size
  have hlt : j * size.bytes < pages * size.bytes := Nat.mul_lt_mul_of_pos_right hj hpos
  unfold Fits at h
  omega

/-- `map_range` keeps the ownership invariant; a call that does not run out of frames
half-way on the first page leaves nothing unflushed. -/
theorem mapRange_spec (hT : Tree init others s held) (virt phys pages : ℕ) (flags : PTFlags)
    (size : PageSize) :
    Prog.Ends (¬ (Fits virt pages size ∧ phys + pages * size.bytes ≤ 2 ^ 52))
      (mapRange virt phys pages flags size) s fun _ s' => Kept init others s s' ∧
        (unflushed s.trace = [] →
          (0 < pages → ¬ (Vacant s virt phys size ∧ Short s (pagePath virt size))) →
          unflushed s'.trace = []) := by
  refine (mapPages_spec flags ?_ (Nat.zero_add pages) hT ?_).mono (fun h => h) ?_
  · intro h j hj
    rw [not_not] at h
    have hmul : (j + 1) * size.bytes ≤ pages * size.bytes := Nat.mul_le_mul_right _ hj
    rw [Nat.succ_mul] at hmul
    have hpos := bytes_pos size
    exact ⟨h.1.lt hj, by omega⟩
  · exact fun h => absurd h (Nat.lt_irrefl 0)
  · rintro _ s' ⟨hK, hflush⟩
    exact ⟨hK, fun hquiet hfirst => hflush hquiet fun _ => hfirst⟩

theorem unmapRange_spec (hT : Tree init others s held) (virt pages : ℕ) (size : PageSize) :
    Prog.Ends (¬ Fits virt pages size) (unmapRange virt pages size) s fun _ s' =>
      Kept init others s s' ∧ (unflushed s.trace = [] → unflushed s'.trace = []) := by
  refine unmapPages_spec ?_ (Nat.zero_add pages) hT
  intro h j hj
  rw [not_not] at h
  exact h.lt hj

end

/-! ## Runs -/

/-- The manager, and the blocks of the other clients. -/
structure World where
  vm : Vm
  others : List (ℕ × ℕ)

namespace World

/-- A call of the manager. -/
inductive Call [X86] (w : World) : World → Prop
  | map (virt phys : ℕ) (flags : PTFlags) (size : PageSize) {r : Except MapError Unit} {s' : Vm} :
      (Vmm.map virt phys flags size).run w.vm = .ok r s' → Call w ⟨s', w.others⟩
  | unmap (virt : ℕ) (size : PageSize) {r : Except UnmapError Unit} {s' : Vm} :
      (Vmm.unmap virt size).run w.vm = .ok r s' → Call w ⟨s', w.others⟩
  | mapRange (virt phys pages : ℕ) (flags : PTFlags) (size : PageSize)
      {r : Except MapError Unit} {s' : Vm} :
      (Vmm.mapRange virt phys pages flags size).run w.vm = .ok r s' → Call w ⟨s', w.others⟩
  | unmapRange (virt pages : ℕ) (size : PageSize) {r : Except UnmapError Unit} {s' : Vm} :
      (Vmm.unmapRange virt pages size).run w.vm = .ok r s' → Call w ⟨s', w.others⟩

/-- A step of the other clients. -/
inductive Foreign (w : World) : World → Prop
  | step {t : Phys} {others' : List (ℕ × ℕ)} :
      OtherStep w.vm.phys w.others t others' → Foreign w ⟨{ w.vm with phys := t }, others'⟩

/-- One step of a run. -/
def Step [X86] (w w' : World) : Prop := w.Call w' ∨ w.Foreign w'

/-- The tables as `take_ownership` leaves them: `init` are the frames they lie in. -/
structure Start (init : List ℕ) (w : World) : Prop where
  tree : Tree init w.others w.vm init
  trace_eq : w.vm.trace = []

end World

section

variable [X86] {init held : List ℕ} {others others' : List (ℕ × ℕ)} {s : Vm}

omit [X86] in
/-- The other clients do not write to the tables. -/
theorem Tree.foreign_mem {t : Phys} {p : List (Fin 512)} {f : ℕ} (hT : Tree init others s held)
    (h : OtherStep s.phys others t others') (hp : tableAt s p = some f) :
    t.mem f = s.phys.mem f := by
  rcases h.holds hT.holds with ⟨-, happ⟩
  refine happ.mem_eq f ⟨(f * frameSize, 0), ?_, mem_frames_self f⟩
  exact List.mem_map_of_mem (hT.mem_of_tableAt hp)

omit [X86] in
theorem Tree.foreign_tableAt {t : Phys} (hT : Tree init others s held)
    (h : OtherStep s.phys others t others') (q : List (Fin 512)) :
    tableAt { s with phys := t } q = tableAt s q := by
  refine Radix.tableAt_congr ?_
  intro p i _ f _ hp
  exact congrFun (hT.foreign_mem h hp) i

omit [X86] in
/-- The other clients do not touch the tables. -/
theorem Tree.foreign {t : Phys} (hT : Tree init others s held)
    (h : OtherStep s.phys others t others') : Tree init others' { s with phys := t } held := by
  rcases h.holds hT.holds with ⟨hH, happ⟩
  have htab := hT.foreign_tableAt h
  refine ⟨?_, hT.top_eq, ?_, hH, ?_, ?_, hT.ledger, hT.root_kept, hT.seen⟩
  · change s.hhdmOffset = t.pmm.hhdmOffset
    rw [happ.hhdm]
    exact hT.hhdm_eq
  · change t.pmm.totalFrames ≤ _
    rw [happ.total]
    exact hT.total_le
  · intro f
    simp only [htab]
    exact hT.mem_iff f
  · intro a b f ha hb
    exact hT.unshared a b f ((htab a).symm.trans ha) ((htab b).symm.trans hb)

/-- A call keeps the ownership invariant and the top level. -/
theorem World.Call.kept {w w' : World} (h : w.Call w') (hT : Tree init w.others w.vm held) :
    Kept init w'.others w.vm w'.vm := by
  cases h with
  | map virt phys flags size hrun =>
      rcases map_of_ok hT hrun with ⟨htree, -, hpost⟩
      exact ⟨htree, hpost.top_eq⟩
  | unmap virt size hrun =>
      rcases unmap_spec hT virt size with ⟨r, s', held', hrun', hT', hpost⟩
      rw [hrun] at hrun'
      cases hrun'
      exact ⟨⟨held', hT'⟩, hpost.top_eq⟩
  | mapRange virt phys pages flags size hrun =>
      exact ((mapRange_spec hT virt phys pages flags size).of_ok hrun).1
  | unmapRange virt pages size hrun =>
      exact ((unmapRange_spec hT virt pages size).of_ok hrun).1

theorem World.Step.kept {w w' : World} (h : w.Step w') (hT : Tree init w.others w.vm held) :
    Kept init w'.others w.vm w'.vm := by
  rcases h with h | h
  · exact h.kept hT
  · cases h with
    | step hstep => exact ⟨⟨held, hT.foreign hstep⟩, rfl⟩

theorem World.Start.kept {w₀ w : World} (h : World.Start init w₀)
    (hrun : Relation.ReflTransGen World.Step w₀ w) : Kept init w.others w₀.vm w.vm := by
  have hstep : ∀ t t', World.Step t t' → Kept init t.others w₀.vm t.vm →
      Kept init t'.others w₀.vm t'.vm := by
    rintro t t' h ⟨⟨held, hT⟩, htop⟩
    have hK := h.kept hT
    exact ⟨hK.tree, hK.top.trans htop⟩
  exact reach_invariant hstep hrun ⟨⟨init, h.tree⟩, rfl⟩

end

/-- Who owns the tables, at every moment of a run. Each table is reached along one path, in
a frame that is neither free nor a block of others; the top level stays, and its frame is
never freed. The frames held are those held at the start with those allocated and without
those freed since, none of which was freed when it was not held, and they are exactly the
tables. And the calls return. -/
theorem tables_owned [X86] {init : List ℕ} {w₀ w : World} (hstart : World.Start init w₀)
    (hrun : Relation.ReflTransGen World.Step w₀ w) :
    (∀ p q f, tableAt w.vm p = some f → tableAt w.vm q = some f → p = q) ∧
    (∀ p f, tableAt w.vm p = some f → f < w.vm.phys.pmm.totalFrames ∧
      f ∉ freeSet w.vm.phys ∧ f ∉ outFrames w.others) ∧
    (w.vm.topLevel = w₀.vm.topLevel ∧ Event.free (root w₀.vm) ∉ w.vm.trace) ∧
    (∃ held, holdings init w.vm.trace = some held ∧ held.Nodup ∧
      ∀ f, f ∈ held ↔ ∃ p, tableAt w.vm p = some f) ∧
    (∀ virt phys flags size, phys < 2 ^ 52 →
      ∃ r s', (map virt phys flags size).run w.vm = .ok r s') ∧
    (∀ virt size, ∃ r s', (unmap virt size).run w.vm = .ok r s') ∧
    (∀ virt phys pages flags size, Fits virt pages size → phys + pages * size.bytes ≤ 2 ^ 52 →
      ∃ r s', (mapRange virt phys pages flags size).run w.vm = .ok r s') ∧
    (∀ virt pages size, Fits virt pages size →
      ∃ r s', (unmapRange virt pages size).run w.vm = .ok r s') := by
  rcases hstart.kept hrun with ⟨⟨held, hT⟩, htop⟩
  have hroot : root w.vm = root w₀.vm := by
    unfold root
    rw [htop]
  refine ⟨hT.unshared, ?_, ⟨htop, hroot ▸ hT.root_kept⟩, ⟨held, hT.ledger, hT.held_nodup,
    hT.mem_iff⟩, ?_, ?_, ?_, ?_⟩
  · intro p f hp
    refine ⟨hT.frame_lt hp, hT.notFree hp, hT.holds.notMem_others ?_⟩
    exact ⟨_, List.mem_map_of_mem (hT.mem_of_tableAt hp), mem_frames_self f⟩
  · intro virt phys flags size hphys
    rcases map_spec hT virt hphys flags size with ⟨r, s', -, hmap, -⟩
    exact ⟨r, s', hmap⟩
  · intro virt size
    rcases unmap_spec hT virt size with ⟨r, s', -, hunmap, -⟩
    exact ⟨r, s', hunmap⟩
  · intro virt phys pages flags size hv hp
    rcases (mapRange_spec hT virt phys pages flags size).exists_ok
      (not_not_intro ⟨hv, hp⟩) with ⟨r, s', hmap, -⟩
    exact ⟨r, s', hmap⟩
  · intro virt pages size hv
    rcases (unmapRange_spec hT virt pages size).exists_ok (not_not_intro hv) with
      ⟨r, s', hunmap, -⟩
    exact ⟨r, s', hunmap⟩

/-! ## An empty PML4 -/

/-- The manager with an empty PML4 in frame `f`. -/
def emptyVm (s : Phys) (f : ℕ) : Vm :=
  ⟨{ s with mem := zeroMem s.mem f }, s.pmm.hhdmOffset, f * frameSize, []⟩

theorem root_emptyVm (s : Phys) (f : ℕ) : root (emptyVm s f) = f :=
  Nat.mul_div_cancel f (by decide : 0 < frameSize)

theorem emptyVm_entry (s : Phys) (f : ℕ) (i : Fin 512) : (emptyVm s f).phys.mem f i = 0 :=
  if_pos ⟨rfl, i.isLt⟩

theorem tableAt_emptyVm {s : Phys} {f g : ℕ} {p : List (Fin 512)} :
    tableAt (emptyVm s f) p = some g ↔ p = [] ∧ g = f := by
  unfold tableAt
  rw [root_emptyVm]
  refine Radix.tableAt_iff_of_no_table ?_
  intro i n h
  have hzero : entries (emptyVm s f).phys.mem f i = 0 := emptyVm_entry s f i
  rw [hzero, kind_zero_word] at h
  cases h

theorem translation_emptyVm [X86] (s : Phys) (f a : ℕ) : translation (emptyVm s f) a = none := by
  have hwalk : walk (emptyVm s f) (pagePath a .base) = none := by
    unfold walk
    rw [root_emptyVm]
    refine Radix.walk_cons_of_absent ?_ _
    have hzero : entries (emptyVm s f).phys.mem f (idx 3 a) = 0 := emptyVm_entry s f _
    rw [hzero, kind_zero_word]
  unfold translation
  rw [hwalk]
  exact ite_self _

theorem emptyVm_start {s : Phys} {f : ℕ} {others : List (ℕ × ℕ)}
    (hH : Holds s ((f * frameSize, 0) :: others)) (htotal : s.pmm.totalFrames ≤ 2 ^ 40) :
    World.Start [f] ⟨emptyVm s f, others⟩ := by
  refine ⟨⟨rfl, ?_, htotal, hH.write ?_, ?_, ?_, rfl, List.not_mem_nil, trivial⟩, rfl⟩
  · rw [root_emptyVm]
    rfl
  · intro g hg
    refine zeroMem_of_ne s.mem ?_
    rintro rfl
    exact hH.notMem_freeSet List.mem_cons_self (mem_frames_self g) hg
  · intro g
    simp only [tableAt_emptyVm, List.mem_singleton, exists_eq_left]
  · intro p q g hp hq
    rw [(tableAt_emptyVm.1 hp).1, (tableAt_emptyVm.1 hq).1]

/-- Memory of `total` frames behind a direct map, none of them free yet. -/
def freshPhys (total : ℕ) : Phys :=
  ⟨⟨List.replicate 12 none, List.replicate total 255, total, 0, 4096⟩, fun _ _ => 0⟩

theorem freshPhys_start {total : ℕ} (hfit : 4096 + total * frameSize ≤ 2 ^ 64) :
    Ledger.Start ⟨freshPhys total, ∅, []⟩ := by
  have hlen : (List.replicate total 0).length = total := List.length_replicate
  refine ⟨⟨List.replicate total 0, total, 4096, fun _ _ => 0, ?_, ?_⟩,
    ⟨Nat.zero_lt_succ 4095, hfit⟩, rfl, rfl⟩
  · unfold frameSize at hfit
    omega
  · unfold Pmm.new
    rw [Prog.require_bind hlen.symm, hlen]
    rfl

/-- Frames from 1 on are seeded, and a frame is allocated. -/
theorem seeded_holds {total count addr : ℕ} {s₁ s₂ : Phys}
    (hfit : 4096 + total * frameSize ≤ 2 ^ 64) (hcount : 1 + count ≤ total)
    (hseed : (addRange 1 count).run (freshPhys total) = .ok () s₁)
    (halloc : (allocPages 0).run s₁ = .ok (some addr) s₂) : Holds s₂ [(addr, 0)] := by
  have hreach : Ledger.Reachable ⟨s₂, _, [(addr, 0)]⟩ :=
    ⟨_, freshPhys_start hfit, Relation.ReflTransGen.tail (Relation.ReflTransGen.single
      (Ledger.Step.seed 1 count hcount (Set.empty_disjoint _) hseed))
      (Ledger.Step.allocSome 0 addr halloc)⟩
  exact hreach.accounts.toHolds

/-- One of the frames holds an empty PML4. -/
theorem seeded_start {total count f : ℕ} {s₁ s₂ : Phys} (hcount : 1 + count ≤ total)
    (hle : total ≤ 2 ^ 40) (hseed : (addRange 1 count).run (freshPhys total) = .ok () s₁)
    (halloc : (allocPages 0).run s₁ = .ok (some (f * frameSize)) s₂)
    (htotal : s₂.pmm.totalFrames = total) : World.Start [f] ⟨emptyVm s₂ f, []⟩ := by
  have hfit : 4096 + total * frameSize ≤ 2 ^ 64 := by
    unfold frameSize
    omega
  exact emptyVm_start (seeded_holds hfit hcount hseed halloc) (htotal.trans_le hle)

/-- Frames 1 to 4 are seeded, the PML4 takes one of them, and a page the other three. -/
theorem base_page_run : letI := X86.documented
    ∃ s₁, (addRange 1 4).run (freshPhys 5) = .ok () s₁ ∧ ∃ s₂,
      (allocPages 0).run s₁ = .ok (some (4 * frameSize)) s₂ ∧ s₂.pmm.totalFrames = 5 ∧
      s₂.pmm.freeFrames = 3 ∧ ∃ s',
      (map 0 0 ⟨flagRW, rfl⟩ .base).run (emptyVm s₂ 4) = .ok (.ok ()) s' ∧
        s'.phys.pmm.freeFrames = 0 := by
  unfold addRange
  unfold addRange
  unfold addRange
  unfold addRange
  exact ⟨_, rfl, _, rfl, rfl, rfl, _, rfl, rfl⟩

/-- The tables of that run are the frames it holds. -/
theorem tables_owned_base_page : letI := X86.documented
    ∃ w₀ w : World, World.Start [4] w₀ ∧ Relation.ReflTransGen World.Step w₀ w ∧
      w.vm.phys.pmm.freeFrames = 0 ∧
      ∃ held, holdings [4] w.vm.trace = some held ∧ held.Nodup ∧
        ∀ f, f ∈ held ↔ ∃ p, tableAt w.vm p = some f := by
  let := X86.documented
  rcases base_page_run with ⟨s₁, hseed, s₂, halloc, htotal, -, s', hmap, hfree⟩
  have hstart := seeded_start (by decide) (by decide) hseed halloc htotal
  have hstep : Relation.ReflTransGen World.Step ⟨emptyVm s₂ 4, []⟩ ⟨s', []⟩ :=
    Relation.ReflTransGen.single (Or.inl (.map 0 0 ⟨flagRW, rfl⟩ .base hmap))
  exact ⟨_, _, hstart, hstep, hfree, (tables_owned hstart hstep).2.2.2.1⟩

end Prometheos.Vmm
