import Prometheos.Sync.Model

/-!
# The interrupt flag under locks

What the interrupt flag is at each place of well nested code (`Fits`): the saved flag of a
lock that is held is the flag its holder found, and under an `IntLock` or in a critical
section the flag is clear, except between the compare-exchange of `try_lock` and the
`irq::disable()` that follows it. With this the locks of all codes on a processor are accounted
for along every run, however the interrupts fall (`lawful`), and an interrupt can start
while the code it interrupts holds an `IntLock` only in that window (`preemptible_inWindow`).

So the holder of an `IntLock` is never preempted if every lock is taken with interrupts off,
and only then (`never_preempted`). When a lock is taken with interrupts on, a handler
that wants the same lock waits for ever (`preempted_holder`).
-/

namespace Prometheos.Sync

open Interrupts

variable {ι ν α μ κ : Type}

/-! ## The flag at each place -/

/-- The interrupt flag inside: a `SpinLock` does not change it. -/
def Guard.level (g : Guard ι ν) : Bool :=
  match g.lock with
  | some (.spin _) => g.found
  | _ => false

/-- The flag may be `b` inside the guards. -/
def Agrees (b : Bool) (gs : List (Guard ι ν)) : Prop := ∀ g ∈ gs.head?, b = g.level

/-- Every guard found the flag that is right inside the guards before it. -/
def Linked : List (Guard ι ν) → Prop
  | [] => True
  | g :: gs => Agrees g.found gs ∧ Linked gs

/-- The locks have saved the flags that were found. -/
def Saved (m : Shared ι ν μ) (gs : List (Guard ι ν)) : Prop :=
  ∀ g ∈ gs, ∀ i, g.lock = some (.int i) → (m.ints i).savedIf = g.found

/-- The places that code can reach, with the interrupt flag and the memory there. -/
inductive Fits (act : α → μ → List (Instr ι ν α) → μ → Prop) (m : Shared ι ν μ) :
    Frame ι ν α → Bool → Prop
  /-- Before a call. -/
  | start {c gs e} : Nested act (gs.map Guard.lock) c → Linked gs → Saved m gs → Agrees e gs →
      Fits act m ⟨c, gs⟩ e
  /-- In `lock`, after the compare-exchange. -/
  | readIf {i c gs b} : Nested act (some (.int i) :: gs.map Guard.lock) c → Linked gs →
      Saved m gs → Agrees b gs →
      Fits act m ⟨.lock i .readIf :: c, ⟨some (.int i), b⟩ :: gs⟩ b
  | saveIf {i c gs b} : Nested act (some (.int i) :: gs.map Guard.lock) c → Linked gs →
      Saved m gs → Agrees b gs →
      Fits act m ⟨.lock i (.saveIf b) :: c, ⟨some (.int i), b⟩ :: gs⟩ b
  | disable {i c gs b} : Nested act (some (.int i) :: gs.map Guard.lock) c → Linked gs →
      Saved m gs → Agrees b gs → (m.ints i).savedIf = b →
      Fits act m ⟨.lock i .disable :: c, ⟨some (.int i), b⟩ :: gs⟩ b
  /-- In `unlock`, with the saved flag read. -/
  | store {i c gs b} : Nested act (gs.map Guard.lock) c → Linked gs → Saved m gs → Agrees b gs →
      Fits act m ⟨.unlock i (.store b) :: c, ⟨some (.int i), b⟩ :: gs⟩ false
  | enable {i c gs b} : Nested act (gs.map Guard.lock) c → Linked gs → Saved m gs →
      Agrees b gs → Fits act m ⟨.unlock i (.enable b) :: c, gs⟩ false
  /-- In `critical_section`, with the flag read. -/
  | enter {c gs b} : Nested act (none :: gs.map Guard.lock) c → Linked gs → Saved m gs →
      Agrees b gs → Fits act m ⟨.enter (.disable b) :: c, gs⟩ b

theorem agrees_cons {b : Bool} {g : Guard ι ν} {gs : List (Guard ι ν)} :
    Agrees b (g :: gs) ↔ b = g.level := by
  simp [Agrees]

theorem agrees_nil (b : Bool) : Agrees b ([] : List (Guard ι ν)) := by
  simp [Agrees]

/-- Where the flag is set, it is set inside every guard. -/
theorem Linked.level_eq_true {gs : List (Guard ι ν)} (hl : Linked gs) (h : Agrees true gs) :
    ∀ g ∈ gs, g.level = true := by
  induction gs with
  | nil => exact fun g hg => absurd hg List.not_mem_nil
  | cons g₀ gs ih =>
      have htop : g₀.level = true := (agrees_cons.1 h).symm
      -- only a `SpinLock` leaves the flag set, and it found it set
      have hfound : g₀.found = true := by
        unfold Guard.level at htop
        split at htop
        · exact htop
        · exact absurd htop Bool.false_ne_true
      have hrest : Agrees true gs := hfound ▸ hl.1
      intro g hg
      rcases List.mem_cons.1 hg with rfl | hg
      · exact htop
      · exact ih hl.2 hrest g hg

theorem Saved.mono {m : Shared ι ν μ} {g : Guard ι ν} {gs : List (Guard ι ν)}
    (h : Saved m (g :: gs)) : Saved m gs := fun g' hg' => h g' (List.mem_cons_of_mem _ hg')

theorem Saved.congr {m m' : Shared ι ν μ} {gs : List (Guard ι ν)} (h : Saved m gs)
    (hm : ∀ i, .int i ∈ gs.filterMap Guard.lock → (m'.ints i).savedIf = (m.ints i).savedIf) :
    Saved m' gs := by
  intro g hg i hi
  rw [hm i (List.mem_filterMap.2 ⟨g, hg, hi⟩)]
  exact h g hg i hi

theorem Saved.cons {m : Shared ι ν μ} {g : Guard ι ν} {gs : List (Guard ι ν)} (h : Saved m gs)
    (hg : ∀ i, g.lock = some (.int i) → (m.ints i).savedIf = g.found) : Saved m (g :: gs) := by
  intro g' hg' i hi
  rcases List.mem_cons.1 hg' with rfl | hg'
  · exact hg i hi
  · exact h g' hg' i hi

/-- The guard of what is given back next. -/
theorem exists_guard {gs : List (Guard ι ν)} {l : Option (Lock ι ν)} {ls : List (Option (Lock ι ν))}
    (h : gs.map Guard.lock = l :: ls) : ∃ b gs', gs = ⟨l, b⟩ :: gs' ∧ gs'.map Guard.lock = ls := by
  rcases List.map_eq_cons_iff.1 h with ⟨⟨l', b⟩, gs', rfl, rfl, hls⟩
  exact ⟨b, gs', rfl, hls⟩

/-- Code is between the compare-exchange of `try_lock` and `irq::disable()`. -/
def Frame.InWindow (f : Frame ι ν α) : Prop :=
  ∃ i p c, f.code = .lock i p :: c ∧ p ≠ .exchange

section

variable {act : α → μ → List (Instr ι ν α) → μ → Prop} {m m' : Shared ι ν μ} {f : Frame ι ν α}
  {e : Bool}

/-- Where the flag is set, it is set inside every guard, but for that of a lock that code is
just taking. -/
theorem Fits.level_eq_true (h : Fits act m f true) {g : Guard ι ν} (hg : g ∈ f.guards) :
    g.level = true ∨ f.InWindow ∧ ∃ i, g = ⟨some (.int i), true⟩ := by
  cases h with
  | start _ hl _ ha => exact Or.inl (hl.level_eq_true ha g hg)
  | @readIf i c gs b _ hl _ ha =>
      rcases List.mem_cons.1 hg with rfl | hg
      · exact Or.inr ⟨⟨i, _, c, rfl, LockAt.noConfusion⟩, i, rfl⟩
      · exact Or.inl (hl.level_eq_true ha g hg)
  | @saveIf i c gs b _ hl _ ha =>
      rcases List.mem_cons.1 hg with rfl | hg
      · exact Or.inr ⟨⟨i, _, c, rfl, LockAt.noConfusion⟩, i, rfl⟩
      · exact Or.inl (hl.level_eq_true ha g hg)
  | @disable i c gs b _ hl _ ha _ =>
      rcases List.mem_cons.1 hg with rfl | hg
      · exact Or.inr ⟨⟨i, _, c, rfl, LockAt.noConfusion⟩, i, rfl⟩
      · exact Or.inl (hl.level_eq_true ha g hg)
  | enter _ hl _ ha => exact Or.inl (hl.level_eq_true ha g hg)

/-- Handlers hold nothing when they begin, and are well nested. -/
structure Begins (act : α → μ → List (Instr ι ν α) → μ → Prop) (f : Frame ι ν α) : Prop where
  guards_eq : f.guards = []
  nested : Nested act [] f.code

theorem Begins.fits (h : Begins act f) (e : Bool) (m : Shared ι ν μ) : Fits act m f e := by
  rcases f with ⟨c, gs⟩
  rcases h with ⟨rfl, hn⟩
  exact .start hn trivial (fun g hg => absurd hg List.not_mem_nil) (agrees_nil e)

theorem mem_held {l : Lock ι ν} : l ∈ f.held ↔ ∃ g ∈ f.guards, g.lock = some l :=
  List.mem_filterMap

/-- While the flag is set, code holds an `IntLock` only in the window. -/
theorem Fits.window (h : Fits act m f true) {i : ι} (hi : .int i ∈ f.held) : f.InWindow := by
  rcases mem_held.1 hi with ⟨g, hg, hlock⟩
  rcases h.level_eq_true hg with hlevel | ⟨hwindow, -⟩
  · -- inside an `IntLock` the flag is clear
    unfold Guard.level at hlevel
    rw [hlock] at hlevel
    exact absurd hlevel Bool.false_ne_true
  · exact hwindow

/-- What is known of a place depends on the flags that its locks have saved. -/
theorem Fits.congr (h : Fits act m f e)
    (hm : ∀ i, .int i ∈ f.held → (m'.ints i).savedIf = (m.ints i).savedIf) :
    Fits act m' f e := by
  have hrest : ∀ {g : Guard ι ν} {gs : List (Guard ι ν)}, f.guards = g :: gs →
      ∀ i, .int i ∈ gs.filterMap Guard.lock → (m'.ints i).savedIf = (m.ints i).savedIf := by
    intro g gs hgs i hi
    refine hm i (mem_held.2 ?_)
    rcases List.mem_filterMap.1 hi with ⟨g', hg', hlock⟩
    exact ⟨g', hgs ▸ List.mem_cons_of_mem _ hg', hlock⟩
  cases h with
  | start hn hl hs ha => exact .start hn hl (hs.congr hm) ha
  | readIf hn hl hs ha => exact .readIf hn hl (hs.congr (hrest rfl)) ha
  | saveIf hn hl hs ha => exact .saveIf hn hl (hs.congr (hrest rfl)) ha
  | disable hn hl hs ha hb =>
      have htop := hm _ (mem_held.2 ⟨_, List.mem_cons_self, rfl⟩)
      exact .disable hn hl (hs.congr (hrest rfl)) ha (htop.trans hb)
  | store hn hl hs ha => exact .store hn hl (hs.congr (hrest rfl)) ha
  | enable hn hl hs ha => exact .enable hn hl (hs.congr hm) ha
  | enter hn hl hs ha => exact .enter hn hl (hs.congr hm) ha

end

/-! ## The lock words -/

/-- The lock word is set. -/
def Taken (m : Shared ι ν μ) : Lock ι ν → Prop
  | .int i => (m.ints i).locked = true
  | .spin v => m.spins v = true

/-- The flag that is saved with a lock. -/
def savedFlag (m : Shared ι ν μ) : Lock ι ν → Bool
  | .int i => (m.ints i).savedIf
  | .spin _ => false

theorem taken_setInt [DecidableEq ι] (m : Shared ι ν μ) (i : ι) (x : IntLock) (l : Lock ι ν) :
    Taken (m.setInt i x) l ↔ l = .int i ∧ x.locked = true ∨ l ≠ .int i ∧ Taken m l := by
  cases l with
  | int j =>
      by_cases h : j = i
      · subst h
        simp [Taken]
      · simp [Taken, Shared.setInt_of_ne m x h, h]
  | spin v => simp [Taken, Shared.setInt]

theorem taken_setSpin [DecidableEq ν] (m : Shared ι ν μ) (v : ν) (b : Bool) (l : Lock ι ν) :
    Taken (m.setSpin v b) l ↔ l = .spin v ∧ b = true ∨ l ≠ .spin v ∧ Taken m l := by
  cases l with
  | int i => simp [Taken, Shared.setSpin]
  | spin w =>
      by_cases h : w = v
      · subst h
        simp [Taken]
      · simp [Taken, Shared.setSpin_of_ne m b h, h]

/-- What is taken once `k` is given back. -/
theorem taken_given {k l : Lock ι ν} {T : Prop} :
    l = k ∧ false = true ∨ l ≠ k ∧ T ↔ T ∧ l ≠ k := by
  constructor
  · rintro (⟨-, hfalse⟩ | ⟨hne, hl⟩)
    · cases hfalse
    · exact ⟨hl, hne⟩
  · rintro ⟨hl, hne⟩
    exact Or.inr ⟨hne, hl⟩

/-! ## A step -/

section

variable [DecidableEq ι] {m : Shared ι ν μ}

theorem savedIf_setInt_locked (m : Shared ι ν μ) (i j : ι) (b : Bool) :
    ((m.setInt i { m.ints i with locked := b }).ints j).savedIf = (m.ints j).savedIf := by
  by_cases h : j = i
  · subst h
    rw [Shared.setInt_self]
  · rw [Shared.setInt_of_ne m _ h]

theorem Saved.setInt_locked {gs : List (Guard ι ν)} (h : Saved m gs) (i : ι) (b : Bool) :
    Saved (m.setInt i { m.ints i with locked := b }) gs :=
  h.congr fun j _ => savedIf_setInt_locked m i j b

theorem Saved.setInt_savedIf {gs : List (Guard ι ν)} {i : ι} (h : Saved m gs)
    (hi : .int i ∉ gs.filterMap Guard.lock) (b : Bool) :
    Saved (m.setInt i { m.ints i with savedIf := b }) gs := by
  refine h.congr ?_
  intro j hj
  have hne : j ≠ i := fun h => hi (h ▸ hj)
  rw [Shared.setInt_of_ne m _ hne]

end

section

variable [DecidableEq ι] [DecidableEq ν] {act : α → μ → List (Instr ι ν α) → μ → Prop}
  {m m' : Shared ι ν μ} {f f' : Frame ι ν α} {e e' : Bool}

/-- A step leads from place to place. -/
theorem Exec.fits (h : Exec act f e m f' e' m') (hf : Fits act m f e) (hnodup : f.held.Nodup) :
    Fits act m' f' e' := by
  cases h with
  | exchange hfree =>
      cases hf with
      | start hn hl hs ha => exact .readIf hn.lock_inv.2 hl (hs.setInt_locked _ _) ha
  | spin _ => exact hf
  | readIf =>
      cases hf with
      | start hn hl hs ha => cases hn.lock_inv.1
      | readIf hn hl hs ha => exact .saveIf hn hl hs ha
  | saveIf =>
      cases hf with
      | start hn hl hs ha => cases hn.lock_inv.1
      | saveIf hn hl hs ha =>
          -- no other guard is for this lock
          have hi := (List.nodup_cons.1 hnodup).1
          refine .disable hn hl (hs.setInt_savedIf hi _) ha ?_
          rw [Shared.setInt_self]
  | disable =>
      cases hf with
      | start hn hl hs ha => cases hn.lock_inv.1
      | disable hn hl hs ha hb =>
          refine .start hn ⟨ha, hl⟩ (hs.cons ?_) (agrees_cons.2 rfl)
          intro i hi
          cases hi
          exact hb
  | @load i c gs e m =>
      cases hf with
      | start hn hl hs ha =>
          rcases hn.unlock_inv with ⟨-, ls, hls, hn⟩
          rcases exists_guard hls with ⟨b, gs', rfl, rfl⟩
          -- the lock remembers the flag that its guard was taken with
          have he : e = false := agrees_cons.1 ha
          have hb : (m.ints i).savedIf = b := hs _ List.mem_cons_self i rfl
          rw [he, hb]
          exact .store hn hl.2 hs.mono hl.1
  | store =>
      cases hf with
      | start hn hl hs ha => cases hn.unlock_inv.1
      | store hn hl hs ha => exact .enable hn hl (hs.setInt_locked _ _) ha
  | enable =>
      cases hf with
      | start hn hl hs ha => cases hn.unlock_inv.1
      | enable hn hl hs ha =>
          rw [Bool.or_false]
          exact .start hn hl hs ha
  | spinLock hfree =>
      cases hf with
      | start hn hl hs ha =>
          refine .start hn.spinLock_inv ⟨ha, hl⟩ (Saved.cons hs ?_) (agrees_cons.2 rfl)
          intro i hi
          cases hi
  | spinWait _ => exact hf
  | @spinUnlock v c g gs e m =>
      cases hf with
      | start hn hl hs ha =>
          rcases hn.spinUnlock_inv with ⟨ls, hls, hn⟩
          rcases exists_guard hls with ⟨b, gs', hgs, rfl⟩
          cases hgs
          have he : e = b := agrees_cons.1 ha
          rw [he]
          exact .start hn hl.2 (Saved.mono hs) hl.1
  | enterRead =>
      cases hf with
      | start hn hl hs ha => exact .enter hn.enter_inv.2 hl hs ha
  | enterDisable =>
      cases hf with
      | start hn hl hs ha => cases hn.enter_inv.1
      | enter hn hl hs ha =>
          refine .start hn ⟨ha, hl⟩ (hs.cons ?_) (agrees_cons.2 rfl)
          intro i hi
          cases hi
  | @leave c g gs e m =>
      cases hf with
      | start hn hl hs ha =>
          rcases hn.leave_inv with ⟨ls, hls, hn⟩
          rcases exists_guard hls with ⟨b, gs', hgs, rfl⟩
          cases hgs
          have he : e = false := agrees_cons.1 ha
          rw [he, Bool.or_false]
          exact .start hn hl.2 hs.mono hl.1
  | irq =>
      cases hf with
      | start hn hl hs ha =>
          -- code changes the flag itself only while it holds nothing
          rcases hn.irq_inv with ⟨hgs, hrest⟩
          cases List.map_eq_nil_iff.1 hgs
          exact .start hrest hl hs (agrees_nil _)
  | op hact =>
      cases hf with
      | start hn hl hs ha => exact .start (hn.op_inv hact) hl hs ha

/-- Code owns the locks it holds. -/
def locks (act : α → μ → List (Instr ι ν α) → μ → Prop) :
    Ownership (Frame ι ν α) (Shared ι ν μ) (Lock ι ν) Bool where
  held := Frame.held
  taken := Taken
  content := savedFlag
  fits f e m := Fits act m f e

/-- A step takes a lock that is free, gives back the lock taken last, or neither. -/
theorem Exec.move (h : Exec act f e m f' e' m') (hf : Fits act m f e) :
    (locks act).Move f m f' m' := by
  cases h with
  | @exchange i c gs e m hfree =>
      refine .take (.int i) (by simp [locks, Taken, hfree]) rfl ?_
      intro l
      change Taken _ l ↔ _ ∨ Taken m l
      rw [taken_setInt]
      tauto
  | spin _ => exact .keep rfl fun _ => Iff.rfl
  | readIf => exact .keep rfl fun _ => Iff.rfl
  | @saveIf i b c gs e m =>
      refine .keep rfl ?_
      intro l
      change Taken _ l ↔ Taken m l
      rw [taken_setInt]
      constructor
      · rintro (⟨rfl, hl⟩ | ⟨-, hl⟩)
        · exact hl
        · exact hl
      · intro hl
        by_cases hli : l = .int i
        · subst hli
          exact Or.inl ⟨rfl, hl⟩
        · exact Or.inr ⟨hli, hl⟩
  | disable => exact .keep rfl fun _ => Iff.rfl
  | load => exact .keep rfl fun _ => Iff.rfl
  | @store i b c g gs e m =>
      have hg : g.lock = some (.int i) := by
        cases hf with
        | start hn hl hs ha => cases hn.unlock_inv.1
        | store hn hl hs ha => rfl
      refine .give (.int i) (List.filterMap_cons_some hg) ?_
      intro l
      exact (taken_setInt m _ _ l).trans taken_given
  | enable => exact .keep rfl fun _ => Iff.rfl
  | @spinLock v c gs e m hfree =>
      refine .take (.spin v) (by simp [locks, Taken, hfree]) rfl ?_
      intro l
      change Taken _ l ↔ _ ∨ Taken m l
      rw [taken_setSpin]
      tauto
  | spinWait _ => exact .keep rfl fun _ => Iff.rfl
  | @spinUnlock v c g gs e m =>
      have hg : g.lock = some (.spin v) := by
        cases hf with
        | start hn hl hs ha =>
            rcases hn.spinUnlock_inv with ⟨ls, hls, -⟩
            exact (List.cons.inj hls).1
      refine .give (.spin v) (List.filterMap_cons_some hg) ?_
      intro l
      exact (taken_setSpin m _ _ l).trans taken_given
  | enterRead => exact .keep rfl fun _ => Iff.rfl
  | enterDisable => exact .keep rfl fun _ => Iff.rfl
  | @leave c g gs e m =>
      have hg : g.lock = none := by
        cases hf with
        | start hn hl hs ha =>
            rcases hn.leave_inv with ⟨ls, hls, -⟩
            exact (List.cons.inj hls).1
      exact .keep (List.filterMap_cons_none hg).symm fun _ => Iff.rfl
  | irq => exact .keep rfl fun _ => Iff.rfl
  | op _ => exact .keep rfl fun _ => Iff.rfl

/-- The flag saved with a lock is changed by its holder only. -/
theorem Exec.savedFlag_eq (h : Exec act f e m f' e' m') (hf : Fits act m f e) {l : Lock ι ν}
    (hl : l ∉ f.held) : savedFlag m' l = savedFlag m l := by
  cases l with
  | spin v => rfl
  | int j =>
      cases h with
      | exchange _ => exact savedIf_setInt_locked _ _ _ _
      | @saveIf i b c gs e m =>
          cases hf with
          | start hn hl hs ha => cases hn.lock_inv.1
          | saveIf hn hlk hs ha =>
              have hne : j ≠ i := by
                rintro rfl
                exact hl List.mem_cons_self
              change ((m.setInt i _).ints j).savedIf = _
              rw [Shared.setInt_of_ne m _ hne]
              rfl
      | store => exact savedIf_setInt_locked _ _ _ _
      | spin _ => rfl
      | readIf => rfl
      | disable => rfl
      | load => rfl
      | enable => rfl
      | spinLock _ => rfl
      | spinWait _ => rfl
      | spinUnlock => rfl
      | enterRead => rfl
      | enterDisable => rfl
      | leave => rfl
      | irq => rfl
      | op _ => rfl

theorem lawful {handler : κ → Frame ι ν α → Prop} (hhandler : ∀ v h, handler v h → Begins act h) :
    (locks act).Lawful (system act handler) where
  exec_fits hf hnodup h := h.fits hf hnodup
  exec_move hf h := h.move hf
  exec_content hf h hl := h.savedFlag_eq hf hl
  stable hf hm := hf.congr fun i hi => hm (.int i) hi
  handler_fits m h := (hhandler _ _ h).fits false m
  handler_held h := by
    change List.filterMap _ _ = []
    rw [(hhandler _ _ h).guards_eq]
    rfl
  finished_held {h e m} hf hfin := by
    change h.code = [] at hfin
    cases hf with
    | start hn hl hs ha =>
        change _ = [] at hfin
        subst hfin
        cases List.map_eq_nil_iff.1 hn.nil_inv
        rfl
    | _ => cases hfin

end

/-! ## Locks that are taken with interrupts off -/

/-- Before the first step: no lock is taken, and the code is at its beginning. The interrupt
flag is arbitrary. -/
structure Start (act : α → μ → List (Instr ι ν α) → μ → Prop)
    (c : Cpu (Frame ι ν α) (Shared ι ν μ)) : Prop where
  begins : Begins act c.running
  interrupted_eq : c.interrupted = []
  free : ∀ l, ¬ Taken c.mem l

/-- Locks of the kind `P` are taken with interrupts off. -/
def Masked (P : Lock ι ν → Prop) (c : Cpu (Frame ι ν α) (Shared ι ν μ)) : Event κ → Prop
  | .exec =>
      (∀ i rest, c.running.code = .lock i .exchange :: rest → P (.int i) → c.enabled = false) ∧
      ∀ v rest, c.running.code = .spinLock v :: rest → P (.spin v) → c.enabled = false
  | _ => True

/-- The code took its locks of the kind `P` with interrupts off. -/
def Frame.TookMasked (P : Lock ι ν → Prop) (f : Frame ι ν α) : Prop :=
  ∀ g ∈ f.guards, ∀ l, g.lock = some l → P l → g.found = false

section

variable {act : α → μ → List (Instr ι ν α) → μ → Prop} {m : Shared ι ν μ} {f : Frame ι ν α}
  {P : Lock ι ν → Prop}

/-- Then it holds none of them while interrupts are on. -/
theorem Fits.notMem_held (h : Fits act m f true) (hf : f.TookMasked P) {l : Lock ι ν}
    (hl : P l) : l ∉ f.held := by
  intro hmem
  rcases mem_held.1 hmem with ⟨g, hg, hlock⟩
  have hfound := hf g hg l hlock hl
  rcases h.level_eq_true hg with hlevel | ⟨-, i, rfl⟩
  · unfold Guard.level at hlevel
    rw [hlock] at hlevel
    cases l with
    | int i => exact absurd hlevel Bool.false_ne_true
    | spin v => exact absurd (hfound.symm.trans hlevel) Bool.false_ne_true
  · exact absurd hfound.symm Bool.false_ne_true

theorem Begins.tookMasked (h : Begins act f) : f.TookMasked P := by
  intro g hg
  rw [h.guards_eq] at hg
  exact absurd hg List.not_mem_nil

theorem Start.balanced {c : Cpu (Frame ι ν α) (Shared ι ν μ)} (h : Start act c) :
    (locks act).Balanced c := by
  have hheld : c.frames.flatMap Frame.held = [] := by
    unfold Cpu.frames Frame.held
    rw [h.interrupted_eq, List.flatMap_singleton, h.begins.guards_eq]
    rfl
  refine ⟨h.begins.fits c.enabled c.mem, ?_, ?_, ?_⟩
  · rw [h.interrupted_eq]
    exact fun f hf => absurd hf List.not_mem_nil
  · change (c.frames.flatMap Frame.held).Nodup
    rw [hheld]
    exact List.nodup_nil
  · intro l
    change Taken c.mem l ↔ l ∈ c.frames.flatMap Frame.held
    rw [hheld]
    exact iff_of_false (h.free l) List.not_mem_nil

end

section

variable [DecidableEq ι] [DecidableEq ν] {act : α → μ → List (Instr ι ν α) → μ → Prop}
  {handler : κ → Frame ι ν α → Prop} {P : Lock ι ν → Prop}
  {c c₀ : Cpu (Frame ι ν α) (Shared ι ν μ)}

theorem Exec.tookMasked {f' : Frame ι ν α} {e' : Bool} {m' : Shared ι ν μ}
    (h : Exec act c.running c.enabled c.mem f' e' m') (hmasked : Masked P c (.exec : Event κ))
    (hf : c.running.TookMasked P) : f'.TookMasked P := by
  rcases c with ⟨m, e, f, fs⟩
  rcases hmasked with ⟨hint, hspin⟩
  intro g hg l hl hP
  cases h with
  | exchange _ =>
      rcases List.mem_cons.1 hg with rfl | hg
      · cases hl
        exact hint _ _ rfl hP
      · exact hf g hg l hl hP
  | spinLock _ =>
      rcases List.mem_cons.1 hg with rfl | hg
      · cases hl
        exact hspin _ _ rfl hP
      · exact hf g hg l hl hP
  | enterDisable =>
      rcases List.mem_cons.1 hg with rfl | hg
      · cases hl
      · exact hf g hg l hl hP
  | store => exact hf g (List.mem_cons_of_mem _ hg) l hl hP
  | spinUnlock => exact hf g (List.mem_cons_of_mem _ hg) l hl hP
  | leave => exact hf g (List.mem_cons_of_mem _ hg) l hl hP
  | _ => exact hf g hg l hl hP

theorem Start.balanced_of_run {C : Cpu (Frame ι ν α) (Shared ι ν μ) → Event κ → Prop}
    (hhandler : ∀ v h, handler v h → Begins act h) (hstart : Start act c₀)
    (hrun : Reach (system act handler) C c₀ c) : (locks act).Balanced c :=
  Ownership.Reach.balanced (lawful hhandler) hrun hstart.balanced

/-- If the locks of a kind are taken with interrupts off, no code holds one while interrupts
are on, and no code that is interrupted does. -/
theorem Start.notMem_held (hhandler : ∀ v h, handler v h → Begins act h)
    (hstart : Start act c₀) (hrun : Reach (system act handler) (Masked P) c₀ c)
    {l : Lock ι ν} (hl : P l) :
    (c.enabled = true → l ∉ c.running.held) ∧ ∀ f ∈ c.interrupted, l ∉ f.held := by
  have hbooks := hstart.balanced_of_run hhandler hrun
  have htook : ∀ f ∈ c.frames, f.TookMasked P := by
    refine Reach.invariant (I := fun c => ∀ f ∈ c.frames, f.TookMasked P) ?_ hrun ?_
    · intro c ev c' hC hstep hc
      refine Step.forall_frames ?_ ?_ hC hstep hc
      · exact fun c f' e' m' hmasked hexec hf => Exec.tookMasked hexec hmasked hf
      · exact fun v h hh => (hhandler v h hh).tookMasked
    · unfold Cpu.frames
      rw [hstart.interrupted_eq]
      intro f hf
      cases List.mem_singleton.1 hf
      exact hstart.begins.tookMasked
  constructor
  · intro henabled
    have hfits : Fits act c.mem c.running true := henabled ▸ hbooks.running
    exact hfits.notMem_held (htook _ List.mem_cons_self) hl
  · intro f hf
    have hfits : Fits act c.mem f true := hbooks.interrupted f hf
    exact hfits.notMem_held (htook f (List.mem_cons_of_mem _ hf)) hl

end

/-! ## The holder of an `IntLock` -/

/-- An interrupt can start while the code that it interrupts holds an `IntLock`. -/
def Preemptible (c : Cpu (Frame ι ν α) (Shared ι ν μ)) : Prop :=
  c.enabled = true ∧ ∃ i, .int i ∈ c.running.held

/-- The lock is an `IntLock`. -/
def Lock.IsInt : Lock ι ν → Prop
  | .int _ => True
  | .spin _ => False

section

variable [DecidableEq ι] [DecidableEq ν] {act : α → μ → List (Instr ι ν α) → μ → Prop}
  {c c₀ : Cpu (Frame ι ν α) (Shared ι ν μ)}

/-- The processor on which any well nested code runs, with any well nested handlers. -/
def anyKernel (act : α → μ → List (Instr ι ν α) → μ → Prop) :
    System (Frame ι ν α) (Shared ι ν μ) Unit :=
  system act fun _ f => Begins act f

/-- Whatever happens, an interrupt can start while the code that it interrupts holds an
`IntLock` only between the compare-exchange and `irq::disable()`. -/
theorem preemptible_inWindow {C : Cpu (Frame ι ν α) (Shared ι ν μ) → Event Unit → Prop}
    (hstart : Start act c₀) (hrun : Reach (anyKernel act) C c₀ c) (h : Preemptible c) :
    c.running.InWindow := by
  have hbooks := hstart.balanced_of_run (fun _ _ h => h) hrun
  rcases h with ⟨henabled, i, hi⟩
  have hfits : Fits act c.mem c.running true := henabled ▸ hbooks.running
  exact hfits.window hi

/-- If every `IntLock` is taken with interrupts off, no interrupt starts while the code that
it interrupts holds one, and code that takes one which it does not hold finds it free. A lock
that is taken with interrupts on is one whose holder can be interrupted. -/
theorem never_preempted (hstart : Start act c₀)
    (hrun : Reach (anyKernel act) (Masked Lock.IsInt) c₀ c) :
    ¬ Preemptible c ∧
      (∀ i rest, c.running.code = .lock i .exchange :: rest → .int i ∉ c.running.held →
        (c.mem.ints i).locked = false) ∧
      ∀ i rest c', c.running.code = .lock i .exchange :: rest →
        (c.mem.ints i).locked = false → Step (anyKernel act) .exec c c' →
        (Preemptible c' ↔ c.enabled = true) := by
  have hbooks := hstart.balanced_of_run (fun _ _ h => h) hrun
  have hnone : ∀ i, (c.enabled = true → .int i ∉ c.running.held) ∧
      ∀ f ∈ c.interrupted, .int i ∉ f.held :=
    fun i => hstart.notMem_held (fun _ _ h => h) hrun (l := .int i) trivial
  refine ⟨?_, ?_, ?_⟩
  · rintro ⟨henabled, i, hi⟩
    exact (hnone i).1 henabled hi
  · -- an interrupted code holds no `IntLock` either, so that nobody has this one
    intro i rest hcode hnot
    refine Bool.eq_false_iff.2 ?_
    intro hlocked
    rcases List.mem_flatMap.1 ((hbooks.taken_iff (.int i)).1 hlocked) with ⟨f, hf, hi⟩
    rcases List.mem_cons.1 hf with rfl | hf
    · exact hnot hi
    · exact (hnone i).2 f hf hi
  · intro i rest c' hcode hfree hstep
    rcases c with ⟨m, e, ⟨code, gs⟩, fs⟩
    change code = _ at hcode
    subst hcode
    cases hstep with
    | exec hexec =>
        cases hexec with
        | exchange _ => exact ⟨fun h => h.1, fun h => ⟨h, i, List.mem_cons_self⟩⟩
        | spin hlocked => exact absurd (hfree.symm.trans hlocked) Bool.false_ne_true

end

/-! ## Two runs -/

/-- The only code is that of the lock. -/
def noOp : Empty → Unit → List (Instr Unit Empty Empty) → Unit → Prop := fun _ _ _ _ => False

/-- `lock` and `unlock`. -/
def oneRound : List (Instr Unit Empty Empty) := [.lock () .exchange, .unlock () .load]

theorem oneRound_begins : Begins noOp ⟨oneRound, []⟩ :=
  ⟨rfl, .lock (.unlock .nil)⟩

/-- A processor with one lock, which is free. -/
def atLock (enabled : Bool) : Cpu (Frame Unit Empty Empty) (Shared Unit Empty Unit) :=
  ⟨⟨fun _ => ⟨false, false⟩, nofun, ()⟩, enabled, ⟨oneRound, []⟩, []⟩

theorem atLock_start (enabled : Bool) : Start noOp (atLock enabled) := by
  refine ⟨oneRound_begins, rfl, ?_⟩
  intro l
  cases l with
  | int i => exact Bool.false_ne_true
  | spin v => exact v.elim

/-- After the compare-exchange. -/
def afterExchange (enabled : Bool) : Cpu (Frame Unit Empty Empty) (Shared Unit Empty Unit) :=
  ⟨(atLock enabled).mem.setInt () ⟨true, false⟩, enabled,
    ⟨[.lock () .readIf, .unlock () .load], [⟨some (.int ()), enabled⟩]⟩, []⟩

theorem atLock_step (enabled : Bool) :
    Step (anyKernel noOp) .exec (atLock enabled) (afterExchange enabled) :=
  .exec (.exchange rfl)

/-- With interrupts off, the lock is taken and its holder cannot be interrupted. -/
theorem never_preempted_round : Start noOp (atLock false) ∧
    Reach (anyKernel noOp) (Masked Lock.IsInt) (atLock false) (afterExchange false) ∧
    .int () ∈ (afterExchange false).running.held ∧ ¬ Preemptible (afterExchange false) := by
  have hmasked : Masked Lock.IsInt (atLock false) (.exec : Event Unit) :=
    ⟨fun _ _ _ _ => rfl, fun _ _ _ _ => rfl⟩
  have hrun : Reach (anyKernel noOp) (Masked Lock.IsInt) (atLock false) (afterExchange false) :=
    Relation.ReflTransGen.single ⟨.exec, hmasked, atLock_step false⟩
  exact ⟨atLock_start false, hrun, List.mem_cons_self,
    (never_preempted (atLock_start false) hrun).1⟩

/-- With interrupts on, an interrupt can come right after the compare-exchange. If its handler
takes the same lock, nothing else ever happens. -/
theorem preempted_holder : ∃ h, Start noOp (atLock true) ∧
    Reach (anyKernel noOp) (fun _ _ => True) (atLock true) (afterExchange true) ∧
    Preemptible (afterExchange true) ∧
    Step (anyKernel noOp) (.interrupt ()) (afterExchange true) h ∧
    h.running.code = oneRound ∧ (h.mem.ints ()).locked = true ∧
    ∀ h', Reach (anyKernel noOp) (fun _ _ => True) h h' → h' = h := by
  refine ⟨⟨(afterExchange true).mem, false, ⟨oneRound, []⟩, [(afterExchange true).running]⟩,
    atLock_start true, Relation.ReflTransGen.single ⟨.exec, trivial, atLock_step true⟩,
    ⟨rfl, (), List.mem_cons_self⟩, .interrupt oneRound_begins, rfl, rfl, ?_⟩
  intro h' hrun
  refine Reach.invariant (I := fun c => c = _) ?_ hrun rfl
  rintro c ev c' - hstep rfl
  cases hstep with
  | exec hexec =>
      cases hexec with
      | exchange hfree => cases hfree
      | spin _ => rfl
  | iret hfin => cases hfin

end Prometheos.Sync
