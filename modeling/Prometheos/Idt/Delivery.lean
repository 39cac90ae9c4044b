import Mathlib.Data.List.Count
import Mathlib.Data.Set.Basic
import Prometheos.Idt.Model

/-!
# The handler that runs

Runs of installations, removals and interrupts, one call after the other. A run is served
(`Served`) if each handler that is installed for an irq is called once by every interrupt
`irq + 0x20` and by no other, and installations for different irqs neither get the same handle
nor stand in each other's way.

The vector of an irq is `irq + 0x20` cut off to eight bits, and `isr_handler` keeps some
vectors to itself. So runs are served just if their irqs are compatible (`served_iff`): no two
share a vector, vector `0x80` is not among them, and those that are cut off have a vector
that the table does not serve. This is so if all irqs are below `0xE0` and none is `0x60`
(`compatible_of_lt`), and not so if all values of a `u32` may occur (`unserved_irqs`).
-/

namespace Prometheos.Idt

/-! ## Runs -/

/-- An installation that returned `UACPI_STATUS_OK` and was not removed since. -/
structure Installed where
  irq : ℕ
  handle : ℕ
  closure : Closure

/-- The kernel's state, the installations that stand, and all irqs for which an installation
succeeded, with their handles. -/
structure Session where
  state : State
  live : List Installed
  yielded : List (ℕ × ℕ)

/-- A call, or an interrupt. -/
inductive Call where
  | install (irq : ℕ) (handler : Option ℕ) (ctx : ℕ)
  | uninstall (handle : ℕ)
  | deliver (vec : Fin 256)

namespace Session

/-- A call returns. Removals are given a handle that some installation returned. -/
inductive Does (S : Session) : Call → Session → Prop
  | installed {irq ctx handle : ℕ} {handler : Option ℕ} {s' : State} :
      (uacpiKernelInstallInterruptHandler irq handler ctx).run S.state =
        .ok (.ok, some handle) s' →
      Does S (.install irq handler ctx)
        ⟨s', ⟨irq, handle, ⟨handler, ctx, S.state.serial⟩⟩ :: S.live, (irq, handle) :: S.yielded⟩
  | refused {irq ctx : ℕ} {handler : Option ℕ} {s' : State} :
      (uacpiKernelInstallInterruptHandler irq handler ctx).run S.state =
        .ok (.alreadyExists, none) s' →
      Does S (.install irq handler ctx) ⟨s', S.live, S.yielded⟩
  | uninstalled {handle : ℕ} {s' : State} :
      (∃ irq, (irq, handle) ∈ S.yielded) →
      (uacpiKernelUninstallInterruptHandler handle).run S.state = .ok .ok s' →
      Does S (.uninstall handle) ⟨s', S.live.filter fun x => x.handle ≠ handle, S.yielded⟩
  | delivered {vec : Fin 256} {s' : State} :
      (isrHandler vec).run S.state = .ok () s' → Does S (.deliver vec) ⟨s', S.live, S.yielded⟩

/-- Only irqs of `A` are installed. -/
def Allowed (A : Set ℕ) : Call → Prop
  | .install irq _ _ => irq ∈ A
  | _ => True

/-- A call with an irq of `A`. -/
def Step (A : Set ℕ) (S S' : Session) : Prop := ∃ c, Allowed A c ∧ S.Does c S'

/-- Nothing is installed, and nothing was called. -/
def start : Session := ⟨⟨fun _ => none, [], 0⟩, [], []⟩

/-- What the handlers' owners rely on, if the irqs are those of `A`. -/
structure Served (A : Set ℕ) (S : Session) : Prop where
  /-- The interrupt of a handler calls it once, and nothing else. -/
  runs : ∀ x ∈ S.live, x.closure.handler.isSome → ∀ vec : Fin 256, (vec : ℕ) = x.irq + 0x20 →
    ∃ s', (isrHandler vec).run S.state = .ok () s' ∧ s'.calls = x.closure :: S.state.calls
  /-- No other interrupt calls it. -/
  others : ∀ x ∈ S.live, ∀ vec : Fin 256, (vec : ℕ) ≠ x.irq + 0x20 →
    ((isrHandler vec).run S.state).state.calls.count x.closure =
      S.state.calls.count x.closure
  /-- The handles of different irqs are different. -/
  handles : ∀ y ∈ S.yielded, ∀ z ∈ S.yielded, y.1 ≠ z.1 → y.2 ≠ z.2
  /-- An installation is refused only because of one for the same irq. -/
  refusals : ∀ irq ∈ A, ∀ handler ctx s',
    (uacpiKernelInstallInterruptHandler irq handler ctx).run S.state =
      .ok (.alreadyExists, none) s' → ∃ x ∈ S.live, x.irq = irq

end Session

/-- No two irqs share a vector, none has the vector of system calls, and one whose vector is
cut off has a vector that the table does not serve. Irqs whose vector overflows are refused
with a panic. -/
def Compatible (A : Set ℕ) : Prop :=
  ∀ irq ∈ A, irq + 0x20 < 2 ^ 32 →
    irq ≠ 0x60 ∧ (0xE0 ≤ irq → ¬ IsSlotVector (vectorOf irq)) ∧
    ∀ irq' ∈ A, irq' + 0x20 < 2 ^ 32 → irq' ≠ irq → vectorOf irq' ≠ vectorOf irq

theorem val_vectorOf (irq : ℕ) : (vectorOf irq : ℕ) = (irq + 0x20) % 256 := rfl

/-- Irqs that the table serves are compatible. -/
theorem compatible_of_lt {A : Set ℕ} (h : ∀ irq ∈ A, irq < 0xE0 ∧ irq ≠ 0x60) :
    Compatible A := by
  intro irq hirq _
  rcases h irq hirq with ⟨hlt, hne⟩
  refine ⟨hne, fun hle => absurd hle (Nat.not_le.2 hlt), ?_⟩
  intro irq' hirq' _ hdiff heq
  have hlt' := (h irq' hirq').1
  have hval := congrArg Fin.val heq
  rw [val_vectorOf, val_vectorOf] at hval
  omega

/-! ## The invariant -/

/-- The slots hold the closures of the installations that stand. -/
structure Session.Filled (A : Set ℕ) (S : Session) : Prop where
  live : ∀ x ∈ S.live, x.irq ∈ A ∧ x.irq + 0x20 < 2 ^ 32 ∧ x.handle = vectorOf x.irq ∧
    S.state.handlers (vectorOf x.irq) = some x.closure
  slots : ∀ v c, S.state.handlers v = some c → ∃ x ∈ S.live, vectorOf x.irq = v ∧ x.closure = c
  serial : ∀ v c, S.state.handlers v = some c → c.serial < S.state.serial
  inj : ∀ v w c, S.state.handlers v = some c → S.state.handlers w = some c → v = w
  yielded : ∀ y ∈ S.yielded, y.1 ∈ A ∧ y.1 + 0x20 < 2 ^ 32 ∧ y.2 = (vectorOf y.1 : ℕ)

section

variable {A : Set ℕ} {S S' : Session}

theorem Session.start_filled : Session.start.Filled A := by
  refine ⟨?_, ?_, ?_, ?_, ?_⟩
  · exact fun x hx => absurd hx List.not_mem_nil
  · exact fun v c h => absurd h (Option.some_ne_none c).symm
  · exact fun v c h => absurd h (Option.some_ne_none c).symm
  · exact fun v w c h _ => absurd h (Option.some_ne_none c).symm
  · exact fun y hy => absurd hy List.not_mem_nil

/-- A closure that is installed in a free slot is new. -/
theorem Session.Filled.install (h : S.Filled A) {irq ctx : ℕ} {handler : Option ℕ}
    (hirq : irq ∈ A) (hlt : irq + 0x20 < 2 ^ 32)
    (hfree : S.state.handlers (vectorOf irq) = none) :
    Session.Filled A ⟨S.state.install irq handler ctx,
      ⟨irq, vectorOf irq, ⟨handler, ctx, S.state.serial⟩⟩ :: S.live,
      (irq, (vectorOf irq : ℕ)) :: S.yielded⟩ := by
  -- the slots, new and old
  have hslot : ∀ v c, (S.state.install irq handler ctx).handlers v = some c →
      v = vectorOf irq ∧ c = ⟨handler, ctx, S.state.serial⟩ ∨
        v ≠ vectorOf irq ∧ S.state.handlers v = some c := by
    intro v c hc
    change installHandler S.state.handlers (vectorOf irq) _ v = some c at hc
    by_cases hv : v = vectorOf irq
    · subst hv
      rw [installHandler_self] at hc
      exact Or.inl ⟨rfl, (Option.some.inj hc).symm⟩
    · rw [installHandler_of_ne _ _ hv] at hc
      exact Or.inr ⟨hv, hc⟩
  refine ⟨?_, ?_, ?_, ?_, ?_⟩
  · intro x hx
    rcases List.mem_cons.1 hx with rfl | hx
    · exact ⟨hirq, hlt, rfl, installHandler_self _ _ _⟩
    · rcases h.live x hx with ⟨hA, hxlt, hhandle, hc⟩
      have hne : vectorOf x.irq ≠ vectorOf irq := by
        intro heq
        rw [heq, hfree] at hc
        cases hc
      exact ⟨hA, hxlt, hhandle, (installHandler_of_ne _ _ hne).trans hc⟩
  · intro v c hc
    rcases hslot v c hc with ⟨rfl, rfl⟩ | ⟨-, hold⟩
    · exact ⟨_, List.mem_cons_self, rfl, rfl⟩
    · rcases h.slots v c hold with ⟨x, hx, hv, hxc⟩
      exact ⟨x, List.mem_cons_of_mem _ hx, hv, hxc⟩
  · intro v c hc
    change c.serial < S.state.serial + 1
    rcases hslot v c hc with ⟨-, rfl⟩ | ⟨-, hold⟩
    · exact Nat.lt_succ_self _
    · exact Nat.lt_succ_of_lt (h.serial v c hold)
  · -- older closures have smaller numbers
    intro v w c hv hw
    rcases hslot v c hv with ⟨rfl, rfl⟩ | ⟨-, hvold⟩
    · rcases hslot w _ hw with ⟨rfl, -⟩ | ⟨-, hwold⟩
      · rfl
      · exact absurd (h.serial w _ hwold) (Nat.lt_irrefl _)
    · rcases hslot w c hw with ⟨rfl, rfl⟩ | ⟨-, hwold⟩
      · exact absurd (h.serial v _ hvold) (Nat.lt_irrefl _)
      · exact h.inj v w c hvold hwold
  · intro y hy
    rcases List.mem_cons.1 hy with rfl | hy
    · exact ⟨hirq, hlt, rfl⟩
    · exact h.yielded y hy

theorem Session.Filled.uninstall (h : S.Filled A) (irq : ℕ) :
    Session.Filled A ⟨{ S.state with handlers := clearHandler S.state.handlers (vectorOf irq) },
      S.live.filter fun x => x.handle ≠ (vectorOf irq : ℕ), S.yielded⟩ := by
  have hslot : ∀ v c, clearHandler S.state.handlers (vectorOf irq) v = some c →
      v ≠ vectorOf irq ∧ S.state.handlers v = some c := by
    intro v c hc
    have hv : v ≠ vectorOf irq := by
      rintro rfl
      rw [clearHandler_self] at hc
      cases hc
    rw [clearHandler_of_ne _ hv] at hc
    exact ⟨hv, hc⟩
  refine ⟨?_, ?_, ?_, ?_, h.yielded⟩
  · intro x hx
    rcases List.mem_filter.1 hx with ⟨hx, hne⟩
    rcases h.live x hx with ⟨hA, hlt, hhandle, hc⟩
    refine ⟨hA, hlt, hhandle, (clearHandler_of_ne _ ?_).trans hc⟩
    intro heq
    rw [hhandle, heq] at hne
    simp at hne
  · intro v c hc
    rcases hslot v c hc with ⟨hv, hc⟩
    rcases h.slots v c hc with ⟨x, hx, rfl, hxc⟩
    refine ⟨x, List.mem_filter.2 ⟨hx, ?_⟩, rfl, hxc⟩
    rw [(h.live x hx).2.2.1]
    exact decide_eq_true fun heq => hv (Fin.ext heq)
  · exact fun v c hc => h.serial v c (hslot v c hc).2
  · exact fun v w c hv hw => h.inj v w c (hslot v c hv).2 (hslot w c hw).2

theorem Session.Filled.of_calls (h : S.Filled A) {s' : State}
    (hhandlers : s'.handlers = S.state.handlers) (hserial : s'.serial = S.state.serial) :
    Session.Filled A ⟨s', S.live, S.yielded⟩ := by
  rcases h with ⟨hlive, hslots, hser, hinj, hyielded⟩
  rw [← hhandlers] at hlive hslots hser hinj
  rw [← hserial] at hser
  exact ⟨hlive, hslots, hser, hinj, hyielded⟩

theorem State.called_handlers (s : State) (c : Closure) : (s.called c).handlers = s.handlers := by
  unfold State.called
  split_ifs <;> rfl

theorem State.called_serial (s : State) (c : Closure) : (s.called c).serial = s.serial := by
  unfold State.called
  split_ifs <;> rfl

/-- Every call keeps the table filled with what stands. -/
theorem Session.Does.filled {c : Call} (hdoes : S.Does c S') (hA : Allowed A c)
    (h : S.Filled A) : S'.Filled A := by
  cases hdoes with
  | installed hrun =>
      rcases installed_inv hrun with ⟨hlt, hfree, rfl, rfl⟩
      exact h.install hA hlt hfree
  | refused hrun =>
      rcases refused_inv hrun with ⟨-, -, rfl⟩
      exact h.of_calls rfl rfl
  | @uninstalled handle s' hhandle hrun =>
      rcases hhandle with ⟨irq, hy⟩
      have hval : handle = (vectorOf irq : ℕ) := (h.yielded _ hy).2.2
      subst hval
      have hvec : Fin.ofNat 256 (vectorOf irq : ℕ) = vectorOf irq := Fin.ofNat_val_eq_self _
      rw [uninstall_run, hvec] at hrun
      cases hrun
      exact h.uninstall irq
  | @delivered vec s' hrun =>
      rcases isrHandler_cases vec S.state with hsame | ⟨c, -, -, hcall⟩
      · rw [hrun] at hsame
        change s' = _ at hsame
        subst hsame
        exact h.of_calls rfl rfl
      · cases hrun.symm.trans hcall
        exact h.of_calls (State.called_handlers _ _) (State.called_serial _ _)

theorem Session.filled_of_run (hrun : Relation.ReflTransGen (Session.Step A) Session.start S) :
    S.Filled A := by
  refine reach_invariant ?_ hrun Session.start_filled
  rintro S S' ⟨c, hA, hdoes⟩ hS
  exact hdoes.filled hA hS

/-! ## Which runs are served -/

theorem State.calls_called (s : State) {c : Closure} (h : c.handler.isSome = true) :
    (s.called c).calls = c :: s.calls := by
  unfold State.called
  rw [if_pos h]

/-- A call of another closure is not counted. -/
theorem State.count_called (s : State) {c x : Closure} (h : c ≠ x) :
    (s.called c).calls.count x = s.calls.count x := by
  unfold State.called
  split_ifs
  · exact List.count_cons_of_ne h
  · rfl

theorem Session.Filled.served (h : S.Filled A) (hA : Compatible A) : S.Served A := by
  refine ⟨?_, ?_, ?_, ?_⟩
  · intro x hx hsome vec hvec
    rcases h.live x hx with ⟨hirq, hlt, -, hslot⟩
    have hv : vec = vectorOf x.irq := by
      refine Fin.ext ?_
      rw [val_vectorOf, hvec, Nat.mod_eq_of_lt (hvec ▸ vec.isLt)]
    -- the vector is not that of system calls
    have hslotvec : IsSlotVector vec := by
      refine ⟨?_, ?_⟩
      · change 32 ≤ (vec : ℕ)
        omega
      · intro h80
        have hval : (vec : ℕ) = 0x80 := congrArg Fin.val h80
        exact (hA _ hirq hlt).1 (by omega)
    rw [← hv] at hslot
    exact ⟨_, isrHandler_slot hslotvec hslot, State.calls_called _ hsome⟩
  · intro x hx vec hvec
    rcases h.live x hx with ⟨hirq, hlt, -, hslot⟩
    rcases isrHandler_cases vec S.state with hsame | ⟨c, hslotvec, hc, hrun⟩
    · rw [hsame]
    · rw [hrun]
      refine State.count_called _ ?_
      rintro rfl
      -- the slot is that of the irq, which was cut off
      have hv : vec = vectorOf x.irq := h.inj _ _ _ hc hslot
      have hval : (vec : ℕ) = (x.irq + 0x20) % 256 := congrArg Fin.val hv
      refine (hA _ hirq hlt).2.1 ?_ (hv ▸ hslotvec)
      omega
  · intro y hy z hz hne heq
    rcases h.yielded y hy with ⟨hyA, hylt, hyv⟩
    rcases h.yielded z hz with ⟨hzA, hzlt, hzv⟩
    have hv : vectorOf y.1 = vectorOf z.1 := Fin.ext (by rw [← hyv, ← hzv, heq])
    exact (hA _ hzA hzlt).2.2 _ hyA hylt hne hv
  · intro irq hirq handler ctx s' hrun
    rcases refused_inv hrun with ⟨hlt, ⟨c, hc⟩, -⟩
    rcases h.slots _ c hc with ⟨x, hx, hv, -⟩
    refine ⟨x, hx, ?_⟩
    rcases h.live x hx with ⟨hxA, hxlt, -⟩
    by_contra hne
    exact (hA _ hirq hlt).2.2 _ hxA hxlt hne hv

/-- The session after one installation, of a handler that is not null. -/
def Session.single (irq : ℕ) : Session :=
  ⟨Session.start.state.install irq (some 0) 0, [⟨irq, vectorOf irq, ⟨some 0, 0, 0⟩⟩],
    [(irq, vectorOf irq)]⟩

theorem Session.single_reached {irq : ℕ} (hirq : irq ∈ A) (hlt : irq + 0x20 < 2 ^ 32) :
    Relation.ReflTransGen (Session.Step A) Session.start (Session.single irq) := by
  refine Relation.ReflTransGen.single ⟨.install irq (some 0) 0, hirq, .installed ?_⟩
  exact install_run hlt

/-- The closure of the one installation. -/
theorem Session.single_slot (irq : ℕ) :
    (Session.single irq).state.handlers (vectorOf irq) = some ⟨some 0, 0, 0⟩ :=
  installHandler_self _ _ _

/-- Every run with irqs of `A` is served if and only if the irqs are compatible. -/
theorem served_iff (A : Set ℕ) :
    (∀ S, Relation.ReflTransGen (Session.Step A) Session.start S → S.Served A) ↔
      Compatible A := by
  constructor
  · intro hall irq hirq hlt
    have hserved := hall _ (Session.single_reached hirq hlt)
    have hmem : ⟨irq, vectorOf irq, ⟨some 0, 0, 0⟩⟩ ∈ (Session.single irq).live :=
      List.mem_cons_self
    refine ⟨?_, ?_, ?_⟩
    · -- an interrupt `0x80` calls nothing
      rintro rfl
      rcases hserved.runs _ hmem rfl 0x80 rfl with ⟨s', hrun, hcalls⟩
      cases hrun
      cases hcalls
    · -- the interrupt that the irq was cut off to calls the handler
      intro hle hslot
      have hne : (vectorOf irq : ℕ) ≠ irq + 0x20 := by
        have hlt256 := (vectorOf irq).isLt
        omega
      have hcount := hserved.others _ hmem (vectorOf irq) hne
      rw [isrHandler_slot hslot (Session.single_slot irq)] at hcount
      cases hcount
    · -- another irq of the same vector is refused
      intro irq' hirq' hlt' hne heq
      have hinst :
          isHandlerInstalled (Session.single irq).state.handlers (vectorOf irq') = true := by
        unfold isHandlerInstalled
        rw [heq, Session.single_slot]
        rfl
      have hrun : (uacpiKernelInstallInterruptHandler irq' none 0).run (Session.single irq).state =
          .ok (.alreadyExists, none) (Session.single irq).state := by
        rw [install_run hlt', if_pos hinst]
      rcases hserved.refusals irq' hirq' _ _ _ hrun with ⟨x, hx, hxirq⟩
      cases List.mem_singleton.1 hx
      exact hne hxirq.symm
  · exact fun hA S hrun => (Session.filled_of_run hrun).served hA

end

/-- The handler of irq `0x60` is installed, and the interrupt `0x80` does not call it. Irqs `1`
and `0x101` share a vector: the second is refused while the first is installed. -/
theorem unserved_irqs :
    (Relation.ReflTransGen (Session.Step {irq | irq < 2 ^ 32}) Session.start
        (Session.single 0x60) ∧
      (isrHandler 0x80).run (Session.single 0x60).state = .ok () (Session.single 0x60).state ∧
      ¬ (Session.single 0x60).Served {irq | irq < 2 ^ 32}) ∧
    Relation.ReflTransGen (Session.Step {irq | irq < 2 ^ 32}) Session.start (Session.single 1) ∧
      (uacpiKernelInstallInterruptHandler 0x101 none 0).run (Session.single 1).state =
        .ok (.alreadyExists, none) (Session.single 1).state ∧
      ¬ (Session.single 1).Served {irq | irq < 2 ^ 32} := by
  have hquiet : (isrHandler 0x80).run (Session.single 0x60).state =
      .ok () (Session.single 0x60).state := rfl
  have hrefused : (uacpiKernelInstallInterruptHandler 0x101 none 0).run (Session.single 1).state =
      .ok (.alreadyExists, none) (Session.single 1).state := rfl
  refine ⟨⟨Session.single_reached (by simp) (by decide), hquiet, ?_⟩,
    Session.single_reached (by simp) (by decide), hrefused, ?_⟩
  · intro hserved
    rcases hserved.runs _ List.mem_cons_self rfl 0x80 rfl with ⟨s', hrun, hcalls⟩
    cases hquiet.symm.trans hrun
    cases hcalls
  · intro hserved
    rcases hserved.refusals 0x101 (by simp) none 0 _ hrefused with ⟨x, hx, hirq⟩
    cases List.mem_singleton.1 hx
    cases hirq

end Prometheos.Idt
