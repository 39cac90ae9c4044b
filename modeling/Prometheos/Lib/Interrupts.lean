import Mathlib.Data.List.Flatten
import Mathlib.Data.List.Nodup
import Prometheos.Lib.Prog

/-!
# Code that can be interrupted

One processor executes one instruction at a time. While its interrupt flag is set, an
interrupt may come before any instruction: the code that runs is laid aside, the flag is
cleared, and the code of a handler runs; when that has finished, the code laid aside goes on,
with the flag set as it was.

What a code is, its instructions and its memory are arbitrary (`System`). Codes own resources,
such as the locks they hold (`Ownership`). An instruction takes a resource that nobody owns,
gives one back, or neither (`Move`), and leaves what guards the resources of others as it is.
Under these laws (`Lawful`) the books are kept along every run, however the interrupts fall
(`Balanced`, `Step.balanced`): no resource has two owners, and the memory shows as taken just
those that are owned.
-/

namespace Interrupts

/-- A processor: its memory, its interrupt flag, the code that runs, and the codes that were
interrupted, the latest first. -/
structure Cpu (φ σ : Type) where
  mem : σ
  enabled : Bool
  running : φ
  interrupted : List φ

/-- All codes on the processor. -/
def Cpu.frames {φ σ : Type} (c : Cpu φ σ) : List φ := c.running :: c.interrupted

/-- What a processor can run: an instruction of a code, the codes with which the handler of an
interrupt may begin, and when a handler has finished. -/
structure System (φ σ κ : Type) where
  exec : φ → Bool → σ → φ → Bool → σ → Prop
  handler : κ → φ → Prop
  finished : φ → Prop

/-- What happens in a step. -/
inductive Event (κ : Type) where
  | exec
  | interrupt (v : κ)
  | iret

variable {φ σ κ Λ γ : Type}

/-- One step of a processor. -/
inductive Step (S : System φ σ κ) : Event κ → Cpu φ σ → Cpu φ σ → Prop
  | exec {m m' : σ} {e e' : Bool} {f f' : φ} {fs : List φ} :
      S.exec f e m f' e' m' → Step S .exec ⟨m, e, f, fs⟩ ⟨m', e', f', fs⟩
  | interrupt {m : σ} {f h : φ} {fs : List φ} {v : κ} :
      S.handler v h → Step S (.interrupt v) ⟨m, true, f, fs⟩ ⟨m, false, h, f :: fs⟩
  | iret {m : σ} {e : Bool} {f h : φ} {fs : List φ} :
      S.finished h → Step S .iret ⟨m, e, h, f :: fs⟩ ⟨m, true, f, fs⟩

/-- A step that meets the condition `C`. -/
def StepWhere (S : System φ σ κ) (C : Cpu φ σ → Event κ → Prop) (c c' : Cpu φ σ) : Prop :=
  ∃ ev, C c ev ∧ Step S ev c c'

/-- A run of steps that meet the condition `C`. -/
def Reach (S : System φ σ κ) (C : Cpu φ σ → Event κ → Prop) : Cpu φ σ → Cpu φ σ → Prop :=
  Relation.ReflTransGen (StepWhere S C)

/-- What holds at the start and is kept by every step holds along the run. -/
theorem Reach.invariant {S : System φ σ κ} {C : Cpu φ σ → Event κ → Prop} {c c' : Cpu φ σ}
    {I : Cpu φ σ → Prop} (hstep : ∀ c ev c', C c ev → Step S ev c c' → I c → I c')
    (hrun : Reach S C c c') (hc : I c) : I c' := by
  refine reach_invariant ?_ hrun hc
  rintro d d' ⟨ev, hC, hd⟩ hI
  exact hstep d ev d' hC hd hI

/-- What the beginning of every handler has, and every instruction keeps, all codes have. -/
theorem Step.forall_frames {S : System φ σ κ} {C : Cpu φ σ → Event κ → Prop} {P : φ → Prop}
    (hexec : ∀ c f' e' m', C c .exec → S.exec c.running c.enabled c.mem f' e' m' →
      P c.running → P f') (hhandler : ∀ v h, S.handler v h → P h) {c c' : Cpu φ σ}
    {ev : Event κ} (hC : C c ev) (h : Step S ev c c') (hP : ∀ f ∈ c.frames, P f) :
    ∀ f ∈ c'.frames, P f := by
  intro g hg
  cases h with
  | exec hrun =>
      rcases List.mem_cons.1 hg with rfl | hg
      · exact hexec _ _ _ _ hC hrun (hP _ List.mem_cons_self)
      · exact hP g (List.mem_cons_of_mem _ hg)
  | interrupt hh =>
      rcases List.mem_cons.1 hg with rfl | hg
      · exact hhandler _ _ hh
      · exact hP g hg
  | iret _ => exact hP g (List.mem_cons_of_mem _ hg)

/-! ## Resources -/

/-- What codes own: the resources that a code holds, the latest first; the resources that the
memory shows as taken; what is stored with a resource, for its owner; and what is known of a
code, its flag and the memory. -/
structure Ownership (φ σ Λ γ : Type) where
  held : φ → List Λ
  taken : σ → Λ → Prop
  content : σ → Λ → γ
  fits : φ → Bool → σ → Prop

namespace Ownership

variable (O : Ownership φ σ Λ γ)

/-- How an instruction may change what is owned. -/
inductive Move (f : φ) (m : σ) (f' : φ) (m' : σ) : Prop
  | keep : O.held f' = O.held f → (∀ l, O.taken m' l ↔ O.taken m l) → Move f m f' m'
  | take (l : Λ) : ¬ O.taken m l → O.held f' = l :: O.held f →
      (∀ l', O.taken m' l' ↔ l' = l ∨ O.taken m l') → Move f m f' m'
  | give (l : Λ) : O.held f = l :: O.held f' →
      (∀ l', O.taken m' l' ↔ O.taken m l' ∧ l' ≠ l) → Move f m f' m'

/-- The laws. -/
structure Lawful (S : System φ σ κ) : Prop where
  exec_fits {f f' : φ} {e e' : Bool} {m m' : σ} : O.fits f e m → (O.held f).Nodup →
    S.exec f e m f' e' m' → O.fits f' e' m'
  exec_move {f f' : φ} {e e' : Bool} {m m' : σ} : O.fits f e m → S.exec f e m f' e' m' →
    O.Move f m f' m'
  exec_content {f f' : φ} {e e' : Bool} {m m' : σ} {l : Λ} : O.fits f e m →
    S.exec f e m f' e' m' → l ∉ O.held f → O.content m' l = O.content m l
  stable {f : φ} {e : Bool} {m m' : σ} : O.fits f e m →
    (∀ l ∈ O.held f, O.content m' l = O.content m l) → O.fits f e m'
  handler_fits {v : κ} {h : φ} (m : σ) : S.handler v h → O.fits h false m
  handler_held {v : κ} {h : φ} : S.handler v h → O.held h = []
  finished_held {h : φ} {e : Bool} {m : σ} : O.fits h e m → S.finished h → O.held h = []

/-- The books: an interrupted code had the flag set. -/
structure Balanced (c : Cpu φ σ) : Prop where
  running : O.fits c.running c.enabled c.mem
  interrupted : ∀ f ∈ c.interrupted, O.fits f true c.mem
  nodup : (c.frames.flatMap O.held).Nodup
  taken_iff : ∀ l, O.taken c.mem l ↔ l ∈ c.frames.flatMap O.held

variable {O}

theorem Balanced.nodup_running {c : Cpu φ σ} (h : O.Balanced c) : (O.held c.running).Nodup :=
  (List.nodup_append.1 h.nodup).1

/-- Nobody else owns what the running code owns. -/
theorem Balanced.notMem_running {c : Cpu φ σ} (h : O.Balanced c) {f : φ}
    (hf : f ∈ c.interrupted) {l : Λ} (hl : l ∈ O.held f) : l ∉ O.held c.running := by
  intro hrun
  have hrest : l ∈ c.interrupted.flatMap O.held := List.mem_flatMap.2 ⟨f, hf, hl⟩
  exact (List.nodup_append.1 h.nodup).2.2 l hrun l hrest rfl

/-- A resource that nobody owns can be added, and the one that was taken last removed. -/
theorem Move.books {f f' : φ} {m m' : σ} (h : O.Move f m f' m') {rest : List Λ}
    (hnodup : (O.held f ++ rest).Nodup) (htaken : ∀ l, O.taken m l ↔ l ∈ O.held f ++ rest) :
    (O.held f' ++ rest).Nodup ∧ ∀ l, O.taken m' l ↔ l ∈ O.held f' ++ rest := by
  cases h with
  | keep hheld hm =>
      rw [hheld]
      exact ⟨hnodup, fun l => (hm l).trans (htaken l)⟩
  | take l hfree hheld hm =>
      rw [hheld]
      refine ⟨List.nodup_cons.2 ⟨fun hl => hfree ((htaken l).2 hl), hnodup⟩, ?_⟩
      intro l'
      rw [hm l', htaken l', List.cons_append, List.mem_cons]
  | give l hheld hm =>
      rw [hheld] at hnodup htaken
      rcases List.nodup_cons.1 hnodup with ⟨hl, hrest⟩
      refine ⟨hrest, ?_⟩
      intro l'
      rw [hm l', htaken l', List.cons_append, List.mem_cons]
      constructor
      · rintro ⟨hmem | hmem, hne⟩
        · exact absurd hmem hne
        · exact hmem
      · intro hmem
        refine ⟨Or.inr hmem, ?_⟩
        rintro rfl
        exact hl hmem

/-- Every step keeps the books. -/
theorem Step.balanced {S : System φ σ κ} (hS : O.Lawful S) {ev : Event κ} {c c' : Cpu φ σ}
    (h : Step S ev c c') (hc : O.Balanced c) : O.Balanced c' := by
  cases h with
  | exec hexec =>
      have hbooks := (hS.exec_move hc.running hexec).books hc.nodup hc.taken_iff
      refine ⟨hS.exec_fits hc.running hc.nodup_running hexec, ?_, hbooks.1, hbooks.2⟩
      -- what guards the resources of the others is as before
      intro g hg
      refine hS.stable (hc.interrupted g hg) ?_
      intro l hl
      exact hS.exec_content hc.running hexec (hc.notMem_running hg hl)
  | @interrupt m f h fs v hh =>
      have hframes : (h :: f :: fs).flatMap O.held = (f :: fs).flatMap O.held := by
        rw [List.flatMap_cons, hS.handler_held hh, List.nil_append]
      refine ⟨hS.handler_fits _ hh, ?_, hframes ▸ hc.nodup, fun l => hframes ▸ hc.taken_iff l⟩
      -- an interrupt comes only when the flag is set
      intro g hg
      rcases List.mem_cons.1 hg with rfl | hg
      · exact hc.running
      · exact hc.interrupted g hg
  | @iret m e f h fs hh =>
      have hframes : (h :: f :: fs).flatMap O.held = (f :: fs).flatMap O.held := by
        rw [List.flatMap_cons, hS.finished_held hc.running hh, List.nil_append]
      refine ⟨hc.interrupted f List.mem_cons_self, ?_, hframes ▸ hc.nodup,
        fun l => hframes ▸ hc.taken_iff l⟩
      exact fun g hg => hc.interrupted g (List.mem_cons_of_mem _ hg)

/-- Every run keeps the books. -/
theorem Reach.balanced {S : System φ σ κ} (hS : O.Lawful S) {C : Cpu φ σ → Event κ → Prop}
    {c c' : Cpu φ σ} (hrun : Reach S C c c') (hc : O.Balanced c) : O.Balanced c' :=
  Reach.invariant (fun _ _ _ _ hstep hI => Step.balanced hS hstep hI) hrun hc

end Ownership

end Interrupts
