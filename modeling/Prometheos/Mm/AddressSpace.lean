import Prometheos.Lib.Simulation
import Prometheos.Mm.Runs

/-!
# The address space of the kernel

The virtual memory manager, with the heap and its clients at work on the same memory, is an
address space: `address_space_refined` says that whatever its callers see in a run, they see in a
run of the abstract `Vmm.Space`, to which the heap and its clients do nothing at all.

* `tables_needed`: in every run the tables are those that the pages need, `map` fails for lack of
  memory exactly if there are fewer free frames than tables missing, and the calls take and give
  back just these;
* `direct_map_kept`: the direct map, through which the kernel reaches its tables and its heap,
  stays as long as nobody unmaps it.
-/

namespace Prometheos

/-! ## What callers see -/

namespace Vmm

open Simulation

/-- A call of the virtual memory manager and what it returned. -/
inductive Answer where
  | map (virt phys : ℕ) (flags : PTFlags) (size : PageSize) (r : Except MapError Unit)
  | unmap (virt : ℕ) (size : PageSize) (r : Except UnmapError Unit)
  | mapRange (virt phys pages : ℕ) (flags : PTFlags) (size : PageSize) (r : Except MapError Unit)
  | unmapRange (virt pages : ℕ) (size : PageSize) (r : Except UnmapError Unit)
  | translate (virt : ℕ) (r : Option (ℕ × PTFlags))

/-- The answers of an address space. -/
inductive Space.Acts (A : Space) : Option Answer → Space → Prop
  | map {virt phys : ℕ} {flags : PTFlags} {size : PageSize} {r : Except MapError Unit} {B : Space} :
      A.Map virt phys flags size r B → Acts A (some (.map virt phys flags size r)) B
  | unmap {virt : ℕ} {size : PageSize} {r : Except UnmapError Unit} {B : Space} :
      A.Unmap virt size r B → Acts A (some (.unmap virt size r)) B
  | mapRange {virt phys pages : ℕ} {flags : PTFlags} {size : PageSize} {r : Except MapError Unit}
      {B : Space} : A.MapRange virt phys pages flags size r B →
      Acts A (some (.mapRange virt phys pages flags size r)) B
  | unmapRange {virt pages : ℕ} {size : PageSize} {r : Except UnmapError Unit} {B : Space} :
      A.UnmapRange virt pages size r B → Acts A (some (.unmapRange virt pages size r)) B
  | translate {virt : ℕ} {r : Option (ℕ × PTFlags)} : (∀ x, r = some x ↔ A.Translates virt x) →
      Acts A (some (.translate virt r)) A

/-- The addresses that the call is to unmap. -/
def Answer.clears : Answer → Set ℕ
  | .unmap virt size _ => {a | InPage virt size a}
  | .unmapRange virt pages size _ => {a | virt ≤ a ∧ a < virt + pages * size.bytes}
  | .map .. => ∅
  | .mapRange .. => ∅
  | .translate .. => ∅

section

variable {A B : Space} {a virt phys : ℕ} {x : ℕ × PTFlags} {flags : PTFlags} {size : PageSize}

/-- A page that is added overlaps with none, and takes no other away. -/
theorem Space.Map.translates {r : Except MapError Unit} (h : A.Map virt phys flags size r B)
    (hx : A.Translates a x) : B.Translates a x := by
  cases h with
  | mapped P given hfree _ _ _ _ =>
      obtain ⟨Q, y, hQ, ha, rfl⟩ := hx
      refine ⟨Q, y, ?_, ha, rfl⟩
      have hmapped : A.pages Q ≠ none := by
        rw [hQ]
        exact Option.some_ne_none y
      have hne : Q ≠ P := by
        rintro rfl
        exact Set.disjoint_left.1 (hfree Q hmapped) ha ha
      change Function.update A.pages P _ Q = some y
      rw [Function.update_of_ne hne, hQ]
  | nonCanonical _ => exact hx
  | misaligned _ _ => exact hx
  | alreadyMapped P _ _ _ _ => exact hx
  | outOfMemory P _ _ _ _ => exact hx

/-- A page that is taken away does not take others with it. -/
theorem Space.Unmap.translates {r : Except UnmapError Unit} (h : A.Unmap virt size r B)
    (hx : A.Translates a x) (ha : ¬ InPage virt size a) : B.Translates a x := by
  cases h with
  | unmapped P hstart hsize _ =>
      subst hstart
      subst hsize
      obtain ⟨Q, y, hQ, haQ, rfl⟩ := hx
      refine ⟨Q, y, ?_, haQ, rfl⟩
      have hne : Q ≠ P := by
        rintro rfl
        exact ha haQ
      change Function.update A.pages P none Q = some y
      rw [Function.update_of_ne hne, hQ]
  | nonCanonical _ => exact hx
  | misaligned _ _ => exact hx
  | notMapped P _ _ _ => exact hx

/-- What every turn keeps. -/
theorem Space.Turns.translates {turn : ℕ → Space → Space → Prop} {n : ℕ} (h : Turns turn A n B)
    (hturn : ∀ j < n, ∀ C D : Space, turn j C D → C.Translates a x → D.Translates a x)
    (hx : A.Translates a x) : B.Translates a x := by
  induction h with
  | zero => exact hx
  | succ _ hstep ih =>
      refine hturn _ (Nat.lt_succ_self _) _ _ hstep (ih ?_)
      intro j hj
      exact hturn j (hj.trans (Nat.lt_succ_self _))

/-- What is translated stays so, unless it is unmapped. -/
theorem Space.Acts.translates {o : Option Answer} (h : A.Acts o B) (hx : A.Translates a x)
    (ha : ∀ e, o = some e → a ∉ e.clears) : B.Translates a x := by
  cases h with
  | map hmap => exact hmap.translates hx
  | unmap hunmap => exact hunmap.translates hx (ha _ rfl)
  | mapRange hrange =>
      obtain ⟨-, hturns⟩ | ⟨e, -, rfl, -⟩ := hrange
      · exact hturns.translates (fun _ _ _ _ hmap => hmap.translates) hx
      · exact hx
  | unmapRange hrange =>
      rename_i virt pages size r
      have hout : ∀ j < pages, ¬ InPage (virt + j * size.bytes) size a := by
        intro j hj hin
        exact ha _ rfl (inPage_range_iff.1 ⟨j, hj, hin⟩)
      obtain ⟨-, hturns⟩ | ⟨e, -, j, hj, hturns, -⟩ := hrange
      · exact hturns.translates (fun j hj _ _ hunmap hx => hunmap.translates hx (hout j hj)) hx
      · refine hturns.translates (fun i hi _ _ hunmap hx => hunmap.translates hx ?_) hx
        exact hout i (hi.trans hj)
  | translate _ => exact hx

/-- So it is in whole runs. -/
theorem Space.translates_of_shows {l : List Answer} (h : Shows Space.Acts A l B)
    (ha : ∀ e ∈ l, a ∉ e.clears) (hx : A.Translates a x) : B.Translates a x := by
  induction h with
  | refl => exact hx
  | silent _ hstep ih => exact hstep.translates (ih ha) (fun e he => by cases he)
  | seen _ hstep ih =>
      refine hstep.translates (ih fun e he => ha e (List.mem_append_left _ he)) ?_
      intro e he
      cases he
      exact ha _ (List.mem_append_right _ (List.mem_singleton_self _))

end

end Vmm

namespace Mm

open Pmm Simulation

/-- The steps of the memory management. Of the heap and its clients nothing is seen here. -/
inductive World.Acts [X86] (w : World) : Option Vmm.Answer → World → Prop
  | heap {w' : World} : w.HeapCall w' → Acts w none w'
  | write {w' : World} : w.Write w' → Acts w none w'
  | map (virt phys : ℕ) (flags : PTFlags) (size : PageSize) {r : Except MapError Unit}
      {k' : Kernel} : (onVmm (Vmm.map virt phys flags size)).run w.kernel = .ok r k' →
      Acts w (some (.map virt phys flags size r)) { w with kernel := k' }
  | unmap (virt : ℕ) (size : PageSize) {r : Except UnmapError Unit} {k' : Kernel} :
      (onVmm (Vmm.unmap virt size)).run w.kernel = .ok r k' →
      Acts w (some (.unmap virt size r)) { w with kernel := k' }
  | mapRange (virt phys pages : ℕ) (flags : PTFlags) (size : PageSize)
      {r : Except MapError Unit} {k' : Kernel} :
      (onVmm (Vmm.mapRange virt phys pages flags size)).run w.kernel = .ok r k' →
      Acts w (some (.mapRange virt phys pages flags size r)) { w with kernel := k' }
  | unmapRange (virt pages : ℕ) (size : PageSize) {r : Except UnmapError Unit} {k' : Kernel} :
      (onVmm (Vmm.unmapRange virt pages size)).run w.kernel = .ok r k' →
      Acts w (some (.unmapRange virt pages size r)) { w with kernel := k' }
  | translate (virt : ℕ) {r : Option (ℕ × PTFlags)} {k' : Kernel} :
      (onVmm (Vmm.translate virt)).run w.kernel = .ok r k' →
      Acts w (some (.translate virt r)) { w with kernel := k' }

/-- The joint invariant, without empty tables. -/
def Tidy (init : List ℕ) (w : World) : Prop :=
  (∃ held free parts, Sound init w held free parts) ∧ Vmm.NoEmpty w.kernel.vm

section

variable {init : List ℕ} {w w' : World}

theorem Tidy.vmm (h : Tidy init w) : Vmm.Tidy init w.heapBlocks w.kernel.vm := by
  obtain ⟨⟨held, free, parts, hS⟩, hno⟩ := h
  exact ⟨⟨held, hS.tree⟩, hno⟩

/-- Tables that were not written to are as full as they were. -/
theorem TablesKept.noEmpty (h : TablesKept w w') (hno : Vmm.NoEmpty w.kernel.vm) :
    Vmm.NoEmpty w'.kernel.vm := by
  intro p n hp hne
  rw [h.tables] at hp
  obtain ⟨i, hi⟩ := hno p n hp hne
  refine ⟨i, ?_⟩
  have hmem : w'.kernel.vm.phys.mem n = w.kernel.vm.phys.mem n := h.mem p n hp
  rw [hmem]
  exact hi

theorem World.HeapCall.tidy (h : w.HeapCall w') (hT : Tidy init w) :
    Tidy init w' ∧ TablesKept w w' := by
  obtain ⟨⟨held, free, parts, hS⟩, hno⟩ := hT
  obtain ⟨free', parts', hK⟩ := h.kept hS
  exact ⟨⟨⟨held, free', parts', hK.sound⟩, hK.tables.noEmpty hno⟩, hK.tables⟩

theorem World.Write.tidy (h : w.Write w') (hT : Tidy init w) :
    Tidy init w' ∧ TablesKept w w' := by
  obtain ⟨⟨held, free, parts, hS⟩, hno⟩ := hT
  obtain ⟨hS', hK⟩ := h.kept hS
  exact ⟨⟨⟨held, free, parts, hS'⟩, hK.noEmpty hno⟩, hK⟩

variable [X86]

theorem TablesKept.spaceOf_eq (h : TablesKept w w') :
    Vmm.spaceOf w'.kernel.vm = Vmm.spaceOf w.kernel.vm :=
  Vmm.spaceOf_congr h.walks

/-- A call of the virtual memory manager stays with its tables. -/
theorem Tidy.setVm_vm (hT : Tidy init w) {v : Vm}
    (hcall : Vmm.World.Call ⟨w.kernel.vm, w.heapBlocks⟩ ⟨v, w.heapBlocks⟩) :
    (w.kernel.setVm v).vm = v := by
  obtain ⟨⟨held, free, parts, hS⟩, -⟩ := hT
  obtain ⟨-, hC⟩ := hcall.confined hS.tree
  exact Kernel.setVm_vm hC.hhdm hC.top

theorem World.VmCall.tidy (h : w.VmCall w') (hT : Tidy init w) : Tidy init w' := by
  obtain ⟨v, rfl, hcall⟩ := h.call
  have hvmm := Vmm.World.Step.tidy (Or.inl hcall) hT.vmm
  obtain ⟨⟨held, free, parts, hS⟩, -⟩ := id hT
  obtain ⟨held', hK⟩ := h.kept hS
  refine ⟨⟨held', free, parts, hK.sound⟩, ?_⟩
  change Vmm.NoEmpty (w.kernel.setVm v).vm
  rw [hT.setVm_vm hcall]
  exact hvmm.2

/-- Every step is a step of the address space, or leaves it as it is. -/
theorem World.Acts.refined {o : Option Vmm.Answer} (h : w.Acts o w') (hT : Tidy init w) :
    Tidy init w' ∧ ((Vmm.spaceOf w.kernel.vm).Acts o (Vmm.spaceOf w'.kernel.vm) ∨
      o = none ∧ Vmm.spaceOf w'.kernel.vm = Vmm.spaceOf w.kernel.vm) := by
  cases h with
  | heap hcall =>
      obtain ⟨hT', hK⟩ := hcall.tidy hT
      exact ⟨hT', .inr ⟨rfl, hK.spaceOf_eq⟩⟩
  | write hwrite =>
      obtain ⟨hT', hK⟩ := hwrite.tidy hT
      exact ⟨hT', .inr ⟨rfl, hK.spaceOf_eq⟩⟩
  | map virt phys flags size hrun =>
      have hT' := World.VmCall.tidy (.map virt phys flags size hrun) hT
      obtain ⟨v, halone, rfl⟩ := Prog.zoom_ok_iff.1 hrun
      refine ⟨hT', .inl (.map ?_)⟩
      rw [hT.setVm_vm (.map virt phys flags size halone)]
      exact Vmm.spaceOf_map hT.vmm halone
  | unmap virt size hrun =>
      have hT' := World.VmCall.tidy (.unmap virt size hrun) hT
      obtain ⟨v, halone, rfl⟩ := Prog.zoom_ok_iff.1 hrun
      refine ⟨hT', .inl (.unmap ?_)⟩
      rw [hT.setVm_vm (.unmap virt size halone)]
      exact Vmm.spaceOf_unmap hT.vmm halone
  | mapRange virt phys pages flags size hrun =>
      have hT' := World.VmCall.tidy (.mapRange virt phys pages flags size hrun) hT
      obtain ⟨v, halone, rfl⟩ := Prog.zoom_ok_iff.1 hrun
      refine ⟨hT', .inl (.mapRange ?_)⟩
      rw [hT.setVm_vm (.mapRange virt phys pages flags size halone)]
      exact Vmm.spaceOf_mapRange hT.vmm halone
  | unmapRange virt pages size hrun =>
      have hT' := World.VmCall.tidy (.unmapRange virt pages size hrun) hT
      obtain ⟨v, halone, rfl⟩ := Prog.zoom_ok_iff.1 hrun
      refine ⟨hT', .inl (.unmapRange ?_)⟩
      rw [hT.setVm_vm (.unmapRange virt pages size halone)]
      exact Vmm.spaceOf_unmapRange hT.vmm halone
  | translate virt hrun =>
      obtain ⟨v, halone, rfl⟩ := Prog.zoom_ok_iff.1 hrun
      obtain ⟨held, hS⟩ := hT.vmm.1
      cases halone.symm.trans (Vmm.translate_spec hS.readable virt)
      exact ⟨hT, .inl (.translate fun x => Vmm.translation_eq_some_iff)⟩

/-- Where the direct map is, and how much memory there is, does not change. -/
theorem World.Acts.layout {o : Option Vmm.Answer} (h : w.Acts o w') (hT : Tidy init w) :
    w'.kernel.hhdmOffset = w.kernel.hhdmOffset ∧
      w'.kernel.phys.pmm.totalFrames = w.kernel.phys.pmm.totalFrames := by
  obtain ⟨⟨held, free, parts, hS⟩, -⟩ := hT
  have hvm : ∀ {w' : World}, w.VmCall w' → w'.kernel.hhdmOffset = w.kernel.hhdmOffset ∧
      w'.kernel.phys.pmm.totalFrames = w.kernel.phys.pmm.totalFrames := by
    intro w' hcall
    obtain ⟨held', hK⟩ := hcall.kept hS
    exact ⟨hK.confined.hhdm, hK.confined.total⟩
  cases h with
  | heap hcall =>
      obtain ⟨free', parts', hK⟩ := hcall.kept hS
      exact ⟨hK.confined.hhdm, hK.confined.total⟩
  | write hwrite =>
      cases hwrite with
      | mk _ => exact ⟨rfl, rfl⟩
  | map virt phys flags size hrun => exact hvm (.map virt phys flags size hrun)
  | unmap virt size hrun => exact hvm (.unmap virt size hrun)
  | mapRange virt phys pages flags size hrun =>
      exact hvm (.mapRange virt phys pages flags size hrun)
  | unmapRange virt pages size hrun => exact hvm (.unmapRange virt pages size hrun)
  | translate virt hrun =>
      obtain ⟨v, halone, rfl⟩ := Prog.zoom_ok_iff.1 hrun
      cases halone.symm.trans (Vmm.translate_spec hS.tree.readable virt)
      exact ⟨rfl, rfl⟩

/-- The tables, seen as an address space. -/
theorem refinement (init : List ℕ) : Refinement World.Acts Vmm.Space.Acts (Tidy init)
    fun w => Vmm.spaceOf w.kernel.vm where
  keeps := fun _ _ _ hstep hT => (hstep.refined hT).1
  steps := fun _ _ _ hstep hT => (hstep.refined hT).2

theorem layout_of_shows {l : List Vmm.Answer} (hrun : Shows World.Acts w l w') (hT : Tidy init w) :
    w'.kernel.hhdmOffset = w.kernel.hhdmOffset ∧
      w'.kernel.phys.pmm.totalFrames = w.kernel.phys.pmm.totalFrames := by
  induction hrun with
  | refl => exact ⟨rfl, rfl⟩
  | silent hst hstep ih =>
      obtain ⟨hhdm, htotal⟩ := hstep.layout ((refinement init).shows hst hT).2
      exact ⟨hhdm.trans ih.1, htotal.trans ih.2⟩
  | seen hst hstep ih =>
      obtain ⟨hhdm, htotal⟩ := hstep.layout ((refinement init).shows hst hT).2
      exact ⟨hhdm.trans ih.1, htotal.trans ih.2⟩

/-- What `translate` finds. -/
theorem Tidy.translate_iff (hT : Tidy init w) {a : ℕ} {x : ℕ × PTFlags} :
    (onVmm (Vmm.translate a)).run w.kernel = .ok (some x) w.kernel ↔
      (Vmm.spaceOf w.kernel.vm).Translates a x := by
  obtain ⟨held, hS⟩ := hT.vmm.1
  have hrun : (onVmm (Vmm.translate a)).run w.kernel =
      .ok (Vmm.translation w.kernel.vm a) w.kernel :=
    Prog.zoom_of_ok (Vmm.translate_spec hS.readable a)
  rw [hrun, ← Vmm.translation_eq_some_iff]
  simp

omit [X86] in
theorem World.Start.tidy (h : w.Start init) (hno : Vmm.NoEmpty w.kernel.vm) : Tidy init w :=
  ⟨⟨init, _, _, h.sound⟩, hno⟩

end

/-! ## A direct map of six frames -/

/-- A large page at 8 MiB becomes the direct map, an object is allocated, and an address that is
not mapped is unmapped. -/
theorem direct_page_run : letI := X86.documented
    ∃ s₁, (addRange 1 5).run sixFrames = .ok () s₁ ∧ ∃ s₂,
      (allocPages 0).run s₁ = .ok (some (1 * frameSize)) s₂ ∧ s₂.pmm.totalFrames = 6 ∧
      s₂.pmm.hhdmOffset = 2 ^ 23 ∧ ∃ k₁,
      (onVmm (Vmm.map (2 ^ 23) 0 ⟨flagRW, rfl⟩ .large)).run (emptyKernel s₂ 1) = .ok (.ok ()) k₁ ∧
      k₁.phys.pmm.totalFrames = 6 ∧ k₁.hhdmOffset = 2 ^ 23 ∧ ∃ p k₂,
      (onHeap (Heap.alloc Heap.kilobyte)).run k₁ = .ok p k₂ ∧ p ≠ 0 ∧ ∃ k₃,
      (onVmm (Vmm.unmap 0 .base)).run k₂ = .ok (.error .notMapped) k₃ := by
  unfold addRange
  unfold addRange
  unfold addRange
  unfold addRange
  exact ⟨_, rfl, _, rfl, rfl, rfl, _, rfl, rfl, rfl, _, _, rfl,
    Nat.ne_of_gt (Nat.le_of_ble_eq_true rfl), _, rfl⟩

/-- The answer of the first call. -/
def directPage : Vmm.Answer := .map (2 ^ 23) 0 ⟨flagRW, rfl⟩ .large (.ok ())

/-- The answer of the last one. -/
def notThere : Vmm.Answer := .unmap 0 .base (.error .notMapped)

theorem direct_page_steps : letI := X86.documented
    ∃ (w₀ w w₁ w' : World) (p : ℕ), w₀.Start [1] ∧ Vmm.NoEmpty w₀.kernel.vm ∧
      w₀.Acts (some directPage) w ∧ w.kernel.phys.pmm.totalFrames = 6 ∧
      w.kernel.hhdmOffset = 2 ^ 23 ∧ w.Acts none w₁ ∧ w₁.Acts (some notThere) w' ∧
      w'.live = [(p, Heap.kilobyte)] := by
  let := X86.documented
  obtain ⟨s₁, hseed, s₂, hroot, htotal, hhdm, k₁, hmap, hsix, hat, p, k₂, halloc, hp, k₃, hunmap⟩ :=
    direct_page_run
  have hvm : (emptyKernel s₂ 1).vm = Vmm.emptyVm s₂ 1 := by
    unfold Kernel.vm emptyKernel Vmm.emptyVm
    rw [hhdm]
  have hno : Vmm.NoEmpty (emptyKernel s₂ 1).vm := by
    rw [hvm]
    exact Vmm.noEmpty_emptyVm s₂ 1
  have hstart := emptyKernel_start hseed hroot htotal hhdm
  -- the kernel is not to be computed again
  generalize emptyKernel s₂ 1 = k₀ at hstart hno hmap
  have hfirst : World.Acts ⟨k₀, [], fun _ => 0⟩ (some directPage) ⟨k₁, [], fun _ => 0⟩ :=
    .map _ _ _ _ hmap
  refine ⟨_, _, _, _, p, hstart, hno, hfirst, hsix, hat,
    .heap (.alloc _ halloc), .unmap _ _ hunmap, ?_⟩
  exact if_neg hp

/-- The virtual memory manager refines an address space, with the heap and its clients on the same
memory: what its callers see in a run, they see in a run of the address space in which the heap
does nothing. -/
theorem address_space_refined [X86] {init : List ℕ} {w₀ w : World} {l : List Vmm.Answer}
    (hstart : w₀.Start init) (hno : Vmm.NoEmpty w₀.kernel.vm) (hrun : Shows World.Acts w₀ l w) :
    Shows Vmm.Space.Acts (Vmm.spaceOf w₀.kernel.vm) l (Vmm.spaceOf w.kernel.vm) :=
  ((refinement init).shows hrun (hstart.tidy hno)).1

/-- The calls of that run are those of an address space. -/
theorem address_space_refined_direct_page : letI := X86.documented
    ∃ w₀ w' : World, w₀.Start [1] ∧ Shows World.Acts w₀ [directPage, notThere] w' ∧
      Shows Vmm.Space.Acts (Vmm.spaceOf w₀.kernel.vm) [directPage, notThere]
        (Vmm.spaceOf w'.kernel.vm) := by
  let := X86.documented
  obtain ⟨w₀, w, w₁, w', p, hstart, hno, hmap, -, -, halloc, hunmap, -⟩ := direct_page_steps
  have hrun := (((Shows.refl).seen hmap).silent halloc).seen hunmap
  exact ⟨w₀, w', hstart, hrun, address_space_refined hstart hno hrun⟩

/-- The tables of every run are those that its pages need, and as many. A page that overlaps with
none cannot be mapped if and only if there are fewer free frames than tables that it needs and no
other page does; otherwise just as many are taken, and an `unmap` gives as many back. -/
theorem tables_needed [X86] {init : List ℕ} {w₀ w : World} {l : List Vmm.Answer}
    (hstart : w₀.Start init) (hno : Vmm.NoEmpty w₀.kernel.vm) (hrun : Shows World.Acts w₀ l w) :
    (∀ p, (∃ f, Vmm.tableAt w.kernel.vm p = some f) ↔ (Vmm.spaceOf w.kernel.vm).Needs p) ∧
    w.tables.ncard = {p | (Vmm.spaceOf w.kernel.vm).Needs p}.ncard ∧
    (∀ (P : Vmm.Page) phys flags r k', phys % P.size.bytes = 0 →
      (Vmm.spaceOf w.kernel.vm).Free P →
      (onVmm (Vmm.map P.start phys flags P.size)).run w.kernel = .ok r k' →
      (r = .error .outOfMemory ↔
        w.kernel.phys.pmm.freeFrames < (Vmm.spaceOf w.kernel.vm).missing P) ∧
      (r = .ok () → k'.phys.pmm.freeFrames + (Vmm.spaceOf w.kernel.vm).missing P =
        w.kernel.phys.pmm.freeFrames)) ∧
    ∀ (P : Vmm.Page) k', (onVmm (Vmm.unmap P.start P.size)).run w.kernel = .ok (.ok ()) k' →
      k'.phys.pmm.freeFrames =
        w.kernel.phys.pmm.freeFrames + (Vmm.spaceOf k'.vm).missing P := by
  have hT := ((refinement init).shows hrun (hstart.tidy hno)).2
  obtain ⟨held, hS⟩ := hT.vmm.1
  refine ⟨fun p => Vmm.tableAt_iff_needs hT.2, ?_, ?_, ?_⟩
  · have htables : w.tables.ncard = held.length := hS.ncard_tables
    rw [htables, hS.ncard_needs hT.2]
  · intro P phys flags r k' hmod hfree hmap
    obtain ⟨v, halone, rfl⟩ := Prog.zoom_ok_iff.1 hmap
    refine ⟨Vmm.map_outOfMemory_iff hT.vmm hmod hfree halone, ?_⟩
    rintro rfl
    exact Vmm.map_takes hT.vmm halone
  · intro P k' hunmap
    obtain ⟨v, halone, rfl⟩ := Prog.zoom_ok_iff.1 hunmap
    rw [hT.setVm_vm (.unmap P.start P.size halone)]
    exact Vmm.unmap_gives hT.vmm halone

/-- At the end of that run there are a PML4, a PDPT and a PD. -/
theorem tables_needed_direct_page : letI := X86.documented
    ∃ w₀ w' : World, w₀.Start [1] ∧ Shows World.Acts w₀ [directPage, notThere] w' ∧
      w'.tables.ncard = {p | (Vmm.spaceOf w'.kernel.vm).Needs p}.ncard := by
  let := X86.documented
  obtain ⟨w₀, w, w₁, w', p, hstart, hno, hmap, -, -, halloc, hunmap, -⟩ := direct_page_steps
  have hrun := (((Shows.refl).seen hmap).silent halloc).seen hunmap
  exact ⟨w₀, w', hstart, hrun, (tables_needed hstart hno hrun).2.1⟩

/-- The direct map stays as long as nobody unmaps a part of it: every frame can be reached through
it, and so can every byte of every live block. -/
theorem direct_map_kept [X86] {init : List ℕ} {w₀ w w' : World} {l₀ l : List Vmm.Answer}
    (hstart : w₀.Start init) (hno : Vmm.NoEmpty w₀.kernel.vm) (hbefore : Shows World.Acts w₀ l₀ w)
    (hdirect : ∀ x < w.kernel.phys.pmm.totalFrames * frameSize, ∃ flags, (onVmm (Vmm.translate
      (w.kernel.hhdmOffset + x))).run w.kernel = .ok (some (x, flags)) w.kernel)
    (hrun : Shows World.Acts w l w')
    (hkeep : ∀ e ∈ l, ∀ a ∈ e.clears, a < w.kernel.hhdmOffset ∨
      w.kernel.hhdmOffset + w.kernel.phys.pmm.totalFrames * frameSize ≤ a) :
    (∀ x < w.kernel.phys.pmm.totalFrames * frameSize, ∃ flags, (onVmm (Vmm.translate
      (w.kernel.hhdmOffset + x))).run w'.kernel = .ok (some (x, flags)) w'.kernel) ∧
    ∀ e ∈ w'.live, ∀ a ∈ Heap.World.span e, ∃ flags, (onVmm (Vmm.translate a)).run w'.kernel =
      .ok (some (a - w.kernel.hhdmOffset, flags)) w'.kernel := by
  have hT := ((refinement init).shows hbefore (hstart.tidy hno)).2
  obtain ⟨hspace, hT'⟩ := (refinement init).shows hrun hT
  obtain ⟨hhdm, htotal⟩ := layout_of_shows hrun hT
  have hstill : ∀ x < w.kernel.phys.pmm.totalFrames * frameSize, ∃ flags, (onVmm (Vmm.translate
      (w.kernel.hhdmOffset + x))).run w'.kernel = .ok (some (x, flags)) w'.kernel := by
    intro x hx
    obtain ⟨flags, hflags⟩ := hdirect x hx
    refine ⟨flags, hT'.translate_iff.2 (Vmm.Space.translates_of_shows hspace ?_
      (hT.translate_iff.1 hflags))⟩
    intro e he hclear
    have hout := hkeep e he _ hclear
    omega
  refine ⟨hstill, ?_⟩
  intro e he a ha
  obtain ⟨⟨held, free, parts, hS⟩, -⟩ := hT'
  have hin : w'.kernel.hhdmOffset ≤ a ∧
      a - w'.kernel.hhdmOffset < w'.kernel.phys.pmm.totalFrames * frameSize :=
    hS.heap.span_direct he ha
  rw [hhdm, htotal] at hin
  obtain ⟨flags, hflags⟩ := hstill _ hin.2
  rw [Nat.add_sub_cancel' hin.1] at hflags
  exact ⟨flags, hflags⟩

/-- The object of that run can be reached through the direct map. -/
theorem direct_map_kept_direct_page : letI := X86.documented
    ∃ (w₀ w' : World) (p : ℕ), w₀.Start [1] ∧ Shows World.Acts w₀ [directPage, notThere] w' ∧
      w'.live = [(p, Heap.kilobyte)] ∧ ∃ flags, (onVmm (Vmm.translate p)).run w'.kernel =
        .ok (some (p - 2 ^ 23, flags)) w'.kernel := by
  obtain ⟨w₀, w, w₁, w', p, hstart, hno, hmap, hsix, hhdm, halloc, hunmap, hlive⟩ :=
    direct_page_steps
  let _ := X86.documented
  have hbefore : Shows World.Acts w₀ [directPage] w := Shows.refl.seen hmap
  have hrun : Shows World.Acts w [notThere] w' := (Shows.refl.silent halloc).seen hunmap
  obtain ⟨hT, hpage | ⟨hsilent, -⟩⟩ := hmap.refined (hstart.tidy hno)
  swap
  · cases hsilent
  have hdirect : ∀ x < w.kernel.phys.pmm.totalFrames * frameSize, ∃ flags, (onVmm (Vmm.translate
      (w.kernel.hhdmOffset + x))).run w.kernel = .ok (some (x, flags)) w.kernel := by
    intro x hx
    rw [hsix] at hx
    unfold directPage at hpage
    generalize hB : Vmm.spaceOf w.kernel.vm = B at hpage
    cases hpage with
    | map hmapped =>
        cases hmapped with
        | mapped P given hfree hat hsize _ _ =>
            refine ⟨given, hT.translate_iff.2 ⟨P, (0, given), ?_, ?_, ?_⟩⟩
            · rw [hB]
              exact Function.update_self ..
            · change Vmm.InPage P.start P.size _
              rw [hat, hsize, hhdm]
              unfold frameSize at hx
              exact ⟨Nat.le_add_right _ _, Nat.add_lt_add_left (by simp [PageSize.bytes]; omega) _⟩
            · rw [hat, hhdm, Nat.add_sub_cancel_left]
              simp
  have hkeep : ∀ e ∈ [notThere], ∀ a ∈ e.clears, a < w.kernel.hhdmOffset ∨
      w.kernel.hhdmOffset + w.kernel.phys.pmm.totalFrames * frameSize ≤ a := by
    intro e he a ha
    rw [List.mem_singleton.1 he] at ha
    left
    rw [hhdm]
    exact lt_of_lt_of_le ha.2 (by decide)
  have hkept := direct_map_kept hstart hno hbefore hdirect hrun hkeep
  refine ⟨w₀, w', p, hstart, ((hbefore.silent halloc).seen hunmap), hlive, ?_⟩
  have he : (p, Heap.kilobyte) ∈ w'.live := by
    rw [hlive]
    exact List.mem_singleton_self _
  have hp := hkept.2 _ he p ⟨le_refl p, Nat.lt_add_of_pos_right (by decide : 0 < 1024)⟩
  rw [hhdm] at hp
  exact hp

end Mm

end Prometheos
