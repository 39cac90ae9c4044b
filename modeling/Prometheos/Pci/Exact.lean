import Prometheos.Lib.Walks
import Prometheos.Pci.Window

/-!
# What the enumeration finds

`enum_bus` follows every bridge without marking where it has been. With room for `depth` nested
calls it ends if and only if no walk along the bridges has `depth` steps, and then it has
appended the functions `listBus` (`enumBus_lists`). So it terminates unless a cycle of bridges
can be reached (`enumBus_terminates_iff`); a bridge whose secondary bus was never set, on bus 0,
is such a cycle (`unconfigured_bridge_diverges`). Where buses are numbered as the firmware is
expected to do, each function that can be reached is found once (`enumBus_exact`). What is
dereferenced for it lies in the window if the buses that bridges lead to do
(`ecam_in_window_iff`).
-/

namespace Prometheos.Pci

open Relation (ReflTransGen TransGen)
open Walks (Far ReachesCycle)

/-! ## The functions of a machine -/

instance (s : Config) (a : PciAddress) : Decidable (Present s a) :=
  inferInstanceAs (Decidable (_ ≠ _))

instance (s : Config) (a : PciAddress) : Decidable (LookedAt s a) :=
  inferInstanceAs (Decidable (_ ∨ _ ∧ _))

/-- The function is one that `enum_device` appends. -/
def Listed (c : Config) (a : PciAddress) : Prop := LookedAt c a ∧ Present c a

instance (c : Config) (a : PciAddress) : Decidable (Listed c a) :=
  inferInstanceAs (Decidable (_ ∧ _))

/-- Function 0 of the device is present and has the multifunction bit. -/
def Multifunction (c : Config) (a : PciAddress) : Prop :=
  Present c ⟨a.bus, a.device, 0⟩ ∧
    headerByte (register c ⟨a.bus, a.device, 0⟩ 0x0C) &&& 0x80 ≠ 0

/-- The function is a bridge that `enum_device` follows. -/
structure Bridge (c : Config) (a : PciAddress) : Prop where
  device : a.device < 32
  function : a.function < 8
  listed : Listed c a
  bridge : IsBridge (register c a 0x08) (register c a 0x0C)

/-- The bus behind a bridge. -/
def secondary (c : Config) (a : PciAddress) : ℕ := secondaryBus (register c a 0x18)

theorem leads_iff {c : Config} {b b' : ℕ} :
    Leads c b b' ↔ ∃ a : PciAddress, a.bus = b ∧ Bridge c a ∧ b' = secondary c a := by
  constructor
  · rintro ⟨a, hbus, hdevice, hfunction, hlook, hpresent, hbridge, hb'⟩
    exact ⟨a, hbus, ⟨hdevice, hfunction, ⟨hlook, hpresent⟩, hbridge⟩, hb'⟩
  · rintro ⟨a, hbus, h, hb'⟩
    exact ⟨a, hbus, h.device, h.function, h.listed.1, h.listed.2, h.bridge, hb'⟩

theorem secondary_lt (c : Config) (a : PciAddress) : secondary c a < 256 :=
  Nat.mod_lt _ (by decide)

/-- The functions that a bus has room for, in the order of the enumeration. -/
def functions (bus : ℕ) : List PciAddress :=
  (List.range 32).flatMap fun device => (List.range 8).map fun function => ⟨bus, device, function⟩

theorem mem_functions {bus : ℕ} {a : PciAddress} :
    a ∈ functions bus ↔ a.bus = bus ∧ a.device < 32 ∧ a.function < 8 := by
  unfold functions
  simp only [List.mem_flatMap, List.mem_map, List.mem_range]
  constructor
  · rintro ⟨device, hdevice, function, hfunction, rfl⟩
    exact ⟨rfl, hdevice, hfunction⟩
  · rintro ⟨rfl, hdevice, hfunction⟩
    exact ⟨a.device, hdevice, a.function, hfunction, rfl⟩

theorem nodup_functions (bus : ℕ) : (functions bus).Nodup := by
  unfold functions
  rw [List.nodup_flatMap]
  constructor
  · intro device _
    refine List.nodup_range.map ?_
    intro f f' h
    cases h
    rfl
  · refine List.nodup_range.imp ?_
    intro device device' hne a ha ha'
    rcases List.mem_map.1 ha with ⟨f, -, rfl⟩
    rcases List.mem_map.1 ha' with ⟨f', -, h⟩
    cases h
    exact hne rfl

/-- What is listed for a function, when `below` is listed for the bus behind it. -/
def listFunction (c : Config) (below : ℕ → List PciAddress) (a : PciAddress) : List PciAddress :=
  if Listed c a then
    a :: if IsBridge (register c a 0x08) (register c a 0x0C) then below (secondary c a) else []
  else []

/-- What `enum_bus` is to append, following at most `depth` bridges in a row. -/
def listBus (c : Config) : ℕ → ℕ → List PciAddress
  | 0, _ => []
  | depth + 1, bus => (functions bus).flatMap (listFunction c (listBus c depth))

/-! ## Runs that append -/

/-- The machine answers in `s` as in `c`. -/
structure Answers (c s : Config) : Prop where
  mcfg : s.mcfgAddress = c.mcfgAddress
  memory : s.memory = c.memory
  ports : s.ports = c.ports

theorem Answers.register_eq {c s : Config} (h : Answers c s) (a : PciAddress) (offset : ℕ) :
    register s a offset = register c a offset := by
  unfold register
  rw [h.mcfg, h.memory, h.ports]

/-- The configuration space of every bus that is reached lies below `2 ^ 64`, if it is read
through memory. -/
def Addressable (c : Config) (start : ℕ) : Prop :=
  c.mcfgAddress ≠ 0 → ∀ b, ReflTransGen (Leads c) start b →
    c.mcfgAddress + (b + 1) * 2 ^ 20 ≤ 2 ^ 64

/-- What the program does on the machine `c`: if `fits`, it ends, has appended `l` to the functions
and was on the buses `m`; otherwise the stack overflows. -/
def Lists (c : Config) (fits : Prop) (x : Run Config Unit) (l : List PciAddress) (m : Set ℕ) :
    Prop :=
  ∀ s, Answers c s →
    (fits → ∃ s', x.run s = .ok () s' ∧ Answers c s' ∧ s'.devices = s.devices ++ l ∧
      {b | b ∈ s.scanned} ∪ m ⊆ {b | b ∈ s'.scanned}) ∧
    (¬ fits → ∃ s', x.run s = .stop (.undefined "stack overflow") s')

section

variable {c : Config} {p q : Prop} {x y : Run Config Unit} {l l' : List PciAddress}
  {m m' : Set ℕ}

theorem Lists.congr (h : Lists c p x l m) (hpq : q ↔ p) (hl : l' = l) (hm : m' = m) :
    Lists c q x l' m' := by
  rw [propext hpq, hl, hm]
  exact h

theorem lists_pure (c : Config) : Lists c True (pure ()) [] ∅ := by
  intro s hs
  refine ⟨fun _ => ⟨s, rfl, hs, (List.append_nil _).symm, ?_⟩, fun h => absurd trivial h⟩
  rw [Set.union_empty]

theorem Lists.seq (hx : Lists c p x l m) (hy : Lists c q y l' m') :
    Lists c (p ∧ q) (x >>= fun _ => y) (l ++ l') (m ∪ m') := by
  intro s hs
  by_cases hp : p
  · rcases (hx s hs).1 hp with ⟨s₁, hrun, hs₁, hdev, hbuses⟩
    rw [Prog.bind_of_ok hrun]
    refine ⟨?_, ?_⟩
    · rintro ⟨-, hq⟩
      rcases (hy s₁ hs₁).1 hq with ⟨s', hrun', hs', hdev', hbuses'⟩
      refine ⟨s', hrun', hs', ?_, ?_⟩
      · rw [hdev', hdev, List.append_assoc]
      · rw [← Set.union_assoc]
        exact (Set.union_subset_union_left m' hbuses).trans hbuses'
    · intro hpq
      exact (hy s₁ hs₁).2 fun hq => hpq ⟨hp, hq⟩
  · rcases (hx s hs).2 hp with ⟨s', hrun⟩
    refine ⟨fun h => absurd h.1 hp, fun _ => ⟨s', Prog.bind_of_stop hrun⟩⟩

/-- An update that leaves what the machine answers. -/
theorem Lists.update {f : Config → Config} (hf : ∀ s, Answers c s → Answers c (f s))
    (hdev : ∀ s, (f s).devices = s.devices ++ l)
    (hbuses : ∀ s, {b | b ∈ s.scanned} ∪ m ⊆ {b | b ∈ (f s).scanned}) (hy : Lists c q y l' m') :
    Lists c q (Prog.update f >>= fun _ => y) (l ++ l') (m ∪ m') := by
  have hupdate : Lists c True (Prog.update f) l m :=
    fun s hs => ⟨fun _ => ⟨f s, rfl, hf s hs, hdev s, hbuses s⟩, fun h => absurd trivial h⟩
  exact (hupdate.seq hy).congr (true_and q).to_iff.symm rfl rfl

theorem biUnion_mem_cons {ι : Type} (buses : ι → Set ℕ) (i : ι) (is : List ι) :
    ⋃ j ∈ i :: is, buses j = buses i ∪ ⋃ j ∈ is, buses j := by
  ext b
  simp

/-- The loop over a list. -/
theorem lists_forM {ι : Type} {is : List ι} {f : ι → Run Config PUnit} {fits : ι → Prop}
    {found : ι → List PciAddress} {buses : ι → Set ℕ}
    (h : ∀ i ∈ is, Lists c (fits i) (f i) (found i) (buses i)) :
    Lists c (∀ i ∈ is, fits i) (is.forM f) (is.flatMap found) (⋃ i ∈ is, buses i) := by
  induction is with
  | nil => exact (lists_pure c).congr (by simp) rfl (by simp)
  | cons i is ih =>
      have hrest := ih fun j hj => h j (List.mem_cons_of_mem _ hj)
      exact ((h i List.mem_cons_self).seq hrest).congr List.forall_mem_cons List.flatMap_cons
        (biUnion_mem_cons buses i is)

/-- A register that can be addressed is read, which changes nothing that matters here. -/
theorem Lists.read {start : ℕ} (hfit : Addressable c start) {a : PciAddress} (ha : a.InRange)
    (hreached : ReflTransGen (Leads c) start a.bus) {offset : ℕ} (hoff : offset + 4 ≤ 2 ^ 12)
    {f : ℕ → Run Config Unit} (hf : Lists c p (f (register c a offset)) l m) :
    Lists c p (pciRead 4 a offset >>= f) l m := by
  intro s hs
  rcases pciRead_cases ha offset s with ⟨-, hok⟩ | ⟨hle, hne, -⟩
  · have hread : Answers c (s.read a offset) ∧ (s.read a offset).devices = s.devices ∧
        (s.read a offset).scanned = s.scanned := by
      unfold Config.read
      split_ifs
      · exact ⟨⟨hs.mcfg, hs.memory, hs.ports⟩, rfl, rfl⟩
      · exact ⟨⟨hs.mcfg, hs.memory, hs.ports⟩, rfl, rfl⟩
    rw [Prog.bind_of_ok hok, hs.register_eq, ← hread.2.1, ← hread.2.2]
    exact hf _ hread.1
  · -- the address of the register does not overflow
    exfalso
    rw [hs.mcfg] at hne hle
    have hbus := hfit hne a.bus hreached
    rcases ha with ⟨-, hdevice, hfunction⟩
    unfold PciAddress.place at hle
    omega

end

/-! ## The enumeration -/

section

variable {c : Config} {start : ℕ} {fits : ℕ → Prop} {below : ℕ → List PciAddress}
  {bus : ℕ → Run Config Unit}

/-- The buses behind a function, if it is a bridge. -/
def busesBehind (c : Config) (a : PciAddress) : Set ℕ :=
  {b | Bridge c a ∧ ReflTransGen (Leads c) (secondary c a) b}

/-- There is room for what is behind a function. -/
def FitsBehind (c : Config) (fits : ℕ → Prop) (a : PciAddress) : Prop :=
  Listed c a → IsBridge (register c a 0x08) (register c a 0x0C) → fits (secondary c a)

theorem listFunction_of_not_listed {a : PciAddress} (h : ¬ Listed c a) :
    listFunction c below a = [] := if_neg h

theorem busesBehind_of_not {a : PciAddress} (h : ¬ Bridge c a) : busesBehind c a = ∅ := by
  ext b
  exact iff_of_false (fun hb => h hb.1) (Set.notMem_empty b)

theorem busesBehind_of_bridge {a : PciAddress} (h : Bridge c a) :
    busesBehind c a = {b | ReflTransGen (Leads c) (secondary c a) b} := by
  ext b
  exact and_iff_right h

theorem multifunction_iff_of_zero {a : PciAddress} (hzero : a.function = 0) :
    Multifunction c a ↔ Present c a ∧ headerByte (register c a 0x0C) &&& 0x80 ≠ 0 := by
  have hfirst : (⟨a.bus, a.device, 0⟩ : PciAddress) = a := by rw [← hzero]
  unfold Multifunction
  rw [hfirst]

theorem not_listed_of_single {b device f : ℕ} (h : ¬ Multifunction c ⟨b, device, 0⟩)
    (hf : f ≠ 0) : ¬ Listed c ⟨b, device, f⟩ := by
  rintro ⟨hzero | hmulti, -⟩
  · exact hf hzero
  · exact h hmulti

variable (hfit : Addressable c start)
  (hbus : ∀ b < 256, ReflTransGen (Leads c) start b →
    Lists c (fits b) (bus b) (below b) {b' | ReflTransGen (Leads c) b b'})

include hfit hbus

/-- What is behind a function that is listed. -/
theorem enumBehind_lists {a : PciAddress} (ha : a.InRange)
    (hreached : ReflTransGen (Leads c) start a.bus) (hlisted : Listed c a) :
    Lists c (FitsBehind c fits a) (enumBehind bus a (register c a 0x08) (register c a 0x0C))
      (if IsBridge (register c a 0x08) (register c a 0x0C) then below (secondary c a) else [])
      (busesBehind c a) := by
  unfold enumBehind
  split_ifs with hbridge
  · have hb : Bridge c a := ⟨ha.device, ha.function, hlisted, hbridge⟩
    refine Lists.read hfit ha hreached (by decide) ?_
    refine (hbus _ (secondary_lt c a) (hreached.tail ?_)).congr ?_ rfl ?_
    · exact leads_iff.2 ⟨a, rfl, hb, rfl⟩
    · exact ⟨fun h => h hlisted hbridge, fun h _ _ => h⟩
    · exact busesBehind_of_bridge hb
  · refine (lists_pure c).congr (iff_true_intro fun _ h => absurd h hbridge) rfl ?_
    exact busesBehind_of_not fun h => hbridge h.bridge

/-- A turn of the loop of `enum_device`; `next` are the turns after it, which have nothing to
list unless the device has several functions. -/
theorem enumFunction_lists {a : PciAddress} {q : Prop} {next : Run Config Unit}
    {l : List PciAddress} {m : Set ℕ} (ha : a.InRange)
    (hreached : ReflTransGen (Leads c) start a.bus) (hlook : LookedAt c a)
    (hnext : Multifunction c a → Lists c q next l m)
    (hsingle : ¬ Multifunction c a → q ∧ l = [] ∧ m = ∅) :
    Lists c (FitsBehind c fits a ∧ q) (enumFunction bus next a (register c a 0x00))
      (listFunction c below a ++ l) (busesBehind c a ∪ m) := by
  unfold enumFunction
  split_ifs with hvendor hzero
  · -- no function 0, so no device
    have hno : ¬ Multifunction c a := fun h => ((multifunction_iff_of_zero hzero).1 h).1 hvendor
    rcases hsingle hno with ⟨hq, rfl, rfl⟩
    have hnot : ¬ Listed c a := fun h => h.2 hvendor
    refine (lists_pure c).congr ?_ ?_ ?_
    · exact iff_of_true ⟨fun h => absurd h hnot, hq⟩ trivial
    · rw [listFunction_of_not_listed hnot, List.nil_append]
    · rw [busesBehind_of_not fun h => hnot h.listed, Set.union_empty]
  · have hnot : ¬ Listed c a := fun h => h.2 hvendor
    refine (hnext (hlook.resolve_left hzero)).congr ?_ ?_ ?_
    · exact and_iff_right fun h => absurd h hnot
    · rw [listFunction_of_not_listed hnot, List.nil_append]
    · rw [busesBehind_of_not fun h => hnot h.listed, Set.empty_union]
  · have hlisted : Listed c a := ⟨hlook, hvendor⟩
    -- the turns after this one
    have hrest : Lists c q (if a.function = 0 ∧ headerByte (register c a 0x0C) &&& 0x80 = 0
        then pure () else next) l m := by
      split_ifs with hlast
      · have hno : ¬ Multifunction c a :=
          fun h => ((multifunction_iff_of_zero hlast.1).1 h).2 hlast.2
        rcases hsingle hno with ⟨hq, rfl, rfl⟩
        exact (lists_pure c).congr (iff_true_intro hq) rfl rfl
      · apply hnext
        rcases hlook with hzero | hmulti
        · exact (multifunction_iff_of_zero hzero).2 ⟨hvendor, fun h => hlast ⟨hzero, h⟩⟩
        · exact hmulti
    have hbehind := enumBehind_lists hfit hbus ha hreached hlisted
    refine Lists.read hfit ha hreached (by decide) ?_
    refine Lists.read hfit ha hreached (by decide) ?_
    unfold listFunction
    rw [if_pos hlisted]
    rw [← Set.empty_union (busesBehind c a ∪ m)]
    refine Lists.update (l := [a]) ?_ (fun _ => rfl) ?_ (hbehind.seq hrest)
    · exact fun s hs => ⟨hs.mcfg, hs.memory, hs.ports⟩
    · intro s
      rw [Set.union_empty]

/-- The loop over functions of a device that has several. -/
theorem enumFunctions_lists {b device : ℕ} {fs : List ℕ} (hb : b < 256)
    (hreached : ReflTransGen (Leads c) start b) (hdevice : device < 32)
    (hmulti : Multifunction c ⟨b, device, 0⟩) (hfs : ∀ f ∈ fs, f < 8) :
    Lists c (∀ f ∈ fs, FitsBehind c fits ⟨b, device, f⟩) (enumFunctions bus b device fs)
      (fs.flatMap fun f => listFunction c below ⟨b, device, f⟩)
      (⋃ f ∈ fs, busesBehind c ⟨b, device, f⟩) := by
  induction fs with
  | nil => exact (lists_pure c).congr (by simp) rfl (by simp)
  | cons f fs ih =>
      have ha : PciAddress.InRange ⟨b, device, f⟩ := ⟨hb, hdevice, hfs f List.mem_cons_self⟩
      have hrest := ih fun g hg => hfs g (List.mem_cons_of_mem _ hg)
      unfold enumFunctions
      refine Lists.read hfit ha hreached (by decide) ?_
      refine (enumFunction_lists hfit hbus ha hreached (Or.inr hmulti) (fun _ => hrest) ?_).congr
        List.forall_mem_cons List.flatMap_cons (biUnion_mem_cons _ f fs)
      exact fun h => absurd hmulti h

/-- A device: function 0, and the other ones if it has several. -/
theorem enumDevice_lists {b device : ℕ} (hb : b < 256)
    (hreached : ReflTransGen (Leads c) start b) (hdevice : device < 32) :
    Lists c (∀ f ∈ List.range 8, FitsBehind c fits ⟨b, device, f⟩) (enumDevice bus b device)
      ((List.range 8).flatMap fun f => listFunction c below ⟨b, device, f⟩)
      (⋃ f ∈ List.range 8, busesBehind c ⟨b, device, f⟩) := by
  have hrange : List.range 8 = 0 :: List.range' 1 7 := rfl
  have ha : PciAddress.InRange ⟨b, device, 0⟩ := ⟨hb, hdevice, Nat.zero_lt_succ _⟩
  have hothers : ∀ f ∈ List.range' 1 7, f < 8 ∧ f ≠ 0 := by
    intro f hf
    have hbounds := List.mem_range'_1.1 hf
    omega
  unfold enumDevice
  rw [hrange]
  unfold enumFunctions
  refine Lists.read hfit ha hreached (by decide) ?_
  refine (enumFunction_lists hfit hbus ha hreached (Or.inl rfl) ?_ ?_).congr
    List.forall_mem_cons List.flatMap_cons (biUnion_mem_cons _ 0 _)
  · intro hmulti
    exact enumFunctions_lists hfit hbus hb hreached hdevice hmulti fun f hf => (hothers f hf).1
  · -- with one function only there is nothing else to list
    intro hsingle
    have hnot : ∀ f ∈ List.range' 1 7, ¬ Listed c ⟨b, device, f⟩ :=
      fun f hf => not_listed_of_single hsingle (hothers f hf).2
    refine ⟨fun f hf h => absurd h (hnot f hf), ?_, ?_⟩
    · rw [List.flatMap_eq_nil_iff]
      exact fun f hf => listFunction_of_not_listed (hnot f hf)
    · simp only [Set.iUnion_eq_empty]
      exact fun f hf => busesBehind_of_not fun h => hnot f hf h.listed

/-- The devices of a bus. -/
theorem enumDevices_lists {b : ℕ} (hb : b < 256) (hreached : ReflTransGen (Leads c) start b) :
    Lists c (∀ a ∈ functions b, FitsBehind c fits a)
      ((List.range 32).forM fun device => enumDevice bus b device)
      ((functions b).flatMap (listFunction c below)) (⋃ a ∈ functions b, busesBehind c a) := by
  have hloop := lists_forM fun device hdevice =>
    enumDevice_lists hfit hbus hb hreached (List.mem_range.1 hdevice)
  refine hloop.congr ?_ ?_ ?_
  · unfold functions
    simp only [List.forall_mem_flatMap, List.forall_mem_map]
  · unfold functions
    rw [List.flatMap_assoc]
    simp only [List.flatMap_map]
  · unfold functions
    ext b'
    simp only [Set.mem_iUnion, List.mem_flatMap, List.mem_map]
    constructor
    · rintro ⟨_, ⟨device, hdevice, f, hf, rfl⟩, hb'⟩
      exact ⟨device, hdevice, f, hf, hb'⟩
    · rintro ⟨device, hdevice, f, hf, hb'⟩
      exact ⟨_, ⟨device, hdevice, f, hf, rfl⟩, hb'⟩

end

/-- The buses that are reached are the bus itself and those behind its bridges. -/
theorem reached_eq (c : Config) (b : ℕ) : {b' | ReflTransGen (Leads c) b b'} =
    {b} ∪ ⋃ a ∈ functions b, busesBehind c a := by
  ext b'
  simp only [Set.mem_union, Set.mem_singleton_iff, Set.mem_iUnion]
  constructor
  · intro hb'
    rcases ReflTransGen.cases_head hb' with rfl | ⟨b₁, hleads, hrest⟩
    · exact Or.inl rfl
    · rcases leads_iff.1 hleads with ⟨a, hbus, hbridge, rfl⟩
      exact Or.inr ⟨a, mem_functions.2 ⟨hbus, hbridge.device, hbridge.function⟩, hbridge, hrest⟩
  · rintro (rfl | ⟨a, ha, hbridge, hrest⟩)
    · exact ReflTransGen.refl
    · exact ReflTransGen.head (leads_iff.2 ⟨a, (mem_functions.1 ha).1, hbridge, rfl⟩) hrest

/-- A call of `enum_bus` ends if and only if its room is enough for every walk along the
bridges. It has then appended what is to be listed, and was on every bus that is reached. -/
theorem enumBus_lists {c : Config} {start : ℕ} (hfit : Addressable c start) (depth : ℕ) :
    ∀ b < 256, ReflTransGen (Leads c) start b →
      Lists c (¬ Far (Leads c) depth b) (enumBus depth b) (listBus c depth b)
        {b' | ReflTransGen (Leads c) b b'} := by
  induction depth with
  | zero =>
      intro b _ _ s _
      exact ⟨fun h => absurd trivial h, fun _ => ⟨s, rfl⟩⟩
  | succ depth ih =>
      intro b hb hreached
      unfold enumBus
      rw [reached_eq]
      refine Lists.update (l := []) ?_ (fun s => (List.append_nil _).symm) ?_ ?_
      · exact fun s hs => ⟨hs.mcfg, hs.memory, hs.ports⟩
      · rintro s b' (hb' | rfl)
        · exact List.mem_cons_of_mem b hb'
        · exact List.mem_cons_self
      refine (enumDevices_lists hfit ih hb hreached).congr ?_ rfl rfl
      -- a longer walk starts with a bridge on this bus
      constructor
      · intro hfar a ha hlisted hbridge hrest
        rcases mem_functions.1 ha with ⟨hbus, hdevice, hfunction⟩
        refine hfar ⟨secondary c a, leads_iff.2 ⟨a, hbus, ?_, rfl⟩, hrest⟩
        exact ⟨hdevice, hfunction, hlisted, hbridge⟩
      · rintro hfits ⟨b', hleads, hrest⟩
        rcases leads_iff.1 hleads with ⟨a, hbus, hbridge, rfl⟩
        have ha : a ∈ functions b := mem_functions.2 ⟨hbus, hbridge.device, hbridge.function⟩
        exact hfits a ha hbridge.listed hbridge.bridge hrest

/-! ## A machine with one bridge -/

/-- The bytes of a bridge to the bus `behind`, by register and by data port. -/
def bridgeByte (behind : Fin 256) (offset port : ℕ) : Fin 256 :=
  if offset = 0x00 then 0x10
  else if offset = 0x08 ∧ port = 0xCFF then 0x06
  else if offset = 0x08 ∧ port = 0xCFE then 0x04
  else if offset = 0x0C ∧ port = 0xCFE then 0x01
  else if offset = 0x18 ∧ port = 0xCFD then behind
  else 0

/-- Only function 0 of device 0 on bus 0 is present, a bridge to the bus `behind`. -/
def oneBridge (behind : Fin 256) : Config :=
  { noDevices with
    ports := fun cf8 port =>
      if cf8 / 256 = 0x800000 then bridgeByte behind (cf8 % 256) port else 255 }

theorem bridge_oneBridge_zero : Bridge (oneBridge 0) ⟨0, 0, 0⟩ :=
  ⟨by decide, by decide, by decide +kernel, by decide +kernel⟩

/-- On bus 0 there is only the bridge, on bus 1 nothing. -/
theorem present_oneBridge :
    (∀ d < 32, ∀ f < 8, Present (oneBridge 1) ⟨0, d, f⟩ → d = 0 ∧ f = 0) ∧
      ∀ d < 32, ∀ f < 8, ¬ Present (oneBridge 1) ⟨1, d, f⟩ := by
  decide +kernel

theorem bridge_of_oneBridge {a : PciAddress} (hbus : a.bus = 0 ∨ a.bus = 1)
    (h : Bridge (oneBridge 1) a) : a = ⟨0, 0, 0⟩ := by
  rcases a with ⟨bus, device, function⟩
  have hpresent := h.listed.2
  rcases hbus with hbus | hbus
  · cases hbus
    rcases present_oneBridge.1 device h.device function h.function hpresent with ⟨rfl, rfl⟩
    rfl
  · cases hbus
    exact absurd hpresent (present_oneBridge.2 device h.device function h.function)

theorem secondary_oneBridge : secondary (oneBridge 1) ⟨0, 0, 0⟩ = 1 := by decide +kernel

theorem reached_oneBridge {b : ℕ} (h : ReflTransGen (Leads (oneBridge 1)) 0 b) :
    b = 0 ∨ b = 1 := by
  induction h with
  | refl => exact Or.inl rfl
  | tail _ hleads ih =>
      rcases leads_iff.1 hleads with ⟨a, rfl, hbridge, rfl⟩
      rw [bridge_of_oneBridge ih hbridge]
      exact Or.inr secondary_oneBridge

/-! ## Termination -/

/-- Without a cycle no walk visits more than the 256 buses. -/
theorem not_far_of_acyclic {c : Config} {start : ℕ} (hstart : start < 256)
    (hcycle : ¬ ReachesCycle (Leads c) start) : ¬ Far (Leads c) 256 start := by
  intro hfar
  have hcard : 256 ≤ ((Finset.range 256).erase start).card := by
    refine hfar.le_card hcycle ?_
    intro b hb
    refine Finset.mem_erase.2 ⟨?_, ?_⟩
    · rintro rfl
      exact hcycle ⟨b, ReflTransGen.refl, hb⟩
    · rcases TransGen.tail'_iff.1 hb with ⟨b', -, hleads⟩
      rcases leads_iff.1 hleads with ⟨a, -, -, rfl⟩
      exact Finset.mem_range.2 (secondary_lt c a)
  rw [Finset.card_erase_of_mem (Finset.mem_range.2 hstart), Finset.card_range] at hcard
  omega

theorem answers_self (c : Config) : Answers c c := ⟨rfl, rfl, rfl⟩

/-- A single bridge that leads elsewhere is not a cycle. -/
theorem acyclic_of_single {c : Config} {start : ℕ} {a : PciAddress}
    (h : ∀ a', ReflTransGen (Leads c) start a'.bus → Bridge c a' → a' = a)
    (hne : secondary c a ≠ a.bus) : ¬ ReachesCycle (Leads c) start := by
  rintro ⟨b, hb, hcycle⟩
  -- the cycle starts with the bridge, and ends with it
  rcases TransGen.head'_iff.1 hcycle with ⟨b₁, hfirst, -⟩
  rcases leads_iff.1 hfirst with ⟨a₁, rfl, hbridge₁, -⟩
  cases h a₁ hb hbridge₁
  rcases TransGen.tail'_iff.1 hcycle with ⟨b₂, hb₂, hlast⟩
  rcases leads_iff.1 hlast with ⟨a₂, rfl, hbridge₂, heq⟩
  cases h a₂ (hb.trans hb₂) hbridge₂
  exact hne heq.symm

/-- The enumeration terminates if and only if no bus that it reaches leads back to itself. If
one does, the recursion goes on until the stack overflows, however large it is. -/
theorem enumBus_terminates_iff {c : Config} {start : ℕ} (hstart : start < 256)
    (hfit : Addressable c start) :
    ((∃ depth s', (enumBus depth start).run c = .ok () s') ↔
      ∀ b, ReflTransGen (Leads c) start b → ¬ TransGen (Leads c) b b) ∧
    ((∃ b, ReflTransGen (Leads c) start b ∧ TransGen (Leads c) b b) →
      ∀ depth, ∃ s', (enumBus depth start).run c = .stop (.undefined "stack overflow") s') := by
  have hrun := fun depth =>
    enumBus_lists hfit depth start hstart ReflTransGen.refl c (answers_self c)
  have hdiverges : ReachesCycle (Leads c) start →
      ∀ depth, ∃ s', (enumBus depth start).run c = .stop (.undefined "stack overflow") s' :=
    fun hcycle depth => (hrun depth).2 fun hfar => hfar (Walks.far_of_cycle hcycle depth)
  refine ⟨?_, hdiverges⟩
  constructor
  · rintro ⟨depth, s', hok⟩ b hreached hcycle
    rcases hdiverges ⟨b, hreached, hcycle⟩ depth with ⟨s'', hstop⟩
    cases hok.symm.trans hstop
  · intro hacyclic
    have hcycle : ¬ ReachesCycle (Leads c) start := fun ⟨b, hb, h⟩ => hacyclic b hb h
    rcases (hrun 256).1 (not_far_of_acyclic hstart hcycle) with ⟨s', hok, -⟩
    exact ⟨256, s', hok⟩

/-- A bridge on bus 0 whose secondary bus is 0, as before it is configured, is entered again and
again. -/
theorem unconfigured_bridge_diverges :
    (oneBridge 0).mcfgAddress = 0 ∧ secondary (oneBridge 0) ⟨0, 0, 0⟩ = 0 ∧
      ∀ depth, ∃ s', (enumBus depth 0).run (oneBridge 0) =
        .stop (.undefined "stack overflow") s' := by
  have hsecondary : secondary (oneBridge 0) ⟨0, 0, 0⟩ = 0 := by decide +kernel
  have hleads : Leads (oneBridge 0) 0 0 :=
    leads_iff.2 ⟨⟨0, 0, 0⟩, rfl, bridge_oneBridge_zero, hsecondary.symm⟩
  have hcycle : ReachesCycle (Leads (oneBridge 0)) 0 :=
    ⟨0, ReflTransGen.refl, TransGen.single hleads⟩
  have hfit : Addressable (oneBridge 0) 0 := fun h => absurd rfl h
  refine ⟨rfl, hsecondary, fun depth => ?_⟩
  exact (enumBus_lists hfit depth 0 (by decide) ReflTransGen.refl _ (answers_self _)).2
    fun hfar => hfar (Walks.far_of_cycle hcycle depth)

/-- A bridge to bus 1 leads to no cycle, so the enumeration of that machine ends. -/
theorem enumBus_terminates_oneBridge : Addressable (oneBridge 1) 0 ∧
    ∃ depth s', (enumBus depth 0).run (oneBridge 1) = .ok () s' := by
  have hfit : Addressable (oneBridge 1) 0 := fun h => absurd rfl h
  have hcycle : ¬ ReachesCycle (Leads (oneBridge 1)) 0 := by
    refine acyclic_of_single (a := ⟨0, 0, 0⟩) ?_ ?_
    · exact fun a hreached hbridge => bridge_of_oneBridge (reached_oneBridge hreached) hbridge
    · rw [secondary_oneBridge]
      decide
  refine ⟨hfit, (enumBus_terminates_iff (by decide) hfit).1.2 ?_⟩
  exact fun b hb h => hcycle ⟨b, hb, h⟩

/-! ## Well-numbered machines -/

/-- Every bridge that is reached leads to a higher bus, and no two of them to the same. -/
structure WellNumbered (c : Config) (start : ℕ) : Prop where
  upward : ∀ a, ReflTransGen (Leads c) start a.bus → Bridge c a → a.bus < secondary c a
  distinct : ∀ a a', ReflTransGen (Leads c) start a.bus → ReflTransGen (Leads c) start a'.bus →
    Bridge c a → Bridge c a' → secondary c a = secondary c a' → a = a'

section

variable {c : Config} {start : ℕ}

theorem WellNumbered.lt_of_leads (hw : WellNumbered c start) {b b' : ℕ}
    (hb : ReflTransGen (Leads c) start b) (h : Leads c b b') : b < b' := by
  rcases leads_iff.1 h with ⟨a, rfl, hbridge, rfl⟩
  exact hw.upward a hb hbridge

/-- Buses are numbered upwards. -/
theorem WellNumbered.le_of_reach (hw : WellNumbered c start) {b b' : ℕ}
    (hb : ReflTransGen (Leads c) start b) (h : ReflTransGen (Leads c) b b') : b ≤ b' := by
  induction h with
  | refl => exact le_refl b
  | tail hreach hleads ih => exact ih.trans (hw.lt_of_leads (hb.trans hreach) hleads).le

theorem WellNumbered.acyclic (hw : WellNumbered c start) : ¬ ReachesCycle (Leads c) start := by
  rintro ⟨b, hb, hcycle⟩
  rcases TransGen.head'_iff.1 hcycle with ⟨b', hleads, hback⟩
  have hlt := hw.lt_of_leads hb hleads
  have hle := hw.le_of_reach (hb.tail hleads) hback
  omega

/-- What is behind two bridges of a bus has nothing in common. -/
theorem WellNumbered.apart (hw : WellNumbered c start) {a a' : PciAddress} {x : ℕ}
    (hreached : ReflTransGen (Leads c) start a.bus) (hbus : a'.bus = a.bus) (ha : Bridge c a)
    (ha' : Bridge c a') (hx : ReflTransGen (Leads c) (secondary c a) x)
    (hx' : ReflTransGen (Leads c) (secondary c a') x) : a = a' := by
  have hreached' : ReflTransGen (Leads c) start a'.bus := hbus ▸ hreached
  have hleads : Leads c a.bus (secondary c a) := leads_iff.2 ⟨a, rfl, ha, rfl⟩
  have hleads' : Leads c a'.bus (secondary c a') := leads_iff.2 ⟨a', rfl, ha', rfl⟩
  -- a bus that one of them leads to, and which is below the other, is below their own bus
  have hnever : ∀ {u v : PciAddress}, ReflTransGen (Leads c) start u.bus → Bridge c u →
      ReflTransGen (Leads c) start v.bus → Bridge c v → u.bus = v.bus →
      ReflTransGen (Leads c) (secondary c u) (secondary c v) → u = v := by
    intro u v hu hbu hv hbv huv hreach
    have hlu : Leads c u.bus (secondary c u) := leads_iff.2 ⟨u, rfl, hbu, rfl⟩
    rcases ReflTransGen.cases_tail hreach with heq | ⟨y, hy, hlast⟩
    · exact hw.distinct u v hu hv hbu hbv heq.symm
    · exfalso
      rcases leads_iff.1 hlast with ⟨w, rfl, hbw, heq⟩
      have hwv := hw.distinct v w hv ((hu.tail hlu).trans hy) hbv hbw heq
      have hle := hw.le_of_reach (hu.tail hlu) hy
      have hlt := hw.upward u hu hbu
      rw [← hwv] at hle
      omega
  have htotal : ReflTransGen (Leads c) (secondary c a) (secondary c a') ∨
      ReflTransGen (Leads c) (secondary c a') (secondary c a) := by
    refine Walks.reach_total (R := ReflTransGen (Leads c) start) (fun _ _ => ReflTransGen.tail) ?_
      (hreached.tail hleads) (hreached'.tail hleads') hx hx'
    intro u v w hu hv huw hvw
    rcases leads_iff.1 huw with ⟨b, rfl, hb, rfl⟩
    rcases leads_iff.1 hvw with ⟨b', rfl, hb', heq⟩
    rw [hw.distinct b b' hu hv hb hb' heq]
  rcases htotal with h | h
  · exact hnever hreached ha hreached' ha' hbus.symm h
  · exact (hnever hreached' ha' hreached ha hbus h).symm

theorem mem_listFunction {below : ℕ → List PciAddress} {a x : PciAddress} :
    x ∈ listFunction c below a ↔ Listed c a ∧ (x = a ∨
      IsBridge (register c a 0x08) (register c a 0x0C) ∧ x ∈ below (secondary c a)) := by
  unfold listFunction
  split_ifs with hlisted hbridge
  · simp [hlisted, hbridge]
  · simp [hlisted, hbridge]
  · simp [hlisted]

/-- With enough room the listed functions are those of the buses that are reached. -/
theorem mem_listBus {x : PciAddress} : ∀ {depth b : ℕ}, ¬ Far (Leads c) depth b →
    (x ∈ listBus c depth b ↔
      ReflTransGen (Leads c) b x.bus ∧ x.device < 32 ∧ x.function < 8 ∧ Listed c x) := by
  intro depth
  induction depth with
  | zero => exact fun hfar => absurd trivial hfar
  | succ depth ih =>
      intro b hfar
      have hbelow : ∀ {b'}, Leads c b b' → ¬ Far (Leads c) depth b' :=
        fun hleads hrest => hfar ⟨_, hleads, hrest⟩
      unfold listBus
      rw [List.mem_flatMap]
      constructor
      · rintro ⟨a, ha, hx⟩
        rcases mem_functions.1 ha with ⟨hbus, hdevice, hfunction⟩
        rcases mem_listFunction.1 hx with ⟨hlisted, rfl | ⟨hbridge, hx⟩⟩
        · exact ⟨hbus ▸ ReflTransGen.refl, hdevice, hfunction, hlisted⟩
        · have hleads : Leads c b (secondary c a) :=
            leads_iff.2 ⟨a, hbus, ⟨hdevice, hfunction, hlisted, hbridge⟩, rfl⟩
          rcases (ih (hbelow hleads)).1 hx with ⟨hreach, hrest⟩
          exact ⟨ReflTransGen.head hleads hreach, hrest⟩
      · rintro ⟨hreach, hdevice, hfunction, hlisted⟩
        rcases ReflTransGen.cases_head hreach with hbus | ⟨b', hleads, hreach⟩
        · exact ⟨x, mem_functions.2 ⟨hbus.symm, hdevice, hfunction⟩,
            mem_listFunction.2 ⟨hlisted, Or.inl rfl⟩⟩
        · have hx := (ih (hbelow hleads)).2 ⟨hreach, hdevice, hfunction, hlisted⟩
          rcases leads_iff.1 hleads with ⟨a, hbus, hbridge, rfl⟩
          exact ⟨a, mem_functions.2 ⟨hbus, hbridge.device, hbridge.function⟩,
            mem_listFunction.2 ⟨hbridge.listed, Or.inr ⟨hbridge.bridge, hx⟩⟩⟩

/-- On a well-numbered machine nothing is listed twice. -/
theorem nodup_listBus (hw : WellNumbered c start) : ∀ {depth b : ℕ}, ¬ Far (Leads c) depth b →
    ReflTransGen (Leads c) start b → (listBus c depth b).Nodup := by
  intro depth
  induction depth with
  | zero => exact fun hfar => absurd trivial hfar
  | succ depth ih =>
      intro b hfar hreached
      have hbelow : ∀ {b'}, Leads c b b' → ¬ Far (Leads c) depth b' :=
        fun hleads hrest => hfar ⟨_, hleads, hrest⟩
      -- what is listed below a bridge is on buses that the bridge leads to
      have hbehind : ∀ {a x : PciAddress}, a.bus = b → Bridge c a →
          x ∈ listBus c depth (secondary c a) →
          ReflTransGen (Leads c) (secondary c a) x.bus ∧ b < x.bus := by
        intro a x hbus hbridge hx
        have hleads : Leads c b (secondary c a) := leads_iff.2 ⟨a, hbus, hbridge, rfl⟩
        have hreach := ((mem_listBus (hbelow hleads)).1 hx).1
        have hle := hw.le_of_reach (hreached.tail hleads) hreach
        exact ⟨hreach, (hw.lt_of_leads hreached hleads).trans_le hle⟩
      unfold listBus
      rw [List.nodup_flatMap]
      constructor
      · intro a ha
        rcases mem_functions.1 ha with ⟨hbus, hdevice, hfunction⟩
        unfold listFunction
        split_ifs with hlisted hbridge
        · have hb : Bridge c a := ⟨hdevice, hfunction, hlisted, hbridge⟩
          have hleads : Leads c b (secondary c a) := leads_iff.2 ⟨a, hbus, hb, rfl⟩
          refine List.nodup_cons.2 ⟨?_, ih (hbelow hleads) (hreached.tail hleads)⟩
          intro hx
          have hlt := (hbehind hbus hb hx).2
          omega
        · exact List.nodup_singleton a
        · exact List.nodup_nil
      · refine (nodup_functions b).imp_of_mem ?_
        intro a a' ha ha' hne x hx hx'
        rcases mem_functions.1 ha with ⟨hbus, hdevice, hfunction⟩
        rcases mem_functions.1 ha' with ⟨hbus', hdevice', hfunction'⟩
        rcases mem_listFunction.1 hx with ⟨hlisted, rfl | ⟨hbridge, hx⟩⟩
        · rcases mem_listFunction.1 hx' with ⟨hlisted', rfl | ⟨hbridge', hx'⟩⟩
          · exact hne rfl
          · have hlt := (hbehind hbus' ⟨hdevice', hfunction', hlisted', hbridge'⟩ hx').2
            omega
        · have hb : Bridge c a := ⟨hdevice, hfunction, hlisted, hbridge⟩
          rcases hbehind hbus hb hx with ⟨hreach, hlt⟩
          rcases mem_listFunction.1 hx' with ⟨hlisted', rfl | ⟨hbridge', hx'⟩⟩
          · omega
          · have hb' : Bridge c a' := ⟨hdevice', hfunction', hlisted', hbridge'⟩
            have hreach' := (hbehind hbus' hb' hx').1
            exact hne (hw.apart (hbus ▸ hreached) (hbus'.trans hbus.symm) hb hb' hreach hreach')

/-- On a well-numbered machine the enumeration ends, and has appended exactly the functions on
the buses that bridges lead to, each of them once: those that are present, on a device whose
function 0 is present, and which are function 0 unless the device has several. -/
theorem enumBus_exact (hstart : start < 256) (hfit : Addressable c start)
    (hw : WellNumbered c start) {depth : ℕ} (hdepth : 256 ≤ depth) :
    ∃ s' found, (enumBus depth start).run c = .ok () s' ∧ s'.devices = c.devices ++ found ∧
      found.Nodup ∧ ∀ a : PciAddress, a ∈ found ↔
        ReflTransGen (Leads c) start a.bus ∧ a.device < 32 ∧ a.function < 8 ∧
        Present c ⟨a.bus, a.device, 0⟩ ∧
        (a.function = 0 ∨ headerByte (register c ⟨a.bus, a.device, 0⟩ 0x0C) &&& 0x80 ≠ 0) ∧
        Present c a := by
  have hfar : ¬ Far (Leads c) depth start :=
    fun h => not_far_of_acyclic hstart hw.acyclic (h.mono hdepth)
  rcases (enumBus_lists hfit depth start hstart ReflTransGen.refl c (answers_self c)).1 hfar with
    ⟨s', hrun, -, hdev, -⟩
  refine ⟨s', listBus c depth start, hrun, hdev, nodup_listBus hw hfar ReflTransGen.refl, ?_⟩
  intro a
  rw [mem_listBus hfar]
  have hlisted : Listed c a ↔ Present c ⟨a.bus, a.device, 0⟩ ∧
      (a.function = 0 ∨ headerByte (register c ⟨a.bus, a.device, 0⟩ 0x0C) &&& 0x80 ≠ 0) ∧
      Present c a := by
    unfold Listed LookedAt
    constructor
    · rintro ⟨hzero | hmulti, hpresent⟩
      · have hfirst : (⟨a.bus, a.device, 0⟩ : PciAddress) = a := by rw [← hzero]
        exact ⟨hfirst.symm ▸ hpresent, Or.inl hzero, hpresent⟩
      · exact ⟨hmulti.1, Or.inr hmulti.2, hpresent⟩
    · rintro ⟨hfirst, hzero | hbit, hpresent⟩
      · exact ⟨Or.inl hzero, hpresent⟩
      · exact ⟨Or.inr ⟨hfirst, hbit⟩, hpresent⟩
  rw [hlisted]

end

theorem wellNumbered_oneBridge : WellNumbered (oneBridge 1) 0 := by
  constructor
  · intro a hreached hbridge
    rw [bridge_of_oneBridge (reached_oneBridge hreached) hbridge]
    decide +kernel
  · intro a a' hreached hreached' hbridge hbridge' _
    rw [bridge_of_oneBridge (reached_oneBridge hreached) hbridge,
      bridge_of_oneBridge (reached_oneBridge hreached') hbridge']

/-- What is found on it is the bridge. -/
theorem enumBus_exact_oneBridge : Addressable (oneBridge 1) 0 ∧ WellNumbered (oneBridge 1) 0 ∧
    ∃ s' found, (enumBus 256 0).run (oneBridge 1) = .ok () s' ∧ s'.devices = found ∧
      found.Nodup ∧ ⟨0, 0, 0⟩ ∈ found := by
  have hfit : Addressable (oneBridge 1) 0 := fun h => absurd rfl h
  rcases enumBus_exact (by decide) hfit wellNumbered_oneBridge (le_refl 256) with
    ⟨s', found, hrun, hdev, hnodup, hfound⟩
  refine ⟨hfit, wellNumbered_oneBridge, s', found, hrun, hdev, hnodup, (hfound _).2 ?_⟩
  have hpresent : Present (oneBridge 1) ⟨0, 0, 0⟩ := by decide +kernel
  exact ⟨ReflTransGen.refl, by decide, by decide, hpresent, Or.inl rfl, hpresent⟩

/-! ## The buses in the window -/

section

variable [X86] {entry : McfgEntry} {s : Kernel}

/-- What the machine answers while `init` enumerates. -/
def McfgEntry.machine (entry : McfgEntry) (s : Kernel) : Config := s.pci.mapped (entry.virt s)

/-- Without cycles the enumeration comes to every bus that is reached. -/
theorem scanned_of_reach (h : Mappable entry s)
    (hfit : Addressable (entry.machine s) entry.startBus)
    (hcycle : ¬ ReachesCycle (Leads (entry.machine s)) entry.startBus) {depth : ℕ}
    (hdepth : 256 ≤ depth) {b : ℕ} (hb : ReflTransGen (Leads (entry.machine s)) entry.startBus b) :
    b ∈ (enumerated depth entry s).scanned := by
  have hstart := h.le.trans_lt h.endBus
  have hfar : ¬ Far (Leads (entry.machine s)) depth entry.startBus :=
    fun hfar => not_far_of_acyclic hstart hcycle (hfar.mono hdepth)
  rcases (enumBus_lists hfit depth _ hstart ReflTransGen.refl _ (answers_self _)).1 hfar with
    ⟨c, hrun, -, -, hbuses⟩
  change (enumBus depth entry.startBus).run (s.pci.mapped (entry.virt s)) = _ at hrun
  rw [enumerated_eq h depth, hrun]
  exact hbuses (Or.inr hb)

/-- If every bus that bridges lead to from `start_bus` ends before the window does, the enumeration
dereferences only addresses in the window, however many nested calls there is room for. If the
bridges lead to no cycle, this is also necessary. -/
theorem ecam_in_window_iff (h : Mappable entry s) :
    ((∀ b, ReflTransGen (Leads (entry.machine s)) entry.startBus b → BusInside entry s b) →
      ∀ depth, Inside depth entry s) ∧
    (Addressable (entry.machine s) entry.startBus →
      ¬ ReachesCycle (Leads (entry.machine s)) entry.startBus → ∀ depth, 256 ≤ depth →
      (Inside depth entry s ↔
        ∀ b, ReflTransGen (Leads (entry.machine s)) entry.startBus b → BusInside entry s b)) := by
  have hsufficient : (∀ b, ReflTransGen (Leads (entry.machine s)) entry.startBus b →
      BusInside entry s b) → ∀ depth, Inside depth entry s := by
    intro hbuses depth
    refine (inside_iff h depth).2 ?_
    exact fun b hb => hbuses b ((enumerated_scans h depth).reached b hb).2
  refine ⟨hsufficient, ?_⟩
  intro hfit hcycle depth hdepth
  constructor
  · intro hinside b hb
    exact (inside_iff h depth).1 hinside b (scanned_of_reach h hfit hcycle hdepth hb)
  · exact fun hbuses => hsufficient hbuses depth

end

/-- Function 0 of device 0 is a bridge on bus 0, to bus 1, and another function on bus 1. -/
def behindBridge : Config :=
  { noDevices with
    memory := fun p =>
      let bus := p / 2 ^ 20 % 2 ^ 8
      let byte := p % 2 ^ 20
      if 256 ≤ byte then 255
      else if bus = 0 then bridgeByte 1 (byte / 4 * 4) (0xCFC + byte % 4)
      else if bus = 1 then if byte < 4 then 0x10 else 0
      else 255 }

/-- The machine, with its window at `0xB0000000` in the direct map. -/
def bridged : Config := behindBridge.mapped 0xFFFF8000B0000000

/-- On both buses there is only function 0 of device 0, and only the first one is a bridge. -/
theorem present_bridged :
    (∀ b < 2, ∀ d < 32, ∀ f < 8, Present bridged ⟨b, d, f⟩ → d = 0 ∧ f = 0) ∧
      ¬ IsBridge (register bridged ⟨1, 0, 0⟩ 0x08) (register bridged ⟨1, 0, 0⟩ 0x0C) := by
  decide +kernel

theorem bridge_bridged : Bridge bridged ⟨0, 0, 0⟩ ∧ secondary bridged ⟨0, 0, 0⟩ = 1 ∧
    Present bridged ⟨1, 0, 0⟩ :=
  ⟨⟨by decide, by decide, by decide +kernel, by decide +kernel⟩, by decide +kernel,
    by decide +kernel⟩

theorem bridge_of_bridged {a : PciAddress} (hbus : a.bus < 2) (h : Bridge bridged a) :
    a = ⟨0, 0, 0⟩ := by
  rcases a with ⟨bus, device, function⟩
  rcases present_bridged.1 bus hbus device h.device function h.function h.listed.2 with ⟨rfl, rfl⟩
  change bus < 2 at hbus
  cases bus with
  | zero => rfl
  | succ n =>
      cases (by omega : n = 0)
      exact absurd h.bridge present_bridged.2

theorem reached_bridged {b : ℕ} (h : ReflTransGen (Leads bridged) 0 b) : b < 2 := by
  induction h with
  | refl => decide
  | tail _ hleads ih =>
      rcases leads_iff.1 hleads with ⟨a, rfl, hbridge, rfl⟩
      rw [bridge_of_bridged ih hbridge, bridge_bridged.2.1]
      decide

/-- A window for the buses 0 and 1: bus 1, which the bridge leads to, is enumerated, and this
dereferences only addresses in the window. -/
theorem ecam_in_window_behind_bridge : letI := X86.documented
    ∃ s : Kernel, Mappable ⟨0xB0000000, 0, 1⟩ s ∧ s.vm.hhdmOffset = 0xFFFF800000000000 ∧
      Leads bridged 0 1 ∧ Present bridged ⟨1, 0, 0⟩ ∧
      0xFFFF8000B0000000 + 2 ^ 20 ∈ (enumerated 256 ⟨0xB0000000, 0, 1⟩ s).derefs ∧
      ∀ depth, ∀ p ∈ (enumerated depth ⟨0xB0000000, 0, 1⟩ s).derefs,
        0xFFFF8000B0000000 ≤ p ∧ p < 0xFFFF8000B0000000 + 1 * PageSize.large.bytes := by
  let := X86.documented
  rcases mappable_one_page with ⟨vm, hhdm, hmappable⟩
  have h := hmappable behindBridge 0 1 rfl rfl (Nat.zero_le 1) (le_refl 1) (by decide)
  have hvirt : McfgEntry.virt ⟨0xB0000000, 0, 1⟩ ⟨vm, behindBridge⟩ = 0xFFFF8000B0000000 := by
    unfold McfgEntry.virt
    dsimp only
    rw [hhdm]
  have hmachine : McfgEntry.machine ⟨0xB0000000, 0, 1⟩ ⟨vm, behindBridge⟩ = bridged := by
    unfold McfgEntry.machine
    rw [hvirt]
    rfl
  have hleads : Leads bridged 0 1 :=
    leads_iff.2 ⟨⟨0, 0, 0⟩, rfl, bridge_bridged.1, bridge_bridged.2.1.symm⟩
  have hcycle : ¬ ReachesCycle (Leads bridged) 0 := by
    refine acyclic_of_single (a := ⟨0, 0, 0⟩) ?_ ?_
    · exact fun a hreached hbridge => bridge_of_bridged (reached_bridged hreached) hbridge
    · rw [bridge_bridged.2.1]
      decide
  have hfit : Addressable bridged 0 := by
    intro _ b hb
    have hlt := reached_bridged hb
    change 0xFFFF8000B0000000 + (b + 1) * 2 ^ 20 ≤ 2 ^ 64
    omega
  have hbuses : ∀ b, ReflTransGen (Leads (McfgEntry.machine ⟨0xB0000000, 0, 1⟩ ⟨vm, behindBridge⟩))
      0 b → BusInside ⟨0xB0000000, 0, 1⟩ ⟨vm, behindBridge⟩ b := by
    intro b hb _ _
    rw [hmachine] at hb
    exact reached_bridged hb
  refine ⟨_, h, hhdm, hleads, bridge_bridged.2.2, ?_, ?_⟩
  · have hscanned := scanned_of_reach h (hmachine ▸ hfit) (hmachine ▸ hcycle) (le_refl 256)
      (b := 1) (hmachine ▸ ReflTransGen.single hleads)
    have hfirst := (enumerated_scans h 256).first 1 hscanned trivial
    change McfgEntry.virt _ _ ≠ 0 → McfgEntry.virt _ _ + 1 * 2 ^ 20 < 2 ^ 64 →
      McfgEntry.virt _ _ + 1 * 2 ^ 20 ∈ _ at hfirst
    rw [hvirt] at hfirst
    exact hfirst (by decide) (by decide)
  · intro depth p hp
    have hinside := (ecam_in_window_iff h).1 hbuses depth p hp
    rw [hvirt] at hinside
    exact hinside

end Prometheos.Pci
