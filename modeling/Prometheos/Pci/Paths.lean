import Prometheos.Pci.Window

/-!
# The two ways into configuration space

`pci_read` and `pci_write` reach a byte of configuration space through the ports `0xCF8` and
`0xCFC`, or through the ECAM window. A `Host` is what answers them: one configuration space
behind both. `portLocation` and `windowLocation` say, as the PCI specifications do, which byte
a data port and an address of the window stand for.

An address of the window has 12 bits for the byte, `io_address` keeps 8 of them. So the two
ways agree on the first 256 bytes of a function, and only there (`paths_agree_iff`): beyond,
the ports stand for the byte 256 (or more) bytes before.
-/

namespace Prometheos.Pci

/-! ## The host bridge -/

/-- A byte of configuration space. -/
structure Location where
  bus : ℕ
  device : ℕ
  function : ℕ
  byte : ℕ
deriving DecidableEq

/-- The host bridge, and `MCFG_ADDRESS`. -/
structure Host where
  /-- `MCFG_ADDRESS`. -/
  mcfgAddress : ℕ
  /-- Where the ECAM window starts. -/
  base : ℕ
  /-- What was last written to port `0xCF8`. -/
  cf8 : ℕ
  /-- The configuration space. -/
  space : Location → Fin 256

/-- The byte behind a data port: bit 31 of `0xCF8` enables it, the bits below hold bus, device,
function and register. -/
def portLocation (cf8 port : ℕ) : Option Location :=
  if cf8.testBit 31 ∧ 0xCFC ≤ port ∧ port < 0xD00 then
    some ⟨cf8 / 2 ^ 16 % 2 ^ 8, cf8 / 2 ^ 11 % 2 ^ 5, cf8 / 2 ^ 8 % 2 ^ 3,
      cf8 % 2 ^ 8 / 4 * 4 + (port - 0xCFC)⟩
  else none

/-- The byte behind an address of the window. -/
def windowLocation (base p : ℕ) : Option Location :=
  if base ≤ p ∧ p < base + 2 ^ 28 then
    some ⟨(p - base) / 2 ^ 20, (p - base) / 2 ^ 15 % 2 ^ 5, (p - base) / 2 ^ 12 % 2 ^ 3,
      (p - base) % 2 ^ 12⟩
  else none

/-- What is read at a place; where there is nothing, all bits are set. -/
def Host.answer (h : Host) : Option Location → Fin 256
  | some l => h.space l
  | none => 255

/-- Byte `i` of a value. -/
def byteOf (v i : ℕ) : Fin 256 := Fin.ofNat 256 (v / 256 ^ i)

/-- The host after the first `n` bytes of `v` were written to the places `loc`. -/
def Host.store (h : Host) (loc : ℕ → Option Location) (v : ℕ) : ℕ → Host
  | 0 => h
  | n + 1 =>
      match loc n with
      | some l =>
          { h.store loc v n with
            space := Function.update (h.store loc v n).space l (byteOf v n) }
      | none => h.store loc v n

/-- The machine that the enumeration reads from, as the host presents it. -/
def Host.config (h : Host) : Config where
  mcfgAddress := h.mcfgAddress
  memory p := h.answer (windowLocation h.base p)
  cf8 := h.cf8
  ports cf8 port := h.answer (portLocation cf8 port)
  devices := []
  derefs := []
  scanned := []

/-! ## The accessors -/

/-- `pci_read` on the host. -/
def Host.pciRead (size : ℕ) (a : PciAddress) (offset : ℕ) : Run Host ℕ :=
  Prog.zoom Host.config (fun c h => { h with cf8 := c.cf8 }) (Pci.pciRead size a offset)

/-- `pci_write`, for a type of `size` bytes. -/
def Host.pciWrite (size : ℕ) (a : PciAddress) (offset v : ℕ) : Run Host Unit := do
  Prog.require (size = 1 ∨ size = 2 ∨ size = 4) (.panic "unsupported size")
  let mcfg ← Prog.gets (·.mcfgAddress)
  if mcfg ≠ 0 then do
    let p ← a.mmioAddress offset mcfg
    Prog.update fun h => h.store (fun i => windowLocation h.base (p + i)) v size
  else do
    Prog.update fun h => { h with cf8 := a.ioAddress offset }
    let port := 0xCFC + (offset &&& 3)
    Prog.update fun h => h.store (fun i => portLocation h.cf8 (port + i)) v size

/-! ## What an access stands for -/

/-- The place that byte `i` of an access through the ports stands for. -/
def PciAddress.throughPorts (a : PciAddress) (offset i : ℕ) : Option Location :=
  portLocation (a.ioAddress offset) (0xCFC + (offset &&& 3) + i)

/-- Byte `offset` of a function. -/
def PciAddress.location (a : PciAddress) (offset : ℕ) : Location :=
  ⟨a.bus, a.device, a.function, offset⟩

/-- The mask of `io_address` keeps the register of the first 256 bytes. -/
theorem and_registers (offset : ℕ) : offset &&& 0xFC = offset % 256 / 4 * 4 := by
  have hsmall : ∀ x < 256, x &&& 0xFC = x / 4 * 4 := by decide +kernel
  have hle : offset &&& 0xFC ≤ 0xFC := Nat.and_le_right
  have hmod : (offset &&& 0xFC) % 2 ^ 8 = offset % 2 ^ 8 &&& 0xFC % 2 ^ 8 := Nat.and_mod_two_pow
  rw [Nat.mod_eq_of_lt (by omega)] at hmod
  rw [hmod]
  exact hsmall (offset % 256) (Nat.mod_lt _ (by omega))

theorem and_three (offset : ℕ) : offset &&& 3 = offset % 4 :=
  Nat.and_two_pow_sub_one_eq_mod offset 2

/-- The fields of `io_address` do not overlap. -/
theorem PciAddress.InRange.ioAddress_eq {a : PciAddress} (ha : a.InRange) (offset : ℕ) :
    a.ioAddress offset = 2 ^ 31 * 1 + (2 ^ 16 * a.bus + (2 ^ 11 * a.device +
      (2 ^ 8 * a.function + offset % 256 / 4 * 4))) := by
  rcases ha with ⟨hbus, hdevice, hfunction⟩
  unfold PciAddress.ioAddress
  rw [and_registers, Nat.shiftLeft_eq, Nat.shiftLeft_eq, Nat.shiftLeft_eq,
    Nat.or_assoc, Nat.or_assoc, Nat.or_assoc, Nat.mul_comm a.bus, Nat.mul_comm a.device,
    Nat.mul_comm a.function]
  -- from the lowest field up, each one ends where the next begins
  have h₁ : 2 ^ 8 * a.function ||| offset % 256 / 4 * 4 =
      2 ^ 8 * a.function + offset % 256 / 4 * 4 :=
    (Nat.two_pow_add_eq_or_of_lt (by omega) _).symm
  have h₂ : 2 ^ 11 * a.device ||| (2 ^ 8 * a.function + offset % 256 / 4 * 4) =
      2 ^ 11 * a.device + (2 ^ 8 * a.function + offset % 256 / 4 * 4) :=
    (Nat.two_pow_add_eq_or_of_lt (by omega) _).symm
  have h₃ : 2 ^ 16 * a.bus ||| (2 ^ 11 * a.device + (2 ^ 8 * a.function + offset % 256 / 4 * 4)) =
      2 ^ 16 * a.bus + (2 ^ 11 * a.device + (2 ^ 8 * a.function + offset % 256 / 4 * 4)) :=
    (Nat.two_pow_add_eq_or_of_lt (by omega) _).symm
  rw [h₁, h₂, h₃]
  exact (Nat.two_pow_add_eq_or_of_lt (i := 31) (by omega) 1).symm

section

variable {a : PciAddress} {offset i : ℕ}

/-- Through the ports, an access stands for one of the first 256 bytes of the function. -/
theorem throughPorts_eq (ha : a.InRange) (hi : offset % 4 + i < 4) :
    a.throughPorts offset i = some (a.location (offset % 256 + i)) := by
  have hio := ha.ioAddress_eq offset
  rcases ha with ⟨hbus, hdevice, hfunction⟩
  have hbit : (a.ioAddress offset).testBit 31 = true := by
    rw [Nat.testBit_eq_decide_div_mod_eq, decide_eq_true_eq, hio]
    omega
  unfold PciAddress.throughPorts portLocation PciAddress.location
  rw [if_pos ⟨hbit, by omega, by rw [and_three]; omega⟩, and_three, hio]
  simp only [Option.some.injEq, Location.mk.injEq]
  omega

/-- Through the window, an access stands for the byte of the function. -/
theorem windowLocation_eq (ha : a.InRange) (hi : offset + i < 4096) (base : ℕ) :
    windowLocation base (base + a.place offset + i) = some (a.location (offset + i)) := by
  rcases ha with ⟨hbus, hdevice, hfunction⟩
  unfold windowLocation PciAddress.location PciAddress.place
  rw [if_pos ⟨by omega, by omega⟩]
  simp only [Option.some.injEq, Location.mk.injEq]
  omega

end

/-! ## Bytes and values -/

theorem value_congr {bytes bytes' : ℕ → Fin 256} {start start' : ℕ} : ∀ {n : ℕ},
    (∀ i < n, bytes (start + i) = bytes' (start' + i)) →
    value bytes start n = value bytes' start' n := by
  intro n
  induction n generalizing start start' with
  | zero => exact fun _ => rfl
  | succ n ih =>
      intro h
      have h0 := h 0 (Nat.zero_lt_succ n)
      have hrest : value bytes (start + 1) n = value bytes' (start' + 1) n := by
        apply ih
        intro i hi
        have := h (i + 1) (by omega)
        rwa [Nat.add_right_comm, Nat.add_assoc, Nat.add_right_comm start' 1 i, Nat.add_assoc]
      unfold value
      rw [hrest]
      change bytes (start + 0) = bytes' (start' + 0) at h0
      rw [Nat.add_zero, Nat.add_zero] at h0
      rw [h0]

/-- The bytes of a value make up the value. -/
theorem value_byteOf : ∀ (n v k : ℕ), value (byteOf v) k n = v / 256 ^ k % 256 ^ n := by
  intro n
  induction n with
  | zero =>
      intro v k
      rw [Nat.pow_zero, Nat.mod_one]
      rfl
  | succ n ih =>
      intro v k
      unfold value
      rw [ih, Nat.pow_succ 256 k, ← Nat.div_div_eq_div_mul, Nat.pow_succ', Nat.mod_mul]
      rfl

/-! ## Writing and reading back -/

section

variable {h : Host} {loc loc' : ℕ → Option Location} {v : ℕ}

theorem store_fields (h : Host) (loc : ℕ → Option Location) (v : ℕ) : ∀ n,
    (h.store loc v n).mcfgAddress = h.mcfgAddress ∧ (h.store loc v n).base = h.base := by
  intro n
  induction n with
  | zero => exact ⟨rfl, rfl⟩
  | succ n ih =>
      unfold Host.store
      cases loc n with
      | none => exact ih
      | some l => exact ih

/-- A byte that was written is read back. -/
theorem store_answer : ∀ {n : ℕ}, (∀ i < n, ∀ j < n, loc i = loc j → i = j) →
    (∀ i < n, loc i ≠ none) → ∀ i < n, (h.store loc v n).answer (loc i) = byteOf v i := by
  intro n
  induction n with
  | zero => exact fun _ _ i hi => absurd hi (Nat.not_lt_zero i)
  | succ n ih =>
      intro hinj hsome i hi
      unfold Host.store
      cases hn : loc n with
      | none => exact absurd hn (hsome n (Nat.lt_succ_self n))
      | some l =>
          by_cases hin : i = n
          · rw [hin, hn]
            exact Function.update_self _ _ _
          · -- the last byte goes to another place
            have hlt : i < n := by omega
            have hih := ih (fun j hj k hk => hinj j (by omega) k (by omega))
              (fun j hj => hsome j (by omega)) i hlt
            cases hi' : loc i with
            | none => exact absurd hi' (hsome i hi)
            | some l' =>
                have hne : l' ≠ l := by
                  rintro rfl
                  exact hin (hinj i hi n (Nat.lt_succ_self n) (hi'.trans hn.symm))
                rw [hi'] at hih
                exact (Function.update_of_ne hne _ _).trans hih

end

/-- The values of `MCFG_ADDRESS` that select a path: 0 for the ports, the base of the window
for ECAM. -/
def Selects (base mcfg : ℕ) : Prop := mcfg = 0 ∨ mcfg = base

/-- A byte of a function has an address in the window at `base`: its address is one of 64 bits,
and `MCFG_ADDRESS` is not 0, which would select the ports. -/
structure InWindow (base : ℕ) (a : PciAddress) (offset : ℕ) : Prop where
  pos : 0 < base
  fits : base + a.place offset < 2 ^ 64

/-- The place that byte `i` of an access stands for, on the path that is selected. -/
def PciAddress.through (a : PciAddress) (base mcfg offset i : ℕ) : Option Location :=
  if mcfg = 0 then a.throughPorts offset i else windowLocation base (base + a.place offset + i)

section

variable {a : PciAddress} {base offset size : ℕ}

theorem mmioAddress_window (ha : a.InRange) (hbase : InWindow base a offset) {σ : Type} (s : σ) :
    (a.mmioAddress offset base).run s = .ok (base + a.place offset) s := by
  rcases mmioAddress_cases ha offset base s with ⟨-, hok⟩ | ⟨hle, -⟩
  · exact hok
  · exact absurd hbase.fits (Nat.not_lt.2 hle)

/-- `pci_write` stores the bytes at the places that the access stands for. -/
theorem pciWrite_run (ha : a.InRange) (hsize : size = 1 ∨ size = 2 ∨ size = 4)
    (hbase : InWindow base a offset) {mcfg : ℕ}
    (hmcfg : Selects base mcfg) {h : Host} (hb : h.base = base) (hm : h.mcfgAddress = mcfg)
    (v : ℕ) : ∃ h₀ : Host, h₀.base = base ∧ (Host.pciWrite size a offset v).run h =
      .ok () (h₀.store (a.through base mcfg offset) v size) := by
  unfold Host.pciWrite
  rw [Prog.require_bind hsize, Prog.gets_bind, hm]
  rcases hmcfg with rfl | rfl
  · refine ⟨{ h with cf8 := a.ioAddress offset }, hb, ?_⟩
    rw [if_neg (not_not_intro rfl), Prog.update_bind, Prog.run_update]
    rfl
  · refine ⟨h, hb, ?_⟩
    have hne : mcfg ≠ 0 := hbase.pos.ne'
    rw [if_pos hne, Prog.bind_of_ok (mmioAddress_window ha hbase h), Prog.run_update, hb]
    unfold PciAddress.through
    simp only [if_neg hne]

/-- `pci_read` reads the bytes at the places that the access stands for. -/
theorem pciRead_run (ha : a.InRange) (hsize : size = 1 ∨ size = 2 ∨ size = 4)
    (hbase : InWindow base a offset) {mcfg : ℕ}
    (hmcfg : Selects base mcfg) {h : Host} (hb : h.base = base) (hm : h.mcfgAddress = mcfg) :
    ∃ h', (Host.pciRead size a offset).run h =
      .ok (value (fun i => h.answer (a.through base mcfg offset i)) 0 size) h' := by
  have hrun : ∃ c, (Pci.pciRead size a offset).run h.config =
      .ok (value (fun i => h.answer (a.through base mcfg offset i)) 0 size) c := by
    have hselect : h.config.mcfgAddress = mcfg := hm
    unfold Pci.pciRead
    rw [Prog.require_bind hsize, Prog.gets_bind, hselect]
    rcases hmcfg with rfl | rfl
    · refine ⟨{ h.config with cf8 := a.ioAddress offset }, ?_⟩
      rw [if_neg (not_not_intro rfl), Prog.update_bind, Prog.run_gets]
      congr 1
      apply value_congr
      intro i hi
      rw [Nat.zero_add]
      rfl
    · have hne : mcfg ≠ 0 := hbase.pos.ne'
      refine ⟨{ h.config with derefs := [mcfg + a.place offset] }, ?_⟩
      rw [if_pos hne, Prog.bind_of_ok (mmioAddress_window ha hbase _), Prog.update_bind,
        Prog.run_gets]
      congr 1
      apply value_congr
      intro i hi
      unfold PciAddress.through
      rw [Nat.zero_add, if_neg hne, ← hb]
      rfl
  rcases hrun with ⟨c, hrun⟩
  exact ⟨_, Prog.zoom_of_ok hrun⟩

/-- The two paths agree on an access: they stand for the same bytes of the same function, a
read returns the same value on both, and what is written through one is read through the
other. -/
structure PathsAgree (base size : ℕ) (a : PciAddress) (offset : ℕ) : Prop where
  same : ∀ i < size, a.throughPorts offset i = windowLocation base (base + a.place offset + i)
  reads : ∀ h : Host, h.base = base → ∃ v, ∀ mcfg, Selects base mcfg →
    ∃ h', (Host.pciRead size a offset).run { h with mcfgAddress := mcfg } = .ok v h'
  writes : ∀ h : Host, h.base = base → ∀ v < 256 ^ size, ∀ mcfg mcfg', Selects base mcfg →
    Selects base mcfg' → ∃ h₁ h₂,
      (Host.pciWrite size a offset v).run { h with mcfgAddress := mcfg } = .ok () h₁ ∧
      (Host.pciRead size a offset).run { h₁ with mcfgAddress := mcfg' } = .ok v h₂

/-- Both paths stand for the bytes from `offset` on, if these are among the first 256. -/
theorem through_eq (ha : a.InRange) (hoff : offset < 256)
    (hsize : size = 1 ∨ size = 2 ∨ size = 4) (hdvd : size ∣ offset) {mcfg i : ℕ} (hi : i < size) :
    a.through base mcfg offset i = some (a.location (offset + i)) := by
  have hfour : offset % 4 + i < 4 ∧ offset + i < 4096 := by
    rcases hsize with rfl | rfl | rfl <;> omega
  unfold PciAddress.through
  split_ifs
  · rw [throughPorts_eq ha hfour.1, Nat.mod_eq_of_lt hoff]
  · exact windowLocation_eq ha hfour.2 base

theorem pathsAgree_of_lt (ha : a.InRange) (hoff : offset < 256)
    (hsize : size = 1 ∨ size = 2 ∨ size = 4) (hdvd : size ∣ offset)
    (hbase : InWindow base a offset) : PathsAgree base size a offset := by
  have hthrough : ∀ mcfg mcfg' : ℕ, ∀ i < size,
      a.through base mcfg offset i = a.through base mcfg' offset i := by
    intro mcfg mcfg' i hi
    rw [through_eq ha hoff hsize hdvd hi, through_eq ha hoff hsize hdvd hi]
  refine ⟨?_, ?_, ?_⟩
  · intro i hi
    have h := hthrough 0 base i hi
    unfold PciAddress.through at h
    rwa [if_pos rfl, if_neg hbase.pos.ne'] at h
  · intro h hb
    refine ⟨value (fun i => h.answer (a.through base 0 offset i)) 0 size, ?_⟩
    intro mcfg hmcfg
    rcases pciRead_run (h := { h with mcfgAddress := mcfg }) ha hsize hbase hmcfg hb rfl with
      ⟨h', hrun⟩
    refine ⟨h', hrun.trans ?_⟩
    congr 1
    apply value_congr
    intro i hi
    rw [Nat.zero_add, hthrough mcfg 0 i hi]
    rfl
  · intro h hb v hv mcfg mcfg' hmcfg hmcfg'
    rcases pciWrite_run (h := { h with mcfgAddress := mcfg }) ha hsize hbase hmcfg hb rfl v
      with ⟨h₀, hb₀, hwrite⟩
    have hfields := store_fields h₀ (a.through base mcfg offset) v size
    rcases pciRead_run
      (h := { h₀.store (a.through base mcfg offset) v size with mcfgAddress := mcfg' }) ha
      hsize hbase hmcfg' (hfields.2.trans hb₀) rfl with ⟨h₂, hread⟩
    refine ⟨_, h₂, hwrite, hread.trans ?_⟩
    congr 1
    -- the bytes are distinct, so each is read back as it was written
    have hinj : ∀ i < size, ∀ j < size,
        a.through base mcfg offset i = a.through base mcfg offset j → i = j := by
      intro i hi j hj hij
      rw [through_eq ha hoff hsize hdvd hi, through_eq ha hoff hsize hdvd hj] at hij
      have hbyte := congrArg Location.byte (Option.some.inj hij)
      exact Nat.add_left_cancel hbyte
    have hsome : ∀ i < size, a.through base mcfg offset i ≠ none := by
      intro i hi
      rw [through_eq ha hoff hsize hdvd hi]
      exact Option.some_ne_none _
    have hbytes : value (byteOf v) 0 size = v := by
      rw [value_byteOf, Nat.pow_zero, Nat.div_one, Nat.mod_eq_of_lt hv]
    refine Eq.trans (value_congr ?_) hbytes
    intro i hi
    rw [Nat.zero_add, hthrough mcfg' mcfg i hi]
    exact store_answer hinj hsome i hi

/-- For every function and every aligned access to its 4096 bytes, the ports and the window
agree if and only if the access is to the first 256 bytes. In the window, no two bytes of
configuration space share a place. At the ports, two bytes do if and only if they belong to
the same function and are a multiple of 256 apart. -/
theorem paths_agree_iff (ha : a.InRange) (hoff : offset < 4096)
    (hsize : size = 1 ∨ size = 2 ∨ size = 4) (hdvd : size ∣ offset)
    (hbase : InWindow base a offset) : (PathsAgree base size a offset ↔ offset < 256) ∧
    ∀ a' : PciAddress, a'.InRange → ∀ offset' < 4096,
      (windowLocation base (base + a.place offset) = windowLocation base (base + a'.place offset') ↔
        a = a' ∧ offset = offset') ∧
      (a.throughPorts offset 0 = a'.throughPorts offset' 0 ↔
        a = a' ∧ offset % 256 = offset' % 256) := by
  have hloc : ∀ {b b' : PciAddress} {o o' : ℕ},
      some (b.location o) = some (b'.location o') ↔ b = b' ∧ o = o' := by
    rintro ⟨bus, device, function⟩ ⟨bus', device', function'⟩ o o'
    simp only [PciAddress.location, Option.some.injEq, Location.mk.injEq, PciAddress.mk.injEq]
    tauto
  have hpos : 0 < size := by
    rcases hsize with rfl | rfl | rfl <;> omega
  refine ⟨⟨?_, ?_⟩, ?_⟩
  · -- beyond the first 256 bytes, the ports stand for another byte
    intro hagree
    have hfirst := hagree.same 0 hpos
    rw [throughPorts_eq ha (by omega), windowLocation_eq ha (by omega), hloc] at hfirst
    omega
  · intro hlt
    exact pathsAgree_of_lt ha hlt hsize hdvd hbase
  · intro a' ha' offset' hoff'
    constructor
    · have h := windowLocation_eq (i := 0) ha (show offset + 0 < 4096 by omega) base
      have h' := windowLocation_eq (i := 0) ha' (show offset' + 0 < 4096 by omega) base
      rw [Nat.add_zero] at h h'
      rw [h, h', hloc]
      rfl
    · rw [throughPorts_eq ha (by omega), throughPorts_eq ha' (by omega), hloc]
      rfl

end

/-- The first base address register of a function, with the window at `0xB0000000`. -/
theorem paths_agree_base_register : PciAddress.InRange ⟨1, 2, 3⟩ ∧
    InWindow 0xB0000000 ⟨1, 2, 3⟩ 0x10 ∧ PathsAgree 0xB0000000 4 ⟨1, 2, 3⟩ 0x10 := by
  have ha : PciAddress.InRange ⟨1, 2, 3⟩ := ⟨by decide, by decide, by decide⟩
  have hbase : InWindow 0xB0000000 ⟨1, 2, 3⟩ 0x10 := ⟨by decide, by decide⟩
  have hagree := paths_agree_iff ha (show 0x10 < 4096 by decide) (Or.inr (Or.inr rfl)) (by decide)
    hbase
  exact ⟨ha, hbase, hagree.1.2 (by decide)⟩

/-- The host with an empty configuration space. -/
def emptyHost : Host := ⟨0, 0xB0000000, 0, fun _ => 0⟩

/-- The first extended register: the ports stand for byte 0 of the function, and what is written
through the window is not read through the ports. -/
theorem extended_register_aliased :
    PciAddress.throughPorts ⟨0, 0, 0⟩ 0x100 0 = some ⟨0, 0, 0, 0⟩ ∧
    windowLocation 0xB0000000 (0xB0000000 + PciAddress.place ⟨0, 0, 0⟩ 0x100) =
      some ⟨0, 0, 0, 0x100⟩ ∧
    (∃ h₁ h₂, (Host.pciWrite 4 ⟨0, 0, 0⟩ 0x100 1).run { emptyHost with mcfgAddress := 0xB0000000 } =
        .ok () h₁ ∧
      (Host.pciRead 4 ⟨0, 0, 0⟩ 0x100).run { h₁ with mcfgAddress := 0 } = .ok 0 h₂) ∧
    ¬ PathsAgree 0xB0000000 4 ⟨0, 0, 0⟩ 0x100 := by
  refine ⟨by decide, by decide, ⟨_, _, rfl, rfl⟩, ?_⟩
  intro hagree
  exact absurd (hagree.same 0 (by decide)) (by decide)

end Prometheos.Pci
