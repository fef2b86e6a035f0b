import Mathlib.Algebra.Order.Field.Basic
import Mathlib.Algebra.Order.Floor.Semifield
import Mathlib.Data.Rat.Floor
import Mathlib.Tactic.Positivity
import JtagHw.Mpsse.Deferred

/-!
# The frequency of TCK

`mpsse_set_frequency` is asked for a frequency and returns the one it has set. The chip
divides a clock of 60 MHz, or of 12 MHz if the division by 5 is switched on, by twice the
divisor plus one (`JtagHw.ClockSetup.rate`), and a chip that is not a high-speed one has the
slower clock only.

No clock setup comes closer to what is asked for from below than the one that
`mpsse_set_frequency` chooses, and what it returns is the frequency of that setup, rounded
down (`JtagHw.mpsse_set_frequency_best`). Only below 92 Hz, where every setup is too fast, is
TCK faster than asked for.
-/

namespace JtagHw

open PackedBits Fallible

/-- What the clock of a chip is set to. -/
structure ClockSetup where
  divideBy5 : Bool
  divisor : BitVec 16
  adaptive : Bool

namespace ClockSetup

/-- A setting, as far as it concerns the clock. -/
def set (k : ClockSetup) : Setting → ClockSetup
  | .divisor divisor => { k with divisor := divisor }
  | .divideBy5 enable => { k with divideBy5 := enable }
  | .adaptive enable => { k with adaptive := enable }
  | _ => k

/-- Half the clock that the divisor divides. -/
def halfClock (type : FtdiChipType) (k : ClockSetup) : ℕ :=
  if mpsseIsHighSpeed type ∧ k.divideBy5 = false then 30000000 else 6000000

/-- What it is divided by. -/
def period (k : ClockSetup) : ℕ := 1 + k.divisor.toNat

/-- **The frequency of TCK.** -/
def rate (type : FtdiChipType) (k : ClockSetup) : ℚ := k.halfClock type / k.period

theorem period_pos (k : ClockSetup) : 0 < k.period := Nat.lt_add_right _ Nat.one_pos

theorem period_le (k : ClockSetup) : k.period ≤ 65536 := by
  have hlt := k.divisor.isLt
  rw [period]
  omega

theorem rate_le_iff (type : FtdiChipType) (k : ClockSetup) (f : ℕ) :
    k.rate type ≤ f ↔ k.halfClock type ≤ f * k.period := by
  rw [rate, div_le_iff₀ (by exact_mod_cast k.period_pos)]
  exact_mod_cast Iff.rfl

theorem rate_le_rate (type : FtdiChipType) {j k : ClockSetup}
    (h : j.halfClock type * k.period ≤ k.halfClock type * j.period) :
    j.rate type ≤ k.rate type := by
  rw [rate, rate, div_le_div_iff₀ (by exact_mod_cast j.period_pos)
    (by exact_mod_cast k.period_pos)]
  exact_mod_cast h

end ClockSetup

/-! ### The divisor -/

/-- The divisor is the least one that is large enough, if one of 16 bits is. -/
theorem divisorFor_spec {base frequency : ℕ} (hpos : 0 < frequency) (hbase : 2 ≤ base) :
    1 + divisorFor base frequency ≤ 65536 ∧
      ∀ N ≤ 65536, base / 2 ≤ frequency * N →
        base / 2 ≤ frequency * (1 + divisorFor base frequency) ∧
          1 + divisorFor base frequency ≤ N := by
  obtain ⟨q, hq⟩ : ∃ q, (base / 2 + frequency - 1) / frequency = q := ⟨_, rfl⟩
  have hone : 1 ≤ q := by
    rw [← hq]
    exact (Nat.le_div_iff_mul_le hpos).mpr (by omega)
  have hdivisor : 1 + divisorFor base frequency = min q 65536 := by
    rw [divisorFor, hq]
    omega
  have hmin : ∀ N, q ≤ N ↔ base / 2 ≤ frequency * N := by
    intro N
    rw [← hq, Nat.div_le_iff_le_mul_add_pred hpos]
    omega
  rw [hdivisor]
  refine ⟨Nat.min_le_right .., fun N hN hle => ?_⟩
  have hqN := (hmin N).mpr hle
  have hq' : min q 65536 = q := Nat.min_eq_left (hqN.trans hN)
  rw [hq']
  exact ⟨(hmin q).mp le_rfl, hqN⟩

/-! ### The setup -/

/-- The clock after `mpsse_set_frequency`. -/
def ClockSetup.chosen (type : FtdiChipType) (f : ℕ) (k : ClockSetup) : ClockSetup :=
  (frequencySettings type f).foldl ClockSetup.set k

section Chosen

variable (type : FtdiChipType) {f : ℕ} (k : ClockSetup)

theorem chosen_eq (hpos : 0 < f) :
    k.chosen type f =
      { divideBy5 := if mpsseIsHighSpeed type then decide (f ≤ 457) else k.divideBy5
        divisor := BitVec.ofNat 16 (divisorFor (baseClock type f) f)
        adaptive := if mpsseIsHighSpeed type then false else k.adaptive } := by
  rw [ClockSetup.chosen, frequencySettings, if_neg hpos.ne']
  cases mpsseIsHighSpeed type <;> rfl

theorem halfClock_chosen (hpos : 0 < f) :
    (k.chosen type f).halfClock type = baseClock type f / 2 := by
  rw [chosen_eq type k hpos, ClockSetup.halfClock, baseClock]
  cases mpsseIsHighSpeed type with
  | false => simp
  | true =>
    by_cases hf : f ≤ 457
    · simp [hf, not_lt.mpr hf]
    · simp [hf, not_le.mp hf]

theorem two_le_baseClock (f : ℕ) : 2 ≤ baseClock type f := by
  rw [baseClock]
  split_ifs <;> omega

theorem period_chosen (hpos : 0 < f) :
    (k.chosen type f).period = 1 + divisorFor (baseClock type f) f := by
  have hle := (divisorFor_spec hpos (two_le_baseClock type f)).1
  rw [chosen_eq type k hpos, ClockSetup.period, BitVec.toNat_ofNat, Nat.mod_eq_of_lt (by omega)]

/-- **No setup comes closer to the frequency from below.** -/
theorem chosen_best (hpos : 0 < f) {j : ClockSetup} (hj : j.rate type ≤ f) :
    (k.chosen type f).rate type ≤ f ∧ j.rate type ≤ (k.chosen type f).rate type := by
  rw [ClockSetup.rate_le_iff] at hj ⊢
  obtain ⟨-, hleast⟩ := divisorFor_spec hpos (two_le_baseClock type f)
  have hhalf := halfClock_chosen type k hpos
  have hperiod := period_chosen type k hpos
  have hjperiod := j.period_le
  by_cases hsame : j.halfClock type = baseClock type f / 2
  · -- the same clock: a smaller divisor would be too fast
    rw [hsame] at hj
    obtain ⟨hle, hN⟩ := hleast _ hjperiod hj
    rw [← hperiod] at hle hN
    rw [← hhalf] at hle hsame
    refine ⟨hle, ClockSetup.rate_le_rate type ?_⟩
    rw [hsame]
    exact Nat.mul_le_mul_left _ hN
  · -- another clock, so the chip has both of them
    have hspeed : mpsseIsHighSpeed type = true := by
      by_contra hslow
      refine hsame ?_
      rw [ClockSetup.halfClock, baseClock, if_neg (fun h => hslow h.1), if_neg (fun h => hslow h.1)]
    by_cases hf : 457 < f
    · -- a period of the slower clock is five periods of the faster one
      have hbase : baseClock type f / 2 = 30000000 := by rw [baseClock, if_pos ⟨hspeed, hf⟩]
      rw [hbase] at hsame hhalf hleast
      have hslow : j.halfClock type = 6000000 := by
        rw [ClockSetup.halfClock] at hsame ⊢
        exact if_neg fun h => hsame (if_pos h)
      rw [hslow] at hj
      have hfive : 30000000 ≤ f * min (5 * j.period) 65536 := by
        rcases Nat.le_total (5 * j.period) 65536 with hle | hle
        · rw [Nat.min_eq_left hle, Nat.mul_left_comm]
          omega
        · rw [Nat.min_eq_right hle]
          omega
      obtain ⟨hle, hN⟩ := hleast _ (Nat.min_le_right ..) hfive
      rw [← hperiod] at hle hN
      rw [← hhalf] at hle
      refine ⟨hle, ClockSetup.rate_le_rate type ?_⟩
      rw [hslow, hhalf]
      have hfivePeriods := hN.trans (Nat.min_le_left ..)
      omega
    · -- every setup with the faster clock is too fast
      have hbase : baseClock type f / 2 = 6000000 := by rw [baseClock, if_neg fun h => hf h.2]
      have hfast : j.halfClock type = 30000000 := by
        rw [hbase, ClockSetup.halfClock] at hsame
        rw [ClockSetup.halfClock]
        exact if_pos (not_not.mp fun h => hsame (if_neg h))
      rw [hfast] at hj
      have hmul : f * j.period ≤ 457 * 65536 := Nat.mul_le_mul (not_lt.mp hf) hjperiod
      omega

/-- What is returned is the frequency set, rounded down. -/
theorem frequencyResult_eq (hpos : 0 < f) :
    (frequencyResult type f).toNat = ⌊(k.chosen type f).rate type⌋₊ := by
  have hbase : baseClock type f ≤ 60000000 := by
    rw [baseClock]
    split_ifs <;> omega
  have hle := Nat.div_le_self (baseClock type f / 2) (1 + divisorFor (baseClock type f) f)
  rw [frequencyResult, if_neg hpos.ne', BitVec.toNat_ofNat, Nat.mod_eq_of_lt (by omega),
    ClockSetup.rate, halfClock_chosen type k hpos, period_chosen type k hpos, Nat.floor_div_eq_div]

end Chosen

/-- **`mpsse_set_frequency` chooses the best setup there is**, and returns its frequency. A
chip is behind the link that sets its clock as it is told to. TCK does not wait for the return
clock then, if the chip could. -/
theorem mpsse_set_frequency_best {δ σ : Type} {n : ℕ} {P : Port σ} {E : EngineLink δ P}
    (hE : E.Perfect) (clock : σ → ClockSetup)
    (hclock : ∀ s v, clock (P.set s v) = (clock s).set v) (type : FtdiChipType) {c : MpsseCtx δ}
    (hidle : c.Idle) (hps : c.maxPacketSize = E.packetSize) (hready : (E.engine c.usb).Ready)
    (b : Buf n) {frequency : CInt} (hpos : 0 < frequency.toNat)
    (hfits : MpsseCall.Fits type n (.setFrequency frequency)) :
    ∃ c' b' actual, run (mpsseStep E.toUsbLink type) (c, b) [.setFrequency frequency, .flush] =
        .ok ((c', b'), [some actual, some errorOk]) ∧
      actual.toNat = ⌊(clock (E.engine c'.usb).state).rate type⌋₊ ∧
      (mpsseIsHighSpeed type = true → (clock (E.engine c'.usb).state).adaptive = false) ∧
      ∀ j : ClockSetup, j.rate type ≤ frequency.toNat →
        (clock (E.engine c'.usb).state).rate type ≤ frequency.toNat ∧
          j.rate type ≤ (clock (E.engine c'.usb).state).rate type := by
  have hstart : Deferred E ⟨(E.engine c.usb).state, b.bit⟩ c b :=
    .of_idle hidle hps hready rfl rfl
  obtain ⟨c', b', hrun, -, -, hstate, -⟩ := hstart.run_flush hE type [.setFrequency frequency]
    (fun call hcall => by rwa [List.mem_singleton.mp hcall])
  have hsettings : ∀ (l : List Setting) (s : Immediate σ),
      clock (l.foldl (immediately P).set s).port = l.foldl ClockSetup.set (clock s.port) := by
    intro l
    induction l with
    | nil => exact fun _ => rfl
    | cons v l ih =>
      intro s
      have hport : clock ((immediately P).set s v).port = (clock s.port).set v := hclock s.port v
      rw [List.foldl_cons, List.foldl_cons, ih, hport]
  have hchosen : clock (E.engine c'.usb).state =
      (clock (E.engine c.usb).state).chosen type frequency.toNat := by
    rw [hstate]
    exact hsettings _ _
  refine ⟨c', b', _, hrun, ?_, fun hhigh => ?_, fun j hj => ?_⟩
  · rw [hchosen]
    exact frequencyResult_eq _ _ hpos
  · rw [hchosen, chosen_eq _ _ hpos]
    exact if_pos hhigh
  · rw [hchosen]
    exact chosen_best _ _ hpos hj

/-- A chip of which only the clock is looked at. -/
def clockPort : Port ClockSetup where
  clock k _ := (k, false)
  set := ClockSetup.set
  low _ := 0x00
  high _ := 0x00
  stale _ _ := false

theorem mpsse_set_frequency_best_fiveMegahertz :
    ∃ c' b' actual, run (mpsseStep (EngineLink.direct clockPort).toUsbLink .ft232h)
        (freshCtx ⟨true, 0, false⟩, (Buf.zero : Buf 0)) [.setFrequency 5000001, .flush] =
        .ok ((c', b'), [some actual, some errorOk]) ∧
      actual.toNat = ⌊c'.usb.state.rate .ft232h⌋₊ ∧
      (mpsseIsHighSpeed .ft232h = true → c'.usb.state.adaptive = false) ∧
      ∀ j : ClockSetup, j.rate .ft232h ≤ (5000001 : CInt).toNat →
        c'.usb.state.rate .ft232h ≤ (5000001 : CInt).toNat ∧
          j.rate .ft232h ≤ c'.usb.state.rate .ft232h := by
  have hpos : 0 < (5000001 : CInt).toNat := by decide
  have hfits : MpsseCall.Fits .ft232h 0 (.setFrequency 5000001) := by decide
  exact mpsse_set_frequency_best (EngineLink.direct_perfect clockPort) id (fun _ _ => rfl) .ft232h
    (idle_freshCtx _) rfl ⟨rfl, rfl⟩ .zero hpos hfits

end JtagHw
