import Mathlib.Algebra.Order.Archimedean.Basic
import Mathlib.Algebra.Order.Floor.Semiring
import Mathlib.Data.Int.Log
import Mathlib.Data.Rat.Floor
import Mathlib.Tactic.FieldSimp
import Mathlib.Tactic.Linarith
import Mathlib.Tactic.Positivity
import Mathlib.Tactic.Ring

/-!
# Rounding to a number of bits

What binary floating-point arithmetic makes of a number that is not negative and neither too
large nor too small: the nearest one with `p` significant bits, of two nearest ones the even one
(`Rounding.roundTo`).

Two facts are what a proof needs of it. The error is at most one part in `2 ^ p`
(`Rounding.abs_roundTo_sub_le`), and a number that has no more than `p` bits is not changed
(`Rounding.roundTo_natCast_mul_zpow`). A single value is computed with
`Rounding.roundTo_eq`.

The last section is about comparing a rounded number with a ratio. A fraction strictly between
two neighbours `a / b` and `c / d` with `c * b - a * d = 1` has a denominator of `b + d` at least,
so that one with a smaller denominator that is above `a / b` is not below `c / d`
(`Rounding.mul_le_of_neighbours`).
-/

namespace Rounding

/-! ### The nearest integer -/

/-- The nearest integer, of two the even one. -/
def nearest (x : ℚ) : ℤ :=
  let below := ⌊x⌋
  if x - below < 1 / 2 then below
  else if 1 / 2 < x - below then below + 1
  else if below % 2 = 0 then below else below + 1

theorem abs_nearest_sub_le (x : ℚ) : |(nearest x : ℚ) - x| ≤ 1 / 2 := by
  have hle : (⌊x⌋ : ℚ) ≤ x := Int.floor_le x
  have hlt : x < ⌊x⌋ + 1 := Int.lt_floor_add_one x
  rw [nearest, abs_le]
  split_ifs <;> push_cast <;> constructor <;> linarith

/-- It is the only integer that is nearer than a half. -/
theorem nearest_eq {x : ℚ} {k : ℤ} (h : |x - k| < 1 / 2) : nearest x = k := by
  have hdist : |((nearest x - k : ℤ) : ℚ)| < 1 := by
    have htri := abs_add_le ((nearest x : ℚ) - x) (x - k)
    have hnear := abs_nearest_sub_le x
    rw [sub_add_sub_cancel] at htri
    push_cast
    linarith
  have hint : |nearest x - k| < 1 := by exact_mod_cast hdist
  exact sub_eq_zero.mp (Int.abs_lt_one_iff.mp hint)

@[simp] theorem nearest_intCast (k : ℤ) : nearest k = k :=
  nearest_eq (by norm_num)

/-- Of two nearest ones it is the even one. -/
theorem nearest_add_half {k : ℤ} (hk : k % 2 = 0) : nearest (k + 1 / 2) = k := by
  have hfloor : ⌊(k : ℚ) + 1 / 2⌋ = k := Int.floor_eq_iff.mpr ⟨by linarith, by linarith⟩
  have hrest : (k : ℚ) + 1 / 2 - k = 1 / 2 := by ring
  rw [nearest]
  simp only [hfloor, hrest, lt_irrefl, if_false, if_pos hk]

/-! ### A number of bits -/

/-- The distance of the numbers with `p` bits around `x`. -/
def ulp (p : ℕ) (x : ℚ) : ℚ := 2 ^ (Int.log 2 x + 1 - p)

/-- `x`, rounded to `p` significant bits. -/
def roundTo (p : ℕ) (x : ℚ) : ℚ := nearest (x / ulp p x) * ulp p x

variable {p : ℕ} {x : ℚ}

theorem ulp_pos (p : ℕ) (x : ℚ) : 0 < ulp p x := zpow_pos two_pos _

theorem ulp_le (hx : 0 < x) : ulp p x ≤ 2 * x / 2 ^ p := by
  have hlog : (2 : ℚ) ^ Int.log 2 x ≤ x := by exact_mod_cast Int.zpow_log_le_self one_lt_two hx
  have hsplit : ulp p x = 2 ^ Int.log 2 x * 2 / 2 ^ p := by
    rw [ulp, zpow_sub₀ two_ne_zero, zpow_add_one₀ two_ne_zero, zpow_natCast]
  rw [hsplit, mul_comm 2 x]
  gcongr

theorem ulp_le_zpow {e : ℤ} (hx : 0 < x) (h : x < 2 ^ (e + p)) : ulp p x ≤ 2 ^ e := by
  have hlog := (Int.lt_zpow_iff_log_lt (x := e + p) one_lt_two hx).mp (by exact_mod_cast h)
  exact zpow_le_zpow_right₀ one_le_two (by omega)

@[simp] theorem roundTo_zero (p : ℕ) : roundTo p 0 = 0 := by
  have hzero : nearest (0 / ulp p 0) = 0 := by
    rw [zero_div]
    exact nearest_intCast 0
  rw [roundTo, hzero, Int.cast_zero, zero_mul]

theorem abs_roundTo_sub_le_ulp (p : ℕ) (x : ℚ) : |roundTo p x - x| ≤ 1 / 2 * ulp p x := by
  have hulp := ulp_pos p x
  have hscale : roundTo p x - x = (nearest (x / ulp p x) - x / ulp p x) * ulp p x := by
    rw [roundTo, sub_mul, div_mul_cancel₀ x hulp.ne']
  rw [hscale, abs_mul, abs_of_pos hulp]
  exact mul_le_mul_of_nonneg_right (abs_nearest_sub_le _) hulp.le

/-- **The error** is one part in `2 ^ p` at most. -/
theorem abs_roundTo_sub_le (hx : 0 ≤ x) : |roundTo p x - x| ≤ x / 2 ^ p := by
  rcases hx.eq_or_lt with rfl | hpos
  · simp
  calc |roundTo p x - x| ≤ 1 / 2 * ulp p x := abs_roundTo_sub_le_ulp p x
    _ ≤ 1 / 2 * (2 * x / 2 ^ p) := by
        gcongr
        exact ulp_le hpos
    _ = x / 2 ^ p := by ring

theorem mul_le_roundTo (hx : 0 ≤ x) : x * (1 - 1 / 2 ^ p) ≤ roundTo p x := by
  have herror := (abs_le.mp (abs_roundTo_sub_le (p := p) hx)).1
  rw [mul_sub, mul_one, mul_one_div]
  linarith

theorem roundTo_nonneg (hx : 0 ≤ x) : 0 ≤ roundTo p x := by
  refine le_trans (mul_nonneg hx ?_) (mul_le_roundTo hx)
  rw [sub_nonneg, div_le_one (by positivity)]
  exact one_le_pow₀ one_le_two

/-- Rounding at a given exponent. -/
theorem roundTo_eq_nearest {e : ℤ} (hlow : (2 : ℚ) ^ (e + p - 1) ≤ x) (hhigh : x < 2 ^ (e + p)) :
    roundTo p x = nearest (x / 2 ^ e) * 2 ^ e := by
  have hpos : 0 < x := (zpow_pos two_pos _).trans_le hlow
  have hlog : Int.log 2 x = e + p - 1 := by
    refine le_antisymm ?_ ?_
    · have hlt := (Int.lt_zpow_iff_log_lt (x := e + p) one_lt_two hpos).mp (by exact_mod_cast hhigh)
      omega
    · exact (Int.zpow_le_iff_le_log one_lt_two hpos).mp (by exact_mod_cast hlow)
  have hulp : ulp p x = 2 ^ e := by
    rw [ulp, hlog]
    congr 1
    ring
  rw [roundTo, hulp]

theorem roundTo_eq {e k : ℤ} (hlow : (2 : ℚ) ^ (e + p - 1) ≤ x) (hhigh : x < 2 ^ (e + p))
    (hk : |x / 2 ^ e - k| < 1 / 2) : roundTo p x = k * 2 ^ e := by
  rw [roundTo_eq_nearest hlow hhigh, nearest_eq hk]

/-- The same, where there are two nearest ones. -/
theorem roundTo_tie {e k : ℤ} (hlow : (2 : ℚ) ^ (e + p - 1) ≤ x) (hhigh : x < 2 ^ (e + p))
    (hx : x / 2 ^ e = k + 1 / 2) (hk : k % 2 = 0) : roundTo p x = k * 2 ^ e := by
  rw [roundTo_eq_nearest hlow hhigh, hx, nearest_add_half hk]

theorem roundTo_of_lt {n : ℕ} {e : ℤ} (hn : n < 2 ^ p) : roundTo p (n * 2 ^ e) = n * 2 ^ e := by
  rcases Nat.eq_zero_or_pos n with rfl | hpos
  · simp
  set x : ℚ := n * 2 ^ e with hx
  have hx0 : 0 < x := mul_pos (Nat.cast_pos.mpr hpos) (zpow_pos two_pos e)
  have hlt : x < ((2 : ℕ) : ℚ) ^ ((p : ℤ) + e) := by
    rw [hx, Nat.cast_two, zpow_add₀ two_ne_zero, zpow_natCast]
    have hn' : (n : ℚ) < 2 ^ p := by exact_mod_cast hn
    exact mul_lt_mul_of_pos_right hn' (zpow_pos two_pos e)
  have hlog := (Int.lt_zpow_iff_log_lt one_lt_two hx0).mp hlt
  -- the distance divides the number
  obtain ⟨j, hj⟩ : ∃ j : ℕ, Int.log 2 x + 1 - p + j = e :=
    ⟨(e - (Int.log 2 x + 1 - p)).toNat, by omega⟩
  have hquot : x / ulp p x = ((n * 2 ^ j : ℤ) : ℚ) := by
    rw [div_eq_iff (ulp_pos p x).ne', ulp]
    conv_lhs => rw [hx, ← hj, zpow_add₀ two_ne_zero, zpow_natCast]
    push_cast
    ring
  rw [roundTo, hquot, nearest_intCast, ← hquot, div_mul_cancel₀ x (ulp_pos p x).ne']

/-- **No rounding**: of a number with `p` bits and zeros. -/
theorem roundTo_natCast_mul_zpow (hp : 0 < p) {n : ℕ} {e : ℤ} (hn : n ≤ 2 ^ p) :
    roundTo p (n * 2 ^ e) = n * 2 ^ e := by
  rcases hn.eq_or_lt with rfl | hlt
  · -- a power of two has one bit
    have hpow : ((2 ^ p : ℕ) : ℚ) * 2 ^ e = ((1 : ℕ) : ℚ) * 2 ^ (p + e : ℤ) := by
      rw [zpow_add₀ two_ne_zero, zpow_natCast]
      push_cast
      ring
    rw [hpow]
    exact roundTo_of_lt (Nat.one_lt_two_pow hp.ne')
  · exact roundTo_of_lt hlt

theorem roundTo_natCast (hp : 0 < p) {n : ℕ} (hn : n ≤ 2 ^ p) : roundTo p n = n := by
  simpa using roundTo_natCast_mul_zpow (e := 0) hp hn

/-! ### Neighbouring fractions -/

/-- **Between neighbours there is no fraction of a small denominator.** -/
theorem mul_le_of_neighbours {a b c d m k : ℕ} (hdet : c * b = a * d + 1) (hlow : a * k < m * b)
    (hk : k < b + d) : c * k ≤ m * d := by
  by_contra hlt
  have hleft : a * k + 1 ≤ m * b := hlow
  have hright : m * d + 1 ≤ c * k := Nat.lt_of_not_le hlt
  have hsum : b + d ≤ k := by
    have hb := Nat.mul_le_mul_right b hright
    have hd := Nat.mul_le_mul_right d hleft
    have hcb : c * k * b = a * d * k + k := by
      rw [Nat.mul_right_comm, hdet, Nat.add_mul, Nat.one_mul]
    have had : a * k * d = a * d * k := Nat.mul_right_comm ..
    have hmm : m * d * b = m * b * d := Nat.mul_right_comm ..
    rw [Nat.add_mul, Nat.one_mul] at hb hd
    omega
  omega

/-- A power inequality between ratios. -/
theorem pow_le_pow_of_mul_le {r s c d m k : ℕ} (hd : 0 < d) (hr : 0 < r) (h : s ^ d ≤ r ^ c)
    (hle : c * k ≤ m * d) : s ^ k ≤ r ^ m := by
  refine (Nat.pow_le_pow_iff_left hd.ne').mp ?_
  calc (s ^ k) ^ d = (s ^ d) ^ k := Nat.pow_right_comm ..
    _ ≤ (r ^ c) ^ k := Nat.pow_le_pow_left h k
    _ = r ^ (c * k) := (Nat.pow_mul ..).symm
    _ ≤ r ^ (m * d) := Nat.pow_le_pow_right hr hle
    _ = (r ^ m) ^ d := Nat.pow_mul ..

end Rounding
