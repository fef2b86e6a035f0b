import Mathlib.Data.Nat.Digits.Defs

/-!
# Numbers as digits of a fixed count

A number in `n` digits of base `r` is a list of `n` numbers below `r`, lowest first
(`Digits.IsDigits`); what it stands for is `Nat.ofDigits r`. Multiplying it by `m` and
adding `c` is one pass over the digits with a carry (`Digits.mulAdd`), in which what does
not fit is lost at the top (`Digits.ofDigits_mulAdd`).

To convert from base `m` to base `r`, such a pass is made for each digit, the highest
first (`Digits.convert`); the number stays the same, modulo what fits
(`Digits.ofDigits_convert`). In a base that is a power of two the bits of a number are
those of its digits (`Digits.testBit_ofDigits`).
-/

namespace Digits

/-- `ds` are digits of base `r`. -/
def IsDigits (r : ℕ) (ds : List ℕ) : Prop := ∀ d ∈ ds, d < r

/-- The digits, lowest first, times `m`, plus `c`. -/
def mulAdd (r m : ℕ) : ℕ → List ℕ → List ℕ
  | _, [] => []
  | c, d :: ds => (c + d * m) % r :: mulAdd r m ((c + d * m) / r) ds

/-- What that pass carries out at the top. -/
def carry (r m : ℕ) : ℕ → List ℕ → ℕ
  | c, [] => c
  | c, d :: ds => carry r m ((c + d * m) / r) ds

/-- The digits `xs` of base `m`, highest first, in `n` digits of base `r`. -/
def convert (r m n : ℕ) (xs : List ℕ) : List ℕ :=
  xs.foldl (fun ds c => mulAdd r m c ds) (List.replicate n 0)

variable {r m : ℕ}

@[simp] theorem length_mulAdd (c : ℕ) (ds : List ℕ) : (mulAdd r m c ds).length = ds.length := by
  induction ds generalizing c with
  | nil => rfl
  | cons d ds ih => rw [mulAdd, List.length_cons, ih, List.length_cons]

theorem mulAdd_append_singleton (c : ℕ) (ds : List ℕ) (d : ℕ) :
    mulAdd r m c (ds ++ [d]) = mulAdd r m c ds ++ [(carry r m c ds + d * m) % r] := by
  induction ds generalizing c with
  | nil => rfl
  | cons x ds ih => rw [List.cons_append, mulAdd, mulAdd, ih, List.cons_append, carry]

theorem carry_append_singleton (c : ℕ) (ds : List ℕ) (d : ℕ) :
    carry r m c (ds ++ [d]) = (carry r m c ds + d * m) / r := by
  induction ds generalizing c with
  | nil => rfl
  | cons x ds ih => rw [List.cons_append, carry, ih, carry]

/-- The carry of one digit. -/
theorem carry_step_lt {c d : ℕ} (hc : c < m) (hd : d < r) : (c + d * m) / r < m := by
  have hr : 0 < r := Nat.zero_lt_of_lt hd
  have hle : (d + 1) * m ≤ r * m := Nat.mul_le_mul_right m hd
  rw [Nat.div_lt_iff_lt_mul hr, Nat.mul_comm m]
  rw [Nat.add_mul, Nat.one_mul] at hle
  omega

/-- **A carry stays below the multiplier.** -/
theorem carry_lt {c : ℕ} {ds : List ℕ} (hc : c < m) (hds : IsDigits r ds) : carry r m c ds < m := by
  induction ds generalizing c with
  | nil => exact hc
  | cons d ds ih =>
    exact ih (carry_step_lt hc (hds d (List.mem_cons_self ..)))
      fun x hx => hds x (List.mem_cons_of_mem _ hx)

theorem isDigits_mulAdd (hr : 0 < r) (c : ℕ) (ds : List ℕ) : IsDigits r (mulAdd r m c ds) := by
  induction ds generalizing c with
  | nil => exact fun _ h => absurd h List.not_mem_nil
  | cons d ds ih =>
    intro x hx
    rcases List.mem_cons.mp hx with rfl | hx
    · exact Nat.mod_lt _ hr
    · exact ih _ x hx

/-- **One pass multiplies and adds**, modulo what fits. -/
theorem ofDigits_mulAdd (hr : 0 < r) (c : ℕ) (ds : List ℕ) :
    Nat.ofDigits r (mulAdd r m c ds) = (m * Nat.ofDigits r ds + c) % r ^ ds.length := by
  induction ds generalizing c with
  | nil => simp [mulAdd, Nat.mod_one]
  | cons d ds ih =>
    have hsplit : m * (d + r * Nat.ofDigits r ds) + c =
        c + d * m + r * (m * Nat.ofDigits r ds) := by ring
    rw [mulAdd, Nat.ofDigits_cons, Nat.ofDigits_cons, ih, List.length_cons, Nat.pow_succ,
      Nat.mul_comm (r ^ ds.length), Nat.mod_mul, hsplit, Nat.add_mul_mod_self_left,
      Nat.add_mul_div_left _ _ hr, Nat.add_comm (m * _)]

theorem isDigits_replicate (hr : 0 < r) (n : ℕ) : IsDigits r (List.replicate n 0) :=
  fun d hd => by rwa [List.eq_of_mem_replicate hd]

/-- A property of `n` digits that each pass keeps. -/
theorem foldl_mulAdd_invariant {P : List ℕ → Prop} (hP : ∀ c ds, P ds → P (mulAdd r m c ds))
    (xs : List ℕ) {ds : List ℕ} (h : P ds) : P (xs.foldl (fun ds c => mulAdd r m c ds) ds) := by
  induction xs generalizing ds with
  | nil => exact h
  | cons x xs ih => exact ih (hP x ds h)

@[simp] theorem length_convert (n : ℕ) (xs : List ℕ) : (convert r m n xs).length = n :=
  foldl_mulAdd_invariant (P := fun ds => ds.length = n)
    (fun c ds h => (length_mulAdd c ds).trans h) xs List.length_replicate

theorem isDigits_convert (hr : 0 < r) (n : ℕ) (xs : List ℕ) : IsDigits r (convert r m n xs) :=
  foldl_mulAdd_invariant (fun c ds _ => isDigits_mulAdd hr c ds) xs (isDigits_replicate hr n)

/-- The passes carry out Horner's scheme, modulo what fits. -/
theorem ofDigits_foldl_mulAdd (hr : 0 < r) (xs : List ℕ) {ds : List ℕ} {a : ℕ}
    (h : Nat.ofDigits r ds = a % r ^ ds.length) :
    Nat.ofDigits r (xs.foldl (fun ds c => mulAdd r m c ds) ds) =
      xs.foldl (fun a c => c + m * a) a % r ^ ds.length := by
  induction xs generalizing ds a with
  | nil => exact h
  | cons x xs ih =>
    have hstep : Nat.ofDigits r (mulAdd r m x ds) = (x + m * a) % r ^ (mulAdd r m x ds).length := by
      rw [ofDigits_mulAdd hr, h, length_mulAdd, Nat.add_comm x, Nat.add_mod, Nat.mul_mod_mod,
        ← Nat.add_mod]
    rw [List.foldl_cons, List.foldl_cons, ih hstep, length_mulAdd]

/-- **The conversion keeps the number**, modulo what fits. -/
theorem ofDigits_convert (hr : 0 < r) (n : ℕ) (xs : List ℕ) :
    Nat.ofDigits r (convert r m n xs) = Nat.ofDigits m xs.reverse % r ^ n := by
  have hzero : Nat.ofDigits r (List.replicate n 0) = 0 % r ^ (List.replicate n 0).length := by
    rw [Nat.ofDigits_replicate_zero, Nat.zero_mod]
  rw [convert, ofDigits_foldl_mulAdd hr xs hzero, List.length_replicate, Nat.ofDigits_eq_foldr,
    List.foldr_reverse]
  rfl

/-- In base `2 ^ w` the bits are those of the digits. -/
theorem testBit_ofDigits {w : ℕ} (hw : 0 < w) {ds : List ℕ} (hds : IsDigits (2 ^ w) ds) (j : ℕ) :
    (Nat.ofDigits (2 ^ w) ds).testBit j = (ds.getD (j / w) 0).testBit (j % w) := by
  induction ds generalizing j with
  | nil => simp
  | cons d ds ih =>
    have hd : d < 2 ^ w := hds d (List.mem_cons_self ..)
    have htail : IsDigits (2 ^ w) ds := fun x hx => hds x (List.mem_cons_of_mem _ hx)
    have hcons : Nat.ofDigits (2 ^ w) (d :: ds) = 2 ^ w * Nat.ofDigits (2 ^ w) ds + d := by
      rw [Nat.ofDigits_cons, Nat.add_comm]
    rw [hcons, Nat.testBit_two_pow_mul_add _ hd]
    split_ifs with hj
    · rw [Nat.div_eq_of_lt hj, Nat.mod_eq_of_lt hj, List.getD_cons_zero]
    · -- the digit is one of those behind the first
      have hle : w ≤ j := not_lt.mp hj
      have hdiv : j / w = (j - w) / w + 1 := by
        rw [← Nat.add_div_right _ hw, Nat.sub_add_cancel hle]
      have hmod : (j - w) % w = j % w := (Nat.mod_eq_sub_mod hle).symm
      rw [ih htail, hdiv, List.getD_cons_succ, hmod]

end Digits
