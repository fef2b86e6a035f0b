import Mathlib.Data.Nat.Basic
import Mathlib.Algebra.Group.Nat.Defs
import Mathlib.Algebra.Order.Monoid.NatCast

/-!
# Counted loops with a counter of fixed width

The loop `for (i = 0; i < len; i++) body` of a language whose counter `i` wraps
at `2 ^ w`, over a state and with a body that may stop with a fault. The bound
`len` may be of a wider type than the counter, and then the loop may never end:
that is what the fuel below is about. It is *one turn of the counter*, `2 ^ w`
iterations, and running out of it is not an artefact – a loop that has seen all
the values of its counter without leaving sees them again.

The rules are the invariant rule of a loop that runs to its bound
(`CountedLoop.forLoop_rule`) and the one of a loop that is stopped by a fault of
its body on the way there (`CountedLoop.forLoop_error`).
-/

namespace CountedLoop

variable {ε σ : Type*} {w : ℕ}

/-- The iterations from the counter value `i` on, `fuel` of them at most; `d` is the
fault that stands for a loop that never ends. -/
def loopFrom (d : ε) (len : ℕ) (f : BitVec w → σ → Except ε σ) :
    ℕ → BitVec w → σ → Except ε σ
  | 0, _, _ => .error d
  | fuel + 1, i, s =>
    if i.toNat < len then
      match f i s with
      | .ok s' => loopFrom d len f fuel (i + 1) s'
      | .error e => .error e
    else .ok s

/-- `for (i = 0; i < len; i++) body`, with a counter of width `w`. -/
def forLoop (d : ε) (len : ℕ) (f : BitVec w → σ → Except ε σ) (s : σ) : Except ε σ :=
  loopFrom d len f (2 ^ w) 0 s

variable {d : ε} {len : ℕ} {f : BitVec w → σ → Except ε σ} {I : ℕ → σ → Prop}

theorem ofNat_succ (k : ℕ) : BitVec.ofNat w k + 1 = BitVec.ofNat w (k + 1) := by
  rw [BitVec.ofNat_add]
  rfl

/-- The invariant rule from the counter value `k` on, by induction on what is
left to the bound. -/
theorem loopFrom_rule (hlen : len < 2 ^ w)
    (hstep : ∀ k < len, ∀ s, I k s → ∃ s', f (BitVec.ofNat w k) s = .ok s' ∧ I (k + 1) s') :
    ∀ (left k fuel : ℕ) (s : σ), k + left = len → left < fuel → I k s →
      ∃ s', loopFrom d len f fuel (BitVec.ofNat w k) s = .ok s' ∧ I len s' := by
  intro left
  induction left with
  | zero =>
    intro k fuel s hk hfuel hI
    obtain ⟨fuel, rfl⟩ := Nat.exists_eq_add_one.mpr hfuel
    obtain rfl : k = len := by omega
    exact ⟨s, by simp [loopFrom, Nat.mod_eq_of_lt hlen], hI⟩
  | succ left ih =>
    intro k fuel s hk hfuel hI
    obtain ⟨fuel, rfl⟩ := Nat.exists_eq_add_one.mpr (show 0 < fuel by omega)
    obtain ⟨s₁, hbody, hI₁⟩ := hstep k (by omega) s hI
    obtain ⟨s₂, hloop, hI₂⟩ := ih (k + 1) fuel s₁ (by omega) (by omega) hI₁
    refine ⟨s₂, ?_, hI₂⟩
    have hlt : (BitVec.ofNat w k).toNat < len := by
      rw [BitVec.toNat_ofNat, Nat.mod_eq_of_lt (by omega)]
      omega
    rw [loopFrom, if_pos hlt, hbody, ofNat_succ]
    exact hloop

/-- **The invariant rule**: a loop whose bound its counter can reach, and whose
body keeps an invariant below the bound, ends with the invariant at the bound. -/
theorem forLoop_rule (hlen : len < 2 ^ w) {s : σ} (h0 : I 0 s)
    (hstep : ∀ k < len, ∀ s, I k s → ∃ s', f (BitVec.ofNat w k) s = .ok s' ∧ I (k + 1) s') :
    ∃ s', forLoop d len f s = .ok s' ∧ I len s' :=
  loopFrom_rule hlen hstep len 0 (2 ^ w) s (by omega) hlen h0

/-- A loop with the bound `0`. -/
theorem forLoop_zero (s : σ) : forLoop d 0 f s = .ok s := by
  obtain ⟨s', hok, rfl⟩ := forLoop_rule (d := d) (f := f) (I := fun _ s' => s' = s)
    (Nat.two_pow_pos w) rfl (fun k hk => absurd hk (Nat.not_lt_zero k))
  exact hok

/-- The fault rule from the counter value `k` on, by induction on what is left to
the faulting iteration. -/
theorem loopFrom_error {n : ℕ} {e : ε} (hn : n < len) (hw : n < 2 ^ w)
    (hstep : ∀ k < n, ∀ s, I k s → ∃ s', f (BitVec.ofNat w k) s = .ok s' ∧ I (k + 1) s')
    (hfail : ∀ s, I n s → f (BitVec.ofNat w n) s = .error e) :
    ∀ (left k fuel : ℕ) (s : σ), k + left = n → left < fuel → I k s →
      loopFrom d len f fuel (BitVec.ofNat w k) s = .error e := by
  intro left
  induction left with
  | zero =>
    intro k fuel s hk hfuel hI
    obtain ⟨fuel, rfl⟩ := Nat.exists_eq_add_one.mpr hfuel
    obtain rfl : k = n := by omega
    have hlt : (BitVec.ofNat w k).toNat < len := by
      rwa [BitVec.toNat_ofNat, Nat.mod_eq_of_lt hw]
    rw [loopFrom, if_pos hlt, hfail s hI]
  | succ left ih =>
    intro k fuel s hk hfuel hI
    obtain ⟨fuel, rfl⟩ := Nat.exists_eq_add_one.mpr (show 0 < fuel by omega)
    obtain ⟨s₁, hbody, hI₁⟩ := hstep k (by omega) s hI
    have hlt : (BitVec.ofNat w k).toNat < len := by
      rw [BitVec.toNat_ofNat, Nat.mod_eq_of_lt (by omega)]
      omega
    rw [loopFrom, if_pos hlt, hbody, ofNat_succ]
    exact ih (k + 1) fuel s₁ (by omega) (by omega) hI₁

/-- **The fault rule**: a loop whose body keeps an invariant up to an iteration
where the invariant makes it fault stops with that fault, however large the
bound. -/
theorem forLoop_error {n : ℕ} {e : ε} (hn : n < len) (hw : n < 2 ^ w) {s : σ} (h0 : I 0 s)
    (hstep : ∀ k < n, ∀ s, I k s → ∃ s', f (BitVec.ofNat w k) s = .ok s' ∧ I (k + 1) s')
    (hfail : ∀ s, I n s → f (BitVec.ofNat w n) s = .error e) :
    forLoop d len f s = .error e :=
  loopFrom_error hn hw hstep hfail n 0 (2 ^ w) s (by omega) hw h0

end CountedLoop
