import Mathlib.Data.Nat.Bitwise
import Mathlib.Data.String.Lemmas
import JtagHw.ShiftReg

/-!
# A shift register, as a window and as a number

The four functions of `inc/shift_reg.hpp` number the cells in opposite directions:
`load` and `shift` start with the lowest bit, `val` and `to_str` with the highest.
What ties them together is the list of bits in the cells, lowest first, and
everything here is said of a register whose cells hold such a list.

* Shifting is `Fifo.shift` on the cells (`JtagHw.ShiftReg.run_shift`), so that a loaded
  register is, at all times, the window on the stream that starts with the loaded
  bits and goes on with the shifted ones.
* `val` is the number that the list writes, and one shift halves it and adds
  its new highest bit (`JtagHw.ShiftReg.bitsToNat_push`).
* `to_str` is the numeral of that number, padded to the width
  (`JtagHw.ShiftReg.toStr_of_bits`).
-/

namespace JtagHw

namespace ShiftReg

variable {N : ℕ}

/-! ### Numbers written lowest bit first -/

theorem bitsToNat_lt (l : List Bool) : bitsToNat l < 2 ^ l.length := by
  have hlt := Nat.ofDigits_lt_base_pow_length (b := 2) (l := l.map Bool.toNat) (by norm_num)
    (by
      intro x hx
      obtain ⟨b, -, rfl⟩ := List.mem_map.mp hx
      exact b.toNat_lt)
  rwa [List.length_map] at hlt

/-- The last bit of the list is the highest one. -/
theorem bitsToNat_concat (l : List Bool) (b : Bool) :
    bitsToNat (l ++ [b]) = bitsToNat l + b.toNat * 2 ^ l.length := by
  rw [bitsToNat, List.map_append, Nat.ofDigits_append, List.length_map, List.map_singleton,
    Nat.ofDigits_singleton, Nat.mul_comm, bitsToNat]

/-- Bit `i` of the number is element `i` of the list. -/
theorem testBit_bitsToNat (l : List Bool) (i : ℕ) : (bitsToNat l).testBit i = l.getD i false := by
  induction l generalizing i with
  | nil => simp
  | cons b l ih =>
    have hbit : bitsToNat (b :: l) = Nat.bit b (bitsToNat l) := by
      rw [bitsToNat_cons, Nat.bit_val, Nat.add_comm]
    rw [hbit]
    cases i with
    | zero => rw [Nat.testBit_bit_zero, List.getD_cons_zero]
    | succ i => rw [Nat.testBit_bit_succ, ih, List.getD_cons_succ]

/-- The number of the low bits of a word. -/
theorem bitsToNat_lowBits (data : BitVec 64) : bitsToNat (lowBits N data) = data.toNat % 2 ^ N := by
  refine Nat.eq_of_testBit_eq fun i => ?_
  rw [testBit_bitsToNat, Nat.testBit_mod_two_pow, lowBits]
  by_cases hi : i < N
  · rw [List.getD_eq_getElem _ _ (by simpa using hi)]
    simp [hi, BitVec.getLsbD]
  · rw [List.getD_eq_default _ _ (by simpa using hi)]
    simp [hi]

/-- **One shift, on numbers**: the lowest bit is dropped, and the new one comes in
as the highest. -/
theorem bitsToNat_push {l : List Bool} (hl : 0 < l.length) (b : Bool) :
    bitsToNat (Fifo.push l b) = bitsToNat l / 2 + b.toNat * 2 ^ (l.length - 1) ∧
      (l.headD false).toNat = bitsToNat l % 2 := by
  match l with
  | a :: l =>
    have ha := a.toNat_lt
    rw [Fifo.push_cons, bitsToNat_concat, bitsToNat_cons, List.headD_cons, List.length_cons,
      Nat.add_sub_cancel]
    constructor <;> omega

/-- The digit of a bit. -/
def digit (b : Bool) : Char := if b then '1' else '0'

theorem digitChar_toNat (b : Bool) : Nat.digitChar b.toNat = digit b := by
  cases b <;> rfl

/-- **The numeral of the number**, by induction on its bits: the digit of the lowest one
stands last. -/
theorem leftpad_toDigits {l : List Bool} (hl : l ≠ []) :
    (Nat.toDigits 2 (bitsToNat l)).leftpad l.length '0' = (l.map digit).reverse := by
  induction l with
  | nil => exact absurd rfl hl
  | cons b l ih =>
    have hdiv : bitsToNat (b :: l) / 2 = bitsToNat l := by
      have hb := b.toNat_lt
      rw [bitsToNat_cons]
      omega
    have hmod : bitsToNat (b :: l) % 2 = b.toNat := by
      have hb := b.toNat_lt
      rw [bitsToNat_cons]
      omega
    rw [List.map_cons, List.reverse_cons]
    rcases eq_or_ne l [] with rfl | hne
    · rw [bitsToNat_cons, bitsToNat_nil, Nat.mul_zero, Nat.add_zero,
        Nat.toDigits_of_lt_base b.toNat_lt, digitChar_toNat]
      rfl
    · rw [← ih hne]
      by_cases hzero : bitsToNat l = 0
      · -- the rest is zeros, and its numeral is the padding but for one digit
        have hlt : bitsToNat (b :: l) < 2 := by omega
        have hpos : 0 < l.length := List.length_pos_iff.mpr hne
        obtain ⟨n, hn⟩ := Nat.exists_eq_add_one.mpr hpos
        rw [Nat.toDigits_of_lt_base hlt, ← Nat.mod_eq_of_lt hlt, hmod, digitChar_toNat, hzero,
          Nat.toDigits_zero, List.length_cons, hn]
        simp [List.leftpad, List.replicate_succ']
      · have hle : 2 ≤ bitsToNat (b :: l) := by omega
        rw [Nat.toDigits_of_base_le (by norm_num) hle, hdiv, hmod, digitChar_toNat]
        simp [List.leftpad]

/-! ### Registers of bits -/

section Bits

variable {r : ShiftReg N} {l : List Bool}

/-- A register has as many cells as its list of bits elements. -/
theorem length_of_bits (h : r.arr = l.map cbit) : l.length = N := by
  rw [← r.size_arr, h, List.length_map]

/-- A shift is a push on the list of bits. -/
theorem shift_of_bits (hN : 0 < N) (h : r.arr = l.map cbit) (b : Bool) :
    (r.shift (cbit b)).1.arr = (Fifo.push l b).map cbit ∧
      (r.shift (cbit b)).2 = cbit (l.headD false) := by
  constructor
  · rw [shift_arr hN, h, Fifo.push, Fifo.push, ← List.map_tail, List.map_append,
      List.map_singleton]
  · rw [shift_out, h]
    cases l <;> rfl

/-- In a word of 64 bits there is room for the number. -/
theorem toNat_val_of_bits (hN : N ≤ 64) (h : r.arr = l.map cbit) :
    r.val.toNat = bitsToNat l := by
  rw [val_of_bits h, BitVec.toNat_ofNat, Nat.mod_eq_of_lt]
  calc bitsToNat l < 2 ^ l.length := bitsToNat_lt l
    _ ≤ 2 ^ 64 := Nat.pow_le_pow_right (by norm_num) (by rwa [length_of_bits h])

/-- The accumulator of `to_str` over the cells of a list of bits. -/
theorem foldl_digits (l : List Bool) (s : String) :
    (l.map cbit).foldl (fun s (c : CInt) => s ++ if c ≠ 0 then "1" else "0") s =
      s ++ String.ofList (l.map digit) := by
  induction l generalizing s with
  | nil => exact String.ext (by simp)
  | cons b l ih =>
    rw [List.map_cons, List.foldl_cons, ih]
    cases b <;> exact String.ext (by simp [digit])

/-- **`to_str` is the numeral of `val`**, with as many digits as there are cells. -/
theorem toStr_of_bits (hN : 0 < N) (h : r.arr = l.map cbit) :
    r.toStr = String.leftpad N '0' (String.ofList (Nat.toDigits 2 (bitsToNat l))) := by
  have hne : l ≠ [] := List.length_pos_iff.mp (by rwa [length_of_bits h])
  have hrev := range_getD_reverse r.arr
  rw [size_arr] at hrev
  have hfold : r.toStr =
      r.arr.reverse.foldl (fun s (c : CInt) => s ++ if c ≠ 0 then "1" else "0") "" := by
    rw [← hrev, List.foldl_map, toStr]
  rw [hfold, h, ← List.map_reverse, foldl_digits, List.map_reverse, ← leftpad_toDigits hne,
    length_of_bits h]
  exact String.ext (by simp [String.leftpad])

/-- **What a register says of itself as a number.** -/
structure NumericView (r : ShiftReg N) : Prop where
  /-- `val` has no bits but those of the cells. -/
  lt : r.val.toNat < 2 ^ N
  /-- Bit `i` of `val` is cell `i`. -/
  cell : ∀ i < N, r.arr[i]? = some (cbit (r.val.getLsbD i))
  /-- A shift halves `val` and adds its new highest bit. -/
  shift_val : ∀ b, (r.shift (cbit b)).1.val.toNat = r.val.toNat / 2 + b.toNat * 2 ^ (N - 1)
  /-- A shift answers the remainder. -/
  shift_out : ∀ b, (r.shift (cbit b)).2.toNat = r.val.toNat % 2
  /-- `to_str` is the binary numeral of `val` with `N` digits, the highest first. -/
  toStr : r.toStr = String.leftpad N '0' (String.ofList (Nat.toDigits 2 r.val.toNat))

theorem numericView_of_bits (hN : 0 < N) (h64 : N ≤ 64) (h : r.arr = l.map cbit) :
    NumericView r := by
  have hlen := length_of_bits h
  have hval := toNat_val_of_bits h64 h
  have hpush := fun b => bitsToNat_push (l := l) (by rwa [hlen]) b
  refine ⟨?_, fun i hi => ?_, fun b => ?_, fun b => ?_, ?_⟩
  · rw [hval, ← hlen]
    exact bitsToNat_lt l
  · have hbit : r.val.getLsbD i = l.getD i false := by
      rw [BitVec.getLsbD, hval, testBit_bitsToNat]
    have hil : i < l.length := by rwa [hlen]
    rw [hbit, h, List.getElem?_map, List.getElem?_eq_getElem hil, List.getD_eq_getElem _ _ hil]
    rfl
  · rw [toNat_val_of_bits h64 (shift_of_bits hN h b).1, hval, ← hlen]
    exact (hpush b).1
  · rw [(shift_of_bits hN h b).2, hval, ← (hpush b).2]
    cases l.headD false <;> rfl
  · rw [hval]
    exact toStr_of_bits hN h

end Bits

/-! ### Loaded, then shifted -/

/-- The stream of a register that is loaded and then fed. -/
def stream (N : ℕ) (data : BitVec 64) (fed : List Bool) : List Bool := lowBits N data ++ fed

/-- The register after `load` and a shift for every bit. -/
def loadShift (r : ShiftReg N) (data : BitVec 64) (fed : List Bool) : ShiftReg N :=
  Mealy.final shift (r.load data) (fed.map cbit)

/-- **The register is a FIFO on its cells.** -/
theorem run_shift (hN : 0 < N) (r : ShiftReg N) (xs : List CInt) :
    Mealy.outputs shift r xs = (r.arr ++ xs).take xs.length ∧
      (Mealy.final shift r xs).arr = (r.arr ++ xs).drop xs.length := by
  have hhom : ∀ (r : ShiftReg N) (x : CInt),
      Fifo.shift 0 r.arr x = ((r.shift x).1.arr, (r.shift x).2) := by
    intro r x
    rw [shift_arr hN, shift_out, Fifo.shift]
  have hpos : 0 < r.arr.length := by rwa [size_arr]
  obtain ⟨houts, hfinal⟩ := Mealy.run_hom shift (f := ShiftReg.arr) hhom r xs
  rw [houts, hfinal, Fifo.outputs_shift _ _ _ hpos, Fifo.final_shift _ _ _ hpos]
  exact ⟨rfl, rfl⟩

/-- **A shift register is a FIFO window with a numeric view.** Loaded with a word and fed a
list of bits, it answers the front of the stream and keeps the last `N` elements of it, and
what it keeps is read as a number and as a text; in particular a loaded register has the
low bits of the word for its number. -/
theorem window_and_number (hN : 1 ≤ N) (h64 : N ≤ 64) (r : ShiftReg N) (data : BitVec 64)
    (fed : List Bool) :
    Mealy.outputs shift (r.load data) (fed.map cbit) =
        ((stream N data fed).take fed.length).map cbit ∧
      (r.loadShift data fed).arr = ((stream N data fed).rtake N).map cbit ∧
      (r.load data).val.toNat = data.toNat % 2 ^ N ∧ NumericView (r.loadShift data fed) := by
  obtain ⟨houts, hfinal⟩ := run_shift hN (r.load data) (fed.map cbit)
  have hstream : (r.load data).arr ++ fed.map cbit = (stream N data fed).map cbit := by
    rw [load_arr, stream, List.map_append]
  have hwindow : (r.loadShift data fed).arr = ((stream N data fed).rtake N).map cbit := by
    have hlen : (stream N data fed).length - N = fed.length := by
      rw [stream, List.length_append, length_lowBits, Nat.add_sub_cancel_left]
    rw [loadShift, hfinal, hstream, List.length_map, List.rtake, hlen, List.map_drop]
  refine ⟨?_, hwindow, ?_, numericView_of_bits hN h64 hwindow⟩
  · rw [houts, hstream, List.length_map, List.map_take]
  · rw [toNat_val_of_bits h64 (load_arr r data), bitsToNat_lowBits]

/-- The instruction register of the TAP controller, in a scan that is longer than it. -/
theorem window_and_number_ir :
    Mealy.outputs shift ((zero 10).load 0b0101010101) ([true, true, false].map cbit) =
        ((stream 10 0b0101010101 [true, true, false]).take 3).map cbit ∧
      ((zero 10).loadShift 0b0101010101 [true, true, false]).arr =
        ((stream 10 0b0101010101 [true, true, false]).rtake 10).map cbit ∧
      ((zero 10).load 0b0101010101).val.toNat = (0b0101010101 : BitVec 64).toNat % 2 ^ 10 ∧
      NumericView ((zero 10).loadShift 0b0101010101 [true, true, false]) :=
  window_and_number (by decide) (by decide) (zero 10) 0b0101010101 [true, true, false]

end ShiftReg

end JtagHw
