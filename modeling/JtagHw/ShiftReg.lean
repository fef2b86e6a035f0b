import Mathlib.Data.List.Rotate
import Mathlib.Data.Nat.Digits.Defs
import JtagHw.Lib.Fifo

/-!
# The shift register of the TAP controller

`inc/shift_reg.hpp` keeps a register of `N` cells in a `std::array<int, N>`,
cell `0` being the one that is shifted out first. `JtagHw.ShiftReg` is that
array, its length carried as a field, and the operations below are the ones of
the source: `JtagHw.ShiftReg.shift` rotates the cells and overwrites the last
one, `JtagHw.ShiftReg.load` writes the low `N` bits of a word, lowest first, and
`JtagHw.ShiftReg.val` and `JtagHw.ShiftReg.toStr` read the cells back, highest
first, as a number and as a text.

The rest of the file says what these do in the terms of `Fifo`: a shift is a
`Fifo.push` (`JtagHw.ShiftReg.shift_arr`), so a register is the window of width
`N` on the stream made of what it was loaded with and what it was fed since; and
`val` reads that window as a binary number written lowest bit first
(`JtagHw.ShiftReg.val_of_bits`).
-/

namespace JtagHw

/-- The C type `int`. -/
abbrev CInt := BitVec 32

/-- A bit, as the `int` that carries it. -/
def cbit (b : Bool) : CInt := if b then 1 else 0

@[simp] theorem cbit_true : cbit true = 1 := rfl

@[simp] theorem cbit_false : cbit false = 0 := rfl

/-- `template <std::size_t N> class ShiftReg`: the array of cells, of length
`N` as in the source. -/
structure ShiftReg (N : ℕ) where
  /-- The cells, the one shifted out first in front. -/
  arr : List CInt
  /-- There are `N` of them. -/
  size_arr : arr.length = N
  deriving DecidableEq

namespace ShiftReg

variable {N : ℕ}

@[ext] theorem ext {r s : ShiftReg N} (h : r.arr = s.arr) : r = s := by
  cases r
  cases s
  simpa using h

attribute [simp] size_arr

/-- `explicit ShiftReg()`: every cell is filled with zero. -/
def zero (N : ℕ) : ShiftReg N := ⟨List.replicate N 0, by simp⟩

/-- `int shift(int in)`: the front cell is read, the array is rotated one place
to the front, and the last cell, where the front one has landed, is overwritten
with the input. -/
def shift (r : ShiftReg N) (inp : CInt) : ShiftReg N × CInt :=
  (⟨(r.arr.rotate 1).set (N - 1) inp, by simp⟩, r.arr.headD 0)

/-- `void load(uint64_t data)`: cell `i` becomes bit `i` of the word. The cells
are all overwritten, so the receiver does not matter; the listing of the cells
on the standard output is left out. -/
def load (_r : ShiftReg N) (data : BitVec 64) : ShiftReg N :=
  ⟨(List.range N).map fun i => ((data >>> i) &&& 0x1).setWidth 32, by simp⟩

/-- `uint64_t val()`: the cells read from the last to the first, each `int`
or-ed, sign extended, into the shifted accumulator. -/
def val (r : ShiftReg N) : BitVec 64 :=
  (List.range N).foldl (fun tmp i => (tmp <<< 1) ||| (r.arr.getD (N - 1 - i) 0).signExtend 64) 0

/-- `std::string to_str() const`: a digit for every cell, from the last to the
first. -/
def toStr (r : ShiftReg N) : String :=
  (List.range N).foldl (fun s i => s ++ if r.arr.getD (N - 1 - i) 0 ≠ 0 then "1" else "0") ""

/-! ### Shifting is pushing -/

theorem rotate_one_set {r : List CInt} (h : 0 < r.length) (x : CInt) :
    (r.rotate 1).set (r.length - 1) x = Fifo.push r x := by
  match r with
  | a :: r => simp [List.rotate_cons_succ]

theorem shift_arr (hN : 0 < N) (r : ShiftReg N) (x : CInt) :
    (r.shift x).1.arr = Fifo.push r.arr x := by
  have h := rotate_one_set (r := r.arr) (by simpa using hN) x
  rwa [size_arr] at h

@[simp] theorem shift_out (r : ShiftReg N) (x : CInt) : (r.shift x).2 = r.arr.headD 0 := rfl

/-- **One shift of a register that is a window on its stream**: the window moves
one place. -/
theorem shift_window (hN : 0 < N) {r : ShiftReg N} {l : List CInt} (hl : N ≤ l.length)
    (hr : r.arr = l.rtake N) (x : CInt) : (r.shift x).1.arr = (l ++ [x]).rtake N := by
  rw [shift_arr hN, hr, Fifo.push_rtake hN hl]

/-- **What a register that is a window on its stream answers**: the element `N`
places from the end of the stream. -/
theorem shift_out_window {r : ShiftReg N} {l : List CInt} (hr : r.arr = l.rtake N) (x : CInt) :
    (r.shift x).2 = l.getD (l.length - N) 0 := by
  rw [shift_out, hr, Fifo.headD_rtake]

/-! ### Loading -/

/-- The low `N` bits of a word, lowest first. -/
def lowBits (N : ℕ) (data : BitVec 64) : List Bool := (List.range N).map data.getLsbD

@[simp] theorem length_lowBits (N : ℕ) (data : BitVec 64) : (lowBits N data).length = N := by
  simp [lowBits]

theorem setWidth_bit (data : BitVec 64) (i : ℕ) :
    ((data >>> i) &&& 0x1).setWidth 32 = cbit (data.getLsbD i) := by
  have h1 : (data >>> i) &&& 0x1#64 = if data.getLsbD i then 1 else 0 := by
    rw [BitVec.and_one_eq_setWidth_ofBool_getLsbD]
    cases h : data.getLsbD i <;> simp [h]
  change ((data >>> i) &&& 0x1#64).setWidth 32 = _
  rw [h1]
  cases data.getLsbD i <;> rfl

@[simp] theorem load_arr (r : ShiftReg N) (data : BitVec 64) :
    (r.load data).arr = (lowBits N data).map cbit := by
  simp only [load, lowBits, List.map_map]
  exact List.map_congr_left fun i _ => setWidth_bit data i

/-! ### Reading a number -/

/-- The number a list of bits writes, lowest bit first. -/
def bitsToNat (l : List Bool) : ℕ := Nat.ofDigits 2 (l.map Bool.toNat)

@[simp] theorem bitsToNat_nil : bitsToNat [] = 0 := rfl

@[simp] theorem bitsToNat_cons (b : Bool) (l : List Bool) :
    bitsToNat (b :: l) = b.toNat + 2 * bitsToNat l := by
  simp [bitsToNat, Nat.ofDigits_cons]

theorem shl_one (t : BitVec 64) : t <<< 1 = 2 * t := by
  rw [BitVec.shiftLeft_eq_mul_twoPow, BitVec.mul_comm]
  rfl

/-- Or-ing a bit into a shifted word is doubling the word and adding the bit. -/
theorem shl_or_cbit (t : BitVec 64) (b : Bool) :
    (t <<< 1) ||| (cbit b).signExtend 64 = BitVec.ofNat 64 b.toNat + 2 * t := by
  have hand : (t <<< 1) &&& (cbit b).signExtend 64 = 0#64 := by
    have hb : (cbit b).signExtend 64 = BitVec.setWidth 64 (BitVec.ofBool b) := by
      cases b <;> decide
    ext i hi
    rcases Nat.eq_zero_or_pos i with rfl | hpos
    · simp
    · simp [hb, BitVec.getLsbD_ofBool, Nat.ne_of_gt hpos]
  have hb : (cbit b).signExtend 64 = BitVec.ofNat 64 b.toNat := by cases b <;> rfl
  rw [← BitVec.add_eq_or_of_and_eq_zero _ _ hand, shl_one, hb, BitVec.add_comm]

/-- The accumulator of `val` over the cells of a list of bits. -/
theorem foldl_cells (l : List Bool) :
    (l.map cbit).reverse.foldl
        (fun (tmp : BitVec 64) (c : CInt) => (tmp <<< 1) ||| c.signExtend 64) 0 =
      BitVec.ofNat 64 (bitsToNat l) := by
  induction l with
  | nil => rfl
  | cons b l ih =>
    rw [List.map_cons, List.reverse_cons, List.foldl_append, ih]
    simp only [List.foldl_cons, List.foldl_nil, bitsToNat_cons]
    rw [shl_or_cbit, BitVec.ofNat_add, BitVec.ofNat_mul]
    rfl

/-- The cells the source reads, counting down from the last, are the array
backwards. -/
theorem range_getD_reverse (r : List CInt) :
    (List.range r.length).map (fun i => r.getD (r.length - 1 - i) 0) = r.reverse := by
  refine List.ext_getElem (by simp) fun i h1 h2 => ?_
  have hi : i < r.length := by simpa using h2
  have hj : r.length - 1 - i < r.length := by omega
  simp [List.getElem_reverse, List.getElem?_eq_getElem hj]

/-- **`val` is the number the cells write, lowest bit first.** -/
theorem val_of_bits {r : ShiftReg N} {l : List Bool} (h : r.arr = l.map cbit) :
    r.val = BitVec.ofNat 64 (bitsToNat l) := by
  have hrev := range_getD_reverse r.arr
  rw [size_arr] at hrev
  rw [← foldl_cells, ← h, ← hrev, List.foldl_map, val]

/-! ### A register along a scan -/

/-- **A register in the middle of a scan**: it was loaded with the bits `cap` and
has been fed the bits `fed` since, and holds the last `N` of them. -/
structure Holds (r : ShiftReg N) (cap fed : List Bool) : Prop where
  length_cap : cap.length = N
  arr_eq : r.arr = ((cap ++ fed).map cbit).rtake N

theorem holds_load (r : ShiftReg N) (data : BitVec 64) :
    (r.load data).Holds (lowBits N data) [] :=
  ⟨by simp, by rw [load_arr, List.append_nil, Fifo.rtake_of_length_eq (by simp)]⟩

namespace Holds

variable {r : ShiftReg N} {cap fed : List Bool}

theorem le_length (h : r.Holds cap fed) : N ≤ ((cap ++ fed).map cbit).length := by
  simp [h.length_cap]

/-- A shift feeds one more bit. -/
theorem shift (hN : 0 < N) (h : r.Holds cap fed) (b : Bool) :
    (r.shift (cbit b)).1.Holds cap (fed ++ [b]) :=
  ⟨h.length_cap, by rw [shift_window hN h.le_length h.arr_eq]; simp⟩

/-- **What a shift answers**: after `k` bits have been fed, element `k` of the
captured bits followed by the fed ones. -/
theorem shift_out (hN : 0 < N) (h : r.Holds cap fed) (x : CInt) :
    (cap ++ fed)[fed.length]?.map cbit = some (r.shift x).2 := by
  have hlt : fed.length < ((cap ++ fed).map cbit).length := by
    rw [List.length_map, List.length_append, h.length_cap]
    omega
  have hk : ((cap ++ fed).map cbit).length - N = fed.length := by
    rw [List.length_map, List.length_append, h.length_cap]
    omega
  rw [shift_out_window h.arr_eq, hk, ← List.getElem?_map, List.getD_eq_getElem?_getD,
    List.getElem?_eq_getElem hlt, Option.getD_some]

/-- The number in the register is the one its window writes. -/
theorem val (h : r.Holds cap fed) :
    r.val = BitVec.ofNat 64 (bitsToNat ((cap ++ fed).rtake N)) := by
  refine val_of_bits ?_
  rw [h.arr_eq, List.rtake, List.rtake, List.length_map, List.map_drop]

end Holds

end ShiftReg

end JtagHw
