import Mathlib.Data.List.TakeWhile
import Mathlib.Tactic.IntervalCases
import Mathlib.Tactic.NormNum
import JtagHw.Lib.Digits
import JtagHw.Lib.Rounding
import JtagHw.Mpsse.Transfer

/-!
# Numbers written out

`buf_to_str` and `str_to_buf` of `openocd/src/helper/binarybuffer.c` write the number in a
buffer as a string, in hexadecimal, decimal or octal, and read such a string back. Both
convert digit by digit, between the bytes of the buffer and the characters of the string,
with a carry in a `uint32_t`. Either direction keeps the number, modulo what fits into the digits
it has (`JtagHw.numeral_bufToStr`, `JtagHw.strToBuf_bit`).

How many digits there have to be is computed from the logarithms of the bases, in `float`. The
constants are not the logarithms and the products are rounded, so that long numbers get too few
digits: decimal ones from 14369 bytes on (`JtagHw.maxBytes`), and the other way from 1811 digits
on (`JtagHw.maxDigits`). Below these bounds there are enough (`JtagHw.pow_le_toStr`,
`JtagHw.pow_le_toBuf`), at them there are not (`JtagHw.toStr_short`, `JtagHw.toBuf_short`); and
where there are enough the way there and back changes nothing (`JtagHw.strToBuf_bufToStr`).
-/

namespace JtagHw

open PackedBits Digits Rounding

variable {m n : ℕ}

/-- A character of a string. -/
def chr (c : Char) : Byte := BitVec.ofNat 8 c.toNat

/-- A decimal constant, a `double`, in a `float`. -/
def toFloat (x : ℚ) : ℚ := roundTo 24 (roundTo 53 x)

/-- The product of an `unsigned` and a `float`: the conversion is rounded, and the product. -/
def timesFloat (x : ℕ) (factor : ℚ) : ℚ := roundTo 24 (roundTo 24 x * factor)

/-- `static int ceil_f_to_u32(float x)`. The fraction that is cut off is a `float` itself, so that
the difference is exact. -/
def ceilFToU32 (x : ℚ) : ℕ :=
  if x < 0 then 0
  else
    let y := ⌊x⌋₊
    if x - y > 0 then y + 1 else y

theorem ceilFToU32_eq (x : ℚ) : ceilFToU32 x = ⌈x⌉₊ := by
  rw [ceilFToU32]
  split_ifs with hneg
  · exact (Nat.ceil_eq_zero.mpr hneg.le).symm
  · have hfloor : (⌊x⌋₊ : ℚ) ≤ x := Nat.floor_le (not_lt.mp hneg)
    have hlt : x < ⌊x⌋₊ + 1 := Nat.lt_floor_add_one x
    dsimp only
    split_ifs with hfrac
    · refine ((Nat.ceil_eq_iff (Nat.succ_ne_zero _)).mpr ⟨?_, ?_⟩).symm
      · rw [Nat.succ_sub_one]
        linarith
      · push_cast
        exact hlt.le
    · have hx : x = ⌊x⌋₊ := by linarith
      conv_rhs => rw [hx, Nat.ceil_natCast]

/-- The number of digits that is computed for a number of `k` digits. -/
def digitCount (k : ℕ) (factor : ℚ) : ℕ := ceilFToU32 (timesFloat k factor)

/-! ### Writing -/

/-- The `factor` of `buf_to_str`. -/
def toStrFactor (radix : ℕ) : Option ℚ :=
  if radix = 16 then some (toFloat 2)
  else if radix = 10 then some (toFloat 2.40824)
  else if radix = 8 then some (toFloat 2.66667)
  else none

/-- `DIGITS`. -/
def strDigits : List Byte :=
  ['0', '1', '2', '3', '4', '5', '6', '7', '8', '9', 'A', 'B', 'C', 'D', 'E', 'F'].map chr

/-- The byte `buf[i]`, without what is not of the first `buf_len` bits. -/
def strByte (x : Byte) (i bufLen : ℕ) : Byte :=
  if i = bufLen / 8 ∧ bufLen % 8 ≠ 0 then x &&& ((0xff : Byte) >>> (8 - bufLen % 8)) else x

/-- The loop over the digits of `buf_to_str`, from the last one. -/
def strPass (radix : ℕ) (str : List Byte) (tmp : ℕ) : ℕ × List Byte :=
  str.mapAccumr (fun d tmp =>
    let tmp := (tmp + d.toNat * 256) % 2 ^ 32
    (tmp / radix, BitVec.ofNat 8 (tmp % radix))) tmp

/-- The loop over the bytes of `buf_to_str`: the next one is `buf[i - 1]`. -/
def strLoop (buf : Buf n) (bufLen radix : ℕ) : ℕ → List Byte → Option (List Byte)
  | 0, str => some str
  | i + 1, str => do
    let x ← buf.load? i
    strLoop buf bufLen radix i (strPass radix str (strByte x i bufLen).toNat).2

/-- `char *buf_to_str(const void *_buf, unsigned buf_len, unsigned radix)`; `none` inside is
`NULL`. -/
def bufToStr (buf : Buf n) (bufLen radix : ℕ) : Option (Option (List Byte)) :=
  match toStrFactor radix with
  | none => some none
  | some factor => do
    let strLen := digitCount (divRoundUp32 bufLen 8) factor
    let str ← strLoop buf bufLen radix (divRoundUp32 bufLen 8) (List.replicate strLen 0)
    let str ← str.mapM fun d => strDigits[d.toNat]?
    some (some str)

/-! ### Reading -/

/-- The `factor` of `str_to_buf`. -/
def toBufFactor (radix : ℕ) : Option ℚ :=
  if radix = 16 then some (toFloat 0.5)
  else if radix = 10 then some (toFloat 0.41524)
  else if radix = 8 then some (toFloat 0.375)
  else none

/-- `static void str_radix_guess(const char **_str, unsigned *_str_len, unsigned *_radix)`. Behind
the characters of `str` is the zero that ends it. -/
def strRadixGuess (str : List Byte) (strLen radix : ℕ) : List Byte × ℕ × ℕ :=
  if 0 ≠ radix then (str, strLen, radix)
  else if str.getD 0 0 = chr '0' ∧ (str.getD 1 0 = chr 'x' ∨ str.getD 1 0 = chr 'X') then
    -- with one character counted, the subtraction goes below zero
    (str.drop 2, (strLen + (2 ^ 32 - 2)) % 2 ^ 32, 16)
  else if str.getD 0 0 = chr '0' ∧ strLen ≠ 1 then
    (str.drop 1, (strLen + (2 ^ 32 - 1)) % 2 ^ 32, 8)
  else (str, strLen, 10)

/-- `strndup(str, str_len)`. -/
def strndup (str : List Byte) (strLen : ℕ) : List Byte := (str.take strLen).takeWhile (· ≠ 0)

/-- The digit that a character is, if it is one of the radix. -/
def digitOf (radix : ℕ) (c : Byte) : Option ℕ :=
  let tmp := c.toNat
  let digit :=
    if '0'.toNat ≤ tmp ∧ tmp ≤ '9'.toNat then some (tmp - '0'.toNat)
    else if 'a'.toNat ≤ tmp ∧ tmp ≤ 'f'.toNat then some (tmp - 'a'.toNat + 10)
    else if 'A'.toNat ≤ tmp ∧ tmp ≤ 'F'.toNat then some (tmp - 'A'.toNat + 10)
    else none
  digit.filter (· < radix)

/-- The loop over the digits of `b256_buf` in `str_to_buf`. -/
def b256Pass (radix : ℕ) : ℕ → List Byte → List Byte
  | _, [] => []
  | tmp, x :: xs =>
    let tmp := (tmp + x.toNat * radix) % 2 ^ 32
    BitVec.ofNat 8 (tmp &&& 0xff) :: b256Pass radix (tmp >>> 8) xs

/-- The loop over the characters of `str_to_buf`. -/
def b256Loop (radix : ℕ) (charbuf b256Buf : List Byte) : List Byte :=
  charbuf.foldl (fun b256Buf c =>
    match digitOf radix c with
    | none => b256Buf
    | some tmp => b256Pass radix tmp b256Buf) b256Buf

/-- The loop of `str_to_buf` that copies the digits into the buffer, `left` bytes from the
`j`-th on. -/
def storeDigits (b256Buf : List Byte) : ℕ → ℕ → Buf n → Option (Buf n)
  | 0, _, buf => some buf
  | left + 1, j, buf => do
    let buf ← buf.store? j (if j < b256Buf.length then b256Buf.getD j 0 else 0)
    storeDigits b256Buf left (j + 1) buf

/-- The end of `str_to_buf`: mask out bits that don't belong to the buffer. -/
def maskTrailing (bufLen : ℕ) (buf : Buf n) : Option (Buf n) :=
  if bufLen % 8 ≠ 0 then buf.modify? (bufLen / 8) (· &&& ((0xff : Byte) >>> (8 - bufLen % 8)))
  else some buf

/-- `int str_to_buf(const char *str, unsigned str_len, void *_buf, unsigned buf_len, unsigned
radix)`. -/
def strToBuf (str : List Byte) (strLen : ℕ) (buf : Buf n) (bufLen radix : ℕ) :
    Option (ℕ × Buf n) :=
  let (str, strLen, radix) := strRadixGuess str strLen radix
  match toBufFactor radix with
  | none => some (0, buf)
  | some factor => do
    let charbuf := strndup str strLen
    let b256Len := digitCount strLen factor
    let b256Buf := b256Loop radix charbuf (List.replicate b256Len 0)
    let buf ← storeDigits b256Buf (divRoundUp32 bufLen 8) 0 buf
    let buf ← maskTrailing bufLen buf
    some (charbuf.length, buf)

/-! ### What is written -/

/-- The number that a string stands for, what is no digit being skipped. -/
def numeral (radix : ℕ) (str : List Byte) : ℕ :=
  Nat.ofDigits radix (str.filterMap (digitOf radix)).reverse

/-- The number in the first `len` bits of a buffer. -/
def Buf.number (buf : Buf n) (len : ℕ) : ℕ := Nat.ofBits fun i : Fin len => buf.bit i

theorem Buf.number_lt (buf : Buf n) (len : ℕ) : Buf.number buf len < 2 ^ len :=
  Nat.ofBits_lt_two_pow _

theorem getLsbD_trailingMask {r : ℕ} (hr : r ≤ 8) (j : ℕ) :
    ((0xff : Byte) >>> (8 - r)).getLsbD j = decide (j < r) := by
  rw [show (0xff : Byte) = BitVec.allOnes 8 from rfl, BitVec.getLsbD_ushiftRight,
    BitVec.getLsbD_allOnes]
  exact decide_eq_decide.mpr (by omega)

/-- Of a byte only the bits that are of the buffer are left. -/
theorem getLsbD_strByte (x : Byte) {i bufLen j : ℕ} (hi : i < divRoundUp bufLen 8) (hj : j < 8) :
    (strByte x i bufLen).getLsbD j = (decide (8 * i + j < bufLen) && x.getLsbD j) := by
  rw [divRoundUp] at hi
  rw [strByte]
  split_ifs with hlast
  · rw [BitVec.getLsbD_and, getLsbD_trailingMask (by omega), Bool.and_comm]
    congr 1
    exact decide_eq_decide.mpr (by omega)
  · rw [decide_eq_true (by omega), Bool.true_and]

/-- The first `k` bytes of the buffer, as `buf_to_str` takes them. -/
def strBytes (buf : Buf n) (bufLen k : ℕ) : List ℕ :=
  (List.range k).map fun i => (strByte ((buf.load? i).getD 0) i bufLen).toNat

/-- **They are the number in the buffer.** -/
theorem ofDigits_strBytes (buf : Buf n) {bufLen : ℕ} (hlen : divRoundUp bufLen 8 ≤ n) :
    Nat.ofDigits 256 (strBytes buf bufLen (divRoundUp bufLen 8)) = Buf.number buf bufLen := by
  have hdigits : IsDigits (2 ^ 8) (strBytes buf bufLen (divRoundUp bufLen 8)) := by
    intro d hd
    obtain ⟨i, -, rfl⟩ := List.mem_map.mp hd
    exact BitVec.isLt _
  refine Nat.eq_of_testBit_eq fun j => ?_
  rw [show 256 = 2 ^ 8 from rfl, testBit_ofDigits (by decide) hdigits, Buf.number,
    Nat.testBit_ofBits]
  have hmod : j % 8 < 8 := Nat.mod_lt _ (by decide)
  have hpos : 8 * (j / 8) + j % 8 = j := Nat.div_add_mod j 8
  rcases Nat.lt_or_ge (j / 8) (divRoundUp bufLen 8) with hj | hj
  · rw [strBytes, List.getD_eq_getElem?_getD, List.getElem?_map, List.getElem?_range hj,
      Option.map_some, Option.getD_some]
    change (strByte _ _ _).getLsbD (j % 8) = _
    rw [getLsbD_strByte _ hj hmod, hpos, buf.load?_of_lt (by omega), Option.getD_some]
    split_ifs with hlt
    · rw [decide_eq_true hlt, Bool.true_and, Buf.bit, dif_pos]
    · rw [decide_eq_false hlt, Bool.false_and]
  · have hge : ¬ j < bufLen := by
      rw [divRoundUp] at hj
      omega
    rw [dif_neg hge, List.getD_eq_default _ _ (by simpa [strBytes] using hj), Nat.zero_testBit]

section Writing

variable {radix : ℕ}

/-- **A pass over the string** multiplies by 256 and adds; the `uint32_t` does not overflow. -/
theorem strPass_eq (h0 : 0 < radix) (h16 : radix ≤ 16) {tmp : ℕ} (htmp : tmp < 256) :
    ∀ {str : List Byte}, IsDigits radix (str.map BitVec.toNat) →
      (strPass radix str tmp).1 = carry radix 256 tmp (str.map BitVec.toNat).reverse ∧
      ((strPass radix str tmp).2.map BitVec.toNat).reverse =
        mulAdd radix 256 tmp (str.map BitVec.toNat).reverse
  | [], _ => ⟨rfl, rfl⟩
  | d :: str, h => by
    have hd : d.toNat < radix := h _ (List.mem_cons_self ..)
    have htail : IsDigits radix (str.map BitVec.toNat) :=
      fun x hx => h x (List.mem_cons_of_mem _ hx)
    obtain ⟨hcarry, hdigits⟩ := strPass_eq h0 h16 htmp htail
    have hlt : carry radix 256 tmp (str.map BitVec.toNat).reverse < 256 :=
      carry_lt htmp fun x hx => htail x (List.mem_reverse.mp hx)
    have hmod : (carry radix 256 tmp (str.map BitVec.toNat).reverse + d.toNat * 256) % 2 ^ 32 =
        carry radix 256 tmp (str.map BitVec.toNat).reverse + d.toNat * 256 :=
      Nat.mod_eq_of_lt (by omega)
    have hdigit : (carry radix 256 tmp (str.map BitVec.toNat).reverse + d.toNat * 256) % radix
        < radix := Nat.mod_lt _ h0
    have hcons : strPass radix (d :: str) tmp =
        (((strPass radix str tmp).1 + d.toNat * 256) % 2 ^ 32 / radix,
          BitVec.ofNat 8 (((strPass radix str tmp).1 + d.toNat * 256) % 2 ^ 32 % radix) ::
            (strPass radix str tmp).2) := rfl
    rw [hcons, hcarry, hmod]
    rw [List.map_cons, List.reverse_cons, mulAdd_append_singleton, carry_append_singleton]
    refine ⟨rfl, ?_⟩
    rw [List.map_cons, List.reverse_cons, hdigits, BitVec.toNat_ofNat,
      Nat.mod_eq_of_lt (by omega : _ < 2 ^ 8)]

/-- **The loop over the bytes** converts them to the radix. -/
theorem strLoop_eq (h0 : 0 < radix) (h16 : radix ≤ 16) (buf : Buf n) (bufLen : ℕ) :
    ∀ {k : ℕ} {str : List Byte}, k ≤ n → IsDigits radix (str.map BitVec.toNat) →
      ∃ str', strLoop buf bufLen radix k str = some str' ∧
        (str'.map BitVec.toNat).reverse = (strBytes buf bufLen k).reverse.foldl
          (fun ds c => mulAdd radix 256 c ds) (str.map BitVec.toNat).reverse
  | 0, str, _, _ => ⟨str, rfl, rfl⟩
  | k + 1, str, hk, h => by
    set tmp := (strByte ((buf.load? k).getD 0) k bufLen).toNat with htmp
    obtain ⟨-, hdigits⟩ := strPass_eq h0 h16 (BitVec.isLt _ : tmp < 256) h
    have hpass : IsDigits radix ((strPass radix str tmp).2.map BitVec.toNat) := by
      intro x hx
      have hmem := List.mem_reverse.mpr hx
      rw [hdigits] at hmem
      exact isDigits_mulAdd h0 _ _ x hmem
    obtain ⟨str', hloop, hstr'⟩ := strLoop_eq h0 h16 buf bufLen (Nat.le_of_succ_le hk) hpass
    refine ⟨str', ?_, ?_⟩
    · rw [htmp, buf.load?_of_lt hk, Option.getD_some] at hloop
      rw [strLoop, buf.load?_of_lt hk]
      exact hloop
    · rw [hstr', hdigits, strBytes, strBytes, List.range_succ, List.map_append, List.reverse_append]
      rfl

/-- A digit written and read again. -/
theorem digitOf_strDigits (h16 : radix ≤ 16) {d : ℕ} (hd : d < radix) :
    ∃ c, strDigits[d]? = some c ∧ digitOf radix c = some d ∧ c ≠ 0 := by
  have hall : ∀ d : Fin 16, ∃ c, strDigits[d.val]? = some c ∧
      digitOf 16 c = some d.val ∧ c ≠ 0 := by decide
  obtain ⟨c, hc, hdigit, hne⟩ := hall ⟨d, by omega⟩
  refine ⟨c, hc, ?_, hne⟩
  rw [digitOf, Option.filter_eq_some_iff] at hdigit ⊢
  exact ⟨hdigit.1, decide_eq_true hd⟩

/-- Digits written and read again. -/
theorem mapM_strDigits (h16 : radix ≤ 16) :
    ∀ {str : List Byte}, IsDigits radix (str.map BitVec.toNat) →
      ∃ str', (str.mapM fun d => strDigits[d.toNat]?) = some str' ∧
        str'.filterMap (digitOf radix) = str.map BitVec.toNat ∧ str'.length = str.length ∧
        ∀ c ∈ str', c ≠ 0
  | [], _ => ⟨[], rfl, rfl, rfl, fun _ h => absurd h List.not_mem_nil⟩
  | d :: str, h => by
    obtain ⟨c, hc, hdigit, hne⟩ := digitOf_strDigits h16 (h _ (List.mem_cons_self ..))
    obtain ⟨str', hstr', hdigits, hlen, hall⟩ :=
      mapM_strDigits h16 fun x hx => h x (List.mem_cons_of_mem _ hx)
    refine ⟨c :: str', ?_, ?_, congrArg (· + 1) hlen, ?_⟩
    · rw [List.mapM_cons, hc, hstr']
      rfl
    · rw [List.filterMap_cons_some hdigit, hdigits, List.map_cons]
    · intro x hx
      rcases List.mem_cons.mp hx with rfl | hx
      · exact hne
      · exact hall x hx

/-- **`buf_to_str` writes the number in the buffer**, modulo what fits into the string. -/
theorem numeral_bufToStr (buf : Buf n) {bufLen : ℕ} (hlen : divRoundUp bufLen 8 ≤ n)
    (h32 : bufLen + 7 < 2 ^ 32) {factor : ℚ} (hfactor : toStrFactor radix = some factor) :
    ∃ str, bufToStr buf bufLen radix = some (some str) ∧
      str.length = digitCount (divRoundUp bufLen 8) factor ∧ (∀ c ∈ str, c ≠ 0) ∧
      numeral radix str = Buf.number buf bufLen % radix ^ str.length := by
  have hradix : 0 < radix ∧ radix ≤ 16 := by
    rw [toStrFactor] at hfactor
    split_ifs at hfactor <;> omega
  obtain ⟨h0, h16⟩ := hradix
  set strLen := digitCount (divRoundUp bufLen 8) factor with hstrLen
  have hzeros : (List.replicate strLen (0 : Byte)).map BitVec.toNat = List.replicate strLen 0 :=
    List.map_replicate
  have hstart : IsDigits radix ((List.replicate strLen (0 : Byte)).map BitVec.toNat) := by
    rw [hzeros]
    exact isDigits_replicate h0 strLen
  obtain ⟨str, hloop, hstr⟩ := strLoop_eq h0 h16 buf bufLen hlen hstart
  rw [hzeros, List.reverse_replicate] at hstr
  change _ = convert radix 256 strLen _ at hstr
  have hdigits : IsDigits radix (str.map BitVec.toNat) := by
    intro x hx
    have hmem := List.mem_reverse.mpr hx
    rw [hstr] at hmem
    exact isDigits_convert h0 _ _ x hmem
  have hlength : str.length = strLen := by
    simpa using congrArg List.length hstr
  obtain ⟨str', hmap, hread, hlength', hne⟩ := mapM_strDigits h16 hdigits
  refine ⟨str', ?_, hlength'.trans hlength, hne, ?_⟩
  · have hround : divRoundUp32 bufLen 8 = divRoundUp bufLen 8 := divRoundUp32_of_lt h32
    simp only [bufToStr, hround, hfactor, ← hstrLen, hloop, hmap,
      Option.bind_eq_bind, Option.bind_some]
  · rw [numeral, hread, hstr, ofDigits_convert h0, List.reverse_reverse, ofDigits_strBytes buf hlen,
      hlength', hlength]

end Writing

/-! ### What is read -/

section Reading

variable {radix : ℕ}

/-- **A pass over the bytes** multiplies by the radix and adds; the `uint32_t` does not
overflow. -/
theorem b256Pass_eq (h16 : radix ≤ 16) {tmp : ℕ} (htmp : tmp < radix) (b256Buf : List Byte) :
    (b256Pass radix tmp b256Buf).map BitVec.toNat =
      mulAdd 256 radix tmp (b256Buf.map BitVec.toNat) := by
  induction b256Buf generalizing tmp with
  | nil => rfl
  | cons x xs ih =>
    have hx : x.toNat < 256 := x.isLt
    have hle : x.toNat * radix ≤ 255 * 16 := Nat.mul_le_mul (by omega) h16
    have hmod : (tmp + x.toNat * radix) % 2 ^ 32 = tmp + x.toNat * radix :=
      Nat.mod_eq_of_lt (by omega)
    have hshift : (tmp + x.toNat * radix) >>> 8 = (tmp + x.toNat * radix) / 256 :=
      Nat.shiftRight_eq_div_pow _ 8
    have hlow : (tmp + x.toNat * radix) &&& 0xff = (tmp + x.toNat * radix) % 256 :=
      Nat.and_two_pow_sub_one_eq_mod _ 8
    have hcarry : (tmp + x.toNat * radix) / 256 < radix := carry_step_lt htmp hx
    rw [b256Pass, hmod, hshift, hlow, List.map_cons, List.map_cons, mulAdd, ih hcarry,
      BitVec.toNat_ofNat, Nat.mod_mod]

theorem digitOf_lt {c : Byte} {d : ℕ} (h : digitOf radix c = some d) : d < radix := by
  rw [digitOf, Option.filter_eq_some_iff] at h
  exact of_decide_eq_true h.2

/-- **The loop over the characters** converts the digits among them to bytes. -/
theorem b256Loop_eq (h16 : radix ≤ 16) (charbuf b256Buf : List Byte) :
    (b256Loop radix charbuf b256Buf).map BitVec.toNat =
      (charbuf.filterMap (digitOf radix)).foldl (fun ds c => mulAdd 256 radix c ds)
        (b256Buf.map BitVec.toNat) := by
  induction charbuf generalizing b256Buf with
  | nil => rfl
  | cons c charbuf ih =>
    rw [b256Loop, List.foldl_cons]
    rcases hdigit : digitOf radix c with - | tmp
    · rw [List.filterMap_cons_none hdigit]
      exact ih b256Buf
    · rw [List.filterMap_cons_some hdigit, List.foldl_cons, ← b256Pass_eq h16 (digitOf_lt hdigit)]
      exact ih _

/-- The bytes that have been read, bit by bit. -/
theorem testBit_numeral (h16 : radix ≤ 16) (charbuf : List Byte) (b256Len j : ℕ) :
    ((b256Loop radix charbuf (List.replicate b256Len 0)).getD (j / 8) 0).getLsbD (j % 8) =
      (numeral radix charbuf % 256 ^ b256Len).testBit j := by
  set b256Buf := b256Loop radix charbuf (List.replicate b256Len 0) with hb256
  have hdigits : b256Buf.map BitVec.toNat =
      convert 256 radix b256Len (charbuf.filterMap (digitOf radix)) := by
    rw [hb256, b256Loop_eq h16, List.map_replicate]
    rfl
  have hbase : IsDigits (2 ^ 8) (b256Buf.map BitVec.toNat) := by
    rw [hdigits]
    exact isDigits_convert (by decide) _ _
  rw [numeral, ← ofDigits_convert (by decide), ← hdigits, show 256 = 2 ^ 8 from rfl,
    testBit_ofDigits (by decide) hbase]
  rw [List.getD_eq_getElem?_getD, List.getD_eq_getElem?_getD, List.getElem?_map]
  rcases b256Buf[j / 8]? with - | x <;> rfl

/-- The copy into the buffer. -/
theorem storeDigits_bit (b256Buf : List Byte) : ∀ {left j : ℕ} (buf : Buf n), j + left ≤ n →
    ∃ buf', storeDigits b256Buf left j buf = some buf' ∧ ∀ k, buf'.bit k =
      if j ≤ k / 8 ∧ k / 8 < j + left then (b256Buf.getD (k / 8) 0).getLsbD (k % 8)
      else buf.bit k
  | 0, j, buf, _ => ⟨buf, rfl, fun k => (if_neg (by omega)).symm⟩
  | left + 1, j, buf, h => by
    have hbyte : (if j < b256Buf.length then b256Buf.getD j 0 else 0) = b256Buf.getD j 0 := by
      split_ifs with hj
      · rfl
      · rw [List.getD_eq_default _ _ (not_lt.mp hj)]
    obtain ⟨buf₁, hstore, hbit₁⟩ := buf.modify?_bit (fun _ => b256Buf.getD j 0)
      (show j < n by omega)
    obtain ⟨buf₂, hrest, hbit₂⟩ := storeDigits_bit b256Buf buf₁
      (show j + 1 + left ≤ n by omega)
    refine ⟨buf₂, ?_, fun k => ?_⟩
    · rw [storeDigits, hbyte, Buf.store?, hstore]
      exact hrest
    · rw [hbit₂ k, hbit₁ k]
      rcases Nat.lt_trichotomy (k / 8) j with hk | rfl | hk
      · rw [if_neg (by omega), if_neg (by omega), if_neg (by omega)]
      · rw [if_neg (by omega), if_pos rfl, if_pos (by omega)]
      · by_cases hlt : k / 8 < j + 1 + left
        · rw [if_pos (by omega), if_pos (by omega)]
        · rw [if_neg (by omega), if_neg (by omega), if_neg (by omega)]

theorem maskTrailing_bit (buf : Buf n) {bufLen : ℕ} (hlen : divRoundUp bufLen 8 ≤ n) :
    ∃ buf', maskTrailing bufLen buf = some buf' ∧ ∀ j, buf'.bit j =
      ((decide (j < bufLen) || decide (8 * divRoundUp bufLen 8 ≤ j)) && buf.bit j) := by
  rw [divRoundUp] at hlen ⊢
  rw [maskTrailing]
  split_ifs with hlast
  · have hlt : bufLen / 8 < n := by omega
    obtain ⟨buf', hmask, hbit⟩ := buf.modify?_bit
      (· &&& ((0xff : Byte) >>> (8 - bufLen % 8))) hlt
    refine ⟨buf', hmask, fun j => ?_⟩
    rw [hbit j]
    split_ifs with hj
    · rw [BitVec.getLsbD_and, getLsbD_trailingMask (by omega), ← buf.bit_of_div_eq hlt hj,
        Bool.and_comm, ← Bool.decide_or]
      congr 1
      exact decide_eq_decide.mpr (by omega)
    · rw [← Bool.decide_or, decide_eq_true (by omega), Bool.true_and]
  · refine ⟨buf, rfl, fun j => ?_⟩
    rw [← Bool.decide_or, decide_eq_true (by omega), Bool.true_and]

/-- **`str_to_buf` stores the number that the digits of the string stand for**, modulo what
fits. -/
theorem strToBuf_bit {str str' : List Byte} {strLen strLen' : ℕ} (buf : Buf n)
    {bufLen radix' : ℕ} (hlen : divRoundUp bufLen 8 ≤ n) (h32 : bufLen + 7 < 2 ^ 32)
    (hguess : strRadixGuess str strLen radix = (str', strLen', radix')) {factor : ℚ}
    (hfactor : toBufFactor radix' = some factor) :
    ∃ buf', strToBuf str strLen buf bufLen radix =
        some ((strndup str' strLen').length, buf') ∧
      ∀ j, buf'.bit j =
        if j < 8 * divRoundUp bufLen 8 then
          decide (j < bufLen) && (numeral radix' (strndup str' strLen') %
            256 ^ digitCount strLen' factor).testBit j
        else buf.bit j := by
  have h16 : radix' ≤ 16 := by
    rw [toBufFactor] at hfactor
    split_ifs at hfactor <;> omega
  set b256Buf := b256Loop radix' (strndup str' strLen')
    (List.replicate (digitCount strLen' factor) 0) with hb256
  obtain ⟨buf₁, hstore, hbit₁⟩ := storeDigits_bit b256Buf buf
    (show 0 + divRoundUp bufLen 8 ≤ n by omega)
  have hdigits : ∀ j, buf₁.bit j = if j < 8 * divRoundUp bufLen 8 then
      (numeral radix' (strndup str' strLen') %
        256 ^ digitCount strLen' factor).testBit j
      else buf.bit j := by
    intro j
    rw [hbit₁ j, hb256, testBit_numeral h16]
    by_cases hj : j < 8 * divRoundUp bufLen 8
    · rw [if_pos (by omega), if_pos hj]
    · rw [if_neg (by omega), if_neg hj]
  obtain ⟨buf₂, hmask, hbit₂⟩ := maskTrailing_bit buf₁ hlen
  refine ⟨buf₂, ?_, fun j => ?_⟩
  · have hround : divRoundUp32 bufLen 8 = divRoundUp bufLen 8 := divRoundUp32_of_lt h32
    simp only [strToBuf, hround, hguess, hfactor, ← hb256, hstore, hmask,
      Option.bind_eq_bind, Option.bind_some]
  · rw [hbit₂ j, hdigits]
    by_cases hj : j < 8 * divRoundUp bufLen 8
    · rw [if_pos hj, if_pos hj, decide_eq_false (not_le.mpr hj), Bool.or_false]
    · rw [if_neg hj, if_neg hj, decide_eq_true (not_lt.mp hj), Bool.or_true, Bool.true_and]

end Reading

/-! ### How many digits -/

/-- A number of 24 bits is a `float`. -/
theorem toFloat_eq_self {k : ℕ} {e : ℤ} (hk : k ≤ 2 ^ 24) : toFloat (k * 2 ^ e) = k * 2 ^ e := by
  rw [toFloat, roundTo_natCast_mul_zpow (by decide) (hk.trans (by decide)),
    roundTo_natCast_mul_zpow (by decide) hk]

theorem toFloat_two : toFloat 2 = 2 := by
  simpa using toFloat_eq_self (k := 2) (e := 0) (by decide)

theorem toFloat_half : toFloat 0.5 = 1 / 2 := by
  have h := toFloat_eq_self (k := 1) (e := -1) (by decide)
  norm_num at h ⊢
  exact h

theorem toFloat_threeEighths : toFloat 0.375 = 3 / 8 := by
  have h := toFloat_eq_self (k := 3) (e := -3) (by decide)
  norm_num at h ⊢
  exact h

/-- The logarithms that are no `float`s. -/
theorem toFloat_toTen : toFloat 2.40824 = 10100891 / 2 ^ 22 := by
  have hdouble : roundTo 53 (2.40824 : ℚ) = (5422874383309362 : ℤ) * 2 ^ (-51 : ℤ) :=
    roundTo_eq (by norm_num) (by norm_num) (by norm_num [abs_lt])
  rw [toFloat, hdouble, roundTo_eq (e := -22) (k := 10100891) (by norm_num) (by norm_num)
    (by norm_num [abs_lt])]
  norm_num

theorem toFloat_toEight : toFloat 2.66667 = 11184825 / 2 ^ 22 := by
  have hdouble : roundTo 53 (2.66667 : ℚ) = (6004807009160040 : ℤ) * 2 ^ (-51 : ℤ) :=
    roundTo_eq (by norm_num) (by norm_num) (by norm_num [abs_lt])
  rw [toFloat, hdouble, roundTo_eq (e := -22) (k := 11184825) (by norm_num) (by norm_num)
    (by norm_num [abs_lt])]
  norm_num

theorem toFloat_ofTen : toFloat 0.41524 = 13933142 / 2 ^ 25 := by
  have hdouble : roundTo 53 (0.41524 : ℚ) = (7480298837077299 : ℤ) * 2 ^ (-54 : ℤ) :=
    roundTo_eq (by norm_num) (by norm_num) (by norm_num [abs_lt])
  rw [toFloat, hdouble, roundTo_eq (e := -25) (k := 13933142) (by norm_num) (by norm_num)
    (by norm_num [abs_lt])]
  norm_num

/-- A product that is a `float` is not rounded. -/
theorem timesFloat_eq {k c : ℕ} {e j : ℤ} {factor : ℚ} (hc : c ≤ 2 ^ 24) (hk : (k : ℚ) = c * 2 ^ j)
    {l : ℕ} (hl : l ≤ 2 ^ 24) (hprod : k * factor = l * 2 ^ e) :
    timesFloat k factor = k * factor := by
  have hround : roundTo 24 (k : ℚ) = k := by
    rw [hk]
    exact roundTo_natCast_mul_zpow (by decide) hc
  rw [timesFloat, hround, hprod]
  exact roundTo_natCast_mul_zpow (by decide) hl

/-- The two roundings make the product smaller by one part in `2 ^ 23`, at most. -/
theorem le_timesFloat (k : ℕ) {factor : ℚ} (hfactor : 0 ≤ factor) :
    k * (factor * (1 - 1 / 2 ^ 24) ^ 2) ≤ timesFloat k factor := by
  have hk : (k : ℚ) * (1 - 1 / 2 ^ 24) ≤ roundTo 24 k := mul_le_roundTo k.cast_nonneg
  have hprod : 0 ≤ roundTo 24 (k : ℚ) * factor :=
    mul_nonneg (roundTo_nonneg k.cast_nonneg) hfactor
  calc (k : ℚ) * (factor * (1 - 1 / 2 ^ 24) ^ 2)
      = (k : ℚ) * (1 - 1 / 2 ^ 24) * factor * (1 - 1 / 2 ^ 24) := by ring
    _ ≤ roundTo 24 (k : ℚ) * factor * (1 - 1 / 2 ^ 24) := by
        refine mul_le_mul_of_nonneg_right (mul_le_mul_of_nonneg_right hk hfactor) ?_
        norm_num
    _ ≤ timesFloat k factor := mul_le_roundTo hprod

theorem timesFloat_le_digitCount (k : ℕ) (factor : ℚ) :
    timesFloat k factor ≤ digitCount k factor := by
  rw [digitCount, ceilFToU32_eq]
  exact Nat.le_ceil _

theorem le_digitCount (k : ℕ) {factor : ℚ} (hfactor : 0 ≤ factor) :
    k * (factor * (1 - 1 / 2 ^ 24) ^ 2) ≤ digitCount k factor :=
  (le_timesFloat k hfactor).trans (timesFloat_le_digitCount k factor)

theorem digitCount_eq {k d : ℕ} {factor : ℚ} (h : timesFloat k factor = d) :
    digitCount k factor = d := by
  rw [digitCount, h, ceilFToU32_eq, Nat.ceil_natCast]

/-- **A count is enough** up to a first fraction between the two ratios: the one that `factor` is
above, and the one that the logarithm is below. -/
theorem mul_le_digitCount {a b c d k : ℕ} {factor : ℚ} (hdet : c * b = a * d + 1)
    (hlow : (a : ℚ) < b * (factor * (1 - 1 / 2 ^ 24) ^ 2)) (hfactor : 0 ≤ factor)
    (hk : k < b + d) : c * k ≤ digitCount k factor * d := by
  rcases Nat.eq_zero_or_pos k with rfl | hpos
  · exact Nat.zero_le _
  refine mul_le_of_neighbours hdet ?_ hk
  have hle := le_digitCount k hfactor
  have hpos' : (0 : ℚ) < k := Nat.cast_pos.mpr hpos
  have hlt : (a : ℚ) * k < digitCount k factor * b :=
    calc (a : ℚ) * k < b * (factor * (1 - 1 / 2 ^ 24) ^ 2) * k :=
          mul_lt_mul_of_pos_right hlow hpos'
      _ = k * (factor * (1 - 1 / 2 ^ 24) ^ 2) * b := by ring
      _ ≤ digitCount k factor * b := mul_le_mul_of_nonneg_right hle b.cast_nonneg
  exact_mod_cast hlt

/-- The bytes of a buffer that `buf_to_str` has enough digits for; in octal, of any buffer. -/
def maxBytes (radix : ℕ) : ℕ := if radix = 16 then 2 ^ 24 else if radix = 10 then 14368 else 2 ^ 29

/-- The characters of a string that `str_to_buf` has enough bytes for. -/
def maxDigits (radix : ℕ) : ℕ :=
  if radix = 16 then 2 ^ 24 else if radix = 10 then 1810 else 5592410

/-- The bytes of a string in hexadecimal. -/
theorem digitCount_two {k : ℕ} (hk : k ≤ 2 ^ 24) : digitCount k 2 = 2 * k := by
  refine digitCount_eq ?_
  rw [timesFloat_eq (c := k) (j := 0) (e := 1) (l := k) hk (by simp) hk (by simp)]
  push_cast
  ring

/-- The three factors of `buf_to_str`. -/
theorem toStrFactor_inv {radix : ℕ} {factor : ℚ} (h : toStrFactor radix = some factor) :
    (radix = 16 ∧ factor = toFloat 2) ∨ (radix = 10 ∧ factor = toFloat 2.40824) ∨
      (radix = 8 ∧ factor = toFloat 2.66667) := by
  rw [toStrFactor] at h
  split_ifs at h with h16 h10 h8
  · exact Or.inl ⟨h16, (Option.some.inj h).symm⟩
  · exact Or.inr (Or.inl ⟨h10, (Option.some.inj h).symm⟩)
  · exact Or.inr (Or.inr ⟨h8, (Option.some.inj h).symm⟩)

/-- The three factors of `str_to_buf`. -/
theorem toBufFactor_inv {radix : ℕ} {factor : ℚ} (h : toBufFactor radix = some factor) :
    (radix = 16 ∧ factor = toFloat 0.5) ∨ (radix = 10 ∧ factor = toFloat 0.41524) ∨
      (radix = 8 ∧ factor = toFloat 0.375) := by
  rw [toBufFactor] at h
  split_ifs at h with h16 h10 h8
  · exact Or.inl ⟨h16, (Option.some.inj h).symm⟩
  · exact Or.inr (Or.inl ⟨h10, (Option.some.inj h).symm⟩)
  · exact Or.inr (Or.inr ⟨h8, (Option.some.inj h).symm⟩)

/-- **The string is long enough** for `k` bytes. -/
theorem pow_le_toStr {radix k : ℕ} {factor : ℚ} (hfactor : toStrFactor radix = some factor)
    (hk : k ≤ maxBytes radix) : 256 ^ k ≤ radix ^ digitCount k factor := by
  obtain ⟨rfl, rfl⟩ | ⟨rfl, rfl⟩ | ⟨rfl, rfl⟩ := toStrFactor_inv hfactor
  · rw [toFloat_two, digitCount_two hk, Nat.pow_mul]
  · rw [toFloat_toTen]
    refine pow_le_pow_of_mul_le (c := 33961) (d := 14102) (by decide) (by decide)
      (by decide +kernel) ?_
    exact mul_le_digitCount (a := 643) (b := 267) (by decide) (by norm_num) (by norm_num)
      (Nat.lt_succ_of_le hk)
  · refine pow_le_pow_of_mul_le (c := 8) (d := 3) (by decide) (by decide) (by decide) ?_
    have hfactor' : 0 ≤ toFloat 2.66667 := by
      rw [toFloat_toEight]
      norm_num
    have hle := le_digitCount k hfactor'
    have hratio : (8 / 3 : ℚ) ≤ toFloat 2.66667 * (1 - 1 / 2 ^ 24) ^ 2 := by
      rw [toFloat_toEight]
      norm_num
    have hmul := mul_le_mul_of_nonneg_left hratio (k.cast_nonneg (α := ℚ))
    have hq : (8 : ℚ) * k ≤ digitCount k (toFloat 2.66667) * 3 := by linarith
    exact_mod_cast hq

/-- In octal the product of many digits is rounded by an eighth at most. -/
theorem digitCount_threeEighths {k : ℕ} (hk : k ≤ 5592410) :
    3 * k ≤ digitCount k (3 / 8) * 8 := by
  have hcast : roundTo 24 (k : ℚ) = k := roundTo_natCast (by decide) (hk.trans (by decide))
  have hle := timesFloat_le_digitCount k (3 / 8)
  rcases Nat.lt_or_ge 5592405 k with hlarge | hsmall
  · have hround := abs_roundTo_sub_le_ulp 24 (k * (3 / 8) : ℚ)
    have hulp : ulp 24 (k * (3 / 8) : ℚ) ≤ 2 ^ (-2 : ℤ) := by
      refine ulp_le_zpow (by positivity) ?_
      have hk' : (k : ℚ) ≤ 5592410 := by exact_mod_cast hk
      norm_num
      linarith
    have hlow := (abs_le.mp hround).1
    rw [timesFloat, hcast] at hle
    have hq : (3 : ℚ) * k ≤ digitCount k (3 / 8) * 8 + 1 := by
      norm_num at hulp
      linarith
    have hn : 3 * k ≤ digitCount k (3 / 8) * 8 + 1 := by exact_mod_cast hq
    omega
  · rw [timesFloat_eq (c := k) (j := 0) (e := -3) (l := 3 * k) (hk.trans (by decide)) (by simp)
      (by omega) (by push_cast; ring)] at hle
    have hq : (3 : ℚ) * k ≤ digitCount k (3 / 8) * 8 := by linarith
    exact_mod_cast hq

/-- **The bytes are enough** for `k` digits. -/
theorem pow_le_toBuf {radix k : ℕ} {factor : ℚ} (hfactor : toBufFactor radix = some factor)
    (hk : k ≤ maxDigits radix) : radix ^ k ≤ 256 ^ digitCount k factor := by
  obtain ⟨rfl, rfl⟩ | ⟨rfl, rfl⟩ | ⟨rfl, rfl⟩ := toBufFactor_inv hfactor
  · refine pow_le_pow_of_mul_le (c := 1) (d := 2) (by decide) (by decide) (by decide) ?_
    have hle := timesFloat_le_digitCount k (toFloat 0.5)
    rw [toFloat_half, timesFloat_eq (c := k) (j := 0) (e := -1) (l := k) hk (by simp) hk
      (by norm_num)] at hle
    have hq : (1 : ℚ) * k ≤ digitCount k (toFloat 0.5) * 2 := by
      rw [toFloat_half]
      linarith
    exact_mod_cast hq
  · rw [toFloat_ofTen]
    refine pow_le_pow_of_mul_le (c := 267) (d := 643) (by decide) (by decide)
      (by decide +kernel) ?_
    exact mul_le_digitCount (a := 485) (b := 1168) (by decide) (by norm_num) (by norm_num)
      (Nat.lt_succ_of_le hk)
  · rw [toFloat_threeEighths]
    exact pow_le_pow_of_mul_le (c := 3) (d := 8) (by decide) (by decide) (by decide)
      (digitCount_threeEighths hk)

/-- **The digits of a string are enough** for the bytes that it has been written from. -/
theorem le_digitCount_digitCount {radix k : ℕ} {toStr toBuf : ℚ}
    (htoStr : toStrFactor radix = some toStr) (htoBuf : toBufFactor radix = some toBuf)
    (hk : k ≤ maxBytes radix) : k ≤ digitCount (digitCount k toStr) toBuf := by
  -- four roundings, and the two factors
  have hboth : ∀ {f g : ℚ}, 0 ≤ f → 0 ≤ g →
      k * (f * g * (1 - 1 / 2 ^ 24) ^ 4) ≤ digitCount (digitCount k f) g := by
    intro f g hf hg
    have hg' : 0 ≤ g * (1 - 1 / 2 ^ 24) ^ 2 := by positivity
    calc k * (f * g * (1 - 1 / 2 ^ 24) ^ 4)
        = k * (f * (1 - 1 / 2 ^ 24) ^ 2) * (g * (1 - 1 / 2 ^ 24) ^ 2) := by ring
      _ ≤ digitCount k f * (g * (1 - 1 / 2 ^ 24) ^ 2) :=
          mul_le_mul_of_nonneg_right (le_digitCount k hf) hg'
      _ ≤ digitCount (digitCount k f) g := le_digitCount _ hg
  obtain ⟨rfl, rfl⟩ | ⟨rfl, rfl⟩ | ⟨rfl, rfl⟩ := toStrFactor_inv htoStr
  · obtain rfl := Option.some.inj htoBuf
    rw [toFloat_two, digitCount_two hk, toFloat_half]
    refine (digitCount_eq ?_).ge
    rw [timesFloat_eq (c := k) (j := 1) (e := 0) (l := k) hk (by push_cast; ring) hk
      (by push_cast; ring)]
    push_cast
    ring
  · obtain rfl := Option.some.inj htoBuf
    have hle := hboth (f := toFloat 2.40824) (g := toFloat 0.41524)
      (by rw [toFloat_toTen]; norm_num) (by rw [toFloat_ofTen]; norm_num)
    have hk' : (k : ℚ) ≤ 14368 := by exact_mod_cast hk
    have hratio : (1 - 1 / 14369 : ℚ) ≤
        toFloat 2.40824 * toFloat 0.41524 * (1 - 1 / 2 ^ 24) ^ 4 := by
      rw [toFloat_toTen, toFloat_ofTen]
      norm_num
    have hmul := mul_le_mul_of_nonneg_left hratio (k.cast_nonneg (α := ℚ))
    have hq : (k : ℚ) < digitCount (digitCount k (toFloat 2.40824)) (toFloat 0.41524) + 1 := by
      linarith
    exact Nat.lt_succ_iff.mp (by exact_mod_cast hq)
  · obtain rfl := Option.some.inj htoBuf
    have hle := hboth (f := toFloat 2.66667) (g := toFloat 0.375)
      (by rw [toFloat_toEight]; norm_num) (by rw [toFloat_threeEighths]; norm_num)
    have hratio : (1 : ℚ) ≤ toFloat 2.66667 * toFloat 0.375 * (1 - 1 / 2 ^ 24) ^ 4 := by
      rw [toFloat_toEight, toFloat_threeEighths]
      norm_num
    have hmul := mul_le_mul_of_nonneg_left hratio (k.cast_nonneg (α := ℚ))
    have hq : (k : ℚ) ≤ digitCount (digitCount k (toFloat 2.66667)) (toFloat 0.375) := by
      linarith
    exact_mod_cast hq

/-- One byte more than that, and there are not. -/
theorem toStr_short {radix : ℕ} {toStr : ℚ} (h : toStrFactor radix = some toStr) (h8 : radix ≠ 8) :
    radix ^ digitCount (maxBytes radix + 1) toStr < 256 ^ (maxBytes radix + 1) := by
  obtain ⟨rfl, rfl⟩ | ⟨rfl, rfl⟩ | ⟨rfl, rfl⟩ := toStrFactor_inv h
  · have hround : roundTo 24 ((16777217 : ℕ) : ℚ) = (8388608 : ℤ) * 2 ^ (1 : ℤ) :=
      roundTo_tie (by norm_num) (by norm_num) (by norm_num) (by decide)
    have hcount : digitCount (maxBytes 16 + 1) (toFloat 2) = 2 * 2 ^ 24 := by
      refine digitCount_eq ?_
      change roundTo 24 (roundTo 24 ((16777217 : ℕ) : ℚ) * toFloat 2) = _
      rw [hround, toFloat_two]
      have hexact := roundTo_natCast_mul_zpow (p := 24) (n := 2) (e := 24) (by decide) (by decide)
      norm_num at hexact ⊢
      exact hexact
    have hpow : ∀ k, 16 ^ (2 * k) < 256 ^ (k + 1) := fun k => by
      rw [Nat.pow_mul]
      exact Nat.pow_lt_pow_right (by decide) (Nat.lt_succ_self k)
    rw [hcount, show maxBytes 16 = 2 ^ 24 from rfl]
    exact hpow _
  · have hround : roundTo 24 ((14369 : ℕ) : ℚ) = (14369 : ℕ) :=
      roundTo_natCast (by decide) (by decide)
    have hcount : digitCount (maxBytes 10 + 1) (toFloat 2.40824) = 34604 := by
      refine digitCount_eq ?_
      change roundTo 24 (roundTo 24 ((14369 : ℕ) : ℚ) * toFloat 2.40824) = _
      rw [hround, toFloat_toTen, roundTo_eq (e := -8) (k := 8858624) (by norm_num) (by norm_num)
        (by norm_num [abs_lt])]
      norm_num
    rw [hcount]
    decide +kernel
  · exact absurd rfl h8

theorem toBuf_short {radix : ℕ} {toBuf : ℚ} (h : toBufFactor radix = some toBuf) :
    256 ^ digitCount (maxDigits radix + 1) toBuf < radix ^ (maxDigits radix + 1) := by
  obtain ⟨rfl, rfl⟩ | ⟨rfl, rfl⟩ | ⟨rfl, rfl⟩ := toBufFactor_inv h
  · have hround : roundTo 24 ((16777217 : ℕ) : ℚ) = (8388608 : ℤ) * 2 ^ (1 : ℤ) :=
      roundTo_tie (by norm_num) (by norm_num) (by norm_num) (by decide)
    have hcount : digitCount (maxDigits 16 + 1) (toFloat 0.5) = 2 ^ 23 := by
      refine digitCount_eq ?_
      change roundTo 24 (roundTo 24 ((16777217 : ℕ) : ℚ) * toFloat 0.5) = _
      rw [hround, toFloat_half]
      have hexact := roundTo_natCast (p := 24) (n := 2 ^ 23) (by decide) (by decide)
      norm_num at hexact ⊢
      exact hexact
    rw [hcount, show 256 = 16 ^ 2 from rfl, ← Nat.pow_mul]
    exact Nat.pow_lt_pow_right (by decide) (by decide)
  · have hround : roundTo 24 ((1811 : ℕ) : ℚ) = (1811 : ℕ) :=
      roundTo_natCast (by decide) (by decide)
    have hcount : digitCount (maxDigits 10 + 1) (toFloat 0.41524) = 752 := by
      change ceilFToU32 (roundTo 24 (roundTo 24 ((1811 : ℕ) : ℚ) * toFloat 0.41524)) = _
      rw [hround, toFloat_ofTen, roundTo_eq (e := -14) (k := 12320762) (by norm_num) (by norm_num)
        (by norm_num [abs_lt]), ceilFToU32_eq, Nat.ceil_eq_iff (by decide)]
      norm_num
    rw [hcount]
    decide +kernel
  · have hround : roundTo 24 ((5592411 : ℕ) : ℚ) = (5592411 : ℕ) :=
      roundTo_natCast (by decide) (by decide)
    have hcount : digitCount (maxDigits 8 + 1) (toFloat 0.375) = 2097154 := by
      refine digitCount_eq ?_
      change roundTo 24 (roundTo 24 ((5592411 : ℕ) : ℚ) * toFloat 0.375) = _
      rw [hround, toFloat_threeEighths, roundTo_tie (e := -2) (k := 8388616) (by norm_num)
        (by norm_num) (by norm_num) (by decide)]
      norm_num
    rw [hcount, show 256 = 2 ^ 8 from rfl, show (8 : ℕ) = 2 ^ 3 from rfl, ← Nat.pow_mul,
      ← Nat.pow_mul]
    exact Nat.pow_lt_pow_right (by decide) (by decide)

/-! ### There and back -/

theorem strndup_self {str : List Byte} (h : ∀ c ∈ str, c ≠ 0) : strndup str str.length = str := by
  rw [strndup, List.take_length]
  exact List.takeWhile_eq_self_iff.mpr fun c hc => decide_eq_true (h c hc)

theorem Buf.number_lt_pow (buf : Buf n) (bufLen : ℕ) :
    Buf.number buf bufLen < 256 ^ divRoundUp bufLen 8 := by
  refine (Buf.number_lt buf bufLen).trans_le ?_
  rw [show 256 = 2 ^ 8 from rfl, ← Nat.pow_mul, divRoundUp]
  exact Nat.pow_le_pow_right (by decide) (by omega)

/-- **A buffer written out and read again** is what it was: its first bits are, the rest of its
last byte is cleared, and beyond nothing is touched. In octal that is so for every buffer, in
hexadecimal and in decimal up to the bytes that there are enough digits for: one byte more, and
there are not. -/
theorem strToBuf_bufToStr {radix : ℕ} (hradix : radix = 16 ∨ radix = 10 ∨ radix = 8) (buf : Buf m)
    {bufLen : ℕ} (hbuf : divRoundUp bufLen 8 ≤ m) (h32 : bufLen + 7 < 2 ^ 32)
    (hmax : divRoundUp bufLen 8 ≤ maxBytes radix) (dst : Buf n) (hdst : divRoundUp bufLen 8 ≤ n) :
    (∃ str dst', bufToStr buf bufLen radix = some (some str) ∧
      strToBuf str str.length dst bufLen radix = some (str.length, dst') ∧
      ∀ j, dst'.bit j =
        if j < bufLen then buf.bit j
        else if j < 8 * divRoundUp bufLen 8 then false
        else dst.bit j) ∧
      ∀ toStr, toStrFactor radix = some toStr → radix ≠ 8 →
        radix ^ digitCount (maxBytes radix + 1) toStr < 256 ^ (maxBytes radix + 1) := by
  refine ⟨?_, fun _ => toStr_short⟩
  obtain ⟨toStr, htoStr⟩ : ∃ toStr, toStrFactor radix = some toStr := by
    rcases hradix with rfl | rfl | rfl <;> exact ⟨_, rfl⟩
  obtain ⟨toBuf, htoBuf⟩ : ∃ toBuf, toBufFactor radix = some toBuf := by
    rcases hradix with rfl | rfl | rfl <;> exact ⟨_, rfl⟩
  obtain ⟨str, hwrite, hlen, hne, hnumeral⟩ := numeral_bufToStr buf hbuf h32 htoStr
  have hguess : strRadixGuess str str.length radix = (str, str.length, radix) :=
    if_pos (by omega)
  obtain ⟨dst', hread, hbit⟩ := strToBuf_bit dst hdst h32 hguess htoBuf
  rw [strndup_self hne] at hread hbit
  refine ⟨str, dst', hwrite, hread, fun j => ?_⟩
  have hfits : numeral radix str = Buf.number buf bufLen := by
    rw [hnumeral, hlen]
    exact Nat.mod_eq_of_lt ((Buf.number_lt_pow buf bufLen).trans_le (pow_le_toStr htoStr hmax))
  have hbytes : Buf.number buf bufLen < 256 ^ digitCount str.length toBuf := by
    rw [hlen]
    exact (Buf.number_lt_pow buf bufLen).trans_le
      (Nat.pow_le_pow_right (by decide) (le_digitCount_digitCount htoStr htoBuf hmax))
  rw [hbit j, hfits, Nat.mod_eq_of_lt hbytes, Buf.number, Nat.testBit_ofBits]
  by_cases hj : j < bufLen
  · rw [if_pos hj, dif_pos hj, decide_eq_true hj, Bool.true_and, if_pos]
    rw [divRoundUp]
    omega
  · rw [if_neg hj, dif_neg hj, Bool.and_false]

/-- Twenty bits of three bytes. -/
def someBits : Buf 3 := fun i => [0x39, 0x30, 0xF4].getD i 0

theorem strToBuf_bufToStr_someBits :
    ∃ str dst', bufToStr someBits 20 10 = some (some str) ∧
      strToBuf str str.length (Buf.zero : Buf 4) 20 10 = some (str.length, dst') ∧
      ∀ j, dst'.bit j =
        if j < 20 then someBits.bit j
        else if j < 8 * divRoundUp 20 8 then false
        else (Buf.zero : Buf 4).bit j :=
  (strToBuf_bufToStr (by decide) someBits (by decide) (by decide) (by decide) .zero
    (by decide)).1

theorem numeral_lt {radix : ℕ} (hradix : 1 < radix) (str : List Byte) :
    numeral radix str < radix ^ str.length := by
  have hdigits : IsDigits radix (str.filterMap (digitOf radix)).reverse := by
    intro d hd
    obtain ⟨c, -, hc⟩ := List.mem_filterMap.mp (List.mem_reverse.mp hd)
    exact digitOf_lt hc
  refine (Nat.ofDigits_lt_base_pow_length hradix hdigits).trans_le ?_
  rw [List.length_reverse]
  exact Nat.pow_le_pow_right (by omega) (List.length_filterMap_le _ _)

theorem length_strndup_le (str : List Byte) (strLen : ℕ) : (strndup str strLen).length ≤ strLen :=
  ((List.takeWhile_sublist _).length_le).trans (List.length_take_le _ _)

/-- **A number read in one radix and written in another** is the same number, modulo what the
buffer holds, up to the characters and the bytes that there are enough digits for; one character
more, and the bytes are too few. The radix it is read in may be guessed; what is no digit of it
is skipped. -/
theorem bufToStr_strToBuf {str str' : List Byte} {strLen strLen' radix radix' radix'' : ℕ}
    (hguess : strRadixGuess str strLen radix = (str', strLen', radix'))
    (hradix' : radix' = 16 ∨ radix' = 10 ∨ radix' = 8)
    (hradix'' : radix'' = 16 ∨ radix'' = 10 ∨ radix'' = 8) (buf : Buf n) {bufLen : ℕ}
    (hbuf : divRoundUp bufLen 8 ≤ n) (h32 : bufLen + 7 < 2 ^ 32)
    (hdigits : strLen' ≤ maxDigits radix') (hmax : divRoundUp bufLen 8 ≤ maxBytes radix'') :
    (∃ buf' out, strToBuf str strLen buf bufLen radix =
        some ((strndup str' strLen').length, buf') ∧
      bufToStr buf' bufLen radix'' = some (some out) ∧
      numeral radix'' out = numeral radix' (strndup str' strLen') % 2 ^ bufLen) ∧
      ∀ toBuf, toBufFactor radix' = some toBuf →
        256 ^ digitCount (maxDigits radix' + 1) toBuf < radix' ^ (maxDigits radix' + 1) := by
  refine ⟨?_, fun _ => toBuf_short⟩
  obtain ⟨toBuf, htoBuf⟩ : ∃ toBuf, toBufFactor radix' = some toBuf := by
    rcases hradix' with rfl | rfl | rfl <;> exact ⟨_, rfl⟩
  obtain ⟨toStr, htoStr⟩ : ∃ toStr, toStrFactor radix'' = some toStr := by
    rcases hradix'' with rfl | rfl | rfl <;> exact ⟨_, rfl⟩
  obtain ⟨buf', hread, hbit⟩ := strToBuf_bit buf hbuf h32 hguess htoBuf
  obtain ⟨out, hwrite, hlen, -, hnumeral⟩ := numeral_bufToStr buf' hbuf h32 htoStr
  have hradix : 1 < radix' := by omega
  have hfits : numeral radix' (strndup str' strLen') < 256 ^ digitCount strLen' toBuf :=
    (numeral_lt hradix _).trans_le
      ((Nat.pow_le_pow_right hradix.le (length_strndup_le _ _)).trans (pow_le_toBuf htoBuf hdigits))
  have hnumber : Buf.number buf' bufLen =
      numeral radix' (strndup str' strLen') % 2 ^ bufLen := by
    refine Nat.eq_of_testBit_eq fun j => ?_
    rw [Buf.number, Nat.testBit_ofBits, Nat.testBit_mod_two_pow]
    split_ifs with hj
    · have hin : j < 8 * divRoundUp bufLen 8 := by
        rw [divRoundUp]
        omega
      rw [hbit, if_pos hin, Nat.mod_eq_of_lt hfits]
    · rw [decide_eq_false hj, Bool.false_and]
  refine ⟨buf', out, hread, hwrite, ?_⟩
  rw [hnumeral, hlen,
    Nat.mod_eq_of_lt ((Buf.number_lt_pow buf' bufLen).trans_le (pow_le_toStr htoStr hmax)), hnumber]

/-- `0x1E240`, with a character that is no digit. -/
def someNumeral : List Byte := ['0', 'x', '1', 'E', '-', '2', '4', '0'].map chr

theorem bufToStr_strToBuf_someNumeral :
    ∃ buf' out, strToBuf someNumeral 8 someBits 20 0 =
        some ((strndup (someNumeral.drop 2) 6).length, buf') ∧
      bufToStr buf' 20 10 = some (some out) ∧
      numeral 10 out = numeral 16 (strndup (someNumeral.drop 2) 6) % 2 ^ 20 :=
  (bufToStr_strToBuf (by decide) (by decide) (by decide) someBits (by decide) (by decide)
    (by decide) (by decide)).1

end JtagHw
