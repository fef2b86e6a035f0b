import JtagHw.Mpsse.BinaryBuffer

/-!
# Bits the other way round

`flip_u32` of `openocd/src/helper/binarybuffer.c` reverses the order of the lowest bits of a
word, byte by byte with the help of a table. The table holds each byte reversed
(`JtagHw.bitReverseTable256_eq`), and the bytes are put together the other way round: of the
`num` lowest bits, bit `j` becomes bit `num - 1 - j`, and flipping twice leaves them as they
were (`JtagHw.flipU32_reverses`).
-/

namespace JtagHw

open PackedBits

/-- `bit_reverse_table256`. -/
def bitReverseTable256 : List Byte :=
  [0x00, 0x80, 0x40, 0xC0, 0x20, 0xA0, 0x60, 0xE0, 0x10, 0x90, 0x50, 0xD0, 0x30, 0xB0, 0x70, 0xF0,
   0x08, 0x88, 0x48, 0xC8, 0x28, 0xA8, 0x68, 0xE8, 0x18, 0x98, 0x58, 0xD8, 0x38, 0xB8, 0x78, 0xF8,
   0x04, 0x84, 0x44, 0xC4, 0x24, 0xA4, 0x64, 0xE4, 0x14, 0x94, 0x54, 0xD4, 0x34, 0xB4, 0x74, 0xF4,
   0x0C, 0x8C, 0x4C, 0xCC, 0x2C, 0xAC, 0x6C, 0xEC, 0x1C, 0x9C, 0x5C, 0xDC, 0x3C, 0xBC, 0x7C, 0xFC,
   0x02, 0x82, 0x42, 0xC2, 0x22, 0xA2, 0x62, 0xE2, 0x12, 0x92, 0x52, 0xD2, 0x32, 0xB2, 0x72, 0xF2,
   0x0A, 0x8A, 0x4A, 0xCA, 0x2A, 0xAA, 0x6A, 0xEA, 0x1A, 0x9A, 0x5A, 0xDA, 0x3A, 0xBA, 0x7A, 0xFA,
   0x06, 0x86, 0x46, 0xC6, 0x26, 0xA6, 0x66, 0xE6, 0x16, 0x96, 0x56, 0xD6, 0x36, 0xB6, 0x76, 0xF6,
   0x0E, 0x8E, 0x4E, 0xCE, 0x2E, 0xAE, 0x6E, 0xEE, 0x1E, 0x9E, 0x5E, 0xDE, 0x3E, 0xBE, 0x7E, 0xFE,
   0x01, 0x81, 0x41, 0xC1, 0x21, 0xA1, 0x61, 0xE1, 0x11, 0x91, 0x51, 0xD1, 0x31, 0xB1, 0x71, 0xF1,
   0x09, 0x89, 0x49, 0xC9, 0x29, 0xA9, 0x69, 0xE9, 0x19, 0x99, 0x59, 0xD9, 0x39, 0xB9, 0x79, 0xF9,
   0x05, 0x85, 0x45, 0xC5, 0x25, 0xA5, 0x65, 0xE5, 0x15, 0x95, 0x55, 0xD5, 0x35, 0xB5, 0x75, 0xF5,
   0x0D, 0x8D, 0x4D, 0xCD, 0x2D, 0xAD, 0x6D, 0xED, 0x1D, 0x9D, 0x5D, 0xDD, 0x3D, 0xBD, 0x7D, 0xFD,
   0x03, 0x83, 0x43, 0xC3, 0x23, 0xA3, 0x63, 0xE3, 0x13, 0x93, 0x53, 0xD3, 0x33, 0xB3, 0x73, 0xF3,
   0x0B, 0x8B, 0x4B, 0xCB, 0x2B, 0xAB, 0x6B, 0xEB, 0x1B, 0x9B, 0x5B, 0xDB, 0x3B, 0xBB, 0x7B, 0xFB,
   0x07, 0x87, 0x47, 0xC7, 0x27, 0xA7, 0x67, 0xE7, 0x17, 0x97, 0x57, 0xD7, 0x37, 0xB7, 0x77, 0xF7,
   0x0F, 0x8F, 0x4F, 0xCF, 0x2F, 0xAF, 0x6F, 0xEF, 0x1F, 0x9F, 0x5F, 0xDF, 0x3F, 0xBF, 0x7F, 0xFF]

/-- `bit_reverse_table256[value & 0xff]`. -/
def flippedByte (value : BitVec 32) : Option (BitVec 32) :=
  bitReverseTable256[(value &&& 0xff).toNat]?.map fun x => x.setWidth 32

/-- `uint32_t flip_u32(uint32_t value, unsigned int num)`. -/
def flipU32 (value : BitVec 32) (num : ℕ) : Option (BitVec 32) := do
  let b0 ← flippedByte value
  let b1 ← flippedByte (value >>> 8)
  let b2 ← flippedByte (value >>> 16)
  let b3 ← flippedByte (value >>> 24)
  let c := (b0 <<< 24) ||| (b1 <<< 16) ||| (b2 <<< 8) ||| b3
  -- `c >> 32` has no meaning for a word of `32` bits
  if num = 0 then none
  else some (if num < 32 then c >>> (32 - num) else c)

/-- **The table holds each byte reversed.** -/
theorem bitReverseTable256_eq :
    bitReverseTable256 = (List.range 256).map fun i => (BitVec.ofNat 8 i).reverse := by
  decide +kernel

theorem flippedByte_bit (value : BitVec 32) :
    ∃ x, flippedByte value = some x ∧
      ∀ j, x.getLsbD j = (decide (j < 8) && value.getLsbD (7 - j)) := by
  have hlow : (value &&& 0xff).toNat = value.toNat % 256 := by
    rw [BitVec.toNat_and]
    exact Nat.and_two_pow_sub_one_eq_mod _ 8
  have hlt : value.toNat % 256 < 256 := Nat.mod_lt _ (by decide)
  refine ⟨(BitVec.ofNat 8 (value.toNat % 256)).reverse.setWidth 32, ?_, fun j => ?_⟩
  · rw [flippedByte, bitReverseTable256_eq, hlow, List.getElem?_map, List.getElem?_range hlt]
    rfl
  · rw [BitVec.getLsbD_setWidth, BitVec.getLsbD_reverse, BitVec.getMsbD_eq_getLsbD]
    by_cases hj : j < 8
    · have hsub : 8 - 1 - j = 7 - j := by omega
      rw [decide_eq_true hj, decide_eq_true (show j < 32 by omega), Bool.true_and, Bool.true_and,
        Bool.true_and, hsub, BitVec.getLsbD_ofNat, decide_eq_true (show 7 - j < 8 by omega),
        Bool.true_and, show 256 = 2 ^ 8 from rfl, Nat.testBit_mod_two_pow,
        decide_eq_true (show 7 - j < 8 by omega), Bool.true_and]
      rfl
    · rw [decide_eq_false hj, Bool.false_and, Bool.false_and, Bool.and_false]

/-- A byte of the result: it lies at `8 * k`, and comes from the byte `3 - k` of the word. -/
theorem getLsbD_flippedByte (value : BitVec 32) {x : BitVec 32} {k : ℕ} (hk : k < 4)
    (hx : ∀ j, x.getLsbD j = (decide (j < 8) && (value >>> (8 * (3 - k))).getLsbD (7 - j))) {j : ℕ}
    (hj : j < 32) :
    (x <<< (8 * k)).getLsbD j = (decide (j / 8 = k) && value.getLsbD (31 - j)) := by
  rw [BitVec.getLsbD_shiftLeft, decide_eq_true hj, Bool.true_and, hx, BitVec.getLsbD_ushiftRight]
  by_cases hbyte : j / 8 = k
  · have hpos : 8 * (3 - k) + (7 - (j - 8 * k)) = 31 - j := by omega
    rw [decide_eq_true hbyte, decide_eq_false (show ¬ j < 8 * k by omega),
      decide_eq_true (show j - 8 * k < 8 by omega), hpos, Bool.not_false, Bool.true_and]
  · rw [decide_eq_false hbyte, Bool.false_and]
    rcases Nat.lt_or_ge j (8 * k) with hlt | hge
    · rw [decide_eq_true hlt, Bool.not_true, Bool.false_and]
    · rw [decide_eq_false (show ¬ j - 8 * k < 8 by omega), Bool.false_and, Bool.and_false]

/-- The four bytes, put together, are the whole word reversed. -/
theorem flipU32_eq (value : BitVec 32) {num : ℕ} (hnum : num ≠ 0) :
    ∃ c : BitVec 32, flipU32 value num = some (if num < 32 then c >>> (32 - num) else c) ∧
      ∀ j < 32, c.getLsbD j = value.getLsbD (31 - j) := by
  obtain ⟨b0, h0, hb0⟩ := flippedByte_bit value
  obtain ⟨b1, h1, hb1⟩ := flippedByte_bit (value >>> 8)
  obtain ⟨b2, h2, hb2⟩ := flippedByte_bit (value >>> 16)
  obtain ⟨b3, h3, hb3⟩ := flippedByte_bit (value >>> 24)
  refine ⟨(b0 <<< 24) ||| (b1 <<< 16) ||| (b2 <<< 8) ||| b3, ?_, fun j hj => ?_⟩
  · rw [flipU32, h0, h1, h2, h3]
    exact if_neg hnum
  · have hbyte0 := getLsbD_flippedByte value (show 3 < 4 by decide) hb0 hj
    have hbyte1 := getLsbD_flippedByte value (show 2 < 4 by decide) hb1 hj
    have hbyte2 := getLsbD_flippedByte value (show 1 < 4 by decide) hb2 hj
    have hbyte3 := getLsbD_flippedByte value (show 0 < 4 by decide) hb3 hj
    rw [Nat.mul_zero, BitVec.shiftLeft_zero] at hbyte3
    rw [BitVec.getLsbD_or, BitVec.getLsbD_or, BitVec.getLsbD_or, hbyte0, hbyte1, hbyte2, hbyte3]
    -- one of the four bytes
    have hbyte : j / 8 = 0 ∨ j / 8 = 1 ∨ j / 8 = 2 ∨ j / 8 = 3 := by omega
    rcases hbyte with h | h | h | h <;> rw [h] <;> simp

/-- What it makes of every bit. -/
theorem flipU32_bit (value : BitVec 32) {num : ℕ} (hnum : num ≠ 0) :
    ∃ c, flipU32 value num = some c ∧
      ∀ j, c.getLsbD j = (decide (j < min num 32) && value.getLsbD (min num 32 - 1 - j)) := by
  obtain ⟨c, hc, hword⟩ := flipU32_eq value hnum
  refine ⟨_, hc, fun j => ?_⟩
  split_ifs with hshort
  · rw [BitVec.getLsbD_ushiftRight, Nat.min_eq_left hshort.le]
    by_cases hj : j < num
    · have hpos : 31 - (32 - num + j) = num - 1 - j := by omega
      rw [hword _ (by omega), hpos, decide_eq_true hj, Bool.true_and]
    · rw [BitVec.getLsbD_of_ge _ _ (show 32 ≤ 32 - num + j by omega), decide_eq_false hj,
        Bool.false_and]
  · rw [Nat.min_eq_right (not_lt.mp hshort)]
    by_cases hj : j < 32
    · rw [hword j hj, decide_eq_true hj, Bool.true_and]
    · rw [BitVec.getLsbD_of_ge _ _ (not_lt.mp hj), decide_eq_false hj, Bool.false_and]

/-- **`flip_u32` reverses the lowest bits**, and clears the others; twice, it leaves the lowest
bits as they were. -/
theorem flipU32_reverses (value : BitVec 32) {num : ℕ} (hnum : num ≠ 0) :
    ∃ c, flipU32 value num = some c ∧
      (∀ j, c.getLsbD j = (decide (j < min num 32) && value.getLsbD (min num 32 - 1 - j))) ∧
      flipU32 c num = some ((value.setWidth (min num 32)).setWidth 32) := by
  obtain ⟨c, hc, hcbit⟩ := flipU32_bit value hnum
  obtain ⟨d, hd, hdbit⟩ := flipU32_bit c hnum
  refine ⟨c, hc, hcbit, ?_⟩
  rw [hd, Option.some.injEq]
  refine BitVec.eq_of_getLsbD_eq fun j hj => ?_
  rw [hdbit, hcbit, BitVec.getLsbD_setWidth, BitVec.getLsbD_setWidth, decide_eq_true hj,
    Bool.true_and]
  by_cases hlt : j < min num 32
  · have hback : min num 32 - 1 - (min num 32 - 1 - j) = j := by omega
    rw [decide_eq_true hlt, decide_eq_true (show min num 32 - 1 - j < min num 32 by omega), hback,
      Bool.true_and, Bool.true_and]
  · rw [decide_eq_false hlt, Bool.false_and, Bool.false_and]

theorem flipU32_reverses_five :
    flipU32 0x0000FF01 5 = some 0x10 ∧
      ∃ c, flipU32 0x0000FF01 5 = some c ∧
        (∀ j, c.getLsbD j = (decide (j < 5) && (0x0000FF01 : BitVec 32).getLsbD (4 - j))) ∧
        flipU32 c 5 = some 0x01 :=
  ⟨by decide, flipU32_reverses 0x0000FF01 (by decide)⟩

end JtagHw
