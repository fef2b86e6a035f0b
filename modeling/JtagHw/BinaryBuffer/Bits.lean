import JtagHw.Mpsse.BinaryBuffer
import JtagHw.Mpsse.Transfer

/-!
# A buffer as an array of bits

The rest of `openocd/src/helper/binarybuffer.c`, and the accessors of `binarybuffer.h`: words
written into a buffer at any bit and read out of it again, buffers copied, filled with ones,
shifted and compared, all of a given number of bits. Most of them have a path for whole bytes or
words and another for what is left over.

On the bits of the buffer each is what its name says (`JtagHw.BufCall.denote`), and nothing but
these bits is touched: any calls in any order take the buffer to what they make of an array of
bits, and what is read from it then is what is there (`JtagHw.bufCalls_bits`). Comparing is the
exception. With a mask it looks at all bits (`JtagHw.bufCmpMask_iff`); without one a difference
in a whole byte makes it say that there is none (`JtagHw.bufCmp_iff`).

Positions and lengths are `unsigned`, and some of the sums wrap: where `first + num` does, a word
is neither written nor read, and `buf_cpy` copies nothing of a buffer of nearly `2 ^ 32` bits.
-/

namespace JtagHw

open PackedBits

variable {m n l w : ℕ}

/-! ### Words -/

/-- The number of iterations of `for (unsigned i = first; i < first + num; i++)`, where the sum
wraps. -/
def bitLoop (first num : ℕ) : ℕ := (first + num) % 2 ^ 32 - first

theorem bitLoop_of_lt {first num : ℕ} (h : first + num < 2 ^ 32) : bitLoop first num = num := by
  rw [bitLoop, Nat.mod_eq_of_lt h, Nat.add_sub_cancel_left]

/-- The loop of `buf_set_u32` and `buf_set_u64` over the bits, from `i` on. -/
def setBits (value : BitVec w) (first : ℕ) : ℕ → ℕ → Buf n → Option (Buf n)
  | 0, _, buffer => some buffer
  | left + 1, i, buffer => do
    let buffer ← buffer.setAt i ((value >>> (i - first)) &&& 1 = 1)
    setBits value first left (i + 1) buffer

/-- Their assignments to whole bytes, the last one first. -/
def storeWord (value : BitVec w) : ℕ → Buf n → Option (Buf n)
  | 0, buffer => some buffer
  | i + 1, buffer => do
    let buffer ← buffer.store? i (((value >>> (8 * i)) &&& 0xff).setWidth 8)
    storeWord value i buffer

/-- `static inline void buf_set_u32(uint8_t *_buffer, unsigned first, unsigned num, uint32_t
value)`. -/
def bufSetU32 (buffer : Buf n) (first num : ℕ) (value : BitVec 32) : Option (Buf n) :=
  if num = 32 ∧ first = 0 then storeWord value 4 buffer
  else setBits value first (bitLoop first num) first buffer

/-- `static inline void buf_set_u64(uint8_t *_buffer, unsigned first, unsigned num, uint64_t
value)`. -/
def bufSetU64 (buffer : Buf n) (first num : ℕ) (value : BitVec 64) : Option (Buf n) :=
  if num = 32 ∧ first = 0 then storeWord value 4 buffer
  else if num = 64 ∧ first = 0 then storeWord value 8 buffer
  else setBits value first (bitLoop first num) first buffer

/-- The loop of `buf_get_u32` and `buf_get_u64` over the bits, from `i` on. -/
def getBits (buffer : Buf n) (first : ℕ) : ℕ → ℕ → BitVec w → Option (BitVec w)
  | 0, _, result => some result
  | left + 1, i, result => do
    let x ← buffer.load? (i / 8)
    getBits buffer first left (i + 1)
      (if (x >>> (i % 8)) &&& 1#8 = 1 then result ||| (1#w <<< (i - first)) else result)

/-- Their expressions of whole bytes. -/
def loadWord (w : ℕ) (buffer : Buf n) : ℕ → Option (BitVec w)
  | 0 => some 0
  | i + 1 => do
    let x ← buffer.load? i
    let rest ← loadWord w buffer i
    some ((x.setWidth w <<< (8 * i)) ||| rest)

/-- `static inline uint32_t buf_get_u32(const uint8_t *_buffer, unsigned first, unsigned num)`. -/
def bufGetU32 (buffer : Buf n) (first num : ℕ) : Option (BitVec 32) :=
  if num = 32 ∧ first = 0 then loadWord 32 buffer 4
  else getBits buffer first (bitLoop first num) first 0

/-- `static inline uint64_t buf_get_u64(const uint8_t *_buffer, unsigned first, unsigned num)`. -/
def bufGetU64 (buffer : Buf n) (first num : ℕ) : Option (BitVec 64) :=
  if num = 32 ∧ first = 0 then loadWord 64 buffer 4
  else if num = 64 ∧ first = 0 then loadWord 64 buffer 8
  else getBits buffer first (bitLoop first num) first 0

/-! ### Buffers -/

/-- `(1 << trailing_bits) - 1`. -/
def trailingMask (trailing : ℕ) : Byte := BitVec.ofNat 8 (1 <<< trailing - 1)

/-- `void *buf_cpy(const void *from, void *_to, unsigned size)`. -/
def bufCpy (src : Buf m) (dst : Buf n) (size : ℕ) : Option (Buf n) := do
  let dst ← copyBytes src (divRoundUp32 size 8) 0 0 dst
  if size % 8 ≠ 0 then dst.modify? (size / 8) (· &&& trailingMask (size % 8)) else some dst

/-- `void *buf_set_ones(void *_buf, unsigned size)`. -/
def bufSetOnes (buf : Buf n) (size : ℕ) : Option (Buf n) := do
  let buf ← buf.memcpy? 0 (List.replicate (size / 8) 0xff)
  if size % 8 ≠ 0 then buf.store? (size / 8) (trailingMask (size % 8)) else some buf

/-- The loop of `buffer_shr`, from the byte `i` on. -/
def shrLoop (shift : ℕ) : ℕ → ℕ → Buf n → Option (Buf n)
  | 0, _, buf => some buf
  | left + 1, i, buf => do
    let x ← buf.load? i
    let y ← buf.load? (i + 1)
    let buf ← buf.store? i ((x >>> shift) ||| (y <<< (8 - shift)))
    shrLoop shift left (i + 1) buf

/-- `buf_len - 1`, which is far above the memory for an empty buffer. -/
def lastByte (bufLen : ℕ) : ℕ := (bufLen + (2 ^ 32 - 1)) % 2 ^ 32

/-- `void buffer_shr(void *_buf, unsigned buf_len, unsigned count)`. -/
def bufferShr (buf : Buf n) (bufLen count : ℕ) : Option (Buf n) := do
  let bytesToRemove := count / 8
  let shift := count - bytesToRemove * 8
  let buf ← shrLoop shift (lastByte bufLen) 0 buf
  let x ← buf.load? (lastByte bufLen)
  let buf ← buf.store? (lastByte bufLen) (x >>> shift)
  if bytesToRemove ≠ 0 then
    if bytesToRemove ≤ bufLen then do
      let buf ← buf.memcpy? 0 ((buf.bytes bufLen).drop bytesToRemove)
      buf.memcpy? (bufLen - bytesToRemove) (List.replicate bytesToRemove 0)
    else none
  else some buf

/-- `static bool buf_cmp_masked(uint8_t a, uint8_t b, uint8_t m)`. -/
def bufCmpMasked (a b m : Byte) : Bool := a &&& m ≠ b &&& m

/-- `static bool buf_cmp_trailing(uint8_t a, uint8_t b, uint8_t m, unsigned trailing)`. -/
def bufCmpTrailing (a b m : Byte) (trailing : ℕ) : Bool :=
  bufCmpMasked a b (trailingMask trailing &&& m)

/-- `bool buf_cmp(const void *_buf1, const void *_buf2, unsigned size)`. -/
def bufCmp (buf1 : Buf m) (buf2 : Buf n) (size : ℕ) : Option Bool :=
  let last := size / 8
  if last ≤ m ∧ last ≤ n then
    if buf1.bytes last ≠ buf2.bytes last then some false
    else if size % 8 = 0 then some false
    else do
      let a ← buf1.load? last
      let b ← buf2.load? last
      some (bufCmpTrailing a b 0xff (size % 8))
  else none

/-- The loop of `buf_cmp_mask`, from the byte `i` on, which the first difference ends. -/
def cmpMaskLoop (buf1 : Buf m) (buf2 : Buf n) (mask : Buf l) : ℕ → ℕ → Option Bool
  | 0, _ => some false
  | left + 1, i => do
    let a ← buf1.load? i
    let b ← buf2.load? i
    let c ← mask.load? i
    if bufCmpMasked a b c then some true else cmpMaskLoop buf1 buf2 mask left (i + 1)

/-- `bool buf_cmp_mask(const void *_buf1, const void *_buf2, const void *_mask, unsigned
size)`. -/
def bufCmpMask (buf1 : Buf m) (buf2 : Buf n) (mask : Buf l) (size : ℕ) : Option Bool := do
  let last := size / 8
  let differ ← cmpMaskLoop buf1 buf2 mask last 0
  if differ then some true
  else if size % 8 = 0 then some false
  else do
    let a ← buf1.load? last
    let b ← buf2.load? last
    let c ← mask.load? last
    some (bufCmpTrailing a b c (size % 8))

/-! ### What they do to the bits -/

/-- Bit `k` of a word, brought down to position `0` and masked. -/
theorem decide_shiftRight_and_one (value : BitVec w) (k : ℕ) (hw : 0 < w) :
    decide ((value >>> k) &&& 1 = 1) = value.getLsbD k := by
  have hone : (1 : BitVec w).getLsbD 0 = true := by simp [hw]
  have hmask : (value >>> k) &&& 1 = if value.getLsbD k then 1 else 0 := by
    rw [show (1 : BitVec w) = 1#w from rfl, BitVec.and_one_eq_setWidth_ofBool_getLsbD,
      BitVec.getLsbD_ushiftRight, Nat.add_zero]
    cases value.getLsbD k <;> exact BitVec.eq_of_toNat_eq (by simp)
  have hne : (0 : BitVec w) ≠ 1 := fun h => by
    rw [← h] at hone
    simp at hone
  rw [hmask]
  cases value.getLsbD k with
  | false => exact decide_eq_false hne
  | true => exact decide_eq_true rfl

theorem setBits_bit (value : BitVec w) (hw : 0 < w) {first : ℕ} :
    ∀ {left i : ℕ} (b : Buf n), first ≤ i → i + left ≤ 8 * n →
      ∃ b', setBits value first left i b = some b' ∧ ∀ j, b'.bit j =
        if i ≤ j ∧ j < i + left then value.getLsbD (j - first) else b.bit j
  | 0, i, b, _, _ => ⟨b, rfl, fun j => (if_neg (by omega)).symm⟩
  | left + 1, i, b, hi, hn => by
    obtain ⟨b₁, hset, hbit₁⟩ := b.bit_setAt (k := i) (decide ((value >>> (i - first)) &&& 1 = 1))
      (by omega)
    obtain ⟨b₂, hrest, hbit₂⟩ := setBits_bit value hw b₁
      (show first ≤ i + 1 by omega) (show i + 1 + left ≤ 8 * n by omega)
    refine ⟨b₂, ?_, fun j => ?_⟩
    · rw [setBits, hset]
      exact hrest
    · rw [hbit₂ j, hbit₁ j]
      rcases Nat.lt_trichotomy j i with hlt | rfl | hgt
      · rw [if_neg (by omega), if_neg (by omega), if_neg (by omega)]
      · rw [if_neg (by omega), if_pos rfl, if_pos (by omega),
          decide_shiftRight_and_one value _ hw]
      · by_cases hlast : j < i + 1 + left
        · rw [if_pos (by omega), if_pos (by omega)]
        · rw [if_neg (by omega), if_neg (by omega), if_neg (by omega)]

theorem storeWord_bit (value : BitVec w) : ∀ {k : ℕ} (b : Buf n), k ≤ n → 8 * k ≤ w →
    ∃ b', storeWord value k b = some b' ∧ ∀ j, b'.bit j =
      if j < 8 * k then value.getLsbD j else b.bit j
  | 0, b, _, _ => ⟨b, rfl, fun j => (if_neg (by omega)).symm⟩
  | k + 1, b, hk, hw => by
    obtain ⟨b₁, hstore, hbit₁⟩ := b.modify?_bit
      (fun _ => ((value >>> (8 * k)) &&& 0xff).setWidth 8) (show k < n by omega)
    obtain ⟨b₂, hrest, hbit₂⟩ := storeWord_bit value b₁ (show k ≤ n by omega) (by omega)
    refine ⟨b₂, ?_, fun j => ?_⟩
    · rw [storeWord, Buf.store?, hstore]
      exact hrest
    · rw [hbit₂ j, hbit₁ j]
      by_cases hj : j / 8 = k
      · have hpos : 8 * k + j % 8 = j := by omega
        have hmod : j % 8 < 8 := Nat.mod_lt _ (by decide)
        have hmask : (0xff : BitVec w).getLsbD (j % 8) = true := by
          change (BitVec.ofNat w 255).getLsbD (j % 8) = true
          rw [BitVec.getLsbD_ofNat, decide_eq_true (by omega), Bool.true_and,
            show 255 = 2 ^ 8 - 1 from rfl, Nat.testBit_two_pow_sub_one, decide_eq_true hmod]
        rw [if_neg (by omega), if_pos hj, if_pos (by omega), BitVec.getLsbD_setWidth,
          decide_eq_true hmod, Bool.true_and, BitVec.getLsbD_and, hmask, Bool.and_true,
          BitVec.getLsbD_ushiftRight, hpos]
      · by_cases hlt : j < 8 * k
        · rw [if_pos hlt, if_pos (by omega)]
        · rw [if_neg hlt, if_neg hj, if_neg (by omega)]

/-- The bytes as bits from the first one on. -/
theorem storeWord_bit_first (value : BitVec w) (b : Buf n) {k first num : ℕ}
    (hfast : num = 8 * k ∧ first = 0) (hn : first + num ≤ 8 * n) (hw : num ≤ w) :
    ∃ b', storeWord value k b = some b' ∧ ∀ j, b'.bit j =
      if first ≤ j ∧ j < first + num then value.getLsbD (j - first) else b.bit j := by
  obtain ⟨rfl, rfl⟩ := hfast
  obtain ⟨b', hstore, hbit⟩ := storeWord_bit value b (show k ≤ n by omega) hw
  exact ⟨b', hstore, fun j => by simpa using hbit j⟩

/-- **A word written at a bit**, whichever path is taken. -/
theorem bufSetU32_bit (b : Buf n) {first num : ℕ} (value : BitVec 32)
    (hn : first + num ≤ 8 * n) (h32 : first + num < 2 ^ 32) :
    ∃ b', bufSetU32 b first num value = some b' ∧ ∀ j, b'.bit j =
      if first ≤ j ∧ j < first + num then value.getLsbD (j - first) else b.bit j := by
  rw [bufSetU32]
  split_ifs with hfast
  · exact storeWord_bit_first value b hfast hn (by omega)
  · rw [bitLoop_of_lt h32]
    exact setBits_bit value (by decide) b le_rfl hn

theorem bufSetU64_bit (b : Buf n) {first num : ℕ} (value : BitVec 64)
    (hn : first + num ≤ 8 * n) (h32 : first + num < 2 ^ 32) :
    ∃ b', bufSetU64 b first num value = some b' ∧ ∀ j, b'.bit j =
      if first ≤ j ∧ j < first + num then value.getLsbD (j - first) else b.bit j := by
  rw [bufSetU64]
  split_ifs with hfast hfast
  · exact storeWord_bit_first value b hfast hn (by omega)
  · exact storeWord_bit_first value b hfast hn (by omega)
  · rw [bitLoop_of_lt h32]
    exact setBits_bit value (by decide) b le_rfl hn

/-- One more bit of a result that has the lowest `k` ones. -/
theorem getLsbD_orBit {result : BitVec w} {bits : ℕ → Bool} {k : ℕ} (hk : k < w)
    (h : ∀ j, result.getLsbD j = (decide (j < k) && bits j)) {p : Prop} [Decidable p]
    (hp : p ↔ bits k = true) (j : ℕ) :
    (if p then result ||| (1#w <<< k) else result).getLsbD j =
      (decide (j < k + 1) && bits j) := by
  have hone : (1#w <<< k).getLsbD j = decide (k = j) := by
    rw [← BitVec.twoPow_eq, BitVec.getLsbD_twoPow, decide_eq_true hk, Bool.true_and]
  rcases Nat.lt_trichotomy j k with hlt | rfl | hgt
  · rw [decide_eq_true (show j < k + 1 by omega)]
    split_ifs
    · rw [BitVec.getLsbD_or, h j, hone, decide_eq_true hlt,
        decide_eq_false (show ¬ k = j by omega), Bool.or_false]
    · rw [h j, decide_eq_true hlt]
  · rw [decide_eq_true (Nat.lt_succ_self j), Bool.true_and]
    split_ifs with hset
    · rw [BitVec.getLsbD_or, hone, decide_eq_true rfl, Bool.or_true, hp.mp hset]
    · rw [h j, decide_eq_false (lt_irrefl j), Bool.false_and]
      exact (Bool.eq_false_iff.mpr fun he => hset (hp.mpr he)).symm
  · rw [decide_eq_false (show ¬ j < k + 1 by omega), Bool.false_and]
    split_ifs
    · rw [BitVec.getLsbD_or, h j, hone, decide_eq_false (show ¬ j < k by omega),
        decide_eq_false (show ¬ k = j by omega), Bool.false_and, Bool.or_false]
    · rw [h j, decide_eq_false (show ¬ j < k by omega), Bool.false_and]

/-- What the loop over the bits reads, when it is at bit `i`. -/
theorem getBits_bit (b : Buf n) {first num : ℕ} (hnum : num ≤ w) :
    ∀ {left i : ℕ} (result : BitVec w), first ≤ i → i + left = first + num →
      first + num ≤ 8 * n →
      (∀ j, result.getLsbD j = (decide (j < i - first) && b.bit (first + j))) →
      ∃ v, getBits b first left i result = some v ∧
        ∀ j, v.getLsbD j = (decide (j < num) && b.bit (first + j))
  | 0, i, result, _, hend, _, h => by
    have hread : i - first = num := by omega
    rw [hread] at h
    exact ⟨result, rfl, h⟩
  | left + 1, i, result, hi, hend, hn, h => by
    have hload : b.load? (i / 8) = some (b ⟨i / 8, by omega⟩) := b.load?_of_lt (by omega)
    have hbit : (b ⟨i / 8, by omega⟩).getLsbD (i % 8) = b.bit i := (Buf.bit_of_load? hload).symm
    have hmask : (((b ⟨i / 8, by omega⟩) >>> (i % 8)) &&& 1#8 = 1) ↔
        b.bit (first + (i - first)) = true := by
      rw [shiftRight_and_one, hbit, Nat.add_sub_cancel' hi]
      cases b.bit i <;> decide
    have hnext := getLsbD_orBit (show i - first < w by omega) h hmask
    rw [← Nat.sub_add_comm hi] at hnext
    obtain ⟨v, hrest, hv⟩ := getBits_bit b hnum _ (show first ≤ i + 1 by omega)
      (show i + 1 + left = first + num by omega) hn hnext
    refine ⟨v, ?_, hv⟩
    rw [getBits, hload]
    exact hrest

theorem loadWord_bit (b : Buf n) : ∀ {k : ℕ}, k ≤ n → 8 * k ≤ w →
    ∃ v : BitVec w, loadWord w b k = some v ∧ ∀ j, v.getLsbD j = (decide (j < 8 * k) && b.bit j)
  | 0, _, _ => ⟨0, rfl, fun j => BitVec.getLsbD_zero⟩
  | k + 1, hk, hw => by
    have hload : b.load? k = some (b ⟨k, hk⟩) := b.load?_of_lt hk
    obtain ⟨v, hrest, hv⟩ := loadWord_bit b (show k ≤ n by omega) (by omega)
    refine ⟨((b ⟨k, hk⟩).setWidth w <<< (8 * k)) ||| v, ?_, fun j => ?_⟩
    · rw [loadWord, hload]
      simp only [Option.bind_eq_bind, Option.bind_some, hrest]
    · rw [BitVec.getLsbD_or, hv, BitVec.getLsbD_shiftLeft, BitVec.getLsbD_setWidth]
      rcases Nat.lt_or_ge j (8 * k) with hlt | hge
      · rw [decide_eq_true hlt, decide_eq_true (show j < 8 * (k + 1) by omega), Bool.not_true,
          Bool.and_false, Bool.false_and, Bool.false_or]
      · rw [decide_eq_false (not_lt.mpr hge), Bool.not_false, Bool.and_true, Bool.false_and,
          Bool.or_false]
        by_cases hj : j < 8 * (k + 1)
        · have hdiv : j / 8 = k := by omega
          have hmod : j - 8 * k = j % 8 := by omega
          rw [decide_eq_true (show j < w by omega), decide_eq_true (show j - 8 * k < w by omega),
            decide_eq_true hj, b.bit_of_div_eq hk hdiv, hmod, Bool.true_and]
        · rw [decide_eq_false hj, Bool.false_and,
            BitVec.getLsbD_of_ge _ _ (by omega : 8 ≤ j - 8 * k), Bool.and_false, Bool.and_false]

theorem loadWord_bit_first (b : Buf n) {k first num : ℕ} (hfast : num = 8 * k ∧ first = 0)
    (hn : first + num ≤ 8 * n) (hw : num ≤ w) :
    ∃ v : BitVec w, loadWord w b k = some v ∧
      ∀ j, v.getLsbD j = (decide (j < num) && b.bit (first + j)) := by
  obtain ⟨rfl, rfl⟩ := hfast
  obtain ⟨v, hload, hv⟩ := loadWord_bit b (show k ≤ n by omega) hw
  exact ⟨v, hload, fun j => by rw [hv j, Nat.zero_add]⟩

/-- The loop over the bits, from the first one on. -/
theorem getBits_bit_first (b : Buf n) {first num : ℕ} (hnum : num ≤ w)
    (hn : first + num ≤ 8 * n) :
    ∃ v : BitVec w, getBits b first num first 0 = some v ∧
      ∀ j, v.getLsbD j = (decide (j < num) && b.bit (first + j)) := by
  refine getBits_bit b hnum 0 le_rfl rfl hn fun j => ?_
  rw [decide_eq_false (by omega), Bool.false_and]
  exact BitVec.getLsbD_zero

/-- **A word read at a bit**, whichever path is taken. -/
theorem bufGetU32_bit (b : Buf n) {first num : ℕ} (hnum : num ≤ 32) (hn : first + num ≤ 8 * n)
    (h32 : first + num < 2 ^ 32) :
    ∃ v, bufGetU32 b first num = some v ∧
      ∀ j, v.getLsbD j = (decide (j < num) && b.bit (first + j)) := by
  rw [bufGetU32]
  split_ifs with hfast
  · exact loadWord_bit_first b hfast hn hnum
  · rw [bitLoop_of_lt h32]
    exact getBits_bit_first b hnum hn

theorem bufGetU64_bit (b : Buf n) {first num : ℕ} (hnum : num ≤ 64) (hn : first + num ≤ 8 * n)
    (h32 : first + num < 2 ^ 32) :
    ∃ v, bufGetU64 b first num = some v ∧
      ∀ j, v.getLsbD j = (decide (j < num) && b.bit (first + j)) := by
  rw [bufGetU64]
  split_ifs with hfast hfast
  · exact loadWord_bit_first b hfast hn hnum
  · exact loadWord_bit_first b hfast hn hnum
  · rw [bitLoop_of_lt h32]
    exact getBits_bit_first b hnum hn

theorem getLsbD_trailing {r : ℕ} (hr : r ≤ 8) (j : ℕ) :
    (trailingMask r).getLsbD j = decide (j < r) := by
  rw [trailingMask, BitVec.getLsbD_ofNat, Nat.one_shiftLeft, Nat.testBit_two_pow_sub_one,
    ← Bool.decide_and]
  exact decide_eq_decide.mpr (by omega)

/-- **A buffer copied**: the rest of its last byte is cleared. -/
theorem bufCpy_bit (src : Buf m) (dst : Buf n) {size : ℕ} (hm : divRoundUp size 8 ≤ m)
    (hn : divRoundUp size 8 ≤ n) (h32 : size + 7 < 2 ^ 32) :
    ∃ b', bufCpy src dst size = some b' ∧ ∀ j, b'.bit j =
      if j < 8 * divRoundUp size 8 then decide (j < size) && src.bit j else dst.bit j := by
  obtain ⟨b₁, hcopy, hbit₁⟩ := copyBytes_bit src (divRoundUp size 8) 0 0 dst (by omega) (by omega)
  have hbit : ∀ j, b₁.bit j = if j < 8 * divRoundUp size 8 then src.bit j else dst.bit j := by
    intro j
    simpa using hbit₁ j
  rw [bufCpy, divRoundUp32_of_lt h32, hcopy]
  simp only [Option.bind_eq_bind, Option.bind_some]
  have hround : divRoundUp size 8 = (size + 8 - 1) / 8 := rfl
  split_ifs with hlast
  · have hlt : size / 8 < n := by omega
    obtain ⟨b₂, hmask, hbit₂⟩ := b₁.modify?_bit (· &&& trailingMask (size % 8)) hlt
    refine ⟨b₂, hmask, fun j => ?_⟩
    rw [hbit₂ j]
    split_ifs with hj hin hin
    · rw [BitVec.getLsbD_and, getLsbD_trailing (by omega), ← b₁.bit_of_div_eq hlt hj, hbit j,
        if_pos hin, Bool.and_comm]
      congr 1
      exact decide_eq_decide.mpr (by omega)
    · omega
    · rw [hbit j, if_pos hin, decide_eq_true (by omega), Bool.true_and]
    · rw [hbit j, if_neg hin]
  · refine ⟨b₁, rfl, fun j => ?_⟩
    rw [hbit j]
    split_ifs with hin
    · rw [decide_eq_true (by omega), Bool.true_and]
    · rfl

theorem bufSetOnes_bit (b : Buf n) {size : ℕ} (hn : divRoundUp size 8 ≤ n) :
    ∃ b', bufSetOnes b size = some b' ∧ ∀ j, b'.bit j =
      if j < 8 * divRoundUp size 8 then decide (j < size) else b.bit j := by
  have hround : divRoundUp size 8 = (size + 8 - 1) / 8 := rfl
  have hones : ∀ t < 8, (0xff : Byte).getLsbD t = true := by decide
  obtain ⟨b₁, hset, hbit₁⟩ := b.bit_memset 0 (size / 8) 0xff (by omega)
  rw [bufSetOnes, hset]
  simp only [Option.bind_eq_bind, Option.bind_some]
  split_ifs with hlast
  · obtain ⟨b₂, hstore, hbit₂⟩ := b₁.modify?_bit (fun _ => trailingMask (size % 8))
      (show size / 8 < n by omega)
    refine ⟨b₂, hstore, fun j => ?_⟩
    rw [hbit₂ j]
    split_ifs with hj hin hin
    · rw [getLsbD_trailing (by omega)]
      exact decide_eq_decide.mpr (by omega)
    · omega
    · rw [hbit₁ j, if_pos (by omega), hones _ (Nat.mod_lt _ (by decide)), decide_eq_true (by omega)]
    · rw [hbit₁ j, if_neg (by omega)]
  · refine ⟨b₁, rfl, fun j => ?_⟩
    rw [hbit₁ j]
    split_ifs with hj hin hin
    · rw [hones _ (Nat.mod_lt _ (by decide)), decide_eq_true (by omega)]
    · omega
    · omega
    · rfl

/-! ### Shifting -/

/-- A byte shifted, with the bits of the next one behind it. -/
theorem getLsbD_shifted (x y : Byte) {s t : ℕ} (hs : s < 8) (ht : t < 8) :
    ((x >>> s) ||| (y <<< (8 - s))).getLsbD t =
      if s + t < 8 then x.getLsbD (s + t) else y.getLsbD (s + t - 8) := by
  rw [BitVec.getLsbD_or, BitVec.getLsbD_ushiftRight, BitVec.getLsbD_shiftLeft, decide_eq_true ht,
    Bool.true_and]
  split_ifs with hin
  · rw [decide_eq_true (show t < 8 - s by omega), Bool.not_true, Bool.false_and, Bool.or_false]
  · have hsub : t - (8 - s) = s + t - 8 := by omega
    rw [decide_eq_false (show ¬ t < 8 - s by omega), Bool.not_false, Bool.true_and, hsub,
      BitVec.getLsbD_of_ge _ _ (show 8 ≤ s + t by omega), Bool.false_or]

/-- The loop of `buffer_shr`: behind it are the bytes that it has yet to read. -/
theorem shrLoop_bit {shift : ℕ} (hshift : shift < 8) : ∀ {left i : ℕ} (b : Buf n), i + left < n →
    ∃ b', shrLoop shift left i b = some b' ∧ ∀ j, b'.bit j =
      if i ≤ j / 8 ∧ j / 8 < i + left then b.bit (j + shift) else b.bit j
  | 0, i, b, _ => ⟨b, rfl, fun j => (if_neg (by omega)).symm⟩
  | left + 1, i, b, hn => by
    have hi : i < n := by omega
    have hi' : i + 1 < n := by omega
    obtain ⟨b₁, hstore, hbit₁⟩ := b.modify?_bit
      (fun _ => (b ⟨i, hi⟩ >>> shift) ||| (b ⟨i + 1, hi'⟩ <<< (8 - shift))) hi
    obtain ⟨b₂, hrest, hbit₂⟩ := shrLoop_bit hshift b₁ (show i + 1 + left < n by omega)
    refine ⟨b₂, ?_, fun j => ?_⟩
    · rw [shrLoop, b.load?_of_lt hi, b.load?_of_lt hi']
      simp only [Option.bind_eq_bind, Option.bind_some, Buf.store?, hstore]
      exact hrest
    · have hmod : j % 8 < 8 := Nat.mod_lt _ (by decide)
      rw [hbit₂ j]
      rcases Nat.lt_trichotomy (j / 8) i with hlt | heq | hgt
      · rw [if_neg (by omega), if_neg (by omega), hbit₁ j, if_neg (by omega)]
      · rw [if_neg (by omega), if_pos (by omega), hbit₁ j, if_pos heq,
          getLsbD_shifted _ _ hshift hmod]
        split_ifs with hin
        · rw [b.getLsbD_byte hi hin]
          congr 1
          omega
        · rw [b.getLsbD_byte hi' (by omega)]
          congr 1
          omega
      · by_cases hin : j / 8 < i + 1 + left
        · rw [if_pos (by omega), if_pos (by omega), hbit₁, if_neg (by omega)]
        · rw [if_neg (by omega), if_neg (by omega), hbit₁ j, if_neg (by omega)]

theorem bitOf_drop (xs : List Byte) (k j : ℕ) : bitOf (xs.drop k) j = bitOf xs (j + 8 * k) := by
  have hdiv : (j + 8 * k) / 8 = k + j / 8 := by omega
  have hmod : (j + 8 * k) % 8 = j % 8 := by omega
  rw [bitOf, bitOf, hdiv, hmod, List.getD_eq_getElem?_getD, List.getD_eq_getElem?_getD,
    List.getElem?_drop]

/-- The loop, and the last byte behind it: the buffer shifted by less than a byte. -/
theorem shrLoop_lastByte_bit (b : Buf n) {shift bufLen : ℕ} (hshift : shift < 8)
    (hpos : 0 < bufLen) (hn : bufLen ≤ n) :
    ∃ b₁ x b₂, shrLoop shift (bufLen - 1) 0 b = some b₁ ∧ b₁.load? (bufLen - 1) = some x ∧
      b₁.store? (bufLen - 1) (x >>> shift) = some b₂ ∧ ∀ j, b₂.bit j =
        if j < 8 * bufLen then decide (j + shift < 8 * bufLen) && b.bit (j + shift)
        else b.bit j := by
  obtain ⟨b₁, hloop, hbit₁⟩ := shrLoop_bit hshift b (show 0 + (bufLen - 1) < n by omega)
  have hlt : bufLen - 1 < n := by omega
  obtain ⟨b₂, hstore, hbit₂⟩ := b₁.modify?_bit (fun _ => b₁ ⟨bufLen - 1, hlt⟩ >>> shift) hlt
  refine ⟨b₁, _, b₂, hloop, b₁.load?_of_lt hlt, hstore, fun j => ?_⟩
  have hmod : j % 8 < 8 := Nat.mod_lt _ (by decide)
  rw [hbit₂ j]
  rcases Nat.lt_trichotomy (j / 8) (bufLen - 1) with hj | hj | hj
  · rw [if_neg (by omega), hbit₁ j, if_pos (by omega), if_pos (by omega),
      decide_eq_true (show j + shift < 8 * bufLen by omega), Bool.true_and]
  · rw [if_pos hj, if_pos (by omega), BitVec.getLsbD_ushiftRight]
    by_cases hin : shift + j % 8 < 8
    · have hsum : 8 * (bufLen - 1) + (shift + j % 8) = j + shift := by omega
      rw [b₁.getLsbD_byte hlt hin, hsum, hbit₁, if_neg (by omega),
        decide_eq_true (show j + shift < 8 * bufLen by omega), Bool.true_and]
    · rw [BitVec.getLsbD_of_ge _ _ (show 8 ≤ shift + j % 8 by omega),
        decide_eq_false (show ¬ j + shift < 8 * bufLen by omega), Bool.false_and]
  · rw [if_neg (by omega), hbit₁ j, if_neg (by omega), if_neg (by omega)]

/-- **`buffer_shr` shifts the buffer to the right**, and fills it up with zeros. -/
theorem bufferShr_bit (b : Buf n) {bufLen count : ℕ} (hpos : 0 < bufLen) (hn : bufLen ≤ n)
    (h32 : bufLen < 2 ^ 32) (hcount : count / 8 ≤ bufLen) :
    ∃ b', bufferShr b bufLen count = some b' ∧ ∀ j, b'.bit j =
      if j < 8 * bufLen then decide (j + count < 8 * bufLen) && b.bit (j + count)
      else b.bit j := by
  have hlast : lastByte bufLen = bufLen - 1 := by
    rw [lastByte]
    omega
  set shift := count - count / 8 * 8 with hshift
  -- first by less than a byte
  obtain ⟨b₁, x, b₂, hloop, hload, hstore, hshifted⟩ :=
    shrLoop_lastByte_bit b (show shift < 8 by omega) hpos hn
  have hrun : bufferShr b bufLen count =
      if count / 8 ≠ 0 then
        if count / 8 ≤ bufLen then
          (b₂.memcpy? 0 ((b₂.bytes bufLen).drop (count / 8))).bind fun c =>
            c.memcpy? (bufLen - count / 8) (List.replicate (count / 8) 0)
        else none
      else some b₂ := by
    rw [bufferShr, hlast, ← hshift, hloop]
    change (b₁.load? (bufLen - 1)).bind _ = _
    rw [hload]
    change (b₁.store? (bufLen - 1) _).bind _ = _
    rw [hstore]
    rfl
  rw [hrun]
  split_ifs with hbytes
  · -- then by whole bytes
    obtain ⟨b₃, hmove, hbit₃⟩ := b₂.bit_memcpy 0 ((b₂.bytes bufLen).drop (count / 8))
      (by rw [List.length_drop, Buf.length_bytes]; omega)
    obtain ⟨b₄, hset, hbit₄⟩ := b₃.bit_memset (bufLen - count / 8) (count / 8) 0 (by omega)
    rw [List.length_drop, Buf.length_bytes] at hbit₃
    refine ⟨b₄, by rw [hmove]; exact hset, fun j => ?_⟩
    rw [hbit₄ j]
    by_cases hj : j < 8 * bufLen
    · rw [if_pos hj]
      by_cases hin : j < 8 * (bufLen - count / 8)
      · have hsum : j + 8 * (count / 8) + shift = j + count := by omega
        rw [if_neg (by omega), hbit₃ j, if_pos (by omega), Nat.mul_zero, Nat.sub_zero, bitOf_drop,
          ← Buf.bit_eq_bitOf b₂ (show j + 8 * (count / 8) < 8 * bufLen by omega), hshifted,
          if_pos (by omega), hsum]
      · rw [if_pos (by omega), decide_eq_false (show ¬ j + count < 8 * bufLen by omega),
          Bool.false_and]
        exact BitVec.getLsbD_zero
    · rw [if_neg (by omega), if_neg hj, hbit₃ j, if_neg (by omega), hshifted, if_neg hj]
  · have hcount' : shift = count := by omega
    exact ⟨b₂, rfl, fun j => by rw [hshifted j, hcount']⟩

/-! ### Comparing -/

/-- Bytes compared, bit by bit. -/
theorem bufCmpTrailing_iff (a b c : Byte) {r : ℕ} (hr : r ≤ 8) :
    bufCmpTrailing a b c r = true ↔
      ∃ t < r, c.getLsbD t = true ∧ a.getLsbD t ≠ b.getLsbD t := by
  rw [bufCmpTrailing, bufCmpMasked, decide_eq_true_iff]
  constructor
  · intro hne
    by_contra hall
    refine hne (BitVec.eq_of_getLsbD_eq fun t ht => ?_)
    simp only [BitVec.getLsbD_and, getLsbD_trailing hr]
    by_cases hat : t < r ∧ c.getLsbD t = true
    · by_contra hbit
      exact hall ⟨t, hat.1, hat.2, fun he => hbit (by rw [he])⟩
    · have hmask : (decide (t < r) && c.getLsbD t) = false := by
        rw [Bool.and_eq_false_iff, decide_eq_false_iff_not, ← Bool.not_eq_true]
        exact not_and_or.mp hat
      rw [hmask, Bool.and_false, Bool.and_false]
  · rintro ⟨t, htr, hc, hbit⟩ heq
    have h := congrArg (fun x : Byte => x.getLsbD t) heq
    simp only [BitVec.getLsbD_and, getLsbD_trailing hr, decide_eq_true htr, hc, Bool.and_true] at h
    exact hbit h

theorem bufCmpMasked_eq (a b c : Byte) : bufCmpMasked a b c = bufCmpTrailing a b c 8 := by
  rw [bufCmpTrailing, show trailingMask 8 = BitVec.allOnes 8 from rfl, BitVec.allOnes_and]

/-- `j` is a bit under the mask at which the buffers differ. -/
def DiffersAt (buf1 : Buf m) (buf2 : Buf n) (mask : Buf l) (j : ℕ) : Prop :=
  mask.bit j = true ∧ buf1.bit j ≠ buf2.bit j

section Comparing

variable (buf1 : Buf m) (buf2 : Buf n) (mask : Buf l)

/-- Bytes of buffers compared. -/
theorem bufCmpTrailing_load {i : ℕ} (h1 : i < m) (h2 : i < n) (h3 : i < l) {r : ℕ} (hr : r ≤ 8) :
    bufCmpTrailing (buf1 ⟨i, h1⟩) (buf2 ⟨i, h2⟩) (mask ⟨i, h3⟩) r = true ↔
      ∃ j, 8 * i ≤ j ∧ j < 8 * i + r ∧ DiffersAt buf1 buf2 mask j := by
  rw [bufCmpTrailing_iff _ _ _ hr]
  constructor
  · rintro ⟨t, ht, hc, hne⟩
    rw [buf1.getLsbD_byte h1 (by omega), buf2.getLsbD_byte h2 (by omega)] at hne
    rw [mask.getLsbD_byte h3 (by omega)] at hc
    exact ⟨8 * i + t, by omega, by omega, hc, hne⟩
  · rintro ⟨j, hle, hlt, hc, hne⟩
    have hj : 8 * i + (j - 8 * i) = j := by omega
    refine ⟨j - 8 * i, by omega, ?_, ?_⟩
    · rw [mask.getLsbD_byte h3 (by omega), hj, hc]
    · rwa [buf1.getLsbD_byte h1 (by omega), buf2.getLsbD_byte h2 (by omega), hj]

theorem cmpMaskLoop_iff : ∀ {left i : ℕ}, i + left ≤ m → i + left ≤ n → i + left ≤ l →
    ∃ r, cmpMaskLoop buf1 buf2 mask left i = some r ∧
      (r = true ↔ ∃ j, 8 * i ≤ j ∧ j < 8 * (i + left) ∧ DiffersAt buf1 buf2 mask j)
  | 0, i, _, _, _ => ⟨false, rfl, by simp; omega⟩
  | left + 1, i, h1, h2, h3 => by
    have hi1 : i < m := by omega
    have hi2 : i < n := by omega
    have hi3 : i < l := by omega
    have hbyte := bufCmpTrailing_load buf1 buf2 mask hi1 hi2 hi3 (le_refl 8)
    obtain ⟨r, hrest, hr⟩ := cmpMaskLoop_iff (show i + 1 + left ≤ m by omega)
      (show i + 1 + left ≤ n by omega) (show i + 1 + left ≤ l by omega)
    rw [cmpMaskLoop, buf1.load?_of_lt hi1, buf2.load?_of_lt hi2, mask.load?_of_lt hi3]
    simp only [Option.bind_eq_bind, Option.bind_some, bufCmpMasked_eq]
    split_ifs with hdiffer
    · obtain ⟨j, hle, hlt, hat⟩ := hbyte.mp hdiffer
      exact ⟨true, rfl, by simpa using ⟨j, hle, by omega, hat⟩⟩
    · refine ⟨r, hrest, hr.trans ⟨?_, ?_⟩⟩
      · rintro ⟨j, hle, hlt, hat⟩
        exact ⟨j, by omega, by omega, hat⟩
      · rintro ⟨j, hle, hlt, hat⟩
        refine ⟨j, ?_, by omega, hat⟩
        by_contra hin
        exact hdiffer (hbyte.mpr ⟨j, hle, by omega, hat⟩)

/-- **With a mask** the comparison finds a difference at any bit under it. -/
theorem bufCmpMask_iff {size : ℕ} (h1 : divRoundUp size 8 ≤ m) (h2 : divRoundUp size 8 ≤ n)
    (h3 : divRoundUp size 8 ≤ l) :
    ∃ r, bufCmpMask buf1 buf2 mask size = some r ∧
      (r = true ↔ ∃ j < size, DiffersAt buf1 buf2 mask j) := by
  rw [divRoundUp] at h1 h2 h3
  obtain ⟨r, hloop, hr⟩ := cmpMaskLoop_iff buf1 buf2 mask
    (show 0 + size / 8 ≤ m by omega) (by omega) (by omega)
  rw [bufCmpMask, hloop]
  simp only [Option.bind_eq_bind, Option.bind_some]
  split_ifs with hdiffer htrailing
  · obtain ⟨j, -, hlt, hat⟩ := hr.mp hdiffer
    exact ⟨true, rfl, by simpa using ⟨j, by omega, hat⟩⟩
  · refine ⟨false, rfl, ⟨fun h => absurd h (by decide), ?_⟩⟩
    rintro ⟨j, hj, hat⟩
    exact absurd (hr.mpr ⟨j, by omega, by omega, hat⟩) hdiffer
  · have hi1 : size / 8 < m := by omega
    have hi2 : size / 8 < n := by omega
    have hi3 : size / 8 < l := by omega
    rw [buf1.load?_of_lt hi1, buf2.load?_of_lt hi2, mask.load?_of_lt hi3]
    have hbyte := bufCmpTrailing_load buf1 buf2 mask hi1 hi2 hi3 (show size % 8 ≤ 8 by omega)
    refine ⟨_, rfl, hbyte.trans ⟨?_, ?_⟩⟩
    · rintro ⟨j, -, hlt, hat⟩
      exact ⟨j, by omega, hat⟩
    · rintro ⟨j, hj, hat⟩
      refine ⟨j, ?_, by omega, hat⟩
      by_contra hin
      exact hdiffer (hr.mpr ⟨j, by omega, by omega, hat⟩)

/-- **Without one** it looks at the bits behind the whole bytes, and only if these are equal: a
difference in a whole byte is never found. -/
theorem bufCmp_iff {size : ℕ} (h1 : divRoundUp size 8 ≤ m) (h2 : divRoundUp size 8 ≤ n) :
    ∃ r, bufCmp buf1 buf2 size = some r ∧
      (r = true ↔ (∀ j < 8 * (size / 8), buf1.bit j = buf2.bit j) ∧
        ∃ j, 8 * (size / 8) ≤ j ∧ j < size ∧ buf1.bit j ≠ buf2.bit j) := by
  rw [divRoundUp] at h1 h2
  have hbytes : buf1.bytes (size / 8) = buf2.bytes (size / 8) ↔
      ∀ j < 8 * (size / 8), buf1.bit j = buf2.bit j := by
    constructor
    · intro heq j hj
      rw [buf1.bit_eq_bitOf hj, buf2.bit_eq_bitOf hj, heq]
    · exact Buf.bytes_congr
  rw [bufCmp, if_pos ⟨by omega, by omega⟩]
  split_ifs with hne htrailing
  · refine ⟨false, rfl, ⟨fun h => absurd h (by decide), ?_⟩⟩
    rintro ⟨hall, -⟩
    exact absurd (hbytes.mpr hall) hne
  · refine ⟨false, rfl, ⟨fun h => absurd h (by decide), ?_⟩⟩
    rintro ⟨-, j, hle, hlt, -⟩
    omega
  · have hi1 : size / 8 < m := by omega
    have hi2 : size / 8 < n := by omega
    have hones : ∀ t < 8, (0xff : Byte).getLsbD t = true := by decide
    rw [buf1.load?_of_lt hi1, buf2.load?_of_lt hi2]
    refine ⟨_, rfl, (bufCmpTrailing_iff _ _ _ (show size % 8 ≤ 8 by omega)).trans ⟨?_, ?_⟩⟩
    · rintro ⟨t, ht, -, hbit⟩
      rw [buf1.getLsbD_byte hi1 (by omega), buf2.getLsbD_byte hi2 (by omega)] at hbit
      exact ⟨hbytes.mp (not_not.mp hne), _, by omega, by omega, hbit⟩
    · rintro ⟨-, j, hle, hlt, hbit⟩
      have hj : 8 * (size / 8) + (j - 8 * (size / 8)) = j := by omega
      refine ⟨j - 8 * (size / 8), by omega, hones _ (by omega), ?_⟩
      rwa [buf1.getLsbD_byte hi1 (by omega), buf2.getLsbD_byte hi2 (by omega), hj]

end Comparing

/-! ### Any calls -/

/-- A call that changes a buffer. -/
inductive BufCall
  | setU32 (first num : ℕ) (value : BitVec 32)
  | setU64 (first num : ℕ) (value : BitVec 64)
  | setBuf {m : ℕ} (src : Buf m) (srcStart dstStart len : ℕ)
  | cpy {m : ℕ} (src : Buf m) (size : ℕ)
  | setOnes (size : ℕ)
  | shr (bufLen count : ℕ)

namespace BufCall

/-- The call, carried out on a buffer. -/
def exec (b : Buf n) : BufCall → Option (Buf n)
  | setU32 first num value => bufSetU32 b first num value
  | setU64 first num value => bufSetU64 b first num value
  | setBuf src srcStart dstStart len => bufSetBuf src 0 srcStart b 0 dstStart len
  | cpy src size => bufCpy src b size
  | setOnes size => bufSetOnes b size
  | shr bufLen count => bufferShr b bufLen count

/-- What it does to an array of bits. -/
def denote (bits : ℕ → Bool) (call : BufCall) (j : ℕ) : Bool :=
  match call with
  | setU32 first num value =>
    if first ≤ j ∧ j < first + num then value.getLsbD (j - first) else bits j
  | setU64 first num value =>
    if first ≤ j ∧ j < first + num then value.getLsbD (j - first) else bits j
  | setBuf src srcStart dstStart len =>
    if dstStart ≤ j ∧ j < dstStart + len then src.bit (srcStart + (j - dstStart)) else bits j
  | cpy src size =>
    if j < 8 * divRoundUp size 8 then decide (j < size) && src.bit j else bits j
  | setOnes size => if j < 8 * divRoundUp size 8 then decide (j < size) else bits j
  | shr bufLen count =>
    if j < 8 * bufLen then decide (j + count < 8 * bufLen) && bits (j + count) else bits j

/-- The buffers are as long as the arguments say, and the words as wide; no sum of `unsigned`s
wraps. -/
def Fits (n : ℕ) : BufCall → Prop
  | setU32 first num _ => num ≤ 32 ∧ first + num ≤ 8 * n ∧ first + num < 2 ^ 32
  | setU64 first num _ => num ≤ 64 ∧ first + num ≤ 8 * n ∧ first + num < 2 ^ 32
  | @setBuf m _ srcStart dstStart len => srcStart + len ≤ 8 * m ∧ dstStart + len ≤ 8 * n
  | @cpy m _ size => divRoundUp size 8 ≤ m ∧ divRoundUp size 8 ≤ n ∧ size + 7 < 2 ^ 32
  | setOnes size => divRoundUp size 8 ≤ n
  | shr bufLen count => 0 < bufLen ∧ bufLen ≤ n ∧ bufLen < 2 ^ 32 ∧ count / 8 ≤ bufLen

/-- **One call.** -/
theorem exec_bits (call : BufCall) (hfits : call.Fits n) (b : Buf n) :
    ∃ b', call.exec b = some b' ∧ b'.bit = call.denote b.bit := by
  suffices h : ∃ b', call.exec b = some b' ∧ ∀ j, b'.bit j = call.denote b.bit j by
    obtain ⟨b', hexec, hbit⟩ := h
    exact ⟨b', hexec, funext hbit⟩
  cases call with
  | setU32 first num value => exact bufSetU32_bit b value hfits.2.1 hfits.2.2
  | setU64 first num value => exact bufSetU64_bit b value hfits.2.1 hfits.2.2
  | setBuf src srcStart dstStart len =>
    obtain ⟨hs, hd⟩ := hfits
    obtain ⟨b', hcopy, hbit⟩ := bufSetBuf_bit src 0 srcStart b 0 dstStart len (by omega) (by omega)
    refine ⟨b', hcopy, fun j => ?_⟩
    rw [hbit j, Nat.mul_zero, Nat.zero_add, Nat.zero_add]
    rfl
  | cpy src size => exact bufCpy_bit src b hfits.1 hfits.2.1 hfits.2.2
  | setOnes size => exact bufSetOnes_bit b hfits
  | shr bufLen count =>
    obtain ⟨hpos, hn, h32, hcount⟩ := hfits
    exact bufferShr_bit b hpos hn h32 hcount

/-- **Any calls.** -/
theorem run_bits : ∀ (calls : List BufCall), (∀ call ∈ calls, call.Fits n) → ∀ b : Buf n,
    ∃ b', calls.foldlM exec b = some b' ∧ b'.bit = calls.foldl denote b.bit
  | [], _, b => ⟨b, rfl, rfl⟩
  | call :: calls, hfits, b => by
    obtain ⟨b₁, hexec, hbit₁⟩ := call.exec_bits (hfits call (List.mem_cons_self ..)) b
    obtain ⟨b₂, hrest, hbit₂⟩ := run_bits calls
      (fun c hc => hfits c (List.mem_cons_of_mem _ hc)) b₁
    refine ⟨b₂, ?_, ?_⟩
    · rw [List.foldlM_cons, hexec]
      exact hrest
    · rw [hbit₂, hbit₁, List.foldl_cons]

end BufCall

/-- **A buffer is an array of bits.** Any calls that fit take it to what they make of its bits;
a word read at any bit of it is then made of the bits that are there, and comparing it under a
mask tells whether one of them differs. Comparing it without a mask tells so of the bits behind
the whole bytes, and only where these are equal. -/
theorem bufCalls_bits (calls : List BufCall) (hfits : ∀ call ∈ calls, call.Fits n) (b : Buf n) :
    ∃ b', calls.foldlM BufCall.exec b = some b' ∧
      b'.bit = calls.foldl BufCall.denote b.bit ∧
      (∀ first num, num ≤ 32 → first + num ≤ 8 * n → first + num < 2 ^ 32 →
        ∃ v, bufGetU32 b' first num = some v ∧ ∀ j, v.getLsbD j = (decide (j < num) &&
          calls.foldl BufCall.denote b.bit (first + j))) ∧
      (∀ first num, num ≤ 64 → first + num ≤ 8 * n → first + num < 2 ^ 32 →
        ∃ v, bufGetU64 b' first num = some v ∧ ∀ j, v.getLsbD j = (decide (j < num) &&
          calls.foldl BufCall.denote b.bit (first + j))) ∧
      (∀ {m l : ℕ} (other : Buf m) (mask : Buf l) (size : ℕ), divRoundUp size 8 ≤ n →
        divRoundUp size 8 ≤ m → divRoundUp size 8 ≤ l →
        ∃ r, bufCmpMask b' other mask size = some r ∧ (r = true ↔ ∃ j < size,
          mask.bit j = true ∧ calls.foldl BufCall.denote b.bit j ≠ other.bit j)) ∧
      ∀ {m : ℕ} (other : Buf m) (size : ℕ), divRoundUp size 8 ≤ n → divRoundUp size 8 ≤ m →
        ∃ r, bufCmp b' other size = some r ∧ (r = true ↔
          (∀ j < 8 * (size / 8), calls.foldl BufCall.denote b.bit j = other.bit j) ∧
          ∃ j, 8 * (size / 8) ≤ j ∧ j < size ∧
            calls.foldl BufCall.denote b.bit j ≠ other.bit j) := by
  obtain ⟨b', hrun, hbit⟩ := BufCall.run_bits calls hfits b
  rw [← hbit]
  exact ⟨b', hrun, rfl, fun _ _ hnum hn h32 => bufGetU32_bit b' hnum hn h32,
    fun _ _ hnum hn h32 => bufGetU64_bit b' hnum hn h32,
    fun _ _ _ h1 h2 h3 => bufCmpMask_iff _ _ _ h1 h2 h3, fun _ _ h1 h2 => bufCmp_iff _ _ h1 h2⟩

/-- A word across bytes, a shift that is not of whole bytes, and a copy into the middle. -/
def someBufCalls : List BufCall :=
  [.setOnes 13, .setU32 5 9 0x155, .shr 3 9, .setU64 0 24 0xABCDEF,
    .setBuf (Buf.zero : Buf 1) 2 7 5, .cpy (Buf.zero : Buf 2) 11]

theorem bufCalls_bits_someBufCalls :
    ∃ b', someBufCalls.foldlM BufCall.exec (Buf.zero : Buf 3) = some b' ∧
      b'.bit = someBufCalls.foldl BufCall.denote (Buf.zero : Buf 3).bit := by
  obtain ⟨b', hrun, hbit, -⟩ := bufCalls_bits someBufCalls
    (by simp [someBufCalls, BufCall.Fits, divRoundUp]) (Buf.zero : Buf 3)
  exact ⟨b', hrun, hbit⟩

end JtagHw
