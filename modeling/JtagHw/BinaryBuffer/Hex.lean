import JtagHw.BinaryBuffer.Numerals

/-!
# Pairs of hexadecimal digits

`hexify` of `openocd/src/helper/binarybuffer.c` writes bytes as pairs of hexadecimal digits, as
many characters as there is room for, and `unhexify` reads pairs back, up to the first
character that is no digit. The digit `p` of a string is the upper half of byte `p / 2` for an
even `p`, and its lower half for an odd one (`JtagHw.nibbleOf`).

What has been written is read back as it was, up to where it was cut off
(`JtagHw.unhexify_hexify`). A pair cut in two is not counted, and yet its first digit is
stored.
-/

namespace JtagHw

open PackedBits

variable {k m n : ℕ}

/-- `hex_digits`. -/
def hexDigits : List Byte :=
  ['0', '1', '2', '3', '4', '5', '6', '7', '8', '9', 'a', 'b', 'c', 'd', 'e', 'f'].map chr

/-- The half of a byte that the digit `p` is. -/
def halfByte (x : Byte) (p : ℕ) : Byte := (x >>> (4 * ((p + 1) % 2))) &&& 0x0f

/-- The loop of `hexify`, from the character `i` on, with `left` of them to be written. -/
def hexLoop (bin : Buf n) : ℕ → ℕ → Buf k → Option (Buf k)
  | 0, _, hex => some hex
  | left + 1, i, hex => do
    let x ← bin.load? (i / 2)
    let c ← hexDigits[(halfByte x i).toNat]?
    let hex ← hex.store? i c
    hexLoop bin left (i + 1) hex

/-- `size_t hexify(char *hex, const uint8_t *bin, size_t count, size_t length)`. -/
def hexify (hex : Buf k) (bin : Buf n) (count length : ℕ) : Option (ℕ × Buf k) :=
  if length = 0 then some (0, hex)
  else do
    -- the loop ends with `i < length - 1 && i < 2 * count`
    let i := min (length - 1) (2 * count)
    let hex ← hexLoop bin i 0 hex
    let hex ← hex.store? i 0
    some (i, hex)

/-- The digit that a character is. -/
def hexVal (c : Byte) : Option Byte :=
  if chr 'a' ≤ c ∧ c ≤ chr 'f' then some (c - chr 'a' + 10)
  else if chr 'A' ≤ c ∧ c ≤ chr 'F' then some (c - chr 'A' + 10)
  else if chr '0' ≤ c ∧ c ≤ chr '9' then some (c - chr '0')
  else none

/-- The loop of `unhexify`, from the character `i` on, with `left` of them to be read at most. -/
def unhexLoop (hex : Buf k) : ℕ → ℕ → Buf n → Option (ℕ × Buf n)
  | 0, i, bin => some (i / 2, bin)
  | left + 1, i, bin => do
    let c ← hex.load? i
    match hexVal c with
    | none => some (i / 2, bin)
    | some tmp =>
      let bin ← bin.modify? (i / 2) fun x => x ||| tmp <<< (4 * ((i + 1) % 2))
      unhexLoop hex left (i + 1) bin

/-- `size_t unhexify(uint8_t *bin, const char *hex, size_t count)`. -/
def unhexify (bin : Buf n) (hex : Buf k) (count : ℕ) : Option (ℕ × Buf n) := do
  let bin ← bin.memcpy? 0 (List.replicate count 0)
  unhexLoop hex (2 * count) 0 bin

/-! ### Digits and bits -/

/-- The digit that bit `j` is of. -/
def nibbleOf (j : ℕ) : ℕ := if j % 8 < 4 then 2 * (j / 8) + 1 else 2 * (j / 8)

theorem nibbleOf_div (j : ℕ) : nibbleOf j / 2 = j / 8 := by
  rw [nibbleOf]
  split_ifs <;> omega

/-- Bit `j` is bit `j % 4` of that digit. -/
theorem nibbleOf_shift (j : ℕ) : 4 * ((nibbleOf j + 1) % 2) + j % 4 = j % 8 := by
  rw [nibbleOf]
  split_ifs <;> omega

theorem getLsbD_halfByte (x : Byte) (p : ℕ) {t : ℕ} (ht : t < 4) :
    (halfByte x p).getLsbD t = x.getLsbD (4 * ((p + 1) % 2) + t) := by
  have hmask : ∀ t < 4, (0x0f : Byte).getLsbD t = true := by decide
  rw [halfByte, BitVec.getLsbD_and, hmask t ht, Bool.and_true, BitVec.getLsbD_ushiftRight]

theorem halfByte_lt (x : Byte) (p : ℕ) : (halfByte x p).toNat < 16 := by
  rw [halfByte, BitVec.toNat_and]
  exact Nat.and_lt_two_pow _ (n := 4) (by decide)

theorem hexVal_lt {c v : Byte} (h : hexVal c = some v) : v.toNat < 16 := by
  have ha : chr 'a' = 0x61 ∧ chr 'f' = 0x66 := ⟨rfl, rfl⟩
  have hA : chr 'A' = 0x41 ∧ chr 'F' = 0x46 := ⟨rfl, rfl⟩
  have h0 : chr '0' = 0x30 ∧ chr '9' = 0x39 := ⟨rfl, rfl⟩
  rw [hexVal, ha.1, ha.2, hA.1, hA.2, h0.1, h0.2] at h
  split_ifs at h with hlower hupper hdigit <;> cases h <;> bv_omega

/-- A digit written and read again. -/
theorem hexVal_hexDigits (x : Byte) (p : ℕ) :
    ∃ c, hexDigits[(halfByte x p).toNat]? = some c ∧ hexVal c = some (halfByte x p) := by
  have hall : ∀ d : Fin 16, ∃ c, hexDigits[d.val]? = some c ∧
      hexVal c = some (BitVec.ofNat 8 d.val) := by decide
  obtain ⟨c, hc, hval⟩ := hall ⟨_, halfByte_lt x p⟩
  refine ⟨c, hc, hval.trans ?_⟩
  rw [BitVec.ofNat_toNat, BitVec.setWidth_eq]

/-- A digit put into its half of a byte that is still zero there. -/
theorem getLsbD_orDigit (x : Byte) {v : Byte} (hv : v.toNat < 16) (p : ℕ) {t : ℕ} (ht : t < 8) :
    (x ||| v <<< (4 * ((p + 1) % 2))).getLsbD t =
      (x.getLsbD t || (decide (t / 4 = (p + 1) % 2) && v.getLsbD (t % 4))) := by
  have hhigh : ∀ s, 4 ≤ s → v.getLsbD s = false := fun s hs =>
    Nat.testBit_lt_two_pow (hv.trans_le (Nat.pow_le_pow_right (by decide) hs : 2 ^ 4 ≤ 2 ^ s))
  rw [BitVec.getLsbD_or, BitVec.getLsbD_shiftLeft, decide_eq_true ht, Bool.true_and]
  congr 1
  rcases Nat.mod_two_eq_zero_or_one (p + 1) with hp | hp <;> rw [hp]
  · rw [Nat.mul_zero, Nat.sub_zero, decide_eq_false (Nat.not_lt_zero t), Bool.not_false,
      Bool.true_and]
    rcases Nat.lt_or_ge t 4 with h4 | h4
    · rw [decide_eq_true (Nat.div_eq_of_lt h4), Nat.mod_eq_of_lt h4, Bool.true_and]
    · rw [hhigh t h4, decide_eq_false (by omega), Bool.false_and]
  · rcases Nat.lt_or_ge t 4 with h4 | h4
    · rw [decide_eq_true (by omega), decide_eq_false (by omega), Bool.not_true, Bool.false_and,
        Bool.false_and]
    · have hmod : t - 4 * 1 = t % 4 := by omega
      rw [hmod, decide_eq_false (by omega), decide_eq_true (by omega), Bool.not_false]

/-- A digit put into a buffer. -/
theorem orDigit_bit (bin : Buf n) {v : Byte} (hv : v.toNat < 16) {i : ℕ} (hi : i / 2 < n) :
    ∃ bin', bin.modify? (i / 2) (fun x => x ||| v <<< (4 * ((i + 1) % 2))) = some bin' ∧
      ∀ j, bin'.bit j = (bin.bit j || (decide (nibbleOf j = i) && v.getLsbD (j % 4))) := by
  obtain ⟨bin', hmod, hbit⟩ := bin.modify?_bit (fun x => x ||| v <<< (4 * ((i + 1) % 2))) hi
  refine ⟨bin', hmod, fun j => ?_⟩
  have hshift := nibbleOf_shift j
  have hdiv := nibbleOf_div j
  rw [hbit j]
  split_ifs with hj
  · have hmod4 : j % 8 % 4 = j % 4 := by omega
    rw [getLsbD_orDigit _ hv i (Nat.mod_lt _ (by decide)),
      ← bin.bit_of_div_eq hi hj, hmod4]
    congr 2
    exact decide_eq_decide.mpr (by omega)
  · have hne : nibbleOf j ≠ i := fun he => hj (by rw [← hdiv, he])
    rw [decide_eq_false hne, Bool.false_and, Bool.or_false]

/-! ### The loops -/

/-- **The loop of `hexify`** writes the digits. -/
theorem hexLoop_load? (bin : Buf n) : ∀ {left i : ℕ} (hex : Buf k), i + left ≤ k →
    i + left ≤ 2 * n → ∃ hex', hexLoop bin left i hex = some hex' ∧ ∀ p,
      (i ≤ p ∧ p < i + left → ∃ x c, bin.load? (p / 2) = some x ∧ hex'.load? p = some c ∧
        hexVal c = some (halfByte x p)) ∧
      (¬(i ≤ p ∧ p < i + left) → hex'.load? p = hex.load? p)
  | 0, i, hex, _, _ => ⟨hex, rfl, fun p => ⟨fun h => by omega, fun _ => rfl⟩⟩
  | left + 1, i, hex, hk, hn => by
    have hload : bin.load? (i / 2) = some (bin ⟨i / 2, by omega⟩) := bin.load?_of_lt (by omega)
    obtain ⟨c, hc, hval⟩ := hexVal_hexDigits (bin ⟨i / 2, by omega⟩) i
    obtain ⟨hex₁, hstore, hload₁⟩ := hex.load?_store c (show i < k by omega)
    obtain ⟨hex₂, hrest, hload₂⟩ := hexLoop_load? bin hex₁ (show i + 1 + left ≤ k by omega)
      (by omega)
    refine ⟨hex₂, ?_, fun p => ⟨fun hp => ?_, fun hp => ?_⟩⟩
    · rw [hexLoop, hload]
      simp only [Option.bind_eq_bind, Option.bind_some, hc, hstore]
      exact hrest
    · by_cases hpi : p = i
      · subst hpi
        refine ⟨_, c, hload, ?_, hval⟩
        rw [(hload₂ p).2 (by omega), hload₁ p, if_pos rfl]
      · exact (hload₂ p).1 (by omega)
    · rw [(hload₂ p).2 (by omega), hload₁ p, if_neg (by omega)]

/-- Where the reading of `unhexify` ends: after `l` digits, at the bound or at a character that is
none. -/
structure ReadsDigits (hex : Buf k) (v : ℕ → Byte) (bound l : ℕ) : Prop where
  le : l ≤ bound
  digit : ∀ p < l, ∃ c, hex.load? p = some c ∧ hexVal c = some (v p)
  stop : l = bound ∨ ∃ c, hex.load? l = some c ∧ hexVal c = none

/-- **The loop of `unhexify`** puts the digits into the bytes, which are zero where it has not
yet been. -/
theorem unhexLoop_bit {hex : Buf k} {v : ℕ → Byte} {bound l : ℕ} (h : ReadsDigits hex v bound l) :
    ∀ {left i : ℕ} (bin : Buf n), i + left = bound → i ≤ l → bound ≤ 2 * n →
      (∀ j, nibbleOf j < bound → bin.bit j = (decide (nibbleOf j < i) &&
        (v (nibbleOf j)).getLsbD (j % 4))) →
      ∃ bin', unhexLoop hex left i bin = some (l / 2, bin') ∧
        (∀ j, nibbleOf j < bound → bin'.bit j = (decide (nibbleOf j < l) &&
          (v (nibbleOf j)).getLsbD (j % 4))) ∧
        ∀ j, ¬ nibbleOf j < bound → bin'.bit j = bin.bit j
  | 0, i, bin, hbound, hi, _, hbits => by
    have hle := h.le
    obtain rfl : i = l := by omega
    exact ⟨bin, rfl, hbits, fun _ _ => rfl⟩
  | left + 1, i, bin, hbound, hi, hn, hbits => by
    rcases Nat.lt_or_ge i l with hlt | hge
    · -- one more digit
      obtain ⟨c, hc, hval⟩ := h.digit i hlt
      obtain ⟨bin₁, hmod, hnext⟩ := orDigit_bit bin (hexVal_lt hval) (show i / 2 < n by omega)
      obtain ⟨bin₂, hrest, hin, hout⟩ := unhexLoop_bit h bin₁
        (show i + 1 + left = bound by omega) hlt hn fun j hj => by
          rw [hnext, hbits j hj]
          rcases Nat.lt_trichotomy (nibbleOf j) i with hlt' | heq | hgt
          · rw [decide_eq_true hlt', decide_eq_false (by omega), decide_eq_true (by omega),
              Bool.false_and, Bool.or_false]
          · rw [heq, decide_eq_false (lt_irrefl i), decide_eq_true rfl,
              decide_eq_true (Nat.lt_succ_self i), Bool.false_and, Bool.false_or]
          · rw [decide_eq_false (by omega), decide_eq_false (by omega), decide_eq_false (by omega),
              Bool.false_and, Bool.false_and, Bool.or_false]
      refine ⟨bin₂, ?_, hin, fun j hj => ?_⟩
      · rw [unhexLoop, hc]
        simp only [Option.bind_eq_bind, Option.bind_some, hval, hmod]
        exact hrest
      · rw [hout j hj, hnext, decide_eq_false (by omega), Bool.false_and, Bool.or_false]
    · -- a character that is no digit
      obtain rfl : i = l := by omega
      obtain hend | ⟨c, hc, hval⟩ := h.stop
      · omega
      · refine ⟨bin, ?_, hbits, fun _ _ => rfl⟩
        rw [unhexLoop, hc]
        simp only [Option.bind_eq_bind, Option.bind_some, hval]

theorem nibbleOf_lt_iff (j count : ℕ) : nibbleOf j < 2 * count ↔ j < 8 * count := by
  rw [nibbleOf]
  split_ifs <;> omega

/-- **`unhexify` reads digits** up to a character that is none: what is left of the bytes is
zero, beyond them nothing is touched. -/
theorem unhexify_bit {hex : Buf k} {v : ℕ → Byte} {count l : ℕ}
    (h : ReadsDigits hex v (2 * count) l) (bin : Buf n) (hn : count ≤ n) :
    ∃ bin', unhexify bin hex count = some (l / 2, bin') ∧ ∀ j, bin'.bit j =
      if j < 8 * count then decide (nibbleOf j < l) && (v (nibbleOf j)).getLsbD (j % 4)
      else bin.bit j := by
  obtain ⟨bin₁, hset, hbit₁⟩ := bin.bit_memset 0 count 0 (by omega)
  obtain ⟨bin₂, hloop, hin, hout⟩ := unhexLoop_bit h bin₁ (Nat.zero_add _) (Nat.zero_le l)
    (by omega) fun j hj => by
      rw [hbit₁ j, if_pos ⟨Nat.zero_le j, by rw [Nat.zero_add]; exact (nibbleOf_lt_iff j _).mp hj⟩,
        decide_eq_false (Nat.not_lt_zero _), Bool.false_and]
      exact BitVec.getLsbD_zero
  refine ⟨bin₂, ?_, fun j => ?_⟩
  · rw [unhexify, hset]
    exact hloop
  · split_ifs with hj
    · exact hin j ((nibbleOf_lt_iff j _).mpr hj)
    · rw [hout j fun he => hj ((nibbleOf_lt_iff j _).mp he), hbit₁ j, if_neg (by omega)]

/-! ### There and back -/

/-- The digits that `hexify` writes. -/
def hexified (bin : Buf n) (p : ℕ) : Byte := halfByte ((bin.load? (p / 2)).getD 0) p

theorem getLsbD_hexified (bin : Buf n) (j : ℕ) :
    (hexified bin (nibbleOf j)).getLsbD (j % 4) = bin.bit j := by
  rw [hexified, getLsbD_halfByte _ _ (Nat.mod_lt _ (by decide)), nibbleOf_shift, nibbleOf_div,
    bin.getLsbD_getD_load? _ (Nat.mod_lt _ (by decide)), Nat.div_add_mod]

/-- **Bytes written as digits and read again** are what they were, as far as the digits go: they
end with the bytes, with the room in the string and with what is asked for in reading. A pair
that has been cut in two is not counted, its first digit is stored all the same. -/
theorem unhexify_hexify (hex : Buf k) (bin : Buf n) {count length : ℕ} (hlength : 0 < length)
    (hroom : length ≤ k) (hcount : count ≤ n) (dst : Buf m) {count' : ℕ} (hcount' : count' ≤ m) :
    ∃ hex' dst', hexify hex bin count length =
        some (min (length - 1) (2 * count), hex') ∧
      (∀ p, length ≤ p → hex'.load? p = hex.load? p) ∧
      unhexify dst hex' count' =
        some (min (min (length - 1) (2 * count)) (2 * count') / 2, dst') ∧
      ∀ j, dst'.bit j =
        if j < 8 * count' then decide (nibbleOf j < min (length - 1) (2 * count)) && bin.bit j
        else dst.bit j := by
  set l := min (length - 1) (2 * count) with hl
  obtain ⟨hex₁, hloop, hload₁⟩ := hexLoop_load? bin hex (show 0 + l ≤ k by omega)
    (by omega)
  obtain ⟨hex₂, hstore, hload₂⟩ := hex₁.load?_store 0 (show l < k by omega)
  have hreads : ReadsDigits hex₂ (hexified bin) (2 * count') (min l (2 * count')) := by
    refine ⟨min_le_right _ _, fun p hp => ?_, ?_⟩
    · obtain ⟨x, c, hx, hc, hval⟩ := (hload₁ p).1 (by omega)
      refine ⟨c, ?_, ?_⟩
      · rw [hload₂ p, if_neg (by omega), hc]
      · rw [hval, hexified, hx, Option.getD_some]
    · rcases Nat.lt_or_ge l (2 * count') with hlt | hge
      · refine Or.inr ⟨0, ?_, by decide⟩
        rw [min_eq_left hlt.le, hload₂ l, if_pos rfl]
      · exact Or.inl (min_eq_right hge)
  obtain ⟨dst', hread, hbit⟩ := unhexify_bit hreads dst hcount'
  refine ⟨hex₂, dst', ?_, fun p hp => ?_, hread, fun j => ?_⟩
  · rw [hexify, if_neg hlength.ne', ← hl]
    simp only [Option.bind_eq_bind, Option.bind_some, hloop, hstore]
  · rw [hload₂ p, if_neg (by omega), (hload₁ p).2 (by omega)]
  · rw [hbit j]
    split_ifs with hj
    · have hlt : nibbleOf j < 2 * count' := (nibbleOf_lt_iff j count').mpr hj
      rw [getLsbD_hexified]
      congr 1
      exact decide_eq_decide.mpr (by omega)
    · rfl

theorem unhexify_hexify_someBits :
    ∃ hex' dst', hexify (Buf.zero : Buf 6) someBits 3 6 = some (min (6 - 1) (2 * 3), hex') ∧
      (∀ p, 6 ≤ p → hex'.load? p = (Buf.zero : Buf 6).load? p) ∧
      unhexify (Buf.zero : Buf 3) hex' 3 = some (min (min (6 - 1) (2 * 3)) (2 * 3) / 2, dst') ∧
      ∀ j, dst'.bit j =
        if j < 8 * 3 then decide (nibbleOf j < min (6 - 1) (2 * 3)) && someBits.bit j
        else (Buf.zero : Buf 3).bit j :=
  unhexify_hexify .zero someBits (by decide) le_rfl le_rfl .zero le_rfl

end JtagHw
