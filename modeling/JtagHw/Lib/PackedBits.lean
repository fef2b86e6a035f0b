import Mathlib.Data.List.GetD
import Mathlib.Logic.Function.Basic
import Mathlib.Order.BoundedOrder.Lattice

/-!
# Bits packed into a byte buffer

A buffer of `n` bytes is a function from its `n` indices, so that no index
outside it exists; an access by a number either finds its index or fails
(`PackedBits.Buf.load?`, `PackedBits.Buf.modify?`). Bit `k` of a buffer is bit
`k % 8` of byte `k / 8` (`PackedBits.Buf.bit`), and everything past the end reads
as `false`.

The facts are the ones code that packs bits relies on: what or-ing a shifted
word into a byte does to every bit of the buffer (`PackedBits.Buf.bit_orAt`), what
setting one bit does (`PackedBits.Buf.bit_setAt`), and that a buffer is known by
its bits (`PackedBits.Buf.ext_bit`).
-/

namespace PackedBits

/-- A byte. -/
abbrev Byte := BitVec 8

/-- A buffer of `n` bytes. -/
abbrev Buf (n : ℕ) := Fin n → Byte

/-- Bit `k` of a byte, brought down to position `0` and masked. -/
theorem shiftRight_and_one (x : Byte) (k : ℕ) :
    (x >>> k) &&& 1#8 = if x.getLsbD k then 1 else 0 := by
  rw [BitVec.and_one_eq_setWidth_ofBool_getLsbD, BitVec.getLsbD_ushiftRight, Nat.add_zero]
  cases x.getLsbD k <;> rfl

theorem ne_zero_of_bit (b : Bool) : decide ((if b then (1 : Byte) else 0) ≠ 0) = b := by
  cases b <;> rfl

/-! ### Lists laid out at a position -/

section LaidOut

variable {α : Type*} [SemilatticeSup α] [OrderBot α]

/-- What a list laid out from position `n` on has at position `j`: nothing before it
and nothing after it. -/
def laidOut (l : List α) (n j : ℕ) : α :=
  if n ≤ j then l.getD (j - n) ⊥ else ⊥

@[simp] theorem laidOut_nil (n j : ℕ) : laidOut ([] : List α) n j = ⊥ := by
  simp [laidOut]

theorem laidOut_of_lt (l : List α) {n j : ℕ} (h : j < n) : laidOut l n j = ⊥ :=
  if_neg (not_le.mpr h)

theorem laidOut_of_ge (l : List α) {n j : ℕ} (h : n + l.length ≤ j) : laidOut l n j = ⊥ := by
  rw [laidOut, if_pos (by omega), List.getD_eq_getElem?_getD, List.getElem?_eq_none (by omega),
    Option.getD_none]

theorem laidOut_zero (l : List α) (j : ℕ) : laidOut l 0 j = l.getD j ⊥ := rfl

/-- One element more is one position more. -/
theorem laidOut_append_singleton (l : List α) (x : α) (n j : ℕ) :
    laidOut (l ++ [x]) n j = laidOut l n j ⊔ if j = n + l.length then x else ⊥ := by
  rcases lt_trichotomy j (n + l.length) with hlt | rfl | hgt
  · rw [if_neg (by omega), sup_bot_eq, laidOut, laidOut]
    split_ifs with hn
    · rw [List.getD_append _ _ _ _ (by omega)]
    · rfl
  · rw [if_pos rfl, laidOut_of_ge l le_rfl, bot_sup_eq, laidOut, if_pos (by omega)]
    simp
  · rw [if_neg (by omega), sup_bot_eq, laidOut_of_ge l (by omega), laidOut_of_ge _ (by simp; omega)]

end LaidOut

/-- The bits `l` put down over `data`, from position `k` on. -/
def overlay (data : ℕ → Bool) (k : ℕ) (l : List Bool) (j : ℕ) : Bool :=
  if k ≤ j ∧ j < k + l.length then l.getD (j - k) false else data j

@[simp] theorem overlay_nil (data : ℕ → Bool) (k : ℕ) : overlay data k [] = data :=
  funext fun _ => if_neg fun h => by
    rw [List.length_nil] at h
    omega

/-- Bits put down, and more bits behind them. -/
theorem overlay_append (data : ℕ → Bool) (k : ℕ) (l l' : List Bool) :
    overlay data k (l ++ l') = overlay (overlay data k l) (k + l.length) l' := by
  funext j
  simp only [overlay, List.length_append]
  by_cases hl : k ≤ j ∧ j < k + l.length
  · rw [if_pos (by omega), if_neg (by omega), if_pos hl, List.getD_append _ _ _ _ (by omega)]
  · rw [if_neg hl]
    by_cases hl' : k + l.length ≤ j ∧ j < k + l.length + l'.length
    · rw [if_pos (by omega), if_pos hl', List.getD_append_right _ _ _ _ (by omega), Nat.sub_sub]
    · rw [if_neg (by omega), if_neg hl']

/-! ### Lists of bytes -/

/-- Bit `j` of a list of bytes, the bits of each byte lowest first. -/
def bitOf (l : List Byte) (j : ℕ) : Bool := (l.getD (j / 8) 0).getLsbD (j % 8)

theorem bitOf_append_right (l l' : List Byte) (j : ℕ) :
    bitOf (l ++ l') (8 * l.length + j) = bitOf l' j := by
  have hdiv : (8 * l.length + j) / 8 = l.length + j / 8 := by omega
  have hmod : (8 * l.length + j) % 8 = j % 8 := by omega
  rw [bitOf, bitOf, hdiv, hmod, List.getD_append_right _ _ _ _ (by omega), Nat.add_sub_cancel_left]

/-- The bits of a list, eight to a byte. -/
def pack (l : List Bool) : List Byte :=
  (List.range (l.length / 8)).map fun i => (BitVec.ofBoolListLE (l.drop (8 * i))).setWidth 8

@[simp] theorem length_pack (l : List Bool) : (pack l).length = l.length / 8 := by
  simp [pack]

theorem bitOf_pack {l : List Bool} {j : ℕ} (h : j / 8 < l.length / 8) :
    bitOf (pack l) j = l.getD j false := by
  have hpos : 8 * (j / 8) + j % 8 = j := by omega
  have hget : (pack l).getD (j / 8) 0 =
      (BitVec.ofBoolListLE (l.drop (8 * (j / 8)))).setWidth 8 := by
    rw [pack, List.getD_eq_getElem?_getD, List.getElem?_map, List.getElem?_range h]
    rfl
  rw [bitOf, hget, BitVec.getLsbD_setWidth, BitVec.getLsbD_ofBoolListLE,
    decide_eq_true (Nat.mod_lt _ (by decide)), Bool.true_and, List.getD_eq_getElem?_getD,
    List.getElem?_drop, hpos, List.getD_eq_getElem?_getD]

namespace Buf

variable {n : ℕ}

/-- The buffer of zeros. -/
def zero : Buf n := fun _ => 0

/-- Reading a byte, if the index is one of the buffer. -/
def load? (b : Buf n) (i : ℕ) : Option Byte := if h : i < n then some (b ⟨i, h⟩) else none

/-- Changing a byte, if the index is one of the buffer. -/
def modify? (b : Buf n) (i : ℕ) (f : Byte → Byte) : Option (Buf n) :=
  if h : i < n then some (Function.update b ⟨i, h⟩ (f (b ⟨i, h⟩))) else none

/-- Bit `k % 8` of byte `k / 8`. -/
def bit (b : Buf n) (k : ℕ) : Bool :=
  if h : k / 8 < n then (b ⟨k / 8, h⟩).getLsbD (k % 8) else false

theorem load?_of_lt (b : Buf n) {i : ℕ} (h : i < n) : b.load? i = some (b ⟨i, h⟩) := dif_pos h

theorem load?_of_le (b : Buf n) {i : ℕ} (h : n ≤ i) : b.load? i = none := dif_neg (by omega)

theorem modify?_of_le (b : Buf n) {i : ℕ} (f : Byte → Byte) (h : n ≤ i) : b.modify? i f = none :=
  dif_neg (by omega)

@[simp] theorem bit_zero (k : ℕ) : (zero : Buf n).bit k = false := by
  simp [bit, zero]

theorem bit_of_le (b : Buf n) {k : ℕ} (h : 8 * n ≤ k) : b.bit k = false := dif_neg (by omega)

/-- A byte read at `k / 8` holds bit `k` at `k % 8`. -/
theorem bit_of_load? {b : Buf n} {k : ℕ} {x : Byte} (h : b.load? (k / 8) = some x) :
    b.bit k = x.getLsbD (k % 8) := by
  by_cases hk : k / 8 < n
  · rw [load?_of_lt b hk, Option.some.injEq] at h
    rw [bit, dif_pos hk, h]
  · rw [load?_of_le b (by omega)] at h
    exact absurd h (by simp)

theorem bit_of_div_eq (b : Buf n) {i k : ℕ} (hi : i < n) (hk : k / 8 = i) :
    b.bit k = (b ⟨i, hi⟩).getLsbD (k % 8) :=
  bit_of_load? (by rw [hk]; exact b.load?_of_lt hi)

/-- A byte, bit by bit. -/
theorem getLsbD_byte (b : Buf n) {i j : ℕ} (hi : i < n) (hj : j < 8) :
    (b ⟨i, hi⟩).getLsbD j = b.bit (8 * i + j) := by
  have hdiv : (8 * i + j) / 8 = i := by omega
  have hmod : (8 * i + j) % 8 = j := by omega
  rw [b.bit_of_div_eq hi hdiv, hmod]

/-- The same, with zeros behind the buffer. -/
theorem getLsbD_getD_load? (b : Buf n) (i : ℕ) {j : ℕ} (hj : j < 8) :
    ((b.load? i).getD 0).getLsbD j = b.bit (8 * i + j) := by
  rcases Nat.lt_or_ge i n with hi | hi
  · rw [b.load?_of_lt hi, Option.getD_some, b.getLsbD_byte hi hj]
  · rw [b.load?_of_le hi, Option.getD_none, b.bit_of_le (by omega)]
    exact BitVec.getLsbD_zero

/-- **A buffer is known by its bits.** -/
theorem ext_bit {b c : Buf n} (h : ∀ k, b.bit k = c.bit k) : b = c := by
  funext i
  refine BitVec.eq_of_getLsbD_eq fun j hj => ?_
  rw [b.getLsbD_byte i.isLt hj, c.getLsbD_byte i.isLt hj, h]

/-- A buffer without a bit set is the zero one. -/
theorem eq_zero_of_bits {b : Buf n} (h : ∀ k < 8 * n, b.bit k = false) : b = zero := by
  refine ext_bit fun k => ?_
  rw [bit_zero]
  rcases Nat.lt_or_ge k (8 * n) with hlt | hge
  · exact h k hlt
  · exact b.bit_of_le hge

/-- **What changing a byte does to the bits**: those of the byte are the ones of
the new byte, all others stay. -/
theorem modify?_bit (b : Buf n) {i : ℕ} (f : Byte → Byte) (h : i < n) :
    ∃ c, b.modify? i f = some c ∧ ∀ k, c.bit k =
      if k / 8 = i then (f (b ⟨i, h⟩)).getLsbD (k % 8) else b.bit k := by
  refine ⟨_, dif_pos h, fun k => ?_⟩
  by_cases hk : k / 8 = i
  · subst hk
    rw [if_pos rfl, bit, dif_pos h, Function.update_self]
  · rw [if_neg hk]
    by_cases hn : k / 8 < n
    · have hne : (⟨k / 8, hn⟩ : Fin n) ≠ ⟨i, h⟩ := fun he => hk (Fin.ext_iff.mp he)
      rw [bit, dif_pos hn, Function.update_of_ne hne, bit, dif_pos hn]
    · rw [bit, dif_neg hn, bit, dif_neg hn]

/-! ### Bytes from the front -/

/-- The first `k` bytes. -/
def bytes (b : Buf n) (k : ℕ) : List Byte := (List.range k).map fun i => (b.load? i).getD 0

@[simp] theorem length_bytes (b : Buf n) (k : ℕ) : (b.bytes k).length = k := by
  simp [bytes]

@[simp] theorem bytes_zero (b : Buf n) : b.bytes 0 = [] := rfl

/-- Bit `j` of the buffer, looked up in its first bytes. -/
theorem bit_eq_bytes (b : Buf n) {k j : ℕ} (h : j / 8 < k) :
    b.bit j = ((b.bytes k).getD (j / 8) 0).getLsbD (j % 8) := by
  have hget : (b.bytes k).getD (j / 8) 0 = (b.load? (j / 8)).getD 0 := by
    rw [List.getD_eq_getElem _ _ (by simpa using h)]
    simp [bytes]
  rw [hget]
  by_cases hj : j / 8 < n
  · rw [b.load?_of_lt hj, bit, dif_pos hj, Option.getD_some]
  · rw [b.load?_of_le (by omega), bit, dif_neg hj, Option.getD_none]
    simp

/-- `buf[k] = x`. -/
def store? (b : Buf n) (k : ℕ) (x : Byte) : Option (Buf n) := b.modify? k fun _ => x

/-- `memcpy(buf + off, xs, ..)`, if the bytes have room. -/
def memcpy? (b : Buf n) (off : ℕ) (xs : List Byte) : Option (Buf n) :=
  if off + xs.length ≤ n then
    some fun i => if off ≤ i ∧ i < off + xs.length then xs.getD (i - off) 0 else b i
  else none

/-- Copied in at the end of the bytes that matter, bytes are appended to them. -/
theorem bytes_memcpy (b : Buf n) (off : ℕ) (xs : List Byte) (h : off + xs.length ≤ n) :
    ∃ c, b.memcpy? off xs = some c ∧ c.bytes (off + xs.length) = b.bytes off ++ xs := by
  refine ⟨_, if_pos h, ?_⟩
  rw [bytes, bytes, List.range_add, List.map_append, List.map_map]
  congr 1
  · refine List.map_congr_left fun i hi => ?_
    have hlt : i < off := List.mem_range.mp hi
    rw [load?_of_lt _ (show i < n by omega), load?_of_lt _ (show i < n by omega)]
    simp only [Option.getD_some]
    rw [if_neg (by omega)]
  · refine List.ext_getElem (by simp) fun i hi hix => ?_
    rw [List.getElem_map, List.getElem_range, Function.comp_apply,
      load?_of_lt _ (show off + i < n by omega)]
    simp only [Option.getD_some]
    rw [if_pos (by omega), Nat.add_sub_cancel_left, List.getD_eq_getElem _ _ hix]

/-- Stored at the end of the bytes that matter, a byte is appended to them. -/
theorem bytes_store (b : Buf n) {k : ℕ} (x : Byte) (h : k < n) :
    ∃ c, b.store? k x = some c ∧ c.bytes (k + 1) = b.bytes k ++ [x] := by
  refine ⟨_, dif_pos h, ?_⟩
  rw [bytes, bytes, List.range_succ, List.map_append]
  congr 1
  · refine List.map_congr_left fun i hi => ?_
    have hlt : i < k := List.mem_range.mp hi
    have hne : (⟨i, by omega⟩ : Fin n) ≠ ⟨k, h⟩ := fun he =>
      absurd (Fin.ext_iff.mp he) (Nat.ne_of_lt hlt)
    rw [load?_of_lt _ (show i < n by omega), load?_of_lt _ (show i < n by omega),
      Function.update_of_ne hne]
  · rw [List.map_singleton, load?_of_lt _ h, Function.update_self, Option.getD_some]

/-- The bytes after a store. -/
theorem load?_store (b : Buf n) {i : ℕ} (x : Byte) (h : i < n) :
    ∃ c, b.store? i x = some c ∧ ∀ p, c.load? p = if p = i then some x else b.load? p := by
  refine ⟨_, dif_pos h, fun p => ?_⟩
  by_cases hp : p < n
  · rw [load?_of_lt _ hp, load?_of_lt _ hp]
    split_ifs with hpi
    · subst hpi
      rw [Function.update_self]
    · rw [Function.update_of_ne fun he => hpi (Fin.ext_iff.mp he)]
  · rw [load?_of_le _ (not_lt.mp hp), load?_of_le _ (not_lt.mp hp), if_neg (by omega)]

/-- The bits after a copy. -/
theorem bit_memcpy (b : Buf n) (off : ℕ) (xs : List Byte) (h : off + xs.length ≤ n) :
    ∃ c, b.memcpy? off xs = some c ∧ ∀ j, c.bit j =
      if 8 * off ≤ j ∧ j < 8 * (off + xs.length) then bitOf xs (j - 8 * off) else b.bit j := by
  refine ⟨_, if_pos h, fun j => ?_⟩
  by_cases hj : j / 8 < n
  · rw [bit, dif_pos hj]
    dsimp only
    split_ifs with hin hpos hpos
    · have hdiv : (j - 8 * off) / 8 = j / 8 - off := by omega
      have hmod : (j - 8 * off) % 8 = j % 8 := by omega
      rw [bitOf, hdiv, hmod]
    · omega
    · omega
    · rw [bit, dif_pos hj]
  · rw [bit, dif_neg hj, if_neg (by omega), bit, dif_neg hj]

/-- The bits after `memset(buf + off, x, count)`. -/
theorem bit_memset (b : Buf n) (off count : ℕ) (x : Byte) (h : off + count ≤ n) :
    ∃ c, b.memcpy? off (List.replicate count x) = some c ∧ ∀ j, c.bit j =
      if 8 * off ≤ j ∧ j < 8 * (off + count) then x.getLsbD (j % 8) else b.bit j := by
  obtain ⟨c, hc, hbit⟩ := b.bit_memcpy off (List.replicate count x) (by simpa using h)
  refine ⟨c, hc, fun j => ?_⟩
  rw [hbit j, List.length_replicate]
  split_ifs with hin
  · have hlt : (j - 8 * off) / 8 < count := by omega
    have hmod : (j - 8 * off) % 8 = j % 8 := by omega
    rw [bitOf, hmod, List.getD_replicate _ hlt]
  · rfl

theorem bit_eq_bitOf (b : Buf n) {k j : ℕ} (h : j < 8 * k) : b.bit j = bitOf (b.bytes k) j :=
  b.bit_eq_bytes (by omega)

/-- The first bytes of the first bytes. -/
theorem take_bytes (b : Buf n) {k l : ℕ} (h : k ≤ l) : (b.bytes l).take k = b.bytes k := by
  rw [bytes, bytes, ← List.map_take, List.take_range, Nat.min_eq_left h]

/-- The first bytes are known by their bits. -/
theorem bytes_congr {m : ℕ} {b : Buf n} {c : Buf m} {k : ℕ} (h : ∀ j < 8 * k, b.bit j = c.bit j) :
    b.bytes k = c.bytes k := by
  refine List.map_congr_left fun i hi => ?_
  have hlt : i < k := List.mem_range.mp hi
  refine BitVec.eq_of_getLsbD_eq fun j hj => ?_
  rw [b.getLsbD_getD_load? i hj, c.getLsbD_getD_load? i hj, h _ (by omega)]

/-! ### Or-ing a word in at a bit position -/

/-- `buf[k / 8] |= word << (k % 8)`, the assignment keeping the low byte. -/
def orAt (b : Buf n) (k : ℕ) (word : BitVec 32) : Option (Buf n) :=
  b.modify? (k / 8) fun x => x ||| (word <<< (k % 8)).setWidth 8

/-- **What or-ing a word in does to the bits**: bit `j` of the byte at hand is
or-ed with bit `j - k` of the word, for the positions from `k` on. -/
theorem bit_orAt (b : Buf n) {k : ℕ} (word : BitVec 32) (h : k / 8 < n) :
    ∃ c, b.orAt k word = some c ∧ ∀ j, c.bit j =
      (b.bit j || (decide (j / 8 = k / 8) && (decide (k ≤ j) && word.getLsbD (j - k)))) := by
  obtain ⟨c, hc, hbit⟩ := b.modify?_bit (fun x => x ||| (word <<< (k % 8)).setWidth 8) h
  refine ⟨c, hc, fun j => ?_⟩
  rw [hbit j]
  by_cases hj : j / 8 = k / 8
  · have hb : b.bit j = (b ⟨k / 8, h⟩).getLsbD (j % 8) := by
      simp [bit, hj, h]
    have h8 : j % 8 < 8 := Nat.mod_lt _ (by decide)
    have h32 : j % 8 < 32 := by omega
    rw [if_pos hj, hb, BitVec.getLsbD_or, BitVec.getLsbD_setWidth, BitVec.getLsbD_shiftLeft]
    by_cases hkj : k ≤ j
    · have hsub : j % 8 - k % 8 = j - k := by omega
      have hnlt : ¬ j % 8 < k % 8 := by omega
      simp [hj, hkj, h8, h32, hsub, hnlt]
    · have hlt : j % 8 < k % 8 := by omega
      simp [hkj, hlt]
  · rw [if_neg hj]
    simp [hj]

theorem orAt_of_le (b : Buf n) {k : ℕ} (word : BitVec 32) (h : n ≤ k / 8) :
    b.orAt k word = none :=
  b.modify?_of_le _ h

/-- Or-ing a single bit in touches its own position only. -/
theorem bit_orAt_bit (b : Buf n) {k : ℕ} {word : BitVec 32} {v : Bool}
    (hw : word = if v then 1 else 0) (h : k / 8 < n) :
    ∃ c, b.orAt k word = some c ∧ ∀ j, c.bit j = (b.bit j || (decide (j = k) && v)) := by
  obtain ⟨c, hc, hbit⟩ := b.bit_orAt word h
  refine ⟨c, hc, fun j => ?_⟩
  have hword : ∀ m, word.getLsbD m = (decide (m = 0) && v) := by
    intro m
    subst hw
    cases v with
    | false => simp
    | true => simp [BitVec.getLsbD_one]
  rw [hbit j, hword]
  by_cases hj : j = k
  · subst hj
    simp
  · by_cases hle : k ≤ j
    · have hsub : j - k ≠ 0 := by omega
      simp [hj, hsub]
    · simp [hj, hle]

/-! ### Setting a bit -/

/-- `buf[k / 8] |= 1 << (k % 8)` or `buf[k / 8] &= ~(1 << (k % 8))`, as `v` is
set or not. -/
def setAt (b : Buf n) (k : ℕ) (v : Bool) : Option (Buf n) :=
  b.modify? (k / 8) fun x => if v then x ||| (1#8 <<< (k % 8)) else x &&& ~~~(1#8 <<< (k % 8))

/-- The mask of one bit of a byte. -/
theorem getLsbD_mask {j k : ℕ} (hj : j < 8) :
    (1#8 <<< k).getLsbD j = decide (j = k) := by
  rw [BitVec.getLsbD_shiftLeft, BitVec.getLsbD_one]
  rcases Nat.lt_trichotomy j k with hlt | rfl | hlt
  · simp [hlt, hlt.ne]
  · simp [hj]
  · have hsub : j - k ≠ 0 := by omega
    simp [hlt.ne', hsub]

/-- **What setting a bit does to the bits.** -/
theorem bit_setAt (b : Buf n) {k : ℕ} (v : Bool) (h : k / 8 < n) :
    ∃ c, b.setAt k v = some c ∧ ∀ j, c.bit j = if j = k then v else b.bit j := by
  obtain ⟨c, hc, hbit⟩ := b.modify?_bit
    (fun x => if v then x ||| (1#8 <<< (k % 8)) else x &&& ~~~(1#8 <<< (k % 8))) h
  refine ⟨c, hc, fun j => ?_⟩
  rw [hbit j]
  have h8 : j % 8 < 8 := Nat.mod_lt _ (by decide)
  by_cases hj : j / 8 = k / 8
  · have hb : b.bit j = (b ⟨k / 8, h⟩).getLsbD (j % 8) := by
      simp [bit, hj, h]
    have hone : (1#8 <<< (k % 8)).getLsbD (j % 8) = decide (j = k) := by
      rw [getLsbD_mask h8]
      exact decide_eq_decide.mpr (by omega)
    rw [if_pos hj, hb]
    cases v with
    | false =>
      change ((b ⟨k / 8, h⟩) &&& ~~~(1#8 <<< (k % 8))).getLsbD (j % 8) = _
      rw [BitVec.getLsbD_and, BitVec.getLsbD_not, hone]
      by_cases hjk : j = k <;> simp [hjk, h8]
    | true =>
      change ((b ⟨k / 8, h⟩) ||| (1#8 <<< (k % 8))).getLsbD (j % 8) = _
      rw [BitVec.getLsbD_or, hone]
      by_cases hjk : j = k <;> simp [hjk]
  · have hjk : j ≠ k := fun he => hj (by rw [he])
    rw [if_neg hj, if_neg hjk]

end Buf

end PackedBits
