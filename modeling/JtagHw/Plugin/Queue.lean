import Mathlib.Algebra.GroupWithZero.Nat
import Mathlib.Data.Fintype.Order
import Mathlib.Order.CompletePartialOrder
import JtagHw.Lib.CountedLoop
import JtagHw.Lib.PackedBits

/-!
# The queue of bits to be clocked

Both plugins, `src/jtag_hw_dummy.cpp` and `src/jtag_hw_otma.cpp`, collect the bits
the host asks for in two byte buffers, `tdi_data` and `tms_data`, and count them in
`tdi_data_count`; the two functions that do so, `clock_raw` and `clock_multiple`,
are the same text in both files. `JtagHw.Queue` is the three globals, and a call
acts on nothing else, so that what it leaves alone needs no lemma.

A bit is *or-ed* into its byte, at the position of the count; nothing clears the
position first, and nothing checks the count against the size of the buffers. So
there are two things to say about a call:

* one that fits ends with the count moved on by its length
  (`JtagHw.ClockCall.exec_ok`), and one that does not fit writes past the end
  (`JtagHw.ClockCall.exec_overflow`) – whatever the words it is given;
* given words that are bits, one that fits or-s its bits in from the count on
  (`JtagHw.ClockCall.exec_appends`), and on a queue that is zero past its count
  that is to append them (`JtagHw.Queue.Wf.bits_append`).
-/

namespace JtagHw

open PackedBits CountedLoop

/-- What stops the program. -/
inductive Fault
  /-- A byte outside a buffer is read or written. -/
  | outOfBounds
  /-- A loop never ends, whatever the device does. -/
  | diverges
  /-- A function is called through a null pointer. -/
  | nullCallback
  /-- A structure is accessed through a null pointer. -/
  | nullContext
  /-- An `assert` fails. -/
  | assertion
  /-- The device stays silent, and libusb is polled for ever. -/
  | unanswered
  deriving DecidableEq

/-- An access to a byte of a buffer. -/
def access {α : Type*} : Option α → Except Fault α
  | some a => .ok a
  | none => .error .outOfBounds

/-- `#define DATA_SIZE_BYTES (32 * 1024 * 1024)`. -/
def dataSizeBytes : ℕ := 32 * 1024 * 1024

/-- The number of bits a buffer holds. -/
def capacity : ℕ := 8 * dataSizeBytes

theorem capacity_eq : capacity = 2 ^ 28 := rfl

/-- `tms_data`, `tdi_data` and `tdi_data_count`. -/
structure Queue where
  tmsData : Buf dataSizeBytes
  tdiData : Buf dataSizeBytes
  tdiDataCount : BitVec 32

namespace Queue

/-- The queue after the three have been cleared. -/
def empty : Queue := ⟨.zero, .zero, 0⟩

/-- The number of bits queued. -/
def count (q : Queue) : ℕ := q.tdiDataCount.toNat

@[simp] theorem count_empty : empty.count = 0 := rfl

theorem count_empty_le : empty.count ≤ capacity := Nat.zero_le _

/-- The body of the loops of `clock_raw` and `clock_multiple`: both words are or-ed
in at the count, and the count moves on. -/
def queueBit (tms tdi : BitVec 32) (q : Queue) : Except Fault Queue := do
  let tdiData ← access (q.tdiData.orAt q.count tdi)
  let tmsData ← access (q.tmsData.orAt q.count tms)
  return ⟨tmsData, tdiData, q.tdiDataCount + 1⟩

/-- `void clock_raw(void *, uint32_t jtag_tms, uint32_t jtag_tdi, unsigned long len)`. -/
def clockRaw (tms tdi : BitVec 32) (len : BitVec 64) (q : Queue) : Except Fault Queue :=
  forLoop .diverges len.toNat (fun (_ : BitVec 32) q => queueBit tms tdi q) q

/-- `int64_t clock_multiple(void *, unsigned jtag_tms, unsigned long *p_bits,
unsigned long len, unsigned long)`: the bits of the array of the caller, lowest
first in each byte. -/
def clockMultiple (tms : BitVec 32) (pBits : ℕ → Byte) (len : BitVec 64) (q : Queue) :
    Except Fault Queue :=
  forLoop .diverges len.toNat
    (fun (i : BitVec 32) q =>
      queueBit tms (((pBits (i.toNat / 8) >>> (i.toNat % 8)) &&& 0x1).setWidth 32) q) q

/-- The pair (TMS, TDI) at a position of the buffers. -/
def bitAt (q : Queue) (j : ℕ) : Bool × Bool := (q.tmsData.bit j, q.tdiData.bit j)

/-- The pairs queued, in order. -/
def bits (q : Queue) : List (Bool × Bool) := (List.range q.count).map q.bitAt

@[simp] theorem length_bits (q : Queue) : q.bits.length = q.count := by
  simp [bits]

@[simp] theorem bits_empty : empty.bits = [] := rfl

theorem getElem?_bits (q : Queue) {k : ℕ} (h : k < q.count) : q.bits[k]? = some (q.bitAt k) := by
  rw [bits, List.getElem?_map, List.getElem?_range h]
  rfl

theorem take_bits_succ (q : Queue) {k : ℕ} (h : k < q.count) :
    q.bits.take (k + 1) = q.bits.take k ++ [q.bitAt k] := by
  rw [List.take_add_one, q.getElem?_bits h]
  rfl

theorem take_bits_count (q : Queue) : q.bits.take q.count = q.bits :=
  List.take_of_length_le (by simp)

/-- Bits queued behind the others leave them alone. -/
theorem bitAt_of_bits_append {q q' : Queue} {l : List (Bool × Bool)} (h : q'.bits = q.bits ++ l)
    {j : ℕ} (hj : j < q.count) : q'.bitAt j = q.bitAt j := by
  have hj' : j < q'.count := by
    rw [← length_bits, h, List.length_append, length_bits]
    omega
  have hget := q'.getElem?_bits hj'
  rw [h, List.getElem?_append_left (by simpa using hj), q.getElem?_bits hj] at hget
  exact (Option.some.inj hget).symm

theorem ofNat_count (q : Queue) : BitVec.ofNat 32 q.count = q.tdiDataCount := by
  rw [count, BitVec.ofNat_toNat, BitVec.setWidth_eq]

/-- The count of a transmission in progress. -/
theorem count_succ (n : BitVec 32) (k : ℕ) :
    n + BitVec.ofNat 32 k + 1 = n + BitVec.ofNat 32 (k + 1) := by
  rw [BitVec.add_assoc, BitVec.ofNat_add]
  rfl

/-- **A queue in order**: no more bits than there is room for, and nothing but
zeros past them. -/
structure Wf (q : Queue) : Prop where
  count_le : q.count ≤ capacity
  zero_past : ∀ j, q.count ≤ j → q.bitAt j = ⊥

theorem wf_empty : empty.Wf :=
  ⟨Nat.zero_le _, fun j _ => by simp [bitAt, empty]; rfl⟩

/-- The bits `l` have been or-ed in from the count on, and counted. -/
structure Appends (q : Queue) (l : List (Bool × Bool)) (q' : Queue) : Prop where
  count_eq : q'.count = q.count + l.length
  bitAt_eq : ∀ j, q'.bitAt j = q.bitAt j ⊔ laidOut l q.count j

namespace Wf

variable {q q' : Queue} {l : List (Bool × Bool)}

/-- **Or-ing bits in past the end of a queue in order appends them.** -/
theorem bits_append (h : q.Wf) (ha : q.Appends l q') : q'.bits = q.bits ++ l := by
  have hold : (List.range q.count).map q'.bitAt = q.bits := by
    refine List.map_congr_left fun j hj => ?_
    rw [ha.bitAt_eq, laidOut_of_lt l (List.mem_range.mp hj), sup_bot_eq]
  have hnew : (List.range l.length).map (fun i => q'.bitAt (q.count + i)) = l := by
    refine List.ext_getElem (by simp) fun i hi hil => ?_
    rw [List.getElem_map, List.getElem_range, ha.bitAt_eq, h.zero_past _ (Nat.le_add_right _ _),
      bot_sup_eq, laidOut, if_pos (Nat.le_add_right _ _), Nat.add_sub_cancel_left,
      List.getD_eq_getElem _ _ hil]
  rw [bits, ha.count_eq, List.range_add, List.map_append, hold, List.map_map]
  exact congrArg _ hnew

/-- A queue in order stays so. -/
theorem append (h : q.Wf) (ha : q.Appends l q') (hfit : q.count + l.length ≤ capacity) :
    q'.Wf := by
  refine ⟨by rw [ha.count_eq]; exact hfit, fun j hj => ?_⟩
  rw [ha.count_eq] at hj
  rw [ha.bitAt_eq, h.zero_past j (by omega), laidOut_of_ge l hj, sup_bot_eq]

/-- **A queue in order is known by its bits.** -/
theorem ext (h : q.Wf) (h' : q'.Wf) (hbits : q.bits = q'.bits) : q = q' := by
  have hcount : q.count = q'.count := by
    rw [← length_bits, hbits, length_bits]
  have hat : ∀ j, q.bitAt j = q'.bitAt j := by
    intro j
    rcases lt_or_ge j q.count with hj | hj
    · have hget := q.getElem?_bits hj
      rw [hbits, q'.getElem?_bits (hcount ▸ hj)] at hget
      exact (Option.some.inj hget).symm
    · rw [h.zero_past j hj, h'.zero_past j (hcount ▸ hj)]
  have htms : q.tmsData = q'.tmsData := Buf.ext_bit fun j => (Prod.ext_iff.mp (hat j)).1
  have htdi : q.tdiData = q'.tdiData := Buf.ext_bit fun j => (Prod.ext_iff.mp (hat j)).2
  have hdata : q.tdiDataCount = q'.tdiDataCount := BitVec.eq_of_toNat_eq hcount
  cases q
  cases q'
  congr

end Wf

/-! ### One bit -/

/-- There is room: both words are or-ed in, and the count moves on. -/
theorem queueBit_ok (tms tdi : BitVec 32) {q : Queue} (h : q.count < capacity) :
    ∃ q', queueBit tms tdi q = .ok q' ∧ q'.count = q.count + 1 ∧
      q.tmsData.orAt q.count tms = some q'.tmsData ∧
      q.tdiData.orAt q.count tdi = some q'.tdiData := by
  have hbyte : q.count / 8 < dataSizeBytes := by
    rw [capacity] at h
    omega
  obtain ⟨tdiData, htdi, -⟩ := q.tdiData.bit_orAt tdi hbyte
  obtain ⟨tmsData, htms, -⟩ := q.tmsData.bit_orAt tms hbyte
  refine ⟨⟨tmsData, tdiData, q.tdiDataCount + 1⟩, by rw [queueBit, htdi, htms]; rfl, ?_, htms, htdi⟩
  rw [capacity_eq] at h
  have hlt : q.tdiDataCount.toNat < 2 ^ 28 := h
  simp only [count, BitVec.toNat_add]
  change (q.tdiDataCount.toNat + 1) % 2 ^ 32 = _
  omega

/-- There is no room: the byte written is past the end of the buffer. -/
theorem queueBit_overflow (tms tdi : BitVec 32) {q : Queue} (h : capacity ≤ q.count) :
    queueBit tms tdi q = .error .outOfBounds := by
  have hbyte : dataSizeBytes ≤ q.count / 8 := by
    rw [capacity] at h
    omega
  rw [queueBit, q.tdiData.orAt_of_le tdi hbyte]
  rfl

/-- Given words that are bits, only the position of the count is written. -/
theorem queueBit_bit {tms tdi : BitVec 32} {t d : Bool} (htms : tms = if t then 1 else 0)
    (htdi : tdi = if d then 1 else 0) {q : Queue} (h : q.count < capacity) :
    ∃ q', queueBit tms tdi q = .ok q' ∧ q'.count = q.count + 1 ∧
      ∀ j, q'.bitAt j = q.bitAt j ⊔ if j = q.count then (t, d) else ⊥ := by
  have hbyte : q.count / 8 < dataSizeBytes := by
    rw [capacity] at h
    omega
  obtain ⟨tdiData, hdi, hdiBit⟩ := q.tdiData.bit_orAt_bit htdi hbyte
  obtain ⟨tmsData, hms, hmsBit⟩ := q.tmsData.bit_orAt_bit htms hbyte
  obtain ⟨q', hq', hcount, hms', hdi'⟩ := queueBit_ok tms tdi h
  refine ⟨q', hq', hcount, fun j => ?_⟩
  rw [bitAt, ← Option.some.inj (hms.symm.trans hms'), ← Option.some.inj (hdi.symm.trans hdi'),
    hdiBit, hmsBit]
  by_cases hj : j = q.count
  · rw [if_pos hj]
    simp [hj, bitAt]
  · rw [if_neg hj]
    simp [hj, bitAt]

end Queue

/-! ### Calls -/

/-- The calls that queue bits, with their arguments. -/
inductive ClockCall
  | raw (tms tdi : BitVec 32) (len : BitVec 64)
  | multiple (tms : BitVec 32) (pBits : ℕ → Byte) (len : BitVec 64)

namespace ClockCall

/-- What a call does to the queue. -/
def exec : ClockCall → Queue → Except Fault Queue
  | raw tms tdi len => Queue.clockRaw tms tdi len
  | multiple tms pBits len => Queue.clockMultiple tms pBits len

/-- `len`. -/
def len : ClockCall → ℕ
  | raw _ _ len => len.toNat
  | multiple _ _ len => len.toNat

/-- `jtag_tms`. -/
def tms : ClockCall → BitVec 32
  | raw tms _ _ => tms
  | multiple tms _ _ => tms

/-- The word or-ed into `tdi_data` in iteration `i`. -/
def tdi : ClockCall → ℕ → BitVec 32
  | raw _ tdi _, _ => tdi
  | multiple _ pBits _, i => ((pBits (i / 8) >>> (i % 8)) &&& 0x1).setWidth 32

/-- The words are bits: TMS, and the TDI of `clock_raw` – the TDI of
`clock_multiple` always is one. -/
def IsBits : ClockCall → Prop
  | raw tms tdi _ => (tms = 0 ∨ tms = 1) ∧ (tdi = 0 ∨ tdi = 1)
  | multiple tms _ _ => tms = 0 ∨ tms = 1

instance : DecidablePred IsBits
  | raw tms tdi _ => inferInstanceAs (Decidable ((tms = 0 ∨ tms = 1) ∧ (tdi = 0 ∨ tdi = 1)))
  | multiple tms _ _ => inferInstanceAs (Decidable (tms = 0 ∨ tms = 1))

/-- The TDI a call asks for in its iteration `i`. -/
def tdiBit : ClockCall → ℕ → Bool
  | raw _ tdi _, _ => tdi.getLsbD 0
  | multiple _ pBits _, i => (pBits (i / 8)).getLsbD (i % 8)

/-- **The pairs (TMS, TDI) a call denotes**, in order. -/
def bits (c : ClockCall) : List (Bool × Bool) :=
  (List.range c.len).map fun i => (c.tms.getLsbD 0, c.tdiBit i)

@[simp] theorem length_bits (c : ClockCall) : c.bits.length = c.len := by
  simp [bits]

theorem bits_raw (tms tdi : BitVec 32) (len : BitVec 64) :
    (raw tms tdi len).bits = List.replicate len.toNat (tms.getLsbD 0, tdi.getLsbD 0) := by
  simp [bits, tdiBit, ClockCall.tms, ClockCall.len, List.map_const']

/-- Both calls are one loop. -/
theorem exec_eq (c : ClockCall) (q : Queue) :
    c.exec q = forLoop .diverges c.len
      (fun (i : BitVec 32) q => Queue.queueBit c.tms (c.tdi i.toNat) q) q := by
  cases c <;> rfl

/-- A word that is a bit is the one of its lowest bit. -/
theorem eq_ite_of_bit {w : BitVec 32} (h : w = 0 ∨ w = 1) :
    w = if w.getLsbD 0 then 1 else 0 := by
  rcases h with rfl | rfl <;> rfl

theorem IsBits.tms {c : ClockCall} (h : c.IsBits) :
    c.tms = if c.tms.getLsbD 0 then 1 else 0 := by
  cases c with
  | raw tms tdi len => exact eq_ite_of_bit h.1
  | multiple tms pBits len => exact eq_ite_of_bit h

theorem IsBits.tdi {c : ClockCall} (h : c.IsBits) (i : ℕ) :
    c.tdi i = if c.tdiBit i then 1 else 0 := by
  cases c with
  | raw tms tdi len => exact eq_ite_of_bit h.2
  | multiple tms pBits len =>
    change ((pBits (i / 8) >>> (i % 8)) &&& 0x1#8).setWidth 32 = _
    rw [shiftRight_and_one, tdiBit]
    cases (pBits (i / 8)).getLsbD (i % 8) <;> rfl

/-- **A call that fits ends**, with the count moved on by its length. -/
theorem exec_ok (c : ClockCall) {q : Queue} (h : q.count + c.len ≤ capacity) :
    ∃ q', c.exec q = .ok q' ∧ q'.count = q.count + c.len := by
  rw [exec_eq]
  refine forLoop_rule (I := fun k (q' : Queue) => q'.count = q.count + k) ?_ rfl ?_
  · rw [capacity_eq] at h
    omega
  · intro k hk q' hq'
    obtain ⟨q'', hok, hcount, -⟩ := Queue.queueBit_ok c.tms (c.tdi (BitVec.ofNat 32 k).toNat)
      (q := q') (by omega)
    exact ⟨q'', hok, by omega⟩

/-- **A call that does not fit writes past the end of the buffers**, however large
its length. -/
theorem exec_overflow (c : ClockCall) {q : Queue} (hq : q.count ≤ capacity)
    (h : capacity < q.count + c.len) : c.exec q = .error .outOfBounds := by
  rw [exec_eq]
  refine forLoop_error (n := capacity - q.count) (I := fun k (q' : Queue) => q'.count = q.count + k)
    (by omega) ?_ rfl ?_ ?_
  · rw [capacity_eq]
    omega
  · intro k hk q' hq'
    obtain ⟨q'', hok, hcount, -⟩ := Queue.queueBit_ok c.tms (c.tdi (BitVec.ofNat 32 k).toNat)
      (q := q') (by omega)
    exact ⟨q'', hok, by omega⟩
  · intro q' hq'
    exact Queue.queueBit_overflow _ _ (by omega)

/-- The two cases together: a call ends exactly when it fits. -/
theorem exec_ok_iff (c : ClockCall) {q : Queue} (hq : q.count ≤ capacity) :
    (∃ q', c.exec q = .ok q') ↔ q.count + c.len ≤ capacity := by
  constructor
  · rintro ⟨q', hok⟩
    by_contra h
    rw [c.exec_overflow hq (by omega)] at hok
    cases hok
  · intro h
    obtain ⟨q', hok, -⟩ := c.exec_ok h
    exact ⟨q', hok⟩

/-- **A call that fits or-s its bits in**, if its words are bits. The loop invariant:
after `k` iterations the first `k` of them are in. -/
theorem exec_appends {c : ClockCall} (hc : c.IsBits) {q : Queue}
    (h : q.count + c.len ≤ capacity) : ∃ q', c.exec q = .ok q' ∧ q.Appends c.bits q' := by
  rw [exec_eq]
  have hlen32 : c.len < 2 ^ 32 := by
    rw [capacity_eq] at h
    omega
  have hbit : ∀ k < c.len,
      c.bits.take (k + 1) = c.bits.take k ++ [(c.tms.getLsbD 0, c.tdiBit k)] := by
    intro k hk
    rw [List.take_add_one, bits, List.getElem?_map, List.getElem?_range hk]
    rfl
  have hlength : ∀ k ≤ c.len, (c.bits.take k).length = k := by
    intro k hk
    rw [List.length_take, length_bits, Nat.min_eq_left hk]
  have hstep : ∀ k < c.len, ∀ q', q.Appends (c.bits.take k) q' →
      ∃ q'', Queue.queueBit c.tms (c.tdi (BitVec.ofNat 32 k).toNat) q' = .ok q'' ∧
        q.Appends (c.bits.take (k + 1)) q'' := by
    intro k hk q' hq'
    have hcount : q'.count = q.count + k := by rw [hq'.count_eq, hlength k hk.le]
    -- the counter of the loop has `32` bits, and does not wrap
    have hk32 : (BitVec.ofNat 32 k).toNat = k := by
      rw [BitVec.toNat_ofNat, Nat.mod_eq_of_lt (by omega)]
    obtain ⟨q'', hok, hcount'', hat⟩ := Queue.queueBit_bit hc.tms (hc.tdi k) (q := q')
      (by omega)
    refine ⟨q'', by rw [hk32]; exact hok, ?_, fun j => ?_⟩
    · rw [hcount'', hcount, hlength (k + 1) hk, Nat.add_assoc]
    · rw [hat j, hq'.bitAt_eq j, hbit k hk, laidOut_append_singleton, hlength k hk.le, hcount,
        sup_assoc]
  have hzero : q.Appends (c.bits.take 0) q := ⟨by simp, fun j => by simp⟩
  obtain ⟨q', hok, hq'⟩ := forLoop_rule (d := Fault.diverges)
    (f := fun (i : BitVec 32) q => Queue.queueBit c.tms (c.tdi i.toNat) q)
    (I := fun k q' => q.Appends (c.bits.take k) q') hlen32 hzero hstep
  rw [List.take_of_length_le (by simp)] at hq'
  exact ⟨q', hok, hq'⟩

end ClockCall

end JtagHw
