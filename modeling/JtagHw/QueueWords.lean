import JtagHw.QueueCalls

/-!
# Clock calls with arbitrary words

`clock_raw` and `clock_multiple` take TMS, and the former TDI as well, as words of 32 bits,
shift them to the position of the count and or them into the byte there. Of the TDI
of `clock_multiple` only one bit is kept first; the words are not masked. So a word that
is not a bit is or-ed into the rest of its byte (`JtagHw.ClockCall.Spreads`): as long as
the call goes on to queue the bits there, that is its own affair, but from the last
byte of a call it may spill into the positions that come after.

How far it can reach there depends on where in its last byte the call begins
(`JtagHw.ClockCall.lastStart`). The call is contained
(`JtagHw.ClockCall.Contained`) if it ends at the end of a byte, or has no bit set in its words
between the lowest and that reach; and it changes nothing but its own positions just
then (`JtagHw.ClockCall.framed_iff`).
-/

namespace JtagHw

open PackedBits CountedLoop

namespace ClockCall

/-! ### What is or-ed in -/

/-- One of the words `w i`, or-ed in at the positions from `n` on, sets position `j`. -/
def Spreads (w : ℕ → BitVec 32) (n len j : ℕ) : Prop :=
  ∃ i < len, j / 8 = (n + i) / 8 ∧ n + i ≤ j ∧ (w i).getLsbD (j - (n + i)) = true

theorem spreads_succ {w : ℕ → BitVec 32} {n k j : ℕ} :
    Spreads w n (k + 1) j ↔ Spreads w n k j ∨
      (j / 8 = (n + k) / 8 ∧ n + k ≤ j ∧ (w k).getLsbD (j - (n + k)) = true) := by
  constructor
  · rintro ⟨i, hi, h⟩
    rcases Nat.lt_succ_iff_lt_or_eq.mp hi with hik | rfl
    · exact Or.inl ⟨i, hik, h⟩
    · exact Or.inr h
  · rintro (⟨i, hi, h⟩ | h)
    · exact ⟨i, Nat.lt_succ_of_lt hi, h⟩
    · exact ⟨k, Nat.lt_succ_self k, h⟩

/-- What or-ing one word in does, as a statement. -/
theorem orAt_bit_iff {b b' : Buf dataSizeBytes} {n : ℕ} {w : BitVec 32} (hn : n < capacity)
    (h : b.orAt n w = some b') (j : ℕ) :
    b'.bit j = true ↔
      b.bit j = true ∨ (j / 8 = n / 8 ∧ n ≤ j ∧ w.getLsbD (j - n) = true) := by
  have hbyte : n / 8 < dataSizeBytes := by
    rw [capacity] at hn
    omega
  obtain ⟨b'', hb'', hbit⟩ := b.bit_orAt w hbyte
  cases h.symm.trans hb''
  rw [hbit j]
  simp

/-- **What a call that fits does to the buffers**, whatever its words. The loop invariant: the
words of the first `k` iterations are in. -/
theorem exec_spreads (c : ClockCall) {q : Queue} (h : q.count + c.len ≤ capacity) :
    ∃ q', c.exec q = .ok q' ∧ q'.count = q.count + c.len ∧
      (∀ j, q'.tmsData.bit j = true ↔
        q.tmsData.bit j = true ∨ Spreads (fun _ => c.tms) q.count c.len j) ∧
      ∀ j, q'.tdiData.bit j = true ↔
        q.tdiData.bit j = true ∨ Spreads c.tdi q.count c.len j := by
  rw [exec_eq]
  refine forLoop_rule (I := fun k (q' : Queue) => q'.count = q.count + k ∧
      (∀ j, q'.tmsData.bit j = true ↔
        q.tmsData.bit j = true ∨ Spreads (fun _ => c.tms) q.count k j) ∧
      ∀ j, q'.tdiData.bit j = true ↔ q.tdiData.bit j = true ∨ Spreads c.tdi q.count k j)
    ?_ ⟨rfl, fun j => ?_, fun j => ?_⟩ ?_
  · rw [capacity_eq] at h
    omega
  · exact ⟨Or.inl, fun h => h.resolve_right fun ⟨i, hi, _⟩ => Nat.not_lt_zero i hi⟩
  · exact ⟨Or.inl, fun h => h.resolve_right fun ⟨i, hi, _⟩ => Nat.not_lt_zero i hi⟩
  · rintro k hk q' ⟨hcount, htms, htdi⟩
    have hk32 : (BitVec.ofNat 32 k).toNat = k := by
      rw [capacity_eq] at h
      rw [BitVec.toNat_ofNat, Nat.mod_eq_of_lt (by omega)]
    have hroom : q'.count < capacity := by omega
    obtain ⟨q'', hok, hcount'', hms, hdi⟩ := Queue.queueBit_ok c.tms (c.tdi k) hroom
    refine ⟨q'', by rw [hk32]; exact hok, by omega, fun j => ?_, fun j => ?_⟩
    · rw [orAt_bit_iff hroom hms j, htms j, spreads_succ, hcount, or_assoc]
    · rw [orAt_bit_iff hroom hdi j, htdi j, spreads_succ, hcount, or_assoc]

/-- Nothing is set before the count. -/
theorem not_spreads_of_lt {w : ℕ → BitVec 32} {n len j : ℕ} (h : j < n) : ¬ Spreads w n len j := by
  rintro ⟨i, -, -, hle, -⟩
  omega

/-- Words that are bits set nothing past the call. -/
theorem not_spreads_of_bits {w : ℕ → BitVec 32} {n len j : ℕ}
    (hw : ∀ i m, 0 < m → (w i).getLsbD m = false) (h : n + len ≤ j) : ¬ Spreads w n len j := by
  rintro ⟨i, hi, -, -, hbit⟩
  rw [hw i _ (by omega)] at hbit
  cases hbit

/-! ### How far a word reaches -/

/-- The first position that a call of length `len` writes in its last byte, if it begins at
position `n`. -/
def lastStart (n len : ℕ) : ℕ := max n (8 * ((n + len - 1) / 8))

/-- **How far a word reaches past the call.** It sets a position there just if the call does
not end at the end of a byte, and the word has a bit set, other than the lowest, within
what is left of the byte from the first position of the call in it on. -/
theorem exists_spreads_past {w : BitVec 32} {n len : ℕ} :
    (∃ j, n + len ≤ j ∧ Spreads (fun _ => w) n len j) ↔
      len ≠ 0 ∧ (n + len) % 8 ≠ 0 ∧
        ∃ m, 0 < m ∧ m < 8 - lastStart n len % 8 ∧ w.getLsbD m = true := by
  constructor
  · rintro ⟨j, hj, i, hi, hbyte, hle, hbit⟩
    have hstart : lastStart n len ≤ n + i := by
      rw [lastStart, max_le_iff]
      omega
    have hsame : lastStart n len / 8 = (n + i) / 8 := by
      have hge : 8 * ((n + len - 1) / 8) ≤ lastStart n len := le_max_right ..
      omega
    exact ⟨by omega, by omega, j - (n + i), by omega, by omega, hbit⟩
  · rintro ⟨hlen, hmod, m, hm, hlt, hbit⟩
    have hge : 8 * ((n + len - 1) / 8) ≤ lastStart n len := le_max_right ..
    have hn : n ≤ lastStart n len := le_max_left ..
    have hend : lastStart n len ≤ n + len - 1 := by
      rw [lastStart, max_le_iff]
      omega
    -- the word is or-ed in at each position from `lastStart` to the end of the call
    rcases le_total (lastStart n len + m) (n + len) with hcase | hcase
    · refine ⟨n + len, le_rfl, len - m, by omega, by omega, by omega, ?_⟩
      rwa [show n + len - (n + (len - m)) = m by omega]
    · refine ⟨lastStart n len + m, by omega, lastStart n len - n, by omega, by omega, by omega, ?_⟩
      rwa [show lastStart n len + m - (n + (lastStart n len - n)) = m by omega]

/-! ### Contained calls -/

/-- The words of a call that are or-ed in as they are. -/
def words : ClockCall → List (BitVec 32)
  | raw tms tdi _ => [tms, tdi]
  | multiple tms _ _ => [tms]

/-- **A contained call**, at a count of `n`: it fits, and it is empty, or ends at the end of a
byte, or has no bit set in its words, other than the lowest, within what is left of its last
byte from its first position in it on. -/
def Contained (n : ℕ) (c : ClockCall) : Prop :=
  n + c.len ≤ capacity ∧ (c.len = 0 ∨ (n + c.len) % 8 = 0 ∨
    ∀ w ∈ c.words, ∀ m, 0 < m → m < 8 - lastStart n c.len % 8 → w.getLsbD m = false)

/-- The words of a call and what it ors in. -/
theorem spreads_of_mem_words {c : ClockCall} {w : BitVec 32} (hw : w ∈ c.words) {n j : ℕ}
    (h : Spreads (fun _ => w) n c.len j) :
    Spreads (fun _ => c.tms) n c.len j ∨ Spreads c.tdi n c.len j := by
  cases c with
  | raw tms tdi len =>
    rcases List.mem_pair.mp hw with rfl | rfl
    · exact Or.inl h
    · exact Or.inr h
  | multiple tms pBits len =>
    obtain rfl := List.mem_singleton.mp hw
    exact Or.inl h

/-- The TDI of `clock_multiple` is masked. -/
theorem tdi_multiple (tms : BitVec 32) (pBits : ℕ → Byte) (len : BitVec 64) (i m : ℕ)
    (hm : 0 < m) : ((multiple tms pBits len).tdi i).getLsbD m = false := by
  change ((((pBits (i / 8) >>> (i % 8)) &&& 0x1#8).setWidth 32).getLsbD m) = false
  rw [shiftRight_and_one]
  cases (pBits (i / 8)).getLsbD (i % 8) <;> simp [BitVec.getLsbD_one, Nat.ne_of_gt hm]

/-- A contained call sets nothing past its own positions. -/
theorem Contained.not_spreads {n : ℕ} {c : ClockCall} (h : Contained n c) {j : ℕ}
    (hj : n + c.len ≤ j) :
    ¬ Spreads (fun _ => c.tms) n c.len j ∧ ¬ Spreads c.tdi n c.len j := by
  have hword : ∀ w ∈ c.words, ¬ Spreads (fun _ => w) n c.len j := by
    intro w hw hspread
    obtain ⟨hlen, hmod, m, hm, hlt, hbit⟩ := exists_spreads_past.mp ⟨j, hj, hspread⟩
    have hclear := (h.2.resolve_left hlen).resolve_left hmod w hw m hm hlt
    rw [hclear] at hbit
    cases hbit
  cases c with
  | raw tms tdi len =>
    exact ⟨hword tms (List.mem_cons_self ..), hword tdi (List.mem_cons_of_mem _ (.head _))⟩
  | multiple tms pBits len =>
    exact ⟨hword tms (List.mem_cons_self ..),
      not_spreads_of_bits (fun i m => tdi_multiple tms pBits len i m) hj⟩

/-- **The frame of a call**: it ends, it changes no bit before the old count and none from the
new one on, and what is queued after it reads back. -/
def Framed (q : Queue) (c : ClockCall) : Prop :=
  ∃ q', c.exec q = .ok q' ∧ (∀ j, j < q.count ∨ q'.count ≤ j → q'.bitAt j = q.bitAt j) ∧
    ∀ later : List ClockCall, (∀ c ∈ later, c.IsBits) → q'.count + total later ≤ capacity →
      ∃ q'', execAll later q' = .ok q'' ∧ q''.bits = q'.bits ++ later.flatMap bits

/-- **A contained call** keeps the queue in order, and changes its own positions only. -/
theorem exec_contained {c : ClockCall} {q : Queue} (hq : q.Wf) (h : Contained q.count c) :
    ∃ q', c.exec q = .ok q' ∧ q'.count = q.count + c.len ∧ q'.Wf ∧
      ∀ j, j < q.count ∨ q'.count ≤ j → q'.bitAt j = q.bitAt j := by
  obtain ⟨q', hok, hcount, htms, htdi⟩ := c.exec_spreads h.1
  have hsame : ∀ j, j < q.count ∨ q'.count ≤ j → q'.bitAt j = q.bitAt j := by
    intro j hj
    have hnone : ¬ Spreads (fun _ => c.tms) q.count c.len j ∧ ¬ Spreads c.tdi q.count c.len j := by
      rcases hj with hj | hj
      · exact ⟨not_spreads_of_lt hj, not_spreads_of_lt hj⟩
      · exact h.not_spreads (hcount ▸ hj)
    exact Prod.ext (Bool.eq_iff_iff.mpr ((htms j).trans (or_iff_left hnone.1)))
      (Bool.eq_iff_iff.mpr ((htdi j).trans (or_iff_left hnone.2)))
  refine ⟨q', hok, hcount, ⟨hcount ▸ h.1, fun j hj => ?_⟩, hsame⟩
  rw [hsame j (Or.inr hj), hq.zero_past j (by omega)]

/-- **A call is framed just if it is contained.** -/
theorem framed_iff {c : ClockCall} {q : Queue} (hq : q.Wf) :
    Framed q c ↔ Contained q.count c := by
  constructor
  · rintro ⟨q', hok, hsame, -⟩
    have hfit := (c.exec_ok_iff hq.count_le).mp ⟨q', hok⟩
    refine ⟨hfit, ?_⟩
    by_contra hnot
    push Not at hnot
    obtain ⟨hlen, hmod, w, hw, m, hm, hlt, hbit⟩ := hnot
    obtain ⟨j, hj, hspread⟩ := exists_spreads_past.mpr
      ⟨hlen, hmod, m, hm, hlt, Bool.eq_true_of_not_eq_false hbit⟩
    obtain ⟨q₁, hok₁, hcount, htms, htdi⟩ := c.exec_spreads hfit
    cases hok.symm.trans hok₁
    -- the position is zero, as in the old queue, and set, by the word
    have hzero : q'.bitAt j = ⊥ := by
      rw [hsame j (Or.inr (by omega)), hq.zero_past j (by omega)]
    rcases spreads_of_mem_words hw hspread with hs | hs
    · have htrue := (htms j).mpr (Or.inr hs)
      rw [show q'.tmsData.bit j = false from congrArg Prod.fst hzero] at htrue
      cases htrue
    · have htrue := (htdi j).mpr (Or.inr hs)
      rw [show q'.tdiData.bit j = false from congrArg Prod.snd hzero] at htrue
      cases htrue
  · intro h
    obtain ⟨q', hok, -, hwf, hsame⟩ := exec_contained hq h
    refine ⟨q', hok, hsame, fun later hlater hfit => ?_⟩
    obtain ⟨q'', hall, -, hbits⟩ := execAll_append hlater hwf hfit
    exact ⟨q'', hall, hbits⟩

/-- Every call of a sequence is contained, at the count it finds. -/
def AllContained : ℕ → List ClockCall → Prop
  | _, [] => True
  | n, c :: cs => Contained n c ∧ AllContained (n + c.len) cs

/-- **A sequence of contained calls** changes nothing that was queued before it, and keeps the
queue in order. -/
theorem execAll_contained {cs : List ClockCall} {q : Queue} (hq : q.Wf)
    (h : AllContained q.count cs) :
    ∃ q', execAll cs q = .ok q' ∧ q'.Wf ∧ q'.count = q.count + total cs ∧
      ∀ j < q.count, q'.bitAt j = q.bitAt j := by
  induction cs generalizing q with
  | nil => exact ⟨q, rfl, hq, rfl, fun _ _ => rfl⟩
  | cons c cs ih =>
    obtain ⟨q₁, hok, hcount, hwf, hsame⟩ := exec_contained hq h.1
    obtain ⟨q', hall, hwf', hcount', hsame'⟩ := ih hwf (by rw [hcount]; exact h.2)
    refine ⟨q', ?_, hwf', by rw [hcount', hcount, total_cons, Nat.add_assoc], fun j hj => ?_⟩
    · rw [execAll, hok]
      exact hall
    · rw [hsame' j (by omega), hsame j (Or.inl hj)]

end ClockCall

/-- **The frame of a clock call, for every word.** From a queue in order, a call changes no
bit outside its own positions, and what is queued after it reads back, just if it is
contained. After any sequence of contained calls, what is queued reads back as well, behind
what was there before. -/
theorem words_frame {q : Queue} (hq : q.Wf) :
    (∀ c : ClockCall, ClockCall.Framed q c ↔ ClockCall.Contained q.count c) ∧
    ∀ cs later : List ClockCall, ClockCall.AllContained q.count cs → (∀ c ∈ later, c.IsBits) →
      q.count + ClockCall.total cs + ClockCall.total later ≤ capacity →
      ∃ q' q'', ClockCall.execAll cs q = .ok q' ∧ ClockCall.execAll later q' = .ok q'' ∧
        (∀ j < q.count, q''.bitAt j = q.bitAt j) ∧
        q''.bits = q'.bits ++ later.flatMap ClockCall.bits := by
  refine ⟨fun c => ClockCall.framed_iff hq, fun cs later hcs hlater hfit => ?_⟩
  obtain ⟨q', hall, hwf, hcount, hsame⟩ := ClockCall.execAll_contained hq hcs
  obtain ⟨q'', hall', hwf'', hbits⟩ := ClockCall.execAll_append hlater hwf (by rwa [hcount])
  refine ⟨q', q'', hall, hall', fun j hj => ?_, hbits⟩
  rw [Queue.bitAt_of_bits_append hbits (by omega), hsame j hj]

/-- A word that is not a bit, in a call that ends at the end of a byte, and what is queued
after it. -/
theorem words_frame_wholeByte :
    ClockCall.Framed .empty (.raw 0 2 8) ∧
    ∃ q' q'', ClockCall.execAll [.raw 0 2 8] .empty = .ok q' ∧
      ClockCall.execAll [.raw 0 0 3] q' = .ok q'' ∧
      q''.bits = q'.bits ++ List.replicate 3 (false, false) := by
  have hcontained : ClockCall.Contained 0 (.raw 0 2 8) :=
    ⟨by decide +kernel, Or.inr (Or.inl (by decide))⟩
  obtain ⟨hone, hall⟩ := words_frame Queue.wf_empty
  refine ⟨(hone (.raw 0 2 8)).mpr hcontained, ?_⟩
  obtain ⟨q', q'', hok, hok', -, hbits⟩ := hall [.raw 0 2 8] [.raw 0 0 3] ⟨hcontained, trivial⟩
    (by decide) (by decide +kernel)
  exact ⟨q', q'', hok, hok', hbits⟩

/-- The same word in a call for one bit: the bit queued after it is set, although it has
been passed as `0`. -/
theorem words_frame_false_of_oneBit :
    ¬ ClockCall.Framed .empty (.raw 0 2 1) ∧
    ∃ q' q'', ClockCall.execAll [.raw 0 2 1] .empty = .ok q' ∧
      ClockCall.execAll [.raw 0 0 1] q' = .ok q'' ∧ q''.count = 2 ∧ (q''.bitAt 1).2 = true := by
  constructor
  · rw [ClockCall.framed_iff Queue.wf_empty]
    rintro ⟨-, hlen | hmod | hclear⟩
    · exact absurd hlen (by decide)
    · exact absurd hmod (by decide)
    · exact absurd (hclear 2 (.tail _ (.head _)) 1 (by decide) (by decide)) (by decide)
  · obtain ⟨q', hok, hcount, -, htdi⟩ := ClockCall.exec_spreads (.raw 0 2 1) (q := .empty)
      (by decide +kernel)
    have hone : q'.count = 1 := hcount
    obtain ⟨q'', hok', hcount', -, htdi'⟩ := ClockCall.exec_spreads (.raw 0 0 1) (q := q')
      (by rw [hone]; decide +kernel)
    have hset : q'.tdiData.bit 1 = true :=
      (htdi 1).mpr (Or.inr ⟨0, by decide, by decide, by decide, by decide⟩)
    refine ⟨q', q'', ?_, ?_, ?_, (htdi' 1).mpr (Or.inl hset)⟩
    · rw [ClockCall.execAll_singleton, hok]
    · rw [ClockCall.execAll_singleton, hok']
    · rw [hcount', hone]
      rfl

end JtagHw
