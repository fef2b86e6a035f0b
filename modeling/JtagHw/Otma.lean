import JtagHw.Mpsse.Flush
import JtagHw.Plugin.Contract

/-!
# The hardware plugin

`src/jtag_hw_otma.cpp`: the plugin whose device is an FT232H behind the MPSSE layer.
Its `do_flush` (`JtagHw.Otma.transmit`) hands the queued bits one by one to
`mpsse_clock_tms_cs` and flushes the layer at the end; what that flush returns is
written to the debugging socket and otherwise ignored.

What a flush does to the device does not depend on what the device is. The list of
the queued pairs falls into *segments* of `JtagHw.flushBits` pairs, the last one shorter
(`JtagHw.Otma.segment`); each but the last is sent by the flush that the layer makes
itself, when the first pair of the next segment finds no room, and the last one by
the flush at the end. So the device goes through one state a segment
(`JtagHw.Otma.devAt`), as long as the exchanges come through
(`JtagHw.Otma.Through`), and there are four things that can happen:

* all exchanges come through, and the answers are in `tdo_data`
  (`JtagHw.Otma.transmit_through`);
* only the last one does not: the loop ends the same, with the answers of the last
  segment missing (`JtagHw.Otma.transmit_last_fails`);
* an earlier one does not: the command queued after it is never sent, and the flush at
  the end is aborted (`JtagHw.Otma.transmit_aborts`);
* the first one that does not come through has no end, and the flush neither
  (`JtagHw.Otma.transmit_hangs`).
-/

namespace JtagHw

open PackedBits CountedLoop

/-- An access through the pointer to a structure. -/
def deref {α : Type*} : Option α → Except Fault α
  | some a => .ok a
  | none => .error .nullContext

namespace Otma

/-- `NEG_EDGE_OUT`. -/
def negEdgeOut : Byte := 0x01

/-- `POS_EDGE_IN`. -/
def posEdgeIn : Byte := 0x00

/-- `LSB_FIRST`. -/
def lsbFirst : Byte := 0x08

/-- `#define JTAG_MODE (LSB_FIRST | POS_EDGE_IN | NEG_EDGE_OUT)`. -/
def jtagMode : Byte := lsbFirst ||| posEdgeIn ||| negEdgeOut

theorem jtagMode_eq : jtagMode = 0x09 := by decide

variable {δ : Type}

/-- The globals of the hardware plugin; the device is `ctx`. -/
abbrev State (δ : Type) := Plugin (Option (MpsseCtx δ))

/-- The body of the loop of `do_flush`; `tms_bit` is computed and not used, the bit being
handed over by its place in `tms_data`. -/
def clockBit (L : UsbLink δ) (q : Queue) (i : BitVec 32)
    (t : Transmitted (Option (MpsseCtx δ))) :
    Except Fault (Transmitted (Option (MpsseCtx δ))) := do
  let tdiByte ← access (q.tdiData.load? (i.toNat / 8))
  let tdi := (tdiByte >>> (i.toNat % 8)) &&& 1#8
  let tmsByte ← access (q.tmsData.load? (i.toNat / 8))
  let tmsBit := (tmsByte >>> (i.toNat % 8)) &&& 1#8
  let ctx ← deref t.dev
  let (ctx', tdoData) ← mpsseClockTmsCs L q.tmsData i.toNat true i.toNat 1 (tdi ≠ 0) jtagMode ctx
    t.tdoData
  return ⟨tdoData, t.tdoDataCount + 1, some ctx',
    t.clocked ++ [(decide (tmsBit ≠ 0), decide (tdi ≠ 0))]⟩

/-- The loop of `do_flush`, and the `mpsse_flush` after it. -/
def transmit (L : UsbLink δ) (s : State δ) : Except Fault (Transmitted (Option (MpsseCtx δ))) := do
  let t ← forLoop .diverges s.queue.count (clockBit L s.queue)
    ⟨s.tdoData, s.tdoDataCount, s.dev, []⟩
  let ctx ← deref t.dev
  let (_, ctx', tdoData) ← mpsseFlush L ctx t.tdoData
  return { t with tdoData := tdoData, dev := some ctx' }

/-- `int64_t do_flush(void *, int, uint32_t)`. -/
abbrev doFlush (L : UsbLink δ) (re : Reentry) (s : State δ) : Except Fault (State δ × Out) :=
  Plugin.doFlush (transmit L) re s

/-- One call of the host. -/
abbrev step (L : UsbLink δ) (s : State δ) (call : HostCall) : Except Fault (State δ × Out) :=
  Plugin.step (transmit L) s call

/-- A sequence of calls. -/
abbrev run (L : UsbLink δ) (s : State δ) (calls : List HostCall) :
    Except Fault (State δ × List Out) :=
  Plugin.run (transmit L) s calls

/-! ### Segments -/

section Segments

variable (l : List (Bool × Bool))

/-- The pairs that flush number `j` sends. -/
def segment (j : ℕ) : List (Bool × Bool) := (l.drop (flushBits * j)).take flushBits

theorem segment_eq_drop_take (j : ℕ) :
    segment l j = (l.take (flushBits * (j + 1))).drop (flushBits * j) := by
  rw [segment, List.drop_take, Nat.mul_succ, Nat.add_sub_cancel_left]

theorem segment_ne_nil {j : ℕ} (h : flushBits * j < l.length) : segment l j ≠ [] := by
  rw [ne_eq, ← List.length_eq_zero_iff, segment, List.length_take, List.length_drop, flushBits_eq]
  rw [flushBits_eq] at h
  omega

/-- The last segment is what is left. -/
theorem segment_last {j : ℕ} (h : l.length ≤ flushBits * (j + 1)) :
    segment l j = l.drop (flushBits * j) := by
  rw [segment, List.take_of_length_le]
  rw [List.length_drop]
  rw [Nat.mul_succ] at h
  omega

variable (L : UsbLink δ) (packetSize : ℕ) (d : δ)

/-- The state of the device before exchange number `j`, if the ones before it come
through. -/
def devAt : ℕ → δ
  | 0 => d
  | j + 1 => L.after (devAt j) (segment l j)

/-- Exchange number `j` comes through. -/
def Through (j : ℕ) : Prop := L.Sends packetSize (devAt l L d j) (segment l j)

instance (j : ℕ) : Decidable (Through l L packetSize d j) :=
  inferInstanceAs (Decidable (L.Sends ..))

/-- Exchange number `j` is made, and has no end. -/
structure Hangs (j : ℕ) : Prop where
  lt : flushBits * j < l.length
  through : ∀ i < j, Through l L packetSize d i
  hangs : L.Hangs packetSize (devAt l L d j) (segment l j)

variable {l L packetSize d} in
/-- It does not come through then. -/
theorem Hangs.not_through {j : ℕ} (h : Hangs l L packetSize d j) :
    ¬ Through l L packetSize d j :=
  h.hangs.not_completes

/-- **Every exchange that is made has an end.** -/
def Answered : Prop := ∀ j, ¬ Hangs l L packetSize d j

variable {l L packetSize d} in
/-- Where all exchanges come through, they have an end. -/
theorem answered_of_through
    (hall : ∀ j, flushBits * j < l.length → Through l L packetSize d j) :
    Answered l L packetSize d :=
  fun j hj => hj.not_through (hall j hj.lt)

/-- The answer to the pair at position `p`: bit `7` of its byte, in the exchange that sends
it. -/
def answerAt (p : ℕ) : Bool :=
  ((L.received packetSize (devAt l L d (p / flushBits)) (segment l (p / flushBits))).getD
    (p % flushBits) 0).getLsbD 7

end Segments

/-! ### The loop -/

section Loop

variable (L : UsbLink δ) (ps : ℕ) (d : δ) (tdo₀ : Buf dataSizeBytes) (l : List (Bool × Bool))

/-- **The loop after `k` pairs**, with `a` exchanges behind it that have all come through:
the pairs since are held, and the answers of the `a` segments are in. -/
structure Running (k a : ℕ) (c : MpsseCtx δ) (tdo : Buf dataSizeBytes) : Prop where
  through : ∀ j < a, Through l L ps d j
  le : flushBits * a ≤ k
  le_succ : k ≤ flushBits * (a + 1)
  lt : 0 < a → flushBits * a < k
  holds : c.Holds (flushBits * a) ((l.take k).drop (flushBits * a))
  retval : c.retval = errorOk
  usb : c.usb = devAt l L d a
  maxPacketSize : c.maxPacketSize = ps
  tdo : ∀ p, tdo.bit p = if p < flushBits * a then answerAt l L ps d p else tdo₀.bit p

/-- **The loop after `k` pairs, one of its exchanges having failed**: the pair that was
queued right after it is held, with the error noted. -/
structure Stuck (k : ℕ) (c : MpsseCtx δ) : Prop where
  failed : ∃ j, flushBits * (j + 1) < k ∧ ¬ Through l L ps d j
  holds : ∃ i b, c.Holds i [b]
  retval : c.retval = errorFail

variable {L ps d tdo₀ l}

/-- The length of what is held. -/
theorem length_held {k a : ℕ} (hk : k ≤ l.length) :
    ((l.take k).drop (flushBits * a)).length = k - flushBits * a := by
  rw [List.length_drop, List.length_take, Nat.min_eq_left hk]

/-- One pair more is held. -/
theorem held_succ {k a : ℕ} {b : Bool × Bool} (hb : l[k]? = some b) (hle : flushBits * a ≤ k) :
    (l.take (k + 1)).drop (flushBits * a) = (l.take k).drop (flushBits * a) ++ [b] := by
  have hk : k < l.length := (List.getElem?_eq_some_iff.mp hb).1
  rw [List.take_add_one, hb, Option.toList_some, List.drop_append_of_le_length]
  rw [List.length_take]
  omega

/-- The answers of one more segment. -/
theorem answerAt_segment {a p : ℕ} (hle : flushBits * a ≤ p) (hlt : p < flushBits * (a + 1)) :
    answerAt l L ps d p =
      ((L.received ps (devAt l L d a) (segment l a)).getD (p - flushBits * a) 0).getLsbD 7 := by
  rw [flushBits_eq] at hle hlt
  have hdiv : p / flushBits = a := by
    rw [flushBits_eq]
    omega
  have hmod : p % flushBits = p - flushBits * a := by
    rw [flushBits_eq]
    omega
  rw [answerAt, hdiv, hmod]

/-- What is held, as a position: the loop has come from `flushBits * a` to `k`. -/
theorem Running.held {k a : ℕ} {c : MpsseCtx δ} {tdo : Buf dataSizeBytes}
    (h : Running L ps d tdo₀ l k a c tdo) (hk : k ≤ l.length) :
    flushBits * a + ((l.take k).drop (flushBits * a)).length = k := by
  have hle := h.le
  rw [length_held hk]
  omega

/-- **An iteration that finds room**: the pair is held. -/
theorem Running.step_room {q : Queue} {k a : ℕ} {c : MpsseCtx δ} {tdo : Buf dataSizeBytes}
    (h : Running L ps d tdo₀ q.bits k a c tdo) (hk : k < q.count) (hcap : q.count ≤ capacity)
    (hroom : ((q.bits.take k).drop (flushBits * a)).length < flushBits) :
    ∃ c', mpsseClockTmsCs L q.tmsData k true k 1 (q.bitAt k).2 0x09 c tdo = .ok (c', tdo) ∧
      Running L ps d tdo₀ q.bits (k + 1) a c' tdo := by
  have hb := q.getElem?_bits hk
  have hoff : k < 8 * dataSizeBytes := lt_of_lt_of_le hk hcap
  have hle := h.le
  have hpos := h.held (by rw [Queue.length_bits]; exact hk.le)
  obtain ⟨c', hok, hholds, hkeeps⟩ := clockTms_room (L := L) q.tmsData (q.bitAt k).2 h.holds
    h.retval hroom (by rwa [hpos]) tdo
  rw [hpos] at hok hholds
  refine ⟨c', hok, ?_⟩
  exact
    { through := h.through
      le := by omega
      le_succ := by
        rw [Nat.mul_succ]
        omega
      lt := fun ha => Nat.lt_succ_of_lt (h.lt ha)
      holds := by
        rw [held_succ hb hle]
        exact hholds
      retval := hkeeps.retval.trans h.retval
      usb := hkeeps.usb.trans h.usb
      maxPacketSize := hkeeps.maxPacketSize.trans h.maxPacketSize
      tdo := h.tdo }

/-- **An iteration that finds none**: a segment is full, and is sent first. If that comes
through, the pair is the first one of the next segment; if not, the loop is stuck. -/
theorem Running.step_full {q : Queue} {k a : ℕ} {c : MpsseCtx δ} {tdo : Buf dataSizeBytes}
    (h : Running L ps d tdo₀ q.bits k a c tdo) (hk : k < q.count) (hcap : q.count ≤ capacity)
    (hfull : ((q.bits.take k).drop (flushBits * a)).length = flushBits)
    (hh : ¬ Hangs q.bits L ps d a) :
    ∃ c' tdo', mpsseClockTmsCs L q.tmsData k true k 1 (q.bitAt k).2 0x09 c tdo = .ok (c', tdo') ∧
      (Running L ps d tdo₀ q.bits (k + 1) (a + 1) c' tdo' ∨ Stuck L ps d q.bits (k + 1) c') := by
  have hb := q.getElem?_bits hk
  have hoff : k < 8 * dataSizeBytes := lt_of_lt_of_le hk hcap
  have hpos := h.held (by rw [Queue.length_bits]; exact hk.le)
  have hk' : k = flushBits * (a + 1) := by
    rw [Nat.mul_succ]
    omega
  have hseg : (q.bits.take k).drop (flushBits * a) = segment q.bits a := by
    rw [segment_eq_drop_take, ← hk']
  have hends : ¬ L.Hangs c.maxPacketSize c.usb ((q.bits.take k).drop (flushBits * a)) := by
    rw [hseg, h.usb, h.maxPacketSize]
    refine fun hhangs => hh ⟨?_, h.through, hhangs⟩
    have hle := h.le
    rw [Queue.length_bits]
    omega
  obtain ⟨c', tdo', hok, hholds, hps, hcase⟩ := clockTms_full (L := L) q.tmsData (q.bitAt k).2
    h.holds h.retval hfull (by rwa [hpos]) tdo (by rw [hpos]; exact hoff.le) hends
  rw [hpos] at hok hholds hcase
  rw [hseg, h.usb, h.maxPacketSize] at hcase
  refine ⟨c', tdo', hok, ?_⟩
  by_cases hthrough : Through q.bits L ps d a
  · obtain ⟨hret, husb, hbit⟩ := (if_pos hthrough).mp hcase
    left
    exact
      { through := fun j hj => by
          rcases Nat.lt_succ_iff_lt_or_eq.mp hj with hj | rfl
          · exact h.through j hj
          · exact hthrough
        le := by omega
        le_succ := by
          rw [Nat.mul_succ, ← hk', flushBits_eq]
          omega
        lt := fun _ => by omega
        holds := by
          rw [held_succ hb hk'.ge, ← hk', List.drop_eq_nil_of_le (by simp)]
          exact hholds
        retval := hret
        usb := husb
        maxPacketSize := hps.trans h.maxPacketSize
        tdo := fun p => by
          -- before the segment, within it, and past it
          rw [hbit p, h.tdo p, ← hk']
          by_cases hlt : p < flushBits * a
          · rw [if_neg (by omega), if_pos hlt, if_pos (by omega)]
          · by_cases hpk : p < k
            · rw [if_pos ⟨by omega, hpk⟩, if_pos hpk, answerAt_segment (by omega) (hk' ▸ hpk)]
            · rw [if_neg (by omega), if_neg hlt, if_neg hpk] }
  · right
    exact ⟨⟨a, by omega, hthrough⟩, ⟨k, _, hholds⟩, (if_neg hthrough).mp hcase⟩

/-- **One iteration of the running loop**: the pair is held, after a flush if there was no
room; or that flush fails, and the loop is stuck. -/
theorem Running.step {q : Queue} {k a : ℕ} {c : MpsseCtx δ} {tdo : Buf dataSizeBytes}
    (h : Running L ps d tdo₀ q.bits k a c tdo) (hk : k < q.count) (hcap : q.count ≤ capacity)
    (hh : flushBits * (a + 1) = k → ¬ Hangs q.bits L ps d a) :
    ∃ c' tdo', mpsseClockTmsCs L q.tmsData k true k 1 (q.bitAt k).2 0x09 c tdo = .ok (c', tdo') ∧
      ((∃ a', Running L ps d tdo₀ q.bits (k + 1) a' c' tdo') ∨
        Stuck L ps d q.bits (k + 1) c') := by
  rcases lt_or_eq_of_le h.holds.length_le with hroom | hfull
  · obtain ⟨c', hok, hrun⟩ := h.step_room hk hcap hroom
    exact ⟨c', tdo, hok, Or.inl ⟨a, hrun⟩⟩
  · have hpos := h.held (by rw [Queue.length_bits]; exact hk.le)
    have hk' : flushBits * (a + 1) = k := by
      rw [Nat.mul_succ]
      omega
    obtain ⟨c', tdo', hok, hrun | hstuck⟩ := h.step_full hk hcap hfull (hh hk')
    · exact ⟨c', tdo', hok, Or.inl ⟨a + 1, hrun⟩⟩
    · exact ⟨c', tdo', hok, Or.inr hstuck⟩

/-- One iteration of the stuck loop: the pair is ignored. -/
theorem Stuck.step {q : Queue} {k : ℕ} {c : MpsseCtx δ} (h : Stuck L ps d q.bits k c)
    (tdo : Buf dataSizeBytes) :
    mpsseClockTmsCs L q.tmsData k true k 1 (q.bitAt k).2 0x09 c tdo = .ok (c, tdo) ∧
      Stuck L ps d q.bits (k + 1) c := by
  refine ⟨clockTms_ignored _ _ _ (by rw [h.retval]; exact errorFail_ne) _, ?_, h.holds, h.retval⟩
  obtain ⟨j, hlt, hj⟩ := h.failed
  exact ⟨j, Nat.lt_succ_of_lt hlt, hj⟩

/-- The iteration of the plugin around the call. -/
theorem clockBit_eq {q : Queue} {k : ℕ} (hk : k < capacity)
    {t : Transmitted (Option (MpsseCtx δ))} {c : MpsseCtx δ} (hdev : t.dev = some c) :
    clockBit L q (BitVec.ofNat 32 k) t =
      (mpsseClockTmsCs L q.tmsData k true k 1 (q.bitAt k).2 0x09 c t.tdoData).map fun r =>
        ⟨r.2, t.tdoDataCount + 1, some r.1, t.clocked ++ [q.bitAt k]⟩ := by
  have hbyte : k / 8 < dataSizeBytes := by
    rw [capacity] at hk
    omega
  have hk32 : (BitVec.ofNat 32 k).toNat = k := by
    rw [capacity_eq] at hk
    rw [BitVec.toNat_ofNat, Nat.mod_eq_of_lt (by omega)]
  have htms := q.tmsData.load?_of_lt hbyte
  have htdi := q.tdiData.load?_of_lt hbyte
  rw [clockBit, hk32, htms, htdi, hdev]
  simp only [access, deref, bind, Except.bind, shiftRight_and_one, ← Buf.bit_of_load? htms,
    ← Buf.bit_of_load? htdi, ne_zero_of_bit, jtagMode_eq, Queue.bitAt]
  cases mpsseClockTmsCs L q.tmsData k true k 1 (q.tdiData.bit k) 0x09 c t.tdoData <;> rfl

theorem clockBit_ok {q : Queue} {k : ℕ} (hk : k < capacity)
    {t : Transmitted (Option (MpsseCtx δ))} {c c' : MpsseCtx δ} {tdo' : Buf dataSizeBytes}
    (hdev : t.dev = some c)
    (hok : mpsseClockTmsCs L q.tmsData k true k 1 (q.bitAt k).2 0x09 c t.tdoData =
      .ok (c', tdo')) :
    clockBit L q (BitVec.ofNat 32 k) t =
      .ok ⟨tdo', t.tdoDataCount + 1, some c', t.clocked ++ [q.bitAt k]⟩ := by
  rw [clockBit_eq hk hdev, hok]
  rfl

/-- It stops where the call does. -/
theorem clockBit_error {q : Queue} {k : ℕ} (hk : k < capacity)
    {t : Transmitted (Option (MpsseCtx δ))} {c : MpsseCtx δ} {e : Fault} (hdev : t.dev = some c)
    (herr : mpsseClockTmsCs L q.tmsData k true k 1 (q.bitAt k).2 0x09 c t.tdoData = .error e) :
    clockBit L q (BitVec.ofNat 32 k) t = .error e := by
  rw [clockBit_eq hk hdev, herr]
  rfl

variable (L) in
/-- The invariant of the loop of a flush that started in the state `s`, with the context
`c₀`: after `k` iterations as many pairs are counted, and it is running or stuck. -/
def LoopInv (s : State δ) (c₀ : MpsseCtx δ) (k : ℕ) (t : Transmitted (Option (MpsseCtx δ))) :
    Prop :=
  ∃ c, t.dev = some c ∧ t.clocked = s.queue.bits.take k ∧
    t.tdoDataCount = s.tdoDataCount + BitVec.ofNat 32 k ∧
    ((∃ a, Running L c₀.maxPacketSize c₀.usb s.tdoData s.queue.bits k a c t.tdoData) ∨
      Stuck L c₀.maxPacketSize c₀.usb s.queue.bits k c)

theorem loopInv_step {s : State δ} {c₀ : MpsseCtx δ} {k : ℕ} (hk : k < s.queue.count)
    (hcap : s.queue.count ≤ capacity)
    (hh : ∀ a, flushBits * (a + 1) = k →
      ¬ Hangs s.queue.bits L c₀.maxPacketSize c₀.usb a)
    (t : Transmitted (Option (MpsseCtx δ))) (h : LoopInv L s c₀ k t) :
    ∃ t', clockBit L s.queue (BitVec.ofNat 32 k) t = .ok t' ∧ LoopInv L s c₀ (k + 1) t' := by
  obtain ⟨c, hdev, hclocked, hcount, hcase⟩ := h
  have hcall : ∃ c' tdo', mpsseClockTmsCs L s.queue.tmsData k true k 1 (s.queue.bitAt k).2 0x09 c
      t.tdoData = .ok (c', tdo') ∧
      ((∃ a, Running L c₀.maxPacketSize c₀.usb s.tdoData s.queue.bits (k + 1) a c' tdo') ∨
        Stuck L c₀.maxPacketSize c₀.usb s.queue.bits (k + 1) c') := by
    rcases hcase with ⟨a, hrun⟩ | hstuck
    · exact hrun.step hk hcap (hh a)
    · obtain ⟨hok, hstuck'⟩ := hstuck.step t.tdoData
      exact ⟨c, t.tdoData, hok, Or.inr hstuck'⟩
  obtain ⟨c', tdo', hok, hcase'⟩ := hcall
  exact ⟨_, clockBit_ok (lt_of_lt_of_le hk hcap) hdev hok, c', rfl,
    by rw [hclocked, Queue.take_bits_succ _ hk], by rw [hcount, Queue.count_succ], hcase'⟩

/-- To begin with it is running. -/
theorem loopInv_start {s : State δ} {c₀ : MpsseCtx δ} (hctx : s.dev = some c₀)
    (hidle : c₀.Idle) : LoopInv L s c₀ 0 ⟨s.tdoData, s.tdoDataCount, s.dev, []⟩ := by
  have hstart : Running L c₀.maxPacketSize c₀.usb s.tdoData s.queue.bits 0 0 c₀ s.tdoData :=
    { through := fun j hj => absurd hj (Nat.not_lt_zero j)
      le := le_rfl
      le_succ := Nat.zero_le _
      lt := fun h => absurd h (lt_irrefl 0)
      holds := hidle.holds 0
      retval := hidle.retval
      usb := rfl
      maxPacketSize := rfl
      tdo := fun p => (if_neg (Nat.not_lt_zero p)).symm }
  exact ⟨c₀, hctx, rfl, by simp, Or.inl ⟨0, hstart⟩⟩

/-- **The loop of a flush** from an idle context ends, running or stuck, if none of its
exchanges has no end; either way it has counted all the pairs. -/
theorem loop_ok {s : State δ} {c₀ : MpsseCtx δ} (hctx : s.dev = some c₀) (hidle : c₀.Idle)
    (hcap : s.queue.count ≤ capacity)
    (hh : ∀ a, flushBits * (a + 1) < s.queue.count →
      ¬ Hangs s.queue.bits L c₀.maxPacketSize c₀.usb a) :
    ∃ t, forLoop .diverges s.queue.count (clockBit L s.queue)
        ⟨s.tdoData, s.tdoDataCount, s.dev, []⟩ = .ok t ∧ LoopInv L s c₀ s.queue.count t :=
  forLoop_rule (I := LoopInv L s c₀) (show s.queue.count < 2 ^ 32 from s.queue.tdiDataCount.isLt)
    (loopInv_start hctx hidle) fun _ hk t h =>
      loopInv_step hk hcap (fun a ha => hh a (ha.trans_lt hk)) t h

/-- **It hangs** if one of its exchanges has no end. -/
theorem loop_hangs {s : State δ} {c₀ : MpsseCtx δ} (hctx : s.dev = some c₀) (hidle : c₀.Idle)
    (hcap : s.queue.count ≤ capacity) {j : ℕ} (hj : flushBits * (j + 1) < s.queue.count)
    (hh : Hangs s.queue.bits L c₀.maxPacketSize c₀.usb j) :
    forLoop .diverges s.queue.count (clockBit L s.queue)
        ⟨s.tdoData, s.tdoDataCount, s.dev, []⟩ = .error .unanswered := by
  refine forLoop_error (I := LoopInv L s c₀) hj (hj.trans s.queue.tdiDataCount.isLt)
    (loopInv_start hctx hidle) (fun _ hk t h => ?_) fun t h => ?_
  · refine loopInv_step (hk.trans hj) hcap (fun a ha hhangs => ?_) t h
    -- the exchanges before it come through
    exact hhangs.not_through (hh.through a (by
      rw [flushBits_eq] at ha hk
      omega))
  · obtain ⟨c, hdev, -, -, ⟨a, hrun⟩ | hstuck⟩ := h
    · have hpos := hrun.held (by rw [Queue.length_bits]; exact hj.le)
      -- the segment is full
      obtain rfl : a = j := by
        have hle := hrun.le
        have hsucc := hrun.le_succ
        have hlt := hrun.lt
        rw [flushBits_eq] at hle hsucc hlt
        omega
      have hseg : (s.queue.bits.take (flushBits * (a + 1))).drop (flushBits * a) =
          segment s.queue.bits a := (segment_eq_drop_take ..).symm
      have hfull : (segment s.queue.bits a).length = flushBits := by
        rw [hseg, Nat.mul_succ] at hpos
        omega
      have hholds := hrun.holds
      rw [hseg] at hholds hpos
      refine clockBit_error (lt_of_lt_of_le hj hcap) hdev ?_
      have hcall := clockTms_hangs (L := L) s.queue.tmsData
        (s.queue.bitAt (flushBits * (a + 1))).2 hholds hrun.retval hfull t.tdoData (by
          rw [hrun.maxPacketSize, hrun.usb]
          exact hh.hangs)
      rwa [hpos] at hcall
    · obtain ⟨i, hi, hfail⟩ := hstuck.failed
      exact absurd (hh.through i (by
        rw [flushBits_eq] at hi
        omega)) hfail

/-! ### The flush at the end -/

/-- The number of exchanges that a queue of `n` pairs takes. -/
def exchanges (n : ℕ) : ℕ := (n + (flushBits - 1)) / flushBits

theorem exchanges_eq {n a : ℕ} (hlt : flushBits * a < n) (hle : n ≤ flushBits * (a + 1)) :
    exchanges n = a + 1 := by
  rw [flushBits_eq] at hlt hle
  rw [exchanges, flushBits_eq]
  omega

/-- What the running loop leaves for the flush at the end: nothing if there was nothing to
clock, and the last segment otherwise. -/
theorem Running.last {a : ℕ} {c : MpsseCtx δ} {tdo : Buf dataSizeBytes}
    (h : Running L ps d tdo₀ l l.length a c tdo) (hpos : 0 < l.length) :
    flushBits * a < l.length ∧ exchanges l.length = a + 1 ∧
      c.Holds (flushBits * a) (segment l a) := by
  have hlt : flushBits * a < l.length := by
    rcases Nat.eq_zero_or_pos a with rfl | ha
    · exact hpos
    · exact h.lt ha
  have hholds := h.holds
  rw [List.take_length, ← segment_last l h.le_succ] at hholds
  exact ⟨hlt, exchanges_eq hlt h.le_succ, hholds⟩

theorem length_segment_last {a : ℕ} (hlt : flushBits * a < l.length)
    (hle : l.length ≤ flushBits * (a + 1)) :
    flushBits * a + (segment l a).length = l.length := by
  rw [segment_last l hle, List.length_drop]
  omega

section Results

variable {s : State δ} {c₀ : MpsseCtx δ}

/-- The loop, then the flush. -/
theorem transmit_eq {t : Transmitted (Option (MpsseCtx δ))} {c : MpsseCtx δ}
    (hloop : forLoop .diverges s.queue.count (clockBit L s.queue)
      ⟨s.tdoData, s.tdoDataCount, s.dev, []⟩ = .ok t) (hdev : t.dev = some c) :
    transmit L s =
      match mpsseFlush L c t.tdoData with
      | .ok (_, c', tdo) => .ok { t with tdoData := tdo, dev := some c' }
      | .error e => .error e := by
  rw [transmit, hloop]
  simp only [bind, Except.bind, hdev, deref]
  cases mpsseFlush L c t.tdoData <;> rfl

/-- **All exchanges come through**: the context is idle again, the device has gone through
all the exchanges, and the answers are in `tdo_data`. -/
theorem transmit_through (hctx : s.dev = some c₀) (hidle : c₀.Idle)
    (hcap : s.queue.count ≤ capacity)
    (hall : ∀ j, flushBits * j < s.queue.count →
      Through s.queue.bits L c₀.maxPacketSize c₀.usb j) :
    ∃ t c, transmit L s = .ok t ∧ t.dev = some c ∧ t.clocked = s.queue.bits ∧
      t.tdoDataCount = s.tdoDataCount + s.queue.tdiDataCount ∧ c.Idle ∧
      c.maxPacketSize = c₀.maxPacketSize ∧
      c.usb = devAt s.queue.bits L c₀.usb (exchanges s.queue.count) ∧
      ∀ p, t.tdoData.bit p = if p < s.queue.count then
        answerAt s.queue.bits L c₀.maxPacketSize c₀.usb p else s.tdoData.bit p := by
  obtain ⟨t, hloop, c, hdev, hclocked, hcount, hcase⟩ := loop_ok (L := L) hctx hidle hcap
    fun a ha hhangs => hhangs.not_through (hall a (by
      rw [flushBits_eq] at ha ⊢
      omega))
  rw [Queue.take_bits_count] at hclocked
  rw [Queue.ofNat_count] at hcount
  rw [transmit_eq hloop hdev]
  rw [← Queue.length_bits] at hall hcase ⊢
  rcases hcase with ⟨a, hrun⟩ | hstuck
  · rcases Nat.eq_zero_or_pos s.queue.bits.length with hnil | hpos
    · -- nothing was queued
      have ha : a = 0 := by
        have hle := hrun.le
        rw [hnil, flushBits_eq] at hle
        omega
      subst ha
      have hholds := hrun.holds
      rw [hnil, List.take_zero] at hholds
      have hidle' : c.Idle := MpsseCtx.Holds.idle hholds hrun.retval
      refine ⟨{ t with dev := some c }, c, by rw [mpsseFlush_idle hidle'], rfl, hclocked, hcount,
        hidle', hrun.maxPacketSize, ?_, fun p => ?_⟩
      · rw [hnil]
        exact hrun.usb
      · rw [hnil, if_neg (Nat.not_lt_zero p)]
        exact (hrun.tdo p).trans (if_neg (Nat.not_lt_zero p))
    · obtain ⟨hlt, hex, hholds⟩ := hrun.last hpos
      have hseg := length_segment_last hlt hrun.le_succ
      have hthrough : L.Sends c.maxPacketSize c.usb (segment s.queue.bits a) := by
        rw [hrun.maxPacketSize, hrun.usb]
        exact hall a hlt
      obtain ⟨c', tdo', hok, hidle', husb, hps, hbit⟩ := mpsseFlush_completes hholds
        (segment_ne_nil _ hlt) hrun.retval t.tdoData
        (by rw [hseg, Queue.length_bits]; exact hcap) hthrough
      refine ⟨{ t with tdoData := tdo', dev := some c' }, c', by rw [hok], rfl, hclocked, hcount,
        hidle', hps.trans hrun.maxPacketSize, ?_, fun p => ?_⟩
      · rw [husb, hrun.usb, hex, devAt]
      · rw [hseg, hrun.maxPacketSize, hrun.usb] at hbit
        simp only
        rw [hbit p, hrun.tdo p]
        by_cases hpa : p < flushBits * a
        · rw [if_neg (by omega), if_pos hpa, if_pos (by omega)]
        · by_cases hpn : p < s.queue.bits.length
          · rw [if_pos ⟨by omega, hpn⟩, if_pos hpn,
              answerAt_segment (by omega) (lt_of_lt_of_le hpn hrun.le_succ)]
          · rw [if_neg (by omega), if_neg hpa, if_neg hpn]
  · obtain ⟨j, hlt, hj⟩ := hstuck.failed
    exact absurd (hall j (lt_of_le_of_lt (Nat.mul_le_mul_left _ (Nat.le_succ j)) hlt)) hj

/-- **Only the last exchange does not come through**: the loop ends all the same, with all
the pairs counted and the answers to the last segment missing. -/
theorem transmit_last_fails (hctx : s.dev = some c₀) (hidle : c₀.Idle)
    (hcap : s.queue.count ≤ capacity)
    (hauto : ∀ j, flushBits * (j + 1) < s.queue.count →
      Through s.queue.bits L c₀.maxPacketSize c₀.usb j)
    (hlast : ∃ j, flushBits * j < s.queue.count ∧
      ¬ Through s.queue.bits L c₀.maxPacketSize c₀.usb j)
    (hans : Answered s.queue.bits L c₀.maxPacketSize c₀.usb) :
    ∃ t c, transmit L s = .ok t ∧ t.dev = some c ∧ t.clocked = s.queue.bits ∧
      t.tdoDataCount = s.tdoDataCount + s.queue.tdiDataCount ∧ c.Idle ∧
      c.maxPacketSize = c₀.maxPacketSize ∧
      c.usb = L.purged (devAt s.queue.bits L c₀.usb (exchanges s.queue.count)) ∧
      ∀ p, t.tdoData.bit p = if p < flushBits * (exchanges s.queue.count - 1) then
        answerAt s.queue.bits L c₀.maxPacketSize c₀.usb p else s.tdoData.bit p := by
  obtain ⟨t, hloop, c, hdev, hclocked, hcount, hcase⟩ := loop_ok (L := L) hctx hidle hcap
    fun a _ => hans a
  obtain ⟨j, hj, hfail⟩ := hlast
  rw [Queue.take_bits_count] at hclocked
  rw [Queue.ofNat_count] at hcount
  rw [transmit_eq hloop hdev]
  rw [← Queue.length_bits] at hauto hj hcase ⊢
  rcases hcase with ⟨a, hrun⟩ | hstuck
  · obtain ⟨hlt, hex, hholds⟩ := hrun.last (by omega)
    -- the exchanges that the loop has made all came through
    have hja : j = a := by
      by_contra hne
      have hle := hrun.le_succ
      rcases Nat.lt_or_gt_of_ne hne with hja | hja
      · exact hfail (hrun.through j hja)
      · have hmul : flushBits * (a + 1) ≤ flushBits * j := Nat.mul_le_mul_left _ hja
        omega
    subst hja
    have hthrough : ¬ L.Sends c.maxPacketSize c.usb (segment s.queue.bits j) := by
      rw [hrun.maxPacketSize, hrun.usb]
      exact hfail
    have hends : ¬ L.Hangs c.maxPacketSize c.usb (segment s.queue.bits j) := by
      rw [hrun.maxPacketSize, hrun.usb]
      exact fun hhangs => hans j ⟨hlt, hrun.through, hhangs⟩
    obtain ⟨c', hok, hidle', husb, hps⟩ := mpsseFlush_fails (L := L) hholds (segment_ne_nil _ hlt)
      hrun.retval t.tdoData hthrough hends
    refine ⟨{ t with dev := some c' }, c', by rw [hok], rfl, hclocked, hcount, hidle',
      hps.trans hrun.maxPacketSize, ?_, fun p => ?_⟩
    · rw [husb, hrun.usb, hex, devAt]
    · rw [hex, Nat.add_sub_cancel]
      exact hrun.tdo p
  · obtain ⟨i, hi, hi'⟩ := hstuck.failed
    exact absurd (hauto i hi) hi'

/-- **An earlier exchange does not come through**: the flush at the end is aborted. -/
theorem transmit_aborts (hctx : s.dev = some c₀) (hidle : c₀.Idle)
    (hcap : s.queue.count ≤ capacity)
    (hfail : ∃ j, flushBits * (j + 1) < s.queue.count ∧
      ¬ Through s.queue.bits L c₀.maxPacketSize c₀.usb j)
    (hans : Answered s.queue.bits L c₀.maxPacketSize c₀.usb) :
    transmit L s = .error .assertion := by
  obtain ⟨t, hloop, c, hdev, -, -, hcase⟩ := loop_ok (L := L) hctx hidle hcap fun a _ => hans a
  obtain ⟨j, hj, hfail⟩ := hfail
  rw [transmit_eq hloop hdev]
  rcases hcase with ⟨a, hrun⟩ | hstuck
  · have hja : j < a := by
      by_contra hge
      have hmul : flushBits * (a + 1) ≤ flushBits * (j + 1) :=
        Nat.mul_le_mul_left _ (by omega)
      have hle := hrun.le_succ
      omega
    exact absurd (hrun.through j hja) hfail
  · obtain ⟨i, b, hholds⟩ := hstuck.holds
    rw [mpsseFlush_stuck hholds (List.cons_ne_nil _ _) (by rw [hstuck.retval]; exact errorFail_ne)]

/-- **An exchange has no end**: the flush neither. -/
theorem transmit_hangs (hctx : s.dev = some c₀) (hidle : c₀.Idle)
    (hcap : s.queue.count ≤ capacity) {j : ℕ}
    (hh : Hangs s.queue.bits L c₀.maxPacketSize c₀.usb j) :
    transmit L s = .error .unanswered := by
  have hlt := hh.lt
  rw [Queue.length_bits] at hlt
  rcases Nat.lt_or_ge (flushBits * (j + 1)) s.queue.count with hj | hj
  · rw [transmit, loop_hangs hctx hidle hcap hj hh]
    rfl
  · -- it is the last one, and the ones before it come through
    have hbefore : ∀ a, flushBits * (a + 1) < s.queue.count →
        Through s.queue.bits L c₀.maxPacketSize c₀.usb a := by
      intro a ha
      refine hh.through a ?_
      rw [flushBits_eq] at ha hj
      omega
    obtain ⟨t, hloop, c, hdev, -, -, ⟨a, hrun⟩ | hstuck⟩ := loop_ok (L := L) hctx hidle hcap
      fun a ha hhangs => hhangs.not_through (hbefore a ha)
    · rw [← Queue.length_bits] at hrun hlt hj
      obtain ⟨ha, -, hholds⟩ := hrun.last (by omega)
      obtain rfl : a = j := by
        have hsucc := hrun.le_succ
        rw [flushBits_eq] at ha hsucc hlt hj
        omega
      rw [transmit_eq hloop hdev, mpsseFlush_hangs hholds (segment_ne_nil _ hlt) hrun.retval]
      rw [hrun.maxPacketSize, hrun.usb]
      exact hh.hangs
    · obtain ⟨i, hi, hfail⟩ := hstuck.failed
      exact absurd (hbefore i hi) hfail

end Results

end Loop

/-! ### Flushes whose automatic exchanges come through -/

section Automatic

variable {L : UsbLink δ} {s : State δ} {c₀ : MpsseCtx δ}

/-- What the exchanges of a flush leave of the device: the segments of the queue have been
sent one after the other, and there has been a purge after the last one if that has
failed. -/
def Sent (L : UsbLink δ) (s : State δ) (d d' : δ) : Prop :=
  d' = devAt s.queue.bits L d (exchanges s.queue.count) ∨
    d' = L.purged (devAt s.queue.bits L d (exchanges s.queue.count))

/-- **A flush of whose exchanges only the last one can fail** ends, with the context idle.
It has counted its own bits and sent its own bits, and in `tdo_data` it has written
below their number only. -/
theorem transmit_recovers (hctx : s.dev = some c₀) (hidle : c₀.Idle)
    (hcap : s.queue.count ≤ capacity)
    (hans : Answered s.queue.bits L c₀.maxPacketSize c₀.usb)
    (hauto : ∀ j, flushBits * (j + 1) < s.queue.count →
      Through s.queue.bits L c₀.maxPacketSize c₀.usb j) :
    ∃ t c, transmit L s = .ok t ∧ t.dev = some c ∧ t.clocked = s.queue.bits ∧
      t.tdoDataCount = s.tdoDataCount + s.queue.tdiDataCount ∧ c.Idle ∧ Sent L s c₀.usb c.usb ∧
      ∀ p, s.queue.count ≤ p → t.tdoData.bit p = s.tdoData.bit p := by
  by_cases hall : ∀ j, flushBits * j < s.queue.count →
      Through s.queue.bits L c₀.maxPacketSize c₀.usb j
  · obtain ⟨t, c, hok, hdev, hclocked, hcount, hidle', -, husb, hbit⟩ :=
      transmit_through hctx hidle hcap hall
    refine ⟨t, c, hok, hdev, hclocked, hcount, hidle', Or.inl husb, fun p hp => ?_⟩
    rw [hbit p, if_neg (Nat.not_lt.mpr hp)]
  · push Not at hall
    obtain ⟨t, c, hok, hdev, hclocked, hcount, hidle', -, husb, hbit⟩ :=
      transmit_last_fails hctx hidle hcap hauto hall hans
    refine ⟨t, c, hok, hdev, hclocked, hcount, hidle', Or.inr husb, fun p hp => ?_⟩
    rw [hbit p, if_neg]
    rw [exchanges, flushBits_eq]
    omega

/-- **A flush ends just if the exchanges before its last one come through**, and all that are
made have an end; otherwise it is aborted, or does not return. -/
theorem transmit_ok_iff (hctx : s.dev = some c₀) (hidle : c₀.Idle)
    (hcap : s.queue.count ≤ capacity) :
    (∃ t, transmit L s = .ok t) ↔ Answered s.queue.bits L c₀.maxPacketSize c₀.usb ∧
      ∀ j, flushBits * (j + 1) < s.queue.count →
        Through s.queue.bits L c₀.maxPacketSize c₀.usb j := by
  constructor
  · rintro ⟨t, hok⟩
    have hans : Answered s.queue.bits L c₀.maxPacketSize c₀.usb := by
      intro j hh
      cases (transmit_hangs hctx hidle hcap hh).symm.trans hok
    refine ⟨hans, fun j hj => ?_⟩
    by_contra hfail
    cases (transmit_aborts hctx hidle hcap ⟨j, hj, hfail⟩ hans).symm.trans hok
  · rintro ⟨hans, hauto⟩
    obtain ⟨t, -, hok, -⟩ := transmit_recovers hctx hidle hcap hans hauto
    exact ⟨t, hok⟩

/-- There is a context, and it is idle. -/
def HasIdle (d : Option (MpsseCtx δ)) : Prop := ∃ c, d = some c ∧ c.Idle

/-- **A flush from an idle context** stops in one of two ways: it is aborted, and then one of
the exchanges fails that the MPSSE layer makes itself, or the device stays silent. -/
theorem transmit_error (h : HasIdle s.dev) (hcap : s.queue.count ≤ capacity) {e : Fault}
    (he : transmit L s = .error e) :
    (e = .assertion ∧ ∃ c, s.dev = some c ∧ ∃ j, flushBits * (j + 1) < s.queue.count ∧
      ¬ Through s.queue.bits L c.maxPacketSize c.usb j) ∨ e = .unanswered := by
  obtain ⟨c, hctx, hidle⟩ := h
  by_cases hans : Answered s.queue.bits L c.maxPacketSize c.usb
  · left
    by_cases hauto : ∀ j, flushBits * (j + 1) < s.queue.count →
        Through s.queue.bits L c.maxPacketSize c.usb j
    · obtain ⟨t, ht⟩ := (transmit_ok_iff hctx hidle hcap).mpr ⟨hans, hauto⟩
      cases ht.symm.trans he
    · push Not at hauto
      cases (transmit_aborts hctx hidle hcap hauto hans).symm.trans he
      exact ⟨rfl, c, hctx, hauto⟩
  · rw [Answered] at hans
    push Not at hans
    obtain ⟨j, hh⟩ := hans
    cases (transmit_hangs hctx hidle hcap hh).symm.trans he
    exact Or.inr rfl

/-- No other fault stops it. -/
theorem transmit_ne_error (h : HasIdle s.dev) (hcap : s.queue.count ≤ capacity) {e : Fault}
    (hassert : e ≠ .assertion) (hsilent : e ≠ .unanswered) : transmit L s ≠ .error e := by
  intro he
  rcases transmit_error h hcap he with ⟨heq, -⟩ | heq
  · exact hassert heq
  · exact hsilent heq

/-- Without a context nothing can be flushed. -/
theorem transmit_null (hctx : s.dev = none) : transmit L s = .error .nullContext := by
  rcases Nat.eq_zero_or_pos s.queue.count with h0 | hpos
  · rw [transmit, h0, forLoop_zero, hctx]
    rfl
  · -- the first iteration asks for it
    have hbyte : 0 < dataSizeBytes := by decide
    have hloop := forLoop_error (d := Fault.diverges) (f := clockBit L s.queue) (n := 0)
      (e := .nullContext) (I := fun _ t => t.dev = none) hpos (by decide) hctx
      (fun k hk => absurd hk (Nat.not_lt_zero k)) (s := ⟨s.tdoData, s.tdoDataCount, s.dev, []⟩)
      (fun t ht => by
        rw [clockBit, show (BitVec.ofNat 32 0).toNat / 8 = 0 from rfl,
          s.queue.tdiData.load?_of_lt hbyte, s.queue.tmsData.load?_of_lt hbyte, ht]
        rfl)
    rw [transmit, hloop]
    rfl

/-- There is a context, and when the pairs `l` are clocked every exchange that is made has an
end, and none fails that the MPSSE layer makes itself. -/
def Ends (L : UsbLink δ) (d : Option (MpsseCtx δ)) (l : List (Bool × Bool)) : Prop :=
  ∃ c, d = some c ∧ Answered l L c.maxPacketSize c.usb ∧
    ∀ j, flushBits * (j + 1) < l.length → Through l L c.maxPacketSize c.usb j

/-- With nothing to clock there are no exchanges. -/
theorem ends_nil {d : Option (MpsseCtx δ)} (h : HasIdle d) : Ends L d [] := by
  obtain ⟨c, hctx, -⟩ := h
  exact ⟨c, hctx, fun j hh => absurd hh.lt (Nat.not_lt_zero _),
    fun j hj => absurd hj (Nat.not_lt_zero _)⟩

variable (L) in
/-- **The loop of the hardware plugin meets the contract**, from an idle context. -/
theorem contract : Plugin.Contract (transmit L) HasIdle (Ends L) where
  ends := by
    rintro s hcap ⟨c, hctx, hidle⟩ ⟨c', hctx', hans, hauto⟩
    cases hctx.symm.trans hctx'
    rw [Queue.length_bits] at hauto
    exact (transmit_ok_iff hctx hidle hcap).mpr ⟨hans, hauto⟩
  ok := by
    rintro s t hcap ⟨c, hctx, hidle⟩ ht
    obtain ⟨hans, hauto⟩ := (transmit_ok_iff hctx hidle hcap).mp ⟨t, ht⟩
    obtain ⟨t', c', ht', hdev, hclocked, hcount, hidle', -⟩ :=
      transmit_recovers hctx hidle hcap hans hauto
    cases ht.symm.trans ht'
    exact ⟨⟨c', hdev, hidle'⟩, hclocked, hcount⟩
  error := by
    intro s e hcap hidle he
    rcases transmit_error hidle hcap he with ⟨rfl, -⟩ | rfl
    · exact ⟨nofun, nofun⟩
    · exact ⟨nofun, nofun⟩

variable (L) in
/-- It meets the contract as well if there may be no context at all. -/
theorem contract_or_null :
    Plugin.Contract (transmit L) (fun d => d = none ∨ HasIdle d) (Ends L) where
  ends := by
    rintro s hcap (hnull | hidle) hends
    · obtain ⟨c, hctx, -⟩ := hends
      cases hnull.symm.trans hctx
    · exact (contract L).ends s hcap hidle hends
  ok := by
    rintro s t hcap (hnull | hidle) ht
    · rw [transmit_null hnull] at ht
      cases ht
    · obtain ⟨hidle', hrest⟩ := (contract L).ok s t hcap hidle ht
      exact ⟨Or.inr hidle', hrest⟩
  error := by
    rintro s e hcap (hnull | hidle) he
    · rw [transmit_null hnull] at he
      cases he
      exact ⟨nofun, nofun⟩
    · exact (contract L).error s e hcap hidle he

end Automatic

end Otma

end JtagHw
