import JtagHw.Mpsse.Context

/-!
# What the MPSSE layer does with a bit at a time

The plugin clocks one bit per call of `mpsse_clock_tms_cs`, and a bit is a command of
three bytes in the write buffer and a copy of one bit in the read queue. This file
follows a context that is fed such bits:

* a flush, whatever the context, sends the bytes in the write buffer, and there are three ways
  for it to come out (`JtagHw.mpsseFlush_outcome`);
* between the flushes it *holds* a list of pairs: their commands in the write
  buffer, and the copies that lay their answers out from some position on
  (`JtagHw.MpsseCtx.Holds`); a call with room for one more command adds its pair to
  the list (`JtagHw.clockTms_room`);
* when `JtagHw.flushBits` pairs are held, there is no room: the next call flushes
  first;
* a flush sends the commands, and if the exchange comes through, the answers are
  laid out and the context is idle (`JtagHw.mpsseFlush_completes`); if it does not, the
  answers are given up and the context is idle as well
  (`JtagHw.mpsseFlush_fails`) – but the call that has flushed goes on to queue its
  command, with the error noted (`JtagHw.clockTms_full`), and a context that holds
  commands with an error noted is one that the next flush aborts on
  (`JtagHw.mpsseFlush_stuck`);
* over an exchange that has no end it does not return (`JtagHw.mpsseFlush_hangs`).

What is assumed of the device is that its packets are longer than the two status bytes in
front of each, as those of a bulk endpoint are (`JtagHw.MpsseCtx.Idle.packets`).
-/

namespace JtagHw

open PackedBits

/-- The number of commands that fit into the write buffer, the byte reserved for
SEND_IMMEDIATE apart. -/
def flushBits : ℕ := 5461

theorem flushBits_eq : flushBits = 5461 := rfl

/-- The command that clocks a pair (TMS, TDI): `mode` and length, then the data byte, with
TMS in bit `0` and TDI in bit `7`. -/
def command (b : Bool × Bool) : List Byte :=
  [0x6B, 0x00, (if b.1 then 0x01 else 0x00) ||| (if b.2 then 0x80 else 0x00)]

/-- The commands for a list of pairs. -/
def commands (l : List (Bool × Bool)) : List Byte := l.flatMap command

/-- What a flush of them sends. -/
def wire (l : List (Bool × Bool)) : List Byte := commands l ++ [0x87]

@[simp] theorem length_commands (l : List (Bool × Bool)) : (commands l).length = 3 * l.length := by
  induction l with
  | nil => rfl
  | cons b l ih =>
    rw [commands, List.flatMap_cons, List.length_append]
    change 3 + (commands l).length = _
    rw [ih, List.length_cons]
    omega

@[simp] theorem length_wire (l : List (Bool × Bool)) : (wire l).length = 3 * l.length + 1 := by
  simp [wire]

theorem commands_append (l l' : List (Bool × Bool)) :
    commands (l ++ l') = commands l ++ commands l' :=
  List.flatMap_append

/-- The state a purge leaves the device in. -/
def UsbLink.purged {δ : Type} (L : UsbLink δ) (d : δ) : δ :=
  if (L.control d .purgeRx).1 ≠ .success then (L.control d .purgeRx).2
  else (L.control (L.control d .purgeRx).2 .purgeTx).2

namespace MpsseCtx

variable {δ : Type}

/-- The context as `mpsse_open` leaves it: nothing is queued, and no error noted. The packets
of the device carry something beside the two status bytes. -/
structure Idle (c : MpsseCtx δ) : Prop where
  packets : 2 < c.maxPacketSize
  writeCount : c.writeCount = 0
  readCount : c.readCount = 0
  readQueue : c.readQueue = []
  retval : c.retval = errorOk

/-- **The context holds the pairs `l`**, whose answers are to be laid out from position `k`
on. Nothing is said of the error that may be noted. -/
structure Holds (c : MpsseCtx δ) (k : ℕ) (l : List (Bool × Bool)) : Prop where
  packets : 2 < c.maxPacketSize
  length_le : l.length ≤ flushBits
  writeCount : c.writeCount = 3 * l.length
  written : c.writeBuffer.bytes c.writeCount = commands l
  readCount : c.readCount = l.length
  readQueue : c.readQueue = gather k 7 l.length

/-- Nothing but the buffers and the counts has changed. -/
structure Keeps (c c' : MpsseCtx δ) : Prop where
  usb : c'.usb = c.usb
  maxPacketSize : c'.maxPacketSize = c.maxPacketSize
  retval : c'.retval = c.retval
  writes : c'.writes = c.writes

theorem Keeps.refl (c : MpsseCtx δ) : c.Keeps c := ⟨rfl, rfl, rfl, rfl⟩

theorem Keeps.trans {c c' c'' : MpsseCtx δ} (h : c.Keeps c') (h' : c'.Keeps c'') :
    c.Keeps c'' where
  usb := h'.usb.trans h.usb
  maxPacketSize := h'.maxPacketSize.trans h.maxPacketSize
  retval := h'.retval.trans h.retval
  writes := h'.writes.trans h.writes

theorem Idle.holds {c : MpsseCtx δ} (h : c.Idle) (k : ℕ) : c.Holds k [] where
  packets := h.packets
  length_le := Nat.zero_le _
  writeCount := h.writeCount
  written := by rw [h.writeCount]; rfl
  readCount := h.readCount
  readQueue := h.readQueue

theorem Holds.idle {c : MpsseCtx δ} {k : ℕ} (h : c.Holds k []) (hret : c.retval = errorOk) :
    c.Idle :=
  ⟨h.packets, h.writeCount, h.readCount, h.readQueue, hret⟩

/-! ### The buffers -/

/-- A byte for which there is room is written behind the others. -/
theorem bufferWriteByte_ok (data : Byte) {c : MpsseCtx δ} (h : c.writeCount < bufferSize) :
    ∃ wb, c.bufferWriteByte data =
        .ok { c with writeBuffer := wb, writeCount := c.writeCount + 1 } ∧
      wb.bytes (c.writeCount + 1) = c.writeBuffer.bytes c.writeCount ++ [data] := by
  obtain ⟨wb, hstore, hbytes⟩ := c.writeBuffer.bytes_store data h
  refine ⟨wb, ?_, hbytes⟩
  rw [bufferWriteByte, if_pos h, hstore]
  rfl

/-- There is room for a command as long as fewer than `flushBits` pairs are held. -/
theorem Holds.room_iff {c : MpsseCtx δ} {k : ℕ} {l : List (Bool × Bool)} (h : c.Holds k l) :
    (c.bufferWriteSpace < 3 ∨ (true ∧ c.bufferReadSpace < 1)) ↔ l.length = flushBits := by
  have hle := h.length_le
  rw [flushBits_eq] at hle
  have hwrite : c.bufferWriteSpace = 16383 - 3 * l.length := by
    have hsum : 2 ^ 32 + bufferSize - c.writeCount - 1 = (16383 - 3 * l.length) + 2 ^ 32 := by
      rw [h.writeCount, bufferSize_eq]
      omega
    rw [bufferWriteSpace, hsum, Nat.add_mod_right, Nat.mod_eq_of_lt (by omega)]
  have hread : c.bufferReadSpace = 16384 - l.length := by
    have hsum : 2 ^ 32 + bufferSize - c.readCount = (16384 - l.length) + 2 ^ 32 := by
      rw [h.readCount, bufferSize_eq]
      omega
    rw [bufferReadSpace, hsum, Nat.add_mod_right, Nat.mod_eq_of_lt (by omega)]
  rw [hwrite, hread, flushBits_eq]
  omega

end MpsseCtx

section Bits

variable {δ : Type} {m n : ℕ}

/-- The bit copied into the data byte of a command. -/
theorem bitCopy_data (out : Buf m) {off : ℕ} (h : off < 8 * m) :
    ∃ data, bitCopy (Buf.zero : Buf 1) 0 0 out 0 off 1 = some data ∧
      data 0 = if out.bit off then 0x01 else 0x00 := by
  obtain ⟨data, hok, hcopy⟩ := bufSetBuf_bit out 0 off (Buf.zero : Buf 1) 0 0 1 (by omega)
    (by omega)
  refine ⟨data, hok, BitVec.eq_of_getLsbD_eq fun j hj => ?_⟩
  have hbit : data.bit j = (data 0).getLsbD j := by
    rw [Buf.bit_of_load? (x := data 0)]
    · rw [Nat.mod_eq_of_lt hj]
    · rw [Nat.div_eq_of_lt hj]
      exact data.load?_of_lt (by decide)
  rw [← hbit, hcopy j]
  by_cases h0 : j = 0
  · subst h0
    rw [if_pos (by omega)]
    simp only [Nat.mul_zero, Nat.zero_add, Nat.sub_self, Nat.add_zero]
    cases out.bit off <;> rfl
  · rw [if_neg (by omega), Buf.bit_zero]
    cases out.bit off
    · simp
    · simp [BitVec.getLsbD_one, h0]

/-- **A command is queued**: one more pair is held. -/
theorem queueTms_ok (out : Buf m) {off k : ℕ} (tdi : Bool) (hoff : off < 8 * m) {c : MpsseCtx δ}
    {l : List (Bool × Bool)} (h : c.Holds k l) (hroom : l.length < flushBits) :
    ∃ c', queueTms out off true (k + l.length) 1 tdi 0x6B c = .ok c' ∧
      c'.Holds k (l ++ [(out.bit off, tdi)]) ∧ c.Keeps c' := by
  have hcount := h.writeCount
  rw [flushBits_eq] at hroom
  -- the three bytes of the command, one after the other
  obtain ⟨wb₁, hw₁, hb₁⟩ := c.bufferWriteByte_ok 0x6B (by rw [hcount, bufferSize_eq]; omega)
  obtain ⟨wb₂, hw₂, hb₂⟩ := MpsseCtx.bufferWriteByte_ok (BitVec.ofNat 8 (1 - 1))
    (c := { c with writeBuffer := wb₁, writeCount := c.writeCount + 1 })
    (by simp only [hcount, bufferSize_eq]; omega)
  obtain ⟨data, hdata, hbyte⟩ := bitCopy_data out hoff
  obtain ⟨wb₃, hw₃, hb₃⟩ := MpsseCtx.bufferWriteByte_ok (data 0 ||| if tdi then 0x80 else 0x00)
    (c := { c with writeBuffer := wb₂, writeCount := c.writeCount + 1 + 1 })
    (by simp only [hcount, bufferSize_eq]; omega)
  simp only at hb₂ hb₃ hw₂ hw₃
  have hread : c.readCount + divRoundUp 1 8 ≤ bufferSize := by
    rw [h.readCount, bufferSize_eq]
    change l.length + 1 ≤ 16384
    omega
  have hlen : (l ++ [(out.bit off, tdi)]).length = l.length + 1 := by simp
  refine ⟨{ c with
    writeBuffer := wb₃
    writeCount := c.writeCount + 1 + 1 + 1
    readQueue := c.readQueue ++ [⟨k + l.length, c.readCount, 7, 1⟩]
    readCount := c.readCount + divRoundUp 1 8 }, ?_, ?_, ⟨rfl, rfl, rfl, rfl⟩⟩
  · simp only [queueTms, hw₁, hw₂, hdata, access, hw₃, bind, Except.bind, if_true]
    rw [MpsseCtx.bufferAddRead, if_pos hread]
  · constructor
    · exact h.packets
    · rw [hlen, flushBits_eq]
      omega
    · rw [hlen]
      simp only [hcount]
      omega
    · rw [hb₃, hb₂, hb₁, h.written, commands_append, hbyte]
      simp [commands, command]
    · rw [hlen]
      simp only [h.readCount]
      rfl
    · rw [hlen, gather_succ]
      simp only [h.readQueue, h.readCount]

/-! ### The flush of any context -/

variable (L : UsbLink δ)

/-- The bytes a flush writes: if an answer is awaited, SEND_IMMEDIATE is the last one. -/
def MpsseCtx.outgoing (c : MpsseCtx δ) : List Byte :=
  c.writeBuffer.bytes c.writeCount ++ if c.readCount ≠ 0 then [0x87] else []

/-- SEND_IMMEDIATE goes into the byte that is kept free for it. -/
theorem MpsseCtx.sendImmediate_ok {c : MpsseCtx δ} (hw : c.writeCount < bufferSize) :
    ∃ wb, (if c.readCount ≠ 0 then c.bufferWriteByte 0x87 else .ok c) =
          .ok { c with writeBuffer := wb, writeCount := c.outgoing.length } ∧
        wb.bytes c.outgoing.length = c.outgoing := by
  split_ifs with hread
  · obtain ⟨wb, hok, hb⟩ := c.bufferWriteByte_ok 0x87 hw
    have hout : c.outgoing = c.writeBuffer.bytes c.writeCount ++ [0x87] := by
      rw [MpsseCtx.outgoing, if_pos hread]
    have hlen : c.outgoing.length = c.writeCount + 1 := by simp [hout]
    exact ⟨wb, by rw [hok, hlen], by rw [hlen, hb, hout]⟩
  · have hout : c.outgoing = c.writeBuffer.bytes c.writeCount := by
      rw [MpsseCtx.outgoing, if_neg hread, List.append_nil]
    have hlen : c.outgoing.length = c.writeCount := by simp [hout]
    exact ⟨c.writeBuffer, by rw [hlen], by rw [hlen, hout]⟩

/-- The exchange of a flush. -/
def MpsseCtx.exchange (c : MpsseCtx δ) : Exchange := (L.exchange c.usb c.outgoing).1

/-- That exchange comes through. -/
def MpsseCtx.Flushes (c : MpsseCtx δ) : Prop :=
  (c.exchange L).Completes c.maxPacketSize c.outgoing.length c.readCount

instance (c : MpsseCtx δ) : Decidable (c.Flushes L) :=
  inferInstanceAs (Decidable (Exchange.Completes ..))

/-- That exchange has no end. -/
def MpsseCtx.Hangs (c : MpsseCtx δ) : Prop :=
  (c.exchange L).Silent c.maxPacketSize c.outgoing.length c.readCount

instance (c : MpsseCtx δ) : Decidable (c.Hangs L) :=
  inferInstanceAs (Decidable (Exchange.Silent ..))

/-- The bytes received in it. -/
def MpsseCtx.received (c : MpsseCtx δ) : List Byte :=
  ((c.exchange L).outcome c.maxPacketSize c.outgoing.length c.readCount).1.received

/-- What its write transfer is submitted with, the first time and again. -/
def MpsseCtx.submissions (c : MpsseCtx δ) : List (List Byte) :=
  ((c.exchange L).outcome c.maxPacketSize c.outgoing.length c.readCount).1.submitted.map
    c.outgoing.drop

/-- The context after a flush whose exchange comes through. -/
def MpsseCtx.emptied (c : MpsseCtx δ) (readBuffer writeBuffer : Buf bufferSize) : MpsseCtx δ :=
  { c with
    usb := (L.exchange c.usb c.outgoing).2
    readBuffer := readBuffer
    writeBuffer := writeBuffer
    writeCount := 0
    readCount := 0
    readQueue := []
    writes := c.writes ++ [c.submissions L] }

variable {L}

/-- With nothing to write there is nothing to flush. -/
theorem mpsseFlush_empty {c : MpsseCtx δ} (hret : c.retval = errorOk) (hw : c.writeCount = 0)
    (hr : c.readCount = 0) (inBuf : Buf n) : mpsseFlush L c inBuf = .ok (errorOk, c, inBuf) := by
  rw [mpsseFlush, if_neg (not_not.mpr hret), if_neg (by omega), if_pos hw, hret]

/-- **What a flush does**: SEND_IMMEDIATE is appended if an answer is awaited, and the device
is sent the bytes. If the exchange comes through, what has been received is copied to where
it was asked for; if it does not, everything queued is given up. Either way the context is
idle then. If the exchange has no end, the flush does not return. -/
theorem mpsseFlush_outcome {c : MpsseCtx δ} (hpackets : 2 < c.maxPacketSize)
    (hret : c.retval = errorOk) (hpos : 0 < c.writeCount) (hw : c.writeCount < bufferSize)
    (hr : c.readCount ≤ bufferSize) (inBuf : Buf n) :
    ∃ rb wb, rb.bytes (c.received L).length = c.received L ∧
      mpsseFlush L c inBuf =
        if c.Flushes L then
          if c.readCount ≠ 0 then
            match bitCopyExecute rb c.readQueue inBuf with
            | some inBuf' => .ok (errorOk, c.emptied L rb wb, inBuf')
            | none => .error .outOfBounds
          else .ok (errorOk, c.emptied L rb wb, inBuf)
        else if c.Hangs L then .error .unanswered
        else .ok (errorFail, mpssePurge L (c.emptied L rb wb), inBuf) := by
  obtain ⟨wb, hsend, hbytes⟩ := MpsseCtx.sendImmediate_ok hw
  obtain ⟨t, hrun, hwritten, hreceived, hbuf, hsub⟩ := runTransfers_outcome c.outgoing.length
    hpackets hr (c.exchange L) c.readBuffer
  refine ⟨t.readBuffer, wb, by rw [MpsseCtx.received, ← hreceived]; exact hbuf, ?_⟩
  have hgo : ∀ k : MpsseCtx δ → Except Fault (CInt × MpsseCtx δ × Buf n),
      (if c.readCount ≠ 0 then c.bufferWriteByte 0x87 >>= k else Except.ok c >>= k) =
        k { c with writeBuffer := wb, writeCount := c.outgoing.length } := by
    intro k
    split_ifs at hsend ⊢ <;> rw [hsend] <;> rfl
  rw [mpsseFlush, if_neg (not_not.mpr hret), if_neg (by omega), if_neg (by omega)]
  dsimp only
  rw [hgo, hbytes]
  have hrun' : runTransfers c.maxPacketSize c.outgoing.length c.readCount
      (L.exchange c.usb c.outgoing).1 c.readBuffer = _ := hrun
  rw [hrun']
  by_cases hs : c.Flushes L
  · obtain ⟨hrc, hw', hr'⟩ := id hs
    rw [if_pos hs, hrc]
    simp only [polled, Except.map, bind, Except.bind, hwritten, hreceived, hsub]
    rw [if_neg (not_not.mpr rfl), if_neg (not_lt.mpr hw'), if_neg (not_lt.mpr hr')]
    by_cases hread : c.readCount ≠ 0
    · rw [if_pos hread, if_pos hread]
      cases bitCopyExecute t.readBuffer c.readQueue inBuf <;> rfl
    · rw [if_neg hread, if_neg hread]
      have hzero : c.readCount = 0 := by omega
      rw [MpsseCtx.emptied, MpsseCtx.submissions, hzero]
  · rw [if_neg hs]
    by_cases hh : c.Hangs L
    · rw [if_pos hh, show (Exchange.outcome ..).2 = none from hh]
      rfl
    · -- one of the three checks after the exchange fails
      obtain ⟨rc, hrc⟩ := Option.ne_none_iff_exists'.mp hh
      rw [if_neg hh, hrc]
      simp only [polled, Except.map, bind, Except.bind, hwritten, hreceived, hsub]
      by_cases hok : rc = .success
      · subst hok
        rw [if_neg (not_not.mpr rfl)]
        by_cases hw' : ((c.exchange L).outcome c.maxPacketSize c.outgoing.length
            c.readCount).1.written < c.outgoing.length
        · rw [if_pos hw']
          rfl
        · rw [if_neg hw', if_pos (not_le.mp fun hr' => hs ⟨hrc, not_lt.mp hw', hr'⟩)]
          rfl
      · rw [if_pos hok]
        rfl

/-! ### The flush of a context that holds pairs -/

variable (L)

/-- The exchange of a flush that sends the pairs `l`, from the state `d` of the device. -/
def UsbLink.sends (d : δ) (l : List (Bool × Bool)) : Exchange := (L.exchange d (wire l)).1

/-- The state of the device after that exchange. -/
def UsbLink.after (d : δ) (l : List (Bool × Bool)) : δ := (L.exchange d (wire l)).2

/-- The exchange of such a flush comes through. -/
def UsbLink.Sends (packetSize : ℕ) (d : δ) (l : List (Bool × Bool)) : Prop :=
  (L.sends d l).Completes packetSize (wire l).length l.length

instance (packetSize : ℕ) (d : δ) (l : List (Bool × Bool)) :
    Decidable (L.Sends packetSize d l) :=
  inferInstanceAs (Decidable (Exchange.Completes ..))

/-- The exchange of such a flush has no end. -/
def UsbLink.Hangs (packetSize : ℕ) (d : δ) (l : List (Bool × Bool)) : Prop :=
  (L.sends d l).Silent packetSize (wire l).length l.length

instance (packetSize : ℕ) (d : δ) (l : List (Bool × Bool)) :
    Decidable (L.Hangs packetSize d l) :=
  inferInstanceAs (Decidable (Exchange.Silent ..))

/-- The bytes received in the exchange of such a flush. -/
def UsbLink.received (packetSize : ℕ) (d : δ) (l : List (Bool × Bool)) : List Byte :=
  ((L.sends d l).outcome packetSize (wire l).length l.length).1.received

variable {L}

/-- With nothing queued there is nothing to flush. -/
theorem mpsseFlush_idle {c : MpsseCtx δ} (h : c.Idle) (inBuf : Buf n) :
    mpsseFlush L c inBuf = .ok (errorOk, c, inBuf) :=
  mpsseFlush_empty h.retval h.writeCount h.readCount inBuf

/-- **A context that holds commands with an error noted is aborted on.** -/
theorem mpsseFlush_stuck {c : MpsseCtx δ} {k : ℕ} {l : List (Bool × Bool)} (h : c.Holds k l)
    (hl : l ≠ []) (hret : c.retval ≠ errorOk) (inBuf : Buf n) :
    mpsseFlush L c inBuf = .error .assertion := by
  have hpos : 0 < l.length := List.length_pos_iff.mpr hl
  have hread := h.readCount
  rw [mpsseFlush, if_pos hret, if_neg (by omega)]

/-- A purge leaves the context idle. -/
theorem mpssePurge_idle {c : MpsseCtx δ} (h : 2 < c.maxPacketSize) :
    (mpssePurge L c).Idle ∧ (mpssePurge L c).usb = L.purged c.usb ∧
      (mpssePurge L c).maxPacketSize = c.maxPacketSize ∧
      (mpssePurge L c).writes = c.writes := by
  rw [mpssePurge, UsbLink.purged]
  simp only
  split_ifs <;> exact ⟨⟨h, rfl, rfl, rfl, rfl⟩, rfl, rfl, rfl⟩

/-- It writes their commands, and SEND_IMMEDIATE. -/
theorem MpsseCtx.Holds.outgoing {c : MpsseCtx δ} {k : ℕ} {l : List (Bool × Bool)}
    (h : c.Holds k l) (hl : l ≠ []) : c.outgoing = wire l := by
  have hpos : 0 < l.length := List.length_pos_iff.mpr hl
  rw [MpsseCtx.outgoing, h.written, h.readCount, if_pos hpos.ne', wire]

/-- **What such a flush does**: it is the one of any context, with the commands sent. -/
theorem mpsseFlush_holds {c : MpsseCtx δ} {k : ℕ} {l : List (Bool × Bool)} (h : c.Holds k l)
    (hl : l ≠ []) (hret : c.retval = errorOk) (inBuf : Buf n) :
    ∃ rb wb, rb.bytes (L.received c.maxPacketSize c.usb l).length =
        L.received c.maxPacketSize c.usb l ∧
      mpsseFlush L c inBuf =
        if L.Sends c.maxPacketSize c.usb l then
          match bitCopyExecute rb (gather k 7 l.length) inBuf with
          | some inBuf' => .ok (errorOk, c.emptied L rb wb, inBuf')
          | none => .error .outOfBounds
        else if L.Hangs c.maxPacketSize c.usb l then .error .unanswered
        else .ok (errorFail, mpssePurge L (c.emptied L rb wb), inBuf) := by
  have hle := h.length_le
  rw [flushBits_eq] at hle
  have hpos : 0 < l.length := List.length_pos_iff.mpr hl
  have hread := h.readCount
  have hwrite := h.writeCount
  have hout := h.outgoing hl
  obtain ⟨rb, wb, hrb, heq⟩ := mpsseFlush_outcome (L := L) h.packets hret (by omega)
    (by rw [bufferSize_eq]; omega) (by rw [bufferSize_eq]; omega) inBuf
  -- the exchange is the one of the pairs
  have hflushes : c.Flushes L ↔ L.Sends c.maxPacketSize c.usb l := by
    rw [MpsseCtx.Flushes, MpsseCtx.exchange, hout, hread]
    exact Iff.rfl
  have hhangs : c.Hangs L ↔ L.Hangs c.maxPacketSize c.usb l := by
    rw [MpsseCtx.Hangs, MpsseCtx.exchange, hout, hread]
    exact Iff.rfl
  rw [MpsseCtx.received, MpsseCtx.exchange, hout, hread] at hrb
  refine ⟨rb, wb, hrb, ?_⟩
  rw [heq, if_pos (show c.readCount ≠ 0 by omega), h.readQueue, if_congr hflushes rfl
    (if_congr hhangs rfl rfl)]

/-- The device has been sent the commands then. -/
theorem usb_emptied {c : MpsseCtx δ} {k : ℕ} {l : List (Bool × Bool)} (h : c.Holds k l)
    (hl : l ≠ []) (rb wb : Buf bufferSize) : (c.emptied L rb wb).usb = L.after c.usb l := by
  rw [UsbLink.after, ← h.outgoing hl]
  rfl

/-- **A flush whose exchange comes through** leaves the context idle, and the answers –
bit `7` of the bytes received – laid out where they were asked for. -/
theorem mpsseFlush_completes {c : MpsseCtx δ} {k : ℕ} {l : List (Bool × Bool)} (h : c.Holds k l)
    (hl : l ≠ []) (hret : c.retval = errorOk) (inBuf : Buf n) (hk : k + l.length ≤ 8 * n)
    (hs : L.Sends c.maxPacketSize c.usb l) :
    ∃ c' inBuf', mpsseFlush L c inBuf = .ok (errorOk, c', inBuf') ∧ c'.Idle ∧
      c'.usb = L.after c.usb l ∧ c'.maxPacketSize = c.maxPacketSize ∧
      ∀ j, inBuf'.bit j = if k ≤ j ∧ j < k + l.length then
        ((L.received c.maxPacketSize c.usb l).getD (j - k) 0).getLsbD 7 else inBuf.bit j := by
  have hle := h.length_le
  rw [flushBits_eq] at hle
  obtain ⟨rb, wb, hbytes, heq⟩ := mpsseFlush_holds (L := L) h hl hret inBuf
  obtain ⟨inBuf', hexec, hbit⟩ := execute_gather rb (show 7 < 8 by decide) inBuf
    l.length (by rw [bufferSize_eq]; omega) hk
  refine ⟨c.emptied L rb wb, inBuf', ?_, ⟨h.packets, rfl, rfl, rfl, hret⟩,
    usb_emptied h hl rb wb, rfl, fun j => ?_⟩
  · rw [heq, if_pos hs, hexec]
  · rw [hbit j]
    by_cases hj : k ≤ j ∧ j < k + l.length
    · -- as many bytes have come as were awaited, and the copy is from bit `7` of one
      have hlen : (L.received c.maxPacketSize c.usb l).length = l.length :=
        le_antisymm (Exchange.outcome_inv ..).2.1 hs.2.2
      rw [hlen] at hbytes
      have hdiv : (8 * (j - k) + 7) / 8 = j - k := by omega
      have hmod : (8 * (j - k) + 7) % 8 = 7 := by omega
      rw [if_pos hj, if_pos hj, rb.bit_eq_bytes (k := l.length) (by omega), hbytes, hdiv,
        hmod]
    · rw [if_neg hj, if_neg hj]

/-- **A flush whose exchange does not come through** gives the answers up, and leaves the
context idle. -/
theorem mpsseFlush_fails {c : MpsseCtx δ} {k : ℕ} {l : List (Bool × Bool)} (h : c.Holds k l)
    (hl : l ≠ []) (hret : c.retval = errorOk) (inBuf : Buf n)
    (hs : ¬ L.Sends c.maxPacketSize c.usb l) (hh : ¬ L.Hangs c.maxPacketSize c.usb l) :
    ∃ c', mpsseFlush L c inBuf = .ok (errorFail, c', inBuf) ∧ c'.Idle ∧
      c'.usb = L.purged (L.after c.usb l) ∧ c'.maxPacketSize = c.maxPacketSize := by
  obtain ⟨rb, wb, -, heq⟩ := mpsseFlush_holds (L := L) h hl hret inBuf
  obtain ⟨hidle, husb, hps, -⟩ := mpssePurge_idle (L := L) (c := c.emptied L rb wb) h.packets
  exact ⟨mpssePurge L (c.emptied L rb wb), by rw [heq, if_neg hs, if_neg hh], hidle,
    by rw [husb, usb_emptied h hl], hps⟩

/-- **A flush whose exchange has no end** does not return. -/
theorem mpsseFlush_hangs {c : MpsseCtx δ} {k : ℕ} {l : List (Bool × Bool)} (h : c.Holds k l)
    (hl : l ≠ []) (hret : c.retval = errorOk) (inBuf : Buf n)
    (hh : L.Hangs c.maxPacketSize c.usb l) : mpsseFlush L c inBuf = .error .unanswered := by
  obtain ⟨rb, wb, -, heq⟩ := mpsseFlush_holds (L := L) h hl hret inBuf
  have hs : ¬ L.Sends c.maxPacketSize c.usb l := hh.not_completes
  rw [heq, if_neg hs, if_pos hh]

/-! ### One call of `mpsse_clock_tms_cs` -/

/-- A call for one bit is one iteration of the loop. -/
theorem clockTms_one (out : Buf m) (off : ℕ) (tdi : Bool) {c : MpsseCtx δ}
    (hret : c.retval = errorOk) (inBuf : Buf n) :
    mpsseClockTmsCs L out off true off 1 tdi 0x09 c inBuf =
      match makeRoom L true c inBuf with
      | .error e => .error e
      | .ok (c₁, inBuf₁) =>
        match queueTms out off true off 1 tdi 0x6B c₁ with
        | .error e => .error e
        | .ok c₂ => .ok (c₂, inBuf₁) := by
  have hend : ∀ (o i : ℕ) (c : MpsseCtx δ) (inBuf : Buf n),
      clockTmsLoop L out true tdi 0x6B o i 0 c inBuf = .ok (c, inBuf) := by
    intro o i c inBuf
    rw [clockTmsLoop, if_pos rfl]
  have hmode : (0x09 : Byte) ||| 0x42 ||| 0x20 = 0x6B := by decide
  rw [mpsseClockTmsCs, if_neg (not_not.mpr hret)]
  simp only [if_true, hmode]
  rw [clockTmsLoop, if_neg Nat.one_ne_zero]
  simp only [show min 1 7 = 1 from rfl, Nat.sub_self]
  cases makeRoom L true c inBuf with
  | error e => rfl
  | ok r => cases hq : queueTms out off true off 1 tdi 0x6B r.1 <;> simp only [hq, hend]

/-- With an error noted, a call does nothing. -/
theorem clockTms_ignored (out : Buf m) (off : ℕ) (tdi : Bool) {c : MpsseCtx δ}
    (hret : c.retval ≠ errorOk) (inBuf : Buf n) :
    mpsseClockTmsCs L out off true off 1 tdi 0x09 c inBuf = .ok (c, inBuf) := by
  rw [mpsseClockTmsCs, if_pos hret]

/-- **A call with room** adds its pair to those held. -/
theorem clockTms_room (out : Buf m) {k : ℕ} (tdi : Bool) {c : MpsseCtx δ}
    {l : List (Bool × Bool)} (h : c.Holds k l) (hret : c.retval = errorOk)
    (hroom : l.length < flushBits) (hoff : k + l.length < 8 * m) (inBuf : Buf n) :
    ∃ c', mpsseClockTmsCs L out (k + l.length) true (k + l.length) 1 tdi 0x09 c inBuf =
        .ok (c', inBuf) ∧
      c'.Holds k (l ++ [(out.bit (k + l.length), tdi)]) ∧ c.Keeps c' := by
  obtain ⟨c', hok, hholds, hkeeps⟩ := queueTms_ok out tdi hoff h hroom
  refine ⟨c', ?_, hholds, hkeeps⟩
  have hmake : makeRoom L true c inBuf = .ok (c, inBuf) := by
    rw [makeRoom, if_neg]
    exact fun hfull => Nat.ne_of_lt hroom (h.room_iff.mp hfull)
  rw [clockTms_one out _ tdi hret, hmake]
  simp only [hok]

theorem ne_nil_of_full {l : List (Bool × Bool)} (hfull : l.length = flushBits) : l ≠ [] := by
  rintro rfl
  rw [flushBits_eq] at hfull
  cases hfull

/-- **A call without room** flushes first. If the exchange comes through, the new pair is
the only one held afterwards; if it does not, that is so as well, but with the error
noted. -/
theorem clockTms_full (out : Buf m) {k : ℕ} (tdi : Bool) {c : MpsseCtx δ}
    {l : List (Bool × Bool)} (h : c.Holds k l) (hret : c.retval = errorOk)
    (hfull : l.length = flushBits) (hoff : k + l.length < 8 * m) (inBuf : Buf n)
    (hin : k + l.length ≤ 8 * n) (hh : ¬ L.Hangs c.maxPacketSize c.usb l) :
    ∃ c' inBuf', mpsseClockTmsCs L out (k + l.length) true (k + l.length) 1 tdi 0x09 c inBuf =
        .ok (c', inBuf') ∧
      c'.Holds (k + l.length) [(out.bit (k + l.length), tdi)] ∧
      c'.maxPacketSize = c.maxPacketSize ∧
      (if L.Sends c.maxPacketSize c.usb l then
        c'.retval = errorOk ∧ c'.usb = L.after c.usb l ∧
          ∀ j, inBuf'.bit j = if k ≤ j ∧ j < k + l.length then
            ((L.received c.maxPacketSize c.usb l).getD (j - k) 0).getLsbD 7 else inBuf.bit j
      else c'.retval = errorFail) := by
  have hl := ne_nil_of_full hfull
  -- the flush leaves the context idle, up to the error noted after it
  have hflush : ∃ retval c₁ inBuf₁, mpsseFlush L c inBuf = .ok (retval, c₁, inBuf₁) ∧ c₁.Idle ∧
      c₁.maxPacketSize = c.maxPacketSize ∧
      (if L.Sends c.maxPacketSize c.usb l then
        retval = errorOk ∧ c₁.usb = L.after c.usb l ∧
          ∀ j, inBuf₁.bit j = if k ≤ j ∧ j < k + l.length then
            ((L.received c.maxPacketSize c.usb l).getD (j - k) 0).getLsbD 7 else inBuf.bit j
      else retval = errorFail) := by
    by_cases hs : L.Sends c.maxPacketSize c.usb l
    · obtain ⟨c₁, inBuf₁, hok, hidle, husb, hps, hbit⟩ :=
        mpsseFlush_completes h hl hret inBuf hin hs
      exact ⟨_, c₁, inBuf₁, hok, hidle, hps, by rw [if_pos hs]; exact ⟨rfl, husb, hbit⟩⟩
    · obtain ⟨c₁, hok, hidle, -, hps⟩ := mpsseFlush_fails (L := L) h hl hret inBuf hs hh
      exact ⟨_, c₁, inBuf, hok, hidle, hps, by rw [if_neg hs]⟩
  obtain ⟨retval, c₁, inBuf₁, hok, hidle, hps, hcase⟩ := hflush
  have hmake : makeRoom L true c inBuf = .ok ({ c₁ with retval := retval }, inBuf₁) := by
    rw [makeRoom, if_pos (h.room_iff.mpr hfull), hok]
    rfl
  have hempty : MpsseCtx.Holds { c₁ with retval := retval } (k + l.length) [] := by
    have hnil := hidle.holds (k + l.length)
    exact ⟨hnil.packets, hnil.length_le, hnil.writeCount, hnil.written, hnil.readCount,
      hnil.readQueue⟩
  obtain ⟨c', hq, hholds, hkeeps⟩ := queueTms_ok out tdi hoff hempty (by decide)
  refine ⟨c', inBuf₁, ?_, hholds, hkeeps.maxPacketSize.trans hps, ?_⟩
  · rw [clockTms_one out _ tdi hret, hmake]
    simp only [List.length_nil, Nat.add_zero] at hq
    simp only [hq]
  · rw [hkeeps.retval, hkeeps.usb]
    exact hcase

/-- If the exchange has no end, it does not return. -/
theorem clockTms_hangs (out : Buf m) {k : ℕ} (tdi : Bool) {c : MpsseCtx δ}
    {l : List (Bool × Bool)} (h : c.Holds k l) (hret : c.retval = errorOk)
    (hfull : l.length = flushBits) (inBuf : Buf n) (hh : L.Hangs c.maxPacketSize c.usb l) :
    mpsseClockTmsCs L out (k + l.length) true (k + l.length) 1 tdi 0x09 c inBuf =
      .error .unanswered := by
  have hmake : makeRoom L true c inBuf = .error .unanswered := by
    rw [makeRoom, if_pos (h.room_iff.mpr hfull),
      mpsseFlush_hangs h (ne_nil_of_full hfull) hret inBuf hh]
    rfl
  rw [clockTms_one out _ tdi hret, hmake]

end Bits

end JtagHw
