import JtagHw.Dummy
import JtagHw.Otma

/-!
# The hardware plugin in front of a chip

What the hardware plugin is for: an FT232H whose MPSSE executes the bytes written to it
against a TAP controller (`JtagHw.Chip`), at the end of a USB link that is honest –
what it says has been accepted is what the chip executes, and what it returns are the
chip's answers (`JtagHw.ChipLink`) – but may fail at any time.

An exchange that comes through clocks its pairs into the controller and brings back
what it answered to them (`JtagHw.ChipLink.exchange_through`). So, over a link that never
fails, a flush of the hardware plugin and one of the dummy plugin with the same queue
and the same controller leave it in the same state and hand the host the same bits
(`JtagHw.Otma.agrees_with_dummy`).
-/

namespace JtagHw

open PackedBits

/-! ### The chip -/

/-- Where the MPSSE stands in a command. -/
inductive Awaits
  | opcode
  | length
  | data (length : Byte)
  deriving DecidableEq

/-- The chip: the controller it clocks, where it stands in a command, the answers not read
yet and the pairs it has clocked. An answer has TDO in bit `7`; the bits below are not
specified, and given by `low`. -/
structure Chip where
  tap : JtagTapController
  awaits : Awaits
  answers : List Byte
  clocked : List (Bool × Bool)
  low : ℕ → BitVec 7

namespace Chip

/-- The answer to a clock. -/
def answer (c : Chip) (tdo : CInt) : Byte := BitVec.cons (tdo.getLsbD 0) (c.low c.clocked.length)

theorem answer_getLsbD (c : Chip) (tdo : CInt) : (c.answer tdo).getLsbD 7 = tdo.getLsbD 0 := by
  rw [answer, BitVec.getLsbD_cons, if_pos rfl]

/-- One byte written to the chip. The command `0x6B` with length byte `0` clocks once, with
TMS and TDI in bits `0` and `7` of its data byte; the command `0x87` answers nothing, and
neither does anything else. -/
def recv (c : Chip) (b : Byte) : Chip :=
  match c.awaits with
  | .opcode => if b = 0x6B then { c with awaits := .length } else c
  | .length => { c with awaits := .data b }
  | .data length =>
    if length = 0 then
      let r := c.tap.clock (b.getLsbD 0, b.getLsbD 7)
      { c with
        tap := r.1
        awaits := .opcode
        answers := c.answers ++ [c.answer r.2.tdo]
        clocked := c.clocked ++ [(b.getLsbD 0, b.getLsbD 7)] }
    else { c with awaits := .opcode }

/-- The bytes written to the chip, one after the other. -/
def recvAll (c : Chip) (bytes : List Byte) : Chip := bytes.foldl recv c

/-- The chip is between two commands, and all its answers have been read. -/
structure Ready (c : Chip) : Prop where
  awaits : c.awaits = .opcode
  answers : c.answers = []

theorem recvAll_append (c : Chip) (bytes bytes' : List Byte) :
    c.recvAll (bytes ++ bytes') = (c.recvAll bytes).recvAll bytes' :=
  List.foldl_append

/-- The data byte of a command carries its pair. -/
theorem command_bits (b : Bool × Bool) :
    (((if b.1 then 0x01 else 0x00) ||| (if b.2 then 0x80 else 0x00) : Byte).getLsbD 0,
      ((if b.1 then 0x01 else 0x00) ||| (if b.2 then 0x80 else 0x00) : Byte).getLsbD 7) = b := by
  obtain ⟨t, d⟩ := b
  cases t <;> cases d <;> rfl

/-- **A command is a clock.** -/
theorem recvAll_command {c : Chip} (h : c.awaits = .opcode) (b : Bool × Bool) :
    c.recvAll (command b) =
      { c with
        tap := (c.tap.clock b).1
        answers := c.answers ++ [c.answer (c.tap.clock b).2.tdo]
        clocked := c.clocked ++ [b] } := by
  simp only [recvAll, command, List.foldl_cons, List.foldl_nil, recv, h, if_true, command_bits]
  rfl

/-- **The commands of a list of pairs are a run**, and what is answered to them are the TDO
bits of that run. -/
theorem recvAll_commands (l : List (Bool × Bool)) {c : Chip} (h : c.awaits = .opcode) :
    (c.recvAll (commands l)).awaits = .opcode ∧ (c.recvAll (commands l)).tap = c.tap.run l ∧
      (c.recvAll (commands l)).clocked = c.clocked ++ l ∧
      ∃ as : List Byte, (c.recvAll (commands l)).answers = c.answers ++ as ∧
        as.map (·.getLsbD 7) = c.tap.tdoBits l := by
  induction l generalizing c with
  | nil => exact ⟨h, rfl, (List.append_nil _).symm, [], (List.append_nil _).symm, rfl⟩
  | cons b l ih =>
    have hcons : commands (b :: l) = command b ++ commands l := rfl
    rw [hcons, recvAll_append, recvAll_command h b]
    obtain ⟨hawaits, htap, hclocked, as, hanswers, has⟩ := ih (c := { c with
      tap := (c.tap.clock b).1
      answers := c.answers ++ [c.answer (c.tap.clock b).2.tdo]
      clocked := c.clocked ++ [b] }) h
    refine ⟨hawaits, htap, by rw [hclocked, List.append_assoc]; rfl,
      c.answer (c.tap.clock b).2.tdo :: as, ?_, ?_⟩
    · rw [hanswers, List.append_assoc]
      rfl
    · rw [List.map_cons, has, answer_getLsbD]
      rfl

/-- What a flush sends to a chip that is ready. -/
theorem recvAll_wire (l : List (Bool × Bool)) {c : Chip} (h : c.Ready) :
    (c.recvAll (wire l)).awaits = .opcode ∧ (c.recvAll (wire l)).tap = c.tap.run l ∧
      (c.recvAll (wire l)).clocked = c.clocked ++ l ∧
      (c.recvAll (wire l)).answers.map (·.getLsbD 7) = c.tap.tdoBits l := by
  obtain ⟨hawaits, htap, hclocked, as, hanswers, has⟩ := recvAll_commands l h.awaits
  have hlast : c.recvAll (wire l) = c.recvAll (commands l) := by
    rw [wire, recvAll_append]
    simp only [recvAll, List.foldl_cons, List.foldl_nil]
    rw [recv]
    change (match (c.recvAll (commands l)).awaits with
      | .opcode => _
      | .length => _
      | .data length => _) = _
    rw [hawaits]
    rfl
  rw [hlast]
  refine ⟨hawaits, htap, hclocked, ?_⟩
  rw [hanswers, h.answers, List.nil_append, has]

/-- As many answers as pairs. -/
theorem length_answers_wire (l : List (Bool × Bool)) {c : Chip} (h : c.Ready) :
    (c.recvAll (wire l)).answers.length = l.length := by
  have hmap := congrArg List.length (recvAll_wire l h).2.2.2
  rwa [List.length_map, JtagTapController.length_tdoBits] at hmap

/-- The first `n` answers have been read. -/
def skip (c : Chip) (n : ℕ) : Chip := { c with answers := c.answers.drop n }

end Chip

/-! ### The link -/

/-- An honest link to a chip. Whatever an exchange comes to, the chip has executed a number
of the bytes written, at least those said to be accepted; and the bytes returned are the
first ones of its answers, which are gone then. -/
structure ChipLink (δ : Type) extends UsbLink δ where
  /-- `wMaxPacketSize` of the bulk IN endpoint. -/
  packetSize : ℕ
  /-- The chip at the end of the link. -/
  chip : δ → Chip
  executed : δ → List Byte → ℕ
  accepted_le : ∀ d bytes, (exchange d bytes).1.accepted ≤ executed d bytes
  payload_prefix : ∀ d bytes, (exchange d bytes).1.payload packetSize <+:
    ((chip d).recvAll (bytes.take (executed d bytes))).answers
  chip_after : ∀ d bytes, chip (exchange d bytes).2 =
    ((chip d).recvAll (bytes.take (executed d bytes))).skip
      ((exchange d bytes).1.payload packetSize).length

namespace ChipLink

variable {δ : Type} (L : ChipLink δ)

/-- **A link on which every transfer succeeds completely**: all bytes written are accepted,
and all answers awaited are returned, if the chip gives as many. -/
def Perfect : Prop :=
  ∀ d bytes rlen, rlen ≤ ((L.chip d).recvAll bytes).answers.length →
    (L.exchange d bytes).1.Completes L.packetSize bytes.length rlen

variable {L}

/-- Over such a link a flush to a chip that is ready comes through. -/
theorem Perfect.sends (hL : L.Perfect) {d : δ} (hd : (L.chip d).Ready) (l : List (Bool × Bool)) :
    L.Sends L.packetSize d l :=
  hL d (wire l) l.length (Chip.length_answers_wire l hd).ge

/-- **An exchange that comes through** clocks its pairs into the controller of a chip that
is ready, brings back the answers to them, and leaves the chip ready. -/
theorem exchange_through {d : δ} (hd : (L.chip d).Ready) {l : List (Bool × Bool)}
    (hs : L.Sends L.packetSize d l) :
    (L.chip (L.after d l)).Ready ∧ (L.chip (L.after d l)).tap = (L.chip d).tap.run l ∧
      (L.chip (L.after d l)).clocked = (L.chip d).clocked ++ l ∧
      (L.received L.packetSize d l).map (·.getLsbD 7) = (L.chip d).tap.tdoBits l := by
  obtain ⟨hawaits, htap, hclocked, hanswers⟩ := Chip.recvAll_wire l hd
  have hlen := Chip.length_answers_wire l hd
  obtain ⟨haccepted, -, hfront⟩ := (L.sends d l).outcome_inv L.packetSize (wire l).length
    l.length
  -- the chip has executed all of it
  have htake : (wire l).take (L.executed d (wire l)) = wire l :=
    List.take_of_length_le (hs.2.1.trans (haccepted.trans (L.accepted_le d (wire l))))
  have hpayload := L.payload_prefix d (wire l)
  have hafter := L.chip_after d (wire l)
  rw [htake] at hpayload hafter
  -- and all of its answers have been received
  have hall : L.received L.packetSize d l = ((L.chip d).recvAll (wire l)).answers :=
    (hfront.trans hpayload).eq_of_length_le (hlen.le.trans hs.2.2)
  have hskip : ((L.chip d).recvAll (wire l)).answers.length ≤
      ((L.sends d l).payload L.packetSize).length := by
    rw [← hall]
    exact hfront.length_le
  rw [UsbLink.after, hafter]
  exact ⟨⟨hawaits, List.drop_eq_nil_of_le hskip⟩, htap, hclocked, by rw [hall, hanswers]⟩

end ChipLink

namespace Otma

/-! ### The chip along a flush -/

section Along

variable {δ : Type} {L : ChipLink δ} {d : δ} {l : List (Bool × Bool)}

/-- The pairs up to the end of a segment. -/
theorem take_segment (l : List (Bool × Bool)) (j : ℕ) :
    l.take (flushBits * (j + 1)) = l.take (flushBits * j) ++ segment l j := by
  rw [segment, Nat.mul_succ, List.take_add]

/-- **Before exchange number `j`** the controller has been clocked with the segments before
it, if they have all come through. -/
theorem chip_devAt (hd : (L.chip d).Ready) {j : ℕ}
    (hthrough : ∀ i < j, Through l L.toUsbLink L.packetSize d i) :
    (L.chip (devAt l L.toUsbLink d j)).Ready ∧
      (L.chip (devAt l L.toUsbLink d j)).tap = (L.chip d).tap.run (l.take (flushBits * j)) ∧
      (L.chip (devAt l L.toUsbLink d j)).clocked =
        (L.chip d).clocked ++ l.take (flushBits * j) := by
  induction j with
  | zero => exact ⟨hd, by rw [Nat.mul_zero, List.take_zero]; rfl, by simp [devAt]⟩
  | succ j ih =>
    obtain ⟨hready, htap, hclocked⟩ := ih fun i hi => hthrough i (Nat.lt_succ_of_lt hi)
    obtain ⟨hready', htap', hclocked', -⟩ :=
      ChipLink.exchange_through hready (hthrough j (Nat.lt_succ_self j))
    refine ⟨hready', htap'.trans ?_, hclocked'.trans ?_⟩
    · rw [htap, take_segment, JtagTapController.run_append]
    · rw [hclocked, take_segment, List.append_assoc]

/-- Over a link on which every transfer succeeds, every exchange finds the chip ready, and
comes through. -/
theorem through_of_perfect (hL : L.Perfect) (hd : (L.chip d).Ready) (l : List (Bool × Bool))
    (j : ℕ) : Through l L.toUsbLink L.packetSize d j := by
  induction j using Nat.strong_induction_on with
  | _ j ih => exact hL.sends (chip_devAt hd ih).1 _

/-- So the loop ends that clocks any pairs. -/
theorem ends_of_perfect (hL : L.Perfect) {dev : Option (MpsseCtx δ)} {c : MpsseCtx δ}
    (hctx : dev = some c) (hps : c.maxPacketSize = L.packetSize) (hready : (L.chip c.usb).Ready)
    (l : List (Bool × Bool)) : Ends L.toUsbLink dev l := by
  have hall := through_of_perfect hL hready l
  rw [← hps] at hall
  exact ⟨c, hctx, answered_of_through fun j _ => hall j, fun j _ => hall j⟩

/-- **The answer to a pair** is the TDO bit of the controller for it. -/
theorem answerAt_chip (hd : (L.chip d).Ready)
    (hall : ∀ j, flushBits * j < l.length → Through l L.toUsbLink L.packetSize d j) {p : ℕ}
    (hp : p < l.length) :
    answerAt l L.toUsbLink L.packetSize d p = ((L.chip d).tap.tdoBits l).getD p false := by
  -- the pair is in segment `j`, and the chip has seen the segments before it
  obtain ⟨j, hj⟩ : ∃ j, p / flushBits = j := ⟨_, rfl⟩
  have hmod : p = flushBits * j + p % flushBits := by
    rw [← hj]
    exact (Nat.div_add_mod p flushBits).symm
  have hlt : p % flushBits < flushBits := Nat.mod_lt _ (by decide)
  obtain ⟨hready, htap, -⟩ := chip_devAt hd (l := l) (j := j) fun i hi => hall i (by
    have hmul : flushBits * i ≤ flushBits * j := Nat.mul_le_mul_left _ hi.le
    omega)
  obtain ⟨-, -, -, hreceived⟩ := ChipLink.exchange_through hready (hall j (by omega))
  have hsplit : l = l.take (flushBits * j) ++ (segment l j ++ l.drop (flushBits * (j + 1))) := by
    rw [← List.append_assoc, ← take_segment, List.take_append_drop]
  have hlen : (l.take (flushBits * j)).length = flushBits * j := by
    rw [List.length_take]
    omega
  have hseg : p % flushBits < (segment l j).length := by
    rw [segment, List.length_take, List.length_drop]
    omega
  rw [answerAt, hj]
  conv_rhs => rw [hsplit, hmod, JtagTapController.tdoBits_append,
    JtagTapController.tdoBits_append]
  rw [List.getD_append_right _ _ _ _ (by simp [hlen]), JtagTapController.length_tdoBits, hlen,
    Nat.add_sub_cancel_left, List.getD_append _ _ _ _ (by simpa using hseg), ← htap, ← hreceived]
  simp only [List.getD_eq_getElem?_getD, List.getElem?_map]
  cases (L.received L.packetSize (devAt l L.toUsbLink d j) (segment l j))[p % flushBits]? <;> rfl

/-- The exchanges take in all of the queue. -/
theorem take_exchanges (l : List (Bool × Bool)) :
    l.take (flushBits * exchanges l.length) = l := by
  refine List.take_of_length_le ?_
  rw [exchanges, flushBits_eq]
  omega

/-- **A flush whose exchanges all come through** to a chip that is ready: the controller has
been clocked with the queue, and the first bits of `tdo_data` are its answers. -/
theorem transmit_chip {s : State δ} {c₀ : MpsseCtx δ} (hctx : s.dev = some c₀) (hidle : c₀.Idle)
    (hps : c₀.maxPacketSize = L.packetSize) (hready : (L.chip c₀.usb).Ready)
    (hcap : s.queue.count ≤ capacity)
    (hall : ∀ j, flushBits * j < s.queue.count →
      Through s.queue.bits L.toUsbLink L.packetSize c₀.usb j) :
    ∃ t c, transmit L.toUsbLink s = .ok t ∧ t.dev = some c ∧ t.clocked = s.queue.bits ∧
      t.tdoDataCount = s.tdoDataCount + s.queue.tdiDataCount ∧ c.Idle ∧
      c.maxPacketSize = L.packetSize ∧ (L.chip c.usb).Ready ∧
      (L.chip c.usb).tap = (L.chip c₀.usb).tap.run s.queue.bits ∧
      (L.chip c.usb).clocked = (L.chip c₀.usb).clocked ++ s.queue.bits ∧
      ∀ p < s.queue.count,
        t.tdoData.bit p = ((L.chip c₀.usb).tap.tdoBits s.queue.bits).getD p false := by
  rw [← hps] at hall
  obtain ⟨t, c, hok, hdev, hclocked, hcount, hidle', hps', husb, hbit⟩ :=
    transmit_through hctx hidle hcap hall
  rw [hps, ← Queue.length_bits] at hall
  obtain ⟨hready', htap, hlog⟩ := chip_devAt hready (j := exchanges s.queue.bits.length) fun i hi =>
    hall i (by
      rw [exchanges, flushBits_eq] at hi
      rw [flushBits_eq]
      omega)
  rw [take_exchanges] at htap hlog
  rw [Queue.length_bits] at hready' htap hlog
  refine ⟨t, c, hok, hdev, hclocked, hcount, hidle', hps'.trans hps, by rwa [husb],
    by rw [husb, htap], by rw [husb, hlog], fun p hp => ?_⟩
  rw [hbit p, if_pos hp, hps]
  exact answerAt_chip hready hall (by rwa [Queue.length_bits])

end Along

/-! ### The two plugins agree -/

section Agree

variable {δ : Type} {L : ChipLink δ}

/-- **The hardware plugin and the dummy plugin agree.** Over a link on which every transfer
succeeds completely, take a hardware plugin with an idle context, in front of a ready chip
whose controller is the one of the dummy plugin, and with the same queue. A flush of
either ends without a fault, whatever the callbacks do that there is room for. The two
controllers are in the same state again, the context is idle and the chip ready, and the
host is handed the same count, and the same bits below the number of those queued. -/
theorem agrees_with_dummy (hL : L.Perfect) {s : State δ} {r : Dummy.State} {c₀ : MpsseCtx δ}
    {re : Reentry} (hctx : s.dev = some c₀) (hidle : c₀.Idle)
    (hps : c₀.maxPacketSize = L.packetSize) (hready : (L.chip c₀.usb).Ready)
    (htap : (L.chip c₀.usb).tap = r.dev) (hcells : r.dev.BitCells) (hs : s.Installed)
    (hr : r.Installed) (hqueue : s.queue = r.queue)
    (hfits : HostCall.Fits r.queue.count [.flush re]) (htdo : r.tdoData = .zero)
    (hcount : s.tdoDataCount = r.tdoDataCount) :
    ∃ s' out r' out' c', doFlush L.toUsbLink re s = .ok (s', out) ∧
      Dummy.doFlush re r = .ok (r', out') ∧ s'.dev = some c' ∧ c'.Idle ∧
      (L.chip c'.usb).Ready ∧ (L.chip c'.usb).tap = r'.dev ∧
      ∃ buf buf' count,
        out.callbacks = [.storeTdo s.serverOps.pOpStoreTdo s.serverOpsData buf count,
          .indicateFlush s.serverOps.pOpIndicateFlush s.serverOpsData] ∧
        out'.callbacks = [.storeTdo r.serverOps.pOpStoreTdo r.serverOpsData buf' count,
          .indicateFlush r.serverOps.pOpIndicateFlush r.serverOpsData] ∧
        ∀ j < r.queue.count, buf.bit j = buf'.bit j := by
  obtain ⟨hstore, hindicate, -⟩ := hfits
  have hcap : r.queue.count ≤ capacity := (Nat.le_add_right ..).trans hstore
  obtain ⟨t, c', hok, hdev, -, hcount', hidle', -, hready', htap', -, hbit⟩ :=
    transmit_chip (s := s) hctx hidle hps hready (by rwa [hqueue]) fun j _ => by
      rw [hqueue]
      exact through_of_perfect hL hready _ j
  obtain ⟨u, hok', -, hdev', hcount'', hbit'⟩ := Dummy.transmit_ok r hcap
  obtain ⟨q, hflush⟩ := Plugin.doFlush_fits hs hok (by rwa [hqueue]) hindicate
  obtain ⟨q', hflush'⟩ := Plugin.doFlush_fits hr hok' hstore hindicate
  refine ⟨_, _, _, _, c', hflush, hflush', hdev, hidle', hready', ?_, t.tdoData, u.tdoData,
    t.tdoDataCount, rfl, ?_, fun j hj => ?_⟩
  · rw [htap', htap, hqueue]
    exact hdev'.symm
  · rw [Plugin.callbacks, hcount'', hcount', hcount, hqueue]
  · -- `tdo_data` of the dummy plugin is zero, where or-ing in is storing
    rw [hqueue] at hbit
    rw [hbit j hj, hbit' hcells j, htdo, Buf.bit_zero, laidOut_zero, htap]
    exact (bot_sup_eq _).symm

/-- A link without a hitch: all bytes are executed, and every answer comes in a packet of
its own. -/
def perfectLink : ChipLink Chip where
  exchange c bytes :=
    (.smooth bytes.length ((c.recvAll bytes).answers.map fun a => [0x32, 0x60, a]),
      (c.recvAll bytes).skip (c.recvAll bytes).answers.length)
  control c _ := (.success, c)
  packetSize := 512
  chip := id
  executed _ bytes := bytes.length
  accepted_le c bytes := by rw [Exchange.accepted_smooth]
  payload_prefix c bytes := by
    rw [Exchange.payload_smooth, payload_packets, List.take_length]
    exact List.prefix_rfl
  chip_after c bytes := by
    rw [Exchange.payload_smooth, payload_packets, List.take_length]
    rfl

theorem perfectLink_perfect : perfectLink.Perfect := by
  intro c bytes rlen h
  refine Exchange.smooth_completes le_rfl ?_
  rw [show perfectLink.packetSize = 512 from rfl, payload_packets]
  exact h

/-- A chip that has just been switched on. -/
def freshChip : Chip := ⟨.init, .opcode, [], [], fun _ => 0⟩

/-- A context as `mpsse_open` leaves it. -/
def openedCtx {δ : Type} (d : δ) : MpsseCtx δ :=
  ⟨d, 512, .zero, 0, .zero, 0, [], errorOk, []⟩

theorem idle_openedCtx {δ : Type} (d : δ) : (openedCtx d).Idle :=
  ⟨by simp [openedCtx], rfl, rfl, rfl, rfl⟩

/-- The hardware plugin in front of it, with `n` clocks queued that keep TMS at `0`. -/
def queued {δ : Type} (d : δ) (n : BitVec 32) : State δ :=
  ⟨⟨1, 2⟩, 3, ⟨.zero, .zero, n⟩, .zero, 0, some (openedCtx d)⟩

theorem agrees_with_dummy_twoExchanges :
    ∃ s' out r' out' c', doFlush perfectLink.toUsbLink .silent (queued freshChip 6000) =
        .ok (s', out) ∧
      Dummy.doFlush .silent ⟨⟨1, 2⟩, 3, ⟨.zero, .zero, 6000⟩, .zero, 0, .init⟩ = .ok (r', out') ∧
      s'.dev = some c' ∧ c'.Idle ∧ (perfectLink.chip c'.usb).Ready ∧
      (perfectLink.chip c'.usb).tap = r'.dev ∧
      ∃ buf buf' count,
        out.callbacks = [.storeTdo 1 3 buf count, .indicateFlush 2 3] ∧
        out'.callbacks = [.storeTdo 1 3 buf' count, .indicateFlush 2 3] ∧
        ∀ j < 6000, buf.bit j = buf'.bit j :=
  agrees_with_dummy (s := queued freshChip 6000)
    (r := ⟨⟨1, 2⟩, 3, ⟨.zero, .zero, 6000⟩, .zero, 0, .init⟩) perfectLink_perfect rfl
    (idle_openedCtx freshChip) rfl ⟨rfl, rfl⟩ rfl JtagTapController.bitCells_init
    ⟨by decide, by decide⟩ ⟨by decide, by decide⟩ rfl ⟨by decide, by decide, trivial⟩ rfl rfl

end Agree

end Otma

end JtagHw
