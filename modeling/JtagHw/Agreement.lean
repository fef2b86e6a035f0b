import Mathlib.Data.Nat.Log
import JtagHw.Chip

/-!
# Whole sessions with either plugin

The two plugins are one text but for the loop of `do_flush`. In front of a chip whose
controller is in the state of the dummy plugin's own, and over a link on which every
transfer succeeds, the hardware plugin *mirrors* the dummy plugin (`JtagHw.Otma.Mirrors`),
and no call of the host tells the two apart: both return the same, hand the host the same
callbacks with the same buffers, or stop with the same fault
(`JtagHw.Otma.step_same`). So it is with every session, as long as the line that the
hardware plugin logs in `init_dev` fits the buffer it is written to – the dummy plugin is
compiled without it (`JtagHw.Otma.sessions_agree`). And what is known of the sessions of the
dummy plugin is known of the chip (`JtagHw.Otma.hardware_session`).
-/

namespace JtagHw

open PackedBits Fallible

namespace Otma

variable {δ : Type} {L : ChipLink δ}

/-- **The hardware plugin mirrors the dummy plugin**: the globals are the same, and behind the
context there is a chip with the same controller, ready for commands. -/
structure Mirrors (L : ChipLink δ) (s : State δ) (r : Dummy.State) : Prop where
  serverOps : s.serverOps = r.serverOps
  serverOpsData : s.serverOpsData = r.serverOpsData
  queue : s.queue = r.queue
  count_le : r.queue.count ≤ capacity
  tdoData : s.tdoData = .zero ∧ r.tdoData = .zero
  tdoDataCount : s.tdoDataCount = r.tdoDataCount
  cells : r.dev.BitCells
  chip : ∃ c, s.dev = some c ∧ c.Idle ∧ c.maxPacketSize = L.packetSize ∧
    (L.chip c.usb).Ready ∧ (L.chip c.usb).tap = r.dev

namespace Mirrors

variable {s : State δ} {r : Dummy.State}

/-- What the two loops leave behind is the same, up to the device. -/
theorem transmit (hL : L.Perfect) (h : Mirrors L s r) :
    ∃ t u c, Otma.transmit L.toUsbLink s = .ok t ∧ Dummy.transmit r = .ok u ∧
      t.clocked = u.clocked ∧ t.tdoData = u.tdoData ∧ t.tdoDataCount = u.tdoDataCount ∧
      u.dev.BitCells ∧ t.dev = some c ∧ c.Idle ∧ c.maxPacketSize = L.packetSize ∧
      (L.chip c.usb).Ready ∧ (L.chip c.usb).tap = u.dev := by
  obtain ⟨c₀, hctx, hidle, hps, hready, htap⟩ := h.chip
  have hcap : s.queue.count ≤ capacity := by
    rw [h.queue]
    exact h.count_le
  obtain ⟨t, c, ht, hdev, hclocked, hcount, hidle', hps', hready', htap', -, hbit⟩ :=
    transmit_chip hctx hidle hps hready hcap fun j _ => through_of_perfect hL hready _ j
  obtain ⟨u, hu, hclocked', hdev', hcount', hbit'⟩ := Dummy.transmit_ok r h.count_le
  -- past the bits queued nothing has been written
  have hall := through_of_perfect hL hready s.queue.bits
  rw [← hps] at hall
  obtain ⟨t', -, ht', -, -, -, -, -, hpast⟩ := transmit_recovers (L := L.toUsbLink) hctx hidle
    hcap (answered_of_through fun j _ => hall j) fun j _ => hall j
  obtain rfl : t' = t := by
    rw [ht] at ht'
    cases ht'
    rfl
  refine ⟨t', u, c, ht, hu, ?_, Buf.ext_bit fun p => ?_, ?_, ?_, hdev, hidle', hps', hready', ?_⟩
  · rw [hclocked, hclocked', h.queue]
  · -- `tdo_data` of the dummy plugin is zero, where or-ing in is storing
    rw [hbit' h.cells p, h.tdoData.2, Buf.bit_zero, laidOut_zero]
    refine Eq.trans ?_ (bot_sup_eq _).symm
    rcases Nat.lt_or_ge p s.queue.count with hlt | hge
    · rw [hbit p hlt, htap, h.queue]
      rfl
    · rw [hpast p hge, h.tdoData.1, Buf.bit_zero, List.getD_eq_default]
      · rfl
      · rw [JtagTapController.length_tdoBits, Queue.length_bits, ← h.queue]
        exact hge
  · rw [hcount, hcount', h.tdoDataCount, h.queue]
  · rw [hdev']
    exact h.cells.run _
  · rw [htap', hdev', htap, h.queue]

end Mirrors

/-- **No call tells the two plugins apart.** -/
theorem step_same (hL : L.Perfect) (s : State δ) (r : Dummy.State) (call : HostCall)
    (h : Mirrors L s r) : SameResult (Mirrors L) (step L.toUsbLink s call) (Dummy.step r call) := by
  cases call with
  | clock c =>
    rw [step, Dummy.step, Plugin.step, Plugin.step, h.queue]
    rcases hq : c.exec r.queue with e | q
    · exact rfl
    · have hfit := (c.exec_ok_iff h.count_le).mp ⟨q, hq⟩
      obtain ⟨q', hq', hcount⟩ := c.exec_ok hfit
      cases hq.symm.trans hq'
      exact ⟨⟨h.serverOps, h.serverOpsData, rfl, hcount.le.trans hfit, h.tdoData,
        h.tdoDataCount, h.cells, h.chip⟩, rfl⟩
  | flush re =>
    obtain ⟨t, u, c, ht, hu, hclocked, htdo, hcount, hcells, hchip⟩ := h.transmit hL
    rw [step, Dummy.step, Plugin.step, Plugin.step, Plugin.doFlush_eq, Plugin.doFlush_eq, ht, hu,
      h.serverOps, h.queue]
    simp only
    rcases hq : Plugin.reenter r.serverOps re r.queue with e | q
    · exact rfl
    · obtain ⟨-, -, -, hexec⟩ := Plugin.reenter_inv hq
      obtain ⟨hqcount, hfit⟩ := ClockCall.execAll_inv Queue.count_empty_le hexec
      refine ⟨⟨rfl, h.serverOpsData, rfl, hqcount.le.trans hfit, ⟨rfl, rfl⟩, rfl, hcells, c, hchip⟩,
        ?_⟩
      rw [Plugin.callbacks, Plugin.callbacks, hclocked, htdo, hcount, h.serverOps, h.serverOpsData]
  | initDev desc ops parent =>
    by_cases haccepts : Accepts desc parent
    · simp only [step, Dummy.step, Plugin.step, Plugin.initDev_accepted haccepts]
      exact ⟨⟨rfl, rfl, h.queue, h.count_le, h.tdoData, h.tdoDataCount, h.cells, h.chip⟩, rfl⟩
    · simp only [step, Dummy.step, Plugin.step, Plugin.initDev_refused haccepts]
      exact ⟨h, rfl⟩
  | doClose => exact ⟨h, rfl⟩

/-! ### The line that `init_dev` logs -/

/-- `char buf[4096]` of `debug_write`. -/
def debugBufSize : ℕ := 4096

/-- The characters of a pointer printed with `%p`: `(nil)`, or `0x` and its digits. -/
def ptrLength (p : Ptr) : ℕ := if p = 0 then 5 else 2 + (Nat.log 16 p.toNat + 1)

/-- The bytes of `"[lib] init_dev(desc = %s, s_server_ops = %p, parent = %p)\n"` with its three
arguments, and of the zero byte at its end. -/
def initDevLine (desc : String) (sServerOps parent : Ptr) : ℕ :=
  "[lib] init_dev(desc = ".utf8ByteSize + desc.utf8ByteSize +
    ", s_server_ops = ".utf8ByteSize + ptrLength sServerOps +
    ", parent = ".utf8ByteSize + ptrLength parent + ")\n".utf8ByteSize + 1

theorem ptrLength_le (p : Ptr) : ptrLength p ≤ 18 := by
  rw [ptrLength]
  split_ifs with hp
  · decide
  · have hne : p.toNat ≠ 0 := fun h => hp (BitVec.eq_of_toNat_eq h)
    have hlt : p.toNat < 16 ^ 16 := p.isLt
    have := Nat.log_lt_of_lt_pow hne hlt
    omega

/-- A line with at most `4007` bytes from outside fits. -/
theorem initDevLine_le {desc : String} (h : desc.utf8ByteSize ≤ 4007) (sServerOps parent : Ptr) :
    initDevLine desc sServerOps parent ≤ debugBufSize := by
  have hops := ptrLength_le sServerOps
  have hparent := ptrLength_le parent
  have htext : "[lib] init_dev(desc = ".utf8ByteSize + ", s_server_ops = ".utf8ByteSize +
    ", parent = ".utf8ByteSize + ")\n".utf8ByteSize = 52 := by decide
  rw [initDevLine, debugBufSize]
  omega

/-- A call, with the line that `init_dev` logs before all else. Beside the call stands where the
host keeps the structure with its callbacks. -/
def stepLogged (L : UsbLink δ) (s : State δ) : HostCall × Ptr → Except Fault (State δ × Out)
  | (.initDev desc sServerOps parent, addr) =>
    if initDevLine desc addr parent ≤ debugBufSize then step L s (.initDev desc sServerOps parent)
    else .error .outOfBounds
  | (call, _) => step L s call

/-- The string of a call of `init_dev` is short enough for the line. -/
def ShortDesc : HostCall → Prop
  | .initDev desc _ _ => desc.utf8ByteSize ≤ 4007
  | _ => True

/-- The line is no matter then. -/
theorem stepLogged_of_short (L : UsbLink δ) (s : State δ) {call : HostCall × Ptr}
    (h : ShortDesc call.1) : stepLogged L s call = step L s call.1 := by
  obtain ⟨call, addr⟩ := call
  cases call with
  | initDev desc ops parent => exact if_pos (initDevLine_le h addr parent)
  | _ => rfl

/-- **Whole sessions.** Whatever the host calls, and whatever clock calls its callbacks make: the
hardware plugin shows it what the dummy plugin does, to the fault that may stop both – if it
names its devices in at most `4007` bytes. -/
theorem sessions_agree (hL : L.Perfect) {s : State δ} {r : Dummy.State} (h : Mirrors L s r)
    (calls : List (HostCall × Ptr)) (hdesc : ∀ call ∈ calls, ShortDesc call.1) :
    SameResult (Mirrors L) (Fallible.run (stepLogged L.toUsbLink) s calls)
      (Dummy.run r (calls.map Prod.fst)) := by
  rw [Dummy.run, Plugin.run, run_map]
  refine run_lockstep (fun s r call h hshort => ?_) calls s r h hdesc
  rw [stepLogged_of_short L.toUsbLink s hshort]
  exact step_same hL s r call.1 h

theorem mirrors_opened : Mirrors perfectLink (queued freshChip 0) Dummy.opened :=
  ⟨rfl, rfl, rfl, Queue.count_empty_le, ⟨rfl, rfl⟩, rfl, JtagTapController.bitCells_init,
    openedCtx freshChip, rfl, idle_openedCtx freshChip, rfl, ⟨rfl, rfl⟩, rfl⟩

/-- Words that are no bits, callbacks that clock, a second client, and a client without
callbacks. -/
def twoClients : List (HostCall × Ptr) :=
  [(.clock (.raw 3 7 2), 0), (.flush ⟨[], [.raw 1 0 5]⟩, 0),
    (.initDev "bus-instance" ⟨4, 5⟩ 6, 0x7FFD00001000),
    (.clock (.multiple 0 (fun _ => 0xA5) 6000), 0), (.flush .silent, 0), (.doClose, 0),
    (.initDev "bus-instance" ⟨0, 0⟩ 6, 0x7FFD00002000), (.flush .silent, 0)]

theorem sessions_agree_twoClients :
    SameResult (Mirrors perfectLink)
      (Fallible.run (stepLogged perfectLink.toUsbLink) (queued freshChip 0) twoClients)
      (Dummy.run Dummy.opened (twoClients.map Prod.fst)) :=
  sessions_agree perfectLink_perfect mirrors_opened twoClients (by
    simp only [twoClients, List.mem_cons, List.not_mem_nil, or_false, forall_eq_or_imp, forall_eq,
      ShortDesc]
    decide)

/-- **A session with the hardware plugin is one run of the controller of the chip.** From an empty
queue and a controller freshly constructed, a sequence of clock calls with words that are bits
and of flushes whose callbacks do not call back, never with more bits queued than there is room
for, runs without a fault. The controller of the chip has been clocked with all that has been
flushed and nothing else; the TDO bits delivered are its answers; and what is still queued
completes the stream the calls denote. -/
theorem hardware_session (hL : L.Perfect) {s : State δ} {c₀ : MpsseCtx δ}
    (hctx : s.dev = some c₀) (hidle : c₀.Idle) (hps : c₀.maxPacketSize = L.packetSize)
    (hready : (L.chip c₀.usb).Ready) (htap : (L.chip c₀.usb).tap = .init)
    (hqueue : s.queue = .empty) (htdo : s.tdoData = .zero) (hcount : s.tdoDataCount = 0)
    (hinst : s.Installed) {calls : List HostCall} (hplain : ∀ call ∈ calls, call.Plain)
    (hfits : HostCall.Fits 0 calls) :
    ∃ s' outs c, run L.toUsbLink s calls = .ok (s', outs) ∧ s'.dev = some c ∧ c.Idle ∧
      (L.chip c.usb).Ready ∧
      (L.chip c.usb).tap = JtagTapController.init.run (Batch.fed (Dummy.answers calls)) ∧
      (outs.flatMap Out.delivered).map cbit =
        JtagTapController.init.tdos (Batch.fed (Dummy.answers calls)) ∧
      Batch.fed (Dummy.answers calls) ++ s'.queue.bits =
        Batch.collected (calls.map HostCall.cmd) := by
  -- the dummy plugin with the same globals
  set r : Dummy.State := ⟨s.serverOps, s.serverOpsData, .empty, .zero, 0, .init⟩ with hr
  have hmirrors : Mirrors L s r :=
    ⟨rfl, rfl, hqueue, Queue.count_empty_le, ⟨htdo, rfl⟩, hcount, JtagTapController.bitCells_init,
      c₀, hctx, hidle, hps, hready, htap⟩
  have hrefines : Dummy.Refines r r ⟨[], .init⟩ :=
    ⟨rfl, rfl, Queue.wf_empty, rfl, rfl, rfl, rfl, JtagTapController.bitCells_init⟩
  obtain ⟨r', outs, hrun, hR, hshows⟩ := run_simulates
    (Dummy.step_refines ⟨hinst.store, hinst.indicate⟩) calls r ⟨[], .init⟩ hrefines
    (Dummy.along_allowed hplain hfits)
  obtain ⟨houts, hfinal⟩ :=
    Mealy.run_map (Batch.exec JtagTapController.clock) HostCall.cmd ⟨[], .init⟩ calls
  rw [houts] at hshows
  rw [hfinal] at hR
  have hsame := run_lockstep (P := fun _ => True) (fun s r call h _ => step_same hL s r call h)
    calls s r hmirrors fun _ _ => trivial
  have hrun' : Fallible.run Dummy.step r calls = .ok (r', outs) := hrun
  rw [hrun'] at hsame
  rcases hs : Fallible.run (step L.toUsbLink) s calls with e | ⟨s', outs'⟩ <;> rw [hs] at hsame
  · exact hsame.elim
  · obtain ⟨hmirrors', rfl⟩ := hsame
    obtain ⟨c, hctx', hidle', -, hready', htap'⟩ := hmirrors'.chip
    refine ⟨s', outs', c, hs, hctx', hidle', hready', ?_, ?_, ?_⟩
    · rw [htap', hR.dev, (Batch.delivered_outputs ..).2]
      rfl
    · rw [Dummy.delivered_of_forall₂ hshows (Batch.length_answers _ _ _), Dummy.answers,
        (Batch.delivered_outputs ..).1]
      rfl
    · rw [hmirrors'.queue, hR.bits]
      exact Batch.fed_append_pending ..

theorem dev_queued_freshChip : (queued freshChip 0).dev = some (openedCtx freshChip) := rfl

theorem hardware_session_twoFlushes :
    ∃ s' outs c, run perfectLink.toUsbLink (queued freshChip 0) Dummy.twoFlushes =
        .ok (s', outs) ∧ s'.dev = some c ∧ c.Idle ∧ (perfectLink.chip c.usb).Ready ∧
      (perfectLink.chip c.usb).tap =
        JtagTapController.init.run (Batch.fed (Dummy.answers Dummy.twoFlushes)) ∧
      (outs.flatMap Out.delivered).map cbit =
        JtagTapController.init.tdos (Batch.fed (Dummy.answers Dummy.twoFlushes)) ∧
      Batch.fed (Dummy.answers Dummy.twoFlushes) ++ s'.queue.bits =
        Batch.collected (Dummy.twoFlushes.map HostCall.cmd) :=
  hardware_session perfectLink_perfect dev_queued_freshChip (idle_openedCtx freshChip) rfl
    ⟨rfl, rfl⟩ rfl rfl rfl rfl ⟨by decide, by decide⟩
    (by simp [Dummy.twoFlushes, HostCall.Plain, ClockCall.IsBits])
    (by
      simp only [Dummy.twoFlushes, HostCall.Fits, Reentry.silent, ClockCall.total_nil]
      decide)

end Otma

end JtagHw
