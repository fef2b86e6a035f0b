import Mathlib.Tactic.Set
import JtagHw.Lib.PackedBits
import JtagHw.Plugin.Queue

/-!
# The USB transfers of a flush

When the MPSSE layer flushes its buffers it submits a write transfer and, if data is
to come back, a read transfer, and polls libusb until both are done; the callbacks
`write_cb` and `read_cb` of `openocd/src/jtag/drivers/mpsse.c` keep the account of
them. What libusb and the device make of the transfers is not in the source. It is
the `JtagHw.Exchange`: whether the submissions succeed, and for every poll the
callbacks it runs and the code it returns. Any exchange can happen. After the last poll
listed the device is silent: the polls time out, and if a transfer is not done by then
the loop goes on for ever, which is an outcome of its own (`JtagHw.Fault.unanswered`).

`JtagHw.runTransfers` is the source's loop with its two callbacks, which copy the chunks
that arrive into the read buffer. What it comes to can be said without buffers:
`JtagHw.Exchange.outcome` only counts the bytes accepted and collects the bytes
received, and the loop does no more than that (`JtagHw.runTransfers_outcome`).
-/

namespace JtagHw

open PackedBits

/-- The size of the read and the write buffer: `mpsse_open` sets `read_size` and
`write_size` to it, and nothing changes them. -/
def bufferSize : ℕ := 16384

theorem bufferSize_eq : bufferSize = 16384 := rfl

/-- The codes libusb returns, as far as `mpsse_flush` tells them apart. -/
inductive UsbRc
  | success
  | noDevice
  | interrupted
  | other
  deriving DecidableEq

/-- The call of a callback, with what libusb has to say to it: the number of bytes
written or the chunk of bytes read, and what becomes of the attempt to submit the
transfer again, if the callback makes one. -/
inductive TransferEvent
  | wrote (actualLength : ℕ) (resubmit : UsbRc)
  | read (chunk : List Byte) (resubmit : UsbRc)

/-- A call of `libusb_handle_events_timeout_completed`: the callbacks it runs, and the
code it returns. -/
structure Poll where
  events : List TransferEvent
  rc : UsbRc

/-- What libusb and the device make of the transfers of one flush. The polls after the ones
listed run no callback, and return `success`. -/
structure Exchange where
  submitWrite : UsbRc
  submitRead : UsbRc
  polls : List Poll

/-- `struct transfer_result`. -/
structure TransferResult where
  done : Bool
  transferred : ℕ

/-- The two transfers of a flush, and the buffer the read one copies to. -/
structure Transfers where
  write : TransferResult
  read : TransferResult
  readBuffer : Buf bufferSize
  /-- The places in the write buffer that the write transfer has been submitted from, each
  time with all that was left. -/
  submitted : List ℕ

/-! ### The callbacks -/

section Callbacks

variable (packetSize writeCount readCount : ℕ)

/-- `write_cb`. The transfer is never longer than what is left to write. -/
def writeCb (actualLength : ℕ) (resubmit : UsbRc) (res : TransferResult) : TransferResult :=
  let transferred := res.transferred + min actualLength (writeCount - res.transferred)
  if transferred = writeCount then ⟨true, transferred⟩
  else if resubmit ≠ .success then ⟨true, transferred⟩
  else ⟨res.done, transferred⟩

/-- The bytes of a chunk that a `memcpy` reads. -/
def slice? (chunk : List Byte) (off len : ℕ) : Option (List Byte) :=
  if off + len ≤ chunk.length then some ((chunk.drop off).take len) else none

/-- The loop of `read_cb` over the packets of a chunk, from packet `i` on: the two
status bytes in front of each are stripped. -/
def readPackets (chunk : List Byte) : ℕ → ℕ → ℕ → TransferResult → Buf bufferSize →
    Except Fault (TransferResult × Buf bufferSize)
  | 0, _, _, res, buf => .ok (res, buf)
  | left + 1, i, chunkRemains, res, buf =>
    if chunkRemains > 2 then do
      let thisSize := min (min (packetSize - 2) (chunkRemains - 2)) (readCount - res.transferred)
      let xs ← access (slice? chunk (packetSize * i + 2) thisSize)
      let buf' ← access (buf.memcpy? res.transferred xs)
      let transferred := res.transferred + thisSize
      if transferred = readCount then .ok (⟨true, transferred⟩, buf')
      else
        readPackets chunk left (i + 1) (chunkRemains - (thisSize + 2))
          ⟨res.done, transferred⟩ buf'
    else .ok (res, buf)

/-- `DIV_ROUND_UP(m, n)`. -/
def divRoundUp (m n : ℕ) : ℕ := (m + n - 1) / n

/-- `DIV_ROUND_UP(m, n)` where `m` is any `unsigned`: the sum wraps. -/
def divRoundUp32 (m n : ℕ) : ℕ := (m + n - 1) % 2 ^ 32 / n

theorem divRoundUp32_of_lt {m n : ℕ} (h : m + n - 1 < 2 ^ 32) :
    divRoundUp32 m n = divRoundUp m n := by
  rw [divRoundUp32, divRoundUp, Nat.mod_eq_of_lt h]

/-- `read_cb`. -/
def readCb (chunk : List Byte) (resubmit : UsbRc) (res : TransferResult) (buf : Buf bufferSize) :
    Except Fault (TransferResult × Buf bufferSize) := do
  let (res', buf') ← readPackets packetSize readCount chunk
    (divRoundUp chunk.length packetSize) 0 chunk.length res buf
  if res'.done then .ok (res', buf')
  else if resubmit ≠ .success then .ok ({ res' with done := true }, buf')
  else .ok (res', buf')

/-- One callback. libusb runs it only for a transfer that is in flight, and that is
one that is not done. -/
def Transfers.deliver : TransferEvent → Transfers → Except Fault Transfers
  | .wrote actualLength resubmit, t =>
    if t.write.done then .ok t
    else
      let res := writeCb writeCount actualLength resubmit t.write
      .ok { t with
        write := res
        submitted := t.submitted ++
          if res.transferred = writeCount then [] else [res.transferred] }
  | .read chunk resubmit, t =>
    if t.read.done then .ok t
    else
      match readCb packetSize readCount chunk resubmit t.read t.readBuffer with
      | .ok (res, buf) => .ok { t with read := res, readBuffer := buf }
      | .error e => .error e

end Callbacks

/-- The polling loop of `mpsse_flush`, over the state `τ` of the transfers. With
`cancelling` it stands in the inner loop, which a code other than `success` leaves for
the outer one; the outer one is left when both transfers are done and on two of the
codes. There is no code to return if it is never left. -/
def pollLoop {m : Type → Type} [Monad m] {τ : Type} (deliver : TransferEvent → τ → m τ)
    (done : τ → Bool) : Bool → UsbRc → List Poll → τ → m (τ × Option UsbRc)
  | _, rc, [], t => pure (t, if done t then some rc else none)
  | cancelling, rc, poll :: polls, t =>
    if done t then pure (t, some rc)
    else do
      let t' ← poll.events.foldlM (fun t ev => deliver ev t) t
      if cancelling then
        if poll.rc ≠ .success then pollLoop deliver done false poll.rc polls t'
        else pollLoop deliver done true poll.rc polls t'
      else if poll.rc = .noDevice ∨ poll.rc = .interrupted then pure (t', some poll.rc)
      else if poll.rc ≠ .success then pollLoop deliver done true poll.rc polls t'
      else pollLoop deliver done false poll.rc polls t'

/-- The loop has returned a code, or it has not returned. -/
def polled : Option UsbRc → Except Fault UsbRc
  | some rc => .ok rc
  | none => .error .unanswered

/-- The transfers of a flush, from the first submission to the error check: how far
they have come, and the last code returned. -/
def runTransfers (packetSize writeCount readCount : ℕ) (x : Exchange) (buf : Buf bufferSize) :
    Except Fault (Transfers × UsbRc) :=
  let start : Transfers := ⟨⟨false, 0⟩, ⟨decide (readCount = 0), 0⟩, buf, [0]⟩
  if x.submitWrite ≠ .success then .ok (start, x.submitWrite)
  else if readCount ≠ 0 ∧ x.submitRead ≠ .success then .ok (start, x.submitRead)
  else do
    let (t, rc) ← pollLoop (Transfers.deliver packetSize writeCount readCount)
      (fun t => t.write.done && t.read.done) false .success x.polls start
    let rc ← polled rc
    .ok (t, rc)

/-! ### The account of the transfers -/

/-- The bytes of the packets of a chunk, `left` packets at most, without the two status
bytes in front of each. -/
def payloadFrom (packetSize : ℕ) : ℕ → List Byte → List Byte
  | 0, _ => []
  | left + 1, rest =>
    if rest.length > 2 then
      (rest.drop 2).take (packetSize - 2) ++ payloadFrom packetSize left (rest.drop packetSize)
    else []

/-- The bytes a chunk carries. -/
def payload (packetSize : ℕ) (chunk : List Byte) : List Byte :=
  payloadFrom packetSize (divRoundUp chunk.length packetSize) chunk

/-- The account of the two transfers of a flush: the number of bytes the device has
accepted, the bytes received, and where the write transfer has been submitted from. -/
structure Progress where
  writeDone : Bool
  written : ℕ
  readDone : Bool
  received : List Byte
  submitted : List ℕ

/-- The account of one callback. -/
def Progress.deliver (packetSize wlen rlen : ℕ) (ev : TransferEvent) (p : Progress) : Progress :=
  match ev with
  | .wrote actualLength resubmit =>
    if p.writeDone then p
    else
      let written := p.written + min actualLength (wlen - p.written)
      { p with
        written := written
        writeDone := decide (written = wlen ∨ resubmit ≠ .success)
        submitted := p.submitted ++ if written = wlen then [] else [written] }
  | .read chunk resubmit =>
    if p.readDone then p
    else
      let received := (p.received ++ payload packetSize chunk).take rlen
      { p with
        received := received
        readDone := decide (received.length = rlen ∨ resubmit ≠ .success) }

namespace Exchange

/-- **What an exchange comes to** for a flush that writes `wlen` bytes and awaits
`rlen`: the bytes accepted and received, and the last code returned, if there is one. -/
def outcome (packetSize wlen rlen : ℕ) (x : Exchange) : Progress × Option UsbRc :=
  let start : Progress := ⟨false, 0, decide (rlen = 0), [], [0]⟩
  if x.submitWrite ≠ .success then (start, some x.submitWrite)
  else if rlen ≠ 0 ∧ x.submitRead ≠ .success then (start, some x.submitRead)
  else
    pollLoop (m := Id) (fun ev p => p.deliver packetSize wlen rlen ev)
      (fun p => p.writeDone && p.readDone) false .success x.polls start

/-- **The transfers of an exchange come through**: it ends with the code `success`, all
bytes written, and all bytes awaited received. -/
def Completes (packetSize wlen rlen : ℕ) (x : Exchange) : Prop :=
  (x.outcome packetSize wlen rlen).2 = some .success ∧
    wlen ≤ (x.outcome packetSize wlen rlen).1.written ∧
      rlen ≤ (x.outcome packetSize wlen rlen).1.received.length

instance (packetSize wlen rlen : ℕ) : DecidablePred (Completes packetSize wlen rlen) :=
  fun _ => inferInstanceAs (Decidable (_ ∧ _ ∧ _))

/-- **The exchange has no end**: before both transfers are done the device falls silent. -/
def Silent (packetSize wlen rlen : ℕ) (x : Exchange) : Prop :=
  (x.outcome packetSize wlen rlen).2 = none

instance (packetSize wlen rlen : ℕ) : DecidablePred (Silent packetSize wlen rlen) :=
  fun _ => inferInstanceAs (Decidable (_ = _))

/-- It does not come through then. -/
theorem Silent.not_completes {packetSize wlen rlen : ℕ} {x : Exchange}
    (h : x.Silent packetSize wlen rlen) : ¬ x.Completes packetSize wlen rlen := by
  rintro ⟨hrc, -⟩
  cases h.symm.trans hrc

end Exchange

/-! ### The loop keeps the account -/

/-- The events of one poll keep a relation, if each of them does. -/
theorem foldlM_rel {τ ρ : Type} {f : TransferEvent → τ → Except Fault τ}
    {g : TransferEvent → ρ → ρ} {R : τ → ρ → Prop}
    (hf : ∀ ev t r, R t r → ∃ t', f ev t = .ok t' ∧ R t' (g ev r)) :
    ∀ (evs : List TransferEvent) (t : τ) (r : ρ), R t r →
      ∃ t', evs.foldlM (fun t ev => f ev t) t = .ok t' ∧
        R t' (evs.foldlM (m := Id) (fun r ev => g ev r) r)
  | [], t, _, h => ⟨t, rfl, h⟩
  | ev :: evs, t, r, h => by
    obtain ⟨t₁, h₁, hR₁⟩ := hf ev t r h
    obtain ⟨t₂, h₂, hR₂⟩ := foldlM_rel hf evs t₁ (g ev r) hR₁
    refine ⟨t₂, ?_, hR₂⟩
    rw [List.foldlM_cons, h₁]
    exact h₂

/-- Two polling loops over related states run alike, if the events keep the relation. -/
theorem pollLoop_rel {τ ρ : Type} {f : TransferEvent → τ → Except Fault τ}
    {g : TransferEvent → ρ → ρ} (dt : τ → Bool) (dr : ρ → Bool) {R : τ → ρ → Prop}
    (hdone : ∀ t r, R t r → dt t = dr r)
    (hf : ∀ ev t r, R t r → ∃ t', f ev t = .ok t' ∧ R t' (g ev r)) :
    ∀ (polls : List Poll) (c : Bool) (rc : UsbRc) (t : τ) (r : ρ), R t r →
      ∃ t', pollLoop f dt c rc polls t = .ok (t', (pollLoop (m := Id) g dr c rc polls r).2) ∧
        R t' (pollLoop (m := Id) g dr c rc polls r).1 := by
  intro polls
  induction polls with
  | nil =>
    intro c rc t r h
    refine ⟨t, ?_, h⟩
    rw [pollLoop, pollLoop, hdone t r h]
    rfl
  | cons poll polls ih =>
    intro c rc t r h
    rw [pollLoop, pollLoop, hdone t r h]
    by_cases hd : dr r = true
    · rw [if_pos hd, if_pos hd]
      exact ⟨t, rfl, h⟩
    · obtain ⟨t', hok, hR⟩ := foldlM_rel hf poll.events t r h
      rw [if_neg hd, if_neg hd, hok]
      simp only [bind, Except.bind]
      split_ifs
      · exact ih _ _ _ _ hR
      · exact ih _ _ _ _ hR
      · exact ⟨t', rfl, hR⟩
      · exact ih _ _ _ _ hR
      · exact ih _ _ _ _ hR

section Account

variable {packetSize wlen rlen : ℕ}

/-- The transfers are where the account says, and a read transfer that is not done still
awaits something. -/
structure Tracks (rlen : ℕ) (t : Transfers) (p : Progress) : Prop where
  writeDone : t.write.done = p.writeDone
  written : t.write.transferred = p.written
  readDone : t.read.done = p.readDone
  received : t.readBuffer.bytes t.read.transferred = p.received
  submitted : t.submitted = p.submitted
  open_lt : t.read.done = false → t.read.transferred < rlen

theorem Tracks.transferred {t : Transfers} {p : Progress} (h : Tracks rlen t p) :
    t.read.transferred = p.received.length := by
  rw [← h.received, Buf.length_bytes]

theorem slice?_eq {chunk : List Byte} {off len : ℕ} (h : off + len ≤ chunk.length) :
    slice? chunk off len = some ((chunk.drop off).take len) :=
  if_pos h

/-- **What one packet adds**: of the bytes after its two status bytes, as many as are
still awaited. -/
theorem copyPacket_ok (hrlen : rlen ≤ bufferSize) (chunk : List Byte) (off : ℕ) {t size : ℕ}
    (buf : Buf bufferSize) (ht : t < rlen) (hlong : 2 < (chunk.drop off).length)
    (hsize : size = min (min (packetSize - 2) ((chunk.drop off).length - 2)) (rlen - t)) :
    ∃ piece buf', slice? chunk (off + 2) size = some piece ∧ buf.memcpy? t piece = some buf' ∧
      buf'.bytes (t + size) =
        buf.bytes t ++ (((chunk.drop off).drop 2).take (packetSize - 2)).take size := by
  have hlen : (chunk.drop off).length = chunk.length - off := List.length_drop
  have hpiece : ((chunk.drop (off + 2)).take size).length = size := by
    rw [List.length_take, List.length_drop]
    omega
  obtain ⟨buf', hcopy, hbytes⟩ := buf.bytes_memcpy t ((chunk.drop (off + 2)).take size)
    (by rw [hpiece]; omega)
  refine ⟨_, buf', slice?_eq (by omega), hcopy, ?_⟩
  rw [hpiece] at hbytes
  rw [hbytes, List.drop_drop, List.take_take, Nat.min_eq_left (by omega)]

/-- **What `read_cb` copies**: of the bytes its packets carry, as many as are still
awaited, after those already received. By induction on the number of packets; the
packets left are the ones of the chunk from `packetSize * i` on. -/
theorem readPackets_ok (hps : 2 < packetSize) (hrlen : rlen ≤ bufferSize) (chunk : List Byte) :
    ∀ (left i : ℕ) (t : ℕ) (buf : Buf bufferSize), t < rlen →
      ∃ t' buf', readPackets packetSize rlen chunk left i (chunk.drop (packetSize * i)).length
          ⟨false, t⟩ buf = .ok (⟨decide (t' = rlen), t'⟩, buf') ∧
        buf'.bytes t' =
          (buf.bytes t ++ payloadFrom packetSize left (chunk.drop (packetSize * i))).take rlen := by
  intro left
  induction left with
  | zero =>
    intro i t buf ht
    refine ⟨t, buf, ?_, ?_⟩
    · rw [readPackets, decide_eq_false (Nat.ne_of_lt ht)]
    · rw [payloadFrom, List.append_nil, List.take_of_length_le (by simpa using ht.le)]
  | succ left ih =>
    intro i t buf ht
    have hlen : (chunk.drop (packetSize * i)).length = chunk.length - packetSize * i :=
      List.length_drop
    rw [readPackets, payloadFrom]
    by_cases hshort : (chunk.drop (packetSize * i)).length > 2
    · rw [if_pos hshort, if_pos hshort]
      set size := min (min (packetSize - 2) ((chunk.drop (packetSize * i)).length - 2)) (rlen - t)
        with hsize
      obtain ⟨piece, buf₁, hslice, hcopy, hbytes⟩ :=
        copyPacket_ok hrlen chunk (packetSize * i) buf ht hshort hsize
      set fresh := ((chunk.drop (packetSize * i)).drop 2).take (packetSize - 2) with hfresh
      have hflen : fresh.length =
          min (packetSize - 2) ((chunk.drop (packetSize * i)).length - 2) := by
        rw [hfresh, List.length_take, List.length_drop]
      simp only [hslice, access, bind, Except.bind, hcopy]
      by_cases hfull : t + size = rlen
      · -- everything awaited has come
        refine ⟨t + size, buf₁, by rw [if_pos hfull, decide_eq_true hfull], ?_⟩
        have hfit : size ≤ fresh.length := by omega
        have hold : (buf.bytes t).take (t + size) = buf.bytes t :=
          List.take_of_length_le (by simp)
        rw [hbytes, ← hfull, List.take_append, hold, Buf.length_bytes, Nat.add_sub_cancel_left,
          List.take_append_of_le_length hfit]
      · -- the whole packet is copied, and the loop goes on with the next one
        have hall : size = fresh.length := by omega
        have hnext : (chunk.drop (packetSize * i)).length - (size + 2) =
            (chunk.drop (packetSize * (i + 1))).length := by
          have hdropped : (chunk.drop (packetSize * (i + 1))).length =
              chunk.length - packetSize * (i + 1) := List.length_drop
          rw [hdropped, Nat.mul_succ]
          omega
        have hdrop : (chunk.drop (packetSize * i)).drop packetSize =
            chunk.drop (packetSize * (i + 1)) := by
          rw [List.drop_drop, Nat.mul_succ]
        obtain ⟨t', buf₂, hloop, hbytes₂⟩ := ih (i + 1) (t + size) buf₁ (by omega)
        refine ⟨t', buf₂, by rw [if_neg hfull, hnext]; exact hloop, ?_⟩
        rw [hbytes₂, hbytes, hall, List.take_length, hdrop, List.append_assoc]
    · rw [if_neg hshort, if_neg hshort]
      refine ⟨t, buf, by rw [decide_eq_false (Nat.ne_of_lt ht)], ?_⟩
      rw [List.append_nil, List.take_of_length_le (by simpa using ht.le)]

theorem readCb_ok (hps : 2 < packetSize) (hrlen : rlen ≤ bufferSize) (chunk : List Byte)
    (resubmit : UsbRc) {t : ℕ} (ht : t < rlen) (buf : Buf bufferSize) :
    ∃ t' buf', readCb packetSize rlen chunk resubmit ⟨false, t⟩ buf =
        .ok (⟨decide (t' = rlen ∨ resubmit ≠ .success), t'⟩, buf') ∧
      buf'.bytes t' = (buf.bytes t ++ payload packetSize chunk).take rlen := by
  obtain ⟨t', buf', hloop, hbytes⟩ := readPackets_ok hps hrlen chunk
    (divRoundUp chunk.length packetSize) 0 t buf ht
  rw [Nat.mul_zero, List.drop_zero] at hloop hbytes
  refine ⟨t', buf', ?_, hbytes⟩
  rw [readCb, hloop]
  simp only [bind, Except.bind]
  by_cases hfull : t' = rlen
  · simp [hfull]
  · by_cases hsub : resubmit = .success <;> simp [hfull, hsub]

/-- **A callback keeps the account.** -/
theorem deliver_tracks (wlen : ℕ) (hps : 2 < packetSize) (hrlen : rlen ≤ bufferSize)
    (ev : TransferEvent) (t : Transfers) (p : Progress) (h : Tracks rlen t p) :
    ∃ t', t.deliver packetSize wlen rlen ev = .ok t' ∧
      Tracks rlen t' (p.deliver packetSize wlen rlen ev) := by
  cases ev with
  | wrote actualLength resubmit =>
    rw [Transfers.deliver, Progress.deliver, ← h.writeDone]
    by_cases hd : t.write.done = true
    · -- a transfer that is done has no callback any more
      simp only [if_pos hd]
      exact ⟨t, rfl, h⟩
    · simp only [if_neg hd]
      refine ⟨_, rfl, ?_⟩
      have hfalse : t.write.done = false := by simpa using hd
      constructor
      · simp only [writeCb, h.written, hfalse]
        split_ifs with h1 h2
        · simp [h1]
        · simp [h2]
        · simp [h1, h2]
      · simp only [writeCb, h.written]
        split_ifs <;> rfl
      · exact h.readDone
      · exact h.received
      · simp only [writeCb, h.written, h.submitted]
        split_ifs <;> rfl
      · exact h.open_lt
  | read chunk resubmit =>
    rw [Transfers.deliver, Progress.deliver, ← h.readDone]
    by_cases hd : t.read.done = true
    · simp only [if_pos hd]
      exact ⟨t, rfl, h⟩
    · have hfalse : t.read.done = false := by simpa using hd
      have hread : t.read = ⟨false, t.read.transferred⟩ := by rw [← hfalse]
      obtain ⟨t', buf', hok, hbytes⟩ := readCb_ok hps hrlen chunk resubmit (h.open_lt hfalse)
        t.readBuffer
      rw [← hread] at hok
      rw [h.received] at hbytes
      have hlen : t' = ((p.received ++ payload packetSize chunk).take rlen).length := by
        rw [← hbytes, Buf.length_bytes]
      simp only [if_neg hd, hok]
      refine ⟨_, rfl, h.writeDone, h.written, by simp only [← hlen], hbytes, h.submitted,
        fun hopen => ?_⟩
      have hne : t' ≠ rlen := fun he => by simp [he] at hopen
      have hle : t' ≤ rlen := by
        rw [hlen, List.length_take]
        omega
      exact lt_of_le_of_ne hle hne

/-- **The transfers of a flush come to the outcome of the exchange**: the loop with its
callbacks accesses nothing outside the buffers, and where it ends there are as many bytes
written, and those bytes at the front of the read buffer, that the account says. -/
theorem runTransfers_outcome (wlen : ℕ) (hps : 2 < packetSize) (hrlen : rlen ≤ bufferSize)
    (x : Exchange) (buf : Buf bufferSize) :
    ∃ t, runTransfers packetSize wlen rlen x buf =
        (polled (x.outcome packetSize wlen rlen).2).map (t, ·) ∧
      t.write.transferred = (x.outcome packetSize wlen rlen).1.written ∧
      t.read.transferred = (x.outcome packetSize wlen rlen).1.received.length ∧
      t.readBuffer.bytes t.read.transferred = (x.outcome packetSize wlen rlen).1.received ∧
      t.submitted = (x.outcome packetSize wlen rlen).1.submitted := by
  have hstart : Tracks rlen ⟨⟨false, 0⟩, ⟨decide (rlen = 0), 0⟩, buf, [0]⟩
      ⟨false, 0, decide (rlen = 0), [], [0]⟩ :=
    ⟨rfl, rfl, rfl, rfl, rfl, fun h => Nat.pos_of_ne_zero (by simpa using h)⟩
  rw [runTransfers, Exchange.outcome]
  by_cases hw : x.submitWrite ≠ .success
  · -- nothing is polled when a transfer cannot be submitted
    simp only [if_pos hw]
    exact ⟨_, rfl, rfl, rfl, rfl, rfl⟩
  · by_cases hr : rlen ≠ 0 ∧ x.submitRead ≠ .success
    · simp only [if_neg hw, if_pos hr]
      exact ⟨_, rfl, rfl, rfl, rfl, rfl⟩
    · simp only [if_neg hw, if_neg hr]
      obtain ⟨t, hok, hR⟩ := pollLoop_rel (R := Tracks rlen)
        (fun t : Transfers => t.write.done && t.read.done)
        (fun p : Progress => p.writeDone && p.readDone)
        (fun t p h => by simp only [h.writeDone, h.readDone])
        (fun ev t p h => deliver_tracks wlen hps hrlen ev t p h) x.polls false .success
        _ _ hstart
      refine ⟨t, ?_, hR.written, hR.transferred, hR.received, hR.submitted⟩
      rw [hok]
      simp only [bind, Except.bind]
      cases polled _ <;> rfl

/-! ### What the account is made of -/

/-- The bytes a callback says were accepted. -/
def TransferEvent.accepted : TransferEvent → ℕ
  | wrote actualLength _ => actualLength
  | read .. => 0

/-- The bytes the chunk of a callback carries. -/
def TransferEvent.payload (packetSize : ℕ) : TransferEvent → List Byte
  | wrote .. => []
  | read chunk _ => JtagHw.payload packetSize chunk

namespace Exchange

/-- The callbacks of an exchange, in order. -/
def events (x : Exchange) : List TransferEvent := x.polls.flatMap Poll.events

/-- The number of bytes that, by the callbacks, were accepted. -/
def accepted (x : Exchange) : ℕ := (x.events.map TransferEvent.accepted).sum

/-- The bytes that the chunks carry. -/
def payload (packetSize : ℕ) (x : Exchange) : List Byte :=
  x.events.flatMap (TransferEvent.payload packetSize)

end Exchange

/-- An invariant of the account after the callbacks `evs`: what is written and received
is accounted for by them, and a read transfer that is not done has received all there
was. -/
structure Progress.Inv (packetSize wlen rlen : ℕ) (evs : List TransferEvent) (p : Progress) :
    Prop where
  written_le : p.written ≤ wlen
  accepted_le : p.written ≤ (evs.map TransferEvent.accepted).sum
  received_le : p.received.length ≤ rlen
  received_prefix : p.received <+: evs.flatMap (TransferEvent.payload packetSize)
  open_eq : p.readDone = false → p.received = evs.flatMap (TransferEvent.payload packetSize)

theorem Progress.Inv.deliver {evs : List TransferEvent} {p : Progress}
    (h : p.Inv packetSize wlen rlen evs) (ev : TransferEvent) :
    (p.deliver packetSize wlen rlen ev).Inv packetSize wlen rlen (evs ++ [ev]) := by
  have hsum : ((evs ++ [ev]).map TransferEvent.accepted).sum =
      (evs.map TransferEvent.accepted).sum + ev.accepted := by simp
  have hflat : (evs ++ [ev]).flatMap (TransferEvent.payload packetSize) =
      evs.flatMap (TransferEvent.payload packetSize) ++ ev.payload packetSize := by simp
  have hold := h.written_le
  have holda := h.accepted_le
  cases ev with
  | wrote actualLength resubmit =>
    rw [TransferEvent.payload, List.append_nil] at hflat
    rw [TransferEvent.accepted] at hsum
    rw [Progress.deliver]
    split_ifs with hd
    · exact ⟨hold, by omega, h.received_le, hflat ▸ h.received_prefix, hflat ▸ h.open_eq⟩
    · refine ⟨?_, ?_, h.received_le, hflat ▸ h.received_prefix, hflat ▸ h.open_eq⟩
      · simp only
        omega
      · simp only
        omega
  | read chunk resubmit =>
    rw [TransferEvent.payload] at hflat
    rw [TransferEvent.accepted] at hsum
    rw [Progress.deliver]
    split_ifs with hd
    · refine ⟨hold, by omega, h.received_le, ?_, fun hopen => by simp [hd] at hopen⟩
      rw [hflat]
      exact h.received_prefix.trans (List.prefix_append ..)
    · have hall := h.open_eq (by simpa using hd)
      refine ⟨hold, by simpa only [hsum, Nat.add_zero] using holda, ?_, ?_, fun hopen => ?_⟩
      · simp only [List.length_take]
        omega
      · simp only
        rw [hflat, ← hall]
        exact List.take_prefix ..
      · simp only [decide_eq_false_iff_not, not_or, List.length_take] at hopen
        simp only
        rw [hflat, ← hall, List.take_of_length_le (by omega)]

/-- The events of one poll keep an invariant of the events, if each of them does. -/
theorem foldlM_inv {ρ : Type} {g : TransferEvent → ρ → ρ} {P : List TransferEvent → ρ → Prop}
    (hg : ∀ evs r ev, P evs r → P (evs ++ [ev]) (g ev r)) :
    ∀ (more evs : List TransferEvent) (r : ρ), P evs r →
      P (evs ++ more) (more.foldlM (m := Id) (fun r ev => g ev r) r)
  | [], evs, r, h => by
    rw [List.append_nil]
    exact h
  | ev :: more, evs, r, h => by
    have hnext := foldlM_inv hg more (evs ++ [ev]) (g ev r) (hg evs r ev h)
    rw [List.append_assoc] at hnext
    exact hnext

/-- A polling loop keeps an invariant of its events. -/
theorem pollLoop_inv {ρ : Type} {g : TransferEvent → ρ → ρ} (dr : ρ → Bool)
    {P : List TransferEvent → ρ → Prop} (hg : ∀ evs r ev, P evs r → P (evs ++ [ev]) (g ev r)) :
    ∀ (polls : List Poll) (c : Bool) (rc : UsbRc) (evs : List TransferEvent) (r : ρ), P evs r →
      ∃ evs', evs' <+: evs ++ polls.flatMap Poll.events ∧
        P evs' (pollLoop (m := Id) g dr c rc polls r).1 := by
  intro polls
  induction polls with
  | nil => exact fun c rc evs r h => ⟨evs, by simp, h⟩
  | cons poll polls ih =>
    intro c rc evs r h
    have hnext := foldlM_inv hg poll.events evs r h
    have hmore : ∀ {evs'}, evs' <+: (evs ++ poll.events) ++ polls.flatMap Poll.events →
        evs' <+: evs ++ (poll :: polls).flatMap Poll.events := by
      intro evs' hp
      rwa [List.flatMap_cons, ← List.append_assoc]
    have hstop : evs ++ poll.events <+: evs ++ (poll :: polls).flatMap Poll.events :=
      hmore (List.prefix_append ..)
    have hstay : evs <+: evs ++ (poll :: polls).flatMap Poll.events := List.prefix_append ..
    have hgo : ∀ c' rc', ∃ evs', evs' <+: evs ++ (poll :: polls).flatMap Poll.events ∧
        P evs' (pollLoop (m := Id) g dr c' rc' polls
          (poll.events.foldlM (m := Id) (fun r ev => g ev r) r)).1 := by
      intro c' rc'
      obtain ⟨evs', hp, hP⟩ := ih c' rc' _ _ hnext
      exact ⟨evs', hmore hp, hP⟩
    rw [pollLoop]
    split_ifs
    · -- both transfers are done before the poll
      exact ⟨evs, hstay, h⟩
    · exact hgo _ _
    · exact hgo _ _
    · -- the loop is left, with the events of this poll delivered
      exact ⟨_, hstop, hnext⟩
    · exact hgo _ _
    · exact hgo _ _

/-- **What is written and received is accounted for by the callbacks.** -/
theorem Exchange.outcome_inv (packetSize wlen rlen : ℕ) (x : Exchange) :
    (x.outcome packetSize wlen rlen).1.written ≤ x.accepted ∧
      (x.outcome packetSize wlen rlen).1.received.length ≤ rlen ∧
      (x.outcome packetSize wlen rlen).1.received <+: x.payload packetSize := by
  have hstart : Progress.Inv packetSize wlen rlen [] ⟨false, 0, decide (rlen = 0), [], [0]⟩ :=
    ⟨Nat.zero_le _, Nat.zero_le _, Nat.zero_le _, List.nil_prefix, fun _ => rfl⟩
  rw [Exchange.outcome]
  by_cases hw : x.submitWrite ≠ .success
  · simp only [if_pos hw]
    exact ⟨Nat.zero_le _, Nat.zero_le _, List.nil_prefix⟩
  · by_cases hr : rlen ≠ 0 ∧ x.submitRead ≠ .success
    · simp only [if_neg hw, if_pos hr]
      exact ⟨Nat.zero_le _, Nat.zero_le _, List.nil_prefix⟩
    · simp only [if_neg hw, if_neg hr]
      obtain ⟨evs, hevs, hinv⟩ := pollLoop_inv (fun p : Progress => p.writeDone && p.readDone)
        (P := Progress.Inv packetSize wlen rlen) (fun evs p ev h => h.deliver ev) x.polls false
        .success [] _ hstart
      rw [List.nil_append] at hevs
      obtain ⟨more, hmore⟩ := hevs
      have hsum : (evs.map TransferEvent.accepted).sum ≤ x.accepted := by
        rw [Exchange.accepted, Exchange.events, ← hmore, List.map_append, List.sum_append]
        exact Nat.le_add_right _ _
      have hflat : evs.flatMap (TransferEvent.payload packetSize) <+: x.payload packetSize := by
        rw [Exchange.payload, Exchange.events, ← hmore, List.flatMap_append]
        exact List.prefix_append ..
      exact ⟨hinv.accepted_le.trans hsum, hinv.received_le, hinv.received_prefix.trans hflat⟩

/-! ### What is submitted -/

/-- The write transfer has been submitted from the beginning, and after that each time from a
place farther on that is not the end. -/
structure Submitted (wlen : ℕ) (p : Progress) : Prop where
  head : p.submitted.head? = some 0
  sorted : p.submitted.Pairwise (· ≤ ·)
  le_written : ∀ off ∈ p.submitted, off ≤ p.written
  written_le : p.written ≤ wlen
  lt : ∀ off ∈ p.submitted, off < wlen

theorem Submitted.deliver {p : Progress} (h : Submitted wlen p) (ev : TransferEvent) :
    Submitted wlen (p.deliver packetSize wlen rlen ev) := by
  cases ev with
  | wrote actualLength resubmit =>
    rw [Progress.deliver]
    split_ifs with hd
    · exact h
    · set written := p.written + min actualLength (wlen - p.written) with hwritten
      have hle := h.written_le
      have hmono : ∀ off ∈ p.submitted, off ≤ written := fun off hoff =>
        (h.le_written off hoff).trans (by omega)
      by_cases hall : written = wlen
      · simp only [if_pos hall, List.append_nil]
        exact ⟨h.head, h.sorted, hmono, hall.le, h.lt⟩
      · have hlt : written < wlen := by omega
        simp only [if_neg hall]
        refine ⟨?_, ?_, fun off hoff => ?_, hlt.le, fun off hoff => ?_⟩
        · simp [h.head]
        · rw [List.pairwise_append]
          exact ⟨h.sorted, List.pairwise_singleton .., fun off hoff off' hoff' =>
            (List.mem_singleton.mp hoff') ▸ hmono off hoff⟩
        · rcases List.mem_append.mp hoff with hold | hnew
          · exact hmono off hold
          · exact (List.mem_singleton.mp hnew).le
        · rcases List.mem_append.mp hoff with hold | hnew
          · exact h.lt off hold
          · exact (List.mem_singleton.mp hnew).trans_lt hlt
  | read chunk resubmit =>
    rw [Progress.deliver]
    split_ifs
    · exact h
    · exact ⟨h.head, h.sorted, h.le_written, h.written_le, h.lt⟩

/-- **The submissions of an exchange.** -/
theorem Exchange.outcome_submitted (packetSize rlen : ℕ) (hwlen : 0 < wlen) (x : Exchange) :
    Submitted wlen (x.outcome packetSize wlen rlen).1 := by
  have hstart : Submitted wlen ⟨false, 0, decide (rlen = 0), [], [0]⟩ :=
    ⟨rfl, List.pairwise_singleton .., by simp, Nat.zero_le _, by simpa using hwlen⟩
  rw [Exchange.outcome]
  split_ifs
  · exact hstart
  · exact hstart
  · obtain ⟨-, -, h⟩ := pollLoop_inv (fun p : Progress => p.writeDone && p.readDone)
      (g := fun ev p => p.deliver packetSize wlen rlen ev) (P := fun _ p => Submitted wlen p)
      (fun _ _ ev h => h.deliver ev) x.polls false .success [] _ hstart
    exact h

/-! ### An exchange that comes through -/

/-- An exchange without a hitch: all is accepted at once, and the chunks arrive one after
the other. -/
def Exchange.smooth (accepted : ℕ) (chunks : List (List Byte)) : Exchange where
  submitWrite := .success
  submitRead := .success
  polls := [⟨.wrote accepted .success :: chunks.map (.read · .success), .success⟩]

theorem Exchange.payload_smooth (accepted : ℕ) (chunks : List (List Byte)) :
    (smooth accepted chunks).payload packetSize = chunks.flatMap (JtagHw.payload packetSize) := by
  simp [Exchange.payload, events, smooth, List.flatMap_map, TransferEvent.payload]

theorem Exchange.accepted_smooth (accepted : ℕ) (chunks : List (List Byte)) :
    (smooth accepted chunks).accepted = accepted := by
  have hreads : (chunks.map (.read · .success)).map TransferEvent.accepted =
      List.replicate chunks.length 0 := by
    simp [List.map_map, Function.comp_def, TransferEvent.accepted, List.map_const']
  rw [Exchange.accepted, events, smooth, List.flatMap_singleton, List.map_cons, hreads,
    List.sum_cons, List.sum_replicate_nat, Nat.mul_zero, Nat.add_zero, TransferEvent.accepted]

/-- A poll that returns `success` and after which both transfers are done is the last. -/
theorem pollLoop_last {ρ : Type} {g : TransferEvent → ρ → ρ} (dr : ρ → Bool) {poll : Poll}
    {polls : List Poll} {rc : UsbRc} {r : ρ} (hr : dr r = false) (hrc : poll.rc = .success)
    (hdone : dr (poll.events.foldl (fun r ev => g ev r) r) = true) :
    pollLoop (m := Id) g dr false rc (poll :: polls) r =
      (poll.events.foldl (fun r ev => g ev r) r, some .success) := by
  have hfold : poll.events.foldlM (m := Id) (fun r ev => g ev r) r =
      poll.events.foldl (fun r ev => g ev r) r := List.idRun_foldlM
  rw [pollLoop, if_neg (by simp [hr]), hfold, hrc]
  simp only [bind, Bool.false_eq_true, if_false, reduceCtorEq, or_self, ne_eq, not_true_eq_false]
  cases polls with
  | nil =>
    rw [pollLoop, hdone]
    rfl
  | cons poll' polls =>
    rw [pollLoop, if_pos hdone]
    rfl

theorem take_append_take (l l' : List Byte) (k : ℕ) :
    (l.take k ++ l').take k = (l ++ l').take k := by
  rcases le_total l.length k with h | h
  · rw [List.take_of_length_le h]
  · rw [List.take_append_of_le_length (by rw [List.length_take, Nat.min_eq_left h]), List.take_take,
      Nat.min_self, List.take_append_of_le_length h]

/-- The account of chunks that arrive one after the other, from one where the read
transfer is done just if all that is awaited has been received. -/
theorem foldl_read (packetSize wlen rlen : ℕ) : ∀ (chunks : List (List Byte)) (p : Progress),
    p.readDone = decide (p.received.length = rlen) → p.received.length ≤ rlen →
      ((chunks.map (TransferEvent.read · .success)).foldl
        (fun p ev => p.deliver packetSize wlen rlen ev) p) =
      { p with
        received := (p.received ++ chunks.flatMap (payload packetSize)).take rlen
        readDone := decide
          (((p.received ++ chunks.flatMap (payload packetSize)).take rlen).length = rlen) }
  | [], p, hdone, hle => by
    obtain ⟨wd, w, rd, r⟩ := p
    obtain rfl : rd = decide (r.length = rlen) := hdone
    simp only [List.map_nil, List.foldl_nil, List.flatMap_nil, List.append_nil]
    rw [List.take_of_length_le hle]
  | chunk :: chunks, p, hdone, hle => by
    rw [List.map_cons, List.foldl_cons, Progress.deliver, List.flatMap_cons]
    by_cases hfull : p.received.length = rlen
    · -- a chunk that comes after the last byte awaited is dropped
      rw [hdone, decide_eq_true hfull, if_pos rfl, foldl_read _ _ _ chunks p hdone hle]
      have htake : ∀ l : List Byte, (p.received ++ l).take rlen = p.received := fun l => by
        rw [← hfull, List.take_left]
      rw [htake, htake]
    · rw [hdone, decide_eq_false hfull, if_neg Bool.false_ne_true,
        foldl_read _ _ _ chunks _ (by simp) (by simp only [List.length_take]; omega)]
      simp only [take_append_take, List.append_assoc]

/-- **An exchange without a hitch comes through**, if enough is accepted and enough
arrives. -/
theorem Exchange.smooth_completes {accepted : ℕ} {chunks : List (List Byte)} (hw : wlen ≤ accepted)
    (hr : rlen ≤ (chunks.flatMap (JtagHw.payload packetSize)).length) :
    (smooth accepted chunks).Completes packetSize wlen rlen := by
  have htake : ((chunks.flatMap (JtagHw.payload packetSize)).take rlen).length = rlen := by
    rw [List.length_take, Nat.min_eq_left hr]
  have hread := foldl_read packetSize wlen rlen chunks ⟨true, wlen, decide (rlen = 0), [], [0]⟩
    (by simp [eq_comm]) (Nat.zero_le _)
  have hwrote : Progress.deliver packetSize wlen rlen (.wrote accepted .success)
      ⟨false, 0, decide (rlen = 0), [], [0]⟩ = ⟨true, wlen, decide (rlen = 0), [], [0]⟩ := by
    simp [Progress.deliver, Nat.min_eq_right hw]
  have hout : (smooth accepted chunks).outcome packetSize wlen rlen =
      (⟨true, wlen, true, (chunks.flatMap (JtagHw.payload packetSize)).take rlen, [0]⟩,
        some .success) := by
    rw [outcome]
    simp only [smooth, ne_eq, not_true_eq_false, and_false, if_false]
    rw [pollLoop_last _ rfl rfl, List.foldl_cons, hwrote, hread]
    · simp only [List.nil_append, htake, decide_true]
    · rw [List.foldl_cons, hwrote, hread]
      simp only [List.nil_append, htake, decide_true, Bool.and_self]
  rw [Completes, hout]
  exact ⟨rfl, le_rfl, htake.ge⟩

end Account

/-- Answers that come one to a packet. -/
theorem payload_packets (answers : List Byte) :
    (answers.map fun a => [0x32, 0x60, a]).flatMap (payload 512) = answers := by
  induction answers with
  | nil => rfl
  | cons a answers ih =>
    rw [List.map_cons, List.flatMap_cons, ih]
    simp [payload, divRoundUp, payloadFrom]

end JtagHw
