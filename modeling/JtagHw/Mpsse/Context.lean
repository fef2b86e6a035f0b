import JtagHw.Mpsse.BinaryBuffer
import JtagHw.Mpsse.Transfer
import JtagHw.ShiftReg

/-!
# The MPSSE layer

The part of `openocd/src/jtag/drivers/mpsse.c` that the plugin runs: the context
(`JtagHw.MpsseCtx`), the commands queued in its buffers by
`JtagHw.mpsseClockTmsCs`, and `JtagHw.mpsseFlush`, which sends them and copies the
answers to where they were asked for. A flush is asked for by the caller, and made by
`mpsse_clock_tms_cs` itself when its buffers are full.

The device and everything between it and libusb is a parameter, the
`JtagHw.UsbLink`: for every state of it, what it makes of the transfers of a flush that
writes given bytes, and of a control request. Nothing is assumed of it here. An
assertion that fails is a fault; the build keeps them on. The functions change the
context and the buffer that the pointers `in` of their callers point into.
-/

namespace JtagHw

open PackedBits

/-- `ERROR_OK`. -/
def errorOk : CInt := 0

/-- `ERROR_FAIL`. -/
def errorFail : CInt := -4

theorem errorFail_ne : errorFail ≠ errorOk := by decide

/-- The two requests of `mpsse_purge`. -/
inductive ControlRequest
  | purgeRx
  | purgeTx
  deriving DecidableEq

/-- The device at the other end of the USB link, with the link, as libusb shows it; `δ` is
the type of its states. -/
structure UsbLink (δ : Type) where
  /-- What is made of the transfers of a flush that writes the given bytes. -/
  exchange : δ → List Byte → Exchange × δ
  /-- What is made of a control request. -/
  control : δ → ControlRequest → UsbRc × δ

/-- `struct mpsse_ctx`. The buffers are as large as `mpsse_open` makes them. -/
structure MpsseCtx (δ : Type) where
  /-- `usb_ctx` and `usb_dev`: the open device. -/
  usb : δ
  maxPacketSize : ℕ
  writeBuffer : Buf bufferSize
  writeCount : ℕ
  readBuffer : Buf bufferSize
  readCount : ℕ
  readQueue : List BitCopyEntry
  retval : CInt
  /-- For every flush, what its write transfer has been submitted with, the first time and
  again. No function reads this record. -/
  writes : List (List (List Byte))

namespace MpsseCtx

variable {δ : Type}

/-- `buffer_write_space`, an `unsigned`. -/
def bufferWriteSpace (c : MpsseCtx δ) : ℕ := (2 ^ 32 + bufferSize - c.writeCount - 1) % 2 ^ 32

/-- `buffer_read_space`, an `unsigned`. -/
def bufferReadSpace (c : MpsseCtx δ) : ℕ := (2 ^ 32 + bufferSize - c.readCount) % 2 ^ 32

/-- `buffer_write_byte`. -/
def bufferWriteByte (data : Byte) (c : MpsseCtx δ) : Except Fault (MpsseCtx δ) :=
  if c.writeCount < bufferSize then do
    let writeBuffer ← access (c.writeBuffer.store? c.writeCount data)
    return { c with writeBuffer := writeBuffer, writeCount := c.writeCount + 1 }
  else .error .assertion

/-- `buffer_add_read`. -/
def bufferAddRead (inOffset bitCount offset : ℕ) (c : MpsseCtx δ) : Except Fault (MpsseCtx δ) :=
  if c.readCount + divRoundUp bitCount 8 ≤ bufferSize then
    .ok { c with
      readQueue := c.readQueue ++ [⟨inOffset, c.readCount, offset, bitCount⟩]
      readCount := c.readCount + divRoundUp bitCount 8 }
  else .error .assertion

end MpsseCtx

section Driver

variable {δ : Type} {n : ℕ}

/-- `void mpsse_purge(struct mpsse_ctx *ctx)`. -/
def mpssePurge (L : UsbLink δ) (c : MpsseCtx δ) : MpsseCtx δ :=
  let c' := { c with writeCount := 0, readCount := 0, retval := errorOk, readQueue := [] }
  let rx := L.control c'.usb .purgeRx
  if rx.1 ≠ .success then { c' with usb := rx.2 }
  else { c' with usb := (L.control rx.2 .purgeTx).2 }

/-- `int mpsse_flush(struct mpsse_ctx *ctx)`. -/
def mpsseFlush (L : UsbLink δ) (c : MpsseCtx δ) (inBuf : Buf n) :
    Except Fault (CInt × MpsseCtx δ × Buf n) :=
  if c.retval ≠ errorOk then
    if c.writeCount = 0 ∧ c.readCount = 0 then
      .ok (c.retval, { c with retval := errorOk }, inBuf)
    else .error .assertion
  else if ¬(c.writeCount > 0 ∨ c.readCount = 0) then .error .assertion
  else if c.writeCount = 0 then .ok (c.retval, c, inBuf)
  else do
    -- SEND_IMMEDIATE
    let c₁ ← if c.readCount ≠ 0 then c.bufferWriteByte 0x87 else .ok c
    let bytes := c₁.writeBuffer.bytes c₁.writeCount
    let r := L.exchange c₁.usb bytes
    let (t, rc) ← runTransfers c₁.maxPacketSize c₁.writeCount c₁.readCount r.1 c₁.readBuffer
    let c₂ := { c₁ with
      usb := r.2
      readBuffer := t.readBuffer
      writes := c₁.writes ++ [t.submitted.map bytes.drop] }
    if rc ≠ .success then .ok (errorFail, mpssePurge L c₂, inBuf)
    else if t.write.transferred < c₂.writeCount then .ok (errorFail, mpssePurge L c₂, inBuf)
    else if t.read.transferred < c₂.readCount then .ok (errorFail, mpssePurge L c₂, inBuf)
    else if c₂.readCount ≠ 0 then do
      let inBuf' ← access (bitCopyExecute c₂.readBuffer c₂.readQueue inBuf)
      .ok (errorOk, { c₂ with writeCount := 0, readCount := 0, readQueue := [] }, inBuf')
    else .ok (errorOk, { c₂ with writeCount := 0, readQueue := [] }, inBuf)

variable {m : ℕ}

/-- The first lines of an iteration of the loop of `mpsse_clock_tms_cs`: "Guarantee buffer
space enough for a minimum size transfer". -/
def makeRoom (L : UsbLink δ) (inp : Bool) (c : MpsseCtx δ) (inBuf : Buf n) :
    Except Fault (MpsseCtx δ × Buf n) :=
  if c.bufferWriteSpace < 3 ∨ (inp ∧ c.bufferReadSpace < 1) then do
    let (retval, c', inBuf') ← mpsseFlush L c inBuf
    .ok ({ c' with retval := retval }, inBuf')
  else .ok (c, inBuf)

/-- The rest of the iteration: the command for `thisBits` bits, and the read of its
answer. -/
def queueTms (out : Buf m) (outOffset : ℕ) (inp : Bool) (inOffset thisBits : ℕ) (tdi : Bool)
    (mode : Byte) (c : MpsseCtx δ) : Except Fault (MpsseCtx δ) := do
  let c₁ ← c.bufferWriteByte mode
  let c₂ ← c₁.bufferWriteByte (BitVec.ofNat 8 (thisBits - 1))
  let data ← access (bitCopy (Buf.zero : Buf 1) 0 0 out 0 outOffset thisBits)
  let c₃ ← c₂.bufferWriteByte (data 0 ||| if tdi then 0x80 else 0x00)
  if inp then c₃.bufferAddRead inOffset thisBits (8 - thisBits) else .ok c₃

/-- The loop of `mpsse_clock_tms_cs`: at most seven bits a command. -/
def clockTmsLoop (L : UsbLink δ) (out : Buf m) (inp tdi : Bool) (mode : Byte)
    (outOffset inOffset length : ℕ) (c : MpsseCtx δ) (inBuf : Buf n) :
    Except Fault (MpsseCtx δ × Buf n) :=
  if length = 0 then .ok (c, inBuf)
  else
    match makeRoom L inp c inBuf with
    | .error e => .error e
    | .ok (c₁, inBuf₁) =>
      match queueTms out outOffset inp inOffset (min length 7) tdi mode c₁ with
      | .error e => .error e
      | .ok c₂ =>
        clockTmsLoop L out inp tdi mode (outOffset + min length 7) (inOffset + min length 7)
          (length - min length 7) c₂ inBuf₁
termination_by length

/-- `void mpsse_clock_tms_cs(struct mpsse_ctx *ctx, const uint8_t *out, unsigned out_offset,
uint8_t *in, unsigned in_offset, unsigned length, bool tdi, uint8_t mode)`; `inp` says
whether `in` is not `NULL`, and `out` is a buffer, which is what the function asserts. -/
def mpsseClockTmsCs (L : UsbLink δ) (out : Buf m) (outOffset : ℕ) (inp : Bool)
    (inOffset length : ℕ) (tdi : Bool) (mode : Byte) (c : MpsseCtx δ) (inBuf : Buf n) :
    Except Fault (MpsseCtx δ × Buf n) :=
  if c.retval ≠ errorOk then .ok (c, inBuf)
  else
    let mode₁ := mode ||| 0x42
    let mode₂ := if inp then mode₁ ||| 0x20 else mode₁
    clockTmsLoop L out inp tdi mode₂ outOffset inOffset length c inBuf

end Driver

end JtagHw
