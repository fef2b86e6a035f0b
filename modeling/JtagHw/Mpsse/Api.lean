import JtagHw.Mpsse.Open

/-!
# The functions of the MPSSE layer

The rest of `openocd/src/jtag/drivers/mpsse.c`: `mpsse_clock_data`, the functions that set
and read pins and configure the chip, and `mpsse_set_frequency`, next to
`JtagHw.mpsseClockTmsCs` and `JtagHw.mpsseFlush`. Each queues commands in the write buffer,
and asks for the answers in the read queue. Before it does, it makes room for them, by a
flush if need be, whose result is noted in the context (`JtagHw.flushIf`).

All pointers `in` and `data` that the answers go to point into one buffer, and a position
in it is counted in bits from its start. The type of the chip, which `mpsse_open` finds out
and nothing changes, is an argument of the functions that look at it.
-/

namespace JtagHw

open PackedBits

variable {δ : Type} {m n : ℕ}

namespace MpsseCtx

/-- `buffer_write`. -/
def bufferWrite (out : Buf m) (outOffset bitCount : ℕ) (c : MpsseCtx δ) :
    Except Fault (MpsseCtx δ) :=
  if c.writeCount + divRoundUp bitCount 8 ≤ bufferSize then do
    let writeBuffer ← access (bitCopy c.writeBuffer c.writeCount 0 out 0 outOffset bitCount)
    return { c with
      writeBuffer := writeBuffer
      writeCount := c.writeCount + divRoundUp bitCount 8 }
  else .error .assertion

/-- `buffer_write`, where there is something to write. -/
def bufferWriteOut (out : Option (Buf m)) (outOffset bitCount : ℕ) (c : MpsseCtx δ) :
    Except Fault (MpsseCtx δ) :=
  match out with
  | some out => c.bufferWrite out outOffset bitCount
  | none => .ok c

/-- `buffer_add_read`, where there is somewhere to read to. -/
def bufferAddReadIn (inp : Bool) (inOffset bitCount offset : ℕ) (c : MpsseCtx δ) :
    Except Fault (MpsseCtx δ) :=
  if inp then c.bufferAddRead inOffset bitCount offset else .ok c

/-- Several bytes, one after the other. -/
def bufferWriteBytes : List Byte → MpsseCtx δ → Except Fault (MpsseCtx δ)
  | [], c => .ok c
  | data :: rest, c => do
    let c₁ ← c.bufferWriteByte data
    bufferWriteBytes rest c₁

end MpsseCtx

/-- `ctx->retval = mpsse_flush(ctx)`, if there is not enough space. -/
def flushIf (L : UsbLink δ) (full : Prop) [Decidable full] (c : MpsseCtx δ) (inBuf : Buf n) :
    Except Fault (MpsseCtx δ × Buf n) :=
  if full then do
    let (retval, c', inBuf') ← mpsseFlush L c inBuf
    .ok ({ c' with retval := retval }, inBuf')
  else .ok (c, inBuf)

/-! ### `mpsse_clock_data` -/

/-- The condition of the loop's flush: there is not "buffer space enough for a minimum size
transfer". -/
def DataFull (out inp : Bool) (length : ℕ) (c : MpsseCtx δ) : Prop :=
  c.bufferWriteSpace + (if length < 8 then 1 else 0) < (if out ∨ (¬out ∧ ¬inp) then 4 else 3) ∨
    (inp ∧ c.bufferReadSpace < 1)

instance (out inp : Bool) (length : ℕ) (c : MpsseCtx δ) : Decidable (DataFull out inp length c) :=
  inferInstanceAs (Decidable (_ ∨ _))

/-- "Transfer remaining bits in bit mode". -/
def queueBits (out : Option (Buf m)) (outOffset : ℕ) (inp : Bool) (inOffset length : ℕ)
    (mode : Byte) (c : MpsseCtx δ) : Except Fault (MpsseCtx δ) := do
  let c₁ ← c.bufferWriteByte (0x02 ||| mode)
  let c₂ ← c₁.bufferWriteByte (BitVec.ofNat 8 (length - 1))
  let c₃ ← c₂.bufferWriteOut out outOffset length
  let c₄ ← c₃.bufferAddReadIn inp inOffset length (8 - length)
  if ¬out.isSome ∧ ¬inp then c₄.bufferWriteByte 0x00 else .ok c₄

/-- `this_bytes`: all bytes left, but for the "MPSSE command limit" and the "buffer space
limit". -/
def thisBytes (out inp : Bool) (length : ℕ) (c : MpsseCtx δ) : ℕ :=
  let k := if length / 8 > 65536 then 65536 else length / 8
  let k' := if (out ∨ (¬out ∧ ¬inp)) ∧ k + 3 > c.bufferWriteSpace then
    (2 ^ 32 + c.bufferWriteSpace - 3) % 2 ^ 32 else k
  if inp ∧ k' > c.bufferReadSpace then c.bufferReadSpace else k'

/-- "Byte transfer", of `k` bytes. -/
def queueBytes (out : Option (Buf m)) (outOffset : ℕ) (inp : Bool) (inOffset k : ℕ)
    (mode : Byte) (c : MpsseCtx δ) : Except Fault (MpsseCtx δ) := do
  let c₁ ← c.bufferWriteByte mode
  let c₂ ← c₁.bufferWriteByte (BitVec.ofNat 8 ((k - 1) &&& 0xff))
  let c₃ ← c₂.bufferWriteByte (BitVec.ofNat 8 ((k - 1) >>> 8))
  let c₄ ← c₃.bufferWriteOut out outOffset (k * 8)
  let c₅ ← c₄.bufferAddReadIn inp inOffset (k * 8) 0
  if ¬out.isSome ∧ ¬inp then c₅.bufferWriteBytes (List.replicate k 0x00) else .ok c₅

/-- The loop of `mpsse_clock_data`. An iteration that transfers no byte has changed nothing,
unless it has flushed and so made room for one: it would be repeated for ever. -/
def clockDataLoop (L : UsbLink δ) (out : Option (Buf m)) (inp : Bool) (mode : Byte)
    (outOffset inOffset length : ℕ) (c : MpsseCtx δ) (inBuf : Buf n) :
    Except Fault (MpsseCtx δ × Buf n) :=
  if length = 0 then .ok (c, inBuf)
  else
    match flushIf L (DataFull out.isSome inp length c) c inBuf with
    | .error e => .error e
    | .ok (c₁, inBuf₁) =>
      if length < 8 then
        match queueBits out outOffset inp inOffset length mode c₁ with
        | .error e => .error e
        | .ok c₂ => .ok (c₂, inBuf₁)
      else
        let k := thisBytes out.isSome inp length c₁
        if k = 0 then .error .diverges
        else
          match queueBytes out outOffset inp inOffset k mode c₁ with
          | .error e => .error e
          | .ok c₂ =>
            clockDataLoop L out inp mode (outOffset + k * 8) (inOffset + k * 8)
              (length - k * 8) c₂ inBuf₁
termination_by length

/-- `void mpsse_clock_data(struct mpsse_ctx *ctx, const uint8_t *out, unsigned out_offset,
uint8_t *in, unsigned in_offset, unsigned length, uint8_t mode)`; `out` may be `NULL`, and
`inp` says whether `in` is not. -/
def mpsseClockData (L : UsbLink δ) (out : Option (Buf m)) (outOffset : ℕ) (inp : Bool)
    (inOffset length : ℕ) (mode : Byte) (c : MpsseCtx δ) (inBuf : Buf n) :
    Except Fault (MpsseCtx δ × Buf n) :=
  if c.retval ≠ errorOk then .ok (c, inBuf)
  else
    let mode₁ := if out.isSome ∨ (¬out.isSome ∧ ¬inp) then mode ||| 0x10 else mode
    let mode₂ := if inp then mode₁ ||| 0x20 else mode₁
    clockDataLoop L out inp mode₂ outOffset inOffset length c inBuf

/-- `mpsse_clock_data_out`. -/
abbrev mpsseClockDataOut (L : UsbLink δ) (out : Buf m) (outOffset length : ℕ) (mode : Byte)
    (c : MpsseCtx δ) (inBuf : Buf n) : Except Fault (MpsseCtx δ × Buf n) :=
  mpsseClockData L (some out) outOffset false 0 length mode c inBuf

/-- `mpsse_clock_data_in`. -/
abbrev mpsseClockDataIn (L : UsbLink δ) (inOffset length : ℕ) (mode : Byte) (c : MpsseCtx δ)
    (inBuf : Buf n) : Except Fault (MpsseCtx δ × Buf n) :=
  mpsseClockData L (none : Option (Buf 0)) 0 true inOffset length mode c inBuf

/-- `mpsse_clock_tms_cs_out`. -/
abbrev mpsseClockTmsCsOut (L : UsbLink δ) (out : Buf m) (outOffset length : ℕ) (tdi : Bool)
    (mode : Byte) (c : MpsseCtx δ) (inBuf : Buf n) : Except Fault (MpsseCtx δ × Buf n) :=
  mpsseClockTmsCs L out outOffset false 0 length tdi mode c inBuf

/-! ### Commands that do not clock -/

/-- What `mpsse_set_data_bits_low_byte`, `mpsse_set_data_bits_high_byte` and
`mpsse_set_divisor` have in common: a command of several bytes. -/
def queueCommand (L : UsbLink δ) (bytes : List Byte) (c : MpsseCtx δ) (inBuf : Buf n) :
    Except Fault (MpsseCtx δ × Buf n) :=
  if c.retval ≠ errorOk then .ok (c, inBuf)
  else do
    let (c₁, inBuf₁) ← flushIf L (c.bufferWriteSpace < bytes.length) c inBuf
    let c₂ ← c₁.bufferWriteBytes bytes
    return (c₂, inBuf₁)

/-- `void mpsse_set_data_bits_low_byte(struct mpsse_ctx *ctx, uint8_t data, uint8_t dir)`. -/
def mpsseSetDataBitsLowByte (L : UsbLink δ) (data dir : Byte) (c : MpsseCtx δ) (inBuf : Buf n) :
    Except Fault (MpsseCtx δ × Buf n) :=
  queueCommand L [0x80, data, dir] c inBuf

/-- `void mpsse_set_data_bits_high_byte(struct mpsse_ctx *ctx, uint8_t data, uint8_t dir)`. -/
def mpsseSetDataBitsHighByte (L : UsbLink δ) (data dir : Byte) (c : MpsseCtx δ) (inBuf : Buf n) :
    Except Fault (MpsseCtx δ × Buf n) :=
  queueCommand L [0x82, data, dir] c inBuf

/-- What the two functions that read a byte of pins have in common; the byte is to go to the
position `data`. -/
def queueRead (L : UsbLink δ) (op : Byte) (data : ℕ) (c : MpsseCtx δ) (inBuf : Buf n) :
    Except Fault (MpsseCtx δ × Buf n) :=
  if c.retval ≠ errorOk then .ok (c, inBuf)
  else do
    let (c₁, inBuf₁) ← flushIf L (c.bufferWriteSpace < 1 ∨ c.bufferReadSpace < 1) c inBuf
    let c₂ ← c₁.bufferWriteByte op
    let c₃ ← c₂.bufferAddRead data 8 0
    return (c₃, inBuf₁)

/-- `void mpsse_read_data_bits_low_byte(struct mpsse_ctx *ctx, uint8_t *data)`. -/
def mpsseReadDataBitsLowByte (L : UsbLink δ) (data : ℕ) (c : MpsseCtx δ) (inBuf : Buf n) :
    Except Fault (MpsseCtx δ × Buf n) :=
  queueRead L 0x81 data c inBuf

/-- `void mpsse_read_data_bits_high_byte(struct mpsse_ctx *ctx, uint8_t *data)`. -/
def mpsseReadDataBitsHighByte (L : UsbLink δ) (data : ℕ) (c : MpsseCtx δ) (inBuf : Buf n) :
    Except Fault (MpsseCtx δ × Buf n) :=
  queueRead L 0x83 data c inBuf

/-- `single_byte_boolean_helper`. -/
def singleByteBooleanHelper (L : UsbLink δ) (var : Bool) (valIfTrue valIfFalse : Byte)
    (c : MpsseCtx δ) (inBuf : Buf n) : Except Fault (MpsseCtx δ × Buf n) :=
  queueCommand L [if var then valIfTrue else valIfFalse] c inBuf

/-- `void mpsse_loopback_config(struct mpsse_ctx *ctx, bool enable)`. -/
def mpsseLoopbackConfig (L : UsbLink δ) (enable : Bool) (c : MpsseCtx δ) (inBuf : Buf n) :
    Except Fault (MpsseCtx δ × Buf n) :=
  singleByteBooleanHelper L enable 0x84 0x85 c inBuf

/-- `void mpsse_set_divisor(struct mpsse_ctx *ctx, uint16_t divisor)`. -/
def mpsseSetDivisor (L : UsbLink δ) (divisor : BitVec 16) (c : MpsseCtx δ) (inBuf : Buf n) :
    Except Fault (MpsseCtx δ × Buf n) :=
  queueCommand L [0x86, (divisor &&& 0xff).setWidth 8, (divisor >>> 8).setWidth 8] c inBuf

/-- `bool mpsse_is_high_speed(struct mpsse_ctx *ctx)`. -/
def mpsseIsHighSpeed (type : FtdiChipType) : Bool := type ≠ .ft2232c

/-- What the two functions for high-speed chips have in common: any other chip is refused. -/
def highSpeedConfig (L : UsbLink δ) (type : FtdiChipType) (enable : Bool)
    (valIfTrue valIfFalse : Byte) (c : MpsseCtx δ) (inBuf : Buf n) :
    Except Fault (CInt × MpsseCtx δ × Buf n) :=
  if mpsseIsHighSpeed type then do
    let (c', inBuf') ← singleByteBooleanHelper L enable valIfTrue valIfFalse c inBuf
    return (errorOk, c', inBuf')
  else .ok (errorFail, c, inBuf)

/-- `int mpsse_divide_by_5_config(struct mpsse_ctx *ctx, bool enable)`. -/
def mpsseDivideBy5Config (L : UsbLink δ) (type : FtdiChipType) (enable : Bool) (c : MpsseCtx δ)
    (inBuf : Buf n) : Except Fault (CInt × MpsseCtx δ × Buf n) :=
  highSpeedConfig L type enable 0x8B 0x8A c inBuf

/-- `int mpsse_rtck_config(struct mpsse_ctx *ctx, bool enable)`. -/
def mpsseRtckConfig (L : UsbLink δ) (type : FtdiChipType) (enable : Bool) (c : MpsseCtx δ)
    (inBuf : Buf n) : Except Fault (CInt × MpsseCtx δ × Buf n) :=
  highSpeedConfig L type enable 0x96 0x97 c inBuf

/-- The value of an `int` expression; an overflow wraps around. -/
def wrapInt (x : ℤ) : ℤ := x.bmod (2 ^ 32)

/-- The last part of `mpsse_set_frequency`, with the clock it has found. -/
def setFrequencyFrom (L : UsbLink δ) (baseClock frequency : ℤ) (c : MpsseCtx δ) (inBuf : Buf n) :
    Except Fault (CInt × MpsseCtx δ × Buf n) := do
  let sum := wrapInt (wrapInt (baseClock.tdiv 2 + frequency) - 1)
  let divisor := if sum.tdiv frequency - 1 > 65535 then 65535 else sum.tdiv frequency - 1
  if divisor ≥ 0 then
    let (c', inBuf') ← mpsseSetDivisor L (BitVec.ofInt 16 divisor) c inBuf
    return (BitVec.ofInt 32 ((baseClock.tdiv 2).tdiv (1 + divisor)), c', inBuf')
  else .error .assertion

/-- `frequency > 60000000 / 2 / 65536 && mpsse_divide_by_5_config(ctx, false) == ERROR_OK`. -/
def tryFastClock (L : UsbLink δ) (type : FtdiChipType) (frequency : ℤ) (c : MpsseCtx δ)
    (inBuf : Buf n) : Except Fault (Bool × MpsseCtx δ × Buf n) :=
  if frequency > ((60000000 : ℤ).tdiv 2).tdiv 65536 then
    (mpsseDivideBy5Config L type false c inBuf).map fun r => (decide (r.1 = errorOk), r.2)
  else .ok (false, c, inBuf)

/-- `int mpsse_set_frequency(struct mpsse_ctx *ctx, int frequency)`. -/
def mpsseSetFrequency (L : UsbLink δ) (type : FtdiChipType) (frequency : CInt) (c : MpsseCtx δ)
    (inBuf : Buf n) : Except Fault (CInt × MpsseCtx δ × Buf n) :=
  if frequency.toInt ≥ 0 then
    if frequency.toInt = 0 then mpsseRtckConfig L type true c inBuf
    else do
      -- just try
      let (_, c₁, inBuf₁) ← mpsseRtckConfig L type false c inBuf
      let (fast, c₂, inBuf₂) ← tryFastClock L type frequency.toInt c₁ inBuf₁
      if fast then setFrequencyFrom L 60000000 frequency.toInt c₂ inBuf₂
      else do
        -- just try
        let (_, c₃, inBuf₃) ← mpsseDivideBy5Config L type true c₂ inBuf₂
        setFrequencyFrom L 12000000 frequency.toInt c₃ inBuf₃
  else .error .assertion

/-! ### Calls -/

/-- A call of one of the functions, with its arguments. -/
inductive MpsseCall
  | clockData {m : ℕ} (out : Option (Buf m)) (outOffset : ℕ) (inp : Bool) (inOffset length : ℕ)
    (mode : Byte)
  | clockTmsCs {m : ℕ} (out : Buf m) (outOffset : ℕ) (inp : Bool) (inOffset length : ℕ)
    (tdi : Bool) (mode : Byte)
  | setDataBitsLowByte (data dir : Byte)
  | setDataBitsHighByte (data dir : Byte)
  | readDataBitsLowByte (data : ℕ)
  | readDataBitsHighByte (data : ℕ)
  | loopbackConfig (enable : Bool)
  | setDivisor (divisor : BitVec 16)
  | divideBy5Config (enable : Bool)
  | rtckConfig (enable : Bool)
  | setFrequency (frequency : CInt)
  | flush

/-- A function that returns nothing. -/
def noResult (x : Except Fault (MpsseCtx δ × Buf n)) :
    Except Fault ((MpsseCtx δ × Buf n) × Option CInt) :=
  x.map fun r => (r, none)

/-- A function that returns a number. -/
def withResult (x : Except Fault (CInt × MpsseCtx δ × Buf n)) :
    Except Fault ((MpsseCtx δ × Buf n) × Option CInt) :=
  x.map fun r => (r.2, some r.1)

theorem of_noResult {x : Except Fault (MpsseCtx δ × Buf n)} {s : MpsseCtx δ × Buf n}
    {o : Option CInt} (h : noResult x = .ok (s, o)) : x = .ok s := by
  cases x with
  | error e => cases h
  | ok r =>
    cases h
    rfl

/-- One call: the context and the buffer after it, and what is returned. -/
def mpsseStep (L : UsbLink δ) (type : FtdiChipType) (s : MpsseCtx δ × Buf n) :
    MpsseCall → Except Fault ((MpsseCtx δ × Buf n) × Option CInt)
  | .clockData out outOffset inp inOffset length mode =>
    noResult (mpsseClockData L out outOffset inp inOffset length mode s.1 s.2)
  | .clockTmsCs out outOffset inp inOffset length tdi mode =>
    noResult (mpsseClockTmsCs L out outOffset inp inOffset length tdi mode s.1 s.2)
  | .setDataBitsLowByte data dir => noResult (mpsseSetDataBitsLowByte L data dir s.1 s.2)
  | .setDataBitsHighByte data dir => noResult (mpsseSetDataBitsHighByte L data dir s.1 s.2)
  | .readDataBitsLowByte data => noResult (mpsseReadDataBitsLowByte L data s.1 s.2)
  | .readDataBitsHighByte data => noResult (mpsseReadDataBitsHighByte L data s.1 s.2)
  | .loopbackConfig enable => noResult (mpsseLoopbackConfig L enable s.1 s.2)
  | .setDivisor divisor => noResult (mpsseSetDivisor L divisor s.1 s.2)
  | .divideBy5Config enable => withResult (mpsseDivideBy5Config L type enable s.1 s.2)
  | .rtckConfig enable => withResult (mpsseRtckConfig L type enable s.1 s.2)
  | .setFrequency frequency => withResult (mpsseSetFrequency L type frequency s.1 s.2)
  | .flush => withResult (mpsseFlush L s.1 s.2)

end JtagHw
