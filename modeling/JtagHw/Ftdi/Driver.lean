import JtagHw.Mpsse.Deferred

/-!
# The general purpose pins

`openocd/src/jtag/drivers/ftdi.c`, as far as it is compiled. Besides the pins that JTAG needs,
a chip has pins that a board can use for anything: resets, enables, lights. The driver knows
them as *signals*, each some of the sixteen pins, and a signal is driven high or low, let go
of, or read.

The chip only takes whole bytes of pins. So the driver keeps in `output` and `direction` what
it has asked for before, changes the bits of the signal there, and sends a byte only if it
has changed. Are the two still what the chip has, whatever signals have been set and read, and
with the bytes queued in between? They are, as soon as the queue has been flushed
(`JtagHw.ftdi_session`).
-/

namespace JtagHw

open PackedBits Fallible

variable {δ σ : Type}

/-! ### Signals -/

/-- `struct signal`. -/
structure Signal where
  name : String
  dataMask : BitVec 16
  inputMask : BitVec 16
  oeMask : BitVec 16
  invertData : Bool
  invertInput : Bool
  invertOe : Bool
  deriving DecidableEq

/-- `output` and `direction`, or what the chip has for them. -/
structure Gpio where
  output : BitVec 16
  direction : BitVec 16
  deriving DecidableEq

/-- The lower byte of pins. -/
def lowByte (x : BitVec 16) : Byte := (x &&& 0xff).setWidth 8

/-- The upper one. -/
def highByte (x : BitVec 16) : Byte := (x >>> 8).setWidth 8

/-- The `switch` of `ftdi_set_signal`: what is to become of `data` and `oe`, if the signal can be
set to this level. -/
def Signal.level (s : Signal) (value : Char) : Except Fault (Option (Bool × Bool)) :=
  if value = '0' then .ok (some (s.invertData, !s.invertOe))
  else if value = '1' then
    .ok (if s.dataMask = 0 then none else some (!s.invertData, !s.invertOe))
  else if value = 'z' ∨ value = 'Z' then
    .ok (if s.oeMask = 0 then none else some (s.invertData, s.invertOe))
  else .error .assertion

/-- The bits of `mask` set or cleared. -/
def putBits (b : Bool) (mask x : BitVec 16) : BitVec 16 := if b then x ||| mask else x &&& ~~~mask

/-- The assignments to `output` and `direction` in `ftdi_set_signal`. -/
def Signal.put (s : Signal) (data oe : Bool) (g : Gpio) : Gpio :=
  if s.oeMask = s.dataMask then ⟨putBits data s.dataMask g.output, putBits oe s.oeMask g.direction⟩
  else ⟨putBits oe s.oeMask (putBits data s.dataMask g.output), g.direction⟩

/-! ### The driver -/

/-- The static variables of the driver that change: `mpsse_ctx`, `output` and `direction`, and
`freq`. -/
structure Ftdi (δ : Type) where
  ctx : MpsseCtx δ
  gpio : Gpio
  freq : CInt

/-- A call that queues something, with nowhere for an answer to go to. -/
def Ftdi.queue (f : Ftdi δ)
    (call : MpsseCtx δ → Buf 0 → Except Fault (MpsseCtx δ × Buf 0)) : Except Fault (Ftdi δ) := do
  let (ctx, _) ← call f.ctx .zero
  return { f with ctx := ctx }

/-- The end of `ftdi_set_signal`: the lower byte is sent if it is not what it was. -/
def Ftdi.sendLow (L : UsbLink δ) (old new : Gpio) (f : Ftdi δ) : Except Fault (Ftdi δ) :=
  if lowByte new.output ≠ lowByte old.output ∨ lowByte new.direction ≠ lowByte old.direction then
    f.queue (mpsseSetDataBitsLowByte L (lowByte new.output) (lowByte new.direction))
  else .ok f

/-- And so is the upper one. -/
def Ftdi.sendHigh (L : UsbLink δ) (old new : Gpio) (f : Ftdi δ) : Except Fault (Ftdi δ) :=
  if highByte new.output ≠ highByte old.output ∨
      highByte new.direction ≠ highByte old.direction then
    f.queue (mpsseSetDataBitsHighByte L (highByte new.output) (highByte new.direction))
  else .ok f

/-- `int ftdi_set_signal(const struct signal *s, char value)`. -/
def ftdiSetSignal (L : UsbLink δ) (s : Signal) (value : Char) (f : Ftdi δ) :
    Except Fault (CInt × Ftdi δ) :=
  if s.dataMask = 0 ∧ s.oeMask = 0 then .ok (errorFail, f)
  else do
    match ← s.level value with
    | none => return (errorFail, f)
    | some (data, oe) =>
      let new := s.put data oe f.gpio
      let f₁ : Ftdi δ := { f with gpio := new }
      let f₂ ← f₁.sendLow L f.gpio new
      let f₃ ← f₂.sendHigh L f.gpio new
      return (errorOk, f₃)

/-- A byte of pins, read if the signal has some of them. -/
def readIf (wanted : Prop) [Decidable wanted]
    (read : MpsseCtx δ → Buf 2 → Except Fault (MpsseCtx δ × Buf 2)) (c : MpsseCtx δ) (b : Buf 2) :
    Except Fault (MpsseCtx δ × Buf 2) :=
  if wanted then read c b else .ok (c, b)

/-- `int ftdi_get_signal(const struct signal *s, uint16_t *value_out)`, with what it stores, if it
does. The two bytes of the buffer are `data_low` and `data_high`. -/
def ftdiGetSignal (L : UsbLink δ) (s : Signal) (f : Ftdi δ) :
    Except Fault (CInt × Option (BitVec 16) × Ftdi δ) :=
  if s.inputMask = 0 then .ok (errorFail, none, f)
  else do
    let (c₁, b₁) ← readIf (s.inputMask &&& 0xff ≠ 0) (mpsseReadDataBitsLowByte L 0) f.ctx .zero
    let (c₂, b₂) ← readIf (s.inputMask >>> 8 ≠ 0) (mpsseReadDataBitsHighByte L 8) c₁ b₁
    let (_, c₃, b₃) ← mpsseFlush L c₂ b₂
    let value := (b₃ 1).setWidth 16 <<< 8 ||| (b₃ 0).setWidth 16
    let value := if s.invertInput then ~~~value else value
    return (errorOk, some (value &&& s.inputMask), { f with ctx := c₃ })

/-- `int ftdi_speed(int speed)`. -/
def ftdiSpeed (L : UsbLink δ) (type : FtdiChipType) (speed : CInt) (f : Ftdi δ) :
    Except Fault (CInt × Ftdi δ) := do
  let (retval, ctx, _) ← mpsseSetFrequency L type speed f.ctx (Buf.zero : Buf 0)
  return (if retval.toInt < 0 then retval else errorOk, { f with ctx := ctx })

/-! ### Its start -/

/-- The static variables of the driver that are configured. -/
structure FtdiConfig where
  /-- `ftdi_vid` and `ftdi_pid`, up to the end of the list. -/
  ids : List (BitVec 16 × BitVec 16)
  ftdiDeviceDesc : Option String
  ftdiSerial : Option String
  ftdiLocation : Option String
  ftdiChannel : Byte
  jtagOutputInit : BitVec 16
  jtagDirectionInit : BitVec 16
  swdMode : Bool
  signals : List Signal

/-- What its calls of `mpsse_open` ask for. -/
def FtdiConfig.wanted (cfg : FtdiConfig) (vid pid : BitVec 16) : Wanted where
  vid := some vid
  pid := some pid
  product := cfg.ftdiDeviceDesc
  serial := cfg.ftdiSerial
  location := cfg.ftdiLocation

/-- A call of one of the functions. -/
inductive FtdiCall
  | setSignal (s : Signal) (value : Char)
  | getSignal (s : Signal)
  | speed (hz : CInt)

/-- What it returns, and stores. -/
abbrev FtdiOut := CInt × Option (BitVec 16)

/-- One call. -/
def ftdiStep (L : UsbLink δ) (type : FtdiChipType) (f : Ftdi δ) :
    FtdiCall → Except Fault (Ftdi δ × FtdiOut)
  | .setSignal s value => (ftdiSetSignal L s value f).map fun r => (r.2, r.1, none)
  | .getSignal s => (ftdiGetSignal L s f).map fun r => (r.2.2, r.1, r.2.1)
  | .speed hz => (ftdiSpeed L type hz f).map fun r => (r.2, r.1, none)

/-- A signal is set to a level there is, and a frequency can be computed with. -/
def FtdiCall.Fits (type : FtdiChipType) : FtdiCall → Prop
  | setSignal _ value => value ∈ ['0', '1', 'z', 'Z']
  | getSignal _ => True
  | speed hz => baseClock type hz.toNat / 2 + hz.toNat < 2 ^ 31

instance (type : FtdiChipType) : DecidablePred (FtdiCall.Fits type)
  | .setSignal .. => inferInstanceAs (Decidable (_ ∈ _))
  | .getSignal _ => inferInstanceAs (Decidable True)
  | .speed _ => inferInstanceAs (Decidable (_ < _))

/-- A signal set: its pins, and no other. -/
def Signal.set (s : Signal) (value : Char) (g : Gpio) : Gpio × CInt :=
  if s.dataMask = 0 ∧ s.oeMask = 0 then (g, errorFail)
  else
    match s.level value with
    | .ok (some (data, oe)) => (s.put data oe g, errorOk)
    | _ => (g, errorFail)

/-- A signal read, the pins being at `pins`. -/
def Signal.get (s : Signal) (pins : BitVec 16) : FtdiOut :=
  if s.inputMask = 0 then (errorFail, none)
  else (errorOk, some ((if s.invertInput then ~~~pins else pins) &&& s.inputMask))

/-- **What a call does to the pins**: `pins` is the level they are at, as they are driven. -/
def FtdiCall.denote (pins : Gpio → BitVec 16) (type : FtdiChipType) (g : Gpio) :
    FtdiCall → Gpio × FtdiOut
  | setSignal s value => ((s.set value g).1, (s.set value g).2, none)
  | getSignal s => (g, s.get (pins g))
  | speed hz => (g, if hz = 0 ∧ ¬mpsseIsHighSpeed type then errorFail else errorOk, none)

/-- A byte of pins driven. -/
def Gpio.setLow (data dir : Byte) (g : Gpio) : Gpio :=
  ⟨highByte g.output ++ data, highByte g.direction ++ dir⟩

def Gpio.setHigh (data dir : Byte) (g : Gpio) : Gpio :=
  ⟨data ++ lowByte g.output, dir ++ lowByte g.direction⟩

/-- The settings that drive pins. -/
def Setting.Drives : Setting → Prop
  | low .. | high .. => True
  | _ => False

/-- **The pins of a chip**: `latch` is what it has for `output` and `direction`, and `pins` is the
level that the pins are at then. -/
structure GpioPins (P : Port σ) (latch : σ → Gpio) (pins : Gpio → BitVec 16) : Prop where
  low : ∀ s data dir, latch (P.set s (.low data dir)) = (latch s).setLow data dir
  high : ∀ s data dir, latch (P.set s (.high data dir)) = (latch s).setHigh data dir
  other : ∀ s v, ¬v.Drives → latch (P.set s v) = latch s
  level : ∀ s, P.high s ++ P.low s = pins (latch s)

end JtagHw
