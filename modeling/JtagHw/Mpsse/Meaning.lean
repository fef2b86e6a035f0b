import JtagHw.Lib.Fallible
import JtagHw.Mpsse.Queueing

/-!
# What a call of the MPSSE layer asks for

"There is no need to care about bit/byte transfer or data length limitation", says
`openocd/src/jtag/drivers/mpsse.h`: a call asks for so many ticks, or for a setting, or for
the level of the pins, and how it is cut into commands and exchanges is not its caller's
business. What a call asks for is its meaning over any machine that can be clocked, set and
read (`JtagHw.PinMachine`, `JtagHw.MpsseCall.denote`).

An invariant of the context that says how such a machine stands is one if it survives a
flush and each command that can be queued (`JtagHw.QueueInvariant`). Then it survives every
call, with the machine moved on by what the call asks for
(`JtagHw.QueueInvariant.step`): the loops that cut the bits up are gone through here, once,
whatever is to be known of the device.
-/

namespace JtagHw

open PackedBits MpsseCtx Fallible

/-! ### The meaning of a call -/

/-- A machine that can be clocked, set and read. What is sampled or read is put down from a
position on. -/
structure PinMachine (τ : Type) where
  /-- Some ticks; TDO is sampled, if asked for. -/
  clock : τ → List Tick → Bool → ℕ → τ
  set : τ → Setting → τ
  /-- The pins of the low or the high byte. -/
  read : τ → Bool → ℕ → τ
  clock_nil : ∀ s inp k, clock s [] inp k = s
  clock_append : ∀ s ts ts' inp k,
    clock s (ts ++ ts') inp k = clock (clock s ts inp k) ts' inp (k + ts.length)

/-- The edges that the argument `mode` of a call asks for. -/
def Edges.ofMode (mode : Byte) : Edges := ⟨mode.getLsbD 0, mode.getLsbD 2⟩

/-- The clock that the divisor is computed from. -/
def baseClock (type : FtdiChipType) (frequency : ℕ) : ℕ :=
  if mpsseIsHighSpeed type ∧ 457 < frequency then 60000000 else 12000000

/-- The divisor. -/
def divisorFor (base frequency : ℕ) : ℕ := min ((base / 2 + frequency - 1) / frequency - 1) 65535

/-- What `mpsse_set_frequency` sets. -/
def frequencySettings (type : FtdiChipType) (frequency : ℕ) : List Setting :=
  if frequency = 0 then if mpsseIsHighSpeed type then [.adaptive true] else []
  else
    (if mpsseIsHighSpeed type then [.adaptive false, .divideBy5 (decide (frequency ≤ 457))]
      else []) ++
    [.divisor (BitVec.ofNat 16 (divisorFor (baseClock type frequency) frequency))]

/-- What it returns. -/
def frequencyResult (type : FtdiChipType) (frequency : ℕ) : CInt :=
  if frequency = 0 then if mpsseIsHighSpeed type then errorOk else errorFail
  else BitVec.ofNat 32
    (baseClock type frequency / 2 / (1 + divisorFor (baseClock type frequency) frequency))

namespace MpsseCall

variable {τ : Type}

/-- **What a call asks for**, and what it returns. -/
def denote (M : PinMachine τ) (type : FtdiChipType) (s : τ) : MpsseCall → τ × Option CInt
  | clockData out outOffset inp inOffset length mode =>
    (M.clock s (ticks (dataTick (.ofMode mode) out inp) outOffset length) inp inOffset, none)
  | clockTmsCs out outOffset inp inOffset length tdi mode =>
    (M.clock s (ticks (tmsTick (.ofMode mode) out tdi) outOffset length) inp inOffset, none)
  | setDataBitsLowByte data dir => (M.set s (.low data dir), none)
  | setDataBitsHighByte data dir => (M.set s (.high data dir), none)
  | readDataBitsLowByte data => (M.read s false data, none)
  | readDataBitsHighByte data => (M.read s true data, none)
  | loopbackConfig enable => (M.set s (.loopback enable), none)
  | setDivisor divisor => (M.set s (.divisor divisor), none)
  | divideBy5Config enable =>
    if mpsseIsHighSpeed type then (M.set s (.divideBy5 enable), some errorOk)
    else (s, some errorFail)
  | rtckConfig enable =>
    if mpsseIsHighSpeed type then (M.set s (.adaptive enable), some errorOk)
    else (s, some errorFail)
  | setFrequency frequency =>
    ((frequencySettings type frequency.toNat).foldl M.set s,
      some (frequencyResult type frequency.toNat))
  | flush => (s, some errorOk)

/-- What the caller of a function has to see to, the answers going to a buffer of `n` bytes:
the bits are sent lowest first, they and their answers stay within their buffers, with
positions that an `unsigned` can count, and a frequency is neither negative nor so high that
the computation of the divisor overflows. -/
def Fits (type : FtdiChipType) (n : ℕ) : MpsseCall → Prop
  | @clockData m out outOffset inp inOffset length mode =>
    mode = (Edges.ofMode mode).mode ∧ (out.isSome → outOffset + length ≤ 8 * m) ∧
      (inp = true → inOffset + length ≤ 8 * n) ∧
      outOffset + length < 2 ^ 32 ∧ inOffset + length < 2 ^ 32
  | @clockTmsCs m _ outOffset inp inOffset length _ mode =>
    mode = (Edges.ofMode mode).mode ∧ outOffset + length ≤ 8 * m ∧
      (inp = true → inOffset + length ≤ 8 * n) ∧
      outOffset + length < 2 ^ 32 ∧ inOffset + length < 2 ^ 32
  | readDataBitsLowByte data => data + 8 ≤ 8 * n
  | readDataBitsHighByte data => data + 8 ≤ 8 * n
  | setFrequency frequency =>
    baseClock type frequency.toNat / 2 + frequency.toNat < 2 ^ 31
  | _ => True

instance (type : FtdiChipType) (n : ℕ) : DecidablePred (Fits type n)
  | clockData .. | clockTmsCs .. => inferInstanceAs (Decidable (_ ∧ _ ∧ _ ∧ _ ∧ _))
  | readDataBitsLowByte _ | readDataBitsHighByte _ => inferInstanceAs (Decidable (_ ≤ _))
  | setFrequency _ => inferInstanceAs (Decidable (_ < _))
  | setDataBitsLowByte .. | setDataBitsHighByte .. | loopbackConfig _ | setDivisor _
  | divideBy5Config _ | rtckConfig _ | flush => inferInstanceAs (Decidable True)

end MpsseCall

/-- Some calls: more bits than the buffers hold, bits at odd positions, and settings. -/
def someCalls : List MpsseCall :=
  [.setFrequency 5000000, .setDataBitsLowByte 0x08 0x0B,
    .clockTmsCs (Buf.zero : Buf 4) 3 true 5 20 true 0x0D,
    .clockData (none : Option (Buf 0)) 0 true 7 200003 0x08,
    .clockData (some (Buf.zero : Buf 4)) 1 false 0 29 0x09, .readDataBitsLowByte 3]

theorem fits_someCalls : ∀ call ∈ someCalls, call.Fits .ft232h 26000 := by decide

/-! ### Commands that do not clock -/

namespace Port

variable {σ : Type} (P : Port σ)

/-- The command `k` sets `v`. -/
def Sets (k : Command) (v : Setting) : Prop := ∀ s, P.exec s k = (P.set s v, [])

/-- The pins of the low or the high byte. -/
def pins (s : σ) (high : Bool) : Byte := if high then P.high s else P.low s

/-- The command `k` reads them. -/
def Reads (k : Command) (high : Bool) : Prop := ∀ s, P.exec s k = (s, [P.pins s high])

end Port

/-! ### Invariants of the context -/

section Rule

variable {δ τ : Type} {n : ℕ}

/-- **An invariant of the context and the buffer**, with the machine `M` in the state `s`. It
survives a flush, which may stop with a fault that is `Bad` or return a value that is `Ret`,
and every command queued. Where an error is noted it says nothing of the machine, since the
calls are ignored then. -/
structure QueueInvariant (L : UsbLink δ) (M : PinMachine τ)
    (Inv : τ → MpsseCtx δ → Buf n → Prop) (Bad : Fault → Prop) (Ret : CInt → Prop) : Prop where
  bounded : ∀ {s c b}, Inv s c b → c.writeCount < bufferSize ∧ c.readCount ≤ bufferSize
  noted : ∀ {s c b}, Inv s c b → c.retval ≠ errorOk → ∀ s', Inv s' c b
  flush : ∀ {s c b}, Inv s c b →
    Yields (fun r : CInt × MpsseCtx δ × Buf n =>
      Ret r.1 ∧ Inv s r.2.1 r.2.2 ∧ Inv s { r.2.1 with retval := r.1 } r.2.2 ∧
        r.2.1.writeCount = 0 ∧ r.2.1.readCount = 0) Bad (mpsseFlush L c b)
  clock : ∀ {s c c' b k inp inOffset o ts}, Inv s c b →
    (∀ {σ : Type} (P : Port σ), P.Clocks k inp o ts) → 0 < ts.length →
    o + ts.length ≤ 8 * divRoundUp ts.length 8 → (inp = true → inOffset + ts.length ≤ 8 * n) →
    c.Grows c' (Command.encode k) (readsIf inp inOffset c.readCount o ts.length)
      (if inp then divRoundUp ts.length 8 else 0) →
    c'.writeCount < bufferSize → c'.readCount ≤ bufferSize → Inv (M.clock s ts inp inOffset) c' b
  set : ∀ {s c c' b k v}, Inv s c b → (∀ {σ : Type} (P : Port σ), P.Sets k v) →
    c.Grows c' (Command.encode k) [] 0 → c'.writeCount < bufferSize → Inv (M.set s v) c' b
  read : ∀ {s c c' b k high data}, Inv s c b → (∀ {σ : Type} (P : Port σ), P.Reads k high) →
    data + 8 ≤ 8 * n → c.Grows c' (Command.encode k) [⟨data, c.readCount, 0, 8⟩] 1 →
    c'.writeCount < bufferSize → c'.readCount ≤ bufferSize → Inv (M.read s high data) c' b

namespace QueueInvariant

variable {L : UsbLink δ} {M : PinMachine τ} {Inv : τ → MpsseCtx δ → Buf n → Prop}
  {Bad : Fault → Prop} {Ret : CInt → Prop} {s : τ} {c : MpsseCtx δ} {b : Buf n}

/-- **Making room**: afterwards there is nothing in the buffers, or nothing has been done and
there is room. -/
theorem flushIf (hI : QueueInvariant L M Inv Bad Ret) (h : Inv s c b) (full : Prop)
    [Decidable full] :
    Yields (fun r => Inv s r.1 r.2 ∧ (¬full ∧ r.1 = c ∨ r.1.writeCount = 0 ∧ r.1.readCount = 0))
      Bad (flushIf L full c b) := by
  rw [JtagHw.flushIf]
  split_ifs with hfull
  · refine Yields.bind ?_ (hI.flush h)
    rintro ⟨retval, c', b'⟩ ⟨-, -, hnoted, hw, hr⟩
    exact ⟨hnoted, Or.inr ⟨hw, hr⟩⟩
  · exact ⟨h, Or.inl ⟨hfull, rfl⟩⟩

/-- A context with nothing in its buffers has room for every command. -/
theorem space_of_empty (hw : c.writeCount = 0) (hr : c.readCount = 0) :
    c.bufferWriteSpace = 16383 ∧ c.bufferReadSpace = 16384 := by
  rw [c.bufferWriteSpace_eq (by rw [hw]; decide), c.bufferReadSpace_eq (by rw [hr]; decide)]
  omega

/-! #### Commands that do not clock -/

/-- A command that sets something. -/
theorem queueCommand (hI : QueueInvariant L M Inv Bad Ret) (h : Inv s c b) {k : Command}
    {v : Setting} (hk : ∀ {σ : Type} (P : Port σ), P.Sets k v) (hlen : k.encode.length ≤ 3) :
    Yields (fun r => Inv (M.set s v) r.1 r.2) Bad (queueCommand L k.encode c b) := by
  rw [JtagHw.queueCommand]
  split_ifs with hret
  · exact hI.noted h hret _
  · refine Yields.bind ?_ (hI.flushIf h _)
    rintro ⟨c₁, b₁⟩ ⟨h₁, hroom⟩
    simp only at h₁ hroom
    obtain ⟨hw, hr⟩ := hI.bounded h₁
    have hspace : k.encode.length ≤ c₁.bufferWriteSpace := by
      rcases hroom with ⟨hfull, rfl⟩ | ⟨hw₀, hr₀⟩
      · exact not_lt.mp hfull
      · rw [(space_of_empty hw₀ hr₀).1]
        omega
    rw [c₁.bufferWriteSpace_eq hw] at hspace
    rw [bufferSize_eq] at hw
    obtain ⟨c₂, hok, hg⟩ := MpsseCtx.bufferWriteBytes_grows k.encode (c := c₁)
      (by rw [bufferSize_eq]; omega)
    have hcount := hg.writeCount
    have hlt : c₂.writeCount < bufferSize := by
      rw [bufferSize_eq]
      omega
    dsimp only
    rw [hok]
    exact hI.set h₁ hk hg hlt

/-- A command that reads the pins. -/
theorem queueRead (hI : QueueInvariant L M Inv Bad Ret) (h : Inv s c b) {op : Byte} {k : Command}
    {high : Bool} {data : ℕ} (hop : k.encode = [op])
    (hk : ∀ {σ : Type} (P : Port σ), P.Reads k high) (hdata : data + 8 ≤ 8 * n) :
    Yields (fun r => Inv (M.read s high data) r.1 r.2) Bad (queueRead L op data c b) := by
  rw [JtagHw.queueRead]
  split_ifs with hret
  · exact hI.noted h hret _
  · refine Yields.bind ?_ (hI.flushIf h _)
    rintro ⟨c₁, b₁⟩ ⟨h₁, hroom⟩
    simp only at h₁ hroom
    obtain ⟨hw, hr⟩ := hI.bounded h₁
    have hspace : 1 ≤ c₁.bufferWriteSpace ∧ 1 ≤ c₁.bufferReadSpace := by
      rcases hroom with ⟨hfull, rfl⟩ | ⟨hw₀, hr₀⟩
      · omega
      · rw [(space_of_empty hw₀ hr₀).1, (space_of_empty hw₀ hr₀).2]
        omega
    rw [c₁.bufferWriteSpace_eq hw, c₁.bufferReadSpace_eq hr] at hspace
    have hround : divRoundUp 8 8 = 1 := by decide
    rw [bufferSize_eq] at hw hr
    obtain ⟨c₂, hok₂, hg₂⟩ := c₁.bufferWriteByte_grows op (by rw [bufferSize_eq]; omega)
    obtain ⟨c₃, hok₃, hg₃⟩ := c₂.bufferAddRead_grows data 8 0
      (by rw [hg₂.readCount, hround, bufferSize_eq]; omega)
    have hg := hg₂.then hg₃
    rw [List.append_nil, ← hop, hg₂.readCount, hround] at hg
    have hcount := hg.writeCount
    have hread := hg.readCount
    rw [hop, List.length_singleton] at hcount
    have hlt : c₃.writeCount < bufferSize ∧ c₃.readCount ≤ bufferSize := by
      rw [bufferSize_eq]
      omega
    dsimp only
    rw [hok₂]
    change Yields _ _ (c₂.bufferAddRead data 8 0 >>= _)
    rw [hok₃]
    exact hI.read h₁ hk hdata hg hlt.1 hlt.2

/-! #### Commands that clock -/

/-- There is room for the bits left, if there is room for a transfer of minimum size. -/
theorem room_of_not_dataFull {out inp : Bool} {length : ℕ} (hfull : ¬ DataFull out inp length c)
    (hlt : length < 8) (hw : c.writeCount < bufferSize) (hr : c.readCount ≤ bufferSize) :
    c.writeCount + headerSize out inp < bufferSize ∧
      (inp = true → c.readCount + 1 ≤ bufferSize) := by
  rw [DataFull, c.bufferWriteSpace_eq hw, c.bufferReadSpace_eq hr, if_pos hlt] at hfull
  rw [bufferSize_eq] at hw hr ⊢
  cases out <;> cases inp <;> simp [headerSize] at hfull ⊢ <;> omega

theorem not_dataFull_of_empty (out inp : Bool) (length : ℕ) (hw : c.writeCount = 0)
    (hr : c.readCount = 0) : ¬ DataFull out inp length c := by
  rw [DataFull, (space_of_empty hw hr).1, (space_of_empty hw hr).2]
  split_ifs <;> omega

/-- A command queued that clocks a segment of ticks. -/
theorem clocked (hI : QueueInvariant L M Inv Bad Ret) (h : Inv s c b) {k : Command} {g : ℕ → Tick}
    {first num o size inOffset : ℕ} {inp : Bool} {c' : MpsseCtx δ}
    (hk : ∀ {σ : Type} (P : Port σ), P.Clocks k inp o (ticks g first num)) (hpos : 0 < num)
    (hround : divRoundUp num 8 = size) (hend : o + num ≤ 8 * size)
    (hin : inp = true → inOffset + num ≤ 8 * n)
    (hg : c.Grows c' k.encode (readsIf inp inOffset c.readCount o num) (if inp then size else 0))
    (hwroom : c.writeCount + k.encode.length < bufferSize)
    (hrroom : inp = true → c.readCount + size ≤ bufferSize) :
    Inv (M.clock s (ticks g first num) inp inOffset) c' b := by
  subst hround
  have hcount : c'.writeCount < bufferSize := by
    rw [hg.writeCount]
    exact hwroom
  have hread : c'.readCount ≤ bufferSize := by
    rw [hg.readCount]
    cases inp with
    | false => exact (hI.bounded h).2
    | true => exact hrroom rfl
  exact hI.clock h hk (by rwa [length_ticks]) (by rwa [length_ticks]) (by rwa [length_ticks])
    (by rwa [length_ticks]) hcount hread

/-- **The bits left** of a transfer of data. -/
theorem queueBits (hI : QueueInvariant L M Inv Bad Ret) (h : Inv s c b) {m : ℕ} (e : Edges)
    (out : Option (Buf m)) (inp : Bool) {length outOffset inOffset : ℕ} (hpos : 0 < length)
    (hlt : length < 8) (hfull : ¬ DataFull out.isSome inp length c)
    (hout : out.isSome → outOffset + length ≤ 8 * m)
    (hin : inp = true → inOffset + length ≤ 8 * n) :
    ∃ c', queueBits out outOffset inp inOffset length (dataMode e out.isSome inp) c = .ok c' ∧
      Inv (M.clock s (ticks (dataTick e out inp) outOffset length) inp inOffset) c' b := by
  obtain ⟨hw, hr⟩ := hI.bounded h
  obtain ⟨hwroom, hrroom⟩ := room_of_not_dataFull hfull hlt hw hr
  obtain ⟨k, c', hok, hg, hlen, hk⟩ := queueBits_grows (c := c) e out outOffset inp inOffset hpos
    hlt hout hwroom.le hrroom
  have hround : divRoundUp length 8 = 1 := by
    rw [divRoundUp]
    omega
  exact ⟨c', hok, hI.clocked h hk hpos hround (by omega) hin hg (by rwa [hlen]) hrroom⟩

/-- **As many bytes as fit.** -/
theorem queueBytes (hI : QueueInvariant L M Inv Bad Ret) (h : Inv s c b) {m : ℕ} (e : Edges)
    (out : Option (Buf m)) (inp : Bool) {length outOffset inOffset k : ℕ} (hlen : 8 ≤ length)
    (hfull : ¬ DataFull out.isSome inp length c) (hk : thisBytes out.isSome inp length c = k)
    (hout : out.isSome → outOffset + length ≤ 8 * m)
    (hin : inp = true → inOffset + length ≤ 8 * n) :
    0 < k ∧ k * 8 ≤ length ∧
      ∃ c', queueBytes out outOffset inp inOffset k (dataMode e out.isSome inp) c = .ok c' ∧
        Inv (M.clock s (ticks (dataTick e out inp) outOffset (k * 8)) inp inOffset) c' b := by
  subst hk
  obtain ⟨hw, hr⟩ := hI.bounded h
  obtain ⟨hpos, hlimit, hle, hwroom, hrroom⟩ := thisBytes_bounds hlen hw hr hfull
  set k := thisBytes out.isSome inp length c
  obtain ⟨cmd, c', hok, hg, hlen, hcmd⟩ := queueBytes_grows (c := c) e out outOffset inp inOffset
    hpos hlimit (fun ho => (Nat.add_le_add_left hle _).trans (hout ho)) hwroom.le hrroom
  have hround : divRoundUp (k * 8) 8 = k := by
    rw [divRoundUp]
    omega
  refine ⟨hpos, hle, c', hok, hI.clocked h hcmd (by omega) hround (by omega)
    (fun hi => (Nat.add_le_add_left hle _).trans (hin hi)) hg ?_ hrroom⟩
  rwa [hlen, ← Nat.add_assoc]

/-- **At most seven bits of TMS.** -/
theorem queueTms (hI : QueueInvariant L M Inv Bad Ret) (h : Inv s c b) {m : ℕ} (e : Edges)
    (out : Buf m) (inp tdi : Bool) {thisBits outOffset inOffset : ℕ} (hpos : 0 < thisBits)
    (hle : thisBits ≤ 7) (hspace : 3 ≤ c.bufferWriteSpace ∧ (inp = true → 1 ≤ c.bufferReadSpace))
    (hout : outOffset + thisBits ≤ 8 * m) (hin : inp = true → inOffset + thisBits ≤ 8 * n) :
    ∃ c', queueTms out outOffset inp inOffset thisBits tdi (tmsMode e inp) c = .ok c' ∧
      Inv (M.clock s (ticks (tmsTick e out tdi) outOffset thisBits) inp inOffset) c' b := by
  obtain ⟨hw, hr⟩ := hI.bounded h
  rw [c.bufferWriteSpace_eq hw, c.bufferReadSpace_eq hr] at hspace
  have hwroom : c.writeCount + 3 < bufferSize := by
    rw [bufferSize_eq] at hw ⊢
    omega
  have hrroom : inp = true → c.readCount + 1 ≤ bufferSize := by
    intro hi
    have hone := hspace.2 hi
    rw [bufferSize_eq] at hr ⊢
    omega
  obtain ⟨k, c', hok, hg, hlen, hk⟩ := queueTms_grows (c := c) e out outOffset inp inOffset thisBits
    tdi hpos hle hout hwroom.le hrroom
  have hround : divRoundUp thisBits 8 = 1 := by
    rw [divRoundUp]
    omega
  exact ⟨c', hok, hI.clocked h hk hpos hround (by omega) hin hg (by rwa [hlen]) hrroom⟩

/-- A segment of ticks clocked in two parts. -/
theorem clock_split {g : ℕ → Tick} {first num k : ℕ} {inp : Bool} {inOffset : ℕ} (h : k ≤ num) :
    M.clock s (ticks g first num) inp inOffset =
      M.clock (M.clock s (ticks g first k) inp inOffset) (ticks g (first + k) (num - k)) inp
        (inOffset + k) := by
  have hsplit : ticks g first num = ticks g first k ++ ticks g (first + k) (num - k) := by
    rw [← ticks_add, Nat.add_sub_cancel' h]
  rw [hsplit, M.clock_append, length_ticks]

/-- **The loop of `mpsse_clock_data`**, by induction on the bits left. -/
theorem clockDataLoop (hI : QueueInvariant L M Inv Bad Ret) {m : ℕ} (e : Edges)
    (out : Option (Buf m)) (inp : Bool) : ∀ (length : ℕ) {s : τ} {c : MpsseCtx δ} {b : Buf n}
    (outOffset inOffset : ℕ), Inv s c b → (out.isSome → outOffset + length ≤ 8 * m) →
      (inp = true → inOffset + length ≤ 8 * n) →
      Yields (fun r => Inv (M.clock s (ticks (dataTick e out inp) outOffset length) inp inOffset)
        r.1 r.2) Bad
        (clockDataLoop L out inp (dataMode e out.isSome inp) outOffset inOffset length c b) := by
  intro length
  induction length using Nat.strong_induction_on with
  | _ length ih =>
    intro s c b outOffset inOffset h hout hin
    rw [JtagHw.clockDataLoop]
    by_cases hzero : length = 0
    · have hnil : ticks (dataTick e out inp) outOffset 0 = [] := rfl
      rw [if_pos hzero, hzero, hnil, M.clock_nil]
      exact h
    · rw [if_neg hzero]
      have hflush := hI.flushIf h (DataFull out.isSome inp length c)
      rcases hres : JtagHw.flushIf L (DataFull out.isSome inp length c) c b with f | ⟨c₁, b₁⟩ <;>
        rw [hres] at hflush
      · exact hflush
      · obtain ⟨h₁, hroom⟩ := hflush
        simp only at h₁ hroom ⊢
        have hfull : ¬ DataFull out.isSome inp length c₁ := by
          rcases hroom with ⟨hfull, rfl⟩ | ⟨hw₀, hr₀⟩
          · exact hfull
          · exact not_dataFull_of_empty _ _ _ hw₀ hr₀
        by_cases hlt : length < 8
        · -- the bits left
          obtain ⟨c₂, hok, h₂⟩ := hI.queueBits h₁ e out inp (Nat.pos_of_ne_zero hzero) hlt hfull
            hout hin
          rw [if_pos hlt, hok]
          exact h₂
        · -- as many bytes as fit, and the rest of the loop
          set k := thisBytes out.isSome inp length c₁ with hk
          obtain ⟨hpos, hle, c₂, hok, h₂⟩ := hI.queueBytes h₁ e out inp (not_lt.mp hlt) hfull
            hk.symm hout hin
          have hnext := ih (length - k * 8) (by omega) (outOffset + k * 8) (inOffset + k * 8) h₂
            (fun ho => by have hbound := hout ho; omega) (fun hi => by have hbound := hin hi; omega)
          rw [if_neg hlt, if_neg hpos.ne', hok, clock_split hle]
          exact hnext

/-- The first lines of an iteration of `mpsse_clock_tms_cs` are a conditional flush as well. -/
theorem makeRoom_eq (inp : Bool) :
    makeRoom L inp c b =
      JtagHw.flushIf L (c.bufferWriteSpace < 3 ∨ (inp ∧ c.bufferReadSpace < 1)) c b :=
  rfl

/-- **The loop of `mpsse_clock_tms_cs`.** -/
theorem clockTmsLoop (hI : QueueInvariant L M Inv Bad Ret) {m : ℕ} (e : Edges) (out : Buf m)
    (inp tdi : Bool) : ∀ (length : ℕ) {s : τ} {c : MpsseCtx δ} {b : Buf n}
    (outOffset inOffset : ℕ), Inv s c b → outOffset + length ≤ 8 * m →
      (inp = true → inOffset + length ≤ 8 * n) →
      Yields (fun r => Inv (M.clock s (ticks (tmsTick e out tdi) outOffset length) inp inOffset)
        r.1 r.2) Bad
        (clockTmsLoop L out inp tdi (tmsMode e inp) outOffset inOffset length c b) := by
  intro length
  induction length using Nat.strong_induction_on with
  | _ length ih =>
    intro s c b outOffset inOffset h hout hin
    rw [JtagHw.clockTmsLoop]
    by_cases hzero : length = 0
    · have hnil : ticks (tmsTick e out tdi) outOffset 0 = [] := rfl
      rw [if_pos hzero, hzero, hnil, M.clock_nil]
      exact h
    · rw [if_neg hzero, makeRoom_eq]
      have hflush := hI.flushIf h (c.bufferWriteSpace < 3 ∨ (inp ∧ c.bufferReadSpace < 1))
      rcases hres : JtagHw.flushIf L (c.bufferWriteSpace < 3 ∨ (inp ∧ c.bufferReadSpace < 1)) c b
        with f | ⟨c₁, b₁⟩ <;> rw [hres] at hflush
      · exact hflush
      · obtain ⟨h₁, hroom⟩ := hflush
        simp only at h₁ hroom ⊢
        have hspace : 3 ≤ c₁.bufferWriteSpace ∧ (inp = true → 1 ≤ c₁.bufferReadSpace) := by
          rcases hroom with ⟨hfull, rfl⟩ | ⟨hw₀, hr₀⟩
          · rw [not_or, not_lt, not_and, not_lt] at hfull
            exact hfull
          · rw [(space_of_empty hw₀ hr₀).1, (space_of_empty hw₀ hr₀).2]
            omega
        set k := min length 7 with hk
        obtain ⟨c₂, hok, h₂⟩ := hI.queueTms h₁ e out inp tdi (by omega) (by omega)
          hspace (show outOffset + k ≤ 8 * m by omega)
          (show inp = true → inOffset + k ≤ 8 * n from fun hi => by have hbound := hin hi; omega)
        have hnext := ih (length - k) (by omega) (outOffset + k) (inOffset + k) h₂ (by omega)
          (fun hi => by have hbound := hin hi; omega)
        rw [hok, clock_split (show k ≤ length by omega)]
        exact hnext

/-! #### The calls -/

/-- A configuration that only high-speed chips have. -/
theorem highSpeedConfig (hI : QueueInvariant L M Inv Bad Ret) (type : FtdiChipType)
    (h : Inv s c b) {enable : Bool} {valIfTrue valIfFalse : Byte} {k : Command} {v : Setting}
    (hbyte : [if enable then valIfTrue else valIfFalse] = k.encode)
    (hk : ∀ {σ : Type} (P : Port σ), P.Sets k v) :
    Yields (fun r => Inv (if mpsseIsHighSpeed type then M.set s v else s) r.2.1 r.2.2 ∧
        r.1 = if mpsseIsHighSpeed type then errorOk else errorFail) Bad
      (highSpeedConfig L type enable valIfTrue valIfFalse c b) := by
  rw [JtagHw.highSpeedConfig]
  split_ifs with htype
  · rw [singleByteBooleanHelper, hbyte]
    refine Yields.bind ?_ (hI.queueCommand h hk (by rw [← hbyte, List.length_singleton]; decide))
    rintro ⟨c', b'⟩ h'
    exact ⟨h', rfl⟩
  · exact ⟨h, rfl⟩

theorem wrapInt_of_lt {x : ℕ} (h : x < 2 ^ 31) : wrapInt x = x := by
  rw [wrapInt, Int.bmod_def]
  split_ifs <;> omega

/-- The two bytes of a divisor. -/
theorem divisor_bytes (divisor : BitVec 16) :
    (divisor >>> 8).setWidth 8 ++ (divisor &&& 0xff).setWidth 8 = divisor := by
  refine BitVec.eq_of_getLsbD_eq fun j hj => ?_
  have hmask : ∀ j < 8, (0xff : BitVec 16).getLsbD j = true := by decide
  rw [BitVec.getLsbD_append]
  split_ifs with hlt
  · rw [BitVec.getLsbD_setWidth, BitVec.getLsbD_and, hmask j hlt, decide_eq_true hlt,
      Bool.and_true, Bool.true_and]
  · have hsub : 8 + (j - 8) = j := by omega
    simp [hsub]
    omega

theorem setDivisor (hI : QueueInvariant L M Inv Bad Ret) (h : Inv s c b) (divisor : BitVec 16) :
    Yields (fun r => Inv (M.set s (.divisor divisor)) r.1 r.2) Bad
      (mpsseSetDivisor L divisor c b) := by
  refine hI.queueCommand h (k := .divisor ((divisor &&& 0xff).setWidth 8)
    ((divisor >>> 8).setWidth 8)) (fun P s => ?_) (Nat.le_refl 3)
  rw [Port.exec, Command.setting, divisor_bytes]
  rfl

/-- The last part of `mpsse_set_frequency`. -/
theorem setFrequencyFrom (hI : QueueInvariant L M Inv Bad Ret) (h : Inv s c b)
    {base frequency : ℕ} {clock : ℤ} (hclock : clock = base) (hpos : 0 < frequency)
    (hbase : 2 ≤ base) (hlt : base / 2 + frequency < 2 ^ 31) :
    Yields (fun r => Inv (M.set s (.divisor (BitVec.ofNat 16 (divisorFor base frequency))))
        r.2.1 r.2.2 ∧ r.1 = BitVec.ofNat 32 (base / 2 / (1 + divisorFor base frequency))) Bad
      (setFrequencyFrom L clock frequency c b) := by
  subst hclock
  have hhalf : (base : ℤ).tdiv 2 = (base / 2 : ℕ) := rfl
  have hsum : wrapInt (wrapInt ((base : ℤ).tdiv 2 + frequency) - 1) =
      (base / 2 + frequency - 1 : ℕ) := by
    have hcast : ((base / 2 + frequency : ℕ) : ℤ) - 1 = (base / 2 + frequency - 1 : ℕ) := by omega
    rw [hhalf, ← Nat.cast_add, wrapInt_of_lt hlt, hcast, wrapInt_of_lt (by omega)]
  have hquot : 1 ≤ (base / 2 + frequency - 1) / frequency :=
    (Nat.le_div_iff_mul_le hpos).mpr (by omega)
  have hdiv : ((base / 2 + frequency - 1 : ℕ) : ℤ).tdiv frequency - 1 =
      ((base / 2 + frequency - 1) / frequency - 1 : ℕ) := by
    rw [← Int.ofNat_tdiv]
    omega
  have hmin : (if ((base / 2 + frequency - 1 : ℕ) : ℤ).tdiv frequency - 1 > 65535 then 65535
      else ((base / 2 + frequency - 1 : ℕ) : ℤ).tdiv frequency - 1) =
        (divisorFor base frequency : ℤ) := by
    rw [hdiv, divisorFor]
    split_ifs <;> omega
  rw [JtagHw.setFrequencyFrom]
  simp only [hsum, hmin]
  rw [if_pos (by omega), BitVec.ofInt_natCast]
  refine Yields.bind ?_ (hI.setDivisor h _)
  rintro ⟨c', b'⟩ h'
  refine ⟨h', ?_⟩
  rw [hhalf, show (1 : ℤ) + divisorFor base frequency = (1 + divisorFor base frequency : ℕ) by simp,
    ← Int.ofNat_tdiv, BitVec.ofInt_natCast]

theorem rtckConfig (hI : QueueInvariant L M Inv Bad Ret) (type : FtdiChipType) (h : Inv s c b)
    (enable : Bool) :
    Yields (fun r => Inv (if mpsseIsHighSpeed type then M.set s (.adaptive enable) else s)
        r.2.1 r.2.2 ∧ r.1 = if mpsseIsHighSpeed type then errorOk else errorFail) Bad
      (mpsseRtckConfig L type enable c b) :=
  hI.highSpeedConfig type h (k := .adaptive enable) rfl fun _ _ => rfl

theorem divideBy5Config (hI : QueueInvariant L M Inv Bad Ret) (type : FtdiChipType)
    (h : Inv s c b) (enable : Bool) :
    Yields (fun r => Inv (if mpsseIsHighSpeed type then M.set s (.divideBy5 enable) else s)
        r.2.1 r.2.2 ∧ r.1 = if mpsseIsHighSpeed type then errorOk else errorFail) Bad
      (mpsseDivideBy5Config L type enable c b) :=
  hI.highSpeedConfig type h (k := .divideBy5 enable) rfl fun _ _ => rfl

/-- The faster clock is taken by a high-speed chip that needs it. -/
theorem tryFastClock (hI : QueueInvariant L M Inv Bad Ret) (type : FtdiChipType) (h : Inv s c b)
    (frequency : ℕ) :
    Yields (fun r =>
        Inv (if mpsseIsHighSpeed type ∧ 457 < frequency then M.set s (.divideBy5 false) else s)
          r.2.1 r.2.2 ∧ r.1 = decide (mpsseIsHighSpeed type ∧ 457 < frequency)) Bad
      (tryFastClock L type frequency c b) := by
  have hbound : ((60000000 : ℤ).tdiv 2).tdiv 65536 = 457 := by decide
  have hcond : (frequency : ℤ) > 457 ↔ 457 < frequency := by omega
  rw [JtagHw.tryFastClock]
  simp only [hbound, hcond]
  by_cases hf : 457 < frequency
  · simp only [hf, if_true, and_true]
    refine Yields.map ?_ (hI.divideBy5Config type h false)
    rintro ⟨retval, c', b'⟩ ⟨h', hret⟩
    simp only at h' hret ⊢
    refine ⟨h', ?_⟩
    have hfail : errorFail ≠ errorOk := by decide
    rw [hret]
    cases mpsseIsHighSpeed type <;> simp [hfail]
  · simp only [hf, and_false, if_false, decide_false]
    exact ⟨h, rfl⟩

/-- **`mpsse_set_frequency`**: each of the things it sets, one after the other. -/
theorem setFrequency (hI : QueueInvariant L M Inv Bad Ret) (type : FtdiChipType) (h : Inv s c b)
    {frequency : CInt} (hlt : baseClock type frequency.toNat / 2 + frequency.toNat < 2 ^ 31) :
    Yields (fun r => Inv ((frequencySettings type frequency.toNat).foldl M.set s) r.2.1 r.2.2 ∧
      r.1 = frequencyResult type frequency.toNat) Bad (mpsseSetFrequency L type frequency c b) := by
  have hint : frequency.toInt = frequency.toNat := BitVec.toInt_eq_toNat_of_lt (by omega)
  obtain ⟨f, hf⟩ : ∃ f, frequency.toNat = f := ⟨_, rfl⟩
  rw [hf] at hlt hint ⊢
  rw [mpsseSetFrequency, hint, if_pos (Int.natCast_nonneg f)]
  -- the two clocks as variables, so that nothing tries to compute with them
  obtain ⟨fast, hfast⟩ : ∃ k : ℤ, k = 60000000 := ⟨_, rfl⟩
  obtain ⟨slow, hslow⟩ : ∃ k : ℤ, k = 12000000 := ⟨_, rfl⟩
  rw [← hfast, ← hslow]
  by_cases hzero : f = 0
  · rw [if_pos (by omega), frequencySettings, frequencyResult, if_pos hzero, if_pos hzero]
    refine (hI.rtckConfig type h true).imp (fun r hr => ⟨?_, hr.2⟩) fun _ => id
    have hinv := hr.1
    split_ifs at hinv ⊢ <;> exact hinv
  · rw [if_neg (by omega), frequencySettings, frequencyResult, if_neg hzero, if_neg hzero]
    refine Yields.bind ?_ (hI.rtckConfig type h false)
    rintro ⟨retval₁, c₁, b₁⟩ ⟨h₁, -⟩
    refine Yields.bind ?_ (hI.tryFastClock type h₁ f)
    rintro ⟨isFast, c₂, b₂⟩ ⟨h₂, rfl⟩
    have hpos : 0 < f := Nat.pos_of_ne_zero hzero
    by_cases hcond : mpsseIsHighSpeed type ∧ 457 < f
    · have hbase : baseClock type f = 60000000 := if_pos hcond
      have hle : ¬ f ≤ 457 := by omega
      simp only [hcond, and_self, decide_true, if_true, hle, decide_false] at h₂ ⊢
      rw [hbase] at hlt ⊢
      exact hI.setFrequencyFrom h₂ hfast hpos (by omega) hlt
    · have hbase : baseClock type f = 12000000 := if_neg hcond
      simp only [hcond, decide_false, if_false, Bool.false_eq_true] at h₂ ⊢
      refine Yields.bind ?_ (hI.divideBy5Config type h₂ true)
      rintro ⟨retval₃, c₃, b₃⟩ ⟨h₃, -⟩
      rw [hbase] at hlt ⊢
      have hbase₂ : 2 ≤ 12000000 := by omega
      have hset := hI.setFrequencyFrom h₃ hslow hpos hbase₂ hlt
      refine hset.imp (fun r hr => ⟨?_, hr.2⟩) fun _ => id
      have hinv := hr.1
      rw [not_and_or, not_lt] at hcond
      cases hspeed : mpsseIsHighSpeed type with
      | false => simpa [hspeed] using hinv
      | true =>
        have hle : f ≤ 457 := hcond.resolve_left (by simp [hspeed])
        simpa [hspeed, hle] using hinv

/-- **Every call keeps the invariant**, and moves the machine on by what it asks for. -/
theorem step (hI : QueueInvariant L M Inv Bad Ret) (type : FtdiChipType) (h : Inv s c b)
    {call : MpsseCall} (hfits : call.Fits type n) :
    Yields (fun r => Inv (call.denote M type s).1 r.1.1 r.1.2 ∧
        (r.2 = (call.denote M type s).2 ∨ call = .flush ∧ ∃ retval, Ret retval ∧ r.2 = some retval))
      Bad (mpsseStep L type (c, b) call) := by
  cases call with
  | @clockData m out outOffset inp inOffset length mode =>
    obtain ⟨hmode, hout, hin, -⟩ := hfits
    refine Yields.map (fun r hr => ⟨hr, Or.inl rfl⟩) ?_
    rw [mpsseClockData]
    by_cases hret : c.retval ≠ errorOk
    · rw [if_pos hret]
      exact hI.noted h hret _
    · rw [if_neg hret]
      have hloop := hI.clockDataLoop (.ofMode mode) out inp length outOffset inOffset h hout hin
      rw [dataMode, ← hmode] at hloop
      exact hloop
  | clockTmsCs out outOffset inp inOffset length tdi mode =>
    obtain ⟨hmode, hout, hin, -⟩ := hfits
    refine Yields.map (fun r hr => ⟨hr, Or.inl rfl⟩) ?_
    rw [mpsseClockTmsCs]
    by_cases hret : c.retval ≠ errorOk
    · rw [if_pos hret]
      exact hI.noted h hret _
    · rw [if_neg hret]
      have hloop := hI.clockTmsLoop (.ofMode mode) out inp tdi length outOffset inOffset h hout hin
      rw [tmsMode, ← hmode] at hloop
      exact hloop
  | setDataBitsLowByte data dir =>
    exact Yields.map (fun r hr => ⟨hr, Or.inl rfl⟩)
      (hI.queueCommand h (k := .setLow data dir) (fun _ _ => rfl) (Nat.le_refl 3))
  | setDataBitsHighByte data dir =>
    exact Yields.map (fun r hr => ⟨hr, Or.inl rfl⟩)
      (hI.queueCommand h (k := .setHigh data dir) (fun _ _ => rfl) (Nat.le_refl 3))
  | readDataBitsLowByte data =>
    exact Yields.map (fun r hr => ⟨hr, Or.inl rfl⟩)
      (hI.queueRead h (k := .readLow) rfl (fun _ _ => rfl) hfits)
  | readDataBitsHighByte data =>
    exact Yields.map (fun r hr => ⟨hr, Or.inl rfl⟩)
      (hI.queueRead h (k := .readHigh) rfl (fun _ _ => rfl) hfits)
  | loopbackConfig enable =>
    exact Yields.map (fun r hr => ⟨hr, Or.inl rfl⟩)
      (hI.queueCommand h (k := .loopback enable) (fun _ _ => rfl) (by cases enable <;> decide))
  | setDivisor divisor =>
    exact Yields.map (fun r hr => ⟨hr, Or.inl rfl⟩) (hI.setDivisor h divisor)
  | divideBy5Config enable =>
    refine Yields.map (fun r hr => ?_) (hI.divideBy5Config type h enable)
    rw [MpsseCall.denote, hr.2]
    have hinv := hr.1
    split_ifs at hinv ⊢ <;> exact ⟨hinv, Or.inl rfl⟩
  | rtckConfig enable =>
    refine Yields.map (fun r hr => ?_) (hI.rtckConfig type h enable)
    rw [MpsseCall.denote, hr.2]
    have hinv := hr.1
    split_ifs at hinv ⊢ <;> exact ⟨hinv, Or.inl rfl⟩
  | setFrequency frequency =>
    exact Yields.map (fun r hr => ⟨hr.1, Or.inl (congrArg some hr.2)⟩)
      (hI.setFrequency type h hfits)
  | flush =>
    exact Yields.map (fun r hr => ⟨hr.2.1, Or.inr ⟨rfl, r.1, hr.1, rfl⟩⟩) (hI.flush h)

end QueueInvariant

end Rule

end JtagHw
