import JtagHw.Ftdi.Driver

/-!
# What the driver knows of the pins

The driver sends a byte of pins only where it differs from what it has sent before, and it
sends it to a queue. The invariant is that the queue, once it has been executed, will leave the
chip with the `output` and the `direction` that the driver keeps (`JtagHw.Ftdi.Tracks`), and
that no answer is awaited, so that `ftdi_get_signal` reads into its own two bytes and nothing
else is written to them (`JtagHw.Quiet`). Each function of the driver keeps it.
-/

namespace JtagHw

open PackedBits Fallible

variable {δ σ : Type}

/-! ### Bytes of pins -/

theorem highByte_append_lowByte (x : BitVec 16) : highByte x ++ lowByte x = x :=
  QueueInvariant.divisor_bytes x

@[simp] theorem lowByte_append (high low : Byte) : lowByte (high ++ low) = low := by
  have h := highByte_append_lowByte (high ++ low)
  refine BitVec.eq_of_getLsbD_eq fun j hj => ?_
  have hbit := congrArg (·.getLsbD j) h
  simp only [BitVec.getLsbD_append, if_pos hj] at hbit
  exact hbit

/-- Both bytes driven. -/
theorem setHigh_setLow (old new : Gpio) :
    (old.setLow (lowByte new.output) (lowByte new.direction)).setHigh (highByte new.output)
      (highByte new.direction) = new := by
  rw [Gpio.setLow, Gpio.setHigh, lowByte_append, lowByte_append, highByte_append_lowByte,
    highByte_append_lowByte]

/-! ### The driver keeps up -/

variable {P : Port σ} {E : EngineLink δ P} {latch : σ → Gpio} {pins : Gpio → BitVec 16}
  {s : σ} {g : Gpio} {f : Ftdi δ}

/-- **Nothing is awaited**, and what is queued takes the engine to `s`. -/
structure Quiet (E : EngineLink δ P) (s : σ) (c : MpsseCtx δ) : Prop where
  deferred : Deferred E ⟨s, (Buf.zero : Buf 0).bit⟩ c (Buf.zero : Buf 0)
  silent : c.readCount = 0

theorem Quiet.of_idle {c : MpsseCtx δ} (h : c.Idle) (hps : c.maxPacketSize = E.packetSize)
    (hready : (E.engine c.usb).Ready) : Quiet E (E.engine c.usb).state c :=
  ⟨.of_idle h hps hready rfl rfl, h.readCount⟩

/-- A setting queued. -/
theorem Quiet.queue (hE : E.Perfect) (h : Quiet E s f.ctx) {k : Command} {v : Setting}
    (hk : ∀ {σ : Type} (P : Port σ), P.Sets k v) (hlen : k.encode.length ≤ 3) :
    ∃ f', f.queue (queueCommand E.toUsbLink k.encode) = .ok f' ∧ Quiet E (P.set s v) f'.ctx ∧
      f'.gpio = f.gpio := by
  have hstart : Deferred E ⟨s, (Buf.zero : Buf 0).bit⟩ f.ctx (Buf.zero : Buf 0) ∧
    (true = true → f.ctx.readCount = 0) := ⟨h.deferred, fun _ => h.silent⟩
  obtain ⟨⟨c', b'⟩, hok, h', hsilent⟩ :=
    ((Deferred.silentInvariant hE).queueCommand (s := (⟨s, (Buf.zero : Buf 0).bit⟩, true)) hstart
      hk hlen).exists_ok
  obtain rfl : b' = Buf.zero := Subsingleton.elim _ _
  refine ⟨{ f with ctx := c' }, ?_, ⟨h', hsilent rfl⟩, rfl⟩
  rw [Ftdi.queue, hok]
  rfl

/-- **What the driver knows is what the chip will have.** -/
structure Ftdi.Tracks (E : EngineLink δ P) (latch : σ → Gpio) (g : Gpio) (f : Ftdi δ) : Prop where
  gpio : f.gpio = g
  quiet : ∃ s, Quiet E s f.ctx ∧ latch s = g

/-- The lower byte is what it is to be, whether it is sent or not. -/
theorem Quiet.sendLow (hG : GpioPins P latch pins) (hE : E.Perfect) (h : Quiet E s f.ctx)
    (old new : Gpio) :
    ∃ s' f', f.sendLow E.toUsbLink old new = .ok f' ∧ Quiet E s' f'.ctx ∧ f'.gpio = f.gpio ∧
      (latch s = old → latch s' = old.setLow (lowByte new.output) (lowByte new.direction)) := by
  rw [Ftdi.sendLow]
  split_ifs with hsent
  · obtain ⟨f', hok, h', hgpio⟩ := h.queue hE
      (k := .setLow (lowByte new.output) (lowByte new.direction)) (fun _ _ => rfl) (Nat.le_refl 3)
    exact ⟨_, f', hok, h', hgpio, fun hold => by rw [hG.low, hold]⟩
  · rw [not_or, not_not, not_not] at hsent
    refine ⟨s, f, rfl, h, rfl, fun hold => ?_⟩
    rw [Gpio.setLow, hsent.1, hsent.2, highByte_append_lowByte, highByte_append_lowByte, hold]

/-- The upper byte, after the lower one. -/
theorem Quiet.sendHigh (hG : GpioPins P latch pins) (hE : E.Perfect) (h : Quiet E s f.ctx)
    (old new : Gpio) :
    ∃ s' f', f.sendHigh E.toUsbLink old new = .ok f' ∧ Quiet E s' f'.ctx ∧ f'.gpio = f.gpio ∧
      (latch s = old.setLow (lowByte new.output) (lowByte new.direction) → latch s' = new) := by
  rw [Ftdi.sendHigh]
  split_ifs with hsent
  · obtain ⟨f', hok, h', hgpio⟩ := h.queue hE
      (k := .setHigh (highByte new.output) (highByte new.direction)) (fun _ _ => rfl)
      (Nat.le_refl 3)
    exact ⟨_, f', hok, h', hgpio, fun hold => by rw [hG.high, hold, setHigh_setLow]⟩
  · rw [not_or, not_not, not_not] at hsent
    refine ⟨s, f, rfl, h, rfl, fun hold => ?_⟩
    rw [hold, Gpio.setLow, ← hsent.1, ← hsent.2, highByte_append_lowByte, highByte_append_lowByte]

theorem level_ok (sig : Signal) {value : Char} (hvalue : value ∈ ['0', '1', 'z', 'Z']) :
    ∃ level, sig.level value = .ok level := by
  simp only [List.mem_cons, List.not_mem_nil, or_false] at hvalue
  rw [Signal.level]
  rcases hvalue with rfl | rfl | rfl | rfl <;> exact ⟨_, rfl⟩

/-- **`ftdi_set_signal`**: if the chip has had what the driver knows, it will have it again. -/
theorem Quiet.setSignal (hG : GpioPins P latch pins) (hE : E.Perfect) (h : Quiet E s f.ctx)
    (sig : Signal) {value : Char} (hvalue : value ∈ ['0', '1', 'z', 'Z']) :
    ∃ s' f', ftdiSetSignal E.toUsbLink sig value f = .ok ((sig.set value f.gpio).2, f') ∧
      Quiet E s' f'.ctx ∧ f'.gpio = (sig.set value f.gpio).1 ∧
      (latch s = f.gpio → latch s' = f'.gpio) := by
  obtain ⟨level, hlevel⟩ := level_ok sig hvalue
  rw [ftdiSetSignal, Signal.set]
  split_ifs with hmasks
  · exact ⟨s, f, rfl, h, rfl, id⟩
  · rw [hlevel]
    rcases level with _ | ⟨data, oe⟩
    · exact ⟨s, f, rfl, h, rfl, id⟩
    · obtain ⟨s₁, f₁, hlow, h₁, hgpio₁, hlatch₁⟩ :=
        Quiet.sendLow (f := { f with gpio := sig.put data oe f.gpio }) hG hE h f.gpio
          (sig.put data oe f.gpio)
      obtain ⟨s₂, f₂, hhigh, h₂, hgpio₂, hlatch₂⟩ :=
        h₁.sendHigh hG hE f.gpio (sig.put data oe f.gpio)
      have hgpio : f₂.gpio = sig.put data oe f.gpio := hgpio₂.trans hgpio₁
      refine ⟨s₂, f₂, ?_, h₂, hgpio, fun hold => ?_⟩
      · change (Ftdi.sendLow _ _ _ _ >>= _) = _
        rw [hlow]
        change (Ftdi.sendHigh _ _ _ _ >>= _) = _
        rw [hhigh]
        rfl
      · rw [hgpio]
        exact hlatch₂ (hlatch₁ hold)

/-! ### Reading -/

/-- What reading a byte of pins brings, if it is read. -/
def readOver (P : Port σ) (s : σ) (wanted : Prop) [Decidable wanted] (high : Bool) (pos : ℕ)
    (data : ℕ → Bool) : ℕ → Bool :=
  if wanted then overlay data pos ((List.range 8).map (P.pins s high).getLsbD) else data

/-- A byte of pins asked for, or not. -/
theorem readIf_deferred (hE : E.Perfect) {data : ℕ → Bool} {c : MpsseCtx δ} {b : Buf 2}
    (h : Deferred E ⟨s, data⟩ c b) (wanted : Prop) [Decidable wanted] (high : Bool) (pos : ℕ)
    (op : Byte) {k : Command} (hop : k.encode = [op])
    (hk : ∀ {σ : Type} (P : Port σ), P.Reads k high) (hpos : pos + 8 ≤ 16) :
    ∃ c' b', readIf wanted (queueRead E.toUsbLink op pos) c b = .ok (c', b') ∧
      Deferred E ⟨s, readOver P s wanted high pos data⟩ c' b' := by
  rw [readIf, readOver]
  split_ifs with hwanted
  · obtain ⟨⟨c', b'⟩, hok, h'⟩ :=
      ((Deferred.queueInvariant hE).queueRead h hop hk (by omega)).exists_ok
    exact ⟨c', b', hok, h'⟩
  · exact ⟨c, b, rfl, h⟩

theorem readOver_of_wanted {wanted : Prop} [Decidable wanted] (hwanted : wanted) (high : Bool)
    (pos : ℕ) (data : ℕ → Bool) {j : ℕ} (hj : j < 8) :
    readOver P s wanted high pos data (pos + j) = (P.pins s high).getLsbD j := by
  rw [readOver, if_pos hwanted, overlay, if_pos (by simpa using hj), Nat.add_sub_cancel_left,
    List.getD_eq_getElem _ _ (by simpa using hj), List.getElem_map, List.getElem_range]

theorem readOver_of_lt {wanted : Prop} [Decidable wanted] {high : Bool} {pos j : ℕ}
    (data : ℕ → Bool) (hj : j < pos) : readOver P s wanted high pos data j = data j := by
  rw [readOver]
  split_ifs
  · exact if_neg (by omega)
  · rfl

/-- **A byte that is not read does not matter**: what is read of the pins that the signal has is
the level they are at. -/
theorem readOver_eq_level (mask : BitVec 16) {j : ℕ} (hj : j < 16) (hmask : mask.getLsbD j = true) :
    readOver P s (mask >>> 8 ≠ 0) true 8
      (readOver P s (mask &&& 0xff ≠ 0) false 0 (Buf.zero : Buf 2).bit) j =
        (P.high s ++ P.low s).getLsbD j := by
  rw [BitVec.getLsbD_append]
  split_ifs with hlt
  · have hwanted : mask &&& 0xff ≠ 0 := by
      intro hzero
      have hff : ∀ j < 8, (0xff : BitVec 16).getLsbD j = true := by decide
      have hbit : (mask &&& 0xff).getLsbD j = (0 : BitVec 16).getLsbD j := by rw [hzero]
      rw [BitVec.getLsbD_and, hmask, hff j hlt] at hbit
      simp at hbit
    have hread := readOver_of_wanted (P := P) (s := s) hwanted false 0 (Buf.zero : Buf 2).bit hlt
    rw [Nat.zero_add] at hread
    rw [readOver_of_lt _ hlt, hread]
    rfl
  · have hsub : 8 + (j - 8) = j := by omega
    have hwanted : mask >>> 8 ≠ 0 := by
      intro hzero
      have hbit : (mask >>> 8).getLsbD (j - 8) = (0 : BitVec 16).getLsbD (j - 8) := by rw [hzero]
      rw [BitVec.getLsbD_ushiftRight, hsub, hmask] at hbit
      simp at hbit
    have hread := readOver_of_wanted (P := P) (s := s) hwanted true 8
      (readOver P s (mask &&& 0xff ≠ 0) false 0 (Buf.zero : Buf 2).bit) (show j - 8 < 8 by omega)
    rw [hsub] at hread
    exact hread

/-- The word made of two bytes, bit by bit. -/
theorem getLsbD_word (b : Buf 2) {j : ℕ} (hj : j < 16) :
    ((b 1).setWidth 16 <<< 8 ||| (b 0).setWidth 16).getLsbD j = b.bit j := by
  rw [BitVec.getLsbD_or, BitVec.getLsbD_shiftLeft, BitVec.getLsbD_setWidth,
    BitVec.getLsbD_setWidth, decide_eq_true hj, Bool.true_and]
  by_cases hlt : j < 8
  · have hbyte : b.bit j = (b 0).getLsbD (j % 8) :=
      Buf.bit_of_load? (by rw [Nat.div_eq_of_lt hlt]; rfl)
    rw [hbyte, decide_eq_true hlt, Nat.mod_eq_of_lt hlt]
    simp
  · have hdiv : j / 8 = 1 := by omega
    have hmod : j % 8 = j - 8 := by omega
    have hbyte : b.bit j = (b 1).getLsbD (j % 8) := Buf.bit_of_load? (by rw [hdiv]; rfl)
    have hout : (b 0).getLsbD j = false := BitVec.getLsbD_of_ge _ _ (by omega)
    rw [hbyte, hmod, hout, decide_eq_false hlt, decide_eq_true (by omega)]
    simp

/-- Only the bits of the mask matter. -/
theorem masked_congr {x y mask : BitVec 16} (invert : Bool)
    (h : ∀ j < 16, mask.getLsbD j = true → x.getLsbD j = y.getLsbD j) :
    (if invert then ~~~x else x) &&& mask = (if invert then ~~~y else y) &&& mask := by
  refine BitVec.eq_of_getLsbD_eq fun j hj => ?_
  rw [BitVec.getLsbD_and, BitVec.getLsbD_and]
  cases hmask : mask.getLsbD j with
  | false => rw [Bool.and_false, Bool.and_false]
  | true =>
    have hxy := h j hj hmask
    cases invert
    · rw [if_neg Bool.false_ne_true, if_neg Bool.false_ne_true, hxy]
    · rw [if_pos rfl, if_pos rfl, BitVec.getLsbD_not, BitVec.getLsbD_not, hxy]

/-- **`ftdi_get_signal`.** -/
theorem Ftdi.Tracks.getSignal (hG : GpioPins P latch pins) (hE : E.Perfect)
    (h : f.Tracks E latch g) (sig : Signal) :
    ∃ f', ftdiGetSignal E.toUsbLink sig f =
        .ok ((sig.get (pins g)).1, (sig.get (pins g)).2, f') ∧
      f'.Tracks E latch g := by
  rw [ftdiGetSignal, Signal.get]
  by_cases hmask : sig.inputMask = 0
  · rw [if_pos hmask, if_pos hmask]
    exact ⟨f, rfl, h⟩
  · rw [if_neg hmask, if_neg hmask]
    obtain ⟨hgpio, s, hquiet, hlatch⟩ := h
    have hstart := hquiet.deferred.of_silent hquiet.silent (Buf.zero : Buf 2)
    obtain ⟨c₁, b₁, hlow, h₁⟩ := readIf_deferred hE hstart (sig.inputMask &&& 0xff ≠ 0) false
      0 0x81 (k := .readLow) rfl (fun _ _ => rfl) (by omega)
    obtain ⟨c₂, b₂, hhigh, h₂⟩ := readIf_deferred hE h₁ (sig.inputMask >>> 8 ≠ 0) true
      8 0x83 (k := .readHigh) rfl (fun _ _ => rfl) (by omega)
    obtain ⟨c₃, b₃, hflush, hidle, h₃⟩ := h₂.flush hE
    obtain ⟨hstate, hbits⟩ : (E.engine c₃.usb).state = s ∧ _ := h₃.of_emptied hidle
    have hvalue : (if sig.invertInput then ~~~((b₃ 1).setWidth 16 <<< 8 ||| (b₃ 0).setWidth 16)
        else (b₃ 1).setWidth 16 <<< 8 ||| (b₃ 0).setWidth 16) &&& sig.inputMask =
        (if sig.invertInput then ~~~pins g else pins g) &&& sig.inputMask := by
      refine masked_congr _ fun j hj hbit => ?_
      rw [getLsbD_word b₃ hj, hbits, ← hlatch, ← hG.level]
      exact readOver_eq_level sig.inputMask hj hbit
    have hquiet₃ : Quiet E s c₃ := by
      rw [← hstate]
      exact .of_idle hidle h₃.packetSize h₃.ready
    refine ⟨{ f with ctx := c₃ }, ?_, hgpio, s, hquiet₃, hlatch⟩
    change (readIf _ (queueRead _ 0x81 0) _ _ >>= _) = _
    rw [hlow]
    change (readIf _ (queueRead _ 0x83 8) _ _ >>= _) = _
    rw [hhigh]
    change (mpsseFlush _ _ _ >>= _) = _
    rw [hflush, ← hvalue]
    rfl

/-! ### Setting the frequency -/

theorem foldl_immediately (P : Port σ) (vs : List Setting) (s : σ) (data : ℕ → Bool) :
    vs.foldl (immediately P).set ⟨s, data⟩ = ⟨vs.foldl P.set s, data⟩ := by
  induction vs generalizing s with
  | nil => rfl
  | cons v vs ih => exact ih _

theorem latch_foldl (hG : GpioPins P latch pins) {vs : List Setting} (hvs : ∀ v ∈ vs, ¬v.Drives)
    (s : σ) : latch (vs.foldl P.set s) = latch s := by
  induction vs generalizing s with
  | nil => rfl
  | cons v vs ih =>
    rw [List.foldl_cons, ih (fun v hv => hvs v (List.mem_cons_of_mem _ hv)),
      hG.other _ _ (hvs v (List.mem_cons_self ..))]

/-- None of the settings of a frequency drives pins. -/
theorem not_drives_frequencySettings (type : FtdiChipType) (frequency : ℕ) :
    ∀ v ∈ frequencySettings type frequency, ¬v.Drives := by
  intro v hv
  rw [frequencySettings] at hv
  split_ifs at hv <;> simp at hv
  · obtain rfl := hv
    exact id
  · rcases hv with rfl | rfl | rfl <;> exact id
  · obtain rfl := hv
    exact id

/-- The result is negative just where a chip refuses. -/
theorem ftdiSpeed_result (type : FtdiChipType) (hz : CInt) :
    (if (frequencyResult type hz.toNat).toInt < 0 then frequencyResult type hz.toNat else errorOk) =
      if hz = 0 ∧ ¬mpsseIsHighSpeed type then errorFail else errorOk := by
  by_cases hzero : hz = 0
  · subst hzero
    cases hspeed : mpsseIsHighSpeed type with
    | false =>
      simp [frequencyResult, hspeed]
      decide
    | true => simp [frequencyResult, hspeed]
  · have hpos : hz.toNat ≠ 0 := fun h => hzero (BitVec.eq_of_toNat_eq h)
    have hbase : baseClock type hz.toNat / 2 < 2 ^ 31 := by
      rw [baseClock]
      split_ifs <;> omega
    have hlt := (Nat.div_le_self (baseClock type hz.toNat / 2)
      (1 + divisorFor (baseClock type hz.toNat) hz.toNat)).trans_lt hbase
    have hnonneg : ¬(frequencyResult type hz.toNat).toInt < 0 := by
      rw [frequencyResult, if_neg hpos]
      generalize baseClock type hz.toNat / 2 / _ = q at hlt
      have hq : (BitVec.ofNat 32 q).toNat = q := Nat.mod_eq_of_lt (by omega)
      rw [BitVec.toInt_eq_toNat_of_lt (by omega), hq]
      exact not_lt.mpr (Int.natCast_nonneg q)
    rw [if_neg hnonneg, if_neg fun h => hzero h.1]

theorem Quiet.setFrequency (hE : E.Perfect) (type : FtdiChipType) {c : MpsseCtx δ}
    (h : Quiet E s c) (hz : CInt) (hlt : baseClock type hz.toNat / 2 + hz.toNat < 2 ^ 31) :
    ∃ c', mpsseSetFrequency E.toUsbLink type hz c (Buf.zero : Buf 0) =
        .ok (frequencyResult type hz.toNat, c', .zero) ∧
      Quiet E ((frequencySettings type hz.toNat).foldl P.set s) c' := by
  have hstart : Deferred E ⟨s, (Buf.zero : Buf 0).bit⟩ c (Buf.zero : Buf 0) ∧
    (true = true → c.readCount = 0) := ⟨h.deferred, fun _ => h.silent⟩
  obtain ⟨⟨result, c', b'⟩, hok, ⟨h', hsilent⟩, rfl⟩ :=
    ((Deferred.silentInvariant hE).setFrequency type
      (s := (⟨s, (Buf.zero : Buf 0).bit⟩, true)) hstart hlt).exists_ok
  obtain rfl : b' = Buf.zero := Subsingleton.elim _ _
  rw [foldl_silently, foldl_immediately] at h' hsilent
  exact ⟨c', hok, h', hsilent rfl⟩

/-- **`ftdi_speed`.** -/
theorem Ftdi.Tracks.speed (hG : GpioPins P latch pins) (hE : E.Perfect) (h : f.Tracks E latch g)
    (type : FtdiChipType) {hz : CInt} (hlt : baseClock type hz.toNat / 2 + hz.toNat < 2 ^ 31) :
    ∃ f', ftdiSpeed E.toUsbLink type hz f =
        .ok (if hz = 0 ∧ ¬mpsseIsHighSpeed type then errorFail else errorOk, f') ∧
      f'.Tracks E latch g := by
  obtain ⟨hgpio, s, hquiet, hlatch⟩ := h
  obtain ⟨c', hok, hquiet'⟩ := hquiet.setFrequency hE type hz hlt
  refine ⟨{ f with ctx := c' }, ?_, hgpio, _, hquiet', ?_⟩
  · rw [ftdiSpeed, hok, ← ftdiSpeed_result type hz]
    rfl
  · rw [latch_foldl hG (not_drives_frequencySettings _ _), hlatch]

end JtagHw
