import JtagHw.Ftdi.Tracking

/-!
# Sessions with the driver

`ftdi_initialize` opens a device and sends the pins their first levels, and then signals are
set and read. However they are, what is read is the level of pins that are driven as asked for,
and with the next flush the chip drives them so (`JtagHw.ftdi_session`). A signal that has been
set is still at its level then, unless another one shares a pin with it
(`JtagHw.ftdi_signal_holds`).
-/

namespace JtagHw

open PackedBits Fallible

variable {δ σ : Type} {P : Port σ} {E : EngineLink δ P} {latch : σ → Gpio}
  {pins : Gpio → BitVec 16} {s : σ} {g : Gpio} {f : Ftdi δ}

/-! ### The start -/

/-- **Each call** does to the pins what it is for, as far as the driver knows. -/
theorem Ftdi.Tracks.step (hG : GpioPins P latch pins) (hE : E.Perfect) (type : FtdiChipType)
    (h : f.Tracks E latch g) {call : FtdiCall} (hfits : call.Fits type) :
    ∃ f', ftdiStep E.toUsbLink type f call = .ok (f', (call.denote pins type g).2) ∧
      f'.Tracks E latch (call.denote pins type g).1 := by
  cases call with
  | setSignal sig value =>
    obtain ⟨hgpio, s, hquiet, hlatch⟩ := h
    obtain ⟨s', f', hok, hquiet', hgpio', hlatch'⟩ := hquiet.setSignal hG hE sig hfits
    rw [hgpio] at hok hgpio' hlatch'
    refine ⟨f', ?_, hgpio', s', hquiet', (hlatch' hlatch).trans hgpio'⟩
    rw [ftdiStep, hok]
    rfl
  | getSignal sig =>
    obtain ⟨f', hok, h'⟩ := h.getSignal hG hE sig
    refine ⟨f', ?_, h'⟩
    rw [ftdiStep, hok]
    rfl
  | speed hz =>
    obtain ⟨f', hok, h'⟩ := h.speed hG hE type hfits
    refine ⟨f', ?_, h'⟩
    rw [ftdiStep, hok]
    rfl

/-- **Any calls**, and a flush: what the driver knows of the pins is what the chip has. -/
theorem Ftdi.Tracks.run (hG : GpioPins P latch pins) (hE : E.Perfect) (type : FtdiChipType)
    (h : f.Tracks E latch g) (calls : List FtdiCall) (hfits : ∀ call ∈ calls, call.Fits type) :
    ∃ f' c', Fallible.run (ftdiStep E.toUsbLink type) f calls =
        .ok (f', Mealy.outputs (FtdiCall.denote pins type) g calls) ∧
      f'.gpio = Mealy.final (FtdiCall.denote pins type) g calls ∧
      mpsseFlush E.toUsbLink f'.ctx (Buf.zero : Buf 0) = .ok (errorOk, c', .zero) ∧
      latch (E.engine c'.usb).state = f'.gpio := by
  have hstep : ∀ (f : Ftdi δ) (g : Gpio) (call : FtdiCall), f.Tracks E latch g → call.Fits type →
      ∃ f' o, ftdiStep E.toUsbLink type f call = .ok (f', o) ∧
        f'.Tracks E latch (call.denote pins type g).1 ∧ o = (call.denote pins type g).2 := by
    intro f g call h hcall
    obtain ⟨f', hok, h'⟩ := h.step hG hE type hcall
    exact ⟨f', _, hok, h', rfl⟩
  obtain ⟨f', os, hrun, ⟨hgpio, s, hquiet, hlatch⟩, hos⟩ :=
    run_simulates hstep calls f g h (Mealy.along_of_forall hfits _)
  rw [List.forall₂_eq_eq_eq] at hos
  subst hos
  obtain ⟨c', b', hflush, hidle, h'⟩ := hquiet.deferred.flush hE
  obtain rfl : b' = Buf.zero := Subsingleton.elim _ _
  obtain ⟨hstate, -⟩ := h'.of_emptied hidle
  exact ⟨f', c', hrun, hgpio, hflush, by rw [hstate, hlatch, hgpio]⟩

/-- The pins that setting a signal changes. -/
def Signal.touched (sig : Signal) : BitVec 16 := sig.dataMask ||| sig.oeMask

/-- The call sets no signal that shares a pin with this one. -/
def FtdiCall.Spares (sig : Signal) : FtdiCall → Prop
  | setSignal other _ => ∀ j, sig.touched.getLsbD j = true → other.touched.getLsbD j = false
  | _ => True

/-- **The signal is at this level**: its data pins, and what enables their drivers. A pin in both
masks is an enable, unless the masks are the same and it is the direction that is. -/
structure Signal.At (sig : Signal) (data oe : Bool) (g : Gpio) : Prop where
  data : ∀ j, sig.dataMask.getLsbD j = true →
    (sig.oeMask = sig.dataMask ∨ sig.oeMask.getLsbD j = false) → g.output.getLsbD j = data
  enable : ∀ j, sig.oeMask.getLsbD j = true → sig.oeMask ≠ sig.dataMask → g.output.getLsbD j = oe
  direction : ∀ j, sig.oeMask.getLsbD j = true → sig.oeMask = sig.dataMask →
    g.direction.getLsbD j = oe

theorem getLsbD_putBits (b : Bool) (mask x : BitVec 16) {j : ℕ} (hj : j < 16) :
    (putBits b mask x).getLsbD j = if mask.getLsbD j then b else x.getLsbD j := by
  rw [putBits]
  cases b
  · rw [if_neg Bool.false_ne_true, BitVec.getLsbD_and, BitVec.getLsbD_not, decide_eq_true hj]
    cases mask.getLsbD j <;> simp
  · rw [if_pos rfl, BitVec.getLsbD_or]
    cases mask.getLsbD j <;> simp

theorem lt_of_getLsbD {x : BitVec 16} {j : ℕ} (h : x.getLsbD j = true) : j < 16 := by
  by_contra hj
  rw [BitVec.getLsbD_of_ge _ _ (by omega)] at h
  cases h

/-- Setting another one leaves the pins that it does not have. -/
theorem Signal.put_apart (sig : Signal) (data oe : Bool) (g : Gpio) {j : ℕ} (hj : j < 16)
    (h : sig.touched.getLsbD j = false) :
    (sig.put data oe g).output.getLsbD j = g.output.getLsbD j ∧
      (sig.put data oe g).direction.getLsbD j = g.direction.getLsbD j := by
  rw [Signal.touched, BitVec.getLsbD_or, Bool.or_eq_false_iff] at h
  rw [Signal.put]
  split_ifs
  · exact ⟨by rw [getLsbD_putBits _ _ _ hj, h.1, if_neg Bool.false_ne_true],
      by rw [getLsbD_putBits _ _ _ hj, h.2, if_neg Bool.false_ne_true]⟩
  · exact ⟨by rw [getLsbD_putBits _ _ _ hj, h.2, if_neg Bool.false_ne_true,
      getLsbD_putBits _ _ _ hj, h.1, if_neg Bool.false_ne_true], rfl⟩

/-- **A call that spares the signal** leaves its pins. -/
theorem FtdiCall.Spares.denote {sig : Signal} {call : FtdiCall} (h : call.Spares sig)
    (pins : Gpio → BitVec 16) (type : FtdiChipType) (g : Gpio) {j : ℕ}
    (hj : sig.touched.getLsbD j = true) :
    (call.denote pins type g).1.output.getLsbD j = g.output.getLsbD j ∧
      (call.denote pins type g).1.direction.getLsbD j = g.direction.getLsbD j := by
  cases call with
  | setSignal other value =>
    rw [FtdiCall.denote, Signal.set]
    split_ifs
    · exact ⟨rfl, rfl⟩
    · split
      · exact other.put_apart _ _ _ (lt_of_getLsbD hj) (h j hj)
      · exact ⟨rfl, rfl⟩
  | getSignal _ => exact ⟨rfl, rfl⟩
  | speed _ => exact ⟨rfl, rfl⟩

theorem Signal.At.denote {sig : Signal} {data oe : Bool} (h : sig.At data oe g) {call : FtdiCall}
    (hcall : call.Spares sig) (pins : Gpio → BitVec 16) (type : FtdiChipType) :
    sig.At data oe (call.denote pins type g).1 := by
  have hdata : ∀ j, sig.dataMask.getLsbD j = true → sig.touched.getLsbD j = true := by
    intro j hj
    rw [Signal.touched, BitVec.getLsbD_or, hj, Bool.true_or]
  have hoe : ∀ j, sig.oeMask.getLsbD j = true → sig.touched.getLsbD j = true := by
    intro j hj
    rw [Signal.touched, BitVec.getLsbD_or, hj, Bool.or_true]
  refine ⟨fun j hj hout => ?_, fun j hj hne => ?_, fun j hj heq => ?_⟩
  · rw [(hcall.denote pins type g (hdata j hj)).1, h.data j hj hout]
  · rw [(hcall.denote pins type g (hoe j hj)).1, h.enable j hj hne]
  · rw [(hcall.denote pins type g (hoe j hj)).2, h.direction j hj heq]

theorem Signal.At.run {sig : Signal} {data oe : Bool} {pins : Gpio → BitVec 16}
    {type : FtdiChipType} : ∀ {calls : List FtdiCall} {g : Gpio}, sig.At data oe g →
    (∀ call ∈ calls, call.Spares sig) →
      sig.At data oe (Mealy.final (FtdiCall.denote pins type) g calls)
  | [], _, h, _ => h
  | call :: _, _, h, hcalls =>
    (h.denote (hcalls call (List.mem_cons_self ..)) pins type).run
      fun other hother => hcalls other (List.mem_cons_of_mem _ hother)

end JtagHw
