import JtagHw.Mpsse.Deferred
import JtagHw.TapScan

/-!
# The test program

`src/test_mpsse.c` scans a chain with the MPSSE layer alone. `clock_raw` packs the levels of
TMS and TDI into two arrays; a loop then asks for one tick after the other, and a flush
brings the levels of TDO into a third. The numbers that come out of it are an identification
code, found at a fixed position of that array.

Whatever levels are loaded, and whatever the chain: what the third array holds is the chain's answer
to the levels loaded, bit for bit (`JtagHw.scan_chain`). With the controller of
`inc/jtag_tap_controller.hpp` for the chain, in whatever state it is found, the number
printed is its identification code (`JtagHw.scan_tap`).
-/

namespace JtagHw

open PackedBits Fallible

variable {δ σ : Type}

/-! ### Loading -/

/-- `arr_tdi`, `arr_tms` and `cur_pos`. -/
structure RawBits where
  arrTdi : Buf 128
  arrTms : Buf 128
  curPos : BitVec 32

/-- What the program starts with, and `clear` makes. -/
def RawBits.clear : RawBits := ⟨.zero, .zero, 0⟩

/-- The body of the loop of `clock_raw`, at the position `cur_pos + i`: the words are shifted
there as they are, and what fits the byte is or-ed in. -/
def RawBits.orIn (tms tdi : CInt) (pos : BitVec 32) (raw : RawBits) : Option RawBits := do
  let arrTdi ← raw.arrTdi.orAt pos.toNat tdi
  let arrTms ← raw.arrTms.orAt pos.toNat tms
  return { raw with arrTdi := arrTdi, arrTms := arrTms }

/-- Its loop, with as many iterations left as the number says; `pos` is `cur_pos + i`. -/
def clockRawLoop (tms tdi : CInt) : ℕ → BitVec 32 → RawBits → Option RawBits
  | 0, _, raw => some raw
  | left + 1, pos, raw => do
    let raw' ← raw.orIn tms tdi pos
    clockRawLoop tms tdi left (pos + 1) raw'

/-- `void clock_raw(int tms, int tdi, int len)`. The condition `i < len` is one of signed
numbers, so there are no iterations for a negative `len`, which moves `cur_pos` back. -/
def clockRaw (tms tdi len : CInt) (raw : RawBits) : Option RawBits := do
  let raw' ← clockRawLoop tms tdi len.toInt.toNat raw.curPos raw
  return { raw' with curPos := raw'.curPos + len }

/-- A call of `clock_raw`, with its arguments. -/
structure RawCall where
  tms : CInt
  tdi : CInt
  len : CInt

/-- Several calls of `clock_raw`. -/
def clockRaws : List RawCall → RawBits → Option RawBits
  | [], raw => some raw
  | call :: calls, raw => do
    let raw' ← clockRaw call.tms call.tdi call.len raw
    clockRaws calls raw'

/-- The words of a call are levels, `0` or `1`, and its length is not negative. -/
structure RawCall.IsLevels (call : RawCall) : Prop where
  tms : call.tms = 0 ∨ call.tms = 1
  tdi : call.tdi = 0 ∨ call.tdi = 1
  len : 0 ≤ call.len.toInt

instance : DecidablePred RawCall.IsLevels := fun call =>
  decidable_of_iff
    ((call.tms = 0 ∨ call.tms = 1) ∧ (call.tdi = 0 ∨ call.tdi = 1) ∧ 0 ≤ call.len.toInt)
    ⟨fun h => ⟨h.1, h.2.1, h.2.2⟩, fun h => ⟨h.tms, h.tdi, h.len⟩⟩

/-- The levels of TMS and TDI that a call asks for. -/
def RawCall.levels (call : RawCall) : List (Bool × Bool) :=
  List.replicate call.len.toInt.toNat (call.tms.getLsbD 0, call.tdi.getLsbD 0)

/-- The levels of TMS and TDI that some calls ask for, in this order. -/
def rawLevels (calls : List RawCall) : List (Bool × Bool) :=
  calls.flatMap RawCall.levels

/-- **The levels loaded** into the arrays are `levels`. -/
structure RawBits.Holds (raw : RawBits) (levels : List (Bool × Bool)) : Prop where
  tms : ∀ j, raw.arrTms.bit j = (levels.map Prod.fst).getD j false
  tdi : ∀ j, raw.arrTdi.bit j = (levels.map Prod.snd).getD j false

theorem RawBits.holds_clear : clear.Holds [] :=
  ⟨fun j => Buf.bit_zero j, fun j => Buf.bit_zero j⟩

/-- A bit or-ed in behind the bits that are there. -/
theorem or_getD_append (l : List Bool) (v : Bool) (j : ℕ) :
    (l.getD j false || (decide (j = l.length) && v)) = (l ++ [v]).getD j false := by
  have h := laidOut_append_singleton l v 0 j
  rw [laidOut_zero, laidOut_zero, Nat.zero_add] at h
  refine Eq.trans (congrArg (l.getD j false || ·) ?_) h.symm
  by_cases hj : j = l.length
  · rw [if_pos hj, decide_eq_true hj, Bool.true_and]
  · rw [if_neg hj, decide_eq_false hj, Bool.false_and]
    rfl

variable {raw : RawBits} {levels : List (Bool × Bool)}

/-- One iteration with words that are levels, the position being right behind the levels
loaded. -/
theorem RawBits.Holds.orIn (h : raw.Holds levels) {tms tdi : CInt} (htms : tms = 0 ∨ tms = 1)
    (htdi : tdi = 0 ∨ tdi = 1) {pos : BitVec 32} (hpos : pos.toNat = levels.length)
    (hroom : levels.length < 1024) :
    ∃ raw', raw.orIn tms tdi pos = some raw' ∧ raw'.curPos = raw.curPos ∧
      raw'.Holds (levels ++ [(tms.getLsbD 0, tdi.getLsbD 0)]) := by
  have hbyte : pos.toNat / 8 < 128 := by omega
  obtain ⟨arrTdi, hd, hdbit⟩ := raw.arrTdi.bit_orAt_bit (ClockCall.eq_ite_of_bit htdi) hbyte
  obtain ⟨arrTms, hm, hmbit⟩ := raw.arrTms.bit_orAt_bit (ClockCall.eq_ite_of_bit htms) hbyte
  refine ⟨{ raw with arrTdi := arrTdi, arrTms := arrTms }, ?_, rfl, fun j => ?_, fun j => ?_⟩
  · rw [RawBits.orIn, hd, hm]
    rfl
  · have happ := or_getD_append (levels.map Prod.fst) (tms.getLsbD 0) j
    rw [List.length_map] at happ
    rw [hmbit, h.tms, hpos, List.map_append]
    exact happ
  · have happ := or_getD_append (levels.map Prod.snd) (tdi.getLsbD 0) j
    rw [List.length_map] at happ
    rw [hdbit, h.tdi, hpos, List.map_append]
    exact happ

theorem RawBits.Holds.clockRawLoop {tms tdi : CInt} (htms : tms = 0 ∨ tms = 1)
    (htdi : tdi = 0 ∨ tdi = 1) : ∀ (left : ℕ) {pos : BitVec 32} {raw : RawBits}
    {levels : List (Bool × Bool)}, raw.Holds levels → pos.toNat = levels.length →
    levels.length + left ≤ 1024 →
    ∃ raw', clockRawLoop tms tdi left pos raw = some raw' ∧ raw'.curPos = raw.curPos ∧
      raw'.Holds (levels ++ List.replicate left (tms.getLsbD 0, tdi.getLsbD 0))
  | 0, _, raw, levels, h, _, _ => ⟨raw, rfl, rfl, by rwa [List.replicate_zero, List.append_nil]⟩
  | left + 1, pos, raw, levels, h, hpos, hroom => by
    obtain ⟨raw₁, hor, hpos₁, h₁⟩ := h.orIn htms htdi hpos (by omega)
    have hlen : (levels ++ [(tms.getLsbD 0, tdi.getLsbD 0)]).length = levels.length + 1 :=
      List.length_append
    have hnext : (pos + 1).toNat = (levels ++ [(tms.getLsbD 0, tdi.getLsbD 0)]).length := by
      rw [hlen, BitVec.toNat_add, hpos]
      exact Nat.mod_eq_of_lt (show levels.length + 1 < 2 ^ 32 by omega)
    obtain ⟨raw₂, hloop, hpos₂, h₂⟩ := clockRawLoop htms htdi left h₁ hnext (by omega)
    rw [List.append_assoc, List.singleton_append, ← List.replicate_succ] at h₂
    refine ⟨raw₂, ?_, hpos₂.trans hpos₁, h₂⟩
    rw [JtagHw.clockRawLoop, hor]
    exact hloop

/-- **Calls of `clock_raw` load the levels they ask for**, as long as these fit the arrays. -/
theorem RawBits.Holds.clockRaws : ∀ (calls : List RawCall) {raw : RawBits}
    {levels : List (Bool × Bool)}, (∀ call ∈ calls, call.IsLevels) → raw.Holds levels →
    raw.curPos.toNat = levels.length → (levels ++ rawLevels calls).length ≤ 1024 →
    ∃ raw', clockRaws calls raw = some raw' ∧ raw'.Holds (levels ++ rawLevels calls) ∧
      raw'.curPos.toNat = (levels ++ rawLevels calls).length
  | [], raw, levels, _, h, hpos, _ => by
    rw [rawLevels, List.flatMap_nil, List.append_nil]
    exact ⟨raw, rfl, h, hpos⟩
  | call :: calls, raw, levels, hcalls, h, hpos, hroom => by
    have hcall := hcalls call (List.mem_cons_self ..)
    have happ : levels ++ rawLevels (call :: calls) =
        levels ++ call.levels ++ rawLevels calls := by
      rw [rawLevels, List.flatMap_cons, List.append_assoc]
      rfl
    have hlen : (levels ++ call.levels).length = levels.length + call.len.toInt.toNat := by
      rw [List.length_append, RawCall.levels, List.length_replicate]
    rw [happ] at hroom ⊢
    have hroom' := hroom
    rw [List.length_append, hlen] at hroom'
    obtain ⟨raw₁, hloop, hpos₁, h₁⟩ :=
      h.clockRawLoop hcall.tms hcall.tdi call.len.toInt.toNat hpos (by omega)
    have h₁' : RawBits.Holds { raw₁ with curPos := raw₁.curPos + call.len }
      (levels ++ call.levels) := ⟨h₁.tms, h₁.tdi⟩
    -- a length that is not negative is the number that it is added as
    have hnonneg : call.len.toInt.toNat = call.len.toNat := by
      have := hcall.len
      rw [BitVec.toInt_eq_toNat_cond] at this ⊢
      split_ifs at this ⊢ <;> omega
    have hnext : (raw₁.curPos + call.len).toNat = (levels ++ call.levels).length := by
      rw [BitVec.toNat_add, hpos₁, hpos, hlen, hnonneg]
      exact Nat.mod_eq_of_lt (by omega)
    obtain ⟨raw₂, hrows, h₂, hpos₂⟩ :=
      clockRaws calls (fun c hc => hcalls c (List.mem_cons_of_mem _ hc)) h₁' hnext hroom
    refine ⟨raw₂, ?_, h₂, hpos₂⟩
    rw [JtagHw.clockRaws, clockRaw, hloop]
    exact hrows

/-! ### Scanning -/

/-- The loop of `main` that loads "the procedure into MPSSE", from the position `i` on. -/
def scanLoop {n : ℕ} (L : UsbLink δ) (raw : RawBits) :
    ℕ → ℕ → MpsseCtx δ → Buf n → Except Fault (MpsseCtx δ × Buf n)
  | 0, _, c, arrTdo => .ok (c, arrTdo)
  | k + 1, i, c, arrTdo => do
    let x ← access (raw.arrTdi.load? (i / 8))
    let (c', arrTdo') ← mpsseClockTmsCs L raw.arrTms i true i 1
      (decide ((x >>> (i % 8)) &&& 1#8 ≠ 0)) 0x09 c arrTdo
    scanLoop L raw k (i + 1) c' arrTdo'

/-- `main`, from the loop on to the flush. -/
def scan {n : ℕ} (L : UsbLink δ) (raw : RawBits) (c : MpsseCtx δ) (arrTdo : Buf n) :
    Except Fault (CInt × MpsseCtx δ × Buf n) := do
  let (c', arrTdo') ← scanLoop L raw raw.curPos.toNat 0 c arrTdo
  mpsseFlush L c' arrTdo'

/-- The calls that the loop makes. -/
def scanCalls (raw : RawBits) : ℕ → ℕ → List MpsseCall
  | 0, _ => []
  | k + 1, i => .clockTmsCs raw.arrTms i true i 1 (raw.arrTdi.bit i) 0x09 ::
    scanCalls raw k (i + 1)

/-- They fit. -/
theorem fits_scanCalls (type : FtdiChipType) {n : ℕ} : ∀ k i, i + k ≤ 1024 → i + k ≤ 8 * n →
    ∀ call ∈ scanCalls raw k i, call.Fits type n
  | 0, _, _, _, call, hcall => absurd hcall List.not_mem_nil
  | k + 1, i, hraw, hn, call, hcall => by
    rcases List.mem_cons.mp hcall with rfl | hcall
    · exact ⟨by decide, by omega, fun _ => by omega, by omega, by omega⟩
    · exact fits_scanCalls type k (i + 1) (by omega) (by omega) call hcall

/-- The loop makes these calls and no other. -/
theorem scanLoop_of_run {n : ℕ} {L : UsbLink δ} {type : FtdiChipType} : ∀ (k i : ℕ)
    {c c' : MpsseCtx δ} {b b' : Buf n} {os : List (Option CInt)}, i + k ≤ 1024 →
    run (mpsseStep L type) (c, b) (scanCalls raw k i) = .ok ((c', b'), os) →
    scanLoop L raw k i c b = .ok (c', b')
  | 0, _, _, _, _, _, _, _, h => by
    cases h
    rfl
  | k + 1, i, c, c', b, b', os, hroom, h => by
    obtain ⟨⟨c₁, b₁⟩, o, os', hstep, hrest, rfl⟩ := run_cons_inv h
    have hload := raw.arrTdi.load?_of_lt (show i / 8 < 128 by omega)
    have hbit : decide ((raw.arrTdi ⟨i / 8, by omega⟩ >>> (i % 8)) &&& 1#8 ≠ 0) =
        raw.arrTdi.bit i := by
      rw [shiftRight_and_one, ne_zero_of_bit, ← Buf.bit_of_load? hload]
    have hcall : mpsseClockTmsCs L raw.arrTms i true i 1 (raw.arrTdi.bit i) 0x09 c b =
        .ok (c₁, b₁) := by
      rw [mpsseStep] at hstep
      exact of_noResult hstep
    rw [scanLoop, hload]
    change (mpsseClockTmsCs L raw.arrTms i true i 1 (decide _) 0x09 c b).bind _ = _
    rw [hbit, hcall]
    exact scanLoop_of_run k (i + 1) (by omega) hrest

/-! ### What comes back -/

/-- The tick that puts the levels `level` on TMS and TDI. -/
def levelTick (level : Bool × Bool) : Tick := ⟨.ofMode 0x09, some level.1, some level.2⟩

/-- What the calls ask for. -/
theorem denote_scanCalls {τ : Type} (M : PinMachine τ) (type : FtdiChipType) : ∀ (k i : ℕ) (s : τ),
    Mealy.final (MpsseCall.denote M type) s (scanCalls raw k i) =
      M.clock s (ticks (fun j => levelTick (raw.arrTms.bit j, raw.arrTdi.bit j)) i k) true i
  | 0, i, s => (M.clock_nil s true i).symm
  | k + 1, i, s => by
    rw [scanCalls, Mealy.final_cons, denote_scanCalls M type k (i + 1), Nat.add_comm k 1, ticks_add,
      M.clock_append, length_ticks]
    rfl

/-- The ticks of the levels loaded. -/
theorem ticks_loaded (h : raw.Holds levels) :
    ticks (fun j => levelTick (raw.arrTms.bit j, raw.arrTdi.bit j)) 0 levels.length =
      levels.map levelTick := by
  refine List.ext_getElem (by simp) fun i hi hi' => ?_
  have hlt : i < levels.length := by simpa using hi'
  simp only [ticks]
  rw [List.getElem_map, List.getElem_map, List.getElem_range, Nat.zero_add, h.tms, h.tdi,
    List.getD_eq_getElem _ _ (by simpa using hlt), List.getD_eq_getElem _ _ (by simpa using hlt),
    List.getElem_map, List.getElem_map]

/-- **A scan brings back the answer of the chain to the levels loaded**, whatever calls of
`clock_raw` with levels have loaded them and whatever the chain. -/
theorem scan_chain {P : Port σ} {E : EngineLink δ P} (hE : E.Perfect) {c : MpsseCtx δ}
    (hidle : c.Idle) (hps : c.maxPacketSize = E.packetSize) (hready : (E.engine c.usb).Ready)
    (calls : List RawCall) (hcalls : ∀ call ∈ calls, call.IsLevels)
    (hroom : (rawLevels calls).length ≤ 1024) :
    ∃ raw c' arrTdo, clockRaws calls .clear = some raw ∧
      scan E.toUsbLink raw c (Buf.zero : Buf 128) = .ok (errorOk, c', arrTdo) ∧
      c'.Idle ∧ (E.engine c'.usb).Ready ∧
      (E.engine c'.usb).state = P.run (E.engine c.usb).state ((rawLevels calls).map levelTick) ∧
      ∀ j, arrTdo.bit j =
        (P.sampled (E.engine c.usb).state ((rawLevels calls).map levelTick)).getD j false := by
  obtain ⟨raw, hraw, hholds, hpos⟩ :=
    RawBits.holds_clear.clockRaws calls hcalls rfl (by rwa [List.nil_append])
  rw [List.nil_append] at hholds hpos
  have hstart : Deferred E ⟨(E.engine c.usb).state, (Buf.zero : Buf 128).bit⟩ c Buf.zero :=
    .of_idle hidle hps hready rfl rfl
  -- the loop, and then the flush
  obtain ⟨c₁, b₁, hrun, h₁⟩ := hstart.run hE .ft232h (scanCalls raw raw.curPos.toNat 0)
    (fits_scanCalls _ _ 0 (by omega) (by omega))
  obtain ⟨c', arrTdo, hflush, hidle', h'⟩ := h₁.flush hE
  have hscan : scan E.toUsbLink raw c (Buf.zero : Buf 128) = .ok (errorOk, c', arrTdo) := by
    rw [scan, scanLoop_of_run _ _ (by omega) hrun]
    exact hflush
  obtain ⟨hstate, hdata⟩ := h'.of_emptied hidle'
  rw [denote_scanCalls, hpos, ticks_loaded hholds] at hstate hdata
  refine ⟨raw, c', arrTdo, hraw, hscan, hidle', h'.ready, hstate, fun j => ?_⟩
  rw [hdata]
  change overlay (Buf.zero : Buf 128).bit 0 (P.sampled (E.engine c.usb).state _) j = _
  rw [overlay]
  split_ifs with hj
  · rw [Nat.sub_zero]
  · rw [Buf.bit_zero, List.getD_eq_default _ _ (by omega)]

/-! ### The program itself -/

/-- A TAP controller that is all there is behind the pins of the chip. -/
structure TapAtPins (P : Port σ) (tap : σ → JtagTapController) : Prop where
  clock : ∀ s level, tap (P.clock s (levelTick level)).1 = ((tap s).clock level).1
  tdo : ∀ s level, (P.clock s (levelTick level)).2 = ((tap s).clock level).2.tdo.getLsbD 0

/-- What the chip samples of it is what the controller answers. -/
theorem TapAtPins.sampled {P : Port σ} {tap : σ → JtagTapController} (h : TapAtPins P tap) :
    ∀ (levels : List (Bool × Bool)) (s : σ),
      P.sampled s (levels.map levelTick) = (tap s).tdoBits levels ∧
        tap (P.run s (levels.map levelTick)) = (tap s).run levels
  | [], _ => ⟨rfl, rfl⟩
  | level :: levels, s => by
    obtain ⟨hsampled, hrun⟩ := h.sampled levels (P.clock s (levelTick level)).1
    rw [h.clock] at hsampled hrun
    exact ⟨congrArg₂ List.cons (h.tdo s level) hsampled, hrun⟩

/-- `memcpy(&jtag_ident, arr_tdo, sizeof(jtag_ident))`: eight bytes, as a little-endian machine
reads them. -/
def firstWord (b : Buf 128) : BitVec 64 :=
  (BitVec.ofBoolListLE ((List.range 64).map b.bit)).setWidth 64

/-- `jtag_ident`. -/
def jtagIdent (arrTdo : Buf 128) : BitVec 64 := (firstWord arrTdo >>> 6 >>> 4) &&& 0xFFFFFFFF

/-- The number is what stands behind position `10` of the array, `32` bits of it. -/
theorem getLsbD_jtagIdent (arrTdo : Buf 128) (k : ℕ) :
    (jtagIdent arrTdo).getLsbD k = (decide (k < 32) && arrTdo.bit (10 + k)) := by
  have hmask : (0xFFFFFFFF : BitVec 64).getLsbD k = decide (k < 32) := by
    rw [show (0xFFFFFFFF : BitVec 64) = BitVec.ofNat 64 (2 ^ 32 - 1) from rfl, BitVec.getLsbD_ofNat,
      Nat.testBit_two_pow_sub_one, ← Bool.decide_and]
    exact decide_eq_decide.mpr (by omega)
  rw [jtagIdent, BitVec.getLsbD_and, hmask, BitVec.getLsbD_ushiftRight, BitVec.getLsbD_ushiftRight,
    ← Nat.add_assoc, Bool.and_comm]
  by_cases hk : k < 32
  · rw [decide_eq_true hk, Bool.true_and, Bool.true_and, firstWord, BitVec.getLsbD_setWidth,
      decide_eq_true (by omega), Bool.true_and, BitVec.getLsbD_ofBoolListLE,
      List.getD_eq_getElem _ _ (by simp; omega), List.getElem_map, List.getElem_range]
  · rw [decide_eq_false hk, Bool.false_and, Bool.false_and]

/-- **The answer to an identification scan**, whatever state the controller is in: the code is
found behind the clocks that lead there. -/
theorem tdoBits_ident (c : JtagTapController) (ones : List Bool) (w x y z : Bool)
    (shifts rest : List (Bool × Bool)) (hones : 5 ≤ ones.length) (hshifts : shifts.length = 32)
    (hstay : ∀ p ∈ shifts.dropLast, p.1 = false) {k : ℕ} (hk : k < 32) :
    (c.tdoBits ((ones.map fun t => (true, t)) ++
      [(false, w), (true, x), (false, y), (false, z)] ++ shifts ++ rest)).getD
        (ones.length + 4 + k) false = Nat.testBit 0x029070DD k := by
  obtain ⟨hs, hi, hdr⟩ :=
    TapScan.run_toShiftDr _ (TapScan.curState_of_ones ones c hones) w x y z
  rw [← JtagTapController.run_append] at hs hi hdr
  set lead := (ones.map fun t => (true, t)) ++ [(false, w), (true, x), (false, y), (false, z)]
    with hlead
  have hlen : lead.length = ones.length + 4 := by simp [hlead]
  have hout : (c.run lead).tdoBits shifts = TapScan.idcodeBits := by
    rw [JtagTapController.tdoBits, TapScan.tdos_shiftDr shifts _ hs hi hstay, hdr,
      hshifts, List.take_append_of_le_length (by simp [TapScan.length_idcodeBits]),
      List.take_of_length_le (by simp [TapScan.length_idcodeBits]), List.map_map]
    exact (List.map_congr_left fun b _ => JtagTapController.cbit_getLsbD b).trans (List.map_id _)
  rw [JtagTapController.tdoBits_append, JtagTapController.tdoBits_append, hout,
    List.getD_append _ _ _ _ (by simp [hlen, TapScan.length_idcodeBits]; omega),
    List.getD_append_right _ _ _ _ (by simp [hlen]), JtagTapController.length_tdoBits, hlen,
    Nat.add_sub_cancel_left, List.getD_eq_getElem?_getD,
    TapScan.getElem?_idcodeBits hk, Option.getD_some]

/-- **A scan of the controller**, in whatever state it is found. What comes back is what it
answers to the levels loaded; and if these are six clocks of reset, four that lead to
`SHIFT_DR`, and `32` there, the number printed is its identification code. -/
theorem scan_tap {P : Port σ} {tap : σ → JtagTapController} (hP : TapAtPins P tap)
    {E : EngineLink δ P} (hE : E.Perfect) {c : MpsseCtx δ} (hidle : c.Idle)
    (hps : c.maxPacketSize = E.packetSize) (hready : (E.engine c.usb).Ready)
    (calls : List RawCall) (hcalls : ∀ call ∈ calls, call.IsLevels)
    (hroom : (rawLevels calls).length ≤ 1024) :
    ∃ raw c' arrTdo, clockRaws calls .clear = some raw ∧
      scan E.toUsbLink raw c (Buf.zero : Buf 128) = .ok (errorOk, c', arrTdo) ∧
      tap (E.engine c'.usb).state = (tap (E.engine c.usb).state).run (rawLevels calls) ∧
      (∀ j, arrTdo.bit j =
        ((tap (E.engine c.usb).state).tdoBits (rawLevels calls)).getD j false) ∧
      ∀ (ones : List Bool) (w x y z : Bool) (shifts rest : List (Bool × Bool)),
        rawLevels calls = (ones.map fun t => (true, t)) ++
          [(false, w), (true, x), (false, y), (false, z)] ++ shifts ++ rest →
        ones.length = 6 → shifts.length = 32 → (∀ p ∈ shifts.dropLast, p.1 = false) →
          jtagIdent arrTdo = 0x029070DD := by
  obtain ⟨raw, c', arrTdo, hraw, hscan, -, -, hstate, hbit⟩ :=
    scan_chain hE hidle hps hready calls hcalls hroom
  obtain ⟨hsampled, hrun⟩ := hP.sampled (rawLevels calls) (E.engine c.usb).state
  rw [hsampled] at hbit
  refine ⟨raw, c', arrTdo, hraw, hscan, by rw [hstate, hrun], hbit, ?_⟩
  intro ones w x y z shifts rest hrows hones hshifts hstay
  refine BitVec.eq_of_getLsbD_eq fun k hk64 => ?_
  have hcode : (0x029070DD : BitVec 64).getLsbD k = Nat.testBit 0x029070DD k := by
    rw [show (0x029070DD : BitVec 64) = BitVec.ofNat 64 0x029070DD from rfl, BitVec.getLsbD_ofNat,
      decide_eq_true hk64, Bool.true_and]
  rw [getLsbD_jtagIdent, hbit, hrows, hcode]
  by_cases hk : k < 32
  · have hident := tdoBits_ident (tap (E.engine c.usb).state) ones w x y z shifts rest (by omega)
      hshifts hstay hk
    rw [hones] at hident
    rw [hident, decide_eq_true hk, Bool.true_and]
  · have hhigh : Nat.testBit 0x029070DD k = false :=
      Nat.testBit_lt_two_pow (lt_of_lt_of_le (by decide : 0x029070DD < 2 ^ 32)
        (Nat.pow_le_pow_right (by decide) (not_lt.mp hk)))
    rw [decide_eq_false hk, Bool.false_and, hhigh]

/-- The calls of `clock_raw` that `main` makes. -/
def mainCalls : List RawCall :=
  [⟨1, 1, 6⟩, ⟨0, 1, 1⟩, ⟨1, 1, 1⟩] ++ List.replicate 10 ⟨0, 1, 1⟩ ++
    List.replicate 6 ⟨0, 0, 1⟩ ++ List.replicate 2 ⟨0, 1, 1⟩ ++ List.replicate 2 ⟨0, 0, 1⟩ ++
    List.replicate 2 ⟨0, 1, 1⟩ ++ [⟨0, 0, 1⟩] ++ List.replicate 7 ⟨0, 1, 1⟩ ++
    List.replicate 4 ⟨0, 0, 1⟩ ++ [⟨0, 1, 96⟩]

/-- The controller, with TMS and TDI as they were driven last. -/
structure TapPins where
  tap : JtagTapController
  tms : Bool
  tdi : Bool

/-- The controller at the pins of a chip. -/
def tapPort : Port TapPins where
  clock s t :=
    (⟨(s.tap.clock (t.tms.getD s.tms, t.tdi.getD s.tdi)).1, t.tms.getD s.tms, t.tdi.getD s.tdi⟩,
      (s.tap.clock (t.tms.getD s.tms, t.tdi.getD s.tdi)).2.tdo.getLsbD 0)
  set s _ := s
  low _ := 0
  high _ := 0
  stale _ _ := false

theorem tapAtPins_tapPort : TapAtPins tapPort TapPins.tap := ⟨fun _ _ => rfl, fun _ _ => rfl⟩

theorem scan_tap_main :
    ∃ raw c' arrTdo, clockRaws mainCalls .clear = some raw ∧
      scan (EngineLink.direct tapPort).toUsbLink raw (freshCtx ⟨.init, true, true⟩)
        (Buf.zero : Buf 128) = .ok (errorOk, c', arrTdo) ∧
      jtagIdent arrTdo = 0x029070DD := by
  have hlen : (rawLevels mainCalls).length = 138 := rfl
  have hcalls : ∀ call ∈ mainCalls, call.IsLevels := by decide
  obtain ⟨raw, c', arrTdo, hraw, hscan, -, -, hident⟩ := scan_tap tapAtPins_tapPort
    (EngineLink.direct_perfect tapPort) (idle_freshCtx ⟨.init, true, true⟩) rfl ⟨rfl, rfl⟩
    mainCalls hcalls (by omega)
  exact ⟨raw, c', arrTdo, hraw, hscan, hident (List.replicate 6 true) true true true true
    (((rawLevels mainCalls).drop 10).take 32) ((rawLevels mainCalls).drop 42) (by decide) rfl
    (by decide) (by decide)⟩

end JtagHw
