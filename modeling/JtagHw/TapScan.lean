import JtagHw.TapController

/-!
# What a scan says, read off the history

The controller holds its instruction and its three shift registers as state; a
host thinks of them in terms of what it has clocked. This file is the
translation. A *history* is the list of clocks a run went through, each with the
controller it was executed in, and everything the controller holds is a function
of it:

* the instruction in force is what the last `UPDATE_IR` since the last reset
  selected, decoded from the last ten bits of the stream that starts with the
  captured pattern and goes on with what was fed since
  (`JtagHw.TapScan.selected`);
* a register in the middle of a scan is the window on such a stream
  (`JtagHw.ShiftReg.Holds`), which makes TDO on the `k`-th shift clock element
  `k` of it.

The two are one invariant, `JtagHw.TapScan.ScanInv`, kept by every clock
(`JtagHw.TapScan.ScanInv.clock`). It survives the detours through the pause
states because those clocks neither capture nor shift, and it never asks for
anything about a register outside its own scan: a register is stale from the
last exit on, and every way back to a shift state leads through a capture.
-/

namespace JtagHw

namespace TapScan

open JtagTapController

/-! ### Reading a history -/

/-- A clock of a run: the controller it is executed in, and its input. -/
abbrev Clock := JtagTapController × (Bool × Bool)

/-- The clock is executed in the state `s`. -/
def executedIn (s : TapState) (k : Clock) : Bool := k.1.curState = s

/-- The clocks since the last one executed in `s`, that one excluded; all of
them if there is none. -/
def sinceLast (s : TapState) (h : List Clock) : List Clock := h.rtakeWhile fun k => !executedIn s k

/-- The clocks up to the last one executed in `s`, that one included; none if
there is none. -/
def throughLast (s : TapState) (h : List Clock) : List Clock :=
  h.rdropWhile fun k => !executedIn s k

/-- The TDI bits of the clocks executed in `s`. -/
def fedIn (s : TapState) (h : List Clock) : List Bool :=
  (h.filter (executedIn s)).map fun k => k.2.2

/-- The bits shifted into the instruction register since its last capture. -/
def irFed (h : List Clock) : List Bool := fedIn .shiftIr (sinceLast .captureIr h)

/-- The bits shifted into a data register since the last capture. -/
def drFed (h : List Clock) : List Bool := fedIn .shiftDr (sinceLast .captureDr h)

/-- What `CAPTURE_IR` loads, lowest bit first. -/
def irCapture : List Bool :=
  [true, false, true, false, true, false, true, false, true, false]

/-- The stream the instruction register is a window on. -/
def irStream (h : List Clock) : List Bool := irCapture ++ irFed h

/-- **The instruction a history selects**: `IDCODE` as long as no `UPDATE_IR` has
been executed since the last reset, and otherwise the decoding of the last ten
bits of the scan the last `UPDATE_IR` ended. -/
def selected (h : List Clock) : TapInstr :=
  if (sinceLast .testLogicReset h).any (executedIn .updateIr) then
    instrFromBits (BitVec.ofNat 32
      (ShiftReg.bitsToNat ((irStream (throughLast .updateIr h)).rtake 10)))
  else .idcode

/-! ### One more clock -/

variable (s : TapState) (h : List Clock) (k : Clock)

theorem sinceLast_concat :
    sinceLast s (h ++ [k]) = if executedIn s k then [] else sinceLast s h ++ [k] := by
  by_cases hk : executedIn s k
  · rw [if_pos hk, sinceLast, List.rtakeWhile_concat_neg _ _ _ (by simp [hk])]
  · rw [if_neg hk, sinceLast, List.rtakeWhile_concat_pos _ _ _ (by simpa using hk), sinceLast]

theorem throughLast_concat :
    throughLast s (h ++ [k]) = if executedIn s k then h ++ [k] else throughLast s h := by
  by_cases hk : executedIn s k
  · rw [if_pos hk, throughLast, List.rdropWhile_concat_neg _ _ _ (by simp [hk])]
  · rw [if_neg hk, throughLast, List.rdropWhile_concat_pos _ _ _ (by simpa using hk), throughLast]

theorem fedIn_concat :
    fedIn s (h ++ [k]) = fedIn s h ++ if executedIn s k then [k.2.2] else [] := by
  by_cases hk : executedIn s k <;> simp [fedIn, List.filter_append, hk]

/-- What a capture state and a shift state do to the bits fed to a register. -/
theorem fedIn_sinceLast_concat (cap shf : TapState) (hne : cap ≠ shf) :
    fedIn shf (sinceLast cap (h ++ [k])) =
      if k.1.curState = cap then []
      else if k.1.curState = shf then fedIn shf (sinceLast cap h) ++ [k.2.2]
      else fedIn shf (sinceLast cap h) := by
  rw [sinceLast_concat]
  by_cases hc : k.1.curState = cap
  · simp [executedIn, hc, fedIn]
  · by_cases hs : k.1.curState = shf
    · simp [executedIn, fedIn_concat, hs, Ne.symm hne]
    · simp [executedIn, fedIn_concat, hc, hs]

theorem irFed_concat :
    irFed (h ++ [k]) =
      if k.1.curState = .captureIr then []
      else if k.1.curState = .shiftIr then irFed h ++ [k.2.2]
      else irFed h :=
  fedIn_sinceLast_concat h k .captureIr .shiftIr (by decide)

theorem drFed_concat :
    drFed (h ++ [k]) =
      if k.1.curState = .captureDr then []
      else if k.1.curState = .shiftDr then drFed h ++ [k.2.2]
      else drFed h :=
  fedIn_sinceLast_concat h k .captureDr .shiftDr (by decide)

/-- **What one clock selects.** -/
theorem selected_concat :
    selected (h ++ [k]) =
      if k.1.curState = .testLogicReset then .idcode
      else if k.1.curState = .updateIr then
        instrFromBits (BitVec.ofNat 32 (ShiftReg.bitsToNat ((irStream h).rtake 10)))
      else selected h := by
  by_cases ht : k.1.curState = .testLogicReset
  · have hsince : sinceLast .testLogicReset (h ++ [k]) = [] := by
      rw [sinceLast_concat, if_pos (by simpa [executedIn] using ht)]
    simp [selected, hsince, ht]
  · have hsince : sinceLast .testLogicReset (h ++ [k]) = sinceLast .testLogicReset h ++ [k] := by
      rw [sinceLast_concat, if_neg (by simpa [executedIn] using ht)]
    by_cases hu : k.1.curState = .updateIr
    · -- an update reads the stream as it was before it
      have hk : executedIn .updateIr k := by simpa [executedIn] using hu
      have hstream : irStream (h ++ [k]) = irStream h := by
        simp [irStream, irFed_concat, hu]
      simp [selected, hsince, throughLast_concat, hk, hu, hstream]
    · have hk : executedIn .updateIr k = false := by simpa [executedIn] using hu
      have hany : (sinceLast .testLogicReset h ++ [k]).any (executedIn .updateIr) =
          (sinceLast .testLogicReset h).any (executedIn .updateIr) := by
        rw [List.any_append, List.any_cons, hk, List.any_nil, Bool.or_false, Bool.or_false]
      have hthrough : throughLast .updateIr (h ++ [k]) = throughLast .updateIr h := by
        rw [throughLast_concat, hk, if_neg Bool.false_ne_true]
      rw [if_neg ht, if_neg hu, selected, hsince, hany, hthrough, selected]

/-! ### The states of a scan -/

/-- The states in which the instruction register is in the middle of a scan. -/
def inIrScan : TapState → Bool
  | .shiftIr | .exit1Ir | .pauseIr | .exit2Ir | .updateIr => true
  | _ => false

/-- The states in which the selected data register is in the middle of a
scan. -/
def inDrScan : TapState → Bool
  | .shiftDr | .exit1Dr | .pauseDr | .exit2Dr => true
  | _ => false

/-- The states a DR scan goes through, from its selection to its update. -/
def drColumn : TapState → Bool
  | .selectDrScan | .captureDr | .shiftDr | .exit1Dr | .pauseDr | .exit2Dr | .updateDr => true
  | _ => false

/-- A scan of the instruction register is entered through its capture. -/
theorem inIrScan_next {s : TapState} {tms : Bool} (h : inIrScan (jtagTapNextState s tms)) :
    s = .captureIr ∨ (s ≠ .captureIr ∧ inIrScan s) := by
  revert h
  cases s <;> cases tms <;> decide

/-- A scan of a data register is entered through its capture. -/
theorem inDrScan_next {s : TapState} {tms : Bool} (h : inDrScan (jtagTapNextState s tms)) :
    s = .captureDr ∨ (s ≠ .captureDr ∧ inDrScan s) := by
  revert h
  cases s <;> cases tms <;> decide

/-- Neither reset nor update of the instruction happens on the way to a DR
scan. -/
theorem curInstr_kept_of_inDrScan_next {s : TapState} {tms : Bool}
    (h : inDrScan (jtagTapNextState s tms)) : s ≠ .testLogicReset ∧ s ≠ .updateIr := by
  revert h
  cases s <;> cases tms <;> decide

/-! ### The invariant -/

variable {c : JtagTapController} {h}

/-- What `CAPTURE_DR` loads with `IDCODE` in force, lowest bit first. -/
def idcodeBits : List Bool := ShiftReg.lowBits 32 0x029070DD

/-- **The controller is a function of its history**: the instruction at all
times, and each shift register while a scan of it is under way. -/
structure ScanInv (c : JtagTapController) (h : List Clock) : Prop where
  instr : c.curInstr = selected h
  ir : inIrScan c.curState → c.ir.Holds irCapture (irFed h)
  dr : inDrScan c.curState → c.curInstr = .idcode → c.dr.Holds idcodeBits (drFed h)
  bypassr : inDrScan c.curState → c.curInstr = .bypass → c.bypassr.Holds [true] (drFed h)

theorem scanInv_init : ScanInv init [] := by
  constructor
  · rfl
  all_goals
    intro hs
    exact absurd hs (by decide)

theorem lowBits_irCapture : ShiftReg.lowBits 10 0b0101010101 = irCapture := by decide

namespace ScanInv

/-- The instruction register over one clock. -/
theorem clock_ir_holds (hc : ScanInv c h) (i : Bool × Bool)
    (hs : inIrScan (jtagTapNextState c.curState i.1)) :
    (c.exec (cbit i.2)).1.ir.Holds irCapture (irFed (h ++ [(c, i)])) := by
  rw [exec_ir, irFed_concat]
  rcases inIrScan_next hs with hcap | ⟨hncap, hscan⟩
  · rw [if_pos hcap, if_pos hcap, ← lowBits_irCapture]
    exact ShiftReg.holds_load _ _
  · rw [if_neg hncap, if_neg hncap]
    by_cases hshift : c.curState = .shiftIr
    · rw [if_pos hshift, if_pos hshift]
      exact (hc.ir hscan).shift (by norm_num) i.2
    · rw [if_neg hshift, if_neg hshift]
      exact hc.ir hscan

/-- The identification register over one clock. -/
theorem clock_dr_holds (hc : ScanInv c h) (i : Bool × Bool)
    (hs : inDrScan (jtagTapNextState c.curState i.1)) (hi : c.curInstr = .idcode) :
    (c.exec (cbit i.2)).1.dr.Holds idcodeBits (drFed (h ++ [(c, i)])) := by
  rw [exec_dr, if_pos hi, drFed_concat]
  rcases inDrScan_next hs with hcap | ⟨hncap, hscan⟩
  · rw [if_pos hcap, if_pos hcap]
    exact ShiftReg.holds_load _ _
  · rw [if_neg hncap, if_neg hncap]
    by_cases hshift : c.curState = .shiftDr
    · rw [if_pos hshift, if_pos hshift]
      exact (hc.dr hscan hi).shift (by norm_num) i.2
    · rw [if_neg hshift, if_neg hshift]
      exact hc.dr hscan hi

/-- The bypass register over one clock. -/
theorem clock_bypassr_holds (hc : ScanInv c h) (i : Bool × Bool)
    (hs : inDrScan (jtagTapNextState c.curState i.1)) (hi : c.curInstr = .bypass) :
    (c.exec (cbit i.2)).1.bypassr.Holds [true] (drFed (h ++ [(c, i)])) := by
  rw [exec_bypassr, if_pos hi, drFed_concat]
  rcases inDrScan_next hs with hcap | ⟨hncap, hscan⟩
  · rw [if_pos hcap, if_pos hcap]
    exact ShiftReg.holds_load _ _
  · rw [if_neg hncap, if_neg hncap]
    by_cases hshift : c.curState = .shiftDr
    · rw [if_pos hshift, if_pos hshift]
      exact (hc.bypassr hscan hi).shift (by norm_num) i.2
    · rw [if_neg hshift, if_neg hshift]
      exact hc.bypassr hscan hi

/-- The code an `UPDATE_IR` decodes is the one its history spells. -/
theorem updateIr_code (hc : ScanInv c h) (hs : c.curState = .updateIr) :
    c.ir.val.setWidth 32 =
      BitVec.ofNat 32 (ShiftReg.bitsToNat ((irStream h).rtake 10)) := by
  rw [(hc.ir (by rw [hs]; rfl)).val, BitVec.setWidth_ofNat_of_le (by norm_num)]
  rfl

/-- **One clock keeps the invariant.** -/
theorem clock (hc : ScanInv c h) (i : Bool × Bool) :
    ScanInv (c.clock i).1 (h ++ [(c, i)]) := by
  -- on the way to a DR scan the instruction stays, so the scan is under the one it began with
  have hkept : inDrScan (jtagTapNextState c.curState i.1) →
      (c.exec (cbit i.2)).1.curInstr = c.curInstr := by
    intro hs
    obtain ⟨ht, hu⟩ := curInstr_kept_of_inDrScan_next hs
    rw [exec_curInstr, if_neg ht, if_neg hu]
  constructor
  · rw [clock_curInstr, exec_curInstr, selected_concat]
    refine if_congr Iff.rfl rfl ?_
    by_cases hu : c.curState = .updateIr
    · rw [if_pos hu, if_pos hu, hc.updateIr_code hu]
    · rw [if_neg hu, if_neg hu, hc.instr]
  · exact fun hs => hc.clock_ir_holds i hs
  · exact fun hs hi => hc.clock_dr_holds i hs ((hkept hs).symm.trans hi)
  · exact fun hs hi => hc.clock_bypassr_holds i hs ((hkept hs).symm.trans hi)

end ScanInv

/-- **Every run keeps the invariant.** -/
theorem scanInv_run (is : List (Bool × Bool)) :
    ScanInv (init.run is) (Mealy.trace JtagTapController.clock init is) :=
  Mealy.final_history scanInv_init (fun _ _ i hc => hc.clock i) is

/-! ### What a shift clock answers -/

namespace ScanInv

/-- TDO on a clock of `SHIFT_IR`: the element of the stream that is due. -/
theorem tdo_shiftIr (hc : ScanInv c h) (hs : c.curState = .shiftIr) (i : Bool × Bool) :
    (irStream h)[(irFed h).length]?.map cbit = some (c.clock i).2.tdo := by
  have hout := (hc.ir (by rw [hs]; rfl)).shift_out (by norm_num) 0
  rw [clock_tdo, exec_tdo, if_pos hs]
  exact hout

/-- TDO on a clock of `SHIFT_DR` with `IDCODE` in force. -/
theorem tdo_shiftDr_idcode (hc : ScanInv c h) (hs : c.curState = .shiftDr)
    (hi : c.curInstr = .idcode) (i : Bool × Bool) :
    (idcodeBits ++ drFed h)[(drFed h).length]?.map cbit = some (c.clock i).2.tdo := by
  have hout := (hc.dr (by rw [hs]; rfl) hi).shift_out (by norm_num) 0
  rw [clock_tdo, exec_tdo, if_neg (by rw [hs]; decide), if_pos ⟨hs, hi⟩]
  exact hout

/-- TDO on a clock of `SHIFT_DR` with `BYPASS` in force. -/
theorem tdo_shiftDr_bypass (hc : ScanInv c h) (hs : c.curState = .shiftDr)
    (hi : c.curInstr = .bypass) (i : Bool × Bool) :
    ([true] ++ drFed h)[(drFed h).length]?.map cbit = some (c.clock i).2.tdo := by
  have hout := (hc.bypassr (by rw [hs]; rfl) hi).shift_out (by norm_num) 0
  rw [clock_tdo, exec_tdo, if_neg (by rw [hs]; decide), if_neg (by rw [hi]; simp),
    if_pos ⟨hs, hi⟩]
  exact hout

end ScanInv

/-- **A DR scan leaves the instruction side alone**: no clock executed in the
states of a DR scan touches the instruction register or the instruction. -/
theorem run_drColumn (c : JtagTapController) (ds : List (Bool × Bool))
    (hds : ∀ k ∈ Mealy.trace JtagTapController.clock c ds, drColumn k.1.curState) :
    (c.run ds).ir = c.ir ∧ (c.run ds).curInstr = c.curInstr := by
  induction ds generalizing c with
  | nil => exact ⟨rfl, rfl⟩
  | cons i ds ih =>
    have hcol : drColumn c.curState := hds (c, i) (by simp)
    have hne : c.curState ≠ .testLogicReset ∧ c.curState ≠ .updateIr ∧
        c.curState ≠ .captureIr ∧ c.curState ≠ .shiftIr := by
      refine ⟨?_, ?_, ?_, ?_⟩ <;> (intro he; rw [he] at hcol; exact absurd hcol (by decide))
    obtain ⟨ht, hu, hcap, hshf⟩ := hne
    obtain ⟨hir, hinstr⟩ := ih (c.clock i).1 fun k hk => hds k (by simp [hk])
    refine ⟨hir.trans ?_, hinstr.trans ?_⟩
    · rw [clock_ir, exec_ir, if_neg hcap, if_neg hshf]
    · rw [clock_curInstr, exec_curInstr, if_neg ht, if_neg hu]

/-- **The instruction in force.** At every clock of a run that is executed in
`CAPTURE_DR` or `SHIFT_DR`, the instruction is the one the history selects; on
the `k`-th clock of `SHIFT_IR` since the capture, TDO is element `k` of the
stream that selection decodes the end of; and a DR scan, of any length, leaves
both the instruction register and the instruction as they are. -/
theorem instruction_in_force (is : List (Bool × Bool)) :
    ((init.run is).curState = .captureDr ∨ (init.run is).curState = .shiftDr →
        (init.run is).curInstr = selected (Mealy.trace JtagTapController.clock init is)) ∧
      ((init.run is).curState = .shiftIr →
        ∀ i, (irStream (Mealy.trace JtagTapController.clock init is))[
            (irFed (Mealy.trace JtagTapController.clock init is)).length]?.map cbit =
          some ((init.run is).clock i).2.tdo) ∧
      ∀ ds, (∀ k ∈ Mealy.trace JtagTapController.clock (init.run is) ds,
          drColumn k.1.curState) →
        ((init.run is).run ds).ir = (init.run is).ir ∧
          ((init.run is).run ds).curInstr = (init.run is).curInstr :=
  ⟨fun _ => (scanInv_run is).instr, fun hs i => (scanInv_run is).tdo_shiftIr hs i,
    fun ds hds => run_drColumn _ ds hds⟩

/-- The clocks that take a fresh controller to `SHIFT_IR`. -/
def toShiftIr : List (Bool × Bool) :=
  [(false, true), (true, true), (true, true), (false, true), (false, true)]

/-- The clocks of an IR scan with a pause in the middle that selects `UNKNOWN1`,
and the way from there to `SHIFT_DR`. -/
def toDownload : List (Bool × Bool) :=
  toShiftIr ++
    [(false, false), (false, true), (true, false), (false, true), (true, true), (false, true),
      (false, false), (false, false), (false, false), (false, false), (false, false),
      (false, false), (true, false), (true, true), (true, true), (false, true), (false, true)]

theorem instruction_in_force_download :
    (init.run toDownload).curInstr =
        selected (Mealy.trace JtagTapController.clock init toDownload) ∧
      selected (Mealy.trace JtagTapController.clock init toDownload) = .unknown1 ∧
      (irStream (Mealy.trace JtagTapController.clock init toShiftIr))[
          (irFed (Mealy.trace JtagTapController.clock init toShiftIr)).length]?.map cbit =
        some ((init.run toShiftIr).clock (false, false)).2.tdo :=
  ⟨(instruction_in_force toDownload).1 (Or.inr (by decide)), by decide,
    (instruction_in_force toShiftIr).2.1 (by decide) (false, false)⟩

/-! ### The identification scan -/

theorem getElem?_idcodeBits {k : ℕ} (hk : k < 32) :
    idcodeBits[k]? = some (Nat.testBit 0x029070DD k) := by
  rw [idcodeBits, ShiftReg.lowBits, List.getElem?_map, List.getElem?_range hk]
  rfl

theorem length_idcodeBits : idcodeBits.length = 32 := ShiftReg.length_lowBits 32 _

/-- The stream of an identification scan: the code, then what is fed. -/
theorem getElem?_idcodeStream (fed : List Bool) (k : ℕ) :
    (idcodeBits ++ fed)[k]? =
      if k < 32 then some (Nat.testBit 0x029070DD k) else fed[k - 32]? := by
  by_cases hk : k < 32
  · rw [if_pos hk, List.getElem?_append_left (by rw [length_idcodeBits]; exact hk),
      getElem?_idcodeBits hk]
  · rw [if_neg hk, List.getElem?_append_right (by rw [length_idcodeBits]; omega),
      length_idcodeBits]

/-- Five clocks with TMS high reset the controller from every state. -/
theorem curState_of_ones :
    ∀ (ones : List Bool) (c : JtagTapController), 5 ≤ ones.length →
      (c.run (ones.map fun t => (true, t))).curState = .testLogicReset := by
  have hfive : ∀ s : TapState, (jtagTapNextState · true)^[5] s = .testLogicReset := by
    intro s
    cases s <;> rfl
  have hiter : ∀ (ones : List Bool) (c : JtagTapController),
      (c.run (ones.map fun t => (true, t))).curState =
        (jtagTapNextState · true)^[ones.length] c.curState := by
    intro ones
    induction ones with
    | nil => exact fun c => rfl
    | cons t ones ih => exact fun c => ih _
  have hstay : ∀ n, (jtagTapNextState · true)^[n] TapState.testLogicReset = .testLogicReset := by
    intro n
    induction n with
    | zero => rfl
    | succ n ih => rwa [Function.iterate_succ_apply]
  intro ones c hlen
  rw [hiter, show ones.length = (ones.length - 5) + 5 by omega, Function.iterate_add_apply, hfive,
    hstay]

/-- **The shift clocks of a DR scan with `IDCODE` in force** answer the front of
the register and then what they are fed, the clock that leaves included. -/
theorem tdos_shiftDr : ∀ (shifts : List (Bool × Bool)) (c : JtagTapController),
    c.curState = .shiftDr → c.curInstr = .idcode → (∀ p ∈ shifts.dropLast, p.1 = false) →
    tdos c shifts = (c.dr.arr ++ shifts.map fun p => cbit p.2).take shifts.length
  | [], c, _, _, _ => by simp [tdos]
  | i :: rest, c, hs, hi, hlast => by
    obtain ⟨a, r, har⟩ : ∃ a r, c.dr.arr = a :: r :=
      List.exists_cons_of_ne_nil (List.ne_nil_of_length_pos (by simp))
    have hout : (c.clock i).2.tdo = a := by
      rw [clock_tdo, exec_tdo, if_neg (by rw [hs]; decide), if_pos ⟨hs, hi⟩, har]
      rfl
    have hdr : (c.clock i).1.dr.arr = r ++ [cbit i.2] := by
      rw [clock_dr, exec_dr, if_pos hi, if_neg (by rw [hs]; decide), if_pos hs,
        ShiftReg.shift_arr (by norm_num), har]
      rfl
    have hinstr : (c.clock i).1.curInstr = .idcode := by
      rw [clock_curInstr, exec_curInstr, if_neg (by rw [hs]; decide),
        if_neg (by rw [hs]; decide), hi]
    have hrest : tdos (c.clock i).1 rest =
        (r ++ [cbit i.2] ++ rest.map fun p => cbit p.2).take rest.length := by
      cases rest with
      | nil => simp [tdos]
      | cons j rest =>
        -- this is not the last shift clock, so it does not leave
        have hi0 : i.1 = false := hlast i (by simp)
        have hs' : (c.clock i).1.curState = .shiftDr := by
          rw [clock_curState, hs, hi0]
          rfl
        rw [tdos_shiftDr (j :: rest) _ hs' hinstr fun p hp => hlast p (by simp [hp]), hdr]
    have hcons : tdos c (i :: rest) = (c.clock i).2.tdo :: tdos (c.clock i).1 rest := rfl
    rw [hcons, hout, hrest, har]
    simp

/-- From reset, TMS `0, 1, 0, 0` leads to `SHIFT_DR`, with the identification
code just captured. -/
theorem run_toShiftDr (c : JtagTapController) (hs : c.curState = .testLogicReset) (w x y z : Bool) :
    let d := c.run [(false, w), (true, x), (false, y), (false, z)]
    d.curState = .shiftDr ∧ d.curInstr = .idcode ∧ d.dr.arr = idcodeBits.map cbit := by
  rcases c with ⟨s, instr, ir, dr, bp, n⟩
  obtain rfl : s = .testLogicReset := hs
  exact ⟨rfl, rfl, ShiftReg.load_arr dr 0x029070DD⟩

/-- **The identification scan.** On the `k`-th clock of `SHIFT_DR` since the
capture, in a DR scan with `IDCODE` in force, TDO is bit `k` of the code for
`k < 32`, and from then on the bit fed `32` shift clocks earlier. Hence, from
every reachable controller, `k ≥ 5` clocks with TMS high, then TMS `0, 1, 0, 0`,
then shift clocks – the last of which may leave – put the code at the positions
`k + 4` to `k + 35` of TDO, and the echoed TDI after it. -/
theorem idcode_scan :
    (∀ (is : List (Bool × Bool)) (i : Bool × Bool),
      let c := init.run is
      let fed := drFed (Mealy.trace JtagTapController.clock init is)
      c.curState = .shiftDr → c.curInstr = .idcode →
        (fed.length < 32 → (c.clock i).2.tdo = cbit (Nat.testBit 0x029070DD fed.length)) ∧
        (32 ≤ fed.length → fed[fed.length - 32]?.map cbit = some (c.clock i).2.tdo)) ∧
    ∀ (is : List (Bool × Bool)) (ones : List Bool) (w x y z : Bool) (shifts : List (Bool × Bool)),
      5 ≤ ones.length → (∀ p ∈ shifts.dropLast, p.1 = false) → ∀ j < shifts.length,
        let out := tdos (init.run is) ((ones.map fun t => (true, t)) ++
          [(false, w), (true, x), (false, y), (false, z)] ++ shifts)
        (j < 32 → out[ones.length + 4 + j]? = some (cbit (Nat.testBit 0x029070DD j))) ∧
        (32 ≤ j → out[ones.length + 4 + j]? = shifts[j - 32]?.map fun p => cbit p.2) := by
  refine ⟨fun is i hs hi => ?_, fun is ones w x y z shifts hlen hlast j hj => ?_⟩
  · have hout := (scanInv_run is).tdo_shiftDr_idcode hs hi i
    rw [getElem?_idcodeStream] at hout
    constructor
    · intro hk
      rw [if_pos hk] at hout
      exact (Option.some.inj hout).symm
    · intro hk
      rwa [if_neg (by omega)] at hout
  · obtain ⟨hs, hi, hdr⟩ := run_toShiftDr _ (curState_of_ones ones (init.run is) hlen) w x y z
    have hout : (tdos (init.run is) ((ones.map fun t => (true, t)) ++
        [(false, w), (true, x), (false, y), (false, z)] ++ shifts))[ones.length + 4 + j]? =
          ((idcodeBits ++ shifts.map Prod.snd).map cbit)[j]? := by
      rw [tdos_append, List.getElem?_append_right (by rw [length_tdos]; simp), length_tdos,
        run_append, tdos_shiftDr shifts _ hs hi hlast, hdr]
      have hidx : ones.length + 4 + j - ((ones.map fun t => (true, t)) ++
          [(false, w), (true, x), (false, y), (false, z)]).length = j := by
        simp
      rw [hidx, List.getElem?_take_of_lt hj, List.map_append, List.map_map]
      rfl
    rw [List.getElem?_map, getElem?_idcodeStream] at hout
    constructor
    · intro hk
      rw [hout, if_pos hk]
      rfl
    · intro hk
      rw [hout, if_neg (by omega), List.getElem?_map, Option.map_map]
      rfl

/-- The scan of the test program: six clocks of reset, and `32` shift clocks for
the code. -/
theorem idcode_scan_test_mpsse :
    (tdos init ((List.replicate 6 (true, true)) ++
      [(false, true), (true, true), (false, true), (false, true)] ++
      List.replicate 33 (false, true)))[10]? = some (cbit (Nat.testBit 0x029070DD 0)) ∧
    (tdos init ((List.replicate 6 (true, true)) ++
      [(false, true), (true, true), (false, true), (false, true)] ++
      List.replicate 33 (false, true)))[42]? = some 1 ∧
    ((init.run (toShiftIr.take 2 ++ [(false, true), (false, true)])).clock (false, false)).2.tdo =
      cbit (Nat.testBit 0x029070DD 0) :=
  ⟨(idcode_scan.2 [] (List.replicate 6 true) true true true true (List.replicate 33 (false, true))
      (by decide) (by decide) 0 (by decide)).1 (by decide),
    (idcode_scan.2 [] (List.replicate 6 true) true true true true (List.replicate 33 (false, true))
      (by decide) (by decide) 32 (by decide)).2 (by decide),
    (idcode_scan.1 (toShiftIr.take 2 ++ [(false, true), (false, true)]) (false, false)
      (by decide) (by decide)).1 (by decide)⟩

/-! ### The bypass scan -/

/-- The code that the last `UPDATE_IR` of a history decodes. -/
def updateCode (h : List Clock) : CInt :=
  BitVec.ofNat 32 (ShiftReg.bitsToNat ((irStream (throughLast .updateIr h)).rtake 10))

/-- Only one code is known to stand for `BYPASS`. -/
theorem eq_of_knownInstr_bypass {val : CInt} (h : knownInstr val = some .bypass) :
    val = 0b1111111111 := by
  revert h
  fun_cases knownInstr val <;> intro h <;> first | assumption | cases h

/-- `BYPASS` is what its own code stands for, and every code that is not known. -/
theorem instrFromBits_eq_bypass_iff (val : CInt) :
    instrFromBits val = .bypass ↔ val = 0b1111111111 ∨ knownInstr val = none := by
  constructor
  · intro h
    rcases hk : knownInstr val with _ | instr
    · exact Or.inr rfl
    · rw [instrFromBits, hk, Option.getD_some] at h
      exact Or.inl (eq_of_knownInstr_bypass (hk.trans (congrArg some h)))
  · rintro (rfl | hk)
    · rfl
    · rw [instrFromBits, hk]
      rfl

/-- **When `BYPASS` is in force**: there has been an update since the last reset, and the
last one has decoded the code of `BYPASS` or one that is not known. -/
theorem selected_eq_bypass_iff (h : List Clock) :
    selected h = .bypass ↔ (sinceLast .testLogicReset h).any (executedIn .updateIr) ∧
      (updateCode h = 0b1111111111 ∨ knownInstr (updateCode h) = none) := by
  rw [selected]
  split_ifs with hany
  · rw [← updateCode, instrFromBits_eq_bypass_iff, and_iff_right hany]
  · exact iff_of_false (by decide) fun hc => hany hc.1

/-- **The bypass scan.** `BYPASS` is in force just if the last update since the last reset has
decoded its code or one that is not known. On every clock of `SHIFT_DR` with `BYPASS` in
force, TDO is what a bypass register answers that captures `0` – the element due of the
stream that starts with `0` and goes on with what is fed – just if the clock is not the
first one since the capture. -/
theorem bypass_scan (is : List (Bool × Bool)) :
    ((init.run is).curInstr = .bypass ↔
      (sinceLast .testLogicReset (Mealy.trace JtagTapController.clock init is)).any
          (executedIn .updateIr) ∧
        (updateCode (Mealy.trace JtagTapController.clock init is) = 0b1111111111 ∨
          knownInstr (updateCode (Mealy.trace JtagTapController.clock init is)) = none)) ∧
    ∀ i : Bool × Bool, (init.run is).curState = .shiftDr → (init.run is).curInstr = .bypass →
      (([false] ++ drFed (Mealy.trace JtagTapController.clock init is))[
          (drFed (Mealy.trace JtagTapController.clock init is)).length]?.map cbit =
        some ((init.run is).clock i).2.tdo ↔
      0 < (drFed (Mealy.trace JtagTapController.clock init is)).length) := by
  refine ⟨?_, fun i hs hi => ?_⟩
  · rw [(scanInv_run is).instr, selected_eq_bypass_iff]
  · have hout := (scanInv_run is).tdo_shiftDr_bypass hs hi i
    rw [← hout]
    rcases drFed (Mealy.trace JtagTapController.clock init is) with _ | ⟨b, fed⟩
    · -- the captured bit, `1` instead of `0`
      exact iff_of_false (by decide) (by decide)
    · exact iff_of_true rfl (Nat.succ_pos _)

/-- The clocks of an IR scan that selects `BYPASS`, and the way from there to
`SHIFT_DR`. -/
def toBypass : List (Bool × Bool) :=
  toShiftIr ++ List.replicate 9 (false, true) ++
    [(true, true), (true, false), (true, false), (false, false), (false, false)]

theorem bypass_scan_toBypass :
    (init.run toBypass).curInstr = .bypass ∧
      (([false] ++ drFed (Mealy.trace JtagTapController.clock init (toBypass ++ [(false, true)])))[
          (drFed (Mealy.trace JtagTapController.clock init
            (toBypass ++ [(false, true)]))).length]?.map cbit =
        some ((init.run (toBypass ++ [(false, true)])).clock (false, false)).2.tdo) :=
  ⟨(bypass_scan toBypass).1.mpr (by decide),
    ((bypass_scan (toBypass ++ [(false, true)])).2 (false, false) (by decide) (by decide)).mpr
      (by decide)⟩

/-- The first clock of a bypass scan answers `1`. -/
theorem bypass_scan_false_of_toBypass :
    (init.run toBypass).curState = .shiftDr ∧ (init.run toBypass).curInstr = .bypass ∧
      drFed (Mealy.trace JtagTapController.clock init toBypass) = [] ∧
      ((init.run toBypass).clock (false, false)).2.tdo = 1 ∧
      ¬ ([false][0]?.map cbit = some ((init.run toBypass).clock (false, false)).2.tdo) := by
  decide

end TapScan

end JtagHw
