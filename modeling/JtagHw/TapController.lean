import JtagHw.ShiftReg

/-!
# The TAP controller

`inc/jtag_tap_controller.hpp`: the sixteen states of IEEE 1149.1, the
instructions the device decodes, the three registers a scan shifts through, and
`JtagHw.JtagTapController.step`, which advances all of it by one clock of TCK.

The source's `step` is a `switch` on the state the clock is executed in, and
only then, whatever the branch, the move to the next state. The model keeps the
two apart: `JtagHw.JtagTapController.exec` is the `switch`, which never reads
TMS, and `JtagHw.JtagTapController.step` adds the move, which never reads TDI.
That TMS only steers and TDI only feeds the registers is half of what the files
on scans and on reset have to say.

`tms` selects one of the two entries of a row of `jtag_tap_next_state`, so it is
a `Bool` here; `tdi` and the answer are `int`s, as the cells of the registers
are. What the source writes to its debugging socket is kept as a log.
-/

namespace JtagHw

/-- `enum class TapState`. -/
inductive TapState
  | testLogicReset
  | runTestIdle
  | selectDrScan
  | selectIrScan
  | captureDr
  | shiftDr
  | exit1Dr
  | pauseDr
  | exit2Dr
  | updateDr
  | captureIr
  | shiftIr
  | exit1Ir
  | pauseIr
  | exit2Ir
  | updateIr
  deriving DecidableEq, Repr

/-- `enum class TapInstr`. -/
inductive TapInstr
  | samplePreload
  | extest
  | bypass
  | userCode
  | idcode
  | highz
  | clamp
  | pulseNconfig
  | configIo
  | lock
  | unlock
  | keyClrVreg
  | keyVerify
  | extestPulse
  | extestTrain
  | unknown1
  | unknown2
  deriving DecidableEq, Repr

/-- `jtag_tap_next_state`: the successor of a state under TMS. -/
def jtagTapNextState : TapState → Bool → TapState
  | .testLogicReset, tms => if tms then .testLogicReset else .runTestIdle
  | .runTestIdle, tms => if tms then .selectDrScan else .runTestIdle
  | .selectDrScan, tms => if tms then .selectIrScan else .captureDr
  | .captureDr, tms => if tms then .exit1Dr else .shiftDr
  | .shiftDr, tms => if tms then .exit1Dr else .shiftDr
  | .exit1Dr, tms => if tms then .updateDr else .pauseDr
  | .pauseDr, tms => if tms then .exit2Dr else .pauseDr
  | .exit2Dr, tms => if tms then .updateDr else .shiftDr
  | .updateDr, tms => if tms then .selectDrScan else .runTestIdle
  | .selectIrScan, tms => if tms then .testLogicReset else .captureIr
  | .captureIr, tms => if tms then .exit1Ir else .shiftIr
  | .shiftIr, tms => if tms then .exit1Ir else .shiftIr
  | .exit1Ir, tms => if tms then .updateIr else .pauseIr
  | .pauseIr, tms => if tms then .exit2Ir else .pauseIr
  | .exit2Ir, tms => if tms then .updateIr else .shiftIr
  | .updateIr, tms => if tms then .selectDrScan else .runTestIdle

/-- The codes `instr_from_bits` knows. -/
def knownInstr (val : CInt) : Option TapInstr :=
  if val = 0b0000000101 then some .samplePreload
  else if val = 0b0000001111 then some .extest
  else if val = 0b1111111111 then some .bypass
  else if val = 0b0000000111 then some .userCode
  else if val = 0b0000000110 then some .idcode
  else if val = 0b0000001011 then some .highz
  else if val = 0b0000001010 then some .clamp
  else if val = 0b0000000001 then some .pulseNconfig
  else if val = 0b0000001101 then some .configIo
  else if val = 0b0111110000 then some .lock
  else if val = 0b1100110001 then some .unlock
  else if val = 0b0000101001 then some .keyClrVreg
  else if val = 0b0000010011 then some .keyVerify
  else if val = 0b0010001111 then some .extestPulse
  else if val = 0b0001001111 then some .extestTrain
  else if val = 0b0000000010 then some .unknown1
  else if val = 0b0000000100 then some .unknown2
  else none

/-- `TapInstr instr_from_bits(int val)`: any other code is taken for
`BYPASS`. -/
def instrFromBits (val : CInt) : TapInstr := (knownInstr val).getD .bypass

/-- What `step` writes to the debugging socket. -/
inductive DebugLine
  /-- `"[jtag] received %d bits\n"` -/
  | receivedBits (n : BitVec 32)
  /-- `"[jtag] TapInstr::UNKNOWN2\n"` -/
  | unknown2
  /-- `"[jtag] UPDATE_IR = %x (%s)\n"` -/
  | updateIr (val : BitVec 64) (instr : TapInstr)
  /-- `"UNKNOWN INSTRUCTION (%x), "` -/
  | unknownInstruction (val : CInt)
  deriving DecidableEq

/-- What one clock shows to the outside: the bit on TDO, and the log. -/
@[ext]
structure StepOut where
  /-- `*tdo` -/
  tdo : CInt
  /-- The lines sent to the debugging socket. -/
  log : List DebugLine
  deriving DecidableEq

/-- `class JtagTapController`. -/
structure JtagTapController where
  curState : TapState
  curInstr : TapInstr
  ir : ShiftReg 10
  dr : ShiftReg 32
  bypassr : ShiftReg 1
  bitCntr : BitVec 32
  deriving DecidableEq

namespace JtagTapController

/-- The constructor; the registers are filled with zeros by their own. -/
def init : JtagTapController where
  curState := .testLogicReset
  curInstr := .idcode
  ir := .zero 10
  dr := .zero 32
  bypassr := .zero 1
  bitCntr := 0

/-- The log of a clock with `UNKNOWN1` in force: the new count, on every
millionth bit and on every bit from a full bitstream on. -/
def bitReport (n : BitVec 32) : List DebugLine :=
  if n % 1000000 = 0 ∨ 213798880 ≤ n then [.receivedBits n] else []

/-- The log of `UPDATE_IR`: the code, if `instr_from_bits` does not know it,
then the instruction. -/
def updateReport (val : BitVec 64) : List DebugLine :=
  (if knownInstr (val.setWidth 32) = none then [.unknownInstruction (val.setWidth 32)] else []) ++
    [.updateIr val (instrFromBits (val.setWidth 32))]

/-- The `switch (_cur_state)` of `step`. TDO is `1` outside the shift states. -/
def exec (c : JtagTapController) (tdi : CInt) : JtagTapController × StepOut :=
  match c.curState with
  | .testLogicReset => ({ c with curInstr := .idcode }, ⟨1, []⟩)
  | .captureDr =>
    match c.curInstr with
    | .idcode => ({ c with dr := c.dr.load 0x029070DD }, ⟨1, []⟩)
    | .bypass => ({ c with bypassr := c.bypassr.load 1 }, ⟨1, []⟩)
    | _ => (c, ⟨1, []⟩)
  | .shiftDr =>
    match c.curInstr with
    | .idcode => ({ c with dr := (c.dr.shift tdi).1 }, ⟨(c.dr.shift tdi).2, []⟩)
    | .bypass => ({ c with bypassr := (c.bypassr.shift tdi).1 }, ⟨(c.bypassr.shift tdi).2, []⟩)
    | .unknown1 => ({ c with bitCntr := c.bitCntr + 1 }, ⟨1, bitReport (c.bitCntr + 1)⟩)
    | .unknown2 => (c, ⟨1, [.unknown2]⟩)
    | _ => (c, ⟨1, []⟩)
  | .captureIr => ({ c with ir := c.ir.load 0b0101010101 }, ⟨1, []⟩)
  | .shiftIr => ({ c with ir := (c.ir.shift tdi).1 }, ⟨(c.ir.shift tdi).2, []⟩)
  | .updateIr =>
    ({ c with curInstr := instrFromBits (c.ir.val.setWidth 32) }, ⟨1, updateReport c.ir.val⟩)
  | _ => (c, ⟨1, []⟩)

/-- `void step(int tms, int tdi, int *tdo)`: advance by one clock cycle. -/
def step (c : JtagTapController) (tms : Bool) (tdi : CInt) : JtagTapController × StepOut :=
  ({ (c.exec tdi).1 with curState := jtagTapNextState c.curState tms }, (c.exec tdi).2)

/-- One clock on bits: the synchronous machine the rest of the development
runs. An input is the pair (TMS, TDI). -/
def clock (c : JtagTapController) (i : Bool × Bool) : JtagTapController × StepOut :=
  c.step i.1 (cbit i.2)

/-- The state after a run. -/
abbrev run (c : JtagTapController) (is : List (Bool × Bool)) : JtagTapController :=
  Mealy.final clock c is

/-- The TDO answers of a run. -/
def tdos (c : JtagTapController) (is : List (Bool × Bool)) : List CInt :=
  (Mealy.outputs clock c is).map StepOut.tdo

theorem run_append (c : JtagTapController) (is js : List (Bool × Bool)) :
    c.run (is ++ js) = (c.run is).run js :=
  Mealy.final_append clock c is js

theorem tdos_append (c : JtagTapController) (is js : List (Bool × Bool)) :
    c.tdos (is ++ js) = c.tdos is ++ (c.run is).tdos js := by
  rw [tdos, Mealy.outputs_append, List.map_append, tdos, tdos]

@[simp] theorem length_tdos (c : JtagTapController) (is : List (Bool × Bool)) :
    (c.tdos is).length = is.length := by
  rw [tdos, List.length_map, Mealy.length_outputs]

/-! ### What a clock does to each component -/

variable (c : JtagTapController) (i : Bool × Bool) (tdi : CInt)

@[simp] theorem clock_curState :
    (c.clock i).1.curState = jtagTapNextState c.curState i.1 := rfl

@[simp] theorem clock_curInstr :
    (c.clock i).1.curInstr = (c.exec (cbit i.2)).1.curInstr := rfl

@[simp] theorem clock_ir : (c.clock i).1.ir = (c.exec (cbit i.2)).1.ir := rfl

@[simp] theorem clock_dr : (c.clock i).1.dr = (c.exec (cbit i.2)).1.dr := rfl

@[simp] theorem clock_bypassr : (c.clock i).1.bypassr = (c.exec (cbit i.2)).1.bypassr := rfl

@[simp] theorem clock_bitCntr : (c.clock i).1.bitCntr = (c.exec (cbit i.2)).1.bitCntr := rfl

theorem clock_tdo : (c.clock i).2 = (c.exec (cbit i.2)).2 := rfl

/-- The instruction only changes on the clocks of `TEST_LOGIC_RESET` and
`UPDATE_IR`. -/
theorem exec_curInstr :
    (c.exec tdi).1.curInstr =
      if c.curState = .testLogicReset then .idcode
      else if c.curState = .updateIr then instrFromBits (c.ir.val.setWidth 32)
      else c.curInstr := by
  rcases c with ⟨s, instr, ir, dr, bp, n⟩
  cases s <;> first | rfl | (cases instr <;> rfl)

/-- The instruction register only changes on the clocks of `CAPTURE_IR` and
`SHIFT_IR`. -/
theorem exec_ir :
    (c.exec tdi).1.ir =
      if c.curState = .captureIr then c.ir.load 0b0101010101
      else if c.curState = .shiftIr then (c.ir.shift tdi).1
      else c.ir := by
  rcases c with ⟨s, instr, ir, dr, bp, n⟩
  cases s <;> first | rfl | (cases instr <;> rfl)

/-- The identification register only changes with `IDCODE` in force, on the
clocks of `CAPTURE_DR` and `SHIFT_DR`. -/
theorem exec_dr :
    (c.exec tdi).1.dr =
      if c.curInstr = .idcode then
        if c.curState = .captureDr then c.dr.load 0x029070DD
        else if c.curState = .shiftDr then (c.dr.shift tdi).1
        else c.dr
      else c.dr := by
  rcases c with ⟨s, instr, ir, dr, bp, n⟩
  cases s <;> cases instr <;> rfl

/-- The bypass register only changes with `BYPASS` in force, on the clocks of
`CAPTURE_DR` and `SHIFT_DR`. -/
theorem exec_bypassr :
    (c.exec tdi).1.bypassr =
      if c.curInstr = .bypass then
        if c.curState = .captureDr then c.bypassr.load 1
        else if c.curState = .shiftDr then (c.bypassr.shift tdi).1
        else c.bypassr
      else c.bypassr := by
  rcases c with ⟨s, instr, ir, dr, bp, n⟩
  cases s <;> cases instr <;> rfl

/-- The bit counter only changes with `UNKNOWN1` in force, on the clocks of
`SHIFT_DR`. -/
theorem exec_bitCntr :
    (c.exec tdi).1.bitCntr =
      if c.curInstr = .unknown1 ∧ c.curState = .shiftDr then c.bitCntr + 1 else c.bitCntr := by
  rcases c with ⟨s, instr, ir, dr, bp, n⟩
  cases s <;> cases instr <;> rfl

/-- What is written to the debugging socket. -/
theorem exec_log :
    (c.exec tdi).2.log =
      if c.curState = .updateIr then updateReport c.ir.val
      else if c.curState = .shiftDr then
        if c.curInstr = .unknown1 then bitReport (c.bitCntr + 1)
        else if c.curInstr = .unknown2 then [.unknown2]
        else []
      else [] := by
  rcases c with ⟨s, instr, ir, dr, bp, n⟩
  cases s <;> cases instr <;> rfl

/-- What is on TDO: the front cell of the register being shifted, and `1`
whenever nothing is. -/
theorem exec_tdo :
    (c.exec tdi).2.tdo =
      if c.curState = .shiftIr then c.ir.arr.headD 0
      else if c.curState = .shiftDr ∧ c.curInstr = .idcode then c.dr.arr.headD 0
      else if c.curState = .shiftDr ∧ c.curInstr = .bypass then c.bypassr.arr.headD 0
      else 1 := by
  rcases c with ⟨s, instr, ir, dr, bp, n⟩
  cases s <;> first | rfl | (cases instr <;> rfl)

/-! ### Cells and answers are bits -/

/-- Every cell of the three registers holds a bit. -/
structure BitCells : Prop where
  ir : ∀ x ∈ c.ir.arr, ∃ b, x = cbit b
  dr : ∀ x ∈ c.dr.arr, ∃ b, x = cbit b
  bypassr : ∀ x ∈ c.bypassr.arr, ∃ b, x = cbit b

theorem bitCells_init : BitCells init := by
  constructor <;> exact fun x hx => ⟨false, List.eq_of_mem_replicate hx⟩

theorem bits_load {N : ℕ} (r : ShiftReg N) (data : BitVec 64) :
    ∀ x ∈ (r.load data).arr, ∃ b, x = cbit b := by
  intro x hx
  rw [ShiftReg.load_arr] at hx
  obtain ⟨b, -, rfl⟩ := List.mem_map.mp hx
  exact ⟨b, rfl⟩

theorem bits_shift {N : ℕ} (hN : 0 < N) {r : ShiftReg N} (h : ∀ x ∈ r.arr, ∃ b, x = cbit b)
    (b : Bool) : ∀ x ∈ (r.shift (cbit b)).1.arr, ∃ b, x = cbit b := by
  intro x hx
  rw [ShiftReg.shift_arr hN, Fifo.push, List.mem_append, List.mem_singleton] at hx
  rcases hx with hx | rfl
  · exact h x (List.mem_of_mem_tail hx)
  · exact ⟨b, rfl⟩

variable {c}

theorem BitCells.clock (h : BitCells c) (i : Bool × Bool) : BitCells (c.clock i).1 := by
  constructor
  · rw [clock_ir, exec_ir]
    split_ifs
    · exact bits_load _ _
    · exact bits_shift (by norm_num) h.ir _
    · exact h.ir
  · rw [clock_dr, exec_dr]
    split_ifs
    · exact bits_load _ _
    · exact bits_shift (by norm_num) h.dr _
    · exact h.dr
    · exact h.dr
  · rw [clock_bypassr, exec_bypassr]
    split_ifs
    · exact bits_load _ _
    · exact bits_shift (by norm_num) h.bypassr _
    · exact h.bypassr
    · exact h.bypassr

theorem BitCells.run (h : BitCells c) (is : List (Bool × Bool)) : BitCells (c.run is) :=
  Mealy.final_invariant h (fun _ i hc => hc.clock i) is

/-- The front cell of a register of bits is a bit. -/
theorem headD_bit {l : List CInt} (h : ∀ x ∈ l, ∃ b, x = cbit b) : ∃ b, l.headD 0 = cbit b := by
  cases l with
  | nil => exact ⟨false, rfl⟩
  | cons a l => exact h a (List.mem_cons_self ..)

/-- **A clock answers a bit.** -/
theorem BitCells.tdo (h : BitCells c) (i : Bool × Bool) : ∃ b, (c.clock i).2.tdo = cbit b := by
  rw [clock_tdo, exec_tdo]
  split_ifs
  · exact headD_bit h.ir
  · exact headD_bit h.dr
  · exact headD_bit h.bypassr
  · exact ⟨true, rfl⟩

/-- The TDO answers of a run, as bits. -/
def tdoBits (c : JtagTapController) (is : List (Bool × Bool)) : List Bool :=
  (c.tdos is).map fun x => x.getLsbD 0

@[simp] theorem length_tdoBits (c : JtagTapController) (is : List (Bool × Bool)) :
    (c.tdoBits is).length = is.length := by
  rw [tdoBits, List.length_map, length_tdos]

theorem tdoBits_append (c : JtagTapController) (is js : List (Bool × Bool)) :
    c.tdoBits (is ++ js) = c.tdoBits is ++ (c.run is).tdoBits js := by
  rw [tdoBits, tdos_append, List.map_append, tdoBits, tdoBits]

theorem tdoBits_singleton (c : JtagTapController) (i : Bool × Bool) :
    c.tdoBits [i] = [(c.clock i).2.tdo.getLsbD 0] := rfl

theorem cbit_getLsbD (b : Bool) : (cbit b).getLsbD 0 = b := by
  cases b <;> rfl

/-- The answers are the bits, no more. -/
theorem BitCells.tdos_eq (h : BitCells c) (is : List (Bool × Bool)) :
    c.tdos is = (c.tdoBits is).map cbit := by
  induction is generalizing c with
  | nil => rfl
  | cons i is ih =>
    obtain ⟨b, hb⟩ := h.tdo i
    have htail : (c.clock i).1.tdos is = ((c.clock i).1.tdoBits is).map cbit := ih (h.clock i)
    have hhead : (c.clock i).2.tdo = cbit ((c.clock i).2.tdo.getLsbD 0) := by
      rw [hb, cbit_getLsbD]
    exact congrArg₂ List.cons hhead htail

end JtagTapController

end JtagHw
