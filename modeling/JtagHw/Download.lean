import JtagHw.TapScan

/-!
# The count of a download

With `UNKNOWN1` in force – “download config bits” – every clock of `SHIFT_DR` is a bit of
a bitstream, and `_bit_cntr` counts them. The constructor sets it to zero, and nothing does
so again: not the `UPDATE_IR` that begins a download, not a reset. So it counts the bits of
all the downloads there have been (`JtagHw.Download.bitCntr_run`), modulo `2 ^ 32`, and
the line that `step` writes for a bit prints it as a signed number.

What is in the history before the last selection of `UNKNOWN1`
(`JtagHw.Download.earlier`) is therefore in the count of the current download
(`JtagHw.Download.current`), and the count is exact just if that is nothing
(`JtagHw.Download.exact_iff`).
-/

namespace JtagHw

namespace Download

open JtagTapController TapScan

/-- The number of bits of a full bitstream, from which on `step` reports every bit. -/
def bitstream : ℕ := 213798880

/-- The clock receives a bit of a bitstream. -/
def receives (k : Clock) : Bool := k.1.curState = .shiftDr ∧ k.1.curInstr = .unknown1

/-- The clock is an `UPDATE_IR` that selects `UNKNOWN1`. -/
def selects (k : Clock) : Bool := k.1.curState = .updateIr ∧ (k.1.clock k.2).1.curInstr = .unknown1

/-- The number of bits received since `UNKNOWN1` was last selected. -/
def current (h : List Clock) : ℕ := (h.rtakeWhile fun k => !selects k).countP receives

/-- The number of bits received before that. -/
def earlier (h : List Clock) : ℕ := (h.rdropWhile fun k => !selects k).countP receives

theorem earlier_add_current (h : List Clock) : earlier h + current h = h.countP receives := by
  rw [earlier, current, ← List.countP_append, List.rdropWhile_append_rtakeWhile]

theorem current_concat (h : List Clock) (k : Clock) :
    current (h ++ [k]) = if selects k then 0 else current h + if receives k then 1 else 0 := by
  by_cases hk : selects k
  · rw [if_pos hk, current, List.rtakeWhile_concat_neg _ _ _ (by simp [hk])]
    rfl
  · rw [if_neg hk, current, List.rtakeWhile_concat_pos _ _ _ (by simpa using hk),
      List.countP_append, List.countP_singleton, current]

/-- A download begins anew with its selection, whatever there was before. -/
theorem current_append (h : List Clock) {h' : List Clock} (hsel : h'.any selects) :
    current (h ++ h') = current h' := by
  induction h' using List.reverseRecOn with
  | nil => exact absurd hsel (by decide)
  | append_singleton h' k ih =>
    rw [← List.append_assoc, current_concat, current_concat]
    by_cases hk : selects k
    · rw [if_pos hk, if_pos hk]
    · rw [if_neg hk, if_neg hk, ih (by simpa [hk] using hsel)]

/-- **The counter counts all the bits there have been.** -/
theorem bitCntr_run (is : List (Bool × Bool)) :
    (init.run is).bitCntr =
      BitVec.ofNat 32 ((Mealy.trace JtagTapController.clock init is).countP receives) := by
  refine Mealy.final_history (P := fun c h => c.bitCntr = BitVec.ofNat 32 (h.countP receives))
    rfl (fun c h i hc => ?_) is
  rw [clock_bitCntr, exec_bitCntr, List.countP_append, List.countP_singleton, hc]
  by_cases hk : c.curInstr = .unknown1 ∧ c.curState = .shiftDr
  · have hr : receives (c, i) = true := decide_eq_true hk.symm
    rw [if_pos hk, if_pos hr, BitVec.ofNat_add]
    rfl
  · have hr : ¬ receives (c, i) = true := fun hr => hk (of_decide_eq_true hr).symm
    rw [if_neg hk, if_neg hr, Nat.add_zero]

/-- **The count is exact** at the end of a history: printed with `%d`, it is the number of bits
of the current download; and it has reached a full bitstream only if that has. -/
structure Exact (n : BitVec 32) (h : List Clock) : Prop where
  printed : n.toInt = current h
  complete : bitstream ≤ n.toNat → bitstream ≤ current h

/-- Of a count that wraps. -/
theorem exact_iff (h : List Clock) :
    Exact (BitVec.ofNat 32 (h.countP receives)) h ↔
      earlier h % 2 ^ 32 = 0 ∧ current h < 2 ^ 31 := by
  have hsum := earlier_add_current h
  have hnat : (BitVec.ofNat 32 (h.countP receives)).toNat = (earlier h + current h) % 2 ^ 32 := by
    rw [BitVec.toNat_ofNat, hsum]
  have hint := BitVec.toInt_eq_toNat_cond (BitVec.ofNat 32 (h.countP receives))
  rw [hnat] at hint
  constructor
  · rintro ⟨hprinted, -⟩
    rw [hint] at hprinted
    split_ifs at hprinted <;> omega
  · rintro ⟨hearlier, hcurrent⟩
    refine ⟨?_, ?_⟩
    · rw [hint]
      split_ifs <;> omega
    · rw [hnat]
      omega

/-- A clock that receives a bit writes what there is to report of the new count. -/
theorem clock_log {c : JtagTapController} (hs : c.curState = .shiftDr)
    (hi : c.curInstr = .unknown1) (i : Bool × Bool) :
    (c.clock i).2.log = bitReport (c.clock i).1.bitCntr := by
  rcases c with ⟨s, instr, ir, dr, bp, n⟩
  obtain rfl : s = .shiftDr := hs
  obtain rfl : instr = .unknown1 := hi
  rfl

/-- **The count of a download.** On every clock of `SHIFT_DR` with `UNKNOWN1` in force, the
count that is reported is exact just if the number of bits received before `UNKNOWN1` was
last selected is a multiple of `2 ^ 32` – none, that is – and fewer than `2 ^ 31` have been
received since. -/
theorem count_exact_iff (is : List (Bool × Bool)) (i : Bool × Bool)
    (hs : (init.run is).curState = .shiftDr) (hi : (init.run is).curInstr = .unknown1) :
    ((init.run is).clock i).2.log = bitReport (init.run (is ++ [i])).bitCntr ∧
      (Exact (init.run (is ++ [i])).bitCntr (Mealy.trace JtagTapController.clock init (is ++ [i])) ↔
        earlier (Mealy.trace JtagTapController.clock init (is ++ [i])) % 2 ^ 32 = 0 ∧
          current (Mealy.trace JtagTapController.clock init (is ++ [i])) < 2 ^ 31) := by
  constructor
  · rw [clock_log hs hi, run_append]
    rfl
  · rw [bitCntr_run, exact_iff]

theorem count_exact_iff_first :
    Exact (init.run (toDownload ++ [(false, true)])).bitCntr
      (Mealy.trace JtagTapController.clock init (toDownload ++ [(false, true)])) :=
  (count_exact_iff toDownload (false, true) (by decide) (by decide)).2.mpr (by decide)

/-! ### The second download -/

/-- The shift clocks of a download do nothing but count. -/
theorem run_shiftDr (n : ℕ) {c : JtagTapController} (hs : c.curState = .shiftDr)
    (hi : c.curInstr = .unknown1) :
    c.run (List.replicate n (false, false)) =
      { c with bitCntr := c.bitCntr + BitVec.ofNat 32 n } := by
  induction n generalizing c with
  | zero => simp
  | succ n ih =>
    have hclock : (c.clock (false, false)).1 = { c with bitCntr := c.bitCntr + 1 } := by
      rcases c with ⟨s, instr, ir, dr, bp, m⟩
      obtain rfl : s = .shiftDr := hs
      obtain rfl : instr = .unknown1 := hi
      rfl
    have hcount : c.bitCntr + 1 + BitVec.ofNat 32 n = c.bitCntr + BitVec.ofNat 32 (n + 1) := by
      rw [BitVec.add_assoc, Nat.add_comm, BitVec.ofNat_add]
      rfl
    rw [List.replicate_succ, JtagTapController.run, Mealy.final_cons, hclock, ← hcount]
    exact ih hs hi

/-- The clocks that leave a download, select `UNKNOWN1` once more, and enter `SHIFT_DR`. -/
def again : List (Bool × Bool) :=
  [(true, false), (true, false), (true, false), (true, false), (false, false), (false, false),
    (false, false), (false, true), (false, false), (false, false), (false, false), (false, false),
    (false, false), (false, false), (false, false), (true, false), (true, false), (true, false),
    (false, false), (false, false)]

/-- A full bitstream, and then a second download. -/
def twoDownloads : List (Bool × Bool) :=
  toDownload ++ List.replicate bitstream (false, false) ++ again

/-- The controller after the bits of a full bitstream. -/
def downloaded : JtagTapController := { init.run toDownload with bitCntr := 213798880 }

theorem run_bitstream :
    init.run (toDownload ++ List.replicate bitstream (false, false)) = downloaded := by
  have hcount : (init.run toDownload).bitCntr = 0 := by decide
  rw [run_append, run_shiftDr bitstream (by decide) (by decide), hcount]
  rfl

/-- The first bit of the second download is reported as one past a full bitstream. -/
theorem count_exact_false_of_twoDownloads :
    (init.run twoDownloads).curState = .shiftDr ∧ (init.run twoDownloads).curInstr = .unknown1 ∧
      ((init.run twoDownloads).clock (false, false)).2.log = [.receivedBits 213798882] ∧
      current (Mealy.trace JtagTapController.clock init (twoDownloads ++ [(false, false)])) = 1 ∧
      ¬ Exact (init.run (twoDownloads ++ [(false, false)])).bitCntr
        (Mealy.trace JtagTapController.clock init (twoDownloads ++ [(false, false)])) := by
  have hrun : init.run twoDownloads = downloaded.run again := by
    rw [twoDownloads, run_append, run_bitstream]
  have hrun' : init.run (twoDownloads ++ [(false, false)]) =
      downloaded.run (again ++ [(false, false)]) := by
    rw [run_append, hrun, ← run_append]
  have hcurrent : current
      (Mealy.trace JtagTapController.clock init (twoDownloads ++ [(false, false)])) = 1 := by
    have hfinal : Mealy.final JtagTapController.clock init
        (toDownload ++ List.replicate bitstream (false, false)) = downloaded := run_bitstream
    rw [twoDownloads, List.append_assoc, Mealy.trace_append, hfinal,
      current_append _ (by decide)]
    decide
  refine ⟨by rw [hrun]; decide, by rw [hrun]; decide, by rw [hrun]; decide, hcurrent, fun h => ?_⟩
  have hprinted := h.printed
  rw [hrun', hcurrent] at hprinted
  exact absurd hprinted (by decide)

end Download

end JtagHw
