import JtagHw.Download

/-!
# Reset erases history

Five clocks with TMS high bring every controller to `TEST_LOGIC_RESET`, but they
do not clear its registers: two controllers with different pasts leave the reset
with different contents in all three of them, and for one more clock even with
different instructions. This file shows that none of it can be seen on TDO.

The relation between the two runs is `JtagHw.TapReset.Alike`: the same state; the
same instruction, except in `TEST_LOGIC_RESET`, where the next clock sets it;
and the same register *while a scan of it is under way*, under the instruction
that scans it. A register outside its scan is free to differ, since the way into
a scan is a capture, which overwrites all of it. One clock keeps the relation
whenever TMS agrees and TDI agrees in the two shift states
(`JtagHw.TapReset.Alike.clock`), and related controllers answer the same TDO.

What is written to the debugging socket is a different matter. `_bit_cntr` survives the
reset, and the line for a bit of a bitstream shows it: two controllers that have received
different numbers of bits before the reset are told apart by the first bit after it that
one of them reports (`JtagHw.TapReset.reset_erases_history_iff`).
-/

namespace JtagHw

namespace TapReset

open JtagTapController TapScan Download

/-- **Two controllers no host can tell apart.** -/
structure Alike (c d : JtagTapController) : Prop where
  state : c.curState = d.curState
  instr : c.curState ≠ .testLogicReset → c.curInstr = d.curInstr
  ir : inIrScan c.curState → c.ir = d.ir
  dr : inDrScan c.curState → c.curInstr = .idcode → c.dr = d.dr
  bypassr : inDrScan c.curState → c.curInstr = .bypass → c.bypassr = d.bypassr

/-- Inputs that a controller in the state of `c` cannot tell apart: the same TMS,
and the same TDI where TDI is read. -/
def SameInput (c : JtagTapController) (i j : Bool × Bool) : Prop :=
  i.1 = j.1 ∧ (c.curState = .shiftIr ∨ c.curState = .shiftDr → i.2 = j.2)

variable {c d : JtagTapController} {i j : Bool × Bool}

/-- In `TEST_LOGIC_RESET` the state is all that matters. -/
theorem alike_of_reset (hc : c.curState = .testLogicReset) (hd : d.curState = .testLogicReset) :
    Alike c d := by
  constructor
  · rw [hc, hd]
  all_goals
    rw [hc]
    intro hs
    exact absurd hs (by decide)

/-- Loading overwrites the whole register. -/
theorem load_eq {N : ℕ} (r s : ShiftReg N) (data : BitVec 64) : r.load data = s.load data := rfl

namespace Alike

/-- **After one more clock the instructions agree**, reset or not. -/
theorem clock_curInstr_eq (h : Alike c d) :
    (c.clock i).1.curInstr = (d.clock j).1.curInstr := by
  rw [clock_curInstr, clock_curInstr, exec_curInstr, exec_curInstr, ← h.state]
  by_cases ht : c.curState = .testLogicReset
  · rw [if_pos ht, if_pos ht]
  · rw [if_neg ht, if_neg ht, h.instr ht]
    by_cases hu : c.curState = .updateIr
    · rw [if_pos hu, if_pos hu, h.ir (by rw [hu]; rfl)]
    · rw [if_neg hu, if_neg hu]

/-- The instruction register of related controllers over one clock. -/
theorem clock_ir_eq (h : Alike c d) (hin : SameInput c i j)
    (hs : inIrScan (jtagTapNextState c.curState i.1)) : (c.clock i).1.ir = (d.clock j).1.ir := by
  rw [clock_ir, clock_ir, exec_ir, exec_ir, ← h.state]
  rcases inIrScan_next hs with hcap | ⟨hncap, hscan⟩
  · rw [if_pos hcap, if_pos hcap, load_eq c.ir d.ir]
  · rw [if_neg hncap, if_neg hncap, h.ir hscan]
    refine if_ctx_congr Iff.rfl (fun hshift => ?_) fun _ => rfl
    rw [hin.2 (Or.inl hshift)]

/-- On the way to a DR scan related controllers have the same instruction, and
keep it. -/
theorem curInstr_of_inDrScan_next (h : Alike c d) {tms : Bool}
    (hs : inDrScan (jtagTapNextState c.curState tms)) :
    (c.exec (cbit i.2)).1.curInstr = c.curInstr ∧ c.curInstr = d.curInstr := by
  obtain ⟨ht, hu⟩ := curInstr_kept_of_inDrScan_next hs
  exact ⟨by rw [exec_curInstr, if_neg ht, if_neg hu], h.instr ht⟩

/-- The identification register of related controllers over one clock. -/
theorem clock_dr_eq (h : Alike c d) (hin : SameInput c i j)
    (hs : inDrScan (jtagTapNextState c.curState i.1)) (hi : c.curInstr = .idcode) :
    (c.clock i).1.dr = (d.clock j).1.dr := by
  have hd := (h.curInstr_of_inDrScan_next (i := i) hs).2.symm.trans hi
  rw [clock_dr, clock_dr, exec_dr, exec_dr, if_pos hi, if_pos hd, ← h.state]
  rcases inDrScan_next hs with hcap | ⟨hncap, hscan⟩
  · rw [if_pos hcap, if_pos hcap, load_eq c.dr d.dr]
  · rw [if_neg hncap, if_neg hncap, h.dr hscan hi]
    refine if_ctx_congr Iff.rfl (fun hshift => ?_) fun _ => rfl
    rw [hin.2 (Or.inr hshift)]

/-- The bypass register of related controllers over one clock. -/
theorem clock_bypassr_eq (h : Alike c d) (hin : SameInput c i j)
    (hs : inDrScan (jtagTapNextState c.curState i.1)) (hi : c.curInstr = .bypass) :
    (c.clock i).1.bypassr = (d.clock j).1.bypassr := by
  have hd := (h.curInstr_of_inDrScan_next (i := i) hs).2.symm.trans hi
  rw [clock_bypassr, clock_bypassr, exec_bypassr, exec_bypassr, if_pos hi, if_pos hd, ← h.state]
  rcases inDrScan_next hs with hcap | ⟨hncap, hscan⟩
  · rw [if_pos hcap, if_pos hcap, load_eq c.bypassr d.bypassr]
  · rw [if_neg hncap, if_neg hncap, h.bypassr hscan hi]
    refine if_ctx_congr Iff.rfl (fun hshift => ?_) fun _ => rfl
    rw [hin.2 (Or.inr hshift)]

/-- **Related controllers answer the same TDO.** -/
theorem tdo_eq (h : Alike c d) : (c.clock i).2.tdo = (d.clock j).2.tdo := by
  rw [clock_tdo, clock_tdo, exec_tdo, exec_tdo, ← h.state]
  by_cases hir : c.curState = .shiftIr
  · rw [if_pos hir, if_pos hir, h.ir (by rw [hir]; rfl)]
  rw [if_neg hir, if_neg hir]
  by_cases hdr : c.curState = .shiftDr
  · have hscan : inDrScan c.curState := by rw [hdr]; rfl
    rw [← h.instr (by rw [hdr]; decide)]
    refine if_ctx_congr Iff.rfl (fun hid => ?_) fun _ =>
      if_ctx_congr Iff.rfl (fun hby => ?_) fun _ => rfl
    · rw [h.dr hscan hid.2]
    · rw [h.bypassr hscan hby.2]
  · simp [hdr]

/-- **One clock keeps the relation.** -/
theorem clock (h : Alike c d) (hin : SameInput c i j) : Alike (c.clock i).1 (d.clock j).1 := by
  constructor
  · rw [clock_curState, clock_curState, h.state, hin.1]
  · exact fun _ => h.clock_curInstr_eq
  · exact fun hs => h.clock_ir_eq hin hs
  · exact fun hs hi => h.clock_dr_eq hin hs ((h.curInstr_of_inDrScan_next hs).1.symm.trans hi)
  · exact fun hs hi => h.clock_bypassr_eq hin hs ((h.curInstr_of_inDrScan_next hs).1.symm.trans hi)

/-- **A whole run keeps the relation**, and answers the same TDO throughout. -/
theorem run (h : Alike c d) {is js : List (Bool × Bool)}
    (hin : Mealy.Coupled JtagTapController.clock SameInput c is js) :
    Alike (c.run is) (d.run js) ∧ tdos c is = tdos d js :=
  Mealy.bisim_run (fun _ _ _ _ hR hI => ⟨hR.clock hI, hR.tdo_eq⟩) is js c d h hin

end Alike

/-- Coupling, position by position: the two streams have the same TMS, and the
same TDI at the clocks the first controller executes in a shift state. -/
theorem coupled_of_forall : ∀ (is js : List (Bool × Bool)) (c : JtagTapController),
    is.map Prod.fst = js.map Prod.fst →
    (∀ k, (c.run (is.take k)).curState = .shiftIr ∨ (c.run (is.take k)).curState = .shiftDr →
      is[k]?.map Prod.snd = js[k]?.map Prod.snd) →
    Mealy.Coupled JtagTapController.clock SameInput c is js
  | [], [], _, _, _ => trivial
  | i :: is, j :: js, c, htms, htdi => by
    simp only [List.map_cons, List.cons.injEq] at htms
    refine ⟨⟨htms.1, fun hs => ?_⟩, coupled_of_forall is js _ htms.2 fun k hk => ?_⟩
    · simpa using htdi 0 hs
    · simpa using htdi (k + 1) hk
  | [], _ :: _, _, htms, _ => by simp at htms
  | _ :: _, [], _, htms, _ => by simp at htms

/-- The first five clocks of a stream that begins with five times TMS high. -/
theorem take_five {is : List (Bool × Bool)} (h : (is.map Prod.fst).take 5 = List.replicate 5 true) :
    ∃ ones : List Bool, ones.length = 5 ∧ is.take 5 = ones.map fun t => (true, t) := by
  refine ⟨(is.take 5).map Prod.snd, ?_, ?_⟩
  · have hlen := congrArg List.length h
    simpa using hlen
  · rw [List.map_map]
    refine List.ext_getElem (by simp) fun k h1 h2 => ?_
    have hk : k < 5 := by
      rw [List.length_take] at h1
      omega
    have hfst : ((is.map Prod.fst).take 5)[k]? = some true := by
      rw [h, List.getElem?_replicate_of_lt hk]
    have hk' : k < is.length := by
      rw [List.length_take] at h1
      omega
    have hone : is[k].1 = true := by
      simpa [List.getElem?_take_of_lt hk, List.getElem?_eq_getElem hk'] using hfst
    simp [Prod.ext_iff, hone]

/-- After five clocks with TMS high the two runs are in related states, and the
rest of the two streams is coupled. -/
theorem alike_after_reset {c d : JtagTapController} {is js : List (Bool × Bool)}
    (htms : is.map Prod.fst = js.map Prod.fst)
    (hones : (is.map Prod.fst).take 5 = List.replicate 5 true)
    (htdi : ∀ k, 5 ≤ k → (c.run (is.take k)).curState = .shiftIr ∨
        (c.run (is.take k)).curState = .shiftDr → is[k]?.map Prod.snd = js[k]?.map Prod.snd) :
    Alike (c.run (is.take 5)) (d.run (js.take 5)) ∧
      Mealy.Coupled JtagTapController.clock SameInput
        (c.run (is.take 5)) (is.drop 5) (js.drop 5) := by
  obtain ⟨ones, hlen, hones₁⟩ := take_five hones
  obtain ⟨ones', hlen', hones₂⟩ := take_five (htms ▸ hones)
  constructor
  · rw [hones₁, hones₂]
    exact alike_of_reset (curState_of_ones ones c hlen.ge) (curState_of_ones ones' d hlen'.ge)
  · refine coupled_of_forall _ _ _ (by rw [List.map_drop, List.map_drop, htms]) fun k hk => ?_
    rw [← run_append, ← List.take_add] at hk
    simpa using htdi (5 + k) (by omega) hk

/-- TDO past the reset is TDO of the run that starts after it. -/
theorem getElem?_tdos_drop (c : JtagTapController) {is : List (Bool × Bool)} (h : 5 ≤ is.length)
    (m : ℕ) : (tdos c is)[5 + m]? = (tdos (c.run (is.take 5)) (is.drop 5))[m]? := by
  have hlen : (tdos c (is.take 5)).length = 5 := by
    simp [h]
  conv_lhs => rw [← List.take_append_drop 5 is, tdos_append]
  rw [List.getElem?_append_right (by omega), hlen, Nat.add_sub_cancel_left]

/-- **What TDO shows of the history: nothing.** Take two controllers and two input
streams with the same TMS, high on the first five clocks, whose TDI agrees, from
there on, at the clocks executed in `SHIFT_IR` and `SHIFT_DR`. Then on every
clock after the fifth the TDO answers are equal and so are the states, and from
one clock later the instructions are. -/
theorem tdo_erased (htms : is.map Prod.fst = js.map Prod.fst)
    (hones : (is.map Prod.fst).take 5 = List.replicate 5 true)
    (htdi : ∀ k, 5 ≤ k → (c.run (is.take k)).curState = .shiftIr ∨
        (c.run (is.take k)).curState = .shiftDr → is[k]?.map Prod.snd = js[k]?.map Prod.snd) :
    ∀ k, 5 ≤ k → k ≤ is.length →
      (tdos c is)[k]? = (tdos d js)[k]? ∧
      (c.run (is.take k)).curState = (d.run (js.take k)).curState ∧
      (6 ≤ k → (c.run (is.take k)).curInstr = (d.run (js.take k)).curInstr) := by
  intro k hk hlen
  obtain ⟨m, rfl⟩ := Nat.exists_eq_add_of_le hk
  obtain ⟨halike, hcoupled⟩ := alike_after_reset (d := d) htms hones htdi
  have hlenjs : is.length = js.length := by simpa using congrArg List.length htms
  refine ⟨?_, ?_, fun h6 => ?_⟩
  · rw [getElem?_tdos_drop _ (by omega), getElem?_tdos_drop _ (by omega),
      (halike.run hcoupled).2]
  · rw [List.take_add, List.take_add, run_append, run_append]
    exact (halike.run (hcoupled.take m)).1.state
  · -- the clock before this one has already set the two instructions alike
    obtain ⟨m, rfl⟩ := Nat.exists_eq_add_one.mpr (show 0 < m by omega)
    have hi : m < (is.drop 5).length := by
      rw [List.length_drop]
      omega
    have hj : m < (js.drop 5).length := by
      rw [List.length_drop]
      omega
    rw [List.take_add (l := is), List.take_add (l := js), run_append, run_append,
      ← List.take_append_getElem hi, ← List.take_append_getElem hj, run_append, run_append]
    exact (halike.run (hcoupled.take m)).1.clock_curInstr_eq

/-! ### What the debugging socket shows -/

/-- A count is reported as itself, or not at all. -/
theorem bitReport_eq_iff (m n : BitVec 32) :
    bitReport m = bitReport n ↔ m = n ∨ bitReport m = [] ∧ bitReport n = [] := by
  constructor
  · intro h
    rw [bitReport, bitReport] at *
    split_ifs at h ⊢ with hm hn hn
    · exact Or.inl (by simpa using h)
    · exact Or.inr ⟨rfl, rfl⟩
  · rintro (rfl | ⟨hm, hn⟩)
    · rfl
    · rw [hm, hn]

/-- The counter is stepped by the bits of a bitstream. -/
theorem clock_bitCntr_eq (c : JtagTapController) (i : Bool × Bool) :
    (c.clock i).1.bitCntr = if receives (c, i) then c.bitCntr + 1 else c.bitCntr := by
  rw [clock_bitCntr, exec_bitCntr]
  exact if_congr (by rw [receives, decide_eq_true_iff, and_comm]) rfl rfl

/-- The clocks of related controllers receive the same bits. -/
theorem Alike.receives_iff (h : Alike c d) : receives (c, i) ↔ receives (d, j) := by
  simp only [receives, decide_eq_true_iff, ← h.state]
  refine and_congr_right fun hs => ?_
  rw [h.instr (by rw [hs]; decide)]

/-- **One clock of related controllers shows the same**, unless it reports the count: then that
has to be the same. -/
theorem Alike.shown_eq_iff (h : Alike c d) :
    (c.clock i).2 = (d.clock j).2 ↔
      (receives (c, i) → bitReport (c.bitCntr + 1) = bitReport (d.bitCntr + 1)) := by
  have htdo : (c.clock i).2.tdo = (d.clock j).2.tdo := h.tdo_eq
  have hlog : (c.clock i).2 = (d.clock j).2 ↔ (c.clock i).2.log = (d.clock j).2.log :=
    ⟨fun he => by rw [he], fun hl => StepOut.ext htdo hl⟩
  rw [hlog, clock_tdo, clock_tdo, exec_log, exec_log, ← h.state]
  by_cases hu : c.curState = .updateIr
  · have hr : ¬ receives (c, i) := by simp [receives, hu]
    rw [if_pos hu, if_pos hu, h.ir (by rw [hu]; rfl)]
    exact iff_of_true rfl fun hrec => absurd hrec hr
  rw [if_neg hu, if_neg hu]
  by_cases hs : c.curState = .shiftDr
  · rw [if_pos hs, if_pos hs, ← h.instr (by rw [hs]; decide)]
    by_cases hi : c.curInstr = .unknown1
    · have hr : receives (c, i) := decide_eq_true ⟨hs, hi⟩
      rw [if_pos hi, if_pos hi]
      exact ⟨fun he _ => he, fun he => he hr⟩
    · have hr : ¬ receives (c, i) := fun hrec => hi (of_decide_eq_true hrec).2
      rw [if_neg hi, if_neg hi]
      exact iff_of_true rfl fun hrec => absurd hrec hr
  · have hr : ¬ receives (c, i) := fun hrec => hs (of_decide_eq_true hrec).1
    rw [if_neg hs, if_neg hs]
    exact iff_of_true rfl fun hrec => absurd hrec hr

/-- The number of bits that are received in the clocks `is`. -/
def received (c : JtagTapController) (is : List (Bool × Bool)) : ℕ :=
  (Mealy.trace JtagTapController.clock c is).countP receives

/-- None of the next `r` counts is one that `step` reports. -/
def Unreported (n : BitVec 32) (r : ℕ) : Prop :=
  ∀ m < r, bitReport (n + BitVec.ofNat 32 (m + 1)) = []

theorem unreported_succ (n : BitVec 32) (r : ℕ) :
    Unreported n (r + 1) ↔ bitReport (n + 1) = [] ∧ Unreported (n + 1) r := by
  have hnext : ∀ m, n + BitVec.ofNat 32 (m + 1 + 1) = n + 1 + BitVec.ofNat 32 (m + 1) := by
    intro m
    rw [BitVec.add_assoc, Nat.add_comm (m + 1), BitVec.ofNat_add]
    rfl
  constructor
  · exact fun h => ⟨h 0 (Nat.succ_pos r), fun m hm => by rw [← hnext]; exact h _ (by omega)⟩
  · rintro ⟨h0, h⟩ (_ | m) hm
    · exact h0
    · rw [hnext]
      exact h m (by omega)

/-- **A run of related controllers shows the same** just if their counters agree, or no count is
reported in it. -/
theorem Alike.outputs_eq_iff : ∀ {is js : List (Bool × Bool)} {c d : JtagTapController},
    Alike c d → Mealy.Coupled JtagTapController.clock SameInput c is js →
      (Mealy.outputs JtagTapController.clock c is = Mealy.outputs JtagTapController.clock d js ↔
        c.bitCntr = d.bitCntr ∨
          Unreported c.bitCntr (received c is) ∧ Unreported d.bitCntr (received c is))
  | [], [], _, _, _, _ =>
    iff_of_true rfl (Or.inr ⟨fun m hm => absurd hm (Nat.not_lt_zero m),
      fun m hm => absurd hm (Nat.not_lt_zero m)⟩)
  | i :: is, j :: js, c, d, h, hc => by
    obtain ⟨hin, hrest⟩ := hc
    have ih := Alike.outputs_eq_iff (h.clock hin) hrest
    have hcount : received c (i :: is) =
        received (c.clock i).1 is + if receives (c, i) then 1 else 0 := List.countP_cons ..
    rw [Mealy.outputs_cons, Mealy.outputs_cons, List.cons.injEq, h.shown_eq_iff, ih, hcount,
      clock_bitCntr_eq, clock_bitCntr_eq]
    by_cases hr : receives (c, i)
    · rw [if_pos hr, if_pos (h.receives_iff.mp hr), if_pos hr, unreported_succ, unreported_succ,
        bitReport_eq_iff, BitVec.add_left_inj]
      constructor
      · rintro ⟨hhead, htail⟩
        rcases htail with heq | ⟨hc, hd⟩
        · exact Or.inl heq
        · rcases hhead hr with heq | ⟨hc', hd'⟩
          · exact Or.inl heq
          · exact Or.inr ⟨⟨hc', hc⟩, hd', hd⟩
      · rintro (heq | ⟨⟨hc', hc⟩, hd', hd⟩)
        · exact ⟨fun _ => Or.inl heq, Or.inl heq⟩
        · exact ⟨fun _ => Or.inr ⟨hc', hd'⟩, Or.inr ⟨hc, hd⟩⟩
    · rw [if_neg hr, if_neg fun hd => hr (h.receives_iff.mpr hd), if_neg hr, Nat.add_zero]
      exact and_iff_right fun hrec => absurd hrec hr
  | [], _ :: _, _, _, _, hc => hc.elim
  | _ :: _, [], _, _, _, hc => hc.elim

/-- **The history is erased**: from the sixth clock on the two controllers show the same, on TDO
and on the debugging socket, they are in the same state, and one clock later under the same
instruction. -/
structure Erased (c d : JtagTapController) (is js : List (Bool × Bool)) : Prop where
  shown : ∀ k, 5 ≤ k → (Mealy.outputs JtagTapController.clock c is)[k]? =
    (Mealy.outputs JtagTapController.clock d js)[k]?
  state : ∀ k, 5 ≤ k → k ≤ is.length →
    (c.run (is.take k)).curState = (d.run (js.take k)).curState
  instr : ∀ k, 6 ≤ k → k ≤ is.length →
    (c.run (is.take k)).curInstr = (d.run (js.take k)).curInstr

/-- What is shown past the reset is what the run shows that starts after it. -/
theorem getElem?_outputs_drop (c : JtagTapController) {is : List (Bool × Bool)}
    (h : 5 ≤ is.length) (m : ℕ) :
    (Mealy.outputs JtagTapController.clock c is)[5 + m]? =
      (Mealy.outputs JtagTapController.clock (c.run (is.take 5)) (is.drop 5))[m]? := by
  have hlen : (Mealy.outputs JtagTapController.clock c (is.take 5)).length = 5 := by
    simp [h]
  conv_lhs => rw [← List.take_append_drop 5 is, Mealy.outputs_append]
  rw [List.getElem?_append_right (by omega), hlen, Nat.add_sub_cancel_left]

/-- **Reset erases history**, but for the count. Take two reachable controllers and two input
streams with the same TMS, high on the first five clocks, whose TDI agrees, from there on, at the
clocks executed in `SHIFT_IR` and `SHIFT_DR`. The history is erased just if the two counters agree
after the reset, or no bit received from there on is one that either controller reports. -/
theorem reset_erases_history_iff (h₁ h₂ is js : List (Bool × Bool))
    (htms : is.map Prod.fst = js.map Prod.fst)
    (hones : (is.map Prod.fst).take 5 = List.replicate 5 true)
    (htdi : ∀ k, 5 ≤ k → ((init.run h₁).run (is.take k)).curState = .shiftIr ∨
        ((init.run h₁).run (is.take k)).curState = .shiftDr →
      is[k]?.map Prod.snd = js[k]?.map Prod.snd) :
    Erased (init.run h₁) (init.run h₂) is js ↔
      (init.run (h₁ ++ is.take 5)).bitCntr = (init.run (h₂ ++ js.take 5)).bitCntr ∨
        Unreported (init.run (h₁ ++ is.take 5)).bitCntr
            (received (init.run (h₁ ++ is.take 5)) (is.drop 5)) ∧
          Unreported (init.run (h₂ ++ js.take 5)).bitCntr
            (received (init.run (h₁ ++ is.take 5)) (is.drop 5)) := by
  obtain ⟨halike, hcoupled⟩ := alike_after_reset (d := init.run h₂) htms hones htdi
  have hlen : 5 ≤ is.length := by
    have hfive := congrArg List.length hones
    rw [List.length_take, List.length_map, List.length_replicate] at hfive
    omega
  have hlenjs : is.length = js.length := by simpa using congrArg List.length htms
  have herased := tdo_erased (d := init.run h₂) htms hones htdi
  rw [run_append, run_append, ← halike.outputs_eq_iff hcoupled]
  constructor
  · intro h
    refine List.ext_getElem? fun m => ?_
    rw [← getElem?_outputs_drop _ hlen, ← getElem?_outputs_drop _ (hlenjs ▸ hlen)]
    exact h.shown (5 + m) (Nat.le_add_right 5 m)
  · intro houts
    refine ⟨fun k hk => ?_, fun k hk hle => (herased k hk hle).2.1,
      fun k hk hle => (herased k (by omega) hle).2.2 hk⟩
    obtain ⟨m, rfl⟩ := Nat.exists_eq_add_of_le hk
    rw [getElem?_outputs_drop _ hlen, getElem?_outputs_drop _ (hlenjs ▸ hlen), houts]

/-- A reset, with TDI at `t`, and the first bit of a download. -/
def resetDownload (t : Bool) : List (Bool × Bool) :=
  List.replicate 5 (true, t) ++ toDownload ++ [(false, false)]

/-- A bit received before the reset is not seen by the first bit after it. -/
theorem reset_erases_history_iff_firstBit :
    Erased (init.run (toDownload ++ [(false, false)])) (init.run []) (resetDownload true)
      (resetDownload false) := by
  have htdi : ∀ k < (resetDownload true).length, 5 ≤ k →
      (resetDownload true)[k]?.map Prod.snd = (resetDownload false)[k]?.map Prod.snd := by
    decide
  refine (reset_erases_history_iff (toDownload ++ [(false, false)]) [] (resetDownload true)
    (resetDownload false) (by decide) (by decide) (fun k hk _ => ?_)).mpr (Or.inr ?_)
  · rcases Nat.lt_or_ge k (resetDownload true).length with hlt | hge
    · exact htdi k hlt hk
    · have hge' : (resetDownload false).length ≤ k := hge
      rw [List.getElem?_eq_none hge, List.getElem?_eq_none hge']
  · have hone : received (init.run (toDownload ++ [(false, false)] ++ (resetDownload true).take 5))
        ((resetDownload true).drop 5) = 1 := by decide
    rw [hone]
    exact ⟨by unfold Unreported; decide, by unfold Unreported; decide⟩

/-- A bitstream received before the reset is: its length is in the report of the first bit. -/
theorem reset_erases_history_false_of_bitstream :
    (Mealy.outputs JtagTapController.clock
        (init.run (toDownload ++ List.replicate bitstream (false, false)))
        (resetDownload false))[5 + toDownload.length]? = some ⟨1, [.receivedBits 213798882]⟩ ∧
      (Mealy.outputs JtagTapController.clock (init.run [])
        (resetDownload false))[5 + toDownload.length]? = some ⟨1, []⟩ ∧
      ¬ Erased (init.run (toDownload ++ List.replicate bitstream (false, false))) (init.run [])
        (resetDownload false) (resetDownload false) := by
  have hbits : (Mealy.outputs JtagTapController.clock
      (init.run (toDownload ++ List.replicate bitstream (false, false)))
        (resetDownload false))[5 + toDownload.length]? =
          some ⟨1, [.receivedBits 213798882]⟩ := by
    rw [run_bitstream]
    decide
  have hnone : (Mealy.outputs JtagTapController.clock (init.run [])
      (resetDownload false))[5 + toDownload.length]? = some ⟨1, []⟩ := by
    decide
  refine ⟨hbits, hnone, fun h => ?_⟩
  have hshown := h.shown (5 + toDownload.length) (Nat.le_add_right 5 _)
  rw [hbits, hnone] at hshown
  exact absurd hshown (by decide)

end TapReset

end JtagHw
