import Mathlib.Tactic.IntervalCases
import JtagHw.Chip

/-!
# What a plugin is loaded into

`get_supported_hardware` takes the three buffers from `malloc`, and nothing clears them
before the first flush has. `JtagHw.Blocks` is what the blocks hold. Clock calls or their
bits into that, and a flush or-s its answers into it, so that the first flush shows what
was there – where it can be seen.

For the clocked bits it can be seen wherever `tms_data` or `tdi_data` is not zero; for the
answers, wherever `tdo_data` is not zero and an answer can be `0`. No answer to the first
five clocks of a controller that has just been constructed is `0`
(`JtagHw.JtagTapController.tdoBits_init_getD`), and any later one can be
(`JtagHw.JtagTapController.tdoBits_lowAt`). So that is what the plugins depend on:
`JtagHw.independent_iff`.
-/

namespace JtagHw

open PackedBits Fallible

/-! ### Loading -/

/-- What the blocks hold that `malloc` returns. -/
structure Blocks where
  tdoData : Buf dataSizeBytes
  tmsData : Buf dataSizeBytes
  tdiData : Buf dataSizeBytes

/-- Blocks that are clear. -/
def Blocks.zero : Blocks := ⟨.zero, .zero, .zero⟩

/-- The three pointers to the buffers; `none` is `NULL`. -/
structure Pointers where
  tdoData : Option (Buf dataSizeBytes)
  tmsData : Option (Buf dataSizeBytes)
  tdiData : Option (Buf dataSizeBytes)

namespace Pointers

/-- Before the first call. -/
def null : Pointers := ⟨none, none, none⟩

/-- `if (!tdo_data) { tdo_data = (uint8_t *)malloc(DATA_SIZE_BYTES); }`, and the same for the
other two. -/
def allocate (m : Blocks) (p : Pointers) : Pointers where
  tdoData := some (p.tdoData.getD m.tdoData)
  tmsData := some (p.tmsData.getD m.tmsData)
  tdiData := some (p.tdiData.getD m.tdiData)

/-- The globals of a plugin whose buffers are allocated. -/
def globals {δ : Type*} (ops : ServerOps) (data : Ptr) (dev : δ) :
    Pointers → Option (Plugin δ)
  | ⟨some tdoData, some tmsData, some tdiData⟩ =>
    some ⟨ops, data, ⟨tmsData, tdiData, 0⟩, tdoData, 0, dev⟩
  | _ => none

end Pointers

/-- `get_supported_hardware` of the dummy plugin, which allocates before it looks at
`hw_type`; the result says whether it returns `&fns`. -/
def Dummy.getSupportedHardware (m : Blocks) (hwType : BitVec 32) (p : Pointers) :
    Pointers × Bool :=
  (p.allocate m, decide (hwType = 0))

/-- `get_supported_hardware` of the hardware plugin. -/
def Otma.getSupportedHardware (m : Blocks) (hwType : BitVec 32) (p : Pointers) :
    Pointers × Bool :=
  if hwType ≠ 0 then (p, false) else (p.allocate m, true)

namespace Plugin

variable {δ : Type*}

/-- A plugin just loaded, with blocks that hold `m`. -/
def loaded (m : Blocks) (ops : ServerOps) (data : Ptr) (dev : δ) : Plugin δ :=
  ⟨ops, data, ⟨m.tmsData, m.tdiData, 0⟩, m.tdoData, 0, dev⟩

/-- That is what both functions leave. -/
theorem globals_getSupportedHardware (m : Blocks) (ops : ServerOps) (data : Ptr) (dev : δ) :
    (Dummy.getSupportedHardware m 0 .null).1.globals ops data dev =
        some (loaded m ops data dev) ∧
      (Otma.getSupportedHardware m 0 .null).1.globals ops data dev =
        some (loaded m ops data dev) := by
  refine ⟨rfl, ?_⟩
  rw [Otma.getSupportedHardware, if_neg (not_not.mpr rfl)]
  rfl

/-- **A plugin does not depend on what it is loaded into**: blocks that hold `m` are as good
as clear ones. In any sequence of clock calls with words that are bits and of flushes whose
callbacks do not call back, never with more bits queued than there is room for, the outputs
are related by `O` and the devices by `R` to the ones with clear blocks; and the first
flush clocks exactly the bits that were queued. -/
structure Independent (transmit : Plugin δ → Except Fault (Transmitted δ)) (dev : δ)
    (R : δ → δ → Prop) (O : Out → Out → Prop) (m : Blocks) : Prop where
  same : ∀ ops data calls, (∀ call ∈ calls, HostCall.Plain call) → HostCall.Fits 0 calls →
    ResultRel (fun s s' => R s.dev s'.dev) (List.Forall₂ O)
      (run transmit (loaded m ops data dev) calls) (run transmit (loaded .zero ops data dev) calls)
  first : ∀ ops data cs, (∀ c ∈ cs, ClockCall.IsBits c) → ClockCall.total cs ≤ capacity →
    ∀ s' outs, run transmit (loaded m ops data dev) (cs.map .clock ++ [.flush .silent]) =
      .ok (s', outs) → outs.flatMap Out.clocked = cs.flatMap ClockCall.bits

/-- As many zeros as it takes to reach position `p`. -/
def zeros (p : ℕ) : ClockCall := .raw 0 0 (BitVec.ofNat 64 (p + 1))

theorem len_zeros {p : ℕ} (hp : p < capacity) : (zeros p).len = p + 1 := by
  rw [capacity_eq] at hp
  rw [zeros, ClockCall.len, BitVec.toNat_ofNat, Nat.mod_eq_of_lt (by omega)]

theorem bits_zeros {p : ℕ} (hp : p < capacity) :
    (zeros p).bits = List.replicate (p + 1) (false, false) := by
  have hlen : (BitVec.ofNat 64 (p + 1)).toNat = p + 1 := len_zeros hp
  rw [zeros, ClockCall.bits_raw, hlen]
  rfl

/-- Zeros, queued on buffers that may not be clear, leave at the last position what was
there. -/
theorem exec_zeros (tms tdi : Buf dataSizeBytes) {p : ℕ} (hp : p < capacity) :
    ∃ q, (zeros p).exec ⟨tms, tdi, 0⟩ = .ok q ∧ q.count = p + 1 ∧
      q.bitAt p = (tms.bit p, tdi.bit p) := by
  have hlen := len_zeros hp
  have hzero : (⟨tms, tdi, 0⟩ : Queue).count = 0 := rfl
  obtain ⟨q, hq, happ⟩ := ClockCall.exec_appends (c := zeros p) ⟨Or.inl rfl, Or.inl rfl⟩
    (q := ⟨tms, tdi, 0⟩) (by rw [hlen, hzero, Nat.zero_add]; exact hp)
  refine ⟨q, hq, by rw [happ.count_eq, hzero, Nat.zero_add, ClockCall.length_bits, hlen], ?_⟩
  have hat : laidOut (zeros p).bits 0 p = ⊥ := by
    rw [laidOut_zero, bits_zeros hp, List.getD_eq_getElem _ _ (by simp), List.getElem_replicate]
    rfl
  rw [happ.bitAt_eq, hzero, hat, sup_bot_eq]
  rfl

namespace Contract

variable {transmit : Plugin δ → Except Fault (Transmitted δ)} {J : δ → Prop}
  {Ends : δ → List (Bool × Bool) → Prop} {dev : δ} {m : Blocks}

/-- The first flush, with `tms_data` and `tdi_data` clear. -/
theorem first_of_clear (hC : Contract transmit J Ends) (hdev : J dev) (htms : m.tmsData = .zero)
    (htdi : m.tdiData = .zero) (ops : ServerOps) (data : Ptr) {cs : List ClockCall}
    (hcs : ∀ c ∈ cs, c.IsBits) (hfit : ClockCall.total cs ≤ capacity) {s' : Plugin δ}
    {outs : List Out} (hrun : run transmit (loaded m ops data dev)
      (cs.map .clock ++ [.flush .silent]) = .ok (s', outs)) :
    outs.flatMap Out.clocked = cs.flatMap ClockCall.bits := by
  have hempty : (loaded m ops data dev).queue = .empty := by
    rw [loaded, htms, htdi]
    rfl
  obtain ⟨q, hclocks, hwf, hbits⟩ := run_clocks transmit (s := loaded m ops data dev) hcs
    (by rw [hempty]; exact Queue.wf_empty)
    (by rw [hempty, Queue.count_empty, Nat.zero_add]; exact hfit)
  rw [hempty, Queue.bits_empty, List.nil_append] at hbits
  obtain ⟨s₁, os, ps, hos, hps, rfl⟩ := run_append_inv hrun
  cases hclocks.symm.trans hos
  obtain ⟨s₂, out, ps', hflush, hend, rfl⟩ := run_cons_inv hps
  cases hend
  obtain ⟨-, -, -, hclocked, -⟩ := hC.flush_inv ⟨hwf.count_le, hdev⟩ hflush
  simp [hclocked, hbits]

/-- **A first flush that is exact shows that the queue was clear**, with a device that lets
every flush end: clock zeros up to any position. -/
theorem clear_of_first (hC : Contract transmit J Ends) (hdev : J dev)
    (hends : ∀ l, Ends dev l) {R : δ → δ → Prop} {O : Out → Out → Prop}
    (h : Independent transmit dev R O m) : m.tmsData = .zero ∧ m.tdiData = .zero := by
  have hbit : ∀ p < capacity, (m.tmsData.bit p, m.tdiData.bit p) = (false, false) := by
    intro p hp
    have hlen := len_zeros hp
    obtain ⟨q, hq, hcount, hat⟩ := exec_zeros m.tmsData m.tdiData hp
    have hle : q.count ≤ capacity := by
      rw [hcount]
      exact hp
    obtain ⟨t, ht⟩ := hC.ends ⟨⟨1, 2⟩, 3, q, m.tdoData, 0, dev⟩ hle hdev (hends _)
    have hinstalled : Installed (⟨⟨1, 2⟩, 3, q, m.tdoData, 0, dev⟩ : Plugin δ) :=
      ⟨show (1 : Ptr) ≠ 0 by decide, show (2 : Ptr) ≠ 0 by decide⟩
    have hflush := doFlush_ok hinstalled ht
    have hrun : run transmit (loaded m ⟨1, 2⟩ 3 dev) ([zeros p].map .clock ++ [.flush .silent]) =
        .ok _ :=
      run_cons_ok (step_clock (by exact hq)) (run_singleton hflush)
    have hfirst := h.first _ _ [zeros p] (List.forall_mem_singleton.mpr ⟨Or.inl rfl, Or.inl rfl⟩)
      (by rw [ClockCall.total_cons, hlen]; exact hp) _ _ hrun
    obtain ⟨-, -, -, hclocked, -⟩ := hC.flush_inv ⟨hle, hdev⟩ hflush
    have hall : q.bits = (zeros p).bits := by
      simp only [List.flatMap_cons, List.flatMap_nil, List.append_nil] at hfirst
      rw [← hclocked, ← hfirst]
      rfl
    -- what was clocked at position `p` is what was in the buffers, and a zero
    have hget := q.getElem?_bits (k := p) (by omega)
    rw [hall, bits_zeros hp, List.getElem?_replicate, if_pos (Nat.lt_succ_self p),
      Option.some.injEq, hat] at hget
    exact hget.symm
  exact ⟨Buf.eq_zero_of_bits fun p hp => (Prod.mk.inj (hbit p hp)).1,
    Buf.eq_zero_of_bits fun p hp => (Prod.mk.inj (hbit p hp)).2⟩

end Contract

end Plugin

/-! ### The answers to the first clocks -/

namespace JtagTapController

/-- Five clocks are not enough to see a `0`: the first shift clock can be the fifth, and
answers the lowest bit of the identification. -/
theorem tdoBits_init_five (a b c d e : Bool × Bool) :
    init.tdoBits [a, b, c, d, e] = [true, true, true, true, true] := by
  have htdos : init.tdos [a, b, c, d, e] = [1, 1, 1, 1, 1] := by
    obtain ⟨ta, da⟩ := a
    obtain ⟨tb, db⟩ := b
    obtain ⟨tc, dc⟩ := c
    obtain ⟨td, dd⟩ := d
    cases ta <;> cases tb <;> cases tc <;> cases td <;> rfl
  rw [tdoBits, htdos]
  rfl

/-- **None of the first five answers of a controller is `0`.** -/
theorem tdoBits_init_getD (l : List (Bool × Bool)) {p : ℕ} (hp : p < 5) (hl : p < l.length) :
    (init.tdoBits l).getD p false = true := by
  -- the list, made long enough
  obtain ⟨a, b, c, d, e, rest, hlong⟩ : ∃ a b c d e rest,
      l ++ List.replicate 5 (false, false) = [a, b, c, d, e] ++ rest := by
    rcases l with _ | ⟨a, _ | ⟨b, _ | ⟨c, _ | ⟨d, _ | ⟨e, rest⟩⟩⟩⟩⟩ <;>
      exact ⟨_, _, _, _, _, _, rfl⟩
  have hget : (init.tdoBits l).getD p false =
      (init.tdoBits (l ++ List.replicate 5 (false, false))).getD p false := by
    rw [tdoBits_append, List.getD_append _ _ _ _ (by simpa using hl)]
  rw [hget, hlong, tdoBits_append, tdoBits_init_five, List.getD_append _ _ _ _ (by simpa using hp)]
  interval_cases p <;> rfl

/-- The clocks after which a controller shifts out the second bit of the identification, with
`k + 1` of them before it selects the scan. -/
def lowAt (k : ℕ) : List ClockCall :=
  [.raw 0 0 (BitVec.ofNat 64 (k + 1)), .raw 1 0 1, .raw 0 0 4]

theorem flatMap_lowAt {k : ℕ} (hk : k + 1 < 2 ^ 64) :
    (lowAt k).flatMap ClockCall.bits = List.replicate (k + 1) (false, false) ++
      [(true, false), (false, false), (false, false), (false, false), (false, false)] := by
  have hlen : (BitVec.ofNat 64 (k + 1)).toNat = k + 1 := by
    rw [BitVec.toNat_ofNat, Nat.mod_eq_of_lt hk]
  simp only [lowAt, List.flatMap_cons, List.flatMap_nil, List.append_nil, ClockCall.bits_raw, hlen]
  rfl

/-- A controller in `RUN_TEST_IDLE` that is clocked with TMS at `0` stays there. -/
theorem run_idle (k : ℕ) :
    init.run (List.replicate (k + 1) (false, false)) = (init.clock (false, false)).1 := by
  induction k with
  | zero => rfl
  | succ k ih =>
    rw [List.replicate_succ', run_append, ih]
    rfl

/-- **Any later answer can be `0`.** -/
theorem tdoBits_lowAt {k : ℕ} (hk : k + 1 < 2 ^ 64) :
    (init.tdoBits ((lowAt k).flatMap ClockCall.bits)).getD (k + 5) false = false := by
  rw [flatMap_lowAt hk, tdoBits_append, run_idle,
    List.getD_append_right _ _ _ _ (by simp), length_tdoBits, List.length_replicate,
    show k + 5 - (k + 1) = 4 by omega]
  decide

end JtagTapController

/-! ### The dummy plugin -/

namespace Dummy

/-- What a call of the dummy plugin shows of what was clocked and answered. -/
def SameSeen (out out' : Out) : Prop :=
  out.clocked = out'.clocked ∧ out.delivered = out'.delivered

/-- The dummy plugin does not depend on what it is loaded into. -/
def Independent (m : Blocks) : Prop :=
  Plugin.Independent transmit JtagTapController.init (· = ·) SameSeen m

/-- Two states that differ in `tdo_data` only, and there, in front of a controller that has
not been clocked yet, where the first five answers go. -/
structure Alike (s s' : State) : Prop where
  serverOps : s.serverOps = s'.serverOps
  serverOpsData : s.serverOpsData = s'.serverOpsData
  queue : s.queue = s'.queue
  count_le : s.queue.count ≤ capacity
  dev : s.dev = s'.dev
  cells : s.dev.BitCells
  tdoDataCount : s.tdoDataCount = 0
  tdoDataCount' : s'.tdoDataCount = 0
  tdoData : s.tdoData = s'.tdoData ∨
    s.dev = .init ∧ ∀ j, 5 ≤ j → s.tdoData.bit j = s'.tdoData.bit j

/-- **The loops from two such states** clock the same, and their answers agree as far as
they are delivered. -/
theorem transmit_alike {s s' : State} (h : Alike s s') :
    ∃ t t', transmit s = .ok t ∧ transmit s' = .ok t' ∧ t.clocked = t'.clocked ∧
      t.dev = t'.dev ∧ t.dev.BitCells ∧ t.tdoDataCount = s.queue.tdiDataCount ∧
      t'.tdoDataCount = s.queue.tdiDataCount ∧
      ∀ j < s.queue.count, t.tdoData.bit j = t'.tdoData.bit j := by
  obtain ⟨t, ht, hclocked, hdev, hcount, htdo⟩ := transmit_ok s h.count_le
  obtain ⟨t', ht', hclocked', hdev', hcount', htdo'⟩ := transmit_ok s' (h.queue ▸ h.count_le)
  refine ⟨t, t', ht, ht', by rw [hclocked, hclocked', h.queue], ?_, ?_, ?_, ?_, ?_⟩
  · rw [hdev, hdev', h.dev, h.queue]
  · rw [hdev]
    exact h.cells.run _
  · rw [hcount, h.tdoDataCount]
    exact BitVec.zero_add _
  · rw [hcount', h.tdoDataCount', h.queue]
    exact BitVec.zero_add _
  · intro j hj
    rw [htdo h.cells, htdo' (h.dev ▸ h.cells), ← h.dev, ← h.queue]
    rcases h.tdoData with heq | ⟨hinit, hbits⟩
    · rw [heq]
    · rcases Nat.lt_or_ge j 5 with h5 | h5
      · -- the answer is `1`, whatever was there
        have hone : (JtagTapController.init.tdoBits s.queue.bits).getD j ⊥ = ⊤ :=
          JtagTapController.tdoBits_init_getD _ h5 (by simpa using hj)
        rw [laidOut_zero, hinit, hone, sup_top_eq, sup_top_eq]
      · rw [hbits j h5]

/-- **A flush from two such states** clocks the same and delivers the same. -/
theorem doFlush_alike {s s' : State} (h : Alike s s') (re : Reentry) :
    ResultRel Alike SameSeen (doFlush re s) (doFlush re s') := by
  obtain ⟨t, t', ht, ht', hclocked, hdev, hcells, hcount, hcount', hbit⟩ := transmit_alike h
  rw [doFlush, doFlush, Plugin.doFlush_eq, Plugin.doFlush_eq, ht, ht', ← h.serverOps, ← h.queue]
  rcases hq : Plugin.reenter s.serverOps re s.queue with e | q
  · rfl
  · obtain ⟨-, -, -, hq'⟩ := Plugin.reenter_inv hq
    obtain ⟨hqcount, hfit⟩ := ClockCall.execAll_inv Queue.count_empty_le hq'
    refine ⟨?_, hclocked, ?_⟩
    · exact
        { serverOps := rfl
          serverOpsData := h.serverOpsData
          queue := rfl
          count_le := hqcount.le.trans hfit
          dev := hdev
          cells := hcells
          tdoDataCount := rfl
          tdoDataCount' := rfl
          tdoData := Or.inl rfl }
    · simp only [Out.delivered, Plugin.callbacks, List.flatMap_cons, List.flatMap_nil,
        Callback.delivered, hcount, hcount', List.append_nil]
      exact List.map_congr_left fun j hj => hbit j (List.mem_range.mp hj)

/-- **So does any call.** -/
theorem step_alike {s s' : State} (call : HostCall) (h : Alike s s') :
    ResultRel Alike SameSeen (step s call) (step s' call) := by
  cases call with
  | clock c =>
    rcases hc : c.exec s.queue with e | q
    · rw [step, step, Plugin.step_clock_error hc, Plugin.step_clock_error (h.queue ▸ hc)]
      rfl
    · have hfit := (c.exec_ok_iff h.count_le).mp ⟨q, hc⟩
      obtain ⟨q', hq', hcount⟩ := c.exec_ok hfit
      cases hc.symm.trans hq'
      rw [step, step, Plugin.step_clock hc, Plugin.step_clock (h.queue ▸ hc)]
      exact ⟨{ h with queue := rfl, count_le := hcount.le.trans hfit }, rfl, rfl⟩
  | flush re => exact doFlush_alike h re
  | initDev desc ops parent =>
    refine ⟨?_, rfl, rfl⟩
    by_cases haccepts : Accepts desc parent
    · rw [Plugin.initDev_accepted haccepts, Plugin.initDev_accepted haccepts]
      exact { h with serverOps := rfl, serverOpsData := rfl }
    · rw [Plugin.initDev_refused haccepts, Plugin.initDev_refused haccepts]
      exact h
  | doClose => exact ⟨h, rfl, rfl⟩

/-- What such outputs deliver. -/
theorem delivered_of_sameSeen {outs outs' : List Out} (h : List.Forall₂ SameSeen outs outs') :
    outs.flatMap Out.delivered = outs'.flatMap Out.delivered := by
  induction h with
  | nil => rfl
  | cons hseen _ ih => rw [List.flatMap_cons, List.flatMap_cons, hseen.2, ih]

/-- **The first flush**, with `tms_data` and `tdi_data` clear, delivers the answers, or-ed into
what was in `tdo_data`. -/
theorem first_delivered {m : Blocks} (htms : m.tmsData = .zero) (htdi : m.tdiData = .zero)
    {cs : List ClockCall} (hcs : ∀ c ∈ cs, c.IsBits) (hfit : ClockCall.total cs ≤ capacity) :
    ∃ s' outs, run (Plugin.loaded m ⟨1, 2⟩ 3 .init) (cs.map .clock ++ [.flush .silent]) =
        .ok (s', outs) ∧
      outs.flatMap Out.delivered = (List.range (cs.flatMap ClockCall.bits).length).map fun j =>
        m.tdoData.bit j ⊔
          laidOut (JtagTapController.init.tdoBits (cs.flatMap ClockCall.bits)) 0 j := by
  have hempty : (Plugin.loaded m ⟨1, 2⟩ 3 JtagTapController.init).queue = .empty := by
    rw [Plugin.loaded, htms, htdi]
    rfl
  obtain ⟨q, hclocks, hwf, hbits⟩ := Plugin.Contract.run_clocks transmit
    (s := Plugin.loaded m ⟨1, 2⟩ 3 .init) hcs (by rw [hempty]; exact Queue.wf_empty)
    (by rw [hempty, Queue.count_empty, Nat.zero_add]; exact hfit)
  rw [hempty, Queue.bits_empty, List.nil_append] at hbits
  obtain ⟨t, ht, -, -, hcount, htdo⟩ := transmit_ok
    { Plugin.loaded m ⟨1, 2⟩ 3 JtagTapController.init with queue := q } hwf.count_le
  have hinstalled : Plugin.Installed
      { Plugin.loaded m ⟨1, 2⟩ 3 JtagTapController.init with queue := q } :=
    ⟨show (1 : Ptr) ≠ 0 by decide, show (2 : Ptr) ≠ 0 by decide⟩
  refine ⟨_, _, run_append_ok hclocks (run_singleton (Plugin.doFlush_ok hinstalled ht)), ?_⟩
  -- the clock calls make no callback, so that all that is delivered is the flush's
  have hsilent : (cs.map fun c => (⟨c.ret, [], []⟩ : Out)).flatMap Out.delivered = [] := by
    simp [Out.delivered]
  have hn : t.tdoDataCount.toNat = (cs.flatMap ClockCall.bits).length := by
    rw [hcount, ← hbits, Queue.length_bits]
    exact congrArg BitVec.toNat (BitVec.zero_add _)
  rw [List.flatMap_append, hsilent, List.nil_append]
  simp only [Out.delivered, Plugin.callbacks, List.flatMap_cons, List.flatMap_nil,
    Callback.delivered, List.append_nil, hn]
  refine List.map_congr_left fun j _ => ?_
  rw [htdo JtagTapController.bitCells_init j]
  simp only [hbits]
  rfl

/-- What was in `tdo_data` from the sixth bit on shows in the session whose last answer, at
that position, is `0`. -/
theorem tdoData_of_independent {m : Blocks} (h : Independent m) (htms : m.tmsData = .zero)
    (htdi : m.tdiData = .zero) {k : ℕ} (hk : k + 6 ≤ capacity) :
    m.tdoData.bit (k + 5) = false := by
  have hk64 : k + 1 < 2 ^ 64 := by
    rw [capacity_eq] at hk
    omega
  have hcs : ∀ c ∈ JtagTapController.lowAt k, c.IsBits := by
    simp [JtagTapController.lowAt, ClockCall.IsBits]
  have hlen : ((JtagTapController.lowAt k).flatMap ClockCall.bits).length = k + 6 := by
    rw [JtagTapController.flatMap_lowAt hk64]
    simp
  have htotal : ClockCall.total (JtagTapController.lowAt k) ≤ capacity := by
    rw [List.length_flatMap] at hlen
    simp only [ClockCall.length_bits] at hlen
    rw [ClockCall.total, hlen]
    exact hk
  -- the same session from cleared memory, whose last answer is `0`
  obtain ⟨s, outs, hrun, hout⟩ := first_delivered htms htdi hcs htotal
  obtain ⟨s', outs', hrun', hout'⟩ := first_delivered (m := .zero) rfl rfl hcs htotal
  have hsame := h.same ⟨1, 2⟩ 3 _ (HostCall.plain_clocks hcs)
    (HostCall.fits_clocks _ (by rw [Nat.zero_add]; exact htotal))
  rw [run] at hrun hrun'
  rw [hrun, hrun'] at hsame
  have hall := delivered_of_sameSeen hsame.2
  rw [hout, hout', hlen] at hall
  have hlast := congrArg (·[k + 5]?) hall
  simp only [List.getElem?_map, List.getElem?_range (show k + 5 < k + 6 by omega),
    Option.map_some, Option.some.injEq, Blocks.zero, Buf.bit_zero, laidOut_zero] at hlast
  rw [show (JtagTapController.init.tdoBits _).getD (k + 5) ⊥ = ⊥ from
    JtagTapController.tdoBits_lowAt hk64, sup_bot_eq] at hlast
  exact hlast

/-- **What the dummy plugin depends on.** -/
theorem independent_iff_clear_past (m : Blocks) :
    Independent m ↔ m.tmsData = .zero ∧ m.tdiData = .zero ∧
      ∀ j, 5 ≤ j → m.tdoData.bit j = false := by
  constructor
  · intro h
    obtain ⟨htms, htdi⟩ := contract.clear_of_first trivial (fun _ => trivial) h
    refine ⟨htms, htdi, fun p hp => ?_⟩
    rcases Nat.lt_or_ge p capacity with hlt | hge
    · obtain ⟨k, rfl⟩ := Nat.exists_eq_add_of_le' hp
      exact tdoData_of_independent h htms htdi hlt
    · exact m.tdoData.bit_of_le hge
  · rintro ⟨htms, htdi, htdo⟩
    have hload : ∀ ops data, Alike (Plugin.loaded m ops data .init)
        (Plugin.loaded .zero ops data .init) := fun ops data =>
      { serverOps := rfl
        serverOpsData := rfl
        queue := by rw [Plugin.loaded, Plugin.loaded, htms, htdi]; rfl
        count_le := Nat.zero_le _
        dev := rfl
        cells := JtagTapController.bitCells_init
        tdoDataCount := rfl
        tdoDataCount' := rfl
        tdoData := Or.inr ⟨rfl, fun j hj => (htdo j hj).trans (Buf.bit_zero j).symm⟩ }
    refine ⟨fun ops data calls _ _ => ?_, fun ops data cs hcs hfit s' outs hrun =>
      contract.first_of_clear trivial htms htdi ops data hcs hfit hrun⟩
    exact (run_rel (P := fun _ => True) (fun s s' call hs _ => step_alike call hs) calls _ _
      (hload ops data) fun _ _ => trivial).imp (fun _ _ hs => hs.dev) fun _ _ ho => ho

end Dummy

/-! ### The hardware plugin -/

namespace Otma

/-- The bits that a call of the hardware plugin has handed to the MPSSE layer. -/
def SameClocked (out out' : Out) : Prop := out.clocked = out'.clocked

/-- The hardware plugin does not depend on what it is loaded into, as to the bits it hands to
the MPSSE layer: over any link, and without a context or with an idle one. -/
def Independent (m : Blocks) : Prop :=
  ∀ {δ : Type} (L : UsbLink δ) (d : Option (MpsseCtx δ)), d = none ∨ HasIdle d →
    Plugin.Independent (transmit L) d (fun _ _ => True) SameClocked m

section Alike

variable {δ : Type} {L : UsbLink δ}

/-- Two idle contexts of one device, or none. -/
def SameDevice (d d' : Option (MpsseCtx δ)) : Prop :=
  (d = none ∧ d' = none) ∨
    ∃ c c', d = some c ∧ d' = some c' ∧ c.Idle ∧ c'.Idle ∧ c.usb = c'.usb ∧
      c.maxPacketSize = c'.maxPacketSize

/-- Two states that differ in `tdo_data` only, and in what is past the counts of their
contexts. -/
structure Alike (s s' : State δ) : Prop where
  serverOps : s.serverOps = s'.serverOps
  queue : s.queue = s'.queue
  count_le : s.queue.count ≤ capacity
  dev : SameDevice s.dev s'.dev

/-- **The loop of a flush from two such states**: it hands over the same bits, and leaves the
device alike, or it is stopped by the same fault. -/
theorem transmit_alike {s s' : State δ} (h : Alike s s') :
    (∃ e, transmit L s = .error e ∧ transmit L s' = .error e) ∨
      ∃ t t', transmit L s = .ok t ∧ transmit L s' = .ok t' ∧ t.clocked = t'.clocked ∧
        SameDevice t.dev t'.dev := by
  rcases h.dev with ⟨hnull, hnull'⟩ | ⟨c, c', hctx, hctx', hidle, hidle', husb, hps⟩
  · exact Or.inl ⟨.nullContext, transmit_null hnull, transmit_null hnull'⟩
  · have hcap : s'.queue.count ≤ capacity := h.queue ▸ h.count_le
    by_cases hans : Answered s.queue.bits L c.maxPacketSize c.usb
    swap
    · -- the device does not answer, in either case
      rw [Answered] at hans
      push Not at hans
      obtain ⟨j, hj⟩ := hans
      exact Or.inl ⟨.unanswered, transmit_hangs hctx hidle h.count_le hj,
        transmit_hangs (j := j) hctx' hidle' hcap (by rwa [← h.queue, ← husb, ← hps])⟩
    have hans' : Answered s'.queue.bits L c'.maxPacketSize c'.usb := by
      rwa [← h.queue, ← husb, ← hps]
    by_cases hall : ∀ j, flushBits * j < s.queue.count →
        Through s.queue.bits L c.maxPacketSize c.usb j
    · -- all exchanges come through
      obtain ⟨t, k, ht, hdev, hclocked, -, hk, hkps, hkusb, -⟩ :=
        transmit_through hctx hidle h.count_le hall
      obtain ⟨t', k', ht', hdev', hclocked', -, hk', hkps', hkusb', -⟩ :=
        transmit_through hctx' hidle' hcap (by rwa [← h.queue, ← husb, ← hps])
      exact Or.inr ⟨t, t', ht, ht', by rw [hclocked, hclocked', h.queue],
        Or.inr ⟨k, k', hdev, hdev', hk, hk', by rw [hkusb, hkusb', h.queue, husb],
          by rw [hkps, hkps', hps]⟩⟩
    · push Not at hall
      by_cases hauto : ∀ j, flushBits * (j + 1) < s.queue.count →
          Through s.queue.bits L c.maxPacketSize c.usb j
      · -- the one at the end does not: the device is purged
        obtain ⟨t, k, ht, hdev, hclocked, -, hk, hkps, hkusb, -⟩ :=
          transmit_last_fails hctx hidle h.count_le hauto hall hans
        obtain ⟨t', k', ht', hdev', hclocked', -, hk', hkps', hkusb', -⟩ :=
          transmit_last_fails hctx' hidle' hcap (by rwa [← h.queue, ← husb, ← hps])
            (by rwa [← h.queue, ← husb, ← hps]) hans'
        exact Or.inr ⟨t, t', ht, ht', by rw [hclocked, hclocked', h.queue],
          Or.inr ⟨k, k', hdev, hdev', hk, hk', by rw [hkusb, hkusb', h.queue, husb],
            by rw [hkps, hkps', hps]⟩⟩
      · -- an earlier one does not: both flushes run into the assertion
        push Not at hauto
        exact Or.inl ⟨.assertion, transmit_aborts hctx hidle h.count_le hauto hans,
          transmit_aborts hctx' hidle' hcap (by rwa [← h.queue, ← husb, ← hps]) hans'⟩

/-- **A call from two such states.** -/
theorem step_alike {s s' : State δ} (call : HostCall) (h : Alike s s') :
    ResultRel Alike SameClocked (step L s call) (step L s' call) := by
  cases call with
  | clock c =>
    rcases hc : c.exec s.queue with e | q
    · rw [step, step, Plugin.step_clock_error hc, Plugin.step_clock_error (h.queue ▸ hc)]
      rfl
    · have hfit := (c.exec_ok_iff h.count_le).mp ⟨q, hc⟩
      obtain ⟨q', hq', hcount⟩ := c.exec_ok hfit
      cases hc.symm.trans hq'
      rw [step, step, Plugin.step_clock hc, Plugin.step_clock (h.queue ▸ hc)]
      exact ⟨⟨h.serverOps, rfl, hcount.le.trans hfit, h.dev⟩, rfl⟩
  | flush re =>
    rw [step, step, Plugin.step, Plugin.step, Plugin.doFlush_eq, Plugin.doFlush_eq]
    rcases transmit_alike (L := L) h with ⟨e, he, he'⟩ | ⟨t, t', ht, ht', hclocked, hdev⟩
    · rw [he, he']
      rfl
    · rw [ht, ht', ← h.serverOps, ← h.queue]
      rcases hq : Plugin.reenter s.serverOps re s.queue with e | q
      · rfl
      · obtain ⟨-, -, -, hq'⟩ := Plugin.reenter_inv hq
        obtain ⟨hqcount, hfit⟩ := ClockCall.execAll_inv Queue.count_empty_le hq'
        exact ⟨⟨rfl, rfl, hqcount.le.trans hfit, hdev⟩, hclocked⟩
  | initDev desc ops parent =>
    refine ⟨?_, rfl⟩
    by_cases haccepts : Accepts desc parent
    · rw [Plugin.initDev_accepted haccepts, Plugin.initDev_accepted haccepts]
      exact ⟨rfl, h.queue, h.count_le, h.dev⟩
    · rw [Plugin.initDev_refused haccepts, Plugin.initDev_refused haccepts]
      exact h
  | doClose => exact ⟨h, rfl⟩

end Alike

/-- **What the hardware plugin depends on.** -/
theorem independent_iff_clear (m : Blocks) :
    Independent m ↔ m.tmsData = .zero ∧ m.tdiData = .zero := by
  constructor
  · -- over a link on which every transfer succeeds
    intro h
    have hidle : HasIdle (some (openedCtx freshChip)) := ⟨_, rfl, idle_openedCtx freshChip⟩
    exact (contract perfectLink.toUsbLink).clear_of_first hidle
      (fun l => ends_of_perfect perfectLink_perfect rfl rfl ⟨rfl, rfl⟩ l)
      (h _ _ (Or.inr hidle))
  · rintro ⟨htms, htdi⟩ δ L d hd
    have hload : ∀ ops data, Alike (Plugin.loaded m ops data d)
        (Plugin.loaded .zero ops data d) := by
      refine fun ops data => ⟨rfl, by rw [Plugin.loaded, Plugin.loaded, htms, htdi]; rfl,
        Nat.zero_le _, ?_⟩
      rcases hd with rfl | ⟨c, rfl, hidle⟩
      · exact Or.inl ⟨rfl, rfl⟩
      · exact Or.inr ⟨c, c, rfl, rfl, hidle, hidle, rfl, rfl⟩
    refine ⟨fun ops data calls _ _ => ?_, fun ops data cs hcs hfit s' outs hrun =>
      (contract_or_null L).first_of_clear hd htms htdi ops data hcs hfit hrun⟩
    exact (run_rel (P := fun _ => True) (fun s s' call hs _ => step_alike call hs) calls _ _
      (hload ops data) fun _ _ => trivial).imp (fun _ _ _ => trivial) fun _ _ ho => ho

end Otma

/-- **What the plugins depend on of the memory they are loaded into.** The first call of
`get_supported_hardware` leaves both with blocks that hold what `malloc` returned. Neither
depends on it just if `tms_data` and `tdi_data` are clear, and the dummy plugin just if
`tdo_data` is, from its sixth bit on. -/
theorem independent_iff (m : Blocks) :
    (∀ {δ : Type} (ops : ServerOps) (data : Ptr) (dev : δ),
      (Dummy.getSupportedHardware m 0 .null).1.globals ops data dev =
          some (Plugin.loaded m ops data dev) ∧
        (Otma.getSupportedHardware m 0 .null).1.globals ops data dev =
          some (Plugin.loaded m ops data dev)) ∧
    (Dummy.Independent m ↔ m.tmsData = .zero ∧ m.tdiData = .zero ∧
      ∀ j, 5 ≤ j → m.tdoData.bit j = false) ∧
    (Otma.Independent m ↔ m.tmsData = .zero ∧ m.tdiData = .zero) :=
  ⟨Plugin.globals_getSupportedHardware m, Dummy.independent_iff_clear_past m,
    Otma.independent_iff_clear m⟩

/-- Blocks with one bit set in `tms_data`. -/
def dirtyBlocks : Blocks := ⟨.zero, fun i => if i.val = 0 then 0x01 else 0, .zero⟩

/-- One clock with TMS at `0` is queued, and one with TMS at `1` is what the flush clocks. -/
theorem independent_false_of_dirtyBlocks :
    (∃ s' outs, Dummy.run (Plugin.loaded dirtyBlocks ⟨1, 2⟩ 3 .init)
        [.clock (.raw 0 0 1), .flush .silent] = .ok (s', outs) ∧
      outs.flatMap Out.clocked = [(true, false)]) ∧
    ¬ Dummy.Independent dirtyBlocks ∧ ¬ Otma.Independent dirtyBlocks := by
  have hne : dirtyBlocks.tmsData ≠ .zero := by
    intro h
    have hbit := congrArg (Buf.bit · 0) h
    rw [Buf.bit_zero] at hbit
    exact absurd hbit (by decide +kernel)
  refine ⟨?_, fun h => hne ((Dummy.independent_iff_clear_past _).mp h).1,
    fun h => hne ((Otma.independent_iff_clear _).mp h).1⟩
  obtain ⟨q, hq, happ⟩ := ClockCall.exec_appends (c := .raw 0 0 1) ⟨Or.inl rfl, Or.inl rfl⟩
    (q := ⟨dirtyBlocks.tmsData, .zero, 0⟩) (by decide +kernel)
  have hcount : q.count = 1 := happ.count_eq
  have hbit : q.bitAt 0 = (true, false) := by
    rw [happ.bitAt_eq]
    decide +kernel
  have hbits : q.bits = [(true, false)] := by
    rw [Queue.bits, hcount]
    exact congrArg (fun b => [b]) hbit
  obtain ⟨t, ht, hclocked, -⟩ := Dummy.transmit_ok ⟨⟨1, 2⟩, 3, q, .zero, 0, .init⟩
    (by rw [hcount]; decide +kernel)
  have hinstalled : Plugin.Installed (⟨⟨1, 2⟩, 3, q, .zero, 0, .init⟩ : Dummy.State) :=
    ⟨show (1 : Ptr) ≠ 0 by decide, show (2 : Ptr) ≠ 0 by decide⟩
  refine ⟨_, _, run_cons_ok (Plugin.step_clock (by exact hq))
    (run_singleton (Plugin.doFlush_ok hinstalled ht)), ?_⟩
  simpa using hclocked.trans hbits

end JtagHw
