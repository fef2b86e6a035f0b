import JtagHw.Lib.Batch
import JtagHw.Plugin.Contract
import JtagHw.TapController

/-!
# The dummy plugin

`src/jtag_hw_dummy.cpp`: a plugin whose device is a `JtagTapController` of its own.
The loop of its `do_flush` (`JtagHw.Dummy.transmit`) clocks the queued bits through
the controller and or-s the answers into `tdo_data`, which the reset after each
flush has left clear.

Abstractly the plugin is a queue in front of the controller, the `Batch` of it: a
clock call collects the pairs it denotes, a flush feeds them. The plugin refines
that (`JtagHw.Dummy.Refines`, `JtagHw.Dummy.step_refines`), so that a whole session
delivers, cut up at its flushes, one run of the controller
(`JtagHw.Dummy.whole_session`).
-/

namespace JtagHw

open PackedBits CountedLoop

/-! ### What a sequence of calls asks for -/

namespace HostCall

/-- The call, seen by a queue in front of a machine. -/
def cmd : HostCall → Batch.Cmd (Bool × Bool)
  | clock c => .put c.bits
  | flush _ => .flush
  | initDev .. => .put []
  | doClose => .put []

end HostCall

namespace Dummy

/-- The globals of the dummy plugin, `jtag_controller` included. -/
abbrev State := Plugin JtagTapController

/-- The body of the loop of `do_flush`. -/
def clockBit (q : Queue) (i : BitVec 32) (t : Transmitted JtagTapController) :
    Except Fault (Transmitted JtagTapController) := do
  let tmsByte ← access (q.tmsData.load? (i.toNat / 8))
  let tdiByte ← access (q.tdiData.load? (i.toNat / 8))
  let tms := (tmsByte >>> (i.toNat % 8)) &&& 1#8
  let tdi := (tdiByte >>> (i.toNat % 8)) &&& 1#8
  let r := t.dev.step (tms ≠ 0) (tdi.setWidth 32)
  let tdoData ← access (t.tdoData.orAt i.toNat r.2.tdo)
  return ⟨tdoData, t.tdoDataCount + 1, r.1, t.clocked ++ [(decide (tms ≠ 0), decide (tdi ≠ 0))]⟩

/-- The loop of `do_flush`. -/
def transmit (s : State) : Except Fault (Transmitted JtagTapController) :=
  forLoop .diverges s.queue.count (clockBit s.queue) ⟨s.tdoData, s.tdoDataCount, s.dev, []⟩

/-- `int64_t do_flush(void *, int, uint32_t)`. -/
abbrev doFlush (re : Reentry) (s : State) : Except Fault (State × Out) :=
  Plugin.doFlush transmit re s

/-- One call of the host. -/
abbrev step (s : State) (call : HostCall) : Except Fault (State × Out) :=
  Plugin.step transmit s call

/-- A sequence of calls. -/
abbrev run (s : State) (calls : List HostCall) : Except Fault (State × List Out) :=
  Plugin.run transmit s calls

/-! ### The loop of the flush -/

theorem setWidth_of_bit (b : Bool) : (if b then (1 : Byte) else 0).setWidth 32 = cbit b := by
  cases b <;> rfl

/-- **One iteration**: the pair at its position is clocked, and the answer, if it is
a bit, is or-ed in at that position. -/
theorem clockBit_ok (q : Queue) {i : ℕ} (hi : i < capacity)
    (t : Transmitted JtagTapController) :
    ∃ t', clockBit q (BitVec.ofNat 32 i) t = .ok t' ∧ t'.clocked = t.clocked ++ [q.bitAt i] ∧
      t'.dev = (t.dev.clock (q.bitAt i)).1 ∧ t'.tdoDataCount = t.tdoDataCount + 1 ∧
      (t.dev.BitCells → ∀ j, t'.tdoData.bit j =
        t.tdoData.bit j ⊔ if j = i then (t.dev.clock (q.bitAt i)).2.tdo.getLsbD 0 else ⊥) := by
  have hbyte : i / 8 < dataSizeBytes := by
    rw [capacity] at hi
    omega
  have hi32 : (BitVec.ofNat 32 i).toNat = i := by
    rw [capacity_eq] at hi
    rw [BitVec.toNat_ofNat, Nat.mod_eq_of_lt (by omega)]
  have htms := q.tmsData.load?_of_lt hbyte
  have htdi := q.tdiData.load?_of_lt hbyte
  obtain ⟨tdoData, htdo, -⟩ := t.tdoData.bit_orAt (t.dev.clock (q.bitAt i)).2.tdo hbyte
  refine ⟨⟨tdoData, t.tdoDataCount + 1, (t.dev.clock (q.bitAt i)).1,
    t.clocked ++ [q.bitAt i]⟩, ?_, rfl, rfl, rfl, ?_⟩
  · rw [clockBit, hi32, htms, htdi]
    simp only [access, bind, Except.bind, shiftRight_and_one, ← Buf.bit_of_load? htms,
      ← Buf.bit_of_load? htdi, ne_zero_of_bit, setWidth_of_bit]
    have htdo' : t.tdoData.orAt i (t.dev.step (q.tmsData.bit i) (cbit (q.tdiData.bit i))).2.tdo =
        some tdoData := htdo
    rw [htdo']
    rfl
  · -- an answer that is a bit reaches no other position of its byte
    intro hcells j
    obtain ⟨b, hb⟩ := hcells.tdo (q.bitAt i)
    obtain ⟨c, hc, hbit⟩ := t.tdoData.bit_orAt_bit (v := b) hb hbyte
    rw [htdo] at hc
    cases hc
    rw [hbit j, hb, JtagTapController.cbit_getLsbD]
    by_cases hj : j = i
    · rw [if_pos hj]
      simp [hj]
    · rw [if_neg hj]
      simp [hj]

/-- **What the loop of a flush does**: it clocks the queue through the controller,
counts its bits, and or-s the answers into `tdo_data`. -/
theorem transmit_ok (s : State) (h : s.queue.count ≤ capacity) :
    ∃ t, transmit s = .ok t ∧ t.clocked = s.queue.bits ∧ t.dev = s.dev.run s.queue.bits ∧
      t.tdoDataCount = s.tdoDataCount + s.queue.tdiDataCount ∧
      (s.dev.BitCells → ∀ j, t.tdoData.bit j =
        s.tdoData.bit j ⊔ laidOut (s.dev.tdoBits s.queue.bits) 0 j) := by
  have hlen : ∀ k ≤ s.queue.count, (s.queue.bits.take k).length = k := by
    intro k hk
    rw [List.length_take, Queue.length_bits, Nat.min_eq_left hk]
  -- the invariant: after `k` iterations the first `k` pairs of the queue have been clocked
  obtain ⟨t, hok, hI⟩ := forLoop_rule (d := Fault.diverges) (f := clockBit s.queue)
    (I := fun k t => t.clocked = s.queue.bits.take k ∧ t.dev = s.dev.run (s.queue.bits.take k) ∧
      t.tdoDataCount = s.tdoDataCount + BitVec.ofNat 32 k ∧
      (s.dev.BitCells → ∀ j, t.tdoData.bit j =
        s.tdoData.bit j ⊔ laidOut (s.dev.tdoBits (s.queue.bits.take k)) 0 j))
    (show s.queue.count < 2 ^ 32 from s.queue.tdiDataCount.isLt)
    (s := ⟨s.tdoData, s.tdoDataCount, s.dev, []⟩)
    ⟨rfl, rfl, by simp, fun _ j => (sup_bot_eq _).symm⟩
    (by
      rintro k hk t ⟨hclocked, hdev, hcount, htdo⟩
      obtain ⟨t', hok, hclocked', hdev', hcount', htdo'⟩ :=
        clockBit_ok s.queue (lt_of_lt_of_le hk h) t
      refine ⟨t', hok, by rw [hclocked', hclocked, Queue.take_bits_succ _ hk], ?_,
        by rw [hcount', hcount, Queue.count_succ], fun hcells j => ?_⟩
      · rw [hdev', hdev, Queue.take_bits_succ _ hk, JtagTapController.run_append]
        rfl
      · have hrun : t.dev.BitCells := by
          rw [hdev]
          exact hcells.run _
        rw [htdo' hrun j, htdo hcells j, hdev, Queue.take_bits_succ _ hk,
          JtagTapController.tdoBits_append,
          JtagTapController.tdoBits_singleton, laidOut_append_singleton,
          JtagTapController.length_tdoBits, hlen k hk.le, Nat.zero_add, sup_assoc])
  obtain ⟨hclocked, hdev, hcount, htdo⟩ := hI
  rw [Queue.take_bits_count] at hclocked hdev htdo
  rw [Queue.ofNat_count] at hcount
  exact ⟨t, hok, hclocked, hdev, hcount, htdo⟩

/-- **The loop of the dummy plugin meets the contract**, and always ends. -/
theorem contract : Plugin.Contract transmit (fun _ => True) (fun _ _ => True) where
  ends s hcap _ _ := by
    obtain ⟨t, ht, -⟩ := transmit_ok s hcap
    exact ⟨t, ht⟩
  ok s t hcap _ ht := by
    obtain ⟨t', ht', hclocked, -, hcount, -⟩ := transmit_ok s hcap
    cases ht.symm.trans ht'
    exact ⟨trivial, hclocked, hcount⟩
  error s e hcap _ he := by
    obtain ⟨t, ht, -⟩ := transmit_ok s hcap
    rw [ht] at he
    cases he

/-! ### The plugin is a queue in front of the controller -/

/-- The globals as the loader leaves them: nothing is queued, all buffers are zero, the
controller is freshly constructed. -/
structure Fresh (s : State) : Prop where
  queue : s.queue = .empty
  tdoData : s.tdoData = .zero
  tdoDataCount : s.tdoDataCount = 0
  dev : s.dev = .init

/-- **The refinement**: the queue holds the pending pairs, the device is the machine,
and there is nothing in `tdo_data`; the callbacks are the ones of `s₀`. -/
structure Refines (s₀ s : State) (t : Batch.State JtagTapController (Bool × Bool)) : Prop where
  serverOps : s.serverOps = s₀.serverOps
  serverOpsData : s.serverOpsData = s₀.serverOpsData
  wf : s.queue.Wf
  bits : s.queue.bits = t.pending
  tdoData : s.tdoData = .zero
  tdoDataCount : s.tdoDataCount = 0
  dev : s.dev = t.machine
  cells : t.machine.BitCells

/-- **What the host sees of one call**: a clock call makes no callback; a flush that
feeds the pairs `is` and is answered `os` makes two, first `p_op_store_tdo` with the
number of pairs and a buffer that holds the answers and is zero past them, then
`p_op_indicate_flush`. -/
def Shows (s₀ : State) (out : Out) : Option (List (Bool × Bool) × List StepOut) → Prop
  | none => out.callbacks = []
  | some (is, os) =>
    ∃ buf count, out.callbacks =
        [.storeTdo s₀.serverOps.pOpStoreTdo s₀.serverOpsData buf count,
          .indicateFlush s₀.serverOps.pOpIndicateFlush s₀.serverOpsData] ∧
      count.toNat = is.length ∧ ∀ j, cbit (buf.bit j) = (os.map StepOut.tdo).getD j 0

/-- The specification of a call: the queue in front of the controller. -/
abbrev spec (t : Batch.State JtagTapController (Bool × Bool)) (call : HostCall) :
    Batch.State JtagTapController (Bool × Bool) × Option (List (Bool × Bool) × List StepOut) :=
  Batch.exec JtagTapController.clock t call.cmd

/-- A call of a session of bits, that fits into what is left of the queue. -/
def Allowed (t : Batch.State JtagTapController (Bool × Bool)) (call : HostCall) : Prop :=
  call.Plain ∧ ∀ c, call = .clock c → t.pending.length + c.len ≤ capacity

namespace Refines

variable {s₀ s : State} {t : Batch.State JtagTapController (Bool × Bool)}

theorem installed (h : Refines s₀ s t) (h₀ : s₀.Installed) : s.Installed where
  store := by
    rw [h.serverOps]
    exact h₀.store
  indicate := by
    rw [h.serverOps]
    exact h₀.indicate

theorem bitCells (h : Refines s₀ s t) : s.dev.BitCells := by
  rw [h.dev]
  exact h.cells

/-- **Queueing refines putting**: a clock call that fits appends the pairs it denotes to
the pending ones, and is not seen by the host. -/
theorem clock (h : Refines s₀ s t) {c : ClockCall} (hbits : c.IsBits)
    (hfit : t.pending.length + c.len ≤ capacity) :
    ∃ s' out, step s (.clock c) = .ok (s', out) ∧ Refines s₀ s' (spec t (.clock c)).1 ∧
      Shows s₀ out (spec t (.clock c)).2 := by
  have hroom : s.queue.count + c.len ≤ capacity := by
    rwa [← Queue.length_bits, h.bits]
  obtain ⟨q, hok, happ⟩ := ClockCall.exec_appends hbits hroom
  refine ⟨{ s with queue := q }, ⟨c.ret, [], []⟩, Plugin.step_clock hok, ?_, rfl⟩
  exact
    { serverOps := h.serverOps
      serverOpsData := h.serverOpsData
      wf := h.wf.append happ (by rwa [ClockCall.length_bits])
      bits := (h.wf.bits_append happ).trans (congrArg (· ++ c.bits) h.bits)
      tdoData := h.tdoData
      tdoDataCount := h.tdoDataCount
      dev := h.dev
      cells := h.cells }

/-- **A flush refines feeding the machine**: the pending pairs are clocked, and their
answers are what `p_op_store_tdo` is given. -/
theorem flush (h : Refines s₀ s t) (h₀ : s₀.Installed) :
    ∃ s' out, step s (.flush .silent) = .ok (s', out) ∧
      Refines s₀ s' (spec t (.flush .silent)).1 ∧ Shows s₀ out (spec t (.flush .silent)).2 := by
  have hcells := h.bitCells
  obtain ⟨tr, hok, -, hdev, hcount, htdo⟩ := transmit_ok s h.wf.count_le
  refine ⟨_, _, Plugin.doFlush_ok (h.installed h₀) hok, ?_, tr.tdoData, tr.tdoDataCount,
    ?_, ?_, ?_⟩
  · exact
      { serverOps := h.serverOps
        serverOpsData := h.serverOpsData
        wf := Queue.wf_empty
        bits := rfl
        tdoData := rfl
        tdoDataCount := rfl
        dev := by
          change tr.dev = t.machine.run t.pending
          rw [hdev, h.dev, h.bits]
        cells := h.cells.run _ }
  · rw [Plugin.callbacks, h.serverOps, h.serverOpsData]
  · have hzero : tr.tdoDataCount = s.queue.tdiDataCount := by
      rw [hcount, h.tdoDataCount]
      exact BitVec.zero_add _
    rw [hzero, ← h.bits, Queue.length_bits, Queue.count]
  · -- the answers have been or-ed into a buffer that was zero
    intro j
    have hanswers : (Mealy.outputs JtagTapController.clock t.machine t.pending).map StepOut.tdo =
        (s.dev.tdoBits s.queue.bits).map cbit := by
      rw [← hcells.tdos_eq, h.dev, h.bits]
      rfl
    rw [hanswers, htdo hcells j, h.tdoData, Buf.bit_zero, laidOut_zero]
    simp only [List.getD_eq_getElem?_getD, List.getElem?_map]
    rcases (s.dev.tdoBits s.queue.bits)[j]? with _ | b
    · rfl
    · cases b <;> rfl

end Refines

/-- **One call refines one request.** -/
theorem step_refines {s₀ : State} (h₀ : s₀.Installed) (s : State)
    (t : Batch.State JtagTapController (Bool × Bool)) (call : HostCall) (hR : Refines s₀ s t)
    (hcall : Allowed t call) :
    ∃ s' out, step s call = .ok (s', out) ∧ Refines s₀ s' (spec t call).1 ∧
      Shows s₀ out (spec t call).2 := by
  obtain ⟨hplain, hfit⟩ := hcall
  cases call with
  | clock c => exact hR.clock hplain (hfit c rfl)
  | flush re =>
    obtain rfl : re = .silent := hplain
    exact hR.flush h₀
  | initDev desc ops parent => exact hplain.elim
  | doClose => exact hplain.elim

/-- A session of bits that fits is allowed throughout. -/
theorem along_allowed : ∀ {calls : List HostCall}
    {t : Batch.State JtagTapController (Bool × Bool)}, (∀ call ∈ calls, call.Plain) →
    HostCall.Fits t.pending.length calls → Mealy.Along spec Allowed t calls
  | [], _, _, _ => trivial
  | call :: calls, t, hplain, hfits => by
    have hhead := hplain call (List.mem_cons_self ..)
    have htail : ∀ call ∈ calls, call.Plain := fun c hc => hplain c (List.mem_cons_of_mem _ hc)
    cases call with
    | clock c =>
      refine ⟨⟨hhead, fun c' hc' => ?_⟩, along_allowed htail ?_⟩
      · cases hc'
        exact hfits.1
      · have hlen : (spec t (.clock c)).1.pending.length = t.pending.length + c.len := by
          simp [spec, HostCall.cmd, Batch.exec]
        rw [hlen]
        exact hfits.2
    | flush re =>
      obtain rfl : re = .silent := hhead
      exact ⟨⟨rfl, fun c hc => by cases hc⟩, along_allowed htail hfits.2.2⟩
    | initDev desc ops parent => exact hhead.elim
    | doClose => exact hhead.elim

/-- The bits a call delivers are the answers it shows. -/
theorem delivered_of_shows {s₀ : State} {out : Out}
    {a : Option (List (Bool × Bool) × List StepOut)} (h : Shows s₀ out a)
    (hlen : ∀ is os, a = some (is, os) → os.length = is.length) :
    out.delivered.map cbit = (a.elim [] Prod.snd).map StepOut.tdo := by
  cases a with
  | none =>
    rw [Out.delivered, show out.callbacks = [] from h]
    rfl
  | some p =>
    obtain ⟨is, os⟩ := p
    obtain ⟨buf, count, hcb, hcount, hbit⟩ := h
    have hos : count.toNat = os.length := by rw [hcount, hlen is os rfl]
    rw [Out.delivered, hcb]
    simp only [List.flatMap_cons, Callback.delivered, List.flatMap_nil, List.append_nil,
      Option.elim_some, List.map_map]
    refine List.ext_getElem (by simp [hos]) fun j hj hj' => ?_
    have hjo : j < os.length := by simpa using hj'
    rw [List.getElem_map, List.getElem_range, Function.comp_apply, hbit j,
      List.getD_eq_getElem _ _ (by simpa using hjo)]

/-- The bits the calls of a session deliver are the answers they show. -/
theorem delivered_of_forall₂ {s₀ : State} {outs : List Out}
    {as : List (Option (List (Bool × Bool) × List StepOut))} (h : List.Forall₂ (Shows s₀) outs as)
    (hlen : ∀ is os, some (is, os) ∈ as → os.length = is.length) :
    (outs.flatMap Out.delivered).map cbit = (Batch.delivered as).map StepOut.tdo := by
  induction h with
  | nil => rfl
  | cons hshows _ ih =>
    rw [List.flatMap_cons, List.map_append, ih fun is os hmem => hlen is os (.tail _ hmem),
      delivered_of_shows hshows fun is os ha => hlen is os (ha ▸ .head _), Batch.delivered,
      Batch.delivered, List.flatMap_cons, List.map_append]

/-- What the queue in front of a freshly constructed controller answers to a session:
for every flush, the pairs it feeds and the answers of the controller to them. -/
def answers (calls : List HostCall) : List (Option (List (Bool × Bool) × List StepOut)) :=
  Mealy.outputs (Batch.exec JtagTapController.clock) ⟨[], .init⟩ (calls.map HostCall.cmd)

/-- **Whole sessions.** From cleared globals, a sequence of clock calls with words
that are bits and of flushes whose callbacks do not call back, never with more bits
queued than there is room for, runs without a fault. Every call shows what the queue
in front of a freshly constructed controller answers to it (`JtagHw.Dummy.Shows`);
all the TDO bits delivered, put together, are one run of that controller over all
that has been flushed; and that, followed by what is still queued, is the stream the
calls denote. -/
theorem whole_session {s : State} (hs : Fresh s) (hinst : s.Installed) {calls : List HostCall}
    (hplain : ∀ call ∈ calls, call.Plain) (hfits : HostCall.Fits 0 calls) :
    ∃ s' outs, run s calls = .ok (s', outs) ∧
      List.Forall₂ (Shows s) outs (answers calls) ∧
      (outs.flatMap Out.delivered).map cbit =
        JtagTapController.init.tdos (Batch.fed (answers calls)) ∧
      Batch.fed (answers calls) ++ s'.queue.bits = Batch.collected (calls.map HostCall.cmd) := by
  have h0 : Refines s s ⟨[], .init⟩ :=
    { serverOps := rfl
      serverOpsData := rfl
      wf := hs.queue ▸ Queue.wf_empty
      bits := by rw [hs.queue]; rfl
      tdoData := hs.tdoData
      tdoDataCount := hs.tdoDataCount
      dev := hs.dev
      cells := JtagTapController.bitCells_init }
  obtain ⟨s', outs, hrun, hR, hshows⟩ := Fallible.run_simulates (step_refines hinst) calls s
    ⟨[], .init⟩ h0 (along_allowed hplain hfits)
  -- the requests the calls are mapped to are those of the batch machine
  obtain ⟨houts, hfinal⟩ :=
    Mealy.run_map (Batch.exec JtagTapController.clock) HostCall.cmd ⟨[], .init⟩ calls
  rw [houts] at hshows
  rw [hfinal] at hR
  refine ⟨s', outs, hrun, hshows, ?_, ?_⟩
  · rw [delivered_of_forall₂ hshows (Batch.length_answers _ _ _), answers,
      (Batch.delivered_outputs ..).1]
    rfl
  · rw [hR.bits]
    exact Batch.fed_append_pending ..

/-- The globals after the plugin has been loaded into cleared memory and opened. -/
def opened : State := ⟨⟨1, 2⟩, 3, .empty, .zero, 0, .init⟩

/-- A session with two flushes: the way to `SHIFT_DR`, then eight clocks there. -/
def twoFlushes : List HostCall :=
  [.clock (.raw 1 0 5), .clock (.multiple 0 (fun _ => 0x55) 1), .flush .silent,
    .clock (.raw 1 1 1), .clock (.raw 0 0 2), .clock (.multiple 0 (fun _ => 0xC5) 8),
    .flush .silent]

theorem whole_session_twoFlushes :
    ∃ s' outs, run opened twoFlushes = .ok (s', outs) ∧
      List.Forall₂ (Shows opened) outs (answers twoFlushes) ∧
      (outs.flatMap Out.delivered).map cbit =
        JtagTapController.init.tdos (Batch.fed (answers twoFlushes)) ∧
      Batch.fed (answers twoFlushes) ++ s'.queue.bits =
        Batch.collected (twoFlushes.map HostCall.cmd) :=
  whole_session ⟨rfl, rfl, rfl, rfl⟩ ⟨by decide, by decide⟩
    (by simp [twoFlushes, HostCall.Plain, ClockCall.IsBits])
    (by
      simp only [twoFlushes, HostCall.Fits, Reentry.silent, ClockCall.total_nil]
      decide)

end Dummy

end JtagHw
