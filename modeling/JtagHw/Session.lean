import JtagHw.Chip

/-!
# One session after the other

The queue, the callbacks and the pointer handed to them are globals, which one client
leaves to the next. `init_dev` exchanges the callbacks and the pointer, and `do_close` does
nothing at all; neither touches the queue. So what a client has queued and not flushed
is flushed by the next one, in front of its own bits.

A session is isolated from the one before (`JtagHw.Plugin.Isolated`) just if that one has left
nothing queued (`JtagHw.Plugin.Contract.isolated_iff`), and what a history of calls leaves
queued is what it has queued since its last flush (`JtagHw.HostCall.queuedAfter`).
-/

namespace JtagHw

open Fallible

namespace Plugin

variable {δ : Type*}

/-- **The next session is isolated** from what there was before the state `s`. For any new
parent, take a successful `init_dev`, clock calls whose words are bits, as many as there
is room for, and a flush, with a device that lets it end. The flush clocks exactly the
bits of these calls, and hands the new parent exactly as many. -/
def Isolated (transmit : Plugin δ → Except Fault (Transmitted δ))
    (Ends : δ → List (Bool × Bool) → Prop) (s : Plugin δ) : Prop :=
  ∀ (ops : ServerOps) (parent : Ptr) (cs : List ClockCall), parent ≠ 0 → ops.pOpStoreTdo ≠ 0 →
    ops.pOpIndicateFlush ≠ 0 → (∀ c ∈ cs, c.IsBits) → ClockCall.total cs ≤ capacity →
    Ends s.dev (cs.flatMap ClockCall.bits) →
    ∃ s' outs out, run transmit s
        (.initDev "bus-instance" ops parent :: (cs.map .clock ++ [.flush .silent])) =
          .ok (s', outs ++ [out]) ∧
      outs.flatMap Out.clocked = [] ∧ out.clocked = cs.flatMap ClockCall.bits ∧
      ∃ buf count, out.callbacks =
          [.storeTdo ops.pOpStoreTdo parent buf count,
            .indicateFlush ops.pOpIndicateFlush parent] ∧
        count.toNat = ClockCall.total cs

variable {transmit : Plugin δ → Except Fault (Transmitted δ)} {J : δ → Prop}
  {Ends : δ → List (Bool × Bool) → Prop} {s : Plugin δ}

/-- A successful `init_dev`. -/
theorem step_initDev (ops : ServerOps) {parent : Ptr} (hparent : parent ≠ 0) :
    step transmit s (.initDev "bus-instance" ops parent) =
      .ok ({ s with serverOps := ops, serverOpsData := parent }, ⟨some 1, [], []⟩) := by
  rw [step, initDev_accepted ⟨hparent, rfl⟩]

/-- **A session is isolated just if nothing is queued before it.** -/
theorem Contract.isolated_iff (hC : Contract transmit J Ends) (h : Sound J s) (hc : Clean s)
    (hnil : Ends s.dev []) : Isolated transmit Ends s ↔ s.queue.count = 0 := by
  constructor
  · -- a session that queues nothing
    intro hisolated
    obtain ⟨s', outs, out, hrun, -, hclocked, -⟩ := hisolated ⟨1, 2⟩ 3 [] (by decide) (by decide)
      (by decide) (fun c hc => absurd hc List.not_mem_nil) (Nat.zero_le _) hnil
    obtain ⟨s₁, out₁, os, hinit, hrest, houts⟩ := run_cons_inv hrun
    rw [step_initDev _ (by decide)] at hinit
    cases hinit
    obtain ⟨s₂, out₂, os', hflush, hend, rfl⟩ := run_cons_inv hrest
    cases hend
    obtain ⟨-, -, -, hbits, -⟩ := hC.flush_inv (s := { s with
      serverOps := ⟨1, 2⟩, serverOpsData := 3 }) ⟨h.count_le, h.dev⟩ hflush
    have hlast : out = out₂ := by
      have hlast' := congrArg List.getLast? houts
      simpa using hlast'
    rw [← hlast, hclocked] at hbits
    have hlen := congrArg List.length hbits
    rw [Queue.length_bits] at hlen
    exact hlen.symm
  · intro h0 ops parent cs hparent hstore hindicate hcs hfit hends
    obtain ⟨s', outs, out, hrun, houts, hclocked, hcb⟩ := hC.flush_queued
      (s := { s with serverOps := ops, serverOpsData := parent }) ⟨h.count_le, h.dev⟩
      ⟨hc.queue, hc.tdoDataCount⟩ h0 ⟨hstore, hindicate⟩ hcs hfit hends
    exact ⟨s', ⟨some 1, [], []⟩ :: outs, out, run_cons_ok (step_initDev ops hparent) hrun, houts,
      hclocked, hcb⟩

/-- **The session after a history of calls** is isolated just if the history has left
nothing queued. -/
theorem Contract.isolated_after (hC : Contract transmit J Ends) (hnil : ∀ d, J d → Ends d [])
    (hs : s.queue = .empty) (hs' : s.tdoDataCount = 0) (hdev : J s.dev) {history : List HostCall}
    {s₁ : Plugin δ} {outs : List Out}
    (hrun : run transmit s (history ++ [.doClose]) = .ok (s₁, outs)) :
    Isolated transmit Ends s₁ ↔ HostCall.queuedAfter 0 history = 0 := by
  have hsound : Sound J s := ⟨by rw [hs]; exact Nat.zero_le _, hdev⟩
  obtain ⟨h₁, hcount, hclean⟩ := hC.run_ok hsound hrun
  rw [HostCall.queuedAfter_append, hs] at hcount
  rw [hC.isolated_iff h₁ (hclean ⟨fun _ => hs, hs'⟩) (hnil _ h₁.dev), hcount]
  rfl

end Plugin

/-- **Session isolation.** Take a history of calls from a clear queue that ends in a
`do_close`. For both plugins, the session after it is isolated just if the history has
left nothing queued – for the hardware plugin, with an idle context to begin with. -/
theorem session_isolation {δ : Type} (L : UsbLink δ) {s : Dummy.State} {r : Otma.State δ}
    (hs : s.queue = .empty) (hs' : s.tdoDataCount = 0) (hr : r.queue = .empty)
    (hr' : r.tdoDataCount = 0) (hctx : Otma.HasIdle r.dev) (history : List HostCall) :
    (∀ s₁ outs, Dummy.run s (history ++ [.doClose]) = .ok (s₁, outs) →
      (Plugin.Isolated Dummy.transmit (fun _ _ => True) s₁ ↔
        HostCall.queuedAfter 0 history = 0)) ∧
    (∀ r₁ outs, Otma.run L r (history ++ [.doClose]) = .ok (r₁, outs) →
      (Plugin.Isolated (Otma.transmit L) (Otma.Ends L) r₁ ↔
        HostCall.queuedAfter 0 history = 0)) :=
  ⟨fun _ _ => Dummy.contract.isolated_after (fun _ _ => trivial) hs hs' trivial,
    fun _ _ => (Otma.contract L).isolated_after (fun _ => Otma.ends_nil) hr hr' hctx⟩

/-- A client that flushes the five bits that it has queued. -/
def flushesFive : List HostCall :=
  [.initDev "bus-instance" ⟨1, 2⟩ 3, .clock (.raw 0 1 5), .flush .silent]

/-- Its session comes to its end. -/
theorem Plugin.Contract.run_flushesFive {δ : Type}
    {transmit : Plugin δ → Except Fault (Transmitted δ)} {J : δ → Prop}
    {Ends : δ → List (Bool × Bool) → Prop} {s : Plugin δ}
    (hC : Plugin.Contract transmit J Ends) (hs : s.queue = .empty) (hs' : s.tdoDataCount = 0)
    (hdev : J s.dev) (hends : ∀ l, Ends s.dev l) :
    ∃ s₁ outs, Plugin.run transmit s (flushesFive ++ [.doClose]) = .ok (s₁, outs) := by
  have hthree : (3 : Ptr) ≠ 0 := by decide
  have hempty : s.queue.count = 0 := by rw [hs]; rfl
  have hsound : Plugin.Sound J { s with serverOps := ⟨1, 2⟩, serverOpsData := 3 } :=
    ⟨by rw [hempty]; exact Nat.zero_le _, hdev⟩
  have hbits : ∀ c ∈ [ClockCall.raw 0 1 5], c.IsBits := by decide
  obtain ⟨s₁, outs, out, hrun, -⟩ := hC.flush_queued hsound ⟨fun _ => hs, hs'⟩ hempty
    ⟨show (1 : Ptr) ≠ 0 by decide, show (2 : Ptr) ≠ 0 by decide⟩ hbits (by decide +kernel)
    (hends _)
  exact ⟨_, _, run_cons_ok (Plugin.step_initDev _ hthree)
    (run_append_ok hrun (run_singleton rfl))⟩

theorem session_isolation_flushesFive :
    (∃ s₁ outs, Dummy.run Dummy.opened (flushesFive ++ [.doClose]) = .ok (s₁, outs) ∧
      Plugin.Isolated Dummy.transmit (fun _ _ => True) s₁) ∧
    ∃ r₁ outs, Otma.run Otma.perfectLink.toUsbLink (Otma.queued Otma.freshChip 0)
        (flushesFive ++ [.doClose]) = .ok (r₁, outs) ∧
      Plugin.Isolated (Otma.transmit Otma.perfectLink.toUsbLink)
        (Otma.Ends Otma.perfectLink.toUsbLink) r₁ := by
  have hidle : Otma.HasIdle (Otma.queued Otma.freshChip 0).dev := ⟨_, rfl, Otma.idle_openedCtx _⟩
  obtain ⟨hdummy, hotma⟩ := session_isolation Otma.perfectLink.toUsbLink (s := Dummy.opened)
    (r := Otma.queued Otma.freshChip 0) rfl rfl rfl rfl hidle flushesFive
  obtain ⟨s₁, outs, hrun⟩ := Dummy.contract.run_flushesFive (s := Dummy.opened) rfl rfl trivial
    fun _ => trivial
  obtain ⟨r₁, outs', hrun'⟩ := (Otma.contract Otma.perfectLink.toUsbLink).run_flushesFive
    (s := Otma.queued Otma.freshChip 0) rfl rfl hidle
    (Otma.ends_of_perfect Otma.perfectLink_perfect rfl rfl ⟨rfl, rfl⟩)
  exact ⟨⟨s₁, outs, hrun, (hdummy s₁ outs hrun).mpr rfl⟩,
    r₁, outs', hrun', (hotma r₁ outs' hrun').mpr rfl⟩

/-- A client that leaves five bits behind. -/
def leavesFive : List HostCall := [.initDev "bus-instance" ⟨1, 2⟩ 3, .clock (.raw 0 1 5)]

/-- The five bits are clocked and reported in the next session, which has queued none. -/
theorem session_isolation_false_of_leavesFive :
    HostCall.queuedAfter 0 leavesFive = 5 ∧
      ∃ s₁ outs out s₂ buf,
        Dummy.run Dummy.opened (leavesFive ++ [.doClose]) = .ok (s₁, outs) ∧
        Dummy.run s₁ [.initDev "bus-instance" ⟨4, 5⟩ 6, .flush .silent] =
          .ok (s₂, [⟨some 1, [], []⟩, out]) ∧
        out.clocked = List.replicate 5 (false, true) ∧
        out.callbacks = [.storeTdo 4 6 buf 5, .indicateFlush 5 6] ∧
        ¬ Plugin.Isolated Dummy.transmit (fun _ _ => True) s₁ := by
  have hempty : Queue.empty.count + ClockCall.len (.raw 0 1 5) ≤ capacity := by decide +kernel
  obtain ⟨q, hq, happ⟩ := ClockCall.exec_appends (c := .raw 0 1 5) ⟨Or.inl rfl, Or.inr rfl⟩ hempty
  have hbits : q.bits = List.replicate 5 (false, true) := Queue.wf_empty.bits_append happ
  have hcount : q.tdiDataCount = 5 := BitVec.eq_of_toNat_eq happ.count_eq
  have hthree : (3 : Ptr) ≠ 0 := by decide
  have hsix : (6 : Ptr) ≠ 0 := by decide
  have hfirst : Dummy.run Dummy.opened (leavesFive ++ [.doClose]) =
      .ok (⟨⟨1, 2⟩, 3, q, .zero, 0, .init⟩,
        [⟨some 1, [], []⟩, ⟨none, [], []⟩, ⟨none, [], []⟩]) :=
    run_cons_ok (Plugin.step_initDev _ hthree)
      (run_cons_ok (Plugin.step_clock (by exact hq)) (run_singleton rfl))
  obtain ⟨t, ht, hclocked, -, hcount', -⟩ := Dummy.transmit_ok ⟨⟨4, 5⟩, 6, q, .zero, 0, .init⟩
    (by rw [happ.count_eq]; decide +kernel)
  have hinstalled : Plugin.Installed (⟨⟨4, 5⟩, 6, q, .zero, 0, .init⟩ : Dummy.State) :=
    ⟨show (4 : Ptr) ≠ 0 by decide, show (5 : Ptr) ≠ 0 by decide⟩
  have hsecond : Dummy.run ⟨⟨1, 2⟩, 3, q, .zero, 0, .init⟩
      [.initDev "bus-instance" ⟨4, 5⟩ 6, .flush .silent] = .ok _ :=
    run_cons_ok (Plugin.step_initDev _ hsix) (run_singleton (Plugin.doFlush_ok hinstalled ht))
  refine ⟨rfl, _, _, _, _, t.tdoData, hfirst, hsecond, hclocked.trans hbits, ?_, fun h => ?_⟩
  · rw [Plugin.callbacks, hcount', hcount]
    rfl
  · rw [Dummy.contract.isolated_after (fun _ _ => trivial) rfl rfl trivial hfirst] at h
    cases h

end JtagHw
