import JtagHw.Chip

/-!
# Bits queued from a callback

`do_flush` hands control to the host twice, in `p_op_store_tdo` and in
`p_op_indicate_flush`, and the host may queue bits both times. In between, the count is
zeroed and the buffers are cleared. So the two callbacks are not alike: what is queued in
the second one is what the next flush finds, and what is queued in the first one, behind
the bits that have just been clocked, is cleared away with them.

Nothing is lost just if nothing is queued in the first one
(`JtagHw.Plugin.Contract.kept_iff`).
-/

namespace JtagHw

open Fallible

/-- The pairs that the clock calls of the callbacks denote, in the order of the calls. -/
def Reentry.bits (re : Reentry) : List (Bool × Bool) :=
  (re.atStore ++ re.atIndicate).flatMap ClockCall.bits

/-- The clock calls of the callbacks have words that are bits. -/
def Reentry.IsBits (re : Reentry) : Prop := ∀ c ∈ re.atStore ++ re.atIndicate, c.IsBits

instance (re : Reentry) : Decidable re.IsBits :=
  inferInstanceAs (Decidable (∀ c ∈ re.atStore ++ re.atIndicate, c.IsBits))

/-- There is room for the bits of the callbacks, if the first one finds `n` bits queued. -/
def Reentry.Fits (n : ℕ) (re : Reentry) : Prop :=
  n + ClockCall.total re.atStore ≤ capacity ∧ ClockCall.total re.atIndicate ≤ capacity

namespace Plugin

variable {δ : Type*}

/-- **Nothing that the callbacks `re` of a flush have queued is lost**, in the state that the
flush leaves: it is what is queued, in order. And the next flush, whatever is queued before
it and in its own callbacks, clocks that, once, and then what has been queued since; it
leaves nothing of it queued. -/
structure Kept (transmit : Plugin δ → Except Fault (Transmitted δ))
    (Ends : δ → List (Bool × Bool) → Prop) (re : Reentry) (s : Plugin δ) : Prop where
  queued : s.queue.bits = re.bits
  next : ∀ (cs : List ClockCall) (re' : Reentry), (∀ c ∈ cs, c.IsBits) →
    s.queue.count + ClockCall.total cs ≤ capacity →
    re'.Fits (s.queue.count + ClockCall.total cs) →
    Ends s.dev (re.bits ++ cs.flatMap ClockCall.bits) →
    ∃ s' outs out, run transmit s (cs.map .clock ++ [.flush re']) = .ok (s', outs ++ [out]) ∧
      outs.flatMap Out.clocked = [] ∧ out.clocked = re.bits ++ cs.flatMap ClockCall.bits ∧
      s'.queue.count = ClockCall.total re'.atIndicate

namespace Contract

variable {transmit : Plugin δ → Except Fault (Transmitted δ)} {J : δ → Prop}
  {Ends : δ → List (Bool × Bool) → Prop} {s s' : Plugin δ}

/-- **A flush whose callbacks fit ends**, wherever the device lets it. -/
theorem flush_ends (hC : Contract transmit J Ends) (h : Sound J s) (hs : s.Installed)
    {re : Reentry} (hfit : re.Fits s.queue.count) (hends : Ends s.dev s.queue.bits) :
    ∃ s' out, doFlush transmit re s = .ok (s', out) := by
  obtain ⟨t, ht⟩ := hC.ends s h.count_le h.dev hends
  obtain ⟨q, hok⟩ := doFlush_fits hs ht hfit.1 hfit.2
  exact ⟨_, _, hok⟩

/-- What a flush that ends leaves queued is what the second callback has queued. -/
theorem flush_leaves {re : Reentry} (hre : re.IsBits) {out : Out}
    (hok : doFlush transmit re s = .ok (s', out)) :
    s'.queue.Wf ∧ s'.queue.bits = re.atIndicate.flatMap ClockCall.bits ∧ s'.Installed := by
  obtain ⟨t, q, -, hq, rfl, -⟩ := doFlush_inv hok
  obtain ⟨hstore, hindicate, -, hq'⟩ := reenter_inv hq
  obtain ⟨q₂, hok₂, hwf, hbits⟩ := ClockCall.execAll_append
    (fun c hc => hre c (List.mem_append_right _ hc)) Queue.wf_empty
    (ClockCall.execAll_inv Queue.count_empty_le hq').2
  cases hq'.symm.trans hok₂
  exact ⟨hwf, hbits, hstore, hindicate⟩

/-- **Nothing is lost just if nothing is queued in the first callback.** -/
theorem kept_iff (hC : Contract transmit J Ends) (h : Sound J s) {re : Reentry} (hre : re.IsBits)
    {out : Out} (hok : doFlush transmit re s = .ok (s', out)) :
    Kept transmit Ends re s' ↔ ClockCall.total re.atStore = 0 := by
  obtain ⟨hwf, hbits, hinst⟩ := flush_leaves hre hok
  obtain ⟨h', -⟩ := hC.flush_inv h hok
  have hlen := ClockCall.length_flatMap_bits re.atStore
  constructor
  · intro hkept
    have hsame := hkept.queued.symm.trans hbits
    rw [Reentry.bits, List.flatMap_append] at hsame
    rw [← hlen, List.append_left_eq_self.mp hsame]
    rfl
  · intro hnone
    have hqueued : s'.queue.bits = re.bits := by
      rw [hnone, List.length_eq_zero_iff] at hlen
      rw [hbits, Reentry.bits, List.flatMap_append, hlen, List.nil_append]
    -- the next flush clocks what is left over, and then what is queued after it
    refine ⟨hqueued, fun cs re' hcs hfit hfit' hends => ?_⟩
    obtain ⟨q, hrun, hqwf, hq⟩ := run_clocks transmit hcs hwf hfit
    have hcount : q.count = s'.queue.count + ClockCall.total cs := by
      rw [← Queue.length_bits, hq, List.length_append, Queue.length_bits,
        ClockCall.length_flatMap_bits]
    have hsound : Sound J { s' with queue := q } := ⟨hqwf.count_le, h'.dev⟩
    rw [hqueued] at hq
    obtain ⟨s₂, out₂, hflush⟩ := hC.flush_ends hsound ⟨hinst.store, hinst.indicate⟩
      (by rw [hcount]; exact hfit') (by rw [hq]; exact hends)
    obtain ⟨-, -, hleft, hclocked, -⟩ := hC.flush_inv hsound hflush
    exact ⟨s₂, _, out₂, run_append_ok hrun (run_singleton hflush), by simp,
      hclocked.trans hq, hleft⟩

end Contract

end Plugin

/-- **Bits queued from a callback.** Take a flush whose callbacks make any number of clock
calls with words that are bits, and that fit. In the dummy plugin it ends; in the hardware
plugin it does if the exchanges come through that the MPSSE layer makes itself. In both,
when it has ended, nothing that the callbacks have queued is lost just if nothing has been
queued in `p_op_store_tdo`. -/
theorem callbacks_kept {δ : Type} (L : UsbLink δ) {s : Dummy.State} {r : Otma.State δ}
    {re : Reentry} (hre : re.IsBits) (hs : s.Installed) (hr : r.Installed)
    (hscap : s.queue.count ≤ capacity) (hrcap : r.queue.count ≤ capacity)
    (hsfit : re.Fits s.queue.count) (hrfit : re.Fits r.queue.count)
    (hctx : r.dev = none ∨ Otma.HasIdle r.dev) :
    ((∃ s' out, Dummy.doFlush re s = .ok (s', out)) ∧
      ∀ s' out, Dummy.doFlush re s = .ok (s', out) →
        (Plugin.Kept Dummy.transmit (fun _ _ => True) re s' ↔ ClockCall.total re.atStore = 0)) ∧
    (Otma.Ends L r.dev r.queue.bits → ∃ r' out, Otma.doFlush L re r = .ok (r', out)) ∧
    ∀ r' out, Otma.doFlush L re r = .ok (r', out) →
      (Plugin.Kept (Otma.transmit L) (Otma.Ends L) re r' ↔ ClockCall.total re.atStore = 0) :=
  ⟨⟨Dummy.contract.flush_ends ⟨hscap, trivial⟩ hs hsfit trivial,
      fun _ _ => Dummy.contract.kept_iff ⟨hscap, trivial⟩ hre⟩,
    (Otma.contract_or_null L).flush_ends ⟨hrcap, hctx⟩ hr hrfit,
    fun _ _ => (Otma.contract_or_null L).kept_iff ⟨hrcap, hctx⟩ hre⟩

/-- Five bits queued in the second callback. -/
def queuesLater : Reentry := ⟨[], [.raw 0 1 5]⟩

/-- Five bits queued in the first callback. -/
def queuesAtStore : Reentry := ⟨[.raw 0 1 5], []⟩

theorem callbacks_kept_queuesLater :
    ∃ s' out, Dummy.doFlush queuesLater Dummy.opened = .ok (s', out) ∧
      Plugin.Kept Dummy.transmit (fun _ _ => True) queuesLater s' := by
  have hre : queuesLater.IsBits := by decide
  have hfits : queuesLater.Fits 0 := ⟨Nat.zero_le _, by decide +kernel⟩
  obtain ⟨⟨⟨s', out, hok⟩, hkept⟩, -⟩ := callbacks_kept Otma.perfectLink.toUsbLink
    (s := Dummy.opened) (r := Otma.queued Otma.freshChip 0) hre
    ⟨by decide, by decide⟩ ⟨by decide, by decide⟩ (Nat.zero_le _) (Nat.zero_le _) hfits hfits
    (Or.inr ⟨_, rfl, Otma.idle_openedCtx _⟩)
  exact ⟨s', out, hok, (hkept s' out hok).mpr rfl⟩

/-- They are gone when the flush returns. -/
theorem callbacks_kept_false_of_queuesAtStore :
    ∃ s' out, Dummy.doFlush queuesAtStore Dummy.opened = .ok (s', out) ∧ s'.queue.bits = [] ∧
      queuesAtStore.bits = List.replicate 5 (false, true) ∧
      ¬ Plugin.Kept Dummy.transmit (fun _ _ => True) queuesAtStore s' := by
  have hre : queuesAtStore.IsBits := by decide
  have hsound : Plugin.Sound (fun _ => True) Dummy.opened := ⟨Nat.zero_le _, trivial⟩
  have hfits : queuesAtStore.Fits Dummy.opened.queue.count :=
    ⟨by decide +kernel, Nat.zero_le _⟩
  obtain ⟨s', out, hok⟩ := Dummy.contract.flush_ends hsound ⟨by decide, by decide⟩ hfits trivial
  obtain ⟨-, hbits, -⟩ := Plugin.Contract.flush_leaves hre hok
  refine ⟨s', out, hok, hbits, by decide, fun hkept => ?_⟩
  rw [Dummy.contract.kept_iff hsound hre hok] at hkept
  exact absurd hkept (by decide)

end JtagHw
