import JtagHw.Plugin.Calls

/-!
# The contract of the loop of a flush

The two plugins differ in the loop of `do_flush` only, and most of what there is to say
about the calls of the host does not depend on what that loop does to the device. It is
enough that the loop meets a contract (`JtagHw.Plugin.Contract`): with no more bits queued
than there is room for, it stays within the buffers and ends wherever the device lets
it; and if it ends, it has handed all the queued bits to the device, and counted them.

For a plugin that meets the contract,

* the queue never counts more bits than there is room for, and always counts what the
  calls say (`JtagHw.Plugin.Contract.run_ok`, `JtagHw.HostCall.queuedAfter`);
* a queue that counts no bit is clear, whatever the words clocked before
  (`JtagHw.Plugin.Clean`), so that what is queued then is flushed exactly
  (`JtagHw.Plugin.Contract.flush_queued`).
-/

namespace JtagHw

open PackedBits CountedLoop Fallible

/-- The number of bits queued after calls that find `n` bits queued. -/
def HostCall.queuedAfter : ℕ → List HostCall → ℕ
  | n, [] => n
  | n, clock c :: calls => queuedAfter (n + c.len) calls
  | _, flush re :: calls => queuedAfter (ClockCall.total re.atIndicate) calls
  | n, initDev .. :: calls => queuedAfter n calls
  | n, doClose :: calls => queuedAfter n calls

theorem HostCall.queuedAfter_cons (n : ℕ) (call : HostCall) (calls : List HostCall) :
    queuedAfter n (call :: calls) = queuedAfter (queuedAfter n [call]) calls := by
  cases call <;> rfl

theorem HostCall.queuedAfter_append (n : ℕ) (calls calls' : List HostCall) :
    queuedAfter n (calls ++ calls') = queuedAfter (queuedAfter n calls) calls' := by
  induction calls generalizing n with
  | nil => rfl
  | cons call calls ih => rw [List.cons_append, queuedAfter_cons, ih, ← queuedAfter_cons]

/-! ### A queue that counts no bit -/

/-- A call for no bits changes nothing. -/
theorem ClockCall.exec_of_len_eq_zero (c : ClockCall) (q : Queue) (h : c.len = 0) :
    c.exec q = .ok q := by
  rw [exec_eq, h, forLoop_zero]

/-- A clock call keeps a queue clear that counts no bit. -/
theorem ClockCall.exec_clear {c : ClockCall} {q q' : Queue} (hq : q.count ≤ capacity)
    (hclear : q.count = 0 → q = .empty) (h : c.exec q = .ok q') (h0 : q'.count = 0) :
    q' = .empty := by
  obtain ⟨q₁, hok, hcount⟩ := c.exec_ok ((c.exec_ok_iff hq).mp ⟨q', h⟩)
  cases h.symm.trans hok
  have hlen : c.len = 0 := by omega
  rw [c.exec_of_len_eq_zero q hlen] at h
  cases h
  exact hclear h0

/-- So do several of them. -/
theorem ClockCall.execAll_clear : ∀ {cs : List ClockCall} {q q' : Queue}, q.count ≤ capacity →
    (q.count = 0 → q = .empty) → execAll cs q = .ok q' → q'.count = 0 → q' = .empty
  | [], _, _, _, hclear, h, h0 => by
    cases h
    exact hclear h0
  | c :: cs, q, q', hq, hclear, h, h0 => by
    rw [execAll] at h
    rcases hc : c.exec q with e | q₁ <;> simp only [hc] at h
    · cases h
    · obtain ⟨q₂, hok, hcount⟩ := c.exec_ok ((c.exec_ok_iff hq).mp ⟨q₁, hc⟩)
      cases hc.symm.trans hok
      have hfit := (c.exec_ok_iff hq).mp ⟨q₁, hc⟩
      exact execAll_clear (by omega) (fun h0 => exec_clear hq hclear hc h0) h h0

namespace Plugin

variable {δ : Type*}

/-- **The contract of the loop of `do_flush`.** `J` is an invariant of the device, and
`Ends d l` says that the device `d` lets the loop end that clocks the pairs `l`. -/
structure Contract (transmit : Plugin δ → Except Fault (Transmitted δ)) (J : δ → Prop)
    (Ends : δ → List (Bool × Bool) → Prop) : Prop where
  ends : ∀ s, s.queue.count ≤ capacity → J s.dev → Ends s.dev s.queue.bits →
    ∃ t, transmit s = .ok t
  ok : ∀ s t, s.queue.count ≤ capacity → J s.dev → transmit s = .ok t →
    J t.dev ∧ t.clocked = s.queue.bits ∧
      t.tdoDataCount = s.tdoDataCount + s.queue.tdiDataCount
  error : ∀ s e, s.queue.count ≤ capacity → J s.dev → transmit s = .error e →
    e ≠ .outOfBounds ∧ e ≠ .diverges

/-- Between two calls: the queue fits, and the device keeps its invariant. -/
structure Sound (J : δ → Prop) (s : Plugin δ) : Prop where
  count_le : s.queue.count ≤ capacity
  dev : J s.dev

/-- Nothing is left over where nothing is counted. -/
structure Clean (s : Plugin δ) : Prop where
  queue : s.queue.count = 0 → s.queue = .empty
  tdoDataCount : s.tdoDataCount = 0

namespace Contract

variable {transmit : Plugin δ → Except Fault (Transmitted δ)} {J : δ → Prop}
  {Ends : δ → List (Bool × Bool) → Prop} {s s' : Plugin δ} {out : Out}

/-- **What a flush that ends shows**: the queued bits have been clocked, and as many have
been handed to the host. -/
theorem flush_inv (hC : Contract transmit J Ends) (h : Sound J s) {re : Reentry}
    (hok : doFlush transmit re s = .ok (s', out)) :
    Sound J s' ∧ Clean s' ∧ s'.queue.count = ClockCall.total re.atIndicate ∧
      out.clocked = s.queue.bits ∧
      ∃ buf, out.callbacks = [
        .storeTdo s.serverOps.pOpStoreTdo s.serverOpsData buf
          (s.tdoDataCount + s.queue.tdiDataCount),
        .indicateFlush s.serverOps.pOpIndicateFlush s.serverOpsData] := by
  obtain ⟨t, q, ht, hq, rfl, rfl⟩ := doFlush_inv hok
  obtain ⟨hdev, hclocked, hcount⟩ := hC.ok s t h.count_le h.dev ht
  obtain ⟨-, -, -, hq'⟩ := reenter_inv hq
  obtain ⟨hqcount, hfit⟩ := ClockCall.execAll_inv Queue.count_empty_le hq'
  refine ⟨⟨hqcount.le.trans hfit, hdev⟩,
    ⟨ClockCall.execAll_clear Queue.count_empty_le (fun _ => rfl) hq', rfl⟩, ?_, hclocked,
    t.tdoData, ?_⟩
  · exact hqcount.trans (Nat.zero_add _)
  · rw [callbacks, hcount]

/-- **One call that ends** keeps the queue within its bounds, counts what it says, and
leaves nothing over. -/
theorem step_ok (hC : Contract transmit J Ends) (h : Sound J s) {call : HostCall}
    (hok : step transmit s call = .ok (s', out)) :
    Sound J s' ∧ s'.queue.count = HostCall.queuedAfter s.queue.count [call] ∧
      (Clean s → Clean s') := by
  cases call with
  | clock c =>
    obtain ⟨q, hq, rfl, -⟩ := step_clock_inv hok
    have hfit := (c.exec_ok_iff h.count_le).mp ⟨q, hq⟩
    obtain ⟨q', hq', hcount⟩ := c.exec_ok hfit
    cases hq.symm.trans hq'
    exact ⟨⟨hcount.le.trans hfit, h.dev⟩, hcount,
      fun hc => ⟨ClockCall.exec_clear h.count_le hc.queue hq, hc.tdoDataCount⟩⟩
  | flush re =>
    obtain ⟨hs, hc, hcount, -⟩ := hC.flush_inv h hok
    exact ⟨hs, hcount, fun _ => hc⟩
  | initDev desc ops parent =>
    cases hok
    by_cases haccepts : Accepts desc parent
    · rw [initDev_accepted haccepts]
      exact ⟨⟨h.count_le, h.dev⟩, rfl, fun hc => ⟨hc.queue, hc.tdoDataCount⟩⟩
    · rw [initDev_refused haccepts]
      exact ⟨h, rfl, id⟩
  | doClose =>
    cases hok
    exact ⟨h, rfl, id⟩

/-- **A run that ends.** -/
theorem run_ok (hC : Contract transmit J Ends) : ∀ {calls : List HostCall} {s s' : Plugin δ}
    {outs : List Out}, Sound J s → run transmit s calls = .ok (s', outs) →
      Sound J s' ∧ s'.queue.count = HostCall.queuedAfter s.queue.count calls ∧
        (Clean s → Clean s')
  | [], _, _, _, h, hrun => by
    cases hrun
    exact ⟨h, rfl, id⟩
  | call :: calls, s, s', outs, h, hrun => by
    obtain ⟨s₁, out, os, hstep, hrest, -⟩ := run_cons_inv hrun
    obtain ⟨h₁, hcount₁, hclean₁⟩ := hC.step_ok h hstep
    obtain ⟨h', hcount, hclean⟩ := hC.run_ok h₁ hrest
    exact ⟨h', by rw [HostCall.queuedAfter_cons, ← hcount₁, hcount], fun hc => hclean (hclean₁ hc)⟩

variable (transmit) in
/-- Clock calls whose words are bits append them to a queue in order. -/
theorem run_clocks {cs : List ClockCall} (hcs : ∀ c ∈ cs, c.IsBits) (hq : s.queue.Wf)
    (hfit : s.queue.count + ClockCall.total cs ≤ capacity) :
    ∃ q, run transmit s (cs.map .clock) =
        .ok ({ s with queue := q }, cs.map fun c => ⟨c.ret, [], []⟩) ∧ q.Wf ∧
      q.bits = s.queue.bits ++ cs.flatMap ClockCall.bits := by
  obtain ⟨q, hall, hwf, hbits⟩ := ClockCall.execAll_append hcs hq hfit
  exact ⟨q, run_of_execAll hall, hwf, hbits⟩

/-- **What is queued on a clear queue is flushed exactly**: clock calls and then a flush. -/
theorem flush_queued (hC : Contract transmit J Ends) (h : Sound J s) (hc : Clean s)
    (h0 : s.queue.count = 0) (hs : s.Installed) {cs : List ClockCall}
    (hcs : ∀ c ∈ cs, c.IsBits) (hfit : ClockCall.total cs ≤ capacity)
    (hends : Ends s.dev (cs.flatMap ClockCall.bits)) :
    ∃ s' outs out, run transmit s (cs.map .clock ++ [.flush .silent]) = .ok (s', outs ++ [out]) ∧
      outs.flatMap Out.clocked = [] ∧ out.clocked = cs.flatMap ClockCall.bits ∧
      ∃ buf count, out.callbacks =
          [.storeTdo s.serverOps.pOpStoreTdo s.serverOpsData buf count,
            .indicateFlush s.serverOps.pOpIndicateFlush s.serverOpsData] ∧
        count.toNat = ClockCall.total cs := by
  -- a clear queue that counts nothing is the empty one
  have hempty := hc.queue h0
  obtain ⟨q, hrun, hwf, hbits⟩ := run_clocks transmit (s := s) hcs
    (by rw [hempty]; exact Queue.wf_empty) (by omega)
  rw [hempty, Queue.bits_empty, List.nil_append] at hbits
  have hcount : q.count = ClockCall.total cs := by
    rw [← Queue.length_bits, hbits, ClockCall.length_flatMap_bits]
  have hq : Sound J { s with queue := q } := ⟨hwf.count_le, h.dev⟩
  obtain ⟨t, ht⟩ := hC.ends { s with queue := q } hwf.count_le h.dev (by
    simp only [hbits]
    exact hends)
  have hflush := doFlush_ok (s := { s with queue := q }) ⟨hs.store, hs.indicate⟩ ht
  obtain ⟨-, -, -, hclocked, buf, hcb⟩ := hC.flush_inv hq hflush
  refine ⟨_, _, _, run_append_ok hrun (run_singleton hflush), by simp, hclocked.trans hbits, buf,
    q.tdiDataCount, ?_, hcount⟩
  rw [hcb]
  simp only [hc.tdoDataCount]
  rw [show (0 : BitVec 32) + q.tdiDataCount = q.tdiDataCount from BitVec.zero_add _]

end Contract

end Plugin

end JtagHw
