import JtagHw.Chip

/-!
# When USB transfers fail

A flush of the hardware plugin makes one exchange with the device after the other, and any
of them can fail. The plugin itself looks at none of the results: `do_flush` counts the
bits it has handed to the MPSSE layer, ignores what the `mpsse_flush` at the end returns,
and returns `1`.

* If any exchange of a flush fails, the host is not told: it is handed as many bits as
  it has queued, and the value `1`, or the process is aborted. So a flush is truthful
  (`JtagHw.Otma.Truthful`) just if no exchange of it fails
  (`JtagHw.Otma.truthful_iff`).
* If it is the last exchange that fails, nothing is left over from it; but if it is one
  that the MPSSE layer makes itself in the middle of the loop, the command queued right
  after it stays behind, and the flush at the end is aborted. So in a run none of whose
  automatic flushes fails (`JtagHw.Otma.AutoThrough`) there is no assertion that fails, and
  every call finds and leaves the context idle (`JtagHw.Otma.recovers`).

A device that falls silent in the middle of an exchange is a third case: the flush does not
return then, and nothing at all is told.
-/

namespace JtagHw

namespace Otma

open PackedBits Fallible

/-! ### What the host is told -/

section Told

variable {δ : Type}

/-- **The host has been told the truth** about a flush from the state `s`, with the context
`c₀`, that has left the context `c` and shown `out`. If it has been handed as many bits
as were queued, and the value `1`, then these were clocked into the device, and the bits
are the TDO bits sampled for them; and if an exchange has failed, it has been handed
fewer bits, or another value. -/
structure Truthful (L : ChipLink δ) (s : State δ) (c₀ c : MpsseCtx δ) (out : Out) : Prop where
  sampled : ∀ fn arg1 buf count, Callback.storeTdo fn arg1 buf count ∈ out.callbacks →
    count.toNat = s.queue.count → out.ret = some 1 →
    (L.chip c.usb).clocked = (L.chip c₀.usb).clocked ++ s.queue.bits ∧
      ∀ p < s.queue.count,
        buf.bit p = ((L.chip c₀.usb).tap.tdoBits s.queue.bits).getD p false
  told : (∃ j, flushBits * j < s.queue.count ∧
      ¬ Through s.queue.bits L.toUsbLink L.packetSize c₀.usb j) →
    out.ret ≠ some 1 ∨ ∀ fn arg1 buf count,
      Callback.storeTdo fn arg1 buf count ∈ out.callbacks → count.toNat < s.queue.count

/-- A flush returns, and tells the host the truth. -/
def NoFabrication (L : ChipLink δ) (re : Reentry) (s : State δ) (c₀ : MpsseCtx δ) : Prop :=
  ∃ s' out c, doFlush L.toUsbLink re s = .ok (s', out) ∧ s'.dev = some c ∧ Truthful L s c₀ c out

variable {L : ChipLink δ} {s : State δ} {c₀ : MpsseCtx δ} {re : Reentry}

/-- A flush that returns has returned `1`, and has handed over as many bits as were
queued. -/
theorem counted_of_ok (hctx : s.dev = some c₀) (hidle : c₀.Idle)
    (hcap : s.queue.count ≤ capacity) (hcount : s.tdoDataCount = 0) {s' : State δ} {out : Out}
    (hok : doFlush L.toUsbLink re s = .ok (s', out)) :
    out.ret = some 1 ∧ ∃ fn arg1 buf,
      Callback.storeTdo fn arg1 buf s.queue.tdiDataCount ∈ out.callbacks := by
  obtain ⟨t, q, ht, -, -, rfl⟩ := Plugin.doFlush_inv hok
  obtain ⟨hans, hauto⟩ := (transmit_ok_iff hctx hidle hcap).mp ⟨t, ht⟩
  obtain ⟨t', -, ht', -, -, hcount', -⟩ := transmit_recovers hctx hidle hcap hans hauto
  obtain rfl : t = t' := by
    rw [ht] at ht'
    exact Except.ok.inj ht'
  refine ⟨rfl, s.serverOps.pOpStoreTdo, s.serverOpsData, t.tdoData, ?_⟩
  have hn : t.tdoDataCount = s.queue.tdiDataCount := by
    rw [hcount', hcount]
    exact BitVec.zero_add _
  rw [Plugin.callbacks, hn]
  exact List.mem_cons_self ..

/-- **The host is told the truth just if no exchange of the flush fails.** -/
theorem truthful_iff (hctx : s.dev = some c₀) (hidle : c₀.Idle)
    (hps : c₀.maxPacketSize = L.packetSize) (hready : (L.chip c₀.usb).Ready) (hs : s.Installed)
    (hfits : HostCall.Fits s.queue.count [.flush re]) (hcount : s.tdoDataCount = 0) :
    NoFabrication L re s c₀ ↔ ∀ j, flushBits * j < s.queue.count →
      Through s.queue.bits L.toUsbLink L.packetSize c₀.usb j := by
  obtain ⟨hstore, hindicate, -⟩ := hfits
  have hcap : s.queue.count ≤ capacity := (Nat.le_add_right ..).trans hstore
  constructor
  · rintro ⟨s', out, c, hok, -, htruth⟩
    -- the flush returns `1` with all the bits counted, whatever has failed
    obtain ⟨hret, fn, arg1, buf, hmem⟩ := counted_of_ok hctx hidle hcap hcount hok
    by_contra hfail
    push Not at hfail
    rcases htruth.told hfail with hne | hlt
    · exact hne hret
    · exact lt_irrefl _ (hlt fn arg1 buf _ hmem)
  · intro hall
    obtain ⟨t, c, hok, hdev, -, -, -, -, -, -, hlog, hbit⟩ :=
      transmit_chip hctx hidle hps hready hcap hall
    obtain ⟨q, hflush⟩ := Plugin.doFlush_fits hs hok hstore hindicate
    refine ⟨_, _, c, hflush, hdev, fun fn arg1 buf count hmem _ _ => ?_,
      fun ⟨j, hj, hfail⟩ => absurd (hall j hj) hfail⟩
    simp only [Plugin.callbacks, List.mem_cons, Callback.storeTdo.injEq, List.not_mem_nil,
      or_false, reduceCtorEq] at hmem
    obtain ⟨-, -, rfl, -⟩ := hmem
    exact ⟨hlog, hbit⟩

/-- A link that is gone. -/
def deadLink : ChipLink Chip where
  exchange c _ := (⟨.noDevice, .noDevice, []⟩, c)
  control c _ := (.noDevice, c)
  packetSize := 512
  chip := id
  executed _ _ := 0
  accepted_le _ _ := le_rfl
  payload_prefix _ _ := List.nil_prefix
  chip_after _ _ := rfl

theorem deadLink_fails (l : List (Bool × Bool)) (c : Chip) (j : ℕ) :
    ¬ Through l deadLink.toUsbLink 512 c j := by
  rintro ⟨hrc, -⟩
  have hnone : ((⟨.noDevice, .noDevice, []⟩ : Exchange).outcome 512
      (wire (segment l j)).length (segment l j).length).2 = some .noDevice := rfl
  exact absurd (hnone.symm.trans hrc) (by decide)

/-- Five clocks, through `CAPTURE_DR` to `SHIFT_DR`, the last one there. -/
def toShiftDr : Queue := ⟨fun i => if i.val = 0 then 0x02 else 0, .zero, 5⟩

/-- The hardware plugin with these clocks queued. -/
def atShiftDr {δ : Type} (d : δ) : State δ := { queued d 0 with queue := toShiftDr }

/-- It says so at once. -/
theorem deadLink_answered (l : List (Bool × Bool)) (c : Chip) :
    Answered l deadLink.toUsbLink 512 c := by
  intro j hh
  have hnone : ((⟨.noDevice, .noDevice, []⟩ : Exchange).outcome 512
      (wire (segment l j)).length (segment l j).length).2 = some .noDevice := rfl
  exact absurd (hnone.symm.trans hh.hangs) (by decide)

theorem truthful_iff_perfectLink :
    NoFabrication perfectLink .silent (atShiftDr freshChip) (openedCtx freshChip) ↔
      ∀ j, flushBits * j < toShiftDr.count →
        Through toShiftDr.bits perfectLink.toUsbLink 512 freshChip j :=
  truthful_iff (s := atShiftDr freshChip) rfl (idle_openedCtx freshChip) rfl ⟨rfl, rfl⟩
    ⟨by decide +kernel, by decide +kernel⟩ ⟨by decide +kernel, by decide +kernel, trivial⟩ rfl

/-- Nothing has been clocked, and yet five bits are reported; the last one should be `1`. -/
theorem truthful_false_of_deadLink :
    (∃ s' out c buf, doFlush deadLink.toUsbLink .silent (atShiftDr freshChip) = .ok (s', out) ∧
      s'.dev = some c ∧ out.ret = some 1 ∧
      out.callbacks = [.storeTdo 1 3 buf 5, .indicateFlush 2 3] ∧
      (deadLink.chip c.usb).clocked = [] ∧ buf.bit 4 = false ∧
      (freshChip.tap.tdoBits toShiftDr.bits).getD 4 false = true) ∧
    ¬ NoFabrication deadLink .silent (atShiftDr freshChip) (openedCtx freshChip) := by
  obtain ⟨t, c, hok, hdev, -, hcount, -, -, husb, hbit⟩ :=
    transmit_last_fails (L := deadLink.toUsbLink) (s := atShiftDr freshChip)
      (show _ = some (openedCtx freshChip) from rfl) (idle_openedCtx freshChip) (by decide +kernel)
      (fun j hj => absurd hj (by
        rw [flushBits_eq, show (atShiftDr freshChip).queue.count = 5 from rfl]
        omega))
      ⟨0, by decide, deadLink_fails _ _ 0⟩ (deadLink_answered _ _)
  have hflush := Plugin.doFlush_ok (s := atShiftDr freshChip) ⟨by decide, by decide⟩ hok
  have hlog : (deadLink.chip c.usb).clocked = [] := by
    rw [husb]
    rfl
  refine ⟨⟨_, _, c, t.tdoData, hflush, hdev, rfl, ?_, hlog, ?_, by decide⟩, ?_⟩
  · rw [Plugin.callbacks, hcount]
    rfl
  · rw [hbit 4, if_neg (by decide +kernel)]
    exact Buf.bit_zero 4
  · rintro ⟨s', out, c', hok', hdev', htruth⟩
    cases hflush.symm.trans hok'
    cases hdev.symm.trans hdev'
    obtain ⟨hlog', -⟩ := htruth.sampled _ _ _ _ (List.mem_cons_self ..) (by rw [hcount]; rfl) rfl
    rw [hlog] at hlog'
    have hlen := congrArg List.length hlog'
    rw [List.length_append, Queue.length_bits] at hlen
    cases hlen

end Told

/-! ### Recovery -/

section Recovery

variable {δ : Type} {L : UsbLink δ}

/-- Of the flushes that the MPSSE layer makes itself in a call, none fails. -/
def AutoThrough (L : UsbLink δ) (s : State δ) : HostCall → Prop
  | .flush _ => ∀ c, s.dev = some c → ∀ j, flushBits * (j + 1) < s.queue.count →
      Through s.queue.bits L c.maxPacketSize c.usb j
  | _ => True

/-- **A flush does its own work only**: it hands its own bits to the MPSSE layer, the device
is sent these and nothing else, and the buffer that the host is handed has been written
below their number only. -/
structure Own (L : UsbLink δ) (s s' : State δ) (out : Out) : Prop where
  clocked : out.clocked = s.queue.bits
  sent : ∀ c c', s.dev = some c → s'.dev = some c' → Sent L s c.usb c'.usb
  written : ∀ fn arg1 buf count, Callback.storeTdo fn arg1 buf count ∈ out.callbacks →
    ∀ p, s.queue.count ≤ p → buf.bit p = s.tdoData.bit p

/-- Clock calls never trip an assertion. -/
theorem execAll_no_assertion {cs : List ClockCall} {q : Queue} (hq : q.count ≤ capacity) :
    ClockCall.execAll cs q ≠ .error .assertion := by
  intro herr
  cases ClockCall.execAll_error hq herr

/-- A clock call neither. -/
theorem exec_no_assertion {c : ClockCall} {q : Queue} (hq : q.count ≤ capacity) :
    c.exec q ≠ .error .assertion := by
  intro herr
  have hall : ClockCall.execAll [c] q = .error .assertion := by rw [ClockCall.execAll, herr]
  exact execAll_no_assertion hq hall

/-- **A call whose automatic flushes come through** trips no assertion. -/
theorem step_no_assertion {s : State δ} (h : Plugin.Sound HasIdle s) {call : HostCall}
    (hauto : AutoThrough L s call) : step L s call ≠ .error .assertion := by
  cases call with
  | clock c =>
    intro herr
    rcases hc : c.exec s.queue with e | q
    · rw [step, Plugin.step_clock_error hc] at herr
      cases herr
      exact exec_no_assertion h.count_le hc
    · rw [step, Plugin.step_clock hc] at herr
      cases herr
  | flush re =>
    intro herr
    obtain ⟨c, hctx, hidle⟩ := h.dev
    rcases Plugin.doFlush_error herr with he | he
    · rcases transmit_error h.dev h.count_le he with ⟨-, c', hctx', j, hj, hfail⟩ | he
      · cases hctx.symm.trans hctx'
        exact hfail (hauto c hctx j hj)
      · cases he
    · rcases Plugin.reenter_error he with ⟨he, -⟩ | he | he
      · cases he
      · exact execAll_no_assertion h.count_le he
      · exact execAll_no_assertion Queue.count_empty_le he
  | initDev desc ops parent => exact nofun
  | doClose => exact nofun

/-- **A flush that ends** has done its own work only. -/
theorem flush_own {s s' : State δ} {out : Out} (h : Plugin.Sound HasIdle s) {re : Reentry}
    (hok : doFlush L re s = .ok (s', out)) : Own L s s' out := by
  obtain ⟨c, hctx, hidle⟩ := h.dev
  obtain ⟨t, q, ht, -, rfl, rfl⟩ := Plugin.doFlush_inv hok
  obtain ⟨hans, hauto⟩ := (transmit_ok_iff hctx hidle h.count_le).mp ⟨t, ht⟩
  obtain ⟨t', c', ht', hdev, hclocked, -, -, hsent, hwritten⟩ :=
    transmit_recovers hctx hidle h.count_le hans hauto
  cases ht.symm.trans ht'
  refine ⟨hclocked, fun c₁ c₂ h₁ h₂ => ?_, fun fn arg1 buf count hmem => ?_⟩
  · cases hctx.symm.trans h₁
    cases hdev.symm.trans h₂
    exact hsent
  · simp only [Plugin.callbacks, List.mem_cons, Callback.storeTdo.injEq, List.not_mem_nil,
      or_false, reduceCtorEq] at hmem
    obtain ⟨-, -, rfl, -⟩ := hmem
    exact hwritten

/-- **Recovery.** In a run from an idle context, let none of the flushes fail that the MPSSE
layer makes itself. Then every call of it finds the context idle, trips no assertion and
leaves the context idle; and a flush does its own work only. -/
theorem recovers {s : State δ} {c : MpsseCtx δ} (hctx : s.dev = some c) (hidle : c.Idle)
    (hcap : s.queue.count ≤ capacity) {before after : List HostCall} {call : HostCall}
    (hauto : Meets (step L) (AutoThrough L) s (before ++ call :: after)) {s₁ : State δ}
    {outs : List Out} (hrun : run L s before = .ok (s₁, outs)) :
    HasIdle s₁.dev ∧ step L s₁ call ≠ .error .assertion ∧
      ∀ s₂ out, step L s₁ call = .ok (s₂, out) →
        HasIdle s₂.dev ∧ ∀ re, call = .flush re → Own L s₁ s₂ out := by
  obtain ⟨h₁, -⟩ := (contract L).run_ok ⟨hcap, c, hctx, hidle⟩ hrun
  refine ⟨h₁.dev, step_no_assertion h₁ (hauto.next hrun), fun s₂ out hok => ?_⟩
  refine ⟨((contract L).step_ok h₁ hok).1.dev, ?_⟩
  rintro re rfl
  exact flush_own h₁ hok

/-- Two flushes of a link that is gone, the first one with five clocks. -/
theorem recovers_deadLink :
    ∃ s₁ outs, run deadLink.toUsbLink (atShiftDr freshChip) [.flush .silent] = .ok (s₁, outs) ∧
      HasIdle s₁.dev ∧ step deadLink.toUsbLink s₁ (.flush .silent) ≠ .error .assertion ∧
      ∀ s₂ out, step deadLink.toUsbLink s₁ (.flush .silent) = .ok (s₂, out) →
        HasIdle s₂.dev ∧ ∀ re, HostCall.flush .silent = .flush re →
          Own deadLink.toUsbLink s₁ s₂ out := by
  have hcap : (atShiftDr freshChip).queue.count ≤ capacity := by decide +kernel
  have hidle : (openedCtx freshChip).Idle := idle_openedCtx freshChip
  have hfirst : ∀ j, flushBits * (j + 1) < (atShiftDr freshChip).queue.count →
      Through (atShiftDr freshChip).queue.bits deadLink.toUsbLink 512 freshChip j := by
    intro j hj
    rw [flushBits_eq, show (atShiftDr freshChip).queue.count = 5 from rfl] at hj
    omega
  obtain ⟨t, c, ht, -⟩ := transmit_recovers (L := deadLink.toUsbLink) rfl hidle hcap
    (deadLink_answered _ _) hfirst
  have hrun : run deadLink.toUsbLink (atShiftDr freshChip) [.flush .silent] = .ok _ :=
    run_singleton (Plugin.doFlush_ok ⟨by decide, by decide⟩ ht)
  have hauto : Meets (step deadLink.toUsbLink) (AutoThrough deadLink.toUsbLink)
      (atShiftDr freshChip) ([.flush .silent] ++ [.flush .silent]) := by
    refine ⟨fun c hc => ?_, fun s' out hok => ⟨fun c hc j hj => ?_, fun _ _ _ => trivial⟩⟩
    · cases hc
      exact hfirst
    · -- nothing is queued for the second one
      obtain ⟨t', q, -, hq, rfl, -⟩ := Plugin.doFlush_inv hok
      obtain ⟨-, -, -, hq'⟩ := Plugin.reenter_inv hq
      cases hq'
      exact absurd hj (Nat.not_lt_zero _)
  exact ⟨_, _, hrun, recovers rfl hidle hcap hauto hrun⟩

/-- With one clock more than there is room for, and the first exchange failing. -/
theorem recovers_false_of_deadLink :
    (openedCtx freshChip).Idle ∧
      step deadLink.toUsbLink (queued freshChip 5462) (.flush .silent) = .error .assertion := by
  refine ⟨idle_openedCtx freshChip, ?_⟩
  have habort := transmit_aborts (L := deadLink.toUsbLink) (s := queued freshChip 5462) rfl
    (idle_openedCtx freshChip) (by decide +kernel)
    ⟨0, by decide +kernel, deadLink_fails _ _ 0⟩ (deadLink_answered _ _)
  rw [step, Plugin.step, Plugin.doFlush, habort]
  rfl

end Recovery

end Otma

end JtagHw
