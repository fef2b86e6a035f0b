import JtagHw.Chip

/-!
# The bounds of the queue

Nothing in the two plugins checks the count of the queue against the size of the buffers.
A clock call with more bits than there is room for writes past their end; and a length
that the loop counter cannot reach is no matter of its own, for long before the counter
wraps the loop is past the end.

So a call stays within the bounds just if its bits fit into what is left of the queue when
it is made (`JtagHw.Plugin.StepFits`), and in a run all of whose calls do, every clock
call ends, every byte index is in range, and the count is the number of bits queued –
for any plugin that meets the contract (`JtagHw.Plugin.Contract.bounded_iff`), and so for
both (`JtagHw.queue_bounds`).
-/

namespace JtagHw

open Fallible

namespace Plugin

variable {δ : Type*}

/-- **The bounds are kept in a call** from the state `s`. The call accesses no byte outside
the buffers, and its loops over the queue end; a clock call that fits counts its bits, and one
that does not fit leaves the queue alone, or flushes. -/
structure StepBounded (transmit : Plugin δ → Except Fault (Transmitted δ)) (s : Plugin δ)
    (call : HostCall) : Prop where
  count_le : s.queue.count ≤ capacity
  in_bounds : step transmit s call ≠ .error .outOfBounds
  terminates : step transmit s call ≠ .error .diverges
  clock : ∀ c, call = .clock c → ∃ s' out, step transmit s call = .ok (s', out) ∧
    (s.queue.count + c.len ≤ capacity → s'.queue.count = s.queue.count + c.len) ∧
    (capacity < s.queue.count + c.len → s'.queue = s.queue ∨ out.callbacks ≠ [])

/-- The bounds are kept in every call of a run. -/
def Bounded (transmit : Plugin δ → Except Fault (Transmitted δ)) :
    Plugin δ → List HostCall → Prop :=
  Meets (step transmit) (StepBounded transmit)

/-- The bits of a call, the ones of its callbacks included, fit into what is left of the
queue when it is made. -/
def StepFits (s : Plugin δ) : HostCall → Prop
  | .clock c => s.queue.count + c.len ≤ capacity
  | .flush re =>
    s.queue.count + ClockCall.total re.atStore ≤ capacity ∧
      ClockCall.total re.atIndicate ≤ capacity
  | _ => True

/-- Clock calls that fit do not fault. -/
theorem execAll_ne_error {cs : List ClockCall} {q : Queue}
    (h : q.count + ClockCall.total cs ≤ capacity) (e : Fault) :
    ClockCall.execAll cs q ≠ .error e := by
  obtain ⟨q', hok, -⟩ := ClockCall.execAll_ok cs h
  rw [hok]
  exact nofun

namespace Contract

variable {transmit : Plugin δ → Except Fault (Transmitted δ)} {J : δ → Prop}
  {Ends : δ → List (Bool × Bool) → Prop} {s : Plugin δ}

/-- **A call that fits keeps the bounds.** -/
theorem stepBounded (hC : Contract transmit J Ends) (h : Sound J s) {call : HostCall}
    (hfits : StepFits s call) : StepBounded transmit s call := by
  cases call with
  | clock c =>
    obtain ⟨q, hok, hcount⟩ := c.exec_ok hfits
    have hstep : step transmit s (.clock c) = .ok ({ s with queue := q }, ⟨c.ret, [], []⟩) :=
      step_clock hok
    refine ⟨h.count_le, by rw [hstep]; exact nofun, by rw [hstep]; exact nofun, ?_⟩
    rintro c' hc
    cases hc
    exact ⟨_, _, hstep, fun _ => hcount, fun hover => absurd hfits (Nat.not_le.mpr hover)⟩
  | flush re =>
    have hempty : Queue.empty.count + ClockCall.total re.atIndicate ≤ capacity := by
      rw [Queue.count_empty, Nat.zero_add]
      exact hfits.2
    have herr : ∀ e, step transmit s (.flush re) = .error e →
        e ≠ .outOfBounds ∧ e ≠ .diverges := by
      intro e he
      -- the loop, or a call made from one of the callbacks
      rcases doFlush_error he with ht | hre
      · exact hC.error s e h.count_le h.dev ht
      · rcases reenter_error hre with ⟨rfl, -⟩ | hs | hi
        · exact ⟨nofun, nofun⟩
        · exact absurd hs (execAll_ne_error hfits.1 e)
        · exact absurd hi (execAll_ne_error hempty e)
    exact ⟨h.count_le, fun he => (herr _ he).1 rfl, fun he => (herr _ he).2 rfl, nofun⟩
  | initDev desc ops parent => exact ⟨h.count_le, nofun, nofun, nofun⟩
  | doClose => exact ⟨h.count_le, nofun, nofun, nofun⟩

/-- A call that keeps the bounds fits, if its callbacks do not call back. -/
theorem stepFits_of_stepBounded {call : HostCall} (hsilent : ∀ re, call = .flush re → re = .silent)
    (hb : StepBounded transmit s call) : StepFits s call := by
  cases call with
  | clock c =>
    obtain ⟨s', out, hok, -⟩ := hb.clock c rfl
    obtain ⟨q, hq, -⟩ := step_clock_inv hok
    exact (c.exec_ok_iff hb.count_le).mp ⟨q, hq⟩
  | flush re =>
    obtain rfl := hsilent re rfl
    exact ⟨hb.count_le, Nat.zero_le _⟩
  | initDev desc ops parent => trivial
  | doClose => trivial

/-- **The bounds of the queue**, for a plugin that meets the contract. -/
theorem bounded_iff (hC : Contract transmit J Ends) (h : Sound J s) (calls : List HostCall) :
    (Meets (step transmit) StepFits s calls → Bounded transmit s calls) ∧
      ((∀ re, HostCall.flush re ∈ calls → re = .silent) → Bounded transmit s calls →
        Meets (step transmit) StepFits s calls) := by
  have hkeep : ∀ (P : Plugin δ → HostCall → Prop) s call s' out, P s call → Sound J s →
      step transmit s call = .ok (s', out) → Sound J s' :=
    fun _ _ _ _ _ _ hs hok => (hC.step_ok hs hok).1
  refine ⟨Meets.imp (hkeep _) (fun s call _ hs hfits => hC.stepBounded hs hfits) h,
    fun hsilent => Meets.imp (hkeep _) (fun s call hmem _ hb => ?_) h⟩
  exact stepFits_of_stepBounded (fun re hre => hsilent re (hre ▸ hmem)) hb

end Contract

end Plugin

/-- **Queue bounds.** For both plugins, the bounds are kept in every call of a run just if
the bits of every call fit into what is left of the queue when it is made – with
callbacks that call back, still if they do. -/
theorem queue_bounds {δ : Type} (L : UsbLink δ) {s : Dummy.State} {r : Otma.State δ}
    (hs : s.queue.count ≤ capacity) (hr : r.queue.count ≤ capacity)
    (hctx : r.dev = none ∨ Otma.HasIdle r.dev) (calls : List HostCall) :
    ((Meets Dummy.step Plugin.StepFits s calls → Plugin.Bounded Dummy.transmit s calls) ∧
      ((∀ re, HostCall.flush re ∈ calls → re = .silent) →
        Plugin.Bounded Dummy.transmit s calls → Meets Dummy.step Plugin.StepFits s calls)) ∧
    ((Meets (Otma.step L) Plugin.StepFits r calls → Plugin.Bounded (Otma.transmit L) r calls) ∧
      ((∀ re, HostCall.flush re ∈ calls → re = .silent) →
        Plugin.Bounded (Otma.transmit L) r calls →
          Meets (Otma.step L) Plugin.StepFits r calls)) :=
  ⟨Dummy.contract.bounded_iff ⟨hs, trivial⟩ calls,
    (Otma.contract_or_null L).bounded_iff ⟨hr, hctx⟩ calls⟩

/-- Five clocks and a flush. -/
def fiveClocks : List HostCall := [.clock (.raw 0 0 5), .flush .silent]

/-- They fit behind an empty queue. -/
theorem Plugin.meets_stepFits_fiveClocks {δ : Type} {s : Plugin δ}
    (transmit : Plugin δ → Except Fault (Transmitted δ)) (h : s.queue.count = 0) :
    Meets (Plugin.step transmit) Plugin.StepFits s fiveClocks := by
  have hfit : s.queue.count + ClockCall.len (.raw 0 0 5) ≤ capacity := by
    rw [h]
    decide +kernel
  refine ⟨hfit, fun s' out hok => ⟨⟨?_, Nat.zero_le _⟩, fun _ _ _ => trivial⟩⟩
  obtain ⟨q, hq, rfl, -⟩ := Plugin.step_clock_inv hok
  obtain ⟨q', hq', hcount⟩ := ClockCall.exec_ok _ hfit
  cases hq.symm.trans hq'
  exact hcount.le.trans hfit

theorem queue_bounds_fiveClocks :
    Plugin.Bounded Dummy.transmit Dummy.opened fiveClocks ∧
      Plugin.Bounded (Otma.transmit Otma.perfectLink.toUsbLink) (Otma.queued Otma.freshChip 0)
        fiveClocks := by
  obtain ⟨⟨hdummy, -⟩, ⟨hotma, -⟩⟩ := queue_bounds Otma.perfectLink.toUsbLink
    (s := Dummy.opened) (r := Otma.queued Otma.freshChip 0) (Nat.zero_le _) (Nat.zero_le _)
    (Or.inr ⟨_, rfl, Otma.idle_openedCtx _⟩) fiveClocks
  exact ⟨hdummy (Plugin.meets_stepFits_fiveClocks _ rfl),
    hotma (Plugin.meets_stepFits_fiveClocks _ rfl)⟩

/-- One bit more than there is room for. -/
theorem queue_bounds_false_of_overflow :
    Dummy.step Dummy.opened (.clock (.raw 0 1 268435457)) = .error .outOfBounds ∧
      ¬ Plugin.Bounded Dummy.transmit Dummy.opened [.clock (.raw 0 1 268435457)] := by
  have hover : Dummy.step Dummy.opened (.clock (.raw 0 1 268435457)) = .error .outOfBounds :=
    Plugin.step_clock_error (ClockCall.exec_overflow _ (Nat.zero_le _) (by decide +kernel))
  exact ⟨hover, fun hb => hb.1.in_bounds hover⟩

end JtagHw
