import JtagHw.DeviceHandle
import JtagHw.Dummy

/-!
# Which callbacks are called

`init_dev` installs the callbacks of the host and the pointer handed to them, if it accepts its
arguments, and leaves everything alone if it does not. But it returns the same value either
way. So no refusal is ever told (`JtagHw.Plugin.refusalTold_iff`), and a host that has
been returned the value of an accepting call cannot rely on its callbacks being there: the
flush that follows calls the ones of an earlier `init_dev`, or a null pointer.

A flush calls what it should (`JtagHw.Plugin.UsesLast`) just if an `init_dev` has been accepted
before it, and the last of these has handed over callbacks (`JtagHw.Installs`).
-/

namespace JtagHw

open Fallible

variable {κ : Type}

/-- The value that every `init_dev` returns that accepts. -/
def acceptedValue : BitVec 64 := 1

/-- In one of the calls, an `init_dev`, the host has been returned the value of a call that is
accepted. -/
def ToldAccepted (calls : List (PluginCall κ)) (outs : List PluginOut) : Prop :=
  ∃ desc ops parent out,
    (PluginCall.host (.initDev desc ops parent), PluginOut.host out) ∈ calls.zip outs ∧
      out.ret = some acceptedValue

/-- One of the calls is an `init_dev`. -/
def Tries (calls : List (PluginCall κ)) : Prop :=
  ∃ desc ops parent, PluginCall.host (.initDev desc ops parent) ∈ calls

/-- An `init_dev` has been accepted, and the last one that has been has handed over callbacks. -/
def Installs (calls : List (PluginCall κ)) : Prop :=
  ∃ ops parent, lastAccepted calls = some (ops, parent) ∧ ops.pOpStoreTdo ≠ 0 ∧
    ops.pOpIndicateFlush ≠ 0

namespace Plugin

variable {δ : Type*}

/-- **The host is told of a refusal**: an `init_dev` that is refused returns another value than
every one that is accepted, and leaves what is installed. -/
def RefusalTold (s : Plugin δ) (desc : String) (ops : ServerOps) (parent : Ptr) : Prop :=
  ¬ Accepts desc parent →
    (∀ (s' : Plugin δ) (desc' : String) (ops' : ServerOps) (parent' : Ptr), Accepts desc' parent' →
      (s.initDev desc ops parent).2 ≠ (s'.initDev desc' ops' parent').2) ∧
    (s.initDev desc ops parent).1.serverOps = s.serverOps ∧
    (s.initDev desc ops parent).1.serverOpsData = s.serverOpsData

/-- **A flush from the state `s` uses what has been installed last**: it calls no null pointer,
and if it ends it has made two callbacks, with the pointers and the parent in `last`. -/
def UsesLast (transmit : Plugin δ → Except Fault (Transmitted δ)) (s : Plugin δ)
    (last : Option (ServerOps × Ptr)) : Prop :=
  ∀ re, doFlush transmit re s ≠ .error .nullCallback ∧
    ∀ s' out, doFlush transmit re s = .ok (s', out) →
      ∃ ops parent buf count, last = some (ops, parent) ∧
        out.callbacks = [.storeTdo ops.pOpStoreTdo parent buf count,
          .indicateFlush ops.pOpIndicateFlush parent]

/-! ### One call -/

/-- **No refusal is told**: both return the same value. -/
theorem refusalTold_iff (s : Plugin δ) (desc : String) (ops : ServerOps) (parent : Ptr) :
    RefusalTold s desc ops parent ↔ Accepts desc parent := by
  constructor
  · intro htold
    by_contra hrefused
    have haccepts : Accepts "bus-instance" 1 := ⟨by decide, rfl⟩
    refine (htold hrefused).1 s "bus-instance" ops 1 haccepts ?_
    rw [initDev_refused hrefused, initDev_accepted haccepts]
  · intro haccepts hrefused
    exact absurd haccepts hrefused

theorem initDev_value (s : Plugin δ) (desc : String) (ops : ServerOps) (parent : Ptr) :
    (s.initDev desc ops parent).2 = acceptedValue := by
  by_cases h : Accepts desc parent
  · rw [initDev_accepted h]
    rfl
  · rw [initDev_refused h]
    rfl

/-! ### Runs of calls -/

section Runs

variable {openDev : κ → δ → Except Fault δ} {transmit : Plugin δ → Except Fault (Transmitted δ)}

/-- An `init_dev` shows the value of a call that is accepted, whatever its arguments. -/
theorem told_of_tries : ∀ {calls : List (PluginCall κ)} {s s' : Plugin δ} {outs : List PluginOut},
    callRun openDev transmit s calls = .ok (s', outs) → Tries calls → ToldAccepted calls outs
  | [], _, _, _, _, ⟨_, _, _, hmem⟩ => by cases hmem
  | call :: calls, s, s', outs, hrun, ⟨desc, ops, parent, hmem⟩ => by
    obtain ⟨t, o, os, hstep, hrest, rfl⟩ := run_cons_inv hrun
    rcases List.mem_cons.mp hmem with rfl | hlater
    · obtain ⟨out, hinit, rfl⟩ := callStep_host_inv hstep
      cases hinit
      exact ⟨desc, ops, parent, _, List.mem_cons_self .., congrArg some (initDev_value ..)⟩
    · obtain ⟨desc', ops', parent', out, hmem', hret⟩ :=
        told_of_tries hrest ⟨desc, ops, parent, hlater⟩
      exact ⟨desc', ops', parent', out, List.mem_cons_of_mem _ hmem', hret⟩

/-- **Whoever tries is told to be accepted.** -/
theorem toldAccepted_iff {calls : List (PluginCall κ)} {s s' : Plugin δ} {outs : List PluginOut}
    (hrun : callRun openDev transmit s calls = .ok (s', outs)) :
    ToldAccepted calls outs ↔ Tries calls := by
  refine ⟨?_, told_of_tries hrun⟩
  rintro ⟨desc, ops, parent, out, hmem, -⟩
  exact ⟨desc, ops, parent, (List.of_mem_zip hmem).1⟩

variable {s s₁ : Plugin δ} {calls : List (PluginCall κ)} {outs : List PluginOut}
  {J : δ → Prop} {Ends : δ → List (Bool × Bool) → Prop} {K : κ → Prop}

/-- **What is installed is used.** -/
theorem Contract.usesLast_of_installs (hC : Contract transmit J Ends)
    (hopen : ∀ k d d', K k → J d → openDev k d = .ok d' → J d')
    (hnull : ∀ s, Sound J s → transmit s ≠ .error .nullCallback) (h : Sound J s)
    (hcalls : ∀ call ∈ calls, call.Given K)
    (hrun : callRun openDev transmit s calls = .ok (s₁, outs)) (hinstalls : Installs calls) :
    UsesLast transmit s₁ (lastAccepted calls) := by
  obtain ⟨ops, parent, hlast, hstore, hindicate⟩ := hinstalls
  have h₁ := hC.callRun_sound hopen h hcalls hrun
  have hinstalled := callRun_installed hrun
  rw [hlast] at hinstalled
  obtain ⟨hops, hdata⟩ := Prod.mk.inj hinstalled
  intro re
  refine ⟨fun herr => ?_, fun s₂ out hok => ?_⟩
  · rcases doFlush_error herr with he | he
    · exact hnull s₁ h₁ he
    · -- both callbacks are there, and a call from one of them does not fail for a `NULL`
      rw [hops] at he
      rcases reenter_error he with ⟨-, hzero | hzero⟩ | he | he
      · exact hstore hzero
      · exact hindicate hzero
      · cases ClockCall.execAll_error h₁.count_le he
      · cases ClockCall.execAll_error Queue.count_empty_le he
  · obtain ⟨t, q, -, -, -, rfl⟩ := doFlush_inv hok
    refine ⟨ops, parent, t.tdoData, t.tdoDataCount, hlast, ?_⟩
    rw [callbacks, hops, hdata]

/-- **What is used has been installed**, where the loop of the flush ends. -/
theorem installs_of_usesLast (hrun : callRun openDev transmit s calls = .ok (s₁, outs))
    (hends : ∃ t, transmit s₁ = .ok t) (huses : UsesLast transmit s₁ (lastAccepted calls)) :
    Installs calls := by
  obtain ⟨t, ht⟩ := hends
  obtain ⟨hne, hcb⟩ := huses .silent
  have hstore : s₁.serverOps.pOpStoreTdo ≠ 0 := by
    intro hzero
    refine hne ?_
    rw [doFlush_eq, ht, reenter, if_pos hzero]
  have hindicate : s₁.serverOps.pOpIndicateFlush ≠ 0 := by
    intro hzero
    refine hne ?_
    rw [doFlush_eq, ht, reenter, if_neg hstore]
    simp only [Reentry.silent, ClockCall.execAll, if_pos hzero]
  obtain ⟨ops, parent, -, -, hlast, -⟩ := hcb _ _ (doFlush_ok ⟨hstore, hindicate⟩ ht)
  have hinstalled := callRun_installed hrun
  rw [hlast] at hinstalled
  obtain ⟨hops, -⟩ := Prod.mk.inj hinstalled
  rw [hops] at hstore hindicate
  exact ⟨ops, parent, hlast, hstore, hindicate⟩

end Runs

end Plugin

/-! ### Both plugins -/

namespace Dummy

/-- What `find_devs` does about the device: nothing. -/
def openNothing (_ : Unit) (dev : JtagTapController) : Except Fault JtagTapController := .ok dev

/-- A sequence of calls. -/
abbrev callRun (s : State) (calls : List (PluginCall Unit)) :
    Except Fault (State × List PluginOut) :=
  Plugin.callRun openNothing transmit s calls

/-- Within its bounds the loop always ends. -/
theorem transmit_ne_error {s : State} (h : s.queue.count ≤ capacity) (e : Fault) :
    transmit s ≠ .error e := by
  obtain ⟨t, ht, -⟩ := transmit_ok s h
  rw [ht]
  exact nofun

end Dummy

namespace Otma

/-- The loop calls no function of the host. -/
theorem transmit_ne_nullCallback {δ : Type} {L : UsbLink δ} {s : State δ} (h : Sound s) :
    transmit L s ≠ .error .nullCallback := by
  intro he
  rcases h.dev with hnull | hidle
  · cases (transmit_null hnull).symm.trans he
  · exact transmit_ne_error hidle h.count_le (by decide) (by decide) he

end Otma

/-- **Callback installation.** For both plugins, the host is told of a refusal just if there is
none. And take any calls of the host that end, without a context at first or with an idle
one. A host that has been told to be accepted gets a flush that uses what has been installed
last, just if an `init_dev` has been accepted, if there was one at all, and the last of these
has handed over callbacks – for the hardware plugin, if the loop of that flush ends, and with
devices whose packets are those of bulk endpoints. -/
theorem callbacks_installed {δ : Type} (L : UsbLink δ) {s : Dummy.State} {r : Otma.State δ}
    (hs : s.queue.count ≤ capacity) (hr : r.queue.count ≤ capacity)
    (hctx : r.dev = none ∨ Otma.HasIdle r.dev) :
    (∀ desc ops parent, (s.RefusalTold desc ops parent ↔ Accepts desc parent) ∧
      (r.RefusalTold desc ops parent ↔ Accepts desc parent)) ∧
    (∀ calls s₁ outs, Dummy.callRun s calls = .ok (s₁, outs) →
      ((ToldAccepted calls outs → s₁.UsesLast Dummy.transmit (lastAccepted calls)) ↔
        (Tries calls → Installs calls))) ∧
    ∀ calls r₁ outs, (∀ call ∈ calls, call.Given UsbHost.BulkPackets) →
      Otma.callRun L r calls = .ok (r₁, outs) →
      ((Tries calls → Installs calls) → ToldAccepted calls outs →
        r₁.UsesLast (Otma.transmit L) (lastAccepted calls)) ∧
      (Otma.Ends L r₁.dev r₁.queue.bits →
        (ToldAccepted calls outs → r₁.UsesLast (Otma.transmit L) (lastAccepted calls)) →
          Tries calls → Installs calls) := by
  refine ⟨fun desc ops parent => ⟨Plugin.refusalTold_iff .., Plugin.refusalTold_iff ..⟩,
    fun calls s₁ outs hrun => ?_, fun calls r₁ outs hhosts hrun => ?_⟩
  · have htold := Plugin.toldAccepted_iff hrun
    have hcalls : ∀ call ∈ calls, call.Given fun _ => True := fun call _ => call.given_true
    have h₁ := Dummy.contract.callRun_sound (fun _ _ _ _ _ _ => trivial) ⟨hs, trivial⟩ hcalls hrun
    constructor
    · -- the loop of the dummy plugin always ends, and the callbacks are reached
      intro huses htries
      obtain ⟨t, ht, -⟩ := Dummy.transmit_ok s₁ h₁.count_le
      exact Plugin.installs_of_usesLast hrun ⟨t, ht⟩ (huses (htold.mpr htries))
    · intro hinstalls hacc
      exact Dummy.contract.usesLast_of_installs (fun _ _ _ _ _ _ => trivial)
        (fun s hs => Dummy.transmit_ne_error hs.count_le _) ⟨hs, trivial⟩ hcalls hrun
        (hinstalls (htold.mp hacc))
  · have htold := Plugin.toldAccepted_iff hrun
    refine ⟨fun hinstalls hacc => ?_, fun hends huses htries => ?_⟩
    · exact (Otma.contract_or_null L).usesLast_of_installs Otma.openCtx_idle
        (fun s hs => Otma.transmit_ne_nullCallback hs) ⟨hr, hctx⟩ hhosts hrun
        (hinstalls (htold.mp hacc))
    · have h₁ := (Otma.contract_or_null L).callRun_sound Otma.openCtx_idle ⟨hr, hctx⟩ hhosts hrun
      exact Plugin.installs_of_usesLast hrun
        ((Otma.contract_or_null L).ends r₁ h₁.count_le h₁.dev hends) (huses (htold.mpr htries))

/-- A plugin as it is loaded: nothing is installed and nothing queued. -/
def Plugin.unused {δ : Type*} (d : δ) : Plugin δ := ⟨⟨0, 0⟩, 0, .empty, .zero, 0, d⟩

/-- One `init_dev` that is refused, and one that is accepted. -/
def secondTry {κ : Type} : List (PluginCall κ) :=
  [.host (.initDev "bus-instance" ⟨1, 2⟩ 0), .host (.initDev "bus-instance" ⟨1, 2⟩ 3)]

/-- One that is refused. -/
def nullParent {κ : Type} : List (PluginCall κ) :=
  [.host (.initDev "bus-instance" ⟨1, 2⟩ 0)]

theorem callbacks_installed_secondTry :
    ∃ s₁ outs, Dummy.callRun (Plugin.unused .init) secondTry = .ok (s₁, outs) ∧
      s₁.UsesLast Dummy.transmit (some (⟨1, 2⟩, 3)) := by
  have hrun : Dummy.callRun (Plugin.unused .init) secondTry = .ok (_, _) := rfl
  obtain ⟨-, hdummy, -⟩ := callbacks_installed Otma.perfectLink.toUsbLink
    (s := Plugin.unused .init) (r := Plugin.unused none) (Nat.zero_le _) (Nat.zero_le _)
    (Or.inl rfl)
  refine ⟨_, _, hrun, (hdummy _ _ _ hrun).mpr (fun _ => ?_) ?_⟩
  · exact ⟨⟨1, 2⟩, 3, rfl, by decide, by decide⟩
  · exact Plugin.told_of_tries hrun ⟨_, _, _, List.mem_cons_self ..⟩

/-- A refusal that is not told, and the flush after it calls a null pointer. -/
theorem callbacks_installed_false_of_nullParent :
    Dummy.callRun (Plugin.unused .init) nullParent =
        .ok (Plugin.unused .init, [.host ⟨some acceptedValue, [], []⟩]) ∧
      Dummy.doFlush .silent (Plugin.unused .init) = .error .nullCallback ∧
      ¬ (Plugin.unused JtagTapController.init).RefusalTold "bus-instance" ⟨1, 2⟩ 0 ∧
      ¬ (ToldAccepted (nullParent : List (PluginCall Unit))
          [.host ⟨some acceptedValue, [], []⟩] →
        (Plugin.unused .init).UsesLast Dummy.transmit
          (lastAccepted (nullParent : List (PluginCall Unit)))) := by
  have hrun : Dummy.callRun (Plugin.unused .init) nullParent =
      .ok (Plugin.unused .init, [.host ⟨some acceptedValue, [], []⟩]) := rfl
  have hflush : Dummy.doFlush .silent (Plugin.unused .init) = .error .nullCallback := by
    obtain ⟨t, ht, -⟩ := Dummy.transmit_ok (Plugin.unused .init) (Nat.zero_le _)
    rw [Dummy.doFlush, Plugin.doFlush_eq, ht]
    rfl
  refine ⟨hrun, hflush, fun htold => ?_, fun huses => ?_⟩
  · exact ((Plugin.refusalTold_iff ..).mp htold).1 rfl
  · have htold := Plugin.told_of_tries hrun ⟨_, _, _, List.mem_cons_self ..⟩
    exact (huses htold .silent).1 hflush

end JtagHw
