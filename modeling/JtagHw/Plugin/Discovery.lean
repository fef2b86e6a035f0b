import JtagHw.Plugin.Contract

/-!
# The calls of the host, with `find_devs`

`find_devs` is the one call of the host that acts on the device. In the hardware plugin it
opens the device unless it is open already, in the dummy plugin it does nothing about it; the
rest is the same text in the two files. So it has what it does about the device as its
parameter `openDev`, and what the environment makes of that is an argument of the call
(`JtagHw.PluginCall`).

The contract of the loop of `do_flush` extends to runs of these calls, as long as `openDev`
keeps the invariant of the device (`JtagHw.Plugin.Contract.callRun_sound`); and the callbacks
after a run are the ones of the last `init_dev` that has been accepted
(`JtagHw.Plugin.callRun_installed`).
-/

namespace JtagHw

open PackedBits Fallible

variable {κ : Type}

/-- A call of the host; one of `find_devs` with what the environment makes of it. -/
inductive PluginCall (κ : Type)
  | findDevs (devIndex apiVer : BitVec 32) (k : κ)
  | host (call : HostCall)

/-- What a call shows to the outside. -/
inductive PluginOut
  /-- The value returned by `find_devs`, and what it has written to `out_desc`. -/
  | found (ret : Byte) (outDesc : Option String)
  | host (out : Out)

/-- What the environment makes of the call satisfies `K`. -/
def PluginCall.Given (K : κ → Prop) : PluginCall κ → Prop
  | findDevs _ _ k => K k
  | host _ => True

theorem PluginCall.given_true (call : PluginCall κ) : call.Given fun _ => True := by
  cases call <;> trivial

/-- What a call installs: the callbacks and the parent of an `init_dev` that is accepted. -/
def PluginCall.installs : PluginCall κ → Option (ServerOps × Ptr)
  | host (.initDev desc sServerOps parent) =>
    if Accepts desc parent then some (sServerOps, parent) else none
  | _ => none

/-- The callbacks and the parent of the last `init_dev` that has been accepted, if any. -/
def lastAccepted (calls : List (PluginCall κ)) : Option (ServerOps × Ptr) :=
  calls.foldl (fun last call => call.installs.or last) none

namespace Plugin

variable {δ : Type*}

/-! ### The functions -/

section Functions

variable (openDev : κ → δ → Except Fault δ)

/-- `char find_devs(uint32_t dev_index, char *out_desc, uint32_t api_ver)`, around what it does
about the device. -/
def findDevs (devIndex apiVer : BitVec 32) (k : κ) (s : Plugin δ) :
    Except Fault (Plugin δ × PluginOut) :=
  if apiVer < 4 then .ok (s, .found 0 none)
  else if 1 ≤ devIndex then .ok (s, .found 0 none)
  else do
    let dev ← openDev k s.dev
    return ({ s with dev := dev }, .found 1 (some "bus-instance"))

/-- One call of the host. -/
def callStep (transmit : Plugin δ → Except Fault (Transmitted δ)) (s : Plugin δ) :
    PluginCall κ → Except Fault (Plugin δ × PluginOut)
  | .findDevs devIndex apiVer k => findDevs openDev devIndex apiVer k s
  | .host call =>
    match step transmit s call with
    | .ok (s', out) => .ok (s', .host out)
    | .error e => .error e

/-- A sequence of calls. -/
abbrev callRun (transmit : Plugin δ → Except Fault (Transmitted δ)) (s : Plugin δ)
    (calls : List (PluginCall κ)) : Except Fault (Plugin δ × List PluginOut) :=
  Fallible.run (callStep openDev transmit) s calls

end Functions

variable {openDev : κ → δ → Except Fault δ} {transmit : Plugin δ → Except Fault (Transmitted δ)}
  {s s' : Plugin δ} {out : PluginOut}

/-- `find_devs` answers `1` for the first device and a recent version of the interface. -/
theorem findDevs_zero {apiVer : BitVec 32} (h : 4 ≤ apiVer) (k : κ) (s : Plugin δ) :
    findDevs openDev 0 apiVer k s =
      match openDev k s.dev with
      | .ok dev => .ok ({ s with dev := dev }, .found 1 (some "bus-instance"))
      | .error e => .error e := by
  have hindex : ¬ (1 : BitVec 32) ≤ 0 := by decide
  rw [findDevs, if_neg (BitVec.not_lt.mpr h), if_neg hindex]
  cases openDev k s.dev <;> rfl

/-- **What a `find_devs` that ends has done**: it has answered `0` and nothing else, or `1` for
the first device, with what `openDev` has made of it. -/
theorem findDevs_inv {devIndex apiVer : BitVec 32} {k : κ}
    (h : findDevs openDev devIndex apiVer k s = .ok (s', out)) :
    (s' = s ∧ out = .found 0 none) ∨
      4 ≤ apiVer ∧ devIndex = 0 ∧ out = .found 1 (some "bus-instance") ∧
        ∃ dev, openDev k s.dev = .ok dev ∧ s' = { s with dev := dev } := by
  rw [findDevs] at h
  split_ifs at h with hver hindex
  · cases h
    exact Or.inl ⟨rfl, rfl⟩
  · cases h
    exact Or.inl ⟨rfl, rfl⟩
  · have hzero : devIndex = 0 := by
      rw [BitVec.not_le, BitVec.lt_def] at hindex
      exact BitVec.eq_of_toNat_eq (Nat.lt_one_iff.mp hindex)
    rcases hdev : openDev k s.dev with e | dev <;> rw [hdev] at h
    · cases h
    · cases h
      exact Or.inr ⟨BitVec.not_lt.mp hver, hzero, rfl, dev, rfl, rfl⟩

theorem callStep_host {call : HostCall} {o : Out} (h : step transmit s call = .ok (s', o)) :
    callStep openDev transmit s (.host call) = .ok (s', .host o) := by
  simp only [callStep, h]

theorem callStep_host_error {call : HostCall} {e : Fault} (h : step transmit s call = .error e) :
    callStep openDev transmit s (.host call) = .error e := by
  simp only [callStep, h]

/-- What another call that ends has done. -/
theorem callStep_host_inv {call : HostCall}
    (h : callStep openDev transmit s (.host call) = .ok (s', out)) :
    ∃ o, step transmit s call = .ok (s', o) ∧ out = .host o := by
  rcases hstep : step transmit s call with e | ⟨t, o⟩
  · rw [callStep_host_error hstep] at h
    cases h
  · rw [callStep_host hstep] at h
    cases h
    exact ⟨o, rfl, rfl⟩

/-! ### Soundness -/

section Sound

variable {J : δ → Prop} {Ends : δ → List (Bool × Bool) → Prop} {K : κ → Prop}

/-- **A call that ends keeps the queue within its bounds** and the invariant of the device. -/
theorem Contract.callStep_sound (hC : Contract transmit J Ends)
    (hopen : ∀ k d d', K k → J d → openDev k d = .ok d' → J d') (h : Sound J s)
    {call : PluginCall κ} (hcall : call.Given K)
    (hok : callStep openDev transmit s call = .ok (s', out)) : Sound J s' := by
  cases call with
  | findDevs devIndex apiVer k =>
    rcases findDevs_inv hok with ⟨rfl, -⟩ | ⟨-, -, -, dev, hdev, rfl⟩
    · exact h
    · exact ⟨h.count_le, hopen k _ _ hcall h.dev hdev⟩
  | host call =>
    obtain ⟨o, hstep, -⟩ := callStep_host_inv hok
    exact (hC.step_ok h hstep).1

/-- **A run that ends** does. -/
theorem Contract.callRun_sound (hC : Contract transmit J Ends)
    (hopen : ∀ k d d', K k → J d → openDev k d = .ok d' → J d') (h : Sound J s)
    {calls : List (PluginCall κ)} (hcalls : ∀ call ∈ calls, call.Given K) {outs : List PluginOut}
    (hrun : callRun openDev transmit s calls = .ok (s', outs)) : Sound J s' :=
  run_invariant (P := fun _ call => call.Given K)
    (fun _ _ _ _ hcall hs hok => hC.callStep_sound hopen hs hcall hok) (meets_of_forall hcalls)
    h hrun

end Sound

/-! ### What is installed -/

/-- **One call installs what it says**, and nothing else does. -/
theorem callStep_installed {call : PluginCall κ}
    (hok : callStep openDev transmit s call = .ok (s', out)) :
    (s'.serverOps, s'.serverOpsData) = call.installs.getD (s.serverOps, s.serverOpsData) := by
  rcases call with ⟨devIndex, apiVer, k⟩ | (c | re | ⟨desc, ops, parent⟩ | _)
  · rcases findDevs_inv hok with ⟨rfl, -⟩ | ⟨-, -, -, dev, -, rfl⟩ <;> rfl
  · obtain ⟨o, hstep, -⟩ := callStep_host_inv hok
    obtain ⟨q, -, rfl, -⟩ := step_clock_inv hstep
    rfl
  · obtain ⟨o, hstep, -⟩ := callStep_host_inv hok
    obtain ⟨t, q, -, -, rfl, -⟩ := doFlush_inv hstep
    rfl
  · obtain ⟨o, hstep, -⟩ := callStep_host_inv hok
    cases hstep
    by_cases h : Accepts desc parent
    · rw [initDev_accepted h, PluginCall.installs, if_pos h]
      rfl
    · rw [initDev_refused h, PluginCall.installs, if_neg h]
      rfl
  · obtain ⟨o, hstep, -⟩ := callStep_host_inv hok
    cases hstep
    rfl

/-- **After a run that ends**, what is installed is what the last `init_dev` has installed that
has been accepted; `last` is the one before the run. -/
theorem callRun_installed_from : ∀ {calls : List (PluginCall κ)} {s s' : Plugin δ}
    {outs : List PluginOut} (last : Option (ServerOps × Ptr)) (p : ServerOps × Ptr),
    (s.serverOps, s.serverOpsData) = last.getD p →
    callRun openDev transmit s calls = .ok (s', outs) →
      (s'.serverOps, s'.serverOpsData) =
        (calls.foldl (fun last call => call.installs.or last) last).getD p
  | [], _, _, _, _, _, hs, hrun => by
    cases hrun
    exact hs
  | call :: calls, s, s', outs, last, p, hs, hrun => by
    obtain ⟨t, o, os, hstep, hrest, -⟩ := run_cons_inv hrun
    refine callRun_installed_from (call.installs.or last) p ?_ hrest
    rw [callStep_installed hstep, hs]
    cases call.installs <;> rfl

theorem callRun_installed {calls : List (PluginCall κ)} {outs : List PluginOut}
    (hrun : callRun openDev transmit s calls = .ok (s', outs)) :
    (s'.serverOps, s'.serverOpsData) =
      (lastAccepted calls).getD (s.serverOps, s.serverOpsData) :=
  callRun_installed_from none _ rfl hrun

end Plugin

end JtagHw
