import JtagHw.Chip
import JtagHw.Mpsse.Open
import JtagHw.Plugin.Discovery

/-!
# The device handle

The `find_devs` of the hardware plugin opens the device: `ctx` is what `mpsse_open` returns,
and it is asked again in every `find_devs` until it has returned a context. But what it
returns is not looked at: `find_devs` answers `1` also when it is `NULL`, and the next
`do_flush` passes that on.

So the answer can be relied on (`JtagHw.Otma.HandleGood`) just if the device can be opened in
every `find_devs` that answers `1` and finds no context (`JtagHw.Otma.Finds`,
`JtagHw.Otma.handle_good_iff`).
-/

namespace JtagHw

open Fallible

namespace Otma

variable {δ : Type}

/-- The arguments of `mpsse_open` in `find_devs`. -/
def wanted : Wanted where
  vid := some 0x0403
  pid := some 0x6014
  product := none
  serial := none
  location := none

/-- What `find_devs` does about the device: `mpsse_open` is called if `ctx` is `NULL`. -/
def openCtx (L : UsbLink δ) (host : UsbHost δ) :
    Option (MpsseCtx δ) → Except Fault (Option (MpsseCtx δ))
  | none => mpsseOpen L wanted 0 host
  | some ctx => .ok (some ctx)

/-- One call of the host. -/
abbrev callStep (L : UsbLink δ) (s : State δ) (call : PluginCall (UsbHost δ)) :
    Except Fault (State δ × PluginOut) :=
  Plugin.callStep (openCtx L) (transmit L) s call

/-- A sequence of calls. -/
abbrev callRun (L : UsbLink δ) (s : State δ) (calls : List (PluginCall (UsbHost δ))) :
    Except Fault (State δ × List PluginOut) :=
  Plugin.callRun (openCtx L) (transmit L) s calls

/-- A `find_devs` that answers `1` finds a context, or can open the device. -/
def Finds (s : State δ) : PluginCall (UsbHost δ) → Prop
  | .findDevs devIndex apiVer host =>
    4 ≤ apiVer → devIndex = 0 → s.dev = none → host.Opens wanted 0
  | .host _ => True

/-- **The device handle is good** at a call from the state `s`, when the calls before have shown
`outs`: a `find_devs` answers `1` only if it leaves an open device, and a `do_flush` after
one that has answered `1` does not pass on a null pointer. -/
structure HandleGood (L : UsbLink δ) (s : State δ) (outs : List PluginOut)
    (call : PluginCall (UsbHost δ)) : Prop where
  found : ∀ s' outDesc, callStep L s call = .ok (s', .found 1 outDesc) → HasIdle s'.dev
  flush : (∃ outDesc, PluginOut.found 1 outDesc ∈ outs) → ∀ re, call = .host (.flush re) →
    callStep L s call ≠ .error .nullContext

variable {L : UsbLink δ} {s s' : State δ}

/-- A context that is there is kept, and one that is opened is idle. -/
theorem openCtx_idle (host : UsbHost δ) (d d' : Option (MpsseCtx δ)) (hhost : host.BulkPackets)
    (hd : d = none ∨ HasIdle d) (h : openCtx L host d = .ok d') : d' = none ∨ HasIdle d' := by
  rcases d with _ | c
  · rcases d' with _ | c'
    · exact Or.inl rfl
    · exact Or.inr ⟨c', rfl, mpsseOpen_idle hhost h⟩
  · cases h
    exact hd

theorem openCtx_hasIdle (host : UsbHost δ) (d d' : Option (MpsseCtx δ))
    (_ : host.BulkPackets) (hd : HasIdle d) (h : openCtx L host d = .ok d') : HasIdle d' := by
  obtain ⟨c, rfl, hidle⟩ := hd
  cases h
  exact ⟨c, rfl, hidle⟩

/-- **There is no context afterwards** just if there was none and the device is not opened. -/
theorem openCtx_null_iff {host : UsbHost δ} {d : Option (MpsseCtx δ)} :
    openCtx L host d = .ok none ↔ d = none ∧ ¬ host.Opens wanted 0 := by
  rcases d with _ | c
  · exact mpsseOpen_null_iff.trans ⟨fun h => ⟨rfl, h⟩, fun h => h.2⟩
  · exact ⟨fun h => (by cases h), fun h => (by cases h.1)⟩

/-- Between two calls. -/
abbrev Sound (s : State δ) : Prop := Plugin.Sound (fun d => d = none ∨ HasIdle d) s

/-- **A `find_devs` that answers `1`** leaves an open device, if it finds one or can open it. -/
theorem hasIdle_of_found (h : Sound s) {call : PluginCall (UsbHost δ)}
    (hhost : call.Given UsbHost.BulkPackets) (hfinds : Finds s call) {outDesc : Option String}
    (hok : callStep L s call = .ok (s', .found 1 outDesc)) :
    HasIdle s'.dev := by
  cases call with
  | findDevs devIndex apiVer host =>
    rcases Plugin.findDevs_inv hok with ⟨-, hout⟩ | ⟨hver, hindex, -, dev, hdev, rfl⟩
    · cases hout
    · rcases openCtx_idle host _ _ hhost h.dev hdev with rfl | hidle
      · obtain ⟨hnull, hfails⟩ := openCtx_null_iff.mp hdev
        exact absurd (hfinds hver hindex hnull) hfails
      · exact hidle
  | host call =>
    obtain ⟨o, -, hout⟩ := Plugin.callStep_host_inv hok
    cases hout

/-- **A flush from an idle context** passes on no null pointer. -/
theorem flush_ne_nullContext (h : Plugin.Sound HasIdle s) (re : Reentry) :
    callStep L s (.host (.flush re)) ≠ .error .nullContext := by
  intro herr
  rcases hstep : step L s (.flush re) with e | ⟨t, o⟩
  · cases (Plugin.callStep_host_error hstep).symm.trans herr
    rcases Plugin.doFlush_error hstep with he | he
    · exact transmit_ne_error h.dev h.count_le (by decide) (by decide) he
    · rcases Plugin.reenter_error he with ⟨he, -⟩ | he | he
      · cases he
      · cases ClockCall.execAll_error h.count_le he
      · cases ClockCall.execAll_error Queue.count_empty_le he
  · cases (Plugin.callStep_host hstep).symm.trans herr

/-- After a `find_devs` that has answered `1` there is an open device, for the rest of the run. -/
theorem hasIdle_of_told (h : Sound s) {calls : List (PluginCall (UsbHost δ))}
    {outs : List PluginOut} (hhosts : ∀ call ∈ calls, call.Given UsbHost.BulkPackets)
    (hfinds : Meets (callStep L) Finds s calls) (hrun : callRun L s calls = .ok (s', outs))
    (htold : ∃ outDesc, PluginOut.found 1 outDesc ∈ outs) : Plugin.Sound HasIdle s' := by
  -- every call is made in a sound state, and with what it is allowed
  have hsound : Meets (callStep L)
      (fun s call => Sound s ∧ Finds s call ∧ call.Given UsbHost.BulkPackets) s calls :=
    (hfinds.and (meets_of_forall hhosts)).imp
      (fun s call s' out hcall hs hok =>
        (contract_or_null L).callStep_sound openCtx_idle hs hcall.2 hok)
      (fun s call _ hs hcall => ⟨hs, hcall⟩) h
  obtain ⟨outDesc, hmem⟩ := htold
  refine run_since (Q := fun out => ∃ outDesc, out = .found 1 outDesc)
    (fun s call s' out hcall hs hok =>
      (contract L).callStep_sound openCtx_hasIdle hs hcall.2.2 hok) ?_ hsound hrun
    ⟨_, hmem, outDesc, rfl⟩
  rintro s call s' out ⟨hs, hf, hhost⟩ hok ⟨outDesc, rfl⟩
  have hs' := (contract_or_null L).callStep_sound openCtx_idle hs hhost hok
  exact ⟨hs'.count_le, hasIdle_of_found hs hhost hf hok⟩

/-- **The device handle.** In a run of calls, to begin with no context or an idle one, and with
devices whose packets are those of bulk endpoints, the handle is good at every call just if
every `find_devs` that answers `1` finds a context, or can open the device. -/
theorem handle_good_iff (L : UsbLink δ) {s : State δ} (hctx : s.dev = none ∨ HasIdle s.dev)
    (hcap : s.queue.count ≤ capacity) (calls : List (PluginCall (UsbHost δ)))
    (hhosts : ∀ call ∈ calls, call.Given UsbHost.BulkPackets) :
    (∀ before call after s₁ outs, calls = before ++ call :: after →
      callRun L s before = .ok (s₁, outs) → HandleGood L s₁ outs call) ↔
      Meets (callStep L) Finds s calls := by
  constructor
  · intro hgood
    refine meets_iff.mpr fun before call after s₁ outs hcalls hrun => ?_
    have hcall := hgood before call after s₁ outs hcalls hrun
    rcases call with ⟨devIndex, apiVer, host⟩ | call
    · rintro hver rfl hnull
      by_contra hfails
      -- it answers `1` all the same
      obtain ⟨c, hc, -⟩ := hcall.found { s₁ with dev := none } (some "bus-instance") (by
        rw [callStep, Plugin.callStep, Plugin.findDevs_zero hver,
          openCtx_null_iff.mpr ⟨hnull, hfails⟩])
      cases hc
    · trivial
  · intro hfinds before call after s₁ outs hcalls hrun
    rw [hcalls, List.forall_mem_append, List.forall_mem_cons] at hhosts
    obtain ⟨hbefore, hcall, -⟩ := hhosts
    have hsound := (contract_or_null L).callRun_sound openCtx_idle ⟨hcap, hctx⟩ hbefore hrun
    rw [hcalls] at hfinds
    refine ⟨fun s₂ outDesc hok => hasIdle_of_found hsound hcall (hfinds.next hrun) hok, ?_⟩
    rintro htold re rfl
    exact flush_ne_nullContext
      (hasIdle_of_told ⟨hcap, hctx⟩ hbefore hfinds.append_left hrun htold) re

/-- The hardware plugin, opened by the host, before its first `find_devs`. -/
def unopened (δ : Type) : State δ := ⟨⟨1, 2⟩, 3, .empty, .zero, 0, none⟩

/-- The descriptor of an FT232H. -/
def ft232hDescriptor : DeviceDescriptor := ⟨0x0403, 0x6014, 0x900, 0, 0, 1⟩

/-- Its two bulk endpoints. -/
def ft232hIn : EndpointDescriptor := ⟨0x81, 512⟩

def ft232hOut : EndpointDescriptor := ⟨0x02, 512⟩

/-- Its configuration: one interface with these endpoints. -/
def ft232hConfig : ConfigDescriptor := ⟨1, [[[ft232hIn, ft232hOut]]]⟩

/-- An FT232H that answers to everything. -/
def ft232h : UsbDevice Chip where
  deviceDescriptor := some ft232hDescriptor
  opens := .success
  stringDescriptor _ := none
  configDescriptor := some ft232hConfig
  configuration := some 1
  setConfiguration := .success
  claimInterface := .success
  reset := .success
  setLatencyTimer := .success
  setBitmode := .success
  dev := freshChip

/-- A host with these devices plugged in. -/
def plugged {δ : Type} (devices : List (UsbDevice δ)) : UsbHost δ :=
  ⟨true, true, some .zero, some .zero, .success, some devices⟩

theorem ft232h_matches : ft232h.Matches wanted ft232hDescriptor where
  descriptor := rfl
  vid := by simp [wanted, ft232hDescriptor]
  pid := by simp [wanted, ft232hDescriptor]
  opens := rfl
  location := rfl
  product := nofun
  serial := nofun

theorem ft232h_usable : ft232h.Usable 0 ft232hDescriptor ft232hIn where
  configured := by
    have hpair : BulkPair [ft232hIn, ft232hOut] ft232hIn :=
      ⟨ft232hOut, Or.inl rfl, show (0x81 : BitVec 8) &&& 0x80 ≠ 0 by decide,
        show ¬ (0x02 : BitVec 8) &&& 0x80 ≠ 0 by decide, show (0x02 : BitVec 8) ≠ 0 by decide⟩
    have hcfg : (1 : CInt) = ft232hConfig.bConfigurationValue.setWidth 32 := by decide
    exact ⟨ft232hConfig, 1, rfl, rfl, Or.inl hcfg, [ft232hIn, ft232hOut], [], rfl, hpair⟩
  configurations := by decide
  claimInterface := rfl
  reset := rfl
  chip := by decide

theorem plugged_opens : (plugged [ft232h]).Opens wanted 0 where
  callocCtx := rfl
  mallocReadChunk := rfl
  mallocReadBuffer := nofun
  mallocWriteBuffer := nofun
  init := rfl
  device := by
    rintro _ ⟨⟩
    exact ⟨ft232h, ft232hIn, ⟨[], [], ft232hDescriptor, rfl,
      fun _ h => absurd h List.not_mem_nil, ft232h_matches, ft232h_usable⟩, rfl, rfl⟩

theorem ft232h_bulkPackets : ft232h.BulkPackets := by
  simp [UsbDevice.BulkPackets, ft232h, ft232hConfig, ft232hIn, ft232hOut]

theorem plugged_bulkPackets {δ : Type} {devices : List (UsbDevice δ)}
    (h : ∀ device ∈ devices, device.BulkPackets) : (plugged devices).BulkPackets := by
  rintro _ ⟨⟩
  exact h

/-- Nothing plugged in at first; then the device is, and a flush follows. -/
def replugged : List (PluginCall (UsbHost Chip)) :=
  [.findDevs 1 4 (plugged []), .findDevs 0 4 (plugged [ft232h]), .findDevs 0 4 (plugged []),
    .host (.flush .silent)]

theorem handle_good_iff_replugged :
    Meets (callStep perfectLink.toUsbLink) Finds (unopened Chip) replugged ∧
      ∀ before call after s₁ outs, replugged = before ++ call :: after →
        callRun perfectLink.toUsbLink (unopened Chip) before = .ok (s₁, outs) →
          HandleGood perfectLink.toUsbLink s₁ outs call := by
  have hmeets : Meets (callStep perfectLink.toUsbLink) Finds (unopened Chip) replugged := by
    refine ⟨fun _ hindex _ => absurd hindex (by decide), fun s₁ out₁ hfirst =>
      ⟨fun _ _ _ => plugged_opens, fun s₂ out₂ hsecond =>
        ⟨fun _ _ hnull => ?_, fun _ _ _ => ⟨trivial, fun _ _ _ => trivial⟩⟩⟩⟩
    -- the second one has opened the device
    rw [callStep, Plugin.callStep, Plugin.findDevs_zero (by decide)] at hsecond
    rcases hdev : openCtx perfectLink.toUsbLink (plugged [ft232h]) s₁.dev with e | d <;>
      rw [hdev] at hsecond <;> cases hsecond
    obtain rfl : d = none := hnull
    exact absurd plugged_opens (openCtx_null_iff.mp hdev).2
  have hnone : (plugged ([] : List (UsbDevice Chip))).BulkPackets :=
    plugged_bulkPackets fun _ h => absurd h List.not_mem_nil
  have hhosts : ∀ call ∈ replugged, call.Given UsbHost.BulkPackets := by
    simp only [replugged, List.forall_mem_cons, List.not_mem_nil, false_implies, implies_true,
      and_true]
    exact ⟨hnone, plugged_bulkPackets (List.forall_mem_singleton.mpr ft232h_bulkPackets), hnone,
      trivial⟩
  exact ⟨hmeets,
    (handle_good_iff perfectLink.toUsbLink (Or.inl rfl) (Nat.zero_le _) _ hhosts).mpr hmeets⟩

/-- Nothing plugged in, and yet `find_devs` answers `1`; the flush after it passes on `NULL`. -/
theorem handle_good_false_of_unplugged :
    callRun perfectLink.toUsbLink (unopened Chip) [.findDevs 0 4 (plugged [])] =
        .ok (unopened Chip, [.found 1 (some "bus-instance")]) ∧
      callStep perfectLink.toUsbLink (unopened Chip) (.host (.flush .silent)) =
        .error .nullContext ∧
      ¬ ∀ before call after s₁ outs,
        [.findDevs 0 4 (plugged []), .host (.flush .silent)] = before ++ call :: after →
          callRun perfectLink.toUsbLink (unopened Chip) before = .ok (s₁, outs) →
            HandleGood perfectLink.toUsbLink s₁ outs call := by
  have hclosed : mpsseOpen perfectLink.toUsbLink wanted 0 (plugged []) = .ok none := rfl
  have hfound : callStep perfectLink.toUsbLink (unopened Chip) (.findDevs 0 4 (plugged [])) =
      .ok (unopened Chip, .found 1 (some "bus-instance")) := by
    rw [callStep, Plugin.callStep, Plugin.findDevs_zero (by decide)]
    rfl
  refine ⟨run_singleton hfound, ?_, fun hgood => ?_⟩
  · refine Plugin.callStep_host_error ?_
    rw [Plugin.step, Plugin.doFlush, transmit_null rfl]
    rfl
  · obtain ⟨c, hc, -⟩ := (hgood [] _ _ _ [] rfl rfl).found _ _ hfound
    cases hc

end Otma

end JtagHw
