import JtagHw.Mpsse.Flush

/-!
# Opening the device

`mpsse_open` of `openocd/src/jtag/drivers/mpsse.c`: memory is allocated, libusb is
started, the first device of its list that answers to what is asked for is looked for
(`JtagHw.matchingDevice`) and set up (`JtagHw.openMatchingDevice`), and two more requests
put it into MPSSE mode. Each of these can fail, and then the function returns `NULL`.

What libusb says of the devices, and what becomes of the calls made on them, is not in the
source. It is the `JtagHw.UsbHost`, one for each call of `mpsse_open`, and it can be anything.

When a context is returned can be said without following the function
(`JtagHw.UsbHost.Opens`, `JtagHw.mpsseOpen_null_iff`), and the context is idle
(`JtagHw.mpsseOpen_idle`).
-/

namespace JtagHw

open PackedBits

/-! ### What libusb says -/

/-- `struct libusb_device_descriptor`, as far as it is looked at. -/
structure DeviceDescriptor where
  idVendor : BitVec 16
  idProduct : BitVec 16
  bcdDevice : BitVec 16
  iProduct : Byte
  iSerialNumber : Byte
  bNumConfigurations : Byte

/-- `struct libusb_endpoint_descriptor`. -/
structure EndpointDescriptor where
  bEndpointAddress : Byte
  wMaxPacketSize : ℕ

/-- `struct libusb_interface_descriptor`: its endpoints. -/
abbrev InterfaceDescriptor := List EndpointDescriptor

/-- `struct libusb_config_descriptor`. -/
structure ConfigDescriptor where
  bConfigurationValue : Byte
  /-- The interfaces, each the list of its alternate settings. -/
  interface : List (List InterfaceDescriptor)

/-- A device on the bus: what libusb says of it, and what it returns from the calls that
are made on it; nothing, or a code other than `success`, where the call fails. -/
structure UsbDevice (δ : Type) where
  /-- `libusb_get_device_descriptor`. -/
  deviceDescriptor : Option DeviceDescriptor
  /-- `libusb_open`. -/
  opens : UsbRc
  /-- `libusb_get_string_descriptor_ascii`. -/
  stringDescriptor : Byte → Option String
  /-- `libusb_get_config_descriptor`. -/
  configDescriptor : Option ConfigDescriptor
  /-- `libusb_get_configuration`. -/
  configuration : Option CInt
  /-- `libusb_set_configuration`. -/
  setConfiguration : UsbRc
  /-- `libusb_claim_interface`. -/
  claimInterface : UsbRc
  /-- `libusb_control_transfer` of `SIO_RESET_REQUEST`. -/
  reset : UsbRc
  /-- `libusb_control_transfer` of `SIO_SET_LATENCY_TIMER_REQUEST`. -/
  setLatencyTimer : UsbRc
  /-- `libusb_control_transfer` of `SIO_SET_BITMODE_REQUEST`. -/
  setBitmode : UsbRc
  /-- The device as it is after these requests. -/
  dev : δ

/-- What the environment makes of one call of `mpsse_open`. -/
structure UsbHost (δ : Type) where
  /-- There is memory for the context. -/
  callocCtx : Bool
  /-- There is memory for `read_chunk`. -/
  mallocReadChunk : Bool
  mallocReadBuffer : Option (Buf bufferSize)
  mallocWriteBuffer : Option (Buf bufferSize)
  /-- `libusb_init`. -/
  init : UsbRc
  /-- `libusb_get_device_list`. -/
  deviceList : Option (List (UsbDevice δ))

variable {δ : Type}

/-- The packets of a device carry something beside the two status bytes, as those of every
bulk endpoint do: they are of eight bytes at least. -/
def UsbDevice.BulkPackets (device : UsbDevice δ) : Prop :=
  ∀ config0, device.configDescriptor = some config0 → ∀ altsettings ∈ config0.interface,
    ∀ descriptor ∈ altsettings, ∀ endpoint ∈ descriptor, 2 < endpoint.wMaxPacketSize

/-- **What is assumed of a host**: the packets of all its devices do. -/
def UsbHost.BulkPackets (host : UsbHost δ) : Prop :=
  ∀ list, host.deviceList = some list → ∀ device ∈ list, device.BulkPackets

/-! ### The functions -/

/-- `enum ftdi_chip_type`. -/
inductive FtdiChipType
  | ft2232c
  | ft2232h
  | ft4232h
  | ft232h
  deriving DecidableEq

/-- The `switch` over `desc.bcdDevice`. -/
def ftdiChipType (bcdDevice : BitVec 16) : Option FtdiChipType :=
  if bcdDevice = 0x500 then some .ft2232c
  else if bcdDevice = 0x700 then some .ft2232h
  else if bcdDevice = 0x800 then some .ft4232h
  else if bcdDevice = 0x900 then some .ft232h
  else none

/-- `string_descriptor_equal`. -/
def stringDescriptorEqual (device : UsbDevice δ) (strIndex : Byte) (string : String) : Bool :=
  match device.stringDescriptor strIndex with
  | none => false
  | some descString => string == descString

/-- `device_location_equal`. The build does not define `HAVE_LIBUSB_GET_PORT_NUMBERS`. -/
def deviceLocationEqual (_device : UsbDevice δ) (_location : String) : Bool := false

/-- What is asked for; nothing is asked for where the pointer is `NULL`. -/
structure Wanted where
  vid : Option (BitVec 16)
  pid : Option (BitVec 16)
  product : Option String
  serial : Option String
  location : Option String

/-- One iteration of the loop of `open_matching_device`, which breaks where this is a device
with its descriptor. -/
def matchingDevice (w : Wanted) (device : UsbDevice δ) :
    Option (UsbDevice δ × DeviceDescriptor) := do
  let desc ← device.deviceDescriptor
  guard (∀ vid ∈ w.vid, vid = desc.idVendor)
  guard (∀ pid ∈ w.pid, pid = desc.idProduct)
  guard (device.opens = .success)
  guard (∀ location ∈ w.location, deviceLocationEqual device location)
  guard (∀ product ∈ w.product, stringDescriptorEqual device desc.iProduct product)
  guard (∀ serial ∈ w.serial, stringDescriptorEqual device desc.iSerialNumber serial)
  return (device, desc)

/-- `in_ep` with its `max_packet_size`, and `out_ep`, while the endpoints are gone through. An
`in_ep` has its top bit set, so it is `0` as long as there is none. -/
structure Endpoints where
  inEp : Option EndpointDescriptor
  outEp : Byte

/-- One iteration of the loop over the endpoints. -/
def Endpoints.scan (e : Endpoints) (endpoint : EndpointDescriptor) : Endpoints :=
  if endpoint.bEndpointAddress &&& 0x80 ≠ 0 then { e with inEp := some endpoint }
  else { e with outEp := endpoint.bEndpointAddress }

/-- The end of `open_matching_device`: "Determine maximum packet size and endpoint
addresses". -/
def bulkEndpoints (interface : ℕ) (desc : DeviceDescriptor) (config0 : ConfigDescriptor) :
    Option EndpointDescriptor := do
  guard (desc.bNumConfigurations ≠ 0)
  let altsettings ← config0.interface[interface]?
  let descriptor ← altsettings.head?
  guard (descriptor.length = 2)
  let e := descriptor.foldl Endpoints.scan ⟨none, 0⟩
  let inEp ← e.inEp
  guard (e.outEp ≠ 0)
  return inEp

/-- `open_matching_device`, from the device list on: the device, opened, and its `in_ep`. -/
def openMatchingDevice (w : Wanted) (interface : ℕ) (list : List (UsbDevice δ)) :
    Option (UsbDevice δ × EndpointDescriptor) := do
  let (device, desc) ← list.findSome? (matchingDevice w)
  let config0 ← device.configDescriptor
  let cfg ← device.configuration
  guard (desc.bNumConfigurations ≠ 0 ∧ cfg ≠ config0.bConfigurationValue.setWidth 32 →
    device.setConfiguration = .success)
  -- what `libusb_detach_kernel_driver` returns is ignored
  guard (device.claimInterface = .success)
  guard (device.reset = .success)
  let _type ← ftdiChipType desc.bcdDevice
  let inEp ← bulkEndpoints interface desc config0
  return (device, inEp)

/-- The device found, put into MPSSE mode. -/
def startDevice (w : Wanted) (interface : ℕ) (list : List (UsbDevice δ)) :
    Option (UsbDevice δ × EndpointDescriptor) := do
  let (device, inEp) ← openMatchingDevice w interface list
  guard (device.setLatencyTimer = .success)
  guard (device.setBitmode = .success)
  return (device, inEp)

/-- The `calloc` and the three `malloc`s of `mpsse_open`: the read and the write buffer. -/
def UsbHost.malloc (host : UsbHost δ) : Option (Buf bufferSize × Buf bufferSize) := do
  guard host.callocCtx
  guard host.mallocReadChunk
  let readBuffer ← host.mallocReadBuffer
  let writeBuffer ← host.mallocWriteBuffer
  return (readBuffer, writeBuffer)

/-- The context, as it has been filled in when the device is in MPSSE mode. -/
def filledIn (readBuffer writeBuffer : Buf bufferSize) (device : UsbDevice δ)
    (inEp : EndpointDescriptor) : MpsseCtx δ where
  usb := device.dev
  maxPacketSize := inEp.wMaxPacketSize
  writeBuffer := writeBuffer
  writeCount := 0
  readBuffer := readBuffer
  readCount := 0
  readQueue := []
  retval := errorOk
  writes := []

/-- `struct mpsse_ctx *mpsse_open(const uint16_t *vid, const uint16_t *pid, const char
*description, const char *serial, const char *location, int channel)`; the result is `none`
for `NULL`. -/
def mpsseOpen (L : UsbLink δ) (w : Wanted) (channel : CInt) (host : UsbHost δ) :
    Except Fault (Option (MpsseCtx δ)) :=
  match host.malloc with
  | none => .ok none
  | some (readBuffer, writeBuffer) =>
    if host.init ≠ .success then .ok none
    else
      match host.deviceList with
      -- `list` has not been set, and is passed to `libusb_free_device_list` all the same
      | none => .error .outOfBounds
      | some list =>
        match startDevice w (channel.setWidth 8).toNat list with
        | none => .ok none
        | some (device, inEp) =>
          .ok (some (mpssePurge L (filledIn readBuffer writeBuffer device inEp)))

/-! ### When a device is opened -/

/-- An endpoint that data comes in from. -/
def EndpointDescriptor.IsIn (e : EndpointDescriptor) : Prop := e.bEndpointAddress &&& 0x80 ≠ 0

/-- Two endpoints, in either order: data comes in from `inEp` and goes out to the other one. -/
def BulkPair (descriptor : InterfaceDescriptor) (inEp : EndpointDescriptor) : Prop :=
  ∃ outEp, (descriptor = [inEp, outEp] ∨ descriptor = [outEp, inEp]) ∧ inEp.IsIn ∧
    ¬ outEp.IsIn ∧ outEp.bEndpointAddress ≠ 0

namespace UsbDevice

/-- **The device answers to what is asked for**, and can be opened. -/
structure Matches (w : Wanted) (device : UsbDevice δ) (desc : DeviceDescriptor) : Prop where
  descriptor : device.deviceDescriptor = some desc
  vid : ∀ vid ∈ w.vid, vid = desc.idVendor
  pid : ∀ pid ∈ w.pid, pid = desc.idProduct
  opens : device.opens = .success
  location : w.location = none
  product : ∀ product ∈ w.product, device.stringDescriptor desc.iProduct = some product
  serial : ∀ serial ∈ w.serial, device.stringDescriptor desc.iSerialNumber = some serial

/-- **The device can be set up**: it is one of the chips known, all the requests made on it
succeed, and the first setting of the interface has one endpoint for either direction. -/
structure Usable (interface : ℕ) (device : UsbDevice δ) (desc : DeviceDescriptor)
    (inEp : EndpointDescriptor) : Prop where
  configured : ∃ config0 cfg, device.configDescriptor = some config0 ∧
    device.configuration = some cfg ∧
    (cfg = config0.bConfigurationValue.setWidth 32 ∨ device.setConfiguration = .success) ∧
    ∃ descriptor rest, config0.interface[interface]? = some (descriptor :: rest) ∧
      BulkPair descriptor inEp
  configurations : desc.bNumConfigurations ≠ 0
  claimInterface : device.claimInterface = .success
  reset : device.reset = .success
  chip : desc.bcdDevice ∈ [0x500, 0x700, 0x800, 0x900]

end UsbDevice

/-- **The first device in the list that answers can be set up.** -/
def FirstUsable (w : Wanted) (interface : ℕ) (list : List (UsbDevice δ))
    (device : UsbDevice δ) (inEp : EndpointDescriptor) : Prop :=
  ∃ before after desc, list = before ++ device :: after ∧
    (∀ d ∈ before, ∀ desc', ¬ d.Matches w desc') ∧ device.Matches w desc ∧
    device.Usable interface desc inEp

theorem FirstUsable.two_lt_wMaxPacketSize {w : Wanted} {interface : ℕ}
    {list : List (UsbDevice δ)} {device : UsbDevice δ} {inEp : EndpointDescriptor}
    (h : FirstUsable w interface list device inEp) (hpackets : ∀ d ∈ list, d.BulkPackets) :
    2 < inEp.wMaxPacketSize := by
  obtain ⟨before, after, desc, rfl, -, -, husable⟩ := h
  obtain ⟨config0, -, hconfig0, -, -, descriptor, rest, hinterface, outEp, hpair, -⟩ :=
    husable.configured
  refine hpackets device (by simp) config0 hconfig0 _ (List.mem_of_getElem? hinterface) descriptor
    (List.mem_cons_self ..) inEp ?_
  rcases hpair with rfl | rfl <;> simp

/-- **The device is opened**, if the function gets that far: there is memory, libusb starts,
the first device that answers can be set up, and put into MPSSE mode. Where there is no list
of devices the function does not return, and so does not return `NULL`; this counts as
opening here. -/
structure UsbHost.Opens (w : Wanted) (interface : ℕ) (host : UsbHost δ) : Prop where
  callocCtx : host.callocCtx = true
  mallocReadChunk : host.mallocReadChunk = true
  mallocReadBuffer : host.mallocReadBuffer ≠ none
  mallocWriteBuffer : host.mallocWriteBuffer ≠ none
  init : host.init = .success
  device : ∀ list, host.deviceList = some list →
    ∃ device inEp, FirstUsable w interface list device inEp ∧
      device.setLatencyTimer = .success ∧ device.setBitmode = .success

/-! ### The functions say just that -/

theorem ftdiChipType_some_iff {bcdDevice : BitVec 16} :
    (∃ type, ftdiChipType bcdDevice = some type) ↔ bcdDevice ∈ [0x500, 0x700, 0x800, 0x900] := by
  rw [ftdiChipType]
  split_ifs <;> simp_all

theorem stringDescriptorEqual_iff {device : UsbDevice δ} {strIndex : Byte} {string : String} :
    stringDescriptorEqual device strIndex string = true ↔
      device.stringDescriptor strIndex = some string := by
  rw [stringDescriptorEqual]
  rcases device.stringDescriptor strIndex with _ | descString
  · simp only [Bool.false_eq_true, reduceCtorEq]
  · rw [beq_iff_eq, Option.some.injEq, eq_comm]

theorem matchingDevice_eq_some_iff {w : Wanted} {d device : UsbDevice δ}
    {desc : DeviceDescriptor} :
    matchingDevice w d = some (device, desc) ↔ d = device ∧ device.Matches w desc := by
  simp only [matchingDevice, Option.bind_eq_bind, Option.bind_eq_some_iff, Option.guard_eq_some',
    exists_const, Option.pure_def, Option.some.injEq, Prod.mk.injEq, stringDescriptorEqual_iff]
  constructor
  · rintro ⟨_, hdesc, hvid, hpid, hopens, hlocation, hproduct, hserial, rfl, rfl⟩
    refine ⟨rfl, hdesc, hvid, hpid, hopens, ?_, hproduct, hserial⟩
    -- a location is never found
    exact Option.eq_none_iff_forall_not_mem.mpr fun location h => by cases hlocation location h
  · rintro ⟨rfl, h⟩
    refine ⟨desc, h.descriptor, h.vid, h.pid, h.opens, ?_, h.product, h.serial, rfl, rfl⟩
    rw [h.location]
    exact fun _ hmem => absurd hmem (Option.not_mem_none _)

/-- No device is found in a list just if none in it answers. -/
theorem matchingDevice_eq_none_iff {w : Wanted} {d : UsbDevice δ} :
    matchingDevice w d = none ↔ ∀ desc, ¬ d.Matches w desc := by
  constructor
  · intro hnone desc h
    rw [matchingDevice_eq_some_iff.mpr ⟨rfl, h⟩] at hnone
    cases hnone
  · intro h
    rcases hd : matchingDevice w d with _ | ⟨device, desc⟩
    · rfl
    · obtain ⟨rfl, hmatches⟩ := matchingDevice_eq_some_iff.mp hd
      exact absurd hmatches (h desc)

theorem Endpoints.scan_in {e : Endpoints} {endpoint : EndpointDescriptor} (h : endpoint.IsIn) :
    e.scan endpoint = { e with inEp := some endpoint } :=
  if_pos h

theorem Endpoints.scan_out {e : Endpoints} {endpoint : EndpointDescriptor} (h : ¬ endpoint.IsIn) :
    e.scan endpoint = { e with outEp := endpoint.bEndpointAddress } :=
  if_neg h

/-- What the loop over the endpoints finds in two of them. -/
theorem bulkPair_iff {descriptor : InterfaceDescriptor} {inEp : EndpointDescriptor} :
    BulkPair descriptor inEp ↔ descriptor.length = 2 ∧
      (descriptor.foldl Endpoints.scan ⟨none, 0⟩).inEp = some inEp ∧
      (descriptor.foldl Endpoints.scan ⟨none, 0⟩).outEp ≠ 0 := by
  constructor
  · rintro ⟨outEp, rfl | rfl, hin, hout, hne⟩
    · rw [List.foldl_cons, Endpoints.scan_in hin, List.foldl_cons, Endpoints.scan_out hout]
      exact ⟨rfl, rfl, hne⟩
    · rw [List.foldl_cons, Endpoints.scan_out hout, List.foldl_cons, Endpoints.scan_in hin]
      exact ⟨rfl, rfl, hne⟩
  · rintro ⟨hlen, hin, hout⟩
    obtain ⟨a, b, rfl⟩ := List.length_eq_two.mp hlen
    rw [List.foldl_cons, List.foldl_cons, List.foldl_nil] at hin hout
    -- two endpoints for one direction leave the other one unset
    by_cases ha : a.IsIn <;> by_cases hb : b.IsIn
    · rw [Endpoints.scan_in ha, Endpoints.scan_in hb] at hout
      exact absurd rfl hout
    · rw [Endpoints.scan_in ha, Endpoints.scan_out hb] at hin hout
      cases hin
      exact ⟨b, Or.inl rfl, ha, hb, hout⟩
    · rw [Endpoints.scan_out ha, Endpoints.scan_in hb] at hin hout
      cases hin
      exact ⟨a, Or.inr rfl, hb, ha, hout⟩
    · rw [Endpoints.scan_out ha, Endpoints.scan_out hb] at hin
      cases hin

theorem bulkEndpoints_eq_some_iff {interface : ℕ} {desc : DeviceDescriptor}
    {config0 : ConfigDescriptor} {inEp : EndpointDescriptor} :
    bulkEndpoints interface desc config0 = some inEp ↔ desc.bNumConfigurations ≠ 0 ∧
      ∃ descriptor rest, config0.interface[interface]? = some (descriptor :: rest) ∧
        BulkPair descriptor inEp := by
  simp only [bulkEndpoints, Option.bind_eq_bind, Option.bind_eq_some_iff, Option.guard_eq_some',
    exists_const, Option.pure_def, Option.some.injEq, bulkPair_iff]
  constructor
  · rintro ⟨hconfigurations, settings, hsettings, descriptor, hhead, hlen, e, he, hout, rfl⟩
    obtain ⟨rest, rfl⟩ := List.head?_eq_some_iff.mp hhead
    exact ⟨hconfigurations, descriptor, rest, hsettings, hlen, he, hout⟩
  · rintro ⟨hconfigurations, descriptor, rest, hsettings, hlen, he, hout⟩
    exact ⟨hconfigurations, _, hsettings, descriptor, rfl, hlen, inEp, he, hout, rfl⟩

/-- **The device found is the first one that answers**, and it can be set up. -/
theorem openMatchingDevice_eq_some_iff {w : Wanted} {interface : ℕ} {list : List (UsbDevice δ)}
    {device : UsbDevice δ} {inEp : EndpointDescriptor} :
    openMatchingDevice w interface list = some (device, inEp) ↔
      FirstUsable w interface list device inEp := by
  simp only [openMatchingDevice, Option.bind_eq_bind, Option.bind_eq_some_iff,
    Option.guard_eq_some', exists_const, Option.pure_def, Option.some.injEq, Prod.mk.injEq,
    Prod.exists, List.findSome?_eq_some_iff, matchingDevice_eq_some_iff,
    matchingDevice_eq_none_iff, bulkEndpoints_eq_some_iff]
  constructor
  · rintro ⟨d, desc, ⟨before, _, after, rfl, ⟨rfl, hmatches⟩, hbefore⟩, config0, hconfig0, cfg,
      hcfg, hset, hclaim, hreset, type, htype, inEp', ⟨hconfigurations, hbulk⟩, rfl, rfl⟩
    refine ⟨before, after, desc, rfl, hbefore, hmatches, ⟨config0, cfg, hconfig0, hcfg, ?_, hbulk⟩,
      hconfigurations, hclaim, hreset, ftdiChipType_some_iff.mp ⟨type, htype⟩⟩
    exact or_iff_not_imp_left.mpr fun hne => hset ⟨hconfigurations, hne⟩
  · rintro ⟨before, after, desc, rfl, hbefore, hmatches, husable⟩
    obtain ⟨config0, cfg, hconfig0, hcfg, hset, hbulk⟩ := husable.configured
    obtain ⟨type, htype⟩ := ftdiChipType_some_iff.mpr husable.chip
    exact ⟨device, desc, ⟨before, device, after, rfl, ⟨rfl, hmatches⟩, hbefore⟩, config0, hconfig0,
      cfg, hcfg, fun h => hset.resolve_left h.2, husable.claimInterface, husable.reset, type, htype,
      inEp, ⟨husable.configurations, hbulk⟩, rfl, rfl⟩

theorem startDevice_eq_some_iff {w : Wanted} {interface : ℕ} {list : List (UsbDevice δ)}
    {device : UsbDevice δ} {inEp : EndpointDescriptor} :
    startDevice w interface list = some (device, inEp) ↔
      FirstUsable w interface list device inEp ∧ device.setLatencyTimer = .success ∧
        device.setBitmode = .success := by
  simp only [startDevice, Option.bind_eq_bind, Option.bind_eq_some_iff, Option.guard_eq_some',
    exists_const, Option.pure_def, Option.some.injEq, Prod.mk.injEq, Prod.exists,
    openMatchingDevice_eq_some_iff]
  constructor
  · rintro ⟨d, e, hfirst, hlatency, hbitmode, rfl, rfl⟩
    exact ⟨hfirst, hlatency, hbitmode⟩
  · rintro ⟨hfirst, hlatency, hbitmode⟩
    exact ⟨device, inEp, hfirst, hlatency, hbitmode, rfl, rfl⟩

theorem UsbHost.malloc_some_iff {host : UsbHost δ} :
    (∃ buffers, host.malloc = some buffers) ↔ host.callocCtx = true ∧
      host.mallocReadChunk = true ∧ host.mallocReadBuffer ≠ none ∧
      host.mallocWriteBuffer ≠ none := by
  simp only [UsbHost.malloc, Option.bind_eq_bind, Option.bind_eq_some_iff, Option.guard_eq_some',
    exists_const, Option.pure_def, Option.some.injEq, Option.ne_none_iff_exists', exists_and_left]
  constructor
  · rintro ⟨hctx, hchunk, _, r, hr, w, hw, -⟩
    exact ⟨hctx, hchunk, ⟨r, hr⟩, w, hw⟩
  · rintro ⟨hctx, hchunk, ⟨r, hr⟩, w, hw⟩
    exact ⟨hctx, hchunk, (r, w), r, hr, w, hw, rfl⟩

section Results

variable (L : UsbLink δ) (w : Wanted) (channel : CInt) (host : UsbHost δ)

/-- **What `mpsse_open` does**: it returns `NULL` where the device is not opened, it does not
not return where there is no device list, and it returns a context otherwise, an idle one. -/
theorem mpsseOpen_cases :
    (¬ host.Opens w (channel.setWidth 8).toNat ∧ mpsseOpen L w channel host = .ok none) ∨
      host.Opens w (channel.setWidth 8).toNat ∧
        (mpsseOpen L w channel host = .error .outOfBounds ∨
          ∃ c, mpsseOpen L w channel host = .ok (some c) ∧ (host.BulkPackets → c.Idle)) := by
  rcases hm : host.malloc with _ | ⟨readBuffer, writeBuffer⟩
  · refine Or.inl ⟨fun h => ?_, by rw [mpsseOpen, hm]⟩
    obtain ⟨buffers, hbuffers⟩ := UsbHost.malloc_some_iff.mpr
      ⟨h.callocCtx, h.mallocReadChunk, h.mallocReadBuffer, h.mallocWriteBuffer⟩
    cases hm.symm.trans hbuffers
  · obtain ⟨hctx, hchunk, hread, hwrite⟩ := UsbHost.malloc_some_iff.mp ⟨_, hm⟩
    by_cases hinit : host.init = .success
    · rcases hlist : host.deviceList with _ | list
      · refine Or.inr ⟨⟨hctx, hchunk, hread, hwrite, hinit, fun list h => ?_⟩, Or.inl ?_⟩
        · cases hlist.symm.trans h
        · rw [mpsseOpen, hm]
          simp only [hinit, hlist, ne_eq, not_true_eq_false, if_false]
      · -- now the devices decide
        rcases hstart : startDevice w (channel.setWidth 8).toNat list with _ | ⟨device, inEp⟩
        · refine Or.inl ⟨fun h => ?_, ?_⟩
          · obtain ⟨device, inEp, husable⟩ := h.device list hlist
            cases hstart.symm.trans (startDevice_eq_some_iff.mpr husable)
          · rw [mpsseOpen, hm]
            simp only [hinit, hlist, hstart, ne_eq, not_true_eq_false, if_false]
        · refine Or.inr ⟨⟨hctx, hchunk, hread, hwrite, hinit, fun list' h => ?_⟩, Or.inr ?_⟩
          · cases hlist.symm.trans h
            exact ⟨device, inEp, startDevice_eq_some_iff.mp hstart⟩
          · refine ⟨mpssePurge L (filledIn readBuffer writeBuffer device inEp), ?_,
              fun hpackets => ?_⟩
            · rw [mpsseOpen, hm]
              simp only [hinit, hlist, hstart, ne_eq, not_true_eq_false, if_false]
            · obtain ⟨hfirst, -⟩ := startDevice_eq_some_iff.mp hstart
              exact (mpssePurge_idle (hfirst.two_lt_wMaxPacketSize (hpackets list hlist))).1
    · refine Or.inl ⟨fun h => hinit h.init, ?_⟩
      rw [mpsseOpen, hm]
      simp only [hinit, ne_eq, not_false_eq_true, if_true]

variable {L w channel host}

/-- **`mpsse_open` returns `NULL` just if the device is not opened.** -/
theorem mpsseOpen_null_iff :
    mpsseOpen L w channel host = .ok none ↔ ¬ host.Opens w (channel.setWidth 8).toNat := by
  rcases mpsseOpen_cases L w channel host with
    ⟨hopens, hnull⟩ | ⟨hopens, hstop | ⟨c, hok, -⟩⟩
  · exact ⟨fun _ => hopens, fun _ => hnull⟩
  · exact ⟨fun h => (by rw [hstop] at h; cases h), fun h => absurd hopens h⟩
  · exact ⟨fun h => (by rw [hok] at h; cases h), fun h => absurd hopens h⟩

/-- **A context that is returned is idle.** -/
theorem mpsseOpen_idle {c : MpsseCtx δ} (hpackets : host.BulkPackets)
    (h : mpsseOpen L w channel host = .ok (some c)) : c.Idle := by
  rcases mpsseOpen_cases L w channel host with
    ⟨-, hnull⟩ | ⟨-, hstop | ⟨c', hok, hidle⟩⟩
  · cases hnull.symm.trans h
  · cases hstop.symm.trans h
  · cases hok.symm.trans h
    exact hidle hpackets

end Results

end JtagHw
