import UBoot.Library.Machine
import UBoot.Usb.Configuration
import UBoot.Usb.Endpoints
import UBoot.Usb.StringDescriptor

/-!
# Enumeration

The gadgets of fastboot and of the loader answer the control requests of a host in whatever
order they come, over any number of resets; some requests the controller answers itself. What
is answered depends on the request, on the speed and on whether the endpoint in question is
halted; and once a configuration is set, the endpoints that the controller has enabled are the
ones in the configuration that the host is told.
-/
namespace UBoot.Usb
open ByteStore

/-- `enum usb_device_speed`, as far as the controller goes. -/
inductive Speed
  | unknown | low | full | high
  deriving DecidableEq

/-- `struct usb_device_descriptor` behind its first two bytes. -/
structure DeviceDescriptor where
  bcdUSB : UInt16
  bDeviceClass : UInt8
  bDeviceSubClass : UInt8
  bDeviceProtocol : UInt8
  bMaxPacketSize0 : UInt8
  idVendor : UInt16
  idProduct : UInt16
  bcdDevice : UInt16
  iManufacturer : UInt8
  iProduct : UInt8
  iSerialNumber : UInt8
  bNumConfigurations : UInt8

def DeviceDescriptor.bytes (d : DeviceDescriptor) : List UInt8 :=
  [18, 1] ++ leBytes 2 d.bcdUSB.toNat ++
    [d.bDeviceClass, d.bDeviceSubClass, d.bDeviceProtocol, d.bMaxPacketSize0] ++
    leBytes 2 d.idVendor.toNat ++ leBytes 2 d.idProduct.toNat ++ leBytes 2 d.bcdDevice.toNat ++
    [d.iManufacturer, d.iProduct, d.iSerialNumber, d.bNumConfigurations]

def EndpointDescriptor.bytes (d : EndpointDescriptor) : List UInt8 :=
  [7, 5, d.bEndpointAddress, d.bmAttributes] ++ leBytes 2 d.wMaxPacketSize.toNat ++ [d.bInterval]

/-- The static descriptors of a gadget. The loader has no strings. -/
structure Descriptors where
  device : DeviceDescriptor
  config : List UInt8
  intf : List UInt8
  fsSource : EndpointDescriptor
  fsSink : EndpointDescriptor
  hsSource : EndpointDescriptor
  hsSink : EndpointDescriptor
  strings : Option UsbGadgetStrings

/-- The descriptors of `f_abi.c`; `serial` is `gd->fastboot_device_id`. -/
def abiDescriptors (manufacturer product serial : CStr) : Descriptors where
  device := ⟨0x0200, 0, 0, 0, 0, 0x18d1, 0x4ee0, 0, 1, 2, 3, 1⟩
  config := [9, 2, 0x20, 0, 1, 1, 0, 0xc0, 0xfa]
  intf := [9, 4, 0, 0, 2, 0xff, 0x42, 0x03, 0]
  fsSource := ⟨usbDirIn, usbEndpointXferBulk, 0, 0⟩
  fsSink := ⟨usbDirOut, usbEndpointXferBulk, 0, 0⟩
  hsSource := ⟨0, usbEndpointXferBulk, 512, 0⟩
  hsSink := ⟨0, usbEndpointXferBulk, 512, 0⟩
  strings := some ⟨0x0409, [(1, manufacturer), (2, product), (3, serial)]⟩

/-- `struct abi_dev` or `struct udl_dev` with the gadget: the two endpoints as numbers of the
list, whether `in_desc` and `out_desc` are the high-speed ones, and `abi_done`. -/
structure Gadget where
  descs : Descriptors
  eps : List ComipEp
  speed : Speed
  inEp : ℕ
  outEp : ℕ
  descHigh : Bool
  buf : Mem
  done : ℕ

/-- `get_mps`, whose cases `comip_udc_change_mps` repeats. -/
def getMps (speed : Speed) (bmAttributes : UInt8) : ℕ :=
  let type := bmAttributes &&& 0x03
  if type = usbEndpointXferIsoc then if speed = .high then 1024 else 1023
  else if type = usbEndpointXferBulk then if speed = .high then 512 else 64
  else if type = usbEndpointXferInt then if speed = .high then 1024 else 8
  else 64

/-- `comip_ep_enable`. -/
def comipEpEnable (speed : Speed) (desc : EndpointDescriptor) (ep : ComipEp) : ComipEp :=
  { ep with
    assigned := true
    dirIn := desc.dirIn
    epNum := desc.num
    epType := desc.type
    maxpacket := getMps speed desc.bmAttributes }

/-- `comip_udc_change_mps`. -/
def comipUdcChangeMps (speed : Speed) (eps : List ComipEp) : List ComipEp :=
  eps.map fun ep => if ep.assigned then { ep with maxpacket := getMps speed ep.epType } else ep

/-- `comip_udc_enum_done` with the speed that the controller reports. -/
def comipUdcEnumDone (enumspd : ℕ) (speed : Speed) : Speed :=
  if enumspd = 0 then .high else if enumspd = 1 then .full else if enumspd = 2 then .low else speed

def claim (ep : ComipEp) : ComipEp := { ep with driverData := true }

def orFullSpeed (desc : EndpointDescriptor) : EndpointDescriptor :=
  if desc.wMaxPacketSize = 0 then { desc with wMaxPacketSize := 64 } else desc

/-- `abi_bind` and `udl_bind`, with `CONFIG_USB_GADGET_DUALSPEED` as every board with a gadget
sets it; `none` for an error. -/
def bind (g : Gadget) : Option Gadget :=
  let eps := g.eps.map fun ep => { ep with driverData := false }
  match usbEpAutoconfig false g.descs.fsSource 0 eps 0 with
  | (none, _) => none
  | (some (inEp, fsSource), epnum) =>
    let eps := eps.modify inEp claim
    match usbEpAutoconfig false g.descs.fsSink 0 eps epnum with
    | (none, _) => none
    | (some (outEp, fsSink), _) =>
      some
        { g with
          eps := eps.modify outEp claim
          inEp := inEp
          outEp := outEp
          descHigh := decide (g.speed = .high)
          descs :=
            { g.descs with
              device := { g.descs.device with bMaxPacketSize0 := 64 }
              fsSource := orFullSpeed fsSource
              fsSink := orFullSpeed fsSink
              hsSource := { g.descs.hsSource with bEndpointAddress := fsSource.bEndpointAddress }
              hsSink := { g.descs.hsSink with bEndpointAddress := fsSink.bEndpointAddress } } }

/-- `struct usb_ctrlrequest`. -/
structure CtrlRequest where
  bRequestType : UInt8
  bRequest : UInt8
  wValue : UInt16
  wIndex : UInt16
  wLength : UInt16

/-- The data of an answer and `req->zero`. -/
structure Reply where
  data : List UInt8
  zero : Bool
  deriving DecidableEq

def usbBufsiz : ℕ := 256

/-- `which_fn`: the descriptors behind the configuration. -/
def Descriptors.function (descs : Descriptors) (high : Bool) : List (List UInt8) :=
  if high then [descs.intf, descs.hsSink.bytes, descs.hsSource.bytes]
  else [descs.intf, descs.fsSink.bytes, descs.fsSource.bytes]

/-- `config_buf`: the length, `none` for an error, and the buffer. -/
def configBuf (g : Gadget) (type index : ℕ) : Option ℕ × Mem :=
  let hs := decide (g.speed = .high)
  let hs := if type = 7 then !hs else hs
  if g.descs.device.bNumConfigurations.toNat ≤ index then (none, g.buf)
  else
    match usbGadgetConfigBuf (ofList g.descs.config) g.buf usbBufsiz
      ((g.descs.function hs).map ofList) with
    | (none, buf) => (none, buf)
    | (some len, buf) => (some len, setByte buf 1 type)

/-- What follows a value that is not negative: the answer is queued. -/
def queueReply (g : Gadget) (ctrl : CtrlRequest) (value : ℕ) : Option Reply × Gadget :=
  (some ⟨slice g.buf 0 value, value < ctrl.wLength.toNat⟩,
    { g with done := if g.done = 1 then 2 else g.done })

/-- `min(w_length, (u16) value)` of an answer that was made, and the buffer. -/
def queueAnswer (g : Gadget) (ctrl : CtrlRequest) (r : Option ℕ × Mem) : Option Reply × Gadget :=
  match r with
  | (none, buf) => (none, { g with buf := buf })
  | (some value, buf) =>
    queueReply { g with buf := buf } ctrl (min ctrl.wLength.toNat (value % 2 ^ 16))

/-- The device descriptor at a speed. -/
def Descriptors.deviceAt (descs : Descriptors) (speed : Speed) : DeviceDescriptor :=
  { descs.device with bcdUSB := if speed = .high then 0x0200 else 0x0110 }

/-- `USB_REQ_GET_DESCRIPTOR`. -/
def getDescriptor (g : Gadget) (ctrl : CtrlRequest) (type index : ℕ) : Option Reply × Gadget :=
  if type = 1 then
    let value := min ctrl.wLength.toNat 18
    let device := g.descs.deviceAt g.speed
    queueReply
      { g with
        descs := { g.descs with device := device }
        buf := overlay g.buf 0 value (ofList device.bytes) } ctrl value
  else if type = 2 then queueAnswer g ctrl (configBuf g type index)
  else if type = 3 then
    match g.descs.strings with
    | none => (none, g)
    | some table => queueAnswer g ctrl (usbGadgetGetString table index g.buf)
  else (none, g)

/-- `USB_REQ_SET_CONFIGURATION`. -/
def setConfiguration (g : Gadget) (ctrl : CtrlRequest) : Option Reply × Gadget :=
  let inDesc := if g.descHigh then g.descs.hsSource else g.descs.fsSource
  let outDesc := if g.descHigh then g.descs.hsSink else g.descs.fsSink
  queueReply
    { g with
      eps := (g.eps.modify g.inEp (comipEpEnable g.speed inDesc)).modify g.outEp
        (comipEpEnable g.speed outDesc)
      done := 1 } ctrl 0

/-- `abi_setup` and `udl_setup`: what is queued, `none` for a stall. -/
def setup (g : Gadget) (ctrl : CtrlRequest) : Option Reply × Gadget :=
  if ctrl.bRequest = 6 then
    if ctrl.bRequestType = usbDirIn then
      getDescriptor g ctrl (ctrl.wValue.toNat / 256) (ctrl.wValue.toNat % 256)
    else (none, g)
  else if ctrl.bRequest = 9 then
    if ctrl.bRequestType = 0 then setConfiguration g ctrl else (none, g)
  else (none, g)

def ep0Mps : ℕ := 64

/-- The requests that `comip_handle_ep0` keeps from the gadget. -/
def isUdcRequest (ctrl : CtrlRequest) : Bool :=
  ctrl.bRequest == 5 ||
    (ctrl.bRequest == 1 &&
      (ctrl.bRequestType == 0 || ctrl.bRequestType == 1 || ctrl.bRequestType == 2)) ||
    (ctrl.bRequest == 3 && ctrl.bRequestType == 0 && ctrl.wValue == 2) ||
    (ctrl.bRequest == 0 &&
      (ctrl.bRequestType == 0x80 || ctrl.bRequestType == 0x82 || ctrl.bRequestType == 0x81))

/-- `comip_udc_do_request`: what is queued, `none` for a stall. `halted` is the STALL bit of
the endpoint that `wIndex` names. -/
def comipUdcDoRequest (halted : Bool) (ctrl : CtrlRequest) : Option Reply :=
  let queue (data : List UInt8) : Option Reply :=
    some ⟨data, decide (data.length ≤ ctrl.wLength.toNat) && data.length % ep0Mps == 0⟩
  if ctrl.bRequest = 5 ∨ ctrl.bRequest = 1 ∨ ctrl.bRequest = 3 then queue []
  else if ctrl.bRequest = 0 then
    if ctrl.wLength ≠ 2 ∨ ctrl.wValue ≠ 0 then none
    else if ctrl.bRequestType &&& 0x1f = 0 then queue [3, 0]
    else if ctrl.bRequestType &&& 0x1f = 2 then queue [if halted then 1 else 0, 0]
    else queue [0, 0]
  else none

/-- What endpoint 0 does after a request: it stalls, it sends an answer, or it waits for the
data that the host announced. -/
inductive Ep0
  | stall
  | send (reply : Reply)
  | receive
  deriving DecidableEq

/-- `comip_ep_queue` in the phase that `comip_handle_ep0` takes from the request. -/
def ep0Queue (ctrl : CtrlRequest) : Option Reply → Ep0
  | none => .stall
  | some reply =>
    if ctrl.bRequestType &&& usbDirIn ≠ 0 ∨ ctrl.wLength = 0 then .send reply else .receive

/-- What happens on the bus: a reset, the end of the enumeration of the speed, and a request
with the STALL bit that is found when the controller looks at it. -/
inductive BusEvent
  | reset
  | enumDone (enumspd : ℕ)
  | request (ctrl : CtrlRequest) (halted : Bool)

/-- The gadget on its controller; a request is handled as `comip_handle_ep0` does it. -/
def bus : Machine Gadget BusEvent (Option Ep0) where
  step g
    | .reset => (none, { g with speed := .unknown })
    | .enumDone enumspd =>
      let speed := comipUdcEnumDone enumspd g.speed
      (none, { g with speed := speed, eps := comipUdcChangeMps speed g.eps })
    | .request ctrl halted =>
      let r := if isUdcRequest ctrl then (comipUdcDoRequest halted ctrl, g) else setup g ctrl
      (some (ep0Queue ctrl r.1), r.2)

/-- One configuration with a bulk endpoint for each direction, at both speeds. -/
structure BulkPair (descs : Descriptors) : Prop where
  configs : descs.device.bNumConfigurations = 1
  config : descs.config.length = 9
  intf : ∃ rest, descs.intf = 9 :: rest ∧ rest.length = 8
  fsSource : descs.fsSource.bEndpointAddress = usbDirIn ∧ descs.fsSource.bmAttributes = 2
  fsSink : descs.fsSink.bEndpointAddress = usbDirOut ∧ descs.fsSink.bmAttributes = 2
  hsSource : descs.hsSource.bmAttributes = 2 ∧ descs.hsSource.wMaxPacketSize = 512
  hsSink : descs.hsSink.bmAttributes = 2 ∧ descs.hsSink.wMaxPacketSize = 512

theorem bulkPair_abi (manufacturer product serial : CStr) :
    BulkPair (abiDescriptors manufacturer product serial) :=
  ⟨rfl, rfl, ⟨_, rfl, rfl⟩, ⟨rfl, rfl⟩, ⟨rfl, rfl⟩, ⟨rfl, rfl⟩, ⟨rfl, rfl⟩⟩

/-- The descriptors with the endpoints that are chosen, number 1 in and number 8 out. -/
def boundDescs (descs : Descriptors) : Descriptors :=
  { descs with
    device := { descs.device with bMaxPacketSize0 := 64 }
    fsSource := { descs.fsSource with bEndpointAddress := 0x81, wMaxPacketSize := 64 }
    fsSink := { descs.fsSink with bEndpointAddress := 0x08, wMaxPacketSize := 64 }
    hsSource := { descs.hsSource with bEndpointAddress := 0x81 }
    hsSink := { descs.hsSink with bEndpointAddress := 0x08 } }

/-- The endpoints after both were claimed. -/
def boundEps : List ComipEp := (comipUdcEpsInit.modify 0 claim).modify 7 claim

/-- An endpoint that is enabled for a number and a direction. -/
def enabledEp (num : UInt8) (dirIn : Bool) (maxpacket : ℕ) (ep : ComipEp) : ComipEp :=
  { ep with
    assigned := true
    dirIn := dirIn
    epNum := num
    epType := usbEndpointXferBulk
    maxpacket := maxpacket }

/-- The endpoints once a configuration was set. -/
def configuredEps (maxpacket : ℕ) : List ComipEp :=
  (boundEps.modify 0 (enabledEp 1 true maxpacket)).modify 7 (enabledEp 8 false maxpacket)

/-- The packet size of bulk endpoints, `BULK_MPS`. -/
def bulkMps (speed : Speed) : ℕ := if speed = .high then 512 else 64

/-- The descriptors up to the one field that a request changes. -/
def Descriptors.withBcd (descs : Descriptors) (v : UInt16) : Descriptors :=
  { descs with device := { descs.device with bcdUSB := v } }

/-- What every event on the bus keeps. -/
structure Served (descs : Descriptors) (g : Gadget) : Prop where
  descs : ∃ v, g.descs = (boundDescs descs).withBcd v
  inEp : g.inEp = 0
  outEp : g.outEp = 7
  descHigh : g.descHigh = false
  eps : g.done = 0 ∧ g.eps = boundEps ∨ g.done = 2 ∧ ∃ maxpacket, g.eps = configuredEps maxpacket ∧
    (g.speed ≠ .unknown → maxpacket = bulkMps g.speed)

section Run
variable {descs : Descriptors} {g : Gadget}

/-- An answer changes the buffer at most, and `bcdUSB`. -/
theorem Served.queue (h : Served descs g) {v : UInt16} (buf : Mem) (ctrl : CtrlRequest)
    (value : ℕ) :
    Served descs
      (queueReply { g with descs := (boundDescs descs).withBcd v, buf := buf } ctrl value).2 := by
  obtain ⟨-, hin, hout, hhigh, heps⟩ := h
  have hdone : (if g.done = 1 then 2 else g.done) = g.done := by
    obtain ⟨hzero, -⟩ | ⟨htwo, -⟩ := heps
    · rw [hzero]
      rfl
    · rw [htwo]
      rfl
  refine ⟨⟨v, rfl⟩, hin, hout, hhigh, ?_⟩
  simp only [queueReply, hdone]
  exact heps

theorem Served.withBuf (h : Served descs g) (buf : Mem) : Served descs { g with buf := buf } :=
  ⟨h.descs, h.inEp, h.outEp, h.descHigh, h.eps⟩

theorem Served.queueAnswer (h : Served descs g) (ctrl : CtrlRequest) (r : Option ℕ × Mem) :
    Served descs (queueAnswer g ctrl r).2 := by
  obtain ⟨v, hv⟩ := h.descs
  obtain ⟨ret, buf⟩ := r
  cases ret with
  | none => exact h.withBuf buf
  | some value =>
    have hqueue := h.queue (v := v) buf ctrl (min ctrl.wLength.toNat (value % 2 ^ 16))
    rw [← hv] at hqueue
    exact hqueue

theorem changeMps_boundEps (speed : Speed) : comipUdcChangeMps speed boundEps = boundEps := rfl

theorem changeMps_configuredEps (speed : Speed) (maxpacket : ℕ) :
    comipUdcChangeMps speed (configuredEps maxpacket) = configuredEps (bulkMps speed) := by
  have hchange : comipUdcChangeMps speed (configuredEps maxpacket) =
      configuredEps (getMps speed usbEndpointXferBulk) := rfl
  have hmps : getMps speed usbEndpointXferBulk = bulkMps speed := rfl
  rw [hchange, hmps]

/-- Enabling the two endpoints, for the first time or again. -/
theorem enable_eps {inDesc outDesc : EndpointDescriptor}
    (hin : inDesc.bEndpointAddress = 0x81 ∧ inDesc.bmAttributes = 2)
    (hout : outDesc.bEndpointAddress = 0x08 ∧ outDesc.bmAttributes = 2) (speed : Speed)
    {eps : List ComipEp} (heps : eps = boundEps ∨ ∃ maxpacket, eps = configuredEps maxpacket) :
    (eps.modify 0 (comipEpEnable speed inDesc)).modify 7 (comipEpEnable speed outDesc) =
      configuredEps (bulkMps speed) := by
  have hfst : comipEpEnable speed inDesc = enabledEp 1 true (bulkMps speed) := by
    funext ep
    rw [comipEpEnable, EndpointDescriptor.num, EndpointDescriptor.dirIn, EndpointDescriptor.type,
      hin.1, hin.2]
    rfl
  have hsnd : comipEpEnable speed outDesc = enabledEp 8 false (bulkMps speed) := by
    funext ep
    rw [comipEpEnable, EndpointDescriptor.num, EndpointDescriptor.dirIn, EndpointDescriptor.type,
      hout.1, hout.2]
    rfl
  rw [hfst, hsnd]
  obtain rfl | ⟨maxpacket, rfl⟩ := heps
  · rfl
  · rfl

theorem Served.getDescriptor (h : Served descs g) (ctrl : CtrlRequest) (type index : ℕ) :
    Served descs (getDescriptor g ctrl type index).2 := by
  obtain ⟨v, hv⟩ := h.descs
  unfold UBoot.Usb.getDescriptor
  by_cases hdevice : type = 1
  · have hdescs : { g.descs with device := g.descs.deviceAt g.speed } =
        (boundDescs descs).withBcd (if g.speed = .high then 0x0200 else 0x0110) := by
      rw [hv]
      rfl
    rw [if_pos hdevice]
    dsimp only
    rw [hdescs]
    exact h.queue _ ctrl _
  by_cases hconfig : type = 2
  · rw [if_neg hdevice, if_pos hconfig]
    exact h.queueAnswer ctrl _
  by_cases hstring : type = 3
  · rw [if_neg hdevice, if_neg hconfig, if_pos hstring]
    cases g.descs.strings with
    | none => exact h
    | some table => exact h.queueAnswer ctrl _
  · rw [if_neg hdevice, if_neg hconfig, if_neg hstring]
    exact h

theorem Served.setConfiguration (h : Served descs g) (hpair : BulkPair descs)
    (ctrl : CtrlRequest) : Served descs (setConfiguration g ctrl).2 := by
  obtain ⟨⟨v, hv⟩, hin, hout, hhigh, heps⟩ := h
  have hshape : g.eps = boundEps ∨ ∃ maxpacket, g.eps = configuredEps maxpacket := by
    obtain ⟨-, heps⟩ | ⟨-, maxpacket, heps, -⟩ := heps
    · exact .inl heps
    · exact .inr ⟨maxpacket, heps⟩
  have henabled := @enable_eps g.descs.fsSource g.descs.fsSink
    ⟨by rw [hv]; rfl, by rw [hv]; exact hpair.fsSource.2⟩
    ⟨by rw [hv]; rfl, by rw [hv]; exact hpair.fsSink.2⟩ g.speed g.eps hshape
  refine ⟨⟨v, hv⟩, hin, hout, hhigh, .inr ⟨rfl, bulkMps g.speed, ?_, fun _ => rfl⟩⟩
  simp only [UBoot.Usb.setConfiguration, queueReply, hin, hout, hhigh, Bool.false_eq_true, if_false]
  exact henabled

theorem Served.setup (h : Served descs g) (hpair : BulkPair descs) (ctrl : CtrlRequest) :
    Served descs (setup g ctrl).2 := by
  unfold UBoot.Usb.setup
  split_ifs
  · exact h.getDescriptor ctrl _ _
  · exact h
  · exact h.setConfiguration hpair ctrl
  · exact h
  · exact h

theorem Served.step (h : Served descs g) (hpair : BulkPair descs) (e : BusEvent) :
    Served descs (bus.step g e).2 := by
  cases e with
  | reset =>
    refine ⟨h.descs, h.inEp, h.outEp, h.descHigh, h.eps.imp id ?_⟩
    rintro ⟨hdone, maxpacket, heps, -⟩
    exact ⟨hdone, maxpacket, heps, fun hne => absurd rfl hne⟩
  | enumDone enumspd =>
    refine ⟨h.descs, h.inEp, h.outEp, h.descHigh, ?_⟩
    obtain ⟨hdone, heps⟩ | ⟨hdone, maxpacket, heps, -⟩ := h.eps
    · exact .inl ⟨hdone, by simp only [bus, heps, changeMps_boundEps]⟩
    · refine .inr ⟨hdone, bulkMps (comipUdcEnumDone enumspd g.speed), ?_, fun _ => rfl⟩
      simp only [bus, heps, changeMps_configuredEps]
  | request ctrl halted =>
    dsimp only [bus]
    split
    · exact h
    · exact h.setup hpair ctrl

end Run

/-- The configuration at full or at high speed. -/
def configuration (descs : Descriptors) (high : Bool) : List UInt8 :=
  patchedHeader (ofList descs.config) 32 ++ (descs.function high).flatten

/-- The descriptor of a string. -/
def stringAnswer (table : UsbGadgetStrings) (id : ℕ) : Option (List UInt8) :=
  let r := usbGadgetGetString table id fun _ => 0
  r.1.map fun n => slice r.2 0 n

/-- What a request is for, in full; `none` where there is nothing. -/
def told (descs : Descriptors) (speed : Speed) (ctrl : CtrlRequest) : Option (List UInt8) :=
  let index := ctrl.wValue.toNat % 256
  if ctrl.bRequest = 6 then
    if ctrl.bRequestType = usbDirIn then
      if ctrl.wValue.toNat / 256 = 1 then some (descs.deviceAt speed).bytes
      else if ctrl.wValue.toNat / 256 = 2 then
        if index = 0 then some (configuration descs (decide (speed = .high))) else none
      else if ctrl.wValue.toNat / 256 = 3 then
        descs.strings.bind fun table => stringAnswer table index
      else none
    else none
  else if ctrl.bRequest = 9 then if ctrl.bRequestType = 0 then some [] else none
  else none

/-- As much of it as the host asks for. -/
def replyOf (ctrl : CtrlRequest) (data : List UInt8) : Reply :=
  ⟨data.take ctrl.wLength.toNat, (data.take ctrl.wLength.toNat).length < ctrl.wLength.toNat⟩

theorem slice_min (buf : Mem) (w n : ℕ) : slice buf 0 (min w n) = (slice buf 0 n).take w := by
  rw [slice, slice, ← List.map_take, List.take_range]

theorem queueReply_slice (g : Gadget) (ctrl : CtrlRequest) (n : ℕ) :
    (queueReply g ctrl (min ctrl.wLength.toNat n)).1 = some (replyOf ctrl (slice g.buf 0 n)) := by
  have hlen : ((slice g.buf 0 n).take ctrl.wLength.toNat).length = min ctrl.wLength.toNat n := by
    rw [List.length_take, length_slice]
  rw [queueReply, replyOf, hlen, slice_min]

theorem queueAnswer_slice (g : Gadget) (ctrl : CtrlRequest) {r : Option ℕ × Mem}
    (hr : ∀ n ∈ r.1, n < 2 ^ 16) :
    (queueAnswer g ctrl r).1 = (r.1.map fun n => slice r.2 0 n).map (replyOf ctrl) := by
  obtain ⟨ret, buf⟩ := r
  cases ret with
  | none => rfl
  | some n =>
    rw [queueAnswer, Nat.mod_eq_of_lt (hr n rfl), queueReply_slice]
    rfl

/-- The answer is stored in the buffer as a whole, whatever stood there. -/
theorem usbGadgetGetString_fresh (table : UsbGadgetStrings) (id : ℕ) (buf : Mem) :
    (∀ n ∈ (usbGadgetGetString table id buf).1, n < 256) ∧
      ((usbGadgetGetString table id buf).1.map fun n =>
        slice (usbGadgetGetString table id buf).2 0 n) = stringAnswer table id := by
  unfold stringAnswer usbGadgetGetString
  by_cases hid : id = 0
  · rw [if_pos hid, if_pos hid]
    refine ⟨fun n hn => ?_, rfl⟩
    obtain rfl : 4 = n := Option.some.inj hn
    norm_num
  rw [if_neg hid, if_neg hid]
  cases table.strings.find? (·.1 = id) with
  | none => exact ⟨fun n hn => by simp at hn, rfl⟩
  | some t =>
    dsimp only
    generalize utf8ToUtf16le t.2.mem (min 126 t.2.strlen) 0 = r
    cases hok : r.2 with
    | false => exact ⟨fun n hn => by simp at hn, rfl⟩
    | true =>
      refine ⟨fun n hn => ?_, ?_⟩
      · obtain rfl : (r.1.length + 1) * 2 % 256 = n := by simpa using hn
        exact Nat.mod_lt _ (by norm_num)
      · simp only [if_true, Option.map_some]
        congr 1
        apply slice_congr
        intro i hi
        have hle : (r.1.length + 1) * 2 % 256 ≤ (r.1.length + 1) * 2 := Nat.mod_le _ _
        unfold setByte
        by_cases h1 : 0 + i = 1
        · rw [h1, Function.update_self, Function.update_self]
        by_cases h0 : 0 + i = 0
        · rw [h0, Function.update_of_ne (by norm_num), Function.update_self,
            Function.update_of_ne (by norm_num), Function.update_self]
        rw [Function.update_of_ne h1, Function.update_of_ne h0, Function.update_of_ne h1,
          Function.update_of_ne h0, overlay_of_mem _ _ (by omega) (by omega),
          overlay_of_mem _ _ (by omega) (by omega)]

theorem length_bytes (d : EndpointDescriptor) : d.bytes.length = 7 := by
  simp [EndpointDescriptor.bytes, leBytes]

theorem descBytes_ofList {b : UInt8} {bs : List UInt8} (h : b.toNat = (b :: bs).length) :
    descBytes (ofList (b :: bs)) = b :: bs := by
  have hlen : bLength (ofList (b :: bs)) = (b :: bs).length := h
  rw [descBytes, hlen]
  exact slice_ofList _

theorem descBytes_endpoint (d : EndpointDescriptor) : descBytes (ofList d.bytes) = d.bytes :=
  descBytes_ofList (length_bytes d).symm

section Answers
variable {descs : Descriptors} {g : Gadget}

theorem descsBytes_function (h : BulkPair descs) (high : Bool) :
    descsBytes (((boundDescs descs).function high).map ofList) =
        ((boundDescs descs).function high).flatten ∧
      ((boundDescs descs).function high).flatten.length = 23 := by
  obtain ⟨rest, hintf, hrest⟩ := h.intf
  have hdesc : descBytes (ofList descs.intf) = descs.intf := by
    rw [hintf]
    exact descBytes_ofList (by rw [List.length_cons, hrest]; rfl)
  have hlen : descs.intf.length = 9 := by rw [hintf, List.length_cons, hrest]
  have hbound : (boundDescs descs).intf = descs.intf := rfl
  cases high
  · constructor
    · simp only [Descriptors.function, descsBytes, List.map_cons, List.flatMap_cons, hbound, hdesc,
        descBytes_endpoint, Bool.false_eq_true, if_false]
      rfl
    · simp [Descriptors.function, hbound, hlen, length_bytes]
  · constructor
    · simp only [Descriptors.function, descsBytes, List.map_cons, List.flatMap_cons, hbound, hdesc,
        descBytes_endpoint, if_true]
      rfl
    · simp [Descriptors.function, hbound, hlen, length_bytes]

theorem configBuf_slice (h : Served descs g) (hpair : BulkPair descs) (index : ℕ) :
    (∀ n ∈ (configBuf g 2 index).1, n < 2 ^ 16) ∧
      ((configBuf g 2 index).1.map fun n => slice (configBuf g 2 index).2 0 n) =
        if index = 0 then
          some (configuration (boundDescs descs) (decide (g.speed = .high)))
        else none := by
  obtain ⟨v, hv⟩ := h.descs
  have hnum : g.descs.device.bNumConfigurations.toNat = 1 := by
    rw [hv]
    exact congrArg UInt8.toNat hpair.configs
  have hfunction (high : Bool) : g.descs.function high = (boundDescs descs).function high := by
    rw [hv]
    rfl
  have hconfig : g.descs.config = (boundDescs descs).config := by
    rw [hv]
    rfl
  unfold configBuf
  by_cases hindex : index = 0
  · obtain ⟨hbytes, hlen⟩ := descsBytes_function hpair (decide (g.speed = .high))
    have heq := usbGadgetConfigBuf_eq (ofList g.descs.config) g.buf usbBufsiz
      ((g.descs.function (decide (g.speed = .high))).map ofList)
    rw [hfunction, hbytes, hlen, if_pos (by decide), hconfig] at heq
    rw [if_pos hindex, hnum, if_neg (by omega), if_neg (by norm_num), hfunction, hconfig]
    generalize usbGadgetConfigBuf (ofList (boundDescs descs).config) g.buf usbBufsiz
      (((boundDescs descs).function (decide (g.speed = .high))).map ofList) = r at *
    obtain ⟨ret, buf⟩ := r
    obtain ⟨n, rfl, hslice⟩ := Option.map_eq_some_iff.mp heq
    have hn : n = 32 := by
      have hcount := congrArg List.length hslice
      rw [length_slice, List.length_append, hlen] at hcount
      simpa [patchedHeader, leBytes] using hcount
    -- the type is stored once more
    have htype : buf 1 = 2 := by
      have hget := congrArg (fun l => l[1]?) hslice
      have hread : (slice buf 0 n)[1]? = some (buf 1) := by
        rw [hn]
        rfl
      simpa [hread, patchedHeader, usbDtConfig] using hget
    have hsame : setByte buf 1 2 = buf := by
      have hofNat : UInt8.ofNat 2 = buf 1 := htype.symm
      rw [setByte, hofNat, Function.update_eq_self]
    refine ⟨fun m hm => ?_, ?_⟩
    · obtain rfl : n = m := Option.some.inj hm
      rw [hn]
      norm_num
    · simp only [Option.map_some, hsame]
      exact congrArg some hslice
  · rw [hnum, if_pos (by omega), if_neg hindex]
    exact ⟨fun n hn => by simp at hn, rfl⟩

/-- The answer to a request, in any state on the bus. -/
theorem Served.reply (h : Served descs g) (hpair : BulkPair descs) (ctrl : CtrlRequest) :
    (UBoot.Usb.setup g ctrl).1 =
      (told (boundDescs descs) g.speed ctrl).map (replyOf ctrl) := by
  obtain ⟨v, hv⟩ := h.descs
  unfold UBoot.Usb.setup told
  by_cases hget : ctrl.bRequest = 6
  · rw [if_pos hget, if_pos hget]
    by_cases hdir : ctrl.bRequestType = usbDirIn
    · rw [if_pos hdir, if_pos hdir]
      unfold UBoot.Usb.getDescriptor
      by_cases hdevice : ctrl.wValue.toNat / 256 = 1
      · have hlen : ((boundDescs descs).deviceAt g.speed).bytes.length = 18 := by
          simp [DeviceDescriptor.bytes, leBytes]
        have hdescs : g.descs.deviceAt g.speed = (boundDescs descs).deviceAt g.speed := by
          rw [hv]
          rfl
        have hcopied : slice (overlay g.buf 0 (min ctrl.wLength.toNat 18)
            (ofList ((boundDescs descs).deviceAt g.speed).bytes)) 0 (min ctrl.wLength.toNat 18) =
            ((boundDescs descs).deviceAt g.speed).bytes.take ctrl.wLength.toNat := by
          calc slice (overlay g.buf 0 (min ctrl.wLength.toNat 18)
                (ofList ((boundDescs descs).deviceAt g.speed).bytes)) 0 (min ctrl.wLength.toNat 18)
              = slice (ofList ((boundDescs descs).deviceAt g.speed).bytes) 0
                  (min ctrl.wLength.toNat 18) := by
                apply slice_congr
                intro i hi
                rw [overlay_add _ _ hi, Nat.zero_add]
            _ = ((boundDescs descs).deviceAt g.speed).bytes.take ctrl.wLength.toNat := by
                rw [slice_min, ← hlen, slice_ofList]
        rw [if_pos hdevice, if_pos hdevice, Option.map_some]
        dsimp only
        rw [hdescs, queueReply, replyOf, hcopied, List.length_take, hlen]
      by_cases hconfig : ctrl.wValue.toNat / 256 = 2
      · obtain ⟨hlt, hslice⟩ := configBuf_slice h hpair (ctrl.wValue.toNat % 256)
        rw [if_neg hdevice, if_pos hconfig, if_neg hdevice, if_pos hconfig, hconfig,
          queueAnswer_slice g ctrl hlt, hslice]
      by_cases hstring : ctrl.wValue.toNat / 256 = 3
      · have hstrings : g.descs.strings = (boundDescs descs).strings := by
          rw [hv]
          rfl
        rw [if_neg hdevice, if_neg hconfig, if_pos hstring, if_neg hdevice, if_neg hconfig,
          if_pos hstring, hstrings]
        cases (boundDescs descs).strings with
        | none => rfl
        | some table =>
          obtain ⟨hlt, hslice⟩ := usbGadgetGetString_fresh table (ctrl.wValue.toNat % 256) g.buf
          dsimp only
          rw [queueAnswer_slice g ctrl fun n hn => (hlt n hn).trans (by norm_num), hslice]
          rfl
      · rw [if_neg hdevice, if_neg hconfig, if_neg hstring, if_neg hdevice, if_neg hconfig,
          if_neg hstring]
        rfl
    · rw [if_neg hdir, if_neg hdir]
      rfl
  · rw [if_neg hget, if_neg hget]
    split_ifs
    · simp [UBoot.Usb.setConfiguration, queueReply, replyOf, slice]
    · rfl
    · rfl

end Answers

section Host
variable {descs : Descriptors} {g : Gadget}

end Host

end UBoot.Usb
