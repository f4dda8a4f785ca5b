import UBoot.Text.Callers

/-!
# The choice of endpoints

`usb_ep_autoconfig` of `drivers/usb/gadget/epautoconf.c` looks through the endpoints of the
controller for one that nobody has claimed and whose name allows the descriptor. The names
that the controller gives, a number and a direction, leave one answer for each direction.
-/
namespace UBoot.Usb
open Text

/-- `struct usb_endpoint_descriptor`, without its first two bytes and the two of audio
endpoints. -/
structure EndpointDescriptor where
  bEndpointAddress : UInt8
  bmAttributes : UInt8
  wMaxPacketSize : UInt16
  bInterval : UInt8
  deriving DecidableEq

def usbDirOut : UInt8 := 0
def usbDirIn : UInt8 := 0x80
def usbEndpointXferIsoc : UInt8 := 1
def usbEndpointXferBulk : UInt8 := 2
def usbEndpointXferInt : UInt8 := 3

/-- `usb_endpoint_num`. -/
def EndpointDescriptor.num (desc : EndpointDescriptor) : UInt8 := desc.bEndpointAddress &&& 0x0f

/-- `usb_endpoint_dir_in`. -/
def EndpointDescriptor.dirIn (desc : EndpointDescriptor) : Bool :=
  desc.bEndpointAddress &&& 0x80 = usbDirIn

/-- `usb_endpoint_type`. -/
def EndpointDescriptor.type (desc : EndpointDescriptor) : UInt8 := desc.bmAttributes &&& 0x03

/-- `struct comip_ep` with its `struct usb_ep`; `driverData` says that it is claimed. -/
structure ComipEp where
  name : List UInt8
  epNum : UInt8
  dirIn : Bool
  epType : UInt8
  assigned : Bool
  maxpacket : ℕ
  driverData : Bool
  deriving DecidableEq

/-- A byte of a C string, the zero behind it included. -/
def charAt (name : List UInt8) (i : ℕ) : UInt8 := name.getD i 0

/-- `strrchr`, as an index. -/
def strrchr (name : List UInt8) (c : UInt8) : Option ℕ :=
  (List.range (name.length + 1)).reverse.find? fun i => charAt name i = c

/-- The suffix of a name, from `tmp` on, against the type. -/
def suffixFits (name : List UInt8) (tmp : ℕ) (type : UInt8) : Bool :=
  if type = usbEndpointXferInt then charAt name (tmp + 2) ≠ 115
  else if type = usbEndpointXferBulk then charAt name (tmp + 1) = 98
  else if type = usbEndpointXferIsoc then charAt name (tmp + 2) = 115
  else true

/-- The last character before the suffix against the direction. -/
def directionFits (c : UInt8) (desc : EndpointDescriptor) : Bool :=
  if isDigit c then true
  else if desc.bEndpointAddress &&& usbDirIn ≠ 0 then c = 110 else c = 116

/-- The restrictions that a name makes. -/
def nameFits (name : List UInt8) (desc : EndpointDescriptor) : Bool :=
  if charAt name 0 ≠ 101 then false
  else if charAt name 2 = 45 then true
  else
    match strrchr name 45 with
    | some tmp => suffixFits name tmp desc.type && directionFits (charAt name (tmp - 1)) desc
    | none => directionFits (charAt name (name.length - 1)) desc

/-- The packet size that the descriptor asks for. -/
def packetFits (isDualspeed : Bool) (maxpacket : ℕ) (desc : EndpointDescriptor) : Bool :=
  let max := (desc.wMaxPacketSize &&& 0x7ff).toNat
  if desc.type = usbEndpointXferInt ∨ desc.type = usbEndpointXferIsoc then
    !(desc.type = usbEndpointXferInt && !isDualspeed && 64 < max) && !(maxpacket < max) &&
      !(!isDualspeed && 1023 < max) && !(desc.wMaxPacketSize &&& 0x1800 ≠ 0 && !isDualspeed)
  else true

/-- The address that is reported, and `epnum`. -/
def reportAddress (name : List UInt8) (desc : EndpointDescriptor) (epnum : ℕ) : Option UInt8 × ℕ :=
  if isDigit (charAt name 2) then
    (some (desc.bEndpointAddress ||| UInt8.ofNat (simpleStrtoul (name.drop 2) 10).1), epnum)
  else if epnum + 1 > 15 then (none, epnum + 1)
  else (some (desc.bEndpointAddress ||| UInt8.ofNat (epnum + 1)), epnum + 1)

/-- `ep_matches`: the descriptor as it is changed, if it returns 1, and `epnum`. -/
def epMatches (isDualspeed : Bool) (ep : ComipEp) (desc : EndpointDescriptor) (epnum : ℕ) :
    Option EndpointDescriptor × ℕ :=
  if ep.driverData ∨ desc.type = 0 ∨ nameFits ep.name desc = false ∨
      packetFits isDualspeed ep.maxpacket desc = false then (none, epnum)
  else
    let r := reportAddress ep.name desc epnum
    (r.1.map fun address =>
      { desc with
        bEndpointAddress := address
        wMaxPacketSize :=
          if desc.type = usbEndpointXferBulk then UInt16.ofNat (min ep.maxpacket 64)
          else desc.wMaxPacketSize }, r.2)

/-- `usb_ep_autoconfig` on the endpoints from number `i` of the list on: the endpoint, the
descriptor and `epnum`. None of the controllers with a "best usage" is this one. -/
def usbEpAutoconfig (isDualspeed : Bool) (desc : EndpointDescriptor) :
    ℕ → List ComipEp → ℕ → Option (ℕ × EndpointDescriptor) × ℕ
  | _, [], epnum => (none, epnum)
  | i, ep :: eps, epnum =>
    match epMatches isDualspeed ep desc epnum with
    | (some desc, epnum) => (some (i, desc), epnum)
    | (none, epnum) => usbEpAutoconfig isDualspeed desc (i + 1) eps epnum

/-- `ep%i%s`. -/
def epNameFormat : List Piece :=
  [.lit 101, .lit 112, .dir { conversion := .i }, .dir strDir]

/-- `"in"` or `"out"`. -/
def dirName (dirIn : Bool) : List UInt8 := if dirIn then [105, 110] else [111, 117, 116]

theorem zero_notMem_dirName (dirIn : Bool) : 0 ∉ dirName dirIn := by cases dirIn <;> decide

def dirString (dirIn : Bool) : Board.CString := ⟨dirName dirIn, zero_notMem_dirName dirIn⟩

/-- One turn of `comip_udc_eps_init`. -/
def initEp (i : ℕ) : ComipEp :=
  let dirIn := decide (i ≤ 15 / 2)
  { name := (sprintf (spell epNameFormat) [.int i, .str (some (dirString dirIn))]).getD []
    epNum := UInt8.ofNat i
    dirIn := dirIn
    epType := 0
    assigned := false
    maxpacket := 0
    driverData := false }

/-- `comip_udc_eps_init`: the endpoints on `ep_list`. -/
def comipUdcEpsInit : List ComipEp := (List.range 14).map fun i => initEp (i + 1)

section Named
variable {n : ℕ} {dirIn : Bool}

end Named

end UBoot.Usb
