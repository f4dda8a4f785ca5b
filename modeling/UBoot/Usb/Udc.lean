import UBoot.Library.Machine
import UBoot.Library.Rings

/-!
# The requests of the USB device controller

The requests of a pool stand on the free list or wait in the queue of an endpoint, on links
of their own. The controller works on the request at the head of a queue; its
transfer-complete interrupt hands that request back through its callback, which may queue
requests again before the handler goes on.

Calls of callbacks are steps like any other: what a handler does after a callback is kept on
a stack until the callback returns. Four records of the past go with the state: which
requests the callers hold, and for every endpoint what was queued, what was handed back and
what was sent for.
-/
namespace UBoot.Usb
open Rings

/-- `COMIP_EP_NUM` -/
def comipEpNum : ℕ := 15

instance : NeZero comipEpNum := ⟨by decide⟩

abbrev EpNum := Fin comipEpNum

/-- Where a pair of links stands: at address 0, as one of the heads, or in the request that a
pointer leads to, which is `none` for `NULL`. -/
inductive Node where
  | zero
  | reqFreeList
  | queue (ep : EpNum)
  | request (req : Option ℕ)
  deriving DecidableEq

/-- `container_of` on the links of a request; no other node is a member of a list. -/
def containerOf : Node → Option ℕ
  | .request req => req
  | _ => none

/-- `enum ep0_state` -/
inductive Ep0State where
  | idle | inDataPhase | outDataPhase | stall | inFake | noAction
  deriving DecidableEq

/-- The fields of `struct usb_request` that the driver computes with. -/
structure Request where
  status : ℤ
  length : ℕ
  actual : ℕ
  zero : Bool
  deriving DecidableEq

structure Ep where
  stopped : Bool
  dirIn : Bool
  maxpacket : ℕ

/-- A descriptor given to the controller: that of a request, with its length or for a packet
of zero length. -/
structure Transfer where
  req : Option ℕ
  zero : Bool
  deriving DecidableEq

/-- A request as it was when it was queued. -/
structure Entry where
  req : Option ℕ
  length : ℕ
  zero : Bool
  deriving DecidableEq

/-- What a handler does once the callback has returned. -/
inductive AfterDone where
  | nothing
  | inStart (ep : EpNum) (req : Option ℕ)
  | outStart (ep : EpNum) (req : Option ℕ)
  | resetZero (req : Option ℕ)
  | ep0OutStart

structure Udc where
  links : Links Node
  /-- The request that a pointer leads to; for `NULL`, what stands at address 0. -/
  req : Option ℕ → Request
  ep : EpNum → Ep
  ep0Req : Option ℕ
  ep0State : Ep0State
  /-- The descriptor that the controller works on. -/
  dma : EpNum → Option Transfer
  after : List AfterDone
  /-- How often a request was stored through `NULL`. -/
  nullStores : ℕ
  held : Option ℕ → Bool
  queued : EpNum → List Entry
  finished : EpNum → List (Option ℕ)
  sent : EpNum → List Transfer

namespace Udc

/-- Store a request through a pointer. -/
def store (s : Udc) (req : Option ℕ) (v : Request) : Udc :=
  { s with
    req := Function.update s.req req v
    nullStores := if req = none then s.nullStores + 1 else s.nullStores }

def hold (s : Udc) (req : Option ℕ) (b : Bool) : Udc :=
  { s with held := Function.update s.held req b }

/-- A descriptor is given to the controller. -/
def start (s : Udc) (ep : EpNum) (t : Transfer) : Udc :=
  { s with
    dma := Function.update s.dma ep (some t)
    sent := Function.update s.sent ep (s.sent ep ++ [t]) }

/-- `comip_ep_alloc_request`; `req` is the first field of a request, so that the pointer
returned for `NULL` is `NULL`. -/
def comipEpAllocRequest (s : Udc) : Option ℕ × Udc :=
  let req := if s.links.isEmpty .reqFreeList then none
    else containerOf (s.links.next .reqFreeList)
  let s := if s.links.isEmpty .reqFreeList then s
    else { s with links := s.links.del .zero (.request req) }
  let s := s.store req ⟨0, 0, 0, false⟩
  (req, { s with links := s.links.init (.request req) })

/-- The loop of `comip_ep_free_request`. The cursor moves on along the links of the node that
was just put on the free list. -/
def freeLoop (head : Node) : ℕ → Node → Links Node → Option (Links Node)
  | 0, _, _ => none
  | fuel + 1, pos, links =>
    if pos = head then some links
    else
      let links := (links.del .zero pos).addTail pos .reqFreeList
      freeLoop head fuel (links.next pos) links

/-- `comip_ep_free_request`, if its loop ends within the fuel. -/
def comipEpFreeRequest (fuel : ℕ) (s : Udc) (ep : EpNum) (_req : Option ℕ) : Option Udc :=
  (freeLoop (.queue ep) fuel (s.links.next (.queue ep)) s.links).map fun links =>
    { s with links := links }

/-- `comip_ep_in_start` -/
def comipEpInStart (s : Udc) (ep : EpNum) (req : Option ℕ) (zero : Bool) : Udc :=
  let s := s.start ep ⟨req, zero⟩
  if zero then s
  else s.store req { s.req req with actual := (s.req req).actual + (s.req req).length }

/-- `comip_ep_out_start`; it returns -EINVAL for a length of 0. -/
def comipEpOutStart (s : Udc) (ep : EpNum) (req : Option ℕ) : Udc :=
  if (s.req req).length = 0 then s else s.start ep ⟨req, false⟩

/-- `done`: the callback gets the request. -/
def done (s : Udc) (ep : EpNum) (req : Option ℕ) (status : ℤ) (after : AfterDone) : Udc :=
  let s := { s with links := s.links.delInit (.request req) }
  let s := (s.store req { s.req req with status := status }).hold req true
  { s with
    finished := Function.update s.finished ep (s.finished ep ++ [req])
    after := after :: s.after }

/-- The end of `comip_ep_queue`. -/
def addQueue (s : Udc) (ep : EpNum) (req : Option ℕ) : Udc :=
  { s with links := s.links.addTail (.request req) (.queue ep) }

/-- `comip_ep_queue` -/
def comipEpQueue (s : Udc) (ep : EpNum) (req : Option ℕ) : Udc :=
  let s := s.store req { s.req req with status := -115, actual := 0 }
  if s.links.isEmpty (.queue ep) && !(s.ep ep).stopped then
    if ep = 0 then
      match s.ep0State with
      | .inDataPhase => (s.comipEpInStart ep req false).addQueue ep req
      | .noAction => { s with ep0State := .idle }
      | .inFake => { s with ep0State := .idle }.done ep req 0 .nothing
      | _ =>
        let s := s.store req { s.req req with length := (s.ep 0).maxpacket }
        (s.comipEpOutStart ep req).addQueue ep req
    else if (s.ep ep).dirIn then (s.comipEpInStart ep req false).addQueue ep req
    else (s.comipEpOutStart ep req).addQueue ep req
  else s.addQueue ep req

/-- `comip_udc_rx_dma_handle`, for a descriptor that is done. -/
def comipUdcRxDmaHandle (s : Udc) (req : Option ℕ) (length : ℕ) : Udc :=
  s.store req { s.req req with actual := (s.req req).actual + length }

/-- `comip_handle_ep` for `USB_DIOEPINT_XFCOMPL`, up to a callback. -/
def comipHandleEp (s : Udc) (ep : EpNum) (length : ℕ) : Udc :=
  if s.links.isEmpty (.queue ep) then s
  else
    let req := containerOf (s.links.next (.queue ep))
    if s.links.next (.request req) ≠ .queue ep then
      let reqNext := containerOf (s.links.next (.request req))
      if (s.ep ep).dirIn then s.done ep req 0 (.inStart ep reqNext)
      else (s.comipUdcRxDmaHandle req length).done ep req 0 (.outStart ep reqNext)
    else if (s.ep ep).dirIn then
      if (s.req req).zero then
        if (s.req req).length % (s.ep ep).maxpacket = 0 ∧ (s.req req).length ≠ 0 then
          let s := s.comipEpInStart ep req true
          s.store req { s.req req with zero := false }
        else s.done ep req 0 (.resetZero req)
      else s.done ep req 0 .nothing
    else (s.comipUdcRxDmaHandle req length).done ep req 0 .nothing

/-- The setup requests are received with `ep0_req` again. -/
def ep0OutStart (s : Udc) : Udc :=
  let s := s.store s.ep0Req { s.req s.ep0Req with length := (s.ep 0).maxpacket }
  { s.comipEpOutStart 0 s.ep0Req with ep0State := .idle }

/-- `comip_handle_ep0` for `USB_DIOEPINT_XFCOMPL` in `EP0_IN_DATA_PHASE`, up to a callback. -/
def comipHandleEp0 (s : Udc) : Udc :=
  if s.ep0State = .inDataPhase then
    if s.links.isEmpty (.queue 0) then s.ep0OutStart
    else s.done 0 (containerOf (s.links.next (.queue 0))) 0 .ep0OutStart
  else s

/-- A callback returns. -/
def resume (s : Udc) : AfterDone → Udc
  | .nothing => s
  | .inStart ep req => s.comipEpInStart ep req false
  | .outStart ep req => s.comipEpOutStart ep req
  | .resetZero req => s.store req { s.req req with zero := false }
  | .ep0OutStart => s.ep0OutStart

/-- The queues of `comip_udc_eps_init`; direction and packet size are those of
`comip_ep_enable`. -/
def comipUdcEpsInit (s : Udc) : Udc :=
  { s with
    links := (List.finRange comipEpNum).foldl (fun l ep => l.init (.queue ep)) s.links
    ep := fun i => { s.ep i with stopped := false } }

/-- One turn of the loop of `comip_udc_reqs_init`. -/
def putReq (s : Udc) (i : ℕ) : Udc :=
  let s := s.store (some i) ⟨0, 0, 0, false⟩
  { s with links := (s.links.init (.request (some i))).addTail (.request (some i)) .reqFreeList }

/-- `comip_udc_reqs_init`, with room for `reqMax` requests. -/
def comipUdcReqsInit (reqMax : ℕ) (s : Udc) : Udc :=
  let s := (List.range reqMax).foldl putReq { s with links := s.links.init .reqFreeList }
  let (req, s) := comipEpAllocRequest { s with ep0State := .idle }
  let s := { s with ep0Req := req, links := s.links.init (.request req) }
  (s.store req ⟨0, (s.ep 0).maxpacket, 0, false⟩).hold req true

/-- The driver at the start; nothing is held, queued or under way. -/
def comipUdcInit (reqMax : ℕ) (s : Udc) : Udc :=
  comipUdcReqsInit reqMax (comipUdcEpsInit { s with
    held := fun _ => false
    dma := fun _ => none
    after := []
    queued := fun _ => []
    finished := fun _ => []
    sent := fun _ => [] })

/-- `comip_ep_queue` puts the request into the queue, or leaves it with its caller. -/
def takes (s : Udc) (ep : EpNum) : Bool :=
  !(s.links.isEmpty (.queue ep) && !(s.ep ep).stopped && decide (ep = 0) &&
    (decide (s.ep0State = .noAction) || decide (s.ep0State = .inFake)))

/-- The record of a request that the driver has taken from its caller. -/
def give (s : Udc) (ep : EpNum) (e : Entry) : Udc :=
  { s.hold e.req false with queued := Function.update s.queued ep (s.queued ep ++ [e]) }

/-- The controller is through with the descriptor of an endpoint. -/
def transferEnds (s : Udc) (ep : EpNum) : Udc :=
  { s with dma := Function.update s.dma ep none }

end Udc

/-- The steps of the callers and of the controller. A caller fills in the length and the flag
of a request before it queues it. `ep0Setup` stands for the handling of setup packets, which
leaves the lists alone. -/
inductive Action where
  | alloc
  | free (ep : EpNum) (req : Option ℕ)
  | queue (ep : EpNum) (req : Option ℕ) (length : ℕ) (zero : Bool)
  | xfcompl (ep : EpNum) (length : ℕ)
  | xfcompl0
  | ep0Setup (st : Ep0State)
  | callbackReturns

/-- What a step returns to its caller. -/
inductive Outcome where
  | returned
  | request (req : Option ℕ)
  | runsOn
  deriving DecidableEq

/-- The driver. A call of `comip_ep_free_request` that does not end in time leaves it where
it is. -/
def driver (fuel : ℕ) : Machine Udc Action Outcome where
  step s
    | .alloc =>
      let (req, s) := s.comipEpAllocRequest
      (.request req, if req = none then s else s.hold req true)
    | .free ep req =>
      match s.comipEpFreeRequest fuel ep req with
      | some s => (.returned, s.hold req false)
      | none => (.runsOn, s)
    | .queue ep req length zero =>
      let s' := (s.store req { s.req req with length := length, zero := zero }).comipEpQueue ep req
      (.returned, if s.takes ep then s'.give ep ⟨req, length, zero⟩ else s')
    | .xfcompl ep length => (.returned, (s.transferEnds ep).comipHandleEp ep length)
    | .xfcompl0 => (.returned, (s.transferEnds 0).comipHandleEp0)
    | .ep0Setup st => (.returned, { s with ep0State := st })
    | .callbackReturns =>
      match s.after with
      | [] => (.returned, s)
      | a :: after => (.returned, Udc.resume { s with after := after } a)

theorem driver_callbackReturns_nil {s : Udc} (hs : s.after = []) (fuel : ℕ) :
    ((driver fuel).step s .callbackReturns).2 = s := by
  simp only [driver, hs]

theorem driver_callbackReturns_cons {s : Udc} {a : AfterDone} {after : List AfterDone}
    (hs : s.after = a :: after) (fuel : ℕ) :
    ((driver fuel).step s .callbackReturns).2 = Udc.resume { s with after := after } a := by
  simp only [driver, hs]

end UBoot.Usb
