import UBoot.Library.PackedField

/-!
# The two receive buffers of the USB download

`usb_udl_recv` hands out the buffer of one request and queues the other. It runs statement by
statement here, so that a receive completion can come between any two of them; a transfer under
way writes to the buffer of its request whenever it likes.
-/
namespace UBoot.Usb
open ByteStore

/-- Where `usb_udl_recv` stands: `req` is its local, `ret` what it will return. -/
inductive RecvPc
  | idle
  | waiting (req : ℕ)
  | received (req ret : ℕ)
  | cleared (req ret : ℕ)
  | flipped (req ret : ℕ)
  deriving DecidableEq

/-- `l_udldev` with `packet_received`, the requests queued at the controller, and for each
request its `actual` and its buffer. `held` is the request whose buffer the last call returned,
with the length; `delivered` and `handed` are the packets that came and those that calls
returned. -/
structure UdlDev where
  rxReqIndex : ℕ
  packetReceived : Bool
  queued : List ℕ
  actual : ℕ → ℕ
  buf : ℕ → Mem
  pc : RecvPc
  held : Option (ℕ × ℕ)
  delivered : List (List UInt8)
  handed : List (List UInt8)

namespace UdlDev

/-- `rx_submit` -/
def rxSubmit (s : UdlDev) (req : ℕ) : UdlDev := { s with queued := s.queued ++ [req] }

/-- `usb_udl_init`, with what stands in the buffers. -/
def init (actual : ℕ → ℕ) (buf : ℕ → Mem) : UdlDev :=
  rxSubmit ⟨0, false, [], actual, buf, .idle, none, [], []⟩ 0

/-- The next statement of `usb_udl_recv`; behind the last one the request whose buffer it
returns, and the length. -/
def proceed (s : UdlDev) : UdlDev × Option (ℕ × ℕ) :=
  match s.pc with
  | .idle => (s, none)
  | .waiting req =>
    (if s.packetReceived then { s with pc := .received req (s.actual req) } else s, none)
  | .received req ret => ({ s with packetReceived := false, pc := .cleared req ret }, none)
  | .cleared req ret =>
    ({ s with rxReqIndex := s.rxReqIndex ^^^ 0x01, pc := .flipped req ret }, none)
  | .flipped req ret => (rxSubmit { s with pc := .idle } s.rxReqIndex, some (req, ret))

/-- `rx_complete` with status 0, for the request that the controller has filled. -/
def rxComplete (s : UdlDev) (req : ℕ) (packet : List UInt8) : UdlDev :=
  { s with
    queued := s.queued.erase req
    actual := Function.update s.actual req packet.length
    buf := Function.update s.buf req (overlay (s.buf req) 0 packet.length (ofList packet))
    packetReceived := true }

/-- What the caller sees of a call that returns. -/
def handOver (s : UdlDev) : Option (ℕ × ℕ) → UdlDev
  | none => s
  | some (req, ret) =>
    { s with held := some (req, ret), handed := s.handed ++ [slice (s.buf req) 0 ret] }

end UdlDev

/-- A call, a statement of the call under way, a write of the controller, a completion. -/
inductive UdlAction
  | call
  | proceed
  | dma (req : ℕ) (mem : Mem)
  | complete (req : ℕ) (packet : List UInt8)

/-- The controller serves queued requests, and no packet is longer than the request. -/
def UdlLegal (udcDmaBufSize : ℕ) (s : UdlDev) : UdlAction → Prop
  | .call => s.pc = .idle
  | .proceed => s.pc ≠ .idle
  | .dma req _ => req ∈ s.queued
  | .complete req packet => req ∈ s.queued ∧ packet.length ≤ udcDmaBufSize

def udlStep (s : UdlDev) : UdlAction → UdlDev
  | .call => { s with pc := .waiting s.rxReqIndex }
  | .proceed => s.proceed.1.handOver s.proceed.2
  | .dma req mem => { s with buf := Function.update s.buf req mem }
  | .complete req packet => { s.rxComplete req packet with delivered := s.delivered ++ [packet] }

inductive UdlReachable (udcDmaBufSize : ℕ) : UdlDev → Prop
  | init (actual : ℕ → ℕ) (buf : ℕ → Mem) : UdlReachable udcDmaBufSize (.init actual buf)
  | step {s : UdlDev} {a : UdlAction} (h : UdlReachable udcDmaBufSize s)
      (hlegal : UdlLegal udcDmaBufSize s a) : UdlReachable udcDmaBufSize (udlStep s a)

/-- What has come and was not returned yet, and where it lies, at each point of a call. -/
inductive RecvPhase (s : UdlDev) : Prop
  | listening (hpc : s.pc = .idle ∨ s.pc = .waiting s.rxReqIndex)
      (hreceived : s.packetReceived = false) (hqueued : s.queued = [s.rxReqIndex])
      (hall : s.delivered = s.handed)
  | arrived (hpc : s.pc = .idle ∨ s.pc = .waiting s.rxReqIndex)
      (hreceived : s.packetReceived = true) (hqueued : s.queued = [])
      (hall : s.delivered =
        s.handed ++ [slice (s.buf s.rxReqIndex) 0 (s.actual s.rxReqIndex)])
  | taken (ret : ℕ) (hpc : s.pc = .received s.rxReqIndex ret) (hqueued : s.queued = [])
      (hall : s.delivered = s.handed ++ [slice (s.buf s.rxReqIndex) 0 ret])
  | cleared (ret : ℕ) (hpc : s.pc = .cleared s.rxReqIndex ret)
      (hreceived : s.packetReceived = false) (hqueued : s.queued = [])
      (hall : s.delivered = s.handed ++ [slice (s.buf s.rxReqIndex) 0 ret])
  | flipped (req ret : ℕ) (hpc : s.pc = .flipped req ret) (hother : req ≠ s.rxReqIndex)
      (hreceived : s.packetReceived = false) (hqueued : s.queued = [])
      (hall : s.delivered = s.handed ++ [slice (s.buf req) 0 ret])

/-- The buffer that the caller holds is the other one, and holds the packet returned. -/
def HeldRight (s : UdlDev) : Prop :=
  s.pc = .idle → ∀ req ret, s.held = some (req, ret) →
    req ≠ s.rxReqIndex ∧ s.handed.getLast? = some (slice (s.buf req) 0 ret)

structure UdlInv (s : UdlDev) : Prop where
  index : s.rxReqIndex = 0 ∨ s.rxReqIndex = 1
  phase : RecvPhase s
  held : HeldRight s

theorem xor_one_ne {i : ℕ} (h : i = 0 ∨ i = 1) :
    i ≠ i ^^^ 0x01 ∧ (i ^^^ 0x01 = 0 ∨ i ^^^ 0x01 = 1) := by
  rcases h with rfl | rfl <;> decide

section Steps
variable {udcDmaBufSize : ℕ} {s : UdlDev}

theorem UdlInv.init (actual : ℕ → ℕ) (buf : ℕ → Mem) : UdlInv (.init actual buf) :=
  ⟨.inl rfl, .listening (.inl rfl) rfl rfl rfl, fun _ _ _ h => by simp [UdlDev.init,
    UdlDev.rxSubmit] at h⟩

theorem UdlInv.call (h : UdlInv s) (hidle : s.pc = .idle) : UdlInv (udlStep s .call) := by
  refine ⟨h.index, ?_, fun hpc => by simp [udlStep] at hpc⟩
  cases h.phase with
  | listening hpc hreceived hqueued hall => exact .listening (.inr rfl) hreceived hqueued hall
  | arrived hpc hreceived hqueued hall => exact .arrived (.inr rfl) hreceived hqueued hall
  | taken ret hpc => simp [hidle] at hpc
  | cleared ret hpc => simp [hidle] at hpc
  | flipped req ret hpc => simp [hidle] at hpc

theorem UdlInv.proceed (h : UdlInv s) (hbusy : s.pc ≠ .idle) : UdlInv (udlStep s .proceed) := by
  obtain ⟨hne, hindex⟩ := xor_one_ne h.index
  simp only [udlStep, UdlDev.proceed]
  cases h.phase with
  | listening hpc hreceived hqueued hall =>
    simp only [hpc.resolve_left hbusy, hreceived, Bool.false_eq_true, if_false,
      UdlDev.handOver]
    exact h
  | arrived hpc hreceived hqueued hall =>
    simp only [hpc.resolve_left hbusy, hreceived, if_true, UdlDev.handOver]
    exact ⟨h.index, .taken _ rfl hqueued hall, fun hpc => by simp at hpc⟩
  | taken ret hpc hqueued hall =>
    simp only [hpc, UdlDev.handOver]
    exact ⟨h.index, .cleared ret rfl rfl hqueued hall, fun hpc => by simp at hpc⟩
  | cleared ret hpc hreceived hqueued hall =>
    simp only [hpc, UdlDev.handOver]
    exact ⟨hindex, .flipped _ ret rfl hne hreceived hqueued hall, fun hpc => by simp at hpc⟩
  | flipped req ret hpc hother hreceived hqueued hall =>
    simp only [hpc, UdlDev.handOver]
    refine ⟨h.index, .listening (.inl rfl) hreceived ?_ hall, ?_⟩
    · simp [UdlDev.rxSubmit, hqueued]
    · rintro - req' ret' hheld
      simp only [Option.some.injEq, Prod.mk.injEq] at hheld
      obtain ⟨rfl, rfl⟩ := hheld
      exact ⟨hother, by simp [UdlDev.rxSubmit]⟩

/-- Only while a call listens is a request queued. -/
theorem UdlInv.of_queued (h : UdlInv s) {req : ℕ} (hreq : req ∈ s.queued) :
    req = s.rxReqIndex ∧ s.queued = [s.rxReqIndex] ∧ s.packetReceived = false ∧
      (s.pc = .idle ∨ s.pc = .waiting s.rxReqIndex) ∧ s.delivered = s.handed := by
  cases h.phase with
  | listening hpc hreceived hqueued hall =>
    refine ⟨?_, hqueued, hreceived, hpc, hall⟩
    simpa [hqueued] using hreq
  | arrived hpc hreceived hqueued => simp [hqueued] at hreq
  | taken ret hpc hqueued => simp [hqueued] at hreq
  | cleared ret hpc hreceived hqueued => simp [hqueued] at hreq
  | flipped req' ret hpc hother hreceived hqueued => simp [hqueued] at hreq

theorem HeldRight.update (h : HeldRight s) (mem : Mem) :
    HeldRight { s with buf := Function.update s.buf s.rxReqIndex mem } := by
  intro hpc req ret hheld
  obtain ⟨hne, hlast⟩ := h hpc req ret hheld
  refine ⟨hne, ?_⟩
  dsimp only
  rw [Function.update_of_ne hne, hlast]

theorem UdlInv.dma (h : UdlInv s) {req : ℕ} (hreq : req ∈ s.queued) (mem : Mem) :
    UdlInv (udlStep s (.dma req mem)) := by
  obtain ⟨rfl, hqueued, hreceived, hpc, hall⟩ := h.of_queued hreq
  exact ⟨h.index, .listening hpc hreceived hqueued hall, h.held.update mem⟩

theorem UdlInv.complete (h : UdlInv s) {req : ℕ} (hreq : req ∈ s.queued) (packet : List UInt8) :
    UdlInv (udlStep s (.complete req packet)) := by
  obtain ⟨rfl, hqueued, hreceived, hpc, hall⟩ := h.of_queued hreq
  refine ⟨h.index, .arrived hpc rfl ?_ ?_, h.held.update _⟩
  · simp [udlStep, UdlDev.rxComplete, hqueued]
  · simp [udlStep, UdlDev.rxComplete, hall, slice_overlay]

theorem UdlInv.step {a : UdlAction} (h : UdlInv s) (hlegal : UdlLegal udcDmaBufSize s a) :
    UdlInv (udlStep s a) := by
  cases a with
  | call => exact h.call hlegal
  | proceed => exact h.proceed hlegal
  | dma req mem => exact h.dma hlegal mem
  | complete req packet => exact h.complete hlegal.1 packet

theorem UdlReachable.inv (h : UdlReachable udcDmaBufSize s) : UdlInv s := by
  induction h with
  | init actual buf => exact .init actual buf
  | step _ hlegal ih => exact ih.step hlegal

end Steps

/-- No request is queued twice; the packets are returned in their order, and at most one waits to
be; the caller's buffer is left alone between two calls; and a call that waits while a packet has
come and was not returned returns it, with the controller having no request to complete. -/
structure BuffersRight (s : UdlDev) : Prop where
  once : s.queued.Nodup
  ordered : ∃ rest, s.delivered = s.handed ++ rest ∧ rest.length ≤ 1
  apart : s.pc = .idle → ∀ req ret, s.held = some (req, ret) →
    req ∉ s.queued ∧ s.handed.getLast? = some (slice (s.buf req) 0 ret)
  returns : ∀ req, s.pc = .waiting req → s.delivered ≠ s.handed →
    let s' := (List.replicate 4 UdlAction.proceed).foldl udlStep s
    s.queued = [] ∧ s'.pc = .idle ∧ s'.handed = s.delivered

theorem UdlInv.buffersRight {s : UdlDev} (h : UdlInv s) : BuffersRight s := by
  refine ⟨?_, ?_, fun hidle req ret hheld => ?_, fun req hwaiting hleft => ?_⟩
  · cases h.phase with
    | listening _ _ hqueued => simp [hqueued]
    | arrived _ _ hqueued => simp [hqueued]
    | taken _ _ hqueued => simp [hqueued]
    | cleared _ _ _ hqueued => simp [hqueued]
    | flipped _ _ _ _ _ hqueued => simp [hqueued]
  · cases h.phase with
    | listening _ _ _ hall => exact ⟨[], by simp [hall], by simp⟩
    | arrived _ _ _ hall => exact ⟨_, hall, by simp⟩
    | taken _ _ _ hall => exact ⟨_, hall, by simp⟩
    | cleared _ _ _ _ hall => exact ⟨_, hall, by simp⟩
    | flipped _ _ _ _ _ _ hall => exact ⟨_, hall, by simp⟩
  · obtain ⟨hne, hlast⟩ := h.held hidle req ret hheld
    exact ⟨fun hreq => hne (h.of_queued hreq).1, hlast⟩
  · cases h.phase with
    | listening _ _ _ hall => exact absurd hall hleft
    | arrived hpc hreceived hqueued hall =>
      obtain rfl : req = s.rxReqIndex := by simpa [hwaiting] using hpc
      refine ⟨hqueued, ?_, ?_⟩
      · simp [List.replicate, udlStep, UdlDev.proceed, hwaiting, hreceived, UdlDev.handOver,
          UdlDev.rxSubmit]
      · simp [List.replicate, udlStep, UdlDev.proceed, hwaiting, hreceived, UdlDev.handOver,
          UdlDev.rxSubmit, hall]
    | taken _ hpc => simp [hwaiting] at hpc
    | cleared _ hpc => simp [hwaiting] at hpc
    | flipped _ _ hpc => simp [hwaiting] at hpc

/-- In every state that calls and completions lead to, in any order, the buffers are right. -/
theorem udl_buffersRight (udcDmaBufSize : ℕ) (s : UdlDev) (h : UdlReachable udcDmaBufSize s) :
    BuffersRight s := h.inv.buffersRight

/-- A packet comes before the call, and the next one while its buffer is held. -/
theorem two_packets_right : BuffersRight
    ([.complete 0 [1, 2], .call, .proceed, .proceed, .proceed, .proceed, .complete 1 [3]].foldl
      udlStep (UdlDev.init (fun _ => 0) fun _ _ => 0)) := by
  refine udl_buffersRight 32768 _ (.step (a := .complete 1 [3]) (.step (a := .proceed) (.step
    (a := .proceed) (.step (a := .proceed) (.step (a := .proceed) (.step (a := .call) (.step
    (a := .complete 0 [1, 2]) (.init _ _) ?_) ?_) ?_) ?_) ?_) ?_) ?_)
  all_goals simp [UdlLegal, udlStep, UdlDev.proceed, UdlDev.rxComplete, UdlDev.handOver,
    UdlDev.init, UdlDev.rxSubmit]

end UBoot.Usb
