import UBoot.Usb.Pool

/-!
# The queues of the endpoints

Every request that waits at an endpoint should be completed once and in order, with the
controller always at work on the head of the queue, and a packet of zero length behind an IN
request that asks for one. The driver keeps this up as long as no OUT request of length 0 is
queued, no request is queued behind one that still needs its packet of zero length, and no
callback queues its own request again with the flag set, when the handler is about to clear
it.
-/
namespace UBoot.Usb
open Rings

/-- What was queued and is not yet handed back. -/
def pending (s : Udc) (ep : EpNum) : List Entry := (s.queued ep).drop (s.finished ep).length

/-- An IN request with the flag whose length is a multiple of the packet size, and not 0. -/
def needsZlp (s : Udc) (ep : EpNum) (e : Entry) : Bool :=
  (s.ep ep).dirIn && e.zero && decide (e.length % (s.ep ep).maxpacket = 0 ∧ e.length ≠ 0)

/-- What the driver reads of it when the transfer ends. -/
def owesZlp (s : Udc) (ep : EpNum) (req : Option ℕ) : Bool :=
  needsZlp s ep ⟨req, (s.req req).length, (s.req req).zero⟩

/-- The transfers that a request is due. -/
def transfers (s : Udc) (ep : EpNum) (e : Entry) : List Transfer :=
  ⟨e.req, false⟩ :: if needsZlp s ep e then [⟨e.req, true⟩] else []

/-- The transfers of the requests handed back. -/
def doneTransfers (s : Udc) (ep : EpNum) : List Transfer :=
  ((s.queued ep).take (s.finished ep).length).flatMap (transfers s ep)

/-- Requests come back once and in the order in which they were queued; the others wait in
that order; the controller works on the head, whose transfers so far follow those of all
requests before it. -/
structure QueueOk (s : Udc) (ep : EpNum) : Prop where
  inOrder : s.finished ep = ((s.queued ep).take (s.finished ep).length).map Entry.req
  waiting : s.links.Ring (.queue ep) ((pending s ep).map fun e => .request e.req)
  idle : pending s ep = [] → s.dma ep = none ∧ s.sent ep = doneTransfers s ep
  busy : ∀ e rest, pending s ep = e :: rest →
    (s.dma ep = some ⟨e.req, false⟩ ∧ s.sent ep = doneTransfers s ep ++ [⟨e.req, false⟩]) ∨
    (needsZlp s ep e = true ∧ s.dma ep = some ⟨e.req, true⟩ ∧
      s.sent ep = doneTransfers s ep ++ [⟨e.req, false⟩, ⟨e.req, true⟩])

/-- Requests are allocated from a list that is not empty and queued at endpoints other than 0
by their holders; an interrupt ends a transfer under way, between two calls. -/
def FlowLegal (reqMax : ℕ) (s : Udc) : Action → Prop
  | .alloc => s.links.isEmpty .reqFreeList = false
  | .queue ep req _ _ => ep ≠ 0 ∧ ∃ i < reqMax, req = some i ∧ s.held req = true
  | .xfcompl ep _ => ep ≠ 0 ∧ s.after = [] ∧ s.dma ep ≠ none
  | .callbackReturns => True
  | _ => False

/-- The three ways in which a queue goes wrong are not taken. -/
def KeepsFlow (s : Udc) : Action → Prop
  | .queue ep _ length _ => (s.ep ep).dirIn = false → length ≠ 0
  | .xfcompl ep _ => ∀ e rest, pending s ep = e :: rest → owesZlp s ep e.req = true → rest = []
  | .callbackReturns => ∀ req rest, s.after = .resetZero req :: rest →
      ∀ ep, ∀ e ∈ pending s ep, e.req = req → needsZlp s ep e = false
  | _ => True

/-- How far the controller is with the head of a queue; `starting` says that the handler is
about to start it. -/
inductive HeadOk (s : Udc) (ep : EpNum) (e : Entry) : Bool → Prop
  | waits (dma : s.dma ep = none) (sent : s.sent ep = doneTransfers s ep)
      (owes : owesZlp s ep e.req = needsZlp s ep e) : HeadOk s ep e true
  | data (dma : s.dma ep = some ⟨e.req, false⟩)
      (sent : s.sent ep = doneTransfers s ep ++ [⟨e.req, false⟩])
      (owes : owesZlp s ep e.req = needsZlp s ep e) : HeadOk s ep e false
  | zlp (needs : needsZlp s ep e = true) (dma : s.dma ep = some ⟨e.req, true⟩)
      (sent : s.sent ep = doneTransfers s ep ++ [⟨e.req, false⟩, ⟨e.req, true⟩])
      (owes : owesZlp s ep e.req = false) : HeadOk s ep e false

structure Flow (s : Udc) (ep : EpNum) (starting : Bool) : Prop where
  order : s.finished ep = ((s.queued ep).take (s.finished ep).length).map Entry.req
  data : ∀ e ∈ pending s ep,
    (s.req e.req).length = e.length ∧ ((s.ep ep).dirIn = false → e.length ≠ 0)
  tail : ∀ e ∈ (pending s ep).tail, owesZlp s ep e.req = needsZlp s ep e
  idle : pending s ep = [] → s.dma ep = none ∧ s.sent ep = doneTransfers s ep ∧ starting = false
  head : ∀ e rest, pending s ep = e :: rest → HeadOk s ep e starting

section Endpoint
variable {s s' : Udc} {ep : EpNum} {b : Bool} {e : Entry} {rest : List Entry}

theorem needsZlp_congr (hep : s'.ep = s.ep) (ep : EpNum) (e : Entry) :
    needsZlp s' ep e = needsZlp s ep e := by rw [needsZlp, needsZlp, hep]

theorem transfers_congr (hep : s'.ep = s.ep) (ep : EpNum) :
    transfers s' ep = transfers s ep := by
  funext e
  rw [transfers, transfers, needsZlp_congr hep]

theorem Flow.le (h : Flow s ep b) : (s.finished ep).length ≤ (s.queued ep).length := by
  have hlen := congrArg List.length h.order
  rw [List.length_map, List.length_take] at hlen
  omega

theorem pending_congr (hqueued : s'.queued ep = s.queued ep)
    (hfinished : s'.finished ep = s.finished ep) : pending s' ep = pending s ep := by
  rw [pending, pending, hqueued, hfinished]

theorem doneTransfers_congr (hqueued : s'.queued ep = s.queued ep)
    (hfinished : s'.finished ep = s.finished ep) (hep : s'.ep = s.ep) :
    doneTransfers s' ep = doneTransfers s ep := by
  rw [doneTransfers, doneTransfers, hqueued, hfinished, transfers_congr hep]

/-- What the pending requests are and hold stays while no request is queued or finished. -/
theorem Flow.kept (h : Flow s ep b) (hqueued : s'.queued ep = s.queued ep)
    (hfinished : s'.finished ep = s.finished ep) (hep : s'.ep = s.ep)
    (hreq : ∀ e ∈ pending s ep, (s'.req e.req).length = (s.req e.req).length ∧
      owesZlp s' ep e.req = owesZlp s ep e.req) :
    s'.finished ep = ((s'.queued ep).take (s'.finished ep).length).map Entry.req ∧
      (∀ e ∈ pending s' ep, (s'.req e.req).length = e.length ∧
        ((s'.ep ep).dirIn = false → e.length ≠ 0)) ∧
      ∀ e ∈ (pending s' ep).tail, owesZlp s' ep e.req = needsZlp s' ep e := by
  rw [pending_congr hqueued hfinished, hqueued, hfinished]
  refine ⟨h.order, fun e he => ?_, fun e he => ?_⟩
  · rw [(hreq e he).1, hep]
    exact h.data e he
  · rw [(hreq e (List.mem_of_mem_tail he)).2, needsZlp_congr hep]
    exact h.tail e he

/-- The state of the controller and of the pending requests decides. -/
theorem Flow.congr (h : Flow s ep b) (hqueued : s'.queued ep = s.queued ep)
    (hfinished : s'.finished ep = s.finished ep) (hsent : s'.sent ep = s.sent ep)
    (hdma : s'.dma ep = s.dma ep) (hep : s'.ep = s.ep)
    (hreq : ∀ e ∈ pending s ep, (s'.req e.req).length = (s.req e.req).length ∧
      owesZlp s' ep e.req = owesZlp s ep e.req) : Flow s' ep b := by
  have hpending := pending_congr hqueued hfinished
  have hdone := doneTransfers_congr hqueued hfinished hep
  obtain ⟨horder, hdata, htail⟩ := h.kept hqueued hfinished hep hreq
  refine ⟨horder, hdata, htail, ?_, ?_⟩
  · rw [hpending, hdma, hsent, hdone]
    exact h.idle
  · intro e rest hp
    rw [hpending] at hp
    have howes := (hreq e (hp ▸ List.mem_cons_self)).2
    have hneeds := needsZlp_congr hep ep e
    cases h.head e rest hp with
    | waits dma sent owes =>
      exact .waits (hdma ▸ dma) (hsent ▸ hdone ▸ sent) (by rw [howes, hneeds, owes])
    | data dma sent owes =>
      exact .data (hdma ▸ dma) (hsent ▸ hdone ▸ sent) (by rw [howes, hneeds, owes])
    | zlp needs dma sent owes =>
      exact .zlp (hneeds.trans needs) (hdma ▸ dma) (hsent ▸ hdone ▸ sent) (howes.trans owes)

theorem take_drop_succ {α : Type*} {l : List α} {n : ℕ} {x : α} {xs : List α}
    (h : l.drop n = x :: xs) : l.take (n + 1) = l.take n ++ [x] ∧ l.drop (n + 1) = xs := by
  have hx : l[n]? = some x := by rw [← List.head?_drop, h, List.head?_cons]
  constructor
  · rw [List.take_add_one, hx, Option.toList_some]
  · rw [← List.drop_drop, h, List.drop_one, List.tail_cons]

/-- The head goes back to its caller after all its transfers. -/
theorem Flow.finish (h : Flow s ep false) (hp : pending s ep = e :: rest)
    (hall : s.sent ep = doneTransfers s ep ++ transfers s ep e)
    (hqueued : s'.queued ep = s.queued ep) (hfinished : s'.finished ep = s.finished ep ++ [e.req])
    (hsent : s'.sent ep = s.sent ep) (hdma : s'.dma ep = none) (hep : s'.ep = s.ep)
    (hreq : ∀ e ∈ rest, (s'.req e.req).length = (s.req e.req).length ∧
      owesZlp s' ep e.req = owesZlp s ep e.req) :
    Flow s' ep (decide (rest ≠ [])) ∧ pending s' ep = rest := by
  obtain ⟨htake, hdrop⟩ := take_drop_succ hp
  have hlen : (s'.finished ep).length = (s.finished ep).length + 1 := by
    rw [hfinished, List.length_append]
    rfl
  have hpending : pending s' ep = rest := by rw [pending, hqueued, hlen, hdrop]
  have hdone : doneTransfers s' ep = s'.sent ep := by
    rw [hsent, hall, doneTransfers, doneTransfers, hqueued, hlen, htake, List.flatMap_append,
      transfers_congr hep, List.flatMap_singleton]
  refine ⟨⟨?_, ?_, ?_, ?_, ?_⟩, hpending⟩
  · rw [hqueued, hlen, htake, hfinished, List.map_append, ← h.order]
    rfl
  · intro e' he
    rw [hpending] at he
    rw [(hreq e' he).1, hep]
    exact h.data e' (hp ▸ List.mem_cons_of_mem _ he)
  · intro e' he
    rw [hpending] at he
    have hmem := List.mem_of_mem_tail he
    rw [(hreq e' hmem).2, needsZlp_congr hep]
    exact h.tail e' (by rw [hp]; exact hmem)
  · intro hnil
    rw [hpending] at hnil
    exact ⟨hdma, hdone.symm, by simp [hnil]⟩
  · intro e' rest' hp'
    rw [hpending] at hp'
    rw [hp', decide_eq_true (List.cons_ne_nil _ _)]
    have hmem : e' ∈ rest := hp' ▸ List.mem_cons_self
    refine .waits hdma hdone.symm ?_
    rw [(hreq e' hmem).2, needsZlp_congr hep]
    exact h.tail e' (by rw [hp]; exact hmem)

/-- A queue with a head. -/
theorem Flow.of_head (order : s.finished ep =
      ((s.queued ep).take (s.finished ep).length).map Entry.req)
    (data : ∀ e ∈ pending s ep,
      (s.req e.req).length = e.length ∧ ((s.ep ep).dirIn = false → e.length ≠ 0))
    (tail : ∀ e ∈ (pending s ep).tail, owesZlp s ep e.req = needsZlp s ep e)
    (hp : pending s ep = e :: rest) (hhead : HeadOk s ep e b) : Flow s ep b := by
  refine ⟨order, data, tail, ?_, ?_⟩
  · intro hnil
    rw [hp] at hnil
    exact absurd hnil (List.cons_ne_nil _ _)
  · intro e' rest' hp'
    rw [hp] at hp'
    obtain ⟨rfl, rfl⟩ := List.cons.inj hp'
    exact hhead

/-- A request more is pending, and the others are as far as they were. -/
theorem Flow.append (h : Flow s ep b) (hqueued : s'.queued ep = s.queued ep ++ [e])
    (hfinished : s'.finished ep = s.finished ep) (hep : s'.ep = s.ep) :
    pending s' ep = pending s ep ++ [e] ∧
      (s'.queued ep).take (s'.finished ep).length = (s.queued ep).take (s.finished ep).length ∧
      doneTransfers s' ep = doneTransfers s ep := by
  have htake : (s'.queued ep).take (s'.finished ep).length =
      (s.queued ep).take (s.finished ep).length := by
    rw [hqueued, hfinished, List.take_append_of_le_length h.le]
  refine ⟨?_, htake, ?_⟩
  · rw [pending, pending, hqueued, hfinished, List.drop_append_of_le_length h.le]
  · rw [doneTransfers, doneTransfers, htake, transfers_congr hep]

/-- The head is started. -/
theorem Flow.start (h : Flow s ep true) (hp : pending s ep = e :: rest)
    (hqueued : s'.queued ep = s.queued ep) (hfinished : s'.finished ep = s.finished ep)
    (hsent : s'.sent ep = s.sent ep ++ [⟨e.req, false⟩])
    (hdma : s'.dma ep = some ⟨e.req, false⟩) (hep : s'.ep = s.ep)
    (hreq : ∀ e ∈ pending s ep, (s'.req e.req).length = (s.req e.req).length ∧
      owesZlp s' ep e.req = owesZlp s ep e.req) : Flow s' ep false := by
  have hpending := pending_congr hqueued hfinished
  have hdone := doneTransfers_congr hqueued hfinished hep
  obtain ⟨horder, hdata, htail⟩ := h.kept hqueued hfinished hep hreq
  refine Flow.of_head horder hdata htail (hpending.trans hp) ?_
  cases h.head e rest hp with
  | waits _ sent owes =>
    refine .data hdma (by rw [hsent, sent, hdone]) ?_
    rw [(hreq e (hp ▸ List.mem_cons_self)).2, needsZlp_congr hep, owes]

/-- A packet of zero length is started behind the data of the only request. -/
theorem Flow.startZlp (h : Flow s ep false) (hp : pending s ep = [e])
    (hdata : s.dma ep = some ⟨e.req, false⟩) (howes : owesZlp s ep e.req = true)
    (hqueued : s'.queued ep = s.queued ep) (hfinished : s'.finished ep = s.finished ep)
    (hsent : s'.sent ep = s.sent ep ++ [⟨e.req, true⟩])
    (hdma : s'.dma ep = some ⟨e.req, true⟩) (hep : s'.ep = s.ep)
    (hlength : (s'.req e.req).length = (s.req e.req).length)
    (hzero : (s'.req e.req).zero = false) : Flow s' ep false := by
  have hpending := pending_congr hqueued hfinished
  have hdone := doneTransfers_congr hqueued hfinished hep
  refine Flow.of_head ?_ ?_ ?_ (hpending.trans hp) ?_
  · rw [hqueued, hfinished]
    exact h.order
  · intro e' he
    rw [hpending, hp, List.mem_singleton] at he
    rw [he, hlength, hep]
    exact h.data e (hp ▸ List.mem_cons_self)
  · intro e' he
    rw [hpending, hp] at he
    exact absurd he List.not_mem_nil
  · have hno : owesZlp s' ep e.req = false := by simp [owesZlp, needsZlp, hzero]
    cases h.head e [] hp with
    | data _ sent owes =>
      refine .zlp ?_ hdma (by rw [hsent, sent, hdone, List.append_assoc]; rfl) hno
      rw [needsZlp_congr hep, ← owes, howes]
    | zlp _ dma => rw [dma] at hdata; exact absurd hdata (by simp)

/-- A request is queued behind others. -/
theorem Flow.queueBehind (h : Flow s ep b) (hp : pending s ep ≠ [])
    (hnew : (s'.req e.req).length = e.length)
    (hlength : (s.ep ep).dirIn = false → e.length ≠ 0)
    (howes : owesZlp s' ep e.req = needsZlp s ep e)
    (hqueued : s'.queued ep = s.queued ep ++ [e]) (hfinished : s'.finished ep = s.finished ep)
    (hsent : s'.sent ep = s.sent ep) (hdma : s'.dma ep = s.dma ep) (hep : s'.ep = s.ep)
    (hreq : ∀ e ∈ pending s ep, (s'.req e.req).length = (s.req e.req).length ∧
      owesZlp s' ep e.req = owesZlp s ep e.req) :
    Flow s' ep b ∧ pending s' ep = pending s ep ++ [e] := by
  obtain ⟨hpending, htake, hdone⟩ := h.append hqueued hfinished hep
  obtain ⟨e₁, rest, hcons⟩ := List.exists_cons_of_ne_nil hp
  refine ⟨Flow.of_head ?_ ?_ ?_ (by rw [hpending, hcons, List.cons_append]) ?_, hpending⟩
  · rw [htake, hfinished]
    exact h.order
  · intro e' he
    rw [hpending, List.mem_append, List.mem_singleton] at he
    rw [hep]
    rcases he with he | rfl
    · rw [(hreq e' he).1]
      exact h.data e' he
    · exact ⟨hnew, hlength⟩
  · intro e' he
    rw [hpending, List.tail_append_of_ne_nil hp, List.mem_append, List.mem_singleton] at he
    rw [needsZlp_congr hep]
    rcases he with he | rfl
    · rw [(hreq e' (List.mem_of_mem_tail he)).2]
      exact h.tail e' he
    · exact howes
  · have hsame := (hreq e₁ (hcons ▸ List.mem_cons_self)).2
    have hneeds := needsZlp_congr hep ep e₁
    cases h.head e₁ rest hcons with
    | waits dma sent owes =>
      exact .waits (hdma ▸ dma) (hsent ▸ hdone ▸ sent) (by rw [hsame, hneeds, owes])
    | data dma sent owes =>
      exact .data (hdma ▸ dma) (hsent ▸ hdone ▸ sent) (by rw [hsame, hneeds, owes])
    | zlp needs dma sent owes =>
      exact .zlp (hneeds.trans needs) (hdma ▸ dma) (hsent ▸ hdone ▸ sent) (hsame.trans owes)

/-- A request is queued where none waits, and started. -/
theorem Flow.queueFirst (h : Flow s ep b) (hp : pending s ep = [])
    (hnew : (s'.req e.req).length = e.length)
    (hlength : (s.ep ep).dirIn = false → e.length ≠ 0)
    (howes : owesZlp s' ep e.req = needsZlp s ep e)
    (hqueued : s'.queued ep = s.queued ep ++ [e]) (hfinished : s'.finished ep = s.finished ep)
    (hsent : s'.sent ep = s.sent ep ++ [⟨e.req, false⟩])
    (hdma : s'.dma ep = some ⟨e.req, false⟩) (hep : s'.ep = s.ep) :
    Flow s' ep false ∧ pending s' ep = pending s ep ++ [e] := by
  obtain ⟨hpending, htake, hdone⟩ := h.append hqueued hfinished hep
  have hone : pending s' ep = [e] := by rw [hpending, hp, List.nil_append]
  refine ⟨Flow.of_head ?_ ?_ ?_ hone ?_, hpending⟩
  · rw [htake, hfinished]
    exact h.order
  · intro e' he
    rw [hone, List.mem_singleton] at he
    rw [he, hep]
    exact ⟨hnew, hlength⟩
  · intro e' he
    rw [hone] at he
    exact absurd he List.not_mem_nil
  · refine .data hdma ?_ (by rw [howes, needsZlp_congr hep])
    rw [hsent, hdone, (h.idle hp).2.1]

end Endpoint

/-- The handler is about to start the head of the queue. -/
def starting (s : Udc) (ep : EpNum) : Bool :=
  match s.after with
  | [.inStart ep' _] => decide (ep' = ep)
  | [.outStart ep' _] => decide (ep' = ep)
  | _ => false

/-- What is left of the handler once the callback has returned: at most one thing, and if it
is a start, then that of the head of a queue in its direction. -/
def AfterOk (s : Udc) : Prop :=
  match s.after with
  | [] => True
  | [.nothing] => True
  | [.resetZero _] => True
  | [.inStart ep req] => ep ≠ 0 ∧ (s.ep ep).dirIn = true ∧
      ∃ e rest, pending s ep = e :: rest ∧ e.req = req
  | [.outStart ep req] => ep ≠ 0 ∧ (s.ep ep).dirIn = false ∧
      ∃ e rest, pending s ep = e :: rest ∧ e.req = req
  | _ => False

structure Flows (reqMax : ℕ) (s : Udc) (owner : ℕ → Option Place) (lists : Place → List ℕ) :
    Prop where
  kept : Kept reqMax s owner lists
  listed : ∀ ep ≠ 0, (pending s ep).map Entry.req = (lists (.queue ep)).map some
  running : ∀ ep, (s.ep ep).stopped = false
  flow : ∀ ep ≠ 0, Flow s ep (starting s ep)
  after : AfterOk s

section System
variable {reqMax : ℕ} {s s' : Udc} {owner owner' : ℕ → Option Place}
  {lists lists' : Place → List ℕ} {ep : EpNum}

theorem starting_congr (h : s'.after = s.after) (ep : EpNum) : starting s' ep = starting s ep := by
  rw [starting, starting, h]

theorem AfterOk.congr (h : AfterOk s) (hafter : s'.after = s.after) (hep : s'.ep = s.ep)
    (hhead : ∀ ep e rest, pending s ep = e :: rest → ∃ rest', pending s' ep = e :: rest') :
    AfterOk s' := by
  unfold AfterOk at h ⊢
  rw [hafter, hep]
  split at h
  · exact h
  · exact h
  · exact h
  · obtain ⟨hne, hdir, e, rest, hp, hreq⟩ := h
    obtain ⟨rest', hp'⟩ := hhead _ e rest hp
    exact ⟨hne, hdir, e, rest', hp', hreq⟩
  · obtain ⟨hne, hdir, e, rest, hp, hreq⟩ := h
    obtain ⟨rest', hp'⟩ := hhead _ e rest hp
    exact ⟨hne, hdir, e, rest', hp', hreq⟩
  · exact h.elim

/-- A request of another queue, of the free list or of a caller is not pending here. -/
theorem Flows.ne_of_owner (h : Flows reqMax s owner lists) (hep : ep ≠ 0) {e : Entry}
    (he : e ∈ pending s ep) {r : ℕ} (hr : owner r ≠ some (.queue ep)) : e.req ≠ some r := by
  intro heq
  have hmem : e.req ∈ (pending s ep).map Entry.req := List.mem_map_of_mem he
  rw [h.listed ep hep, heq, List.mem_map_of_injective (Option.some_injective ℕ)] at hmem
  exact hr ((h.kept.mem _ r).mp hmem).2

/-- The head of a queue, as the links and the records have it. -/
theorem Flows.first (h : Flows reqMax s owner lists) (hep : ep ≠ 0) {e : Entry}
    {rest : List Entry} (hp : pending s ep = e :: rest) :
    ∃ r l, e.req = some r ∧ lists (.queue ep) = r :: l ∧ rest.map Entry.req = l.map some ∧
      ∀ e' ∈ rest, e'.req ≠ some r := by
  have hlisted := h.listed ep hep
  rw [hp, List.map_cons] at hlisted
  have hnodup := h.kept.nodup (.queue ep)
  cases hl : lists (.queue ep) with
  | nil =>
    rw [hl] at hlisted
    exact absurd hlisted (by simp)
  | cons r l =>
    rw [hl, List.map_cons] at hlisted
    obtain ⟨hreq, hrest⟩ := List.cons.inj hlisted
    refine ⟨r, l, hreq, rfl, hrest, ?_⟩
    intro e' he heq
    have hmem : e'.req ∈ rest.map Entry.req := List.mem_map_of_mem he
    rw [hrest, heq, List.mem_map_of_injective (Option.some_injective ℕ)] at hmem
    rw [hl] at hnodup
    exact (List.nodup_cons.mp hnodup).1 hmem

theorem Flows.isEmpty_iff (h : Flows reqMax s owner lists) (hep : ep ≠ 0) :
    s.links.isEmpty (.queue ep) = true ↔ pending s ep = [] := by
  have hempty := h.kept.isEmpty_iff (.queue ep)
  rw [show s.links.isEmpty (.queue ep) = true ↔ _ from hempty, ← List.map_eq_nil_iff (f := some),
    ← h.listed ep hep, List.map_eq_nil_iff]

/-- A request that is not stored into is as it was. -/
theorem same_of_req (hep : s'.ep = s.ep) {req : Option ℕ} (hreq : s'.req req = s.req req) :
    (s'.req req).length = (s.req req).length ∧ owesZlp s' ep req = owesZlp s ep req := by
  rw [owesZlp, owesZlp, needsZlp_congr hep, hreq]
  exact ⟨rfl, rfl⟩

/-- A step that concerns one endpoint. -/
theorem Flows.step_at (h : Flows reqMax s owner lists) (ep : EpNum)
    (hkept : Kept reqMax s' owner' lists') (hafter : AfterOk s') (hep : s'.ep = s.ep)
    (hlists : ∀ q ≠ ep, lists' (.queue q) = lists (.queue q))
    (hothers : ∀ q ≠ ep, s'.queued q = s.queued q ∧ s'.finished q = s.finished q ∧
      s'.sent q = s.sent q ∧ s'.dma q = s.dma q ∧ starting s' q = starting s q)
    (hreq : ∀ q ≠ ep, q ≠ 0 → ∀ e ∈ pending s q, (s'.req e.req).length = (s.req e.req).length ∧
      owesZlp s' q e.req = owesZlp s q e.req)
    (hflow : ep ≠ 0 → Flow s' ep (starting s' ep) ∧
      (pending s' ep).map Entry.req = (lists' (.queue ep)).map some) :
    Flows reqMax s' owner' lists' := by
  refine ⟨hkept, ?_, ?_, ?_, hafter⟩
  · intro q hq
    by_cases hqe : q = ep
    · subst hqe
      exact (hflow hq).2
    · obtain ⟨hqueued, hfinished, -⟩ := hothers q hqe
      rw [hlists q hqe, ← h.listed q hq, pending, pending, hqueued, hfinished]
  · rw [hep]
    exact h.running
  · intro q hq
    by_cases hqe : q = ep
    · subst hqe
      exact (hflow hq).1
    · obtain ⟨hqueued, hfinished, hsent, hdma, hstarting⟩ := hothers q hqe
      rw [hstarting]
      exact (h.flow q hq).congr hqueued hfinished hsent hdma hep (hreq q hqe hq)

/-- `comip_ep_alloc_request` stores into the request it returns and changes links. -/
theorem Udc.comipEpAllocRequest_eq (s : Udc) : ∃ links, s.comipEpAllocRequest.2 =
    { s.store s.comipEpAllocRequest.1 ⟨0, 0, 0, false⟩ with links := links } := by
  rw [Udc.comipEpAllocRequest]
  dsimp only
  by_cases hempty : s.links.isEmpty .reqFreeList = true
  · simp only [if_pos hempty]
    exact ⟨_, rfl⟩
  · simp only [if_neg hempty]
    exact ⟨_, rfl⟩

theorem Flows.alloc (h : Flows reqMax s owner lists)
    (hfree : s.links.isEmpty .reqFreeList = false) (fuel : ℕ) :
    ∃ owner' lists', Flows reqMax ((driver fuel).step s .alloc).2 owner' lists' := by
  obtain ⟨r, l, hr, hreq, howner, hkept⟩ := h.kept.alloc hfree
  obtain ⟨links, heq⟩ := s.comipEpAllocRequest_eq
  rw [driver_alloc, hreq, if_neg nofun]
  rw [heq, hreq] at hkept
  rw [heq, hreq]
  refine ⟨_, _, h.step_at 0 hkept (h.after.congr rfl rfl fun _ _ rest hp => ⟨rest, hp⟩) rfl
    (fun q _ => Function.update_of_ne (by simp) ..) (fun q _ => ⟨rfl, rfl, rfl, rfl, rfl⟩) ?_
    fun h0 => absurd rfl h0⟩
  intro q _ hq e he
  have hne : e.req ≠ some r := h.ne_of_owner hq he (by rw [howner]; exact nofun)
  apply same_of_req
  · rfl
  · exact Function.update_of_ne hne ..

/-- The end of `comip_ep_queue`: behind others, or with the request just started. -/
theorem Flows.addQueue (h : Flows reqMax s owner lists) (hep : ep ≠ 0) {r : ℕ} (hr : r < reqMax)
    (howner : owner r = none) {v : Udc} {e : Entry} (hlinks : v.links = s.links)
    (hheld : v.held = s.held) (hafter : v.after = s.after) (hvep : v.ep = s.ep)
    (hqueued : v.queued = s.queued) (hfinished : v.finished = s.finished)
    (hreq : ∀ q ≠ some r, v.req q = s.req q)
    (hentry : e = ⟨some r, (v.req (some r)).length, (v.req (some r)).zero⟩)
    (hlen : (s.ep ep).dirIn = false → e.length ≠ 0)
    (hothers : ∀ q ≠ ep, v.sent q = s.sent q ∧ v.dma q = s.dma q)
    (hstart : pending s ep = [] ∧ v.sent ep = s.sent ep ++ [⟨some r, false⟩] ∧
        v.dma ep = some ⟨some r, false⟩ ∨
      pending s ep ≠ [] ∧ v.sent ep = s.sent ep ∧ v.dma ep = s.dma ep) :
    ∃ owner' lists', Flows reqMax ((v.addQueue ep (some r)).give ep e) owner' lists' := by
  have hreq' : e.req = some r := by rw [hentry]
  have hkept := (h.kept.congr hlinks hheld).addQueue hr howner ep hreq'
  let t : Udc := (v.addQueue ep (some r)).give ep e
  have hfresh : ∀ q, q ≠ 0 → ∀ e ∈ pending s q, e.req ≠ some r := by
    intro q hq e he
    exact h.ne_of_owner hq he (by rw [howner]; exact nofun)
  have hsame : ∀ q, q ≠ 0 → ∀ e ∈ pending s q,
      ((t.req e.req).length = (s.req e.req).length ∧
        owesZlp t q e.req = owesZlp s q e.req) := by
    intro q hq e he
    apply same_of_req
    · exact hvep
    · exact hreq _ (hfresh q hq e he)
  have hqueued' : t.queued ep = s.queued ep ++ [e] := by
    show Function.update v.queued ep (v.queued ep ++ [e]) ep = _
    rw [Function.update_self, hqueued]
  have hfinished' : t.finished ep = s.finished ep := congrFun hfinished ep
  have hnew : (t.req e.req).length = e.length := by
    rw [hentry]
    rfl
  have howes : owesZlp t ep e.req = needsZlp s ep e := by
    rw [owesZlp, @needsZlp_congr s t hvep, hentry]
    rfl
  have hflow : Flow t ep (starting s ep) ∧ pending t ep = pending s ep ++ [e] := by
    rcases hstart with ⟨hp, hsent, hdma⟩ | ⟨hp, hsent, hdma⟩
    · rw [((h.flow ep hep).idle hp).2.2]
      rw [← hreq'] at hsent hdma
      exact (h.flow ep hep).queueFirst hp hnew hlen howes hqueued' hfinished' hsent hdma hvep
    · exact (h.flow ep hep).queueBehind hp hnew hlen howes hqueued' hfinished' hsent hdma hvep
        (hsame ep hep)
  have hother : ∀ q ≠ ep, t.queued q = s.queued q := by
    intro q hq
    show Function.update v.queued ep _ q = _
    rw [Function.update_of_ne hq, hqueued]
  refine ⟨_, _, h.step_at ep hkept (h.after.congr hafter hvep ?_) hvep ?_ ?_
    (fun q _ hq => hsame q hq) fun _ => ⟨?_, ?_⟩⟩
  · intro q e' rest hp
    by_cases hq : q = ep
    · subst hq
      exact ⟨rest ++ [e], by rw [hflow.2, hp, List.cons_append]⟩
    · refine ⟨rest, ?_⟩
      rw [← hp, pending, pending, hother q hq]
      show List.drop (v.finished q).length _ = _
      rw [hfinished]
  · exact fun q hq => Function.update_of_ne (fun heq => hq (Place.queue.inj heq)) ..
  · exact fun q hq => ⟨hother q hq, congrFun hfinished q, (hothers q hq).1, (hothers q hq).2,
      starting_congr hafter q⟩
  · rw [show starting t ep = starting s ep from starting_congr hafter ep]
    exact hflow.1
  · rw [hflow.2, Function.update_self, List.map_append, List.map_append, h.listed ep hep,
      List.map_singleton, List.map_singleton, hreq']

/-- A caller fills in a request and queues it. -/
theorem Flows.queue (h : Flows reqMax s owner lists) (hep : ep ≠ 0) {r : ℕ} (hr : r < reqMax)
    (howner : owner r = none) (length : ℕ) (zero : Bool)
    (hlen : (s.ep ep).dirIn = false → length ≠ 0) :
    ∃ owner' lists', Flows reqMax
      (((s.store (some r) { s.req (some r) with length := length, zero := zero }).comipEpQueue ep
        (some r)).give ep ⟨some r, length, zero⟩) owner' lists' := by
  rw [Udc.comipEpQueue]
  generalize ht : Udc.store _ _ _ = t
  have hlinks : t.links = s.links := by rw [← ht]; rfl
  have hheld : t.held = s.held := by rw [← ht]; rfl
  have hafter : t.after = s.after := by rw [← ht]; rfl
  have htep : t.ep = s.ep := by rw [← ht]; rfl
  have hqueued : t.queued = s.queued := by rw [← ht]; rfl
  have hfinished : t.finished = s.finished := by rw [← ht]; rfl
  have hsent : t.sent = s.sent := by rw [← ht]; rfl
  have hdma : t.dma = s.dma := by rw [← ht]; rfl
  have hreq : ∀ q ≠ some r, t.req q = s.req q := by
    intro q hq
    rw [← ht]
    show Function.update (Function.update s.req (some r) _) (some r) _ q = _
    rw [Function.update_of_ne hq, Function.update_of_ne hq]
  have hnew : t.req (some r) = ⟨-115, length, 0, zero⟩ := by
    rw [← ht]
    simp [Udc.store]
  clear ht
  have hothers : ∀ (f : EpNum → Option Transfer) (g : EpNum → List Transfer) x y, ∀ q ≠ ep,
      Function.update g ep x q = g q ∧ Function.update f ep y q = f q :=
    fun f g x y q hq => ⟨Function.update_of_ne hq .., Function.update_of_ne hq ..⟩
  dsimp only
  rw [htep, h.running ep, hlinks, Bool.not_false, Bool.and_true]
  by_cases hp : pending s ep = []
  · rw [if_pos ((h.isEmpty_iff hep).mpr hp), if_neg hep]
    split
    · rename_i hdir
      rw [Udc.comipEpInStart, if_neg Bool.false_ne_true]
      refine h.addQueue hep hr howner (e := ⟨some r, length, zero⟩) hlinks hheld hafter htep
        hqueued hfinished ?_ ?_ ?_ ?_ (.inl ⟨hp, ?_, Function.update_self ..⟩)
      · exact fun q hq => (Function.update_of_ne hq ..).trans (hreq q hq)
      · show _ = Entry.mk _ (Function.update t.req (some r) _ (some r)).length
          (Function.update t.req (some r) _ (some r)).zero
        rw [Function.update_self]
        show _ = Entry.mk _ (t.req (some r)).length (t.req (some r)).zero
        rw [hnew]
      · exact fun hout => absurd (hout.symm.trans hdir) Bool.false_ne_true
      · rw [← hsent, ← hdma]
        exact hothers t.dma t.sent _ _
      · rw [← hsent]
        exact Function.update_self ..
    · rename_i hdir
      have hdir' : (s.ep ep).dirIn = false := Bool.not_eq_true _ ▸ hdir
      rw [Udc.comipEpOutStart, hnew, if_neg (hlen hdir')]
      refine h.addQueue hep hr howner (e := ⟨some r, length, zero⟩) hlinks hheld hafter htep
        hqueued hfinished hreq ?_ hlen ?_ (.inl ⟨hp, ?_, Function.update_self ..⟩)
      · show _ = Entry.mk _ (t.req (some r)).length (t.req (some r)).zero
        rw [hnew]
      · rw [← hsent, ← hdma]
        exact hothers t.dma t.sent _ _
      · rw [← hsent]
        exact Function.update_self ..
  · rw [if_neg (fun hempty => hp ((h.isEmpty_iff hep).mp hempty))]
    refine h.addQueue hep hr howner (e := ⟨some r, length, zero⟩) hlinks hheld hafter htep hqueued
      hfinished hreq ?_ hlen (fun q _ => ⟨congrFun hsent q, congrFun hdma q⟩)
      (.inr ⟨hp, congrFun hsent ep, congrFun hdma ep⟩)
    rw [hnew]

/-- What follows the head of a queue. -/
def nextNode (ep : EpNum) : List Entry → Node
  | [] => .queue ep
  | e :: _ => .request e.req

theorem Flows.next_first (h : Flows reqMax s owner lists) (hep : ep ≠ 0) {e : Entry}
    {rest : List Entry} (hp : pending s ep = e :: rest) :
    s.links.next (.queue ep) = .request e.req ∧
      s.links.next (.request e.req) = nextNode ep rest := by
  obtain ⟨r, l, hreq, hl, hrest, -⟩ := h.first hep hp
  obtain ⟨-, -, hnext, hring⟩ := h.kept.first hl
  rw [hreq]
  refine ⟨hnext, ?_⟩
  cases rest with
  | nil =>
    rw [List.map_nil, eq_comm, List.map_eq_nil_iff] at hrest
    rw [hrest] at hring
    exact hring.linked.2.1
  | cons e' rest =>
    cases l with
    | nil => exact absurd hrest (by simp)
    | cons r' l =>
      rw [List.map_cons, List.map_cons] at hrest
      rw [nextNode, (List.cons.inj hrest).1]
      exact hring.linked.2.next_cons

/-- The continuation that fits what is left of the queue. -/
def Continues (s : Udc) (ep : EpNum) (req : Option ℕ) (a : AfterDone) : List Entry → Prop
  | [] => a = .nothing ∨ a = .resetZero req
  | e :: _ => (s.ep ep).dirIn = true ∧ a = .inStart ep e.req ∨
      (s.ep ep).dirIn = false ∧ a = .outStart ep e.req

/-- The transfer at an endpoint has ended: nothing else changed but its request. -/
structure Ended (s v : Udc) (ep : EpNum) (req : Option ℕ) : Prop where
  links : v.links = s.links
  held : v.held = s.held
  after : v.after = s.after
  eps : v.ep = s.ep
  queued : v.queued = s.queued
  finished : v.finished = s.finished
  sent : v.sent = s.sent
  dma : v.dma = Function.update s.dma ep none
  req : ∀ q ≠ req, v.req q = s.req q

theorem ended_in (s : Udc) (ep : EpNum) (req : Option ℕ) : Ended s (s.transferEnds ep) ep req :=
  ⟨rfl, rfl, rfl, rfl, rfl, rfl, rfl, rfl, fun _ _ => rfl⟩

theorem ended_out (s : Udc) (ep : EpNum) (req : Option ℕ) (length : ℕ) :
    Ended s ((s.transferEnds ep).comipUdcRxDmaHandle req length) ep req :=
  ⟨rfl, rfl, rfl, rfl, rfl, rfl, rfl, rfl, fun _ hq => Function.update_of_ne hq ..⟩

/-- The head of a queue is done, with the continuation that starts the next one, if any. -/
theorem Flows.done (h : Flows reqMax s owner lists) (hep : ep ≠ 0) (hnone : s.after = [])
    {e : Entry} {rest : List Entry} (hp : pending s ep = e :: rest)
    (howes : owesZlp s ep e.req = false) {v : Udc} (hv : Ended s v ep e.req)
    {a : AfterDone} (ha : Continues s ep e.req a rest) :
    ∃ owner' lists', Flows reqMax (v.done ep e.req 0 a) owner' lists' := by
  obtain ⟨r, l, her, hl, hrest, hfresh⟩ := h.first hep hp
  have hstarting : starting s ep = false := by rw [starting, hnone]
  have hflow := h.flow ep hep
  rw [hstarting] at hflow
  have hkept := (h.kept.congr hv.links hv.held).done_first hl 0 a
  have hall : s.sent ep = doneTransfers s ep ++ transfers s ep e := by
    cases hflow.head e rest hp with
    | data _ sent owes =>
      rw [sent, transfers, ← owes, howes]
      rfl
    | zlp needs _ sent =>
      rw [sent, transfers, needs]
      rfl
  have hreq' : ∀ q ≠ e.req, (v.done ep e.req 0 a).req q = s.req q :=
    fun q hq => (Function.update_of_ne hq ..).trans (hv.req q hq)
  have hsame : ∀ q, ∀ e' : Entry, e'.req ≠ e.req →
      ((v.done ep e.req 0 a).req e'.req).length = (s.req e'.req).length ∧
        owesZlp (v.done ep e.req 0 a) q e'.req = owesZlp s q e'.req :=
    fun q e' hne => by
      apply same_of_req
      · exact hv.eps
      · exact hreq' _ hne
  have hfinished' : (v.done ep e.req 0 a).finished ep = s.finished ep ++ [e.req] := by
    show Function.update v.finished ep (v.finished ep ++ [e.req]) ep = _
    rw [Function.update_self, hv.finished]
  have hdma' : (v.done ep e.req 0 a).dma ep = none := by
    show v.dma ep = none
    rw [hv.dma, Function.update_self]
  have hafter' : (v.done ep e.req 0 a).after = [a] := by
    show a :: v.after = [a]
    rw [hv.after, hnone]
  obtain ⟨hflow', hpending⟩ := @Flow.finish s (v.done ep e.req 0 a) ep e rest hflow hp hall
    (congrFun hv.queued ep) hfinished' (congrFun hv.sent ep) hdma' hv.eps
    fun e' he => hsame ep e' (by rw [her]; exact hfresh e' he)
  rw [← her] at hkept
  have hdir : (Udc.ep (v.done ep e.req 0 a) ep).dirIn = (s.ep ep).dirIn :=
    congrArg Ep.dirIn (congrFun hv.eps ep)
  have hstart : starting (v.done ep e.req 0 a) ep = decide (rest ≠ []) ∧
      (∀ q ≠ ep, starting (v.done ep e.req 0 a) q = false) ∧
      AfterOk (v.done ep e.req 0 a) := by
    unfold starting AfterOk
    rw [hafter']
    cases rest with
    | nil => rcases ha with rfl | rfl <;> exact ⟨by simp, fun _ _ => rfl, trivial⟩
    | cons e' rest =>
      rcases ha with ⟨hin, rfl⟩ | ⟨hout, rfl⟩
      · exact ⟨by simp, fun q hq => by simp [Ne.symm hq], hep, hdir.trans hin, e', rest,
          hpending, rfl⟩
      · exact ⟨by simp, fun q hq => by simp [Ne.symm hq], hep, hdir.trans hout, e', rest,
          hpending, rfl⟩
  refine ⟨_, _, h.step_at ep hkept hstart.2.2 hv.eps ?_ ?_ ?_ fun _ => ⟨?_, ?_⟩⟩
  · exact fun q hq => Function.update_of_ne (fun heq => hq (Place.queue.inj heq)) ..
  · intro q hq
    refine ⟨congrFun hv.queued q, ?_, congrFun hv.sent q, ?_, ?_⟩
    · show Function.update v.finished ep _ q = _
      rw [Function.update_of_ne hq, hv.finished]
    · show v.dma q = _
      rw [hv.dma, Function.update_of_ne hq]
    · rw [hstart.2.1 q hq, starting, hnone]
  · intro q hq hq0 e' he
    apply hsame
    rw [her]
    apply h.ne_of_owner hq0 he
    rw [((h.kept.mem (.queue ep) r).mp (by rw [hl]; exact List.mem_cons_self)).2]
    exact fun heq => hq (Place.queue.inj (Option.some.inj heq)).symm
  · rw [hstart.1]
    exact hflow'
  · rw [hpending, Function.update_self, hrest]

/-- The only request of a queue still needs its packet of zero length. -/
theorem Flows.startZlp (h : Flows reqMax s owner lists) (hep : ep ≠ 0) (hnone : s.after = [])
    {e : Entry} (hp : pending s ep = [e]) (howes : owesZlp s ep e.req = true) {v : Udc}
    (hv : Ended s v ep e.req) (hreq : v.req = s.req) :
    let u := v.comipEpInStart ep e.req true
    ∃ owner' lists', Flows reqMax (u.store e.req { u.req e.req with zero := false }) owner'
      lists' := by
  intro u
  obtain ⟨r, l, her, hl, -, -⟩ := h.first hep hp
  have hstarting : starting s ep = false := by rw [starting, hnone]
  have hflow := h.flow ep hep
  rw [hstarting] at hflow
  have hu : u = v.start ep ⟨e.req, true⟩ := by
    show v.comipEpInStart ep e.req true = _
    rw [Udc.comipEpInStart, if_pos rfl]
  generalize ht : u.store e.req { u.req e.req with zero := false } = t
  have hnew : t.req e.req = { s.req e.req with zero := false } := by
    rw [← ht, hu]
    show Function.update v.req e.req { v.req e.req with zero := false } e.req = _
    rw [Function.update_self, hreq]
  have hother : ∀ q ≠ e.req, t.req q = s.req q := by
    intro q hq
    rw [← ht, hu]
    exact (Function.update_of_ne hq ..).trans (hv.req q hq)
  have hlinks : t.links = s.links := by rw [← ht, hu]; exact hv.links
  have hheld : t.held = s.held := by rw [← ht, hu]; exact hv.held
  have hafter : t.after = s.after := by rw [← ht, hu]; exact hv.after
  have htep : t.ep = s.ep := by rw [← ht, hu]; exact hv.eps
  have hqueued : t.queued = s.queued := by rw [← ht, hu]; exact hv.queued
  have hfinished : t.finished = s.finished := by rw [← ht, hu]; exact hv.finished
  have hsent : t.sent = Function.update s.sent ep (s.sent ep ++ [⟨e.req, true⟩]) := by
    rw [← ht, hu, ← hv.sent]
    rfl
  have hdma : t.dma = Function.update s.dma ep (some ⟨e.req, true⟩) := by
    rw [← ht, hu]
    show Function.update v.dma ep _ = _
    rw [hv.dma, Function.update_idem]
  clear ht
  have hdata : s.dma ep = some ⟨e.req, false⟩ := by
    cases hflow.head e [] hp with
    | data dma => exact dma
    | zlp _ _ _ owes => exact absurd (owes.symm.trans howes) Bool.false_ne_true
  have hflow' : Flow t ep false := by
    apply hflow.startZlp hp hdata howes (congrFun hqueued ep) (congrFun hfinished ep)
    · rw [hsent, Function.update_self]
    · rw [hdma, Function.update_self]
    · exact htep
    · rw [hnew]
    · rw [hnew]
  have hpending : ∀ q, pending t q = pending s q := by
    intro q
    rw [pending, pending, hqueued, hfinished]
  refine ⟨_, _, h.step_at ep (h.kept.congr hlinks hheld) ?_ htep (fun _ _ => rfl) ?_ ?_
    fun _ => ⟨?_, ?_⟩⟩
  · exact h.after.congr hafter htep fun q e rest hq => ⟨rest, (hpending q).trans hq⟩
  · intro q hq
    refine ⟨congrFun hqueued q, congrFun hfinished q, ?_, ?_, starting_congr hafter q⟩
    · rw [hsent, Function.update_of_ne hq]
    · rw [hdma, Function.update_of_ne hq]
  · intro q hq hq0 e' he
    apply same_of_req
    · exact htep
    · apply hother
      rw [her]
      apply h.ne_of_owner hq0 he
      rw [((h.kept.mem (.queue ep) r).mp (by rw [hl]; exact List.mem_cons_self)).2]
      exact fun heq => hq (Place.queue.inj (Option.some.inj heq)).symm
  · rw [starting_congr hafter, hstarting]
    exact hflow'
  · rw [hpending, h.listed ep hep]

/-- The interrupt at the end of a transfer. -/
theorem Flows.xfcompl (h : Flows reqMax s owner lists) (hep : ep ≠ 0) (hnone : s.after = [])
    (hbusy : s.dma ep ≠ none) (length : ℕ)
    (hlast : ∀ e rest, pending s ep = e :: rest → owesZlp s ep e.req = true → rest = []) :
    ∃ owner' lists', Flows reqMax ((s.transferEnds ep).comipHandleEp ep length) owner'
      lists' := by
  have hflow := h.flow ep hep
  obtain ⟨e, rest, hp⟩ : ∃ e rest, pending s ep = e :: rest :=
    List.exists_cons_of_ne_nil fun hnil => hbusy (hflow.idle hnil).1
  have hfull : ¬ s.links.isEmpty (.queue ep) = true := by
    rw [h.isEmpty_iff hep, hp]
    exact List.cons_ne_nil _ _
  obtain ⟨hnext, hnext'⟩ := h.next_first hep hp
  rw [Udc.comipHandleEp, Udc.transferEnds]
  dsimp only
  rw [if_neg hfull, hnext, show containerOf (.request e.req) = e.req from rfl, hnext']
  cases rest with
  | cons e' rest =>
    have howes : owesZlp s ep e.req = false := by
      by_contra hne
      exact absurd (hlast e _ hp (Bool.not_eq_false _ ▸ hne)) (List.cons_ne_nil _ _)
    rw [if_pos (show nextNode ep (e' :: rest) ≠ .queue ep from fun hq => Node.noConfusion hq)]
    split
    · rename_i hdir
      exact h.done hep hnone hp howes (ended_in s ep e.req) (.inl ⟨hdir, rfl⟩)
    · rename_i hdir
      exact h.done hep hnone hp howes (ended_out s ep e.req length)
        (.inr ⟨Bool.not_eq_true _ ▸ hdir, rfl⟩)
  | nil =>
    rw [if_neg (not_not_intro (show nextNode ep [] = .queue ep from rfl))]
    split
    · rename_i hdir
      split
      · rename_i hzero
        split
        · rename_i hmult
          have howes : owesZlp s ep e.req = true := by
            rw [owesZlp, needsZlp, hdir, decide_eq_true hmult, Bool.true_and, Bool.and_true]
            exact hzero
          exact h.startZlp hep hnone hp howes (ended_in s ep e.req) rfl
        · rename_i hmult
          refine h.done hep hnone hp ?_ (ended_in s ep e.req) (.inr rfl)
          rw [owesZlp, needsZlp, decide_eq_false hmult, Bool.and_false]
      · rename_i hzero
        refine h.done hep hnone hp ?_ (ended_in s ep e.req) (.inl rfl)
        have hzero' : (s.req e.req).zero = false := Bool.not_eq_true _ ▸ hzero
        rw [owesZlp, needsZlp, hzero', Bool.and_false, Bool.false_and]
    · rename_i hdir
      refine h.done hep hnone hp ?_ (ended_out s ep e.req length) (.inl rfl)
      have hdir' : (s.ep ep).dirIn = false := Bool.not_eq_true _ ▸ hdir
      rw [owesZlp, needsZlp, hdir', Bool.false_and, Bool.false_and]

/-- A pending request owes the packet that it needs, until it was started. -/
theorem Flow.owes_cases {b : Bool} (h : Flow s ep b) {e : Entry} (he : e ∈ pending s ep) :
    owesZlp s ep e.req = needsZlp s ep e ∨ owesZlp s ep e.req = false := by
  cases hp : pending s ep with
  | nil =>
    rw [hp] at he
    exact absurd he List.not_mem_nil
  | cons e' rest =>
    rw [hp, List.mem_cons] at he
    rcases he with rfl | he
    · cases h.head e rest hp with
      | waits _ _ owes => exact .inl owes
      | data _ _ owes => exact .inl owes
      | zlp _ _ _ owes => exact .inr owes
    · exact .inl (h.tail e (by rw [hp]; exact he))

/-- A step that leaves logs and controller alone. -/
theorem Flows.step_req (h : Flows reqMax s owner lists) (hlinks : s'.links = s.links)
    (hheld : s'.held = s.held) (hafter : AfterOk s') (hep : s'.ep = s.ep)
    (hqueued : s'.queued = s.queued) (hfinished : s'.finished = s.finished)
    (hsent : s'.sent = s.sent) (hdma : s'.dma = s.dma)
    (hstarting : ∀ q, starting s' q = starting s q)
    (hreq : ∀ q, q ≠ 0 → ∀ e ∈ pending s q, (s'.req e.req).length = (s.req e.req).length ∧
      owesZlp s' q e.req = owesZlp s q e.req) : Flows reqMax s' owner lists :=
  h.step_at 0 (h.kept.congr hlinks hheld) hafter hep (fun _ _ => rfl)
    (fun q _ => ⟨congrFun hqueued q, congrFun hfinished q, congrFun hsent q, congrFun hdma q,
      hstarting q⟩) (fun q _ => hreq q) fun h0 => absurd rfl h0

/-- The handler starts the head of a queue. -/
theorem Flows.start (h : Flows reqMax s owner lists) (hep : ep ≠ 0) {e : Entry}
    {rest : List Entry} (hp : pending s ep = e :: rest) (hstarting : starting s ep = true)
    (hlinks : s'.links = s.links) (hheld : s'.held = s.held) (hafter : s'.after = [])
    (hothers : ∀ q ≠ ep, starting s q = false) (hsep : s'.ep = s.ep)
    (hqueued : s'.queued = s.queued) (hfinished : s'.finished = s.finished)
    (hsent : s'.sent = Function.update s.sent ep (s.sent ep ++ [⟨e.req, false⟩]))
    (hdma : s'.dma = Function.update s.dma ep (some ⟨e.req, false⟩))
    (hreq : ∀ q, (s'.req q).length = (s.req q).length ∧ (s'.req q).zero = (s.req q).zero) :
    Flows reqMax s' owner lists := by
  have hsame : ∀ q, ∀ e' : Entry, (s'.req e'.req).length = (s.req e'.req).length ∧
      owesZlp s' q e'.req = owesZlp s q e'.req := by
    intro q e'
    rw [owesZlp, owesZlp, needsZlp_congr hsep, (hreq e'.req).1, (hreq e'.req).2]
    exact ⟨rfl, rfl⟩
  have hflow := h.flow ep hep
  rw [hstarting] at hflow
  have hflow' : Flow s' ep false := by
    apply hflow.start hp (congrFun hqueued ep) (congrFun hfinished ep)
    · rw [hsent, Function.update_self]
    · rw [hdma, Function.update_self]
    · exact hsep
    · exact fun e' _ => hsame ep e'
  have hnone : ∀ q, starting s' q = false := fun q => by rw [starting, hafter]
  refine h.step_at ep (h.kept.congr hlinks hheld) ?_ hsep (fun _ _ => rfl) ?_
    (fun q _ _ e' _ => hsame q e') fun _ => ⟨?_, ?_⟩
  · rw [AfterOk, hafter]
    trivial
  · intro q hq
    refine ⟨congrFun hqueued q, congrFun hfinished q, ?_, ?_, ?_⟩
    · rw [hsent, Function.update_of_ne hq]
    · rw [hdma, Function.update_of_ne hq]
    · rw [hnone, hothers q hq]
  · rw [hnone]
    exact hflow'
  · rw [pending, hqueued, hfinished]
    exact h.listed ep hep

/-- A callback returns. -/
theorem Flows.resume (h : Flows reqMax s owner lists) (hreset : KeepsFlow s .callbackReturns)
    (fuel : ℕ) : Flows reqMax ((driver fuel).step s .callbackReturns).2 owner lists := by
  have hafter := h.after
  unfold AfterOk at hafter
  split at hafter
  · rename_i hs
    rw [driver_callbackReturns_nil hs]
    exact h
  · rename_i hs
    rw [driver_callbackReturns_cons hs]
    exact h.step_req rfl rfl trivial rfl rfl rfl rfl rfl
      (fun q => by rw [starting, starting, hs]; rfl) fun _ _ _ _ => ⟨rfl, rfl⟩
  · rename_i req hs
    rw [driver_callbackReturns_cons hs]
    refine h.step_req rfl rfl trivial rfl rfl rfl rfl rfl
      (fun q => by rw [starting, starting, hs]; rfl) ?_
    intro q hq e he
    by_cases her : e.req = req
    · have hlength : ((Udc.resume { s with after := [] } (.resetZero req)).req e.req).length =
          (s.req e.req).length := by
        rw [her]
        show (Function.update s.req req _ req).length = _
        rw [Function.update_self]
      have hzero : ((Udc.resume { s with after := [] } (.resetZero req)).req e.req).zero =
          false := by
        rw [her]
        show (Function.update s.req req _ req).zero = _
        rw [Function.update_self]
      refine ⟨hlength, ?_⟩
      have hneeds := hreset req [] hs q e he her
      have howes : owesZlp s q e.req = false := by
        rcases (h.flow q hq).owes_cases he with howes | howes
        · rw [howes, hneeds]
        · exact howes
      rw [howes, owesZlp, needsZlp, hzero, Bool.and_false, Bool.false_and]
    · apply same_of_req
      · rfl
      · exact Function.update_of_ne her ..
  · rename_i ep req hs
    obtain ⟨hep, -, e, rest, hp, rfl⟩ := hafter
    rw [driver_callbackReturns_cons hs]
    show Flows reqMax (Udc.comipEpInStart { s with after := [] } ep e.req false) owner lists
    rw [Udc.comipEpInStart, if_neg Bool.false_ne_true]
    refine h.start hep hp (by simp [starting, hs]) rfl rfl rfl
      (fun q hq => by simp [starting, hs, Ne.symm hq]) rfl rfl rfl rfl rfl ?_
    intro q
    by_cases hq : q = e.req
    · subst hq
      show (Function.update s.req e.req _ e.req).length = _ ∧
        (Function.update s.req e.req _ e.req).zero = _
      rw [Function.update_self]
      exact ⟨rfl, rfl⟩
    · show (Function.update s.req e.req _ q).length = _ ∧
        (Function.update s.req e.req _ q).zero = _
      rw [Function.update_of_ne hq]
      exact ⟨rfl, rfl⟩
  · rename_i ep req hs
    obtain ⟨hep, hout, e, rest, hp, rfl⟩ := hafter
    rw [driver_callbackReturns_cons hs]
    show Flows reqMax (Udc.comipEpOutStart { s with after := [] } ep e.req) owner lists
    obtain ⟨hlength, hne⟩ := (h.flow ep hep).data e (by rw [hp]; exact List.mem_cons_self)
    have hne' : (s.req e.req).length ≠ 0 := hlength ▸ hne hout
    rw [Udc.comipEpOutStart, if_neg hne']
    exact h.start hep hp (by simp [starting, hs]) rfl rfl rfl
      (fun q hq => by simp [starting, hs, Ne.symm hq]) rfl rfl rfl rfl rfl fun _ => ⟨rfl, rfl⟩
  · exact hafter.elim

theorem Flows.step (h : Flows reqMax s owner lists) {a : Action} (hlegal : FlowLegal reqMax s a)
    (hkeeps : KeepsFlow s a) (fuel : ℕ) :
    ∃ owner' lists', Flows reqMax ((driver fuel).step s a).2 owner' lists' := by
  cases a with
  | alloc => exact h.alloc hlegal fuel
  | free ep req => exact hlegal.elim
  | queue ep req length zero =>
    obtain ⟨hep, hheld⟩ := hlegal
    obtain ⟨i, hi, rfl, howner⟩ := Legal.holder h.kept hheld
    have htakes : s.takes ep = true := by simp [Udc.takes, hep]
    show ∃ owner' lists', Flows reqMax (if s.takes ep then _ else _) owner' lists'
    rw [if_pos htakes]
    exact h.queue hep hi howner length zero hkeeps
  | xfcompl ep length =>
    obtain ⟨hep, hnone, hbusy⟩ := hlegal
    exact h.xfcompl hep hnone hbusy length hkeeps
  | xfcompl0 => exact hlegal.elim
  | ep0Setup st => exact hlegal.elim
  | callbackReturns => exact ⟨_, _, h.resume hkeeps fuel⟩

/-- Setting up the requests touches no queue. -/
theorem init_idle (reqMax : ℕ) (s : Udc) : let s' := Udc.comipUdcInit reqMax s
    (∀ ep, (s'.ep ep).stopped = false) ∧ s'.queued = (fun _ => []) ∧
      s'.finished = (fun _ => []) ∧ s'.sent = (fun _ => []) ∧ s'.dma = (fun _ => none) ∧
      s'.after = [] := by
  have hput : ∀ k (s : Udc), let s' := (List.range k).foldl Udc.putReq s
      s'.ep = s.ep ∧ s'.queued = s.queued ∧ s'.finished = s.finished ∧ s'.sent = s.sent ∧
        s'.dma = s.dma ∧ s'.after = s.after := by
    intro k s
    induction k with
    | zero => exact ⟨rfl, rfl, rfl, rfl, rfl, rfl⟩
    | succ k ih =>
      rw [List.range_succ, List.foldl_append]
      exact ih
  rw [Udc.comipUdcInit, Udc.comipUdcReqsInit]
  generalize hs₁ : Udc.comipUdcEpsInit _ = s₁
  obtain ⟨hep, hqueued, hfinished, hsent, hdma, hafter⟩ :=
    hput reqMax { s₁ with links := s₁.links.init .reqFreeList }
  dsimp only at hep hqueued hfinished hsent hdma hafter ⊢
  generalize (List.range reqMax).foldl Udc.putReq _ = s₂ at *
  obtain ⟨links, heq⟩ := Udc.comipEpAllocRequest_eq { s₂ with ep0State := .idle }
  have hafter' : (Udc.comipEpAllocRequest { s₂ with ep0State := .idle }).2.ep = s₂.ep ∧
      (Udc.comipEpAllocRequest { s₂ with ep0State := .idle }).2.queued = s₂.queued ∧
      (Udc.comipEpAllocRequest { s₂ with ep0State := .idle }).2.finished = s₂.finished ∧
      (Udc.comipEpAllocRequest { s₂ with ep0State := .idle }).2.sent = s₂.sent ∧
      (Udc.comipEpAllocRequest { s₂ with ep0State := .idle }).2.dma = s₂.dma ∧
      (Udc.comipEpAllocRequest { s₂ with ep0State := .idle }).2.after = s₂.after := by
    rw [heq]
    exact ⟨rfl, rfl, rfl, rfl, rfl, rfl⟩
  clear heq
  generalize Udc.comipEpAllocRequest { s₂ with ep0State := .idle } = w at hafter' ⊢
  obtain ⟨hep', hqueued', hfinished', hsent', hdma', hafter'⟩ := hafter'
  refine ⟨fun ep => ?_, ?_, ?_, ?_, ?_, ?_⟩
  · show (w.2.ep ep).stopped = false
    rw [hep', hep, ← hs₁]
    rfl
  · exact hqueued'.trans (hqueued.trans (hs₁ ▸ rfl))
  · exact hfinished'.trans (hfinished.trans (hs₁ ▸ rfl))
  · exact hsent'.trans (hsent.trans (hs₁ ▸ rfl))
  · exact hdma'.trans (hdma.trans (hs₁ ▸ rfl))
  · exact hafter'.trans (hafter.trans (hs₁ ▸ rfl))

theorem flows_init (hmax : 0 < reqMax) (s : Udc) :
    ∃ owner lists, Flows reqMax (Udc.comipUdcInit reqMax s) owner lists := by
  obtain ⟨owner, lists, hkept, hlists⟩ := kept_init hmax s
  obtain ⟨hrunning, hqueued, hfinished, hsent, hdma, hafter⟩ := init_idle reqMax s
  generalize Udc.comipUdcInit reqMax s = s' at *
  have hpending : ∀ ep, pending s' ep = [] := by
    intro ep
    rw [pending, hqueued]
    exact List.drop_nil
  have hstarting : ∀ ep, starting s' ep = false := fun ep => by rw [starting, hafter]
  refine ⟨owner, lists, hkept, fun ep _ => ?_, hrunning, fun ep _ => ⟨?_, ?_, ?_, ?_, ?_⟩, ?_⟩
  · rw [hpending, hlists]
    rfl
  · rw [hfinished, hqueued]
    rfl
  · intro e he
    rw [hpending] at he
    exact absurd he List.not_mem_nil
  · intro e he
    rw [hpending] at he
    exact absurd he List.not_mem_nil
  · intro _
    rw [hdma, hsent, doneTransfers, hqueued, hfinished, hstarting]
    exact ⟨rfl, rfl, rfl⟩
  · intro e rest hp
    rw [hpending] at hp
    exact absurd hp.symm (List.cons_ne_nil _ _)
  · rw [AfterOk, hafter]
    trivial

/-- What the invariant says between two calls. -/
theorem Flows.queueOk (h : Flows reqMax s owner lists) (hnone : s.after = []) (hep : ep ≠ 0) :
    QueueOk s ep := by
  have hflow := h.flow ep hep
  rw [show starting s ep = false by rw [starting, hnone]] at hflow
  refine ⟨hflow.order, ?_, fun hnil => ⟨(hflow.idle hnil).1, (hflow.idle hnil).2.1⟩, ?_⟩
  · have hring := h.kept.ring (.queue ep)
    have hnodes : (lists (.queue ep)).map node =
        ((pending s ep).map Entry.req).map Node.request := by
      rw [h.listed ep hep, List.map_map]
      rfl
    rw [hnodes, List.map_map] at hring
    exact hring
  · intro e rest hp
    cases hflow.head e rest hp with
    | data dma sent => exact .inl ⟨dma, sent⟩
    | zlp needs dma sent => exact .inr ⟨needs, dma, sent⟩

/-- In every run that takes none of the three ways in which a queue goes wrong, every queue
but that of endpoint 0 is right whenever no handler is at work. -/
theorem queueOk_of_run (reqMax fuel : ℕ) (hmax : 0 < reqMax) (s : Udc) (as : List Action)
    (hrun : (driver fuel).Guarded (fun s a => FlowLegal reqMax s a ∧ KeepsFlow s a)
      (Udc.comipUdcInit reqMax s) as) :
    let s' := (driver fuel).run (Udc.comipUdcInit reqMax s) as
    s'.after = [] → ∀ ep ≠ 0, QueueOk s' ep := by
  obtain ⟨owner, lists, h⟩ := @Machine.run_invariant _ _ _ (driver fuel) _
    (fun s => ∃ owner lists, Flows reqMax s owner lists)
    (fun _ _ ⟨_, _, h⟩ hok => h.step hok.1 hok.2 fuel) _ (flows_init hmax s) _ hrun
  exact fun hnone ep hep => h.queueOk hnone hep

/-- A page is sent with the flag, and then a packet of zero length. -/
def sendPage : List Action := [.alloc, .queue 1 (some 1) 512 true, .xfcompl 1 0]

theorem sendPage_queueOk :
    (driver 0).Guarded (fun s a => FlowLegal 3 s a ∧ KeepsFlow s a)
      (Udc.comipUdcInit 3 clearedUdc) sendPage ∧
    ∀ ep ≠ 0, QueueOk ((driver 0).run (Udc.comipUdcInit 3 clearedUdc) sendPage) ep := by
  have hrun : (driver 0).Guarded (fun s a => FlowLegal 3 s a ∧ KeepsFlow s a)
      (Udc.comipUdcInit 3 clearedUdc) sendPage := by
    refine ⟨⟨?_, trivial⟩, ⟨⟨by decide, 1, by decide, rfl, ?_⟩, ?_⟩, ⟨⟨by decide, rfl, ?_⟩, ?_⟩,
      trivial⟩
    · show Links.isEmpty _ _ = false
      decide +kernel
    · decide +kernel
    · exact fun _ => by decide
    · decide +kernel
    · intro e rest hp _
      have hone : pending ((driver 0).run (Udc.comipUdcInit 3 clearedUdc)
          [.alloc, .queue 1 (some 1) 512 true]) 1 = [⟨some 1, 512, true⟩] := by decide +kernel
      exact (List.cons.inj (hp.symm.trans hone)).2
  exact ⟨hrun, queueOk_of_run 3 0 (by decide) clearedUdc sendPage hrun rfl⟩

/-- An OUT request of length 0 waits at endpoint 8 with no transfer under way; and of two IN
requests with the flag, the first gets no packet of zero length when the second is queued
behind it. -/
theorem empty_request_is_stuck :
    let s := (driver 0).run (Udc.comipUdcInit 3 clearedUdc) [.alloc, .queue 8 (some 1) 0 false]
    let s' := (driver 0).run (Udc.comipUdcInit 3 clearedUdc) [.alloc, .alloc,
      .queue 1 (some 1) 512 true, .queue 1 (some 2) 512 true, .xfcompl 1 0, .callbackReturns]
    pending s 8 = [⟨some 1, 0, false⟩] ∧ s.dma 8 = none ∧ ¬ QueueOk s 8 ∧
    s'.sent 1 = [⟨some 1, false⟩, ⟨some 2, false⟩] ∧ needsZlp s' 1 ⟨some 1, 512, true⟩ = true ∧
    ¬ QueueOk s' 1 := by
  intro s s'
  have hpending : pending s 8 = [⟨some 1, 0, false⟩] := by decide +kernel
  have hdma : s.dma 8 = none := by decide +kernel
  have hpending' : pending s' 1 = [⟨some 2, 512, true⟩] := by decide +kernel
  have hsent : s'.sent 1 = [⟨some 1, false⟩, ⟨some 2, false⟩] := by decide +kernel
  have hdone : doneTransfers s' 1 = [⟨some 1, false⟩, ⟨some 1, true⟩] := by decide +kernel
  refine ⟨hpending, hdma, fun h => ?_, hsent, by decide +kernel, fun h => ?_⟩
  · rcases h.busy _ _ hpending with ⟨hbusy, -⟩ | ⟨-, hbusy, -⟩ <;> rw [hdma] at hbusy <;>
      exact absurd hbusy nofun
  · rcases h.busy _ _ hpending' with ⟨-, hall⟩ | ⟨-, -, hall⟩ <;> rw [hsent, hdone] at hall <;>
      exact absurd hall (by decide)

end System
end UBoot.Usb
