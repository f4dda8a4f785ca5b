import UBoot.Usb.Udc

/-!
# Who owns a request

Every request of the pool should be on the free list, in the queue of one endpoint or in a
caller's hands. Queueing, completing and allocating from a list that is not empty keep it
so. `comip_ep_free_request` never does what its caller asks for: with nothing queued at the
endpoint it does nothing, and otherwise its loop follows the first queued request to the
free list, whose head it does not know as an end. An allocation from an empty free list
stores a cleared request at address 0.
-/
namespace UBoot.Usb
open Rings

inductive Place where
  | reqFreeList
  | queue (ep : EpNum)
  deriving DecidableEq

def Place.head : Place → Node
  | .reqFreeList => .reqFreeList
  | .queue ep => .queue ep

/-- The links of a request of the pool. -/
def node (i : ℕ) : Node := .request (some i)

/-- Every request is where its owner says, and nowhere else: in one list, or (`none`) in a
caller's hands. -/
structure PoolOk (reqMax : ℕ) (s : Udc) (owner : ℕ → Option Place) : Prop where
  listed : ∀ p : Place, ∃ l : List ℕ, s.links.Ring p.head (l.map node) ∧
    ∀ i, i ∈ l ↔ i < reqMax ∧ owner i = some p
  held : ∀ i < reqMax, (s.held (some i) = true ↔ owner i = none)

/-- A caller frees and queues only what it holds. -/
def Legal (reqMax : ℕ) (s : Udc) : Action → Prop
  | .free _ req => ∃ i < reqMax, req = some i ∧ s.held req = true
  | .queue _ req _ _ => ∃ i < reqMax, req = some i ∧ s.held req = true
  | _ => True

/-- The head of a queue goes back to its caller, or nothing does. -/
def HandsBack (reqMax : ℕ) (s' : Udc) (owner : ℕ → Option Place) (ep : EpNum) : Prop :=
  PoolOk reqMax s' owner ∨ ∃ i < reqMax, owner i = some (.queue ep) ∧
    PoolOk reqMax s' (Function.update owner i none)

/-- What a step should do to the owners. An allocation returns a free request, or `NULL` if
there is none, with nothing written; a call of `comip_ep_free_request` ends, with that request
on the free list. -/
def StepRight (reqMax : ℕ) (s : Udc) (owner : ℕ → Option Place) (a : Action) : Prop :=
  let s' := ((driver 0).step s a).2
  match a with
  | .alloc =>
    (∃ i < reqMax, s.comipEpAllocRequest.1 = some i ∧ owner i = some .reqFreeList ∧
      PoolOk reqMax s' (Function.update owner i none)) ∨
    (s.comipEpAllocRequest.1 = none ∧ (∀ i < reqMax, owner i ≠ some .reqFreeList) ∧
      s.comipEpAllocRequest.2 = s)
  | .free ep req => ∃ i fuel s', req = some i ∧ s.comipEpFreeRequest fuel ep req = some s' ∧
      PoolOk reqMax (s'.hold req false) (Function.update owner i (some .reqFreeList))
  | .queue ep req _ _ => ∃ i, req = some i ∧
      PoolOk reqMax s' (if s.takes ep then Function.update owner i (some (.queue ep)) else owner)
  | .xfcompl ep _ => HandsBack reqMax s' owner ep
  | .xfcompl0 => HandsBack reqMax s' owner 0
  | .ep0Setup _ => PoolOk reqMax s' owner
  | .callbackReturns => PoolOk reqMax s' owner

/-- The step frees nothing and allocates only while a request is free. -/
def KeepsPool (s : Udc) : Action → Prop
  | .alloc => s.links.isEmpty .reqFreeList = false
  | .free _ _ => False
  | _ => True

/-- The owners, with the lists and what the driver leaves in the requests that callers hold. -/
structure Kept (reqMax : ℕ) (s : Udc) (owner : ℕ → Option Place) (lists : Place → List ℕ) :
    Prop where
  ring : ∀ p : Place, s.links.Ring p.head ((lists p).map node)
  mem : ∀ p i, i ∈ lists p ↔ i < reqMax ∧ owner i = some p
  held : ∀ i < reqMax, (s.held (some i) = true ↔ owner i = none)
  alone : ∀ i < reqMax, owner i = none → s.links.Ring (node i) []

theorem node_injective : Function.Injective node := fun _ _ h => by
  rw [node, node, Node.request.injEq, Option.some.injEq] at h
  exact h

theorem node_ne_head (i : ℕ) (p : Place) : node i ≠ p.head := by cases p <;> exact nofun

theorem head_injective : Function.Injective Place.head := by
  intro p q h
  cases p <;> cases q <;> simp_all [Place.head]

@[simp] theorem containerOf_node (i : ℕ) : containerOf (node i) = some i := rfl

section Owners
variable {reqMax : ℕ} {s s' : Udc} {owner : ℕ → Option Place} {lists : Place → List ℕ}

theorem Kept.poolOk (h : Kept reqMax s owner lists) : PoolOk reqMax s owner :=
  ⟨fun p => ⟨lists p, h.ring p, h.mem p⟩, h.held⟩

theorem Kept.nodup (h : Kept reqMax s owner lists) (p : Place) : (lists p).Nodup :=
  List.Nodup.of_map node (List.nodup_cons.mp (h.ring p).nodup).2

/-- The links of another place are not among those of a list. -/
theorem Kept.apart (h : Kept reqMax s owner lists) {p q : Place} (hne : q ≠ p) :
    ∀ y ∈ q.head :: (lists q).map node, y ∉ p.head :: (lists p).map node := by
  intro y hy hmem
  rcases List.mem_cons.mp hy with rfl | hy
  · rcases List.mem_cons.mp hmem with heq | hmem
    · exact hne (head_injective heq)
    · obtain ⟨i, -, heq⟩ := List.mem_map.mp hmem
      exact node_ne_head i q heq
  · obtain ⟨i, hi, rfl⟩ := List.mem_map.mp hy
    rcases List.mem_cons.mp hmem with heq | hmem
    · exact node_ne_head i p heq
    · rw [List.mem_map_of_injective node_injective] at hmem
      have hq := ((h.mem q i).mp hi).2
      have hp := ((h.mem p i).mp hmem).2
      rw [hq, Option.some.injEq] at hp
      exact hne hp

theorem Kept.node_notMem (h : Kept reqMax s owner lists) {p : Place} {i : ℕ}
    (hi : owner i ≠ some p) : node i ∉ p.head :: (lists p).map node := by
  intro hmem
  rcases List.mem_cons.mp hmem with heq | hmem
  · exact node_ne_head i p heq
  · rw [List.mem_map_of_injective node_injective] at hmem
    exact hi ((h.mem p i).mp hmem).2

/-- A step that changes nothing but the links of one list and those of request `r`, which
comes from there or from a caller and goes there or to a caller. -/
theorem Kept.move (h : Kept reqMax s owner lists) {p : Place} {r : ℕ} {o : Option Place}
    {l : List ℕ} (hfrom : owner r = some p ∨ owner r = none) (hto : o = some p ∨ o = none)
    (hother : ∀ y, y ∉ p.head :: (lists p).map node → y ≠ node r →
      s'.links.next y = s.links.next y ∧ s'.links.prev y = s.links.prev y)
    (hring : s'.links.Ring p.head (l.map node))
    (hmem : ∀ i, i ∈ l ↔ i < reqMax ∧ Function.update owner r o i = some p)
    (halone : o = none → s'.links.Ring (node r) [])
    (hheld : s'.held = Function.update s.held (some r) (decide (o = none))) :
    Kept reqMax s' (Function.update owner r o) (Function.update lists p l) := by
  have hfrom' : ∀ q, q ≠ p → owner r ≠ some q := by
    intro q hq heq
    rcases hfrom with hr | hr <;> rw [hr] at heq
    · exact hq (Option.some.inj heq).symm
    · exact absurd heq nofun
  have hto' : ∀ q, q ≠ p → o ≠ some q := by
    intro q hq heq
    rcases hto with ho | ho <;> rw [ho] at heq
    · exact hq (Option.some.inj heq).symm
    · exact absurd heq nofun
  constructor
  · intro q
    by_cases hq : q = p
    · subst hq
      rw [Function.update_self]
      exact hring
    · rw [Function.update_of_ne hq]
      apply (h.ring q).congr
      intro y hy
      refine hother y (h.apart hq y hy) ?_
      rintro rfl
      exact h.node_notMem (hfrom' q hq) hy
  · intro q i
    by_cases hq : q = p
    · subst hq
      rw [Function.update_self]
      exact hmem i
    · rw [Function.update_of_ne hq, h.mem]
      by_cases hi : i = r
      · subst hi
        rw [Function.update_self]
        exact ⟨fun hh => absurd hh.2 (hfrom' q hq), fun hh => absurd hh.2 (hto' q hq)⟩
      · rw [Function.update_of_ne hi]
  · intro i hi
    rw [hheld]
    by_cases hir : i = r
    · subst hir
      rw [Function.update_self, Function.update_self, decide_eq_true_iff]
    · rw [Function.update_of_ne hir, Function.update_of_ne (fun heq => hir (Option.some.inj heq))]
      exact h.held i hi
  · intro i hi hnone
    by_cases hir : i = r
    · subst hir
      rw [Function.update_self] at hnone
      exact halone hnone
    · rw [Function.update_of_ne hir] at hnone
      apply (h.alone i hi hnone).congr
      intro y hy
      rw [List.mem_singleton] at hy
      subst hy
      apply hother
      · exact h.node_notMem (by rw [hnone]; exact nofun)
      · exact fun heq => hir (node_injective heq)

theorem Kept.congr (h : Kept reqMax s owner lists) (hlinks : s'.links = s.links)
    (hheld : s'.held = s.held) : Kept reqMax s' owner lists := by
  constructor
  · rw [hlinks]
    exact h.ring
  · exact h.mem
  · rw [hheld]
    exact h.held
  · rw [hlinks]
    exact h.alone

/-- The first request of a list is taken away. -/
theorem Kept.mem_pop (h : Kept reqMax s owner lists) {p : Place} {r : ℕ} {l : List ℕ}
    (hl : lists p = r :: l) (i : ℕ) :
    i ∈ l ↔ i < reqMax ∧ Function.update owner r none i = some p := by
  have hnodup := h.nodup p
  rw [hl] at hnodup
  have hmem := h.mem p i
  rw [hl, List.mem_cons] at hmem
  by_cases hi : i = r
  · subst hi
    rw [Function.update_self]
    exact iff_of_false (List.nodup_cons.mp hnodup).1 fun hh => absurd hh.2 nofun
  · rw [Function.update_of_ne hi, ← hmem]
    exact ⟨.inr, fun hh => hh.resolve_left hi⟩

theorem Kept.mem_push (h : Kept reqMax s owner lists) {p : Place} {r : ℕ} (hr : r < reqMax)
    (i : ℕ) : i ∈ lists p ++ [r] ↔ i < reqMax ∧ Function.update owner r (some p) i = some p := by
  rw [List.mem_append, List.mem_singleton]
  by_cases hi : i = r
  · subst hi
    rw [Function.update_self]
    exact iff_of_true (.inr rfl) ⟨hr, rfl⟩
  · rw [Function.update_of_ne hi, ← h.mem]
    exact ⟨fun hh => hh.resolve_right hi, .inl⟩

/-- The head of a list that is not empty. -/
theorem Kept.first (h : Kept reqMax s owner lists) {p : Place} {r : ℕ} {l : List ℕ}
    (hl : lists p = r :: l) :
    r < reqMax ∧ owner r = some p ∧ s.links.next p.head = node r ∧
      s.links.Ring p.head (node r :: l.map node) := by
  have hring := h.ring p
  rw [hl, List.map_cons] at hring
  have hmem : r < reqMax ∧ owner r = some p := (h.mem p r).mp (by rw [hl]; exact List.mem_cons_self)
  exact ⟨hmem.1, hmem.2, hring.next_cons, hring⟩

theorem Kept.isEmpty_iff (h : Kept reqMax s owner lists) (p : Place) :
    s.links.isEmpty p.head = true ↔ lists p = [] := by
  rw [(h.ring p).isEmpty_iff, List.map_eq_nil_iff]

/-- A store into a request and a start of a transfer leave links and holders alone. -/
@[simp] theorem Udc.store_links (s : Udc) (req : Option ℕ) (v : Request) :
    (s.store req v).links = s.links := rfl

@[simp] theorem Udc.store_held (s : Udc) (req : Option ℕ) (v : Request) :
    (s.store req v).held = s.held := rfl

@[simp] theorem Udc.inStart_links (s : Udc) (ep : EpNum) (req : Option ℕ) (zero : Bool) :
    (s.comipEpInStart ep req zero).links = s.links := by
  rw [Udc.comipEpInStart]
  split <;> rfl

@[simp] theorem Udc.inStart_held (s : Udc) (ep : EpNum) (req : Option ℕ) (zero : Bool) :
    (s.comipEpInStart ep req zero).held = s.held := by
  rw [Udc.comipEpInStart]
  split <;> rfl

@[simp] theorem Udc.outStart_links (s : Udc) (ep : EpNum) (req : Option ℕ) :
    (s.comipEpOutStart ep req).links = s.links := by
  rw [Udc.comipEpOutStart]
  split <;> rfl

@[simp] theorem Udc.outStart_held (s : Udc) (ep : EpNum) (req : Option ℕ) :
    (s.comipEpOutStart ep req).held = s.held := by
  rw [Udc.comipEpOutStart]
  split <;> rfl

/-- `comip_ep_alloc_request` takes the first free request. -/
theorem Kept.alloc (h : Kept reqMax s owner lists)
    (hfree : s.links.isEmpty .reqFreeList = false) :
    ∃ r l, r < reqMax ∧ s.comipEpAllocRequest.1 = some r ∧ owner r = some .reqFreeList ∧
      Kept reqMax (s.comipEpAllocRequest.2.hold (some r) true) (Function.update owner r none)
        (Function.update lists .reqFreeList l) := by
  obtain ⟨r, l, hl⟩ : ∃ r l, lists .reqFreeList = r :: l := by
    apply List.exists_cons_of_ne_nil
    intro hnil
    rw [show s.links.isEmpty .reqFreeList = true from
      (h.isEmpty_iff .reqFreeList).mpr hnil] at hfree
    exact absurd hfree nofun
  obtain ⟨hr, howner, hnext, hring⟩ := h.first hl
  have hnext' : s.links.next .reqFreeList = node r := hnext
  have hreq : s.comipEpAllocRequest.1 = some r := by
    simp [Udc.comipEpAllocRequest, hfree, hnext']
  have hlinks : s.comipEpAllocRequest.2.links = (s.links.del .zero (node r)).init (node r) := by
    simp [Udc.comipEpAllocRequest, hfree, hnext']
    rfl
  have hheld : s.comipEpAllocRequest.2.held = s.held := by
    simp [Udc.comipEpAllocRequest, hfree]
  refine ⟨r, l, hr, hreq, howner, h.move (.inl howner) (.inr rfl) ?_ ?_ (h.mem_pop hl) ?_ ?_⟩
  · intro y hy hne
    rw [hl] at hy
    show s.comipEpAllocRequest.2.links.next y = _ ∧ s.comipEpAllocRequest.2.links.prev y = _
    rw [hlinks, (init_other hne).1, (init_other hne).2]
    exact del_other hring hy
  · show s.comipEpAllocRequest.2.links.Ring _ _
    rw [hlinks]
    exact hring.del_first.init_of_notMem hring.first_notMem
  · intro _
    show s.comipEpAllocRequest.2.links.Ring _ _
    rw [hlinks]
    exact ring_init
  · show Function.update s.comipEpAllocRequest.2.held _ _ = _
    rw [hheld]
    rfl

/-- The end of `comip_ep_queue`, for a request that a caller holds. -/
theorem Kept.addQueue (h : Kept reqMax s owner lists) {r : ℕ} (hr : r < reqMax)
    (howner : owner r = none) (ep : EpNum) {e : Entry} (he : e.req = some r) :
    Kept reqMax ((s.addQueue ep (some r)).give ep e) (Function.update owner r (some (.queue ep)))
      (Function.update lists (.queue ep) (lists (.queue ep) ++ [r])) := by
  have hnew : node r ∉ (Place.queue ep).head :: (lists (.queue ep)).map node :=
    h.node_notMem (by rw [howner]; exact nofun)
  have hring := h.ring (.queue ep)
  have hheld : ((s.addQueue ep (some r)).give ep e).held =
      Function.update s.held (some r) false := by
    rw [← he]
    rfl
  refine h.move (.inr howner) (.inl rfl) ?_ ?_ (h.mem_push hr) nofun hheld
  · intro y hy hne
    apply addTail_other hne
    · exact fun heq => hy (heq ▸ List.mem_cons_self)
    · exact fun heq => hy (heq ▸ hring.prev_mem)
  · rw [List.map_append]
    exact hring.addTail hnew

/-- `done` on the head of a queue. -/
theorem Kept.done_first (h : Kept reqMax s owner lists) {ep : EpNum} {r : ℕ} {l : List ℕ}
    (hl : lists (.queue ep) = r :: l) (status : ℤ) (after : AfterDone) :
    Kept reqMax (s.done ep (some r) status after) (Function.update owner r none)
      (Function.update lists (.queue ep) l) := by
  obtain ⟨hr, howner, -, hring⟩ := h.first hl
  refine h.move (.inl howner) (.inr rfl) ?_ hring.delInit_first (h.mem_pop hl) ?_ rfl
  · intro y hy _
    rw [hl] at hy
    exact delInit_other hring hy
  · intro _
    exact ring_init

/-- `done` on a request that is in no queue. -/
theorem Kept.done_held (h : Kept reqMax s owner lists) {r : ℕ} (hr : r < reqMax)
    (howner : owner r = none) (ep : EpNum) (status : ℤ) (after : AfterDone) :
    Kept reqMax (s.done ep (some r) status after) owner lists := by
  have hlinks : (s.done ep (some r) status after).links = s.links :=
    (h.alone r hr howner).delInit_self
  have hheld : (s.done ep (some r) status after).held = Function.update s.held (some r) true := rfl
  constructor
  · rw [hlinks]
    exact h.ring
  · exact h.mem
  · intro i hi
    rw [hheld]
    by_cases hir : i = r
    · subst hir
      rw [Function.update_self]
      exact iff_of_true rfl howner
    · rw [Function.update_of_ne (fun heq => hir (Option.some.inj heq))]
      exact h.held i hi
  · rw [hlinks]
    exact h.alone

/-- What `comip_ep_queue` does with the lists. -/
theorem Udc.comipEpQueue_cases (s : Udc) (ep : EpNum) (req : Option ℕ) :
    (s.takes ep = true ∧ ∃ s' : Udc, s'.links = s.links ∧ s'.held = s.held ∧
      s.comipEpQueue ep req = s'.addQueue ep req) ∨
    (s.takes ep = false ∧ ∃ s' : Udc, s'.links = s.links ∧ s'.held = s.held ∧
      (s.comipEpQueue ep req = s' ∨ s.comipEpQueue ep req = s'.done ep req 0 .nothing)) := by
  rw [Udc.comipEpQueue, Udc.takes]
  generalize hs₁ : s.store req { s.req req with status := -115, actual := 0 } = s₁
  obtain ⟨hlinks, hheld, hep, hstate⟩ : s₁.links = s.links ∧ s₁.held = s.held ∧ s₁.ep = s.ep ∧
      s₁.ep0State = s.ep0State := by
    subst hs₁
    exact ⟨rfl, rfl, rfl, rfl⟩
  rw [← hlinks, ← hheld, ← hep, ← hstate]
  clear hs₁ hlinks hheld hep hstate
  dsimp only
  by_cases hstart : (s₁.links.isEmpty (.queue ep) && !(s₁.ep ep).stopped) = true
  · rw [if_pos hstart, hstart]
    by_cases hep : ep = 0
    · rw [if_pos hep]
      cases hst : s₁.ep0State with
      | noAction => exact .inr ⟨by simp [hep], { s₁ with ep0State := .idle }, rfl, rfl, .inl rfl⟩
      | inFake => exact .inr ⟨by simp [hep], { s₁ with ep0State := .idle }, rfl, rfl, .inr rfl⟩
      | inDataPhase => exact .inl ⟨by simp, _, Udc.inStart_links .., Udc.inStart_held .., rfl⟩
      | idle | outDataPhase | stall =>
        refine .inl ⟨by simp, _, ?_, ?_, rfl⟩
        · exact Udc.outStart_links ..
        · exact Udc.outStart_held ..
    · rw [if_neg hep]
      refine .inl ⟨by simp [hep], ?_⟩
      split
      · exact ⟨_, Udc.inStart_links .., Udc.inStart_held .., rfl⟩
      · exact ⟨_, Udc.outStart_links .., Udc.outStart_held .., rfl⟩
  · rw [if_neg hstart]
    exact .inl ⟨by simp [hstart], _, rfl, rfl, rfl⟩

theorem Kept.comipEpQueue (h : Kept reqMax s owner lists) {r : ℕ} (hr : r < reqMax)
    (howner : owner r = none) (ep : EpNum) {e : Entry} (he : e.req = some r) :
    ∃ lists', Kept reqMax
      (if s.takes ep then (s.comipEpQueue ep (some r)).give ep e else s.comipEpQueue ep (some r))
      (if s.takes ep then Function.update owner r (some (.queue ep)) else owner) lists' := by
  obtain ⟨htakes, s', hlinks, hheld, heq⟩ | ⟨htakes, s', hlinks, hheld, heq | heq⟩ :=
    s.comipEpQueue_cases ep (some r) <;> rw [htakes, heq]
  · exact ⟨_, (h.congr hlinks hheld).addQueue hr howner ep he⟩
  · exact ⟨_, h.congr hlinks hheld⟩
  · exact ⟨_, (h.congr hlinks hheld).done_held hr howner ep 0 .nothing⟩

/-- What `comip_handle_ep` does with the lists: nothing, or the head of the queue is done. -/
theorem Udc.comipHandleEp_cases (s : Udc) (ep : EpNum) (length : ℕ) :
    ∃ s' : Udc, s'.links = s.links ∧ s'.held = s.held ∧ (s.comipHandleEp ep length = s' ∨
      s.links.isEmpty (.queue ep) = false ∧ ∃ after,
        s.comipHandleEp ep length = s'.done ep (containerOf (s.links.next (.queue ep))) 0 after) :=
          by
  rw [Udc.comipHandleEp]
  dsimp only
  by_cases hempty : s.links.isEmpty (.queue ep) = true
  · rw [if_pos hempty]
    exact ⟨s, rfl, rfl, .inl rfl⟩
  · rw [Bool.not_eq_true] at hempty
    rw [hempty, if_neg nofun]
    generalize hreq : containerOf (s.links.next (.queue ep)) = req
    have hdone : ∀ (s' : Udc) (after : AfterDone), s'.links = s.links → s'.held = s.held →
        ∃ s'' : Udc, s''.links = s.links ∧ s''.held = s.held ∧ (s'.done ep req 0 after = s'' ∨
          false = false ∧ ∃ after', s'.done ep req 0 after = s''.done ep req 0 after') :=
      fun s' after hlinks hheld => ⟨s', hlinks, hheld, .inr ⟨rfl, after, rfl⟩⟩
    split
    · split
      · exact hdone _ _ rfl rfl
      · exact hdone _ _ rfl rfl
    · split
      · split
        · split
          · refine ⟨_, ?_, ?_, .inl rfl⟩
            · exact Udc.inStart_links ..
            · exact Udc.inStart_held ..
          · exact hdone _ _ rfl rfl
        · exact hdone _ _ rfl rfl
      · exact hdone _ _ rfl rfl

theorem Kept.exists_first (h : Kept reqMax s owner lists) {p : Place}
    (hfull : s.links.isEmpty p.head = false) : ∃ r l, lists p = r :: l := by
  apply List.exists_cons_of_ne_nil
  intro hnil
  rw [(h.isEmpty_iff p).mpr hnil] at hfull
  exact absurd hfull nofun

/-- `done` on what stands first in a queue. -/
theorem Kept.done_next (h : Kept reqMax s owner lists) {ep : EpNum}
    (hfull : s.links.isEmpty (.queue ep) = false) (hlinks : s'.links = s.links)
    (hheld : s'.held = s.held) (after : AfterDone) :
    ∃ r lists', r < reqMax ∧ owner r = some (.queue ep) ∧
      Kept reqMax (s'.done ep (containerOf (s.links.next (.queue ep))) 0 after)
        (Function.update owner r none) lists' := by
  obtain ⟨r, l, hl⟩ := h.exists_first (p := .queue ep) hfull
  obtain ⟨hr, howner, hnext, -⟩ := h.first hl
  rw [show s.links.next (.queue ep) = node r from hnext, containerOf_node]
  exact ⟨r, _, hr, howner, (h.congr hlinks hheld).done_first hl 0 after⟩

theorem Kept.comipHandleEp (h : Kept reqMax s owner lists) (ep : EpNum) (length : ℕ) :
    HandsBack reqMax (s.comipHandleEp ep length) owner ep ∧
      ∃ owner' lists', Kept reqMax (s.comipHandleEp ep length) owner' lists' := by
  obtain ⟨s', hlinks, hheld, heq | ⟨hfull, after, heq⟩⟩ := s.comipHandleEp_cases ep length
  · rw [heq]
    have hkept := h.congr hlinks hheld
    exact ⟨.inl hkept.poolOk, _, _, hkept⟩
  · rw [heq]
    obtain ⟨r, lists', hr, howner, hkept⟩ := h.done_next hfull hlinks hheld after
    exact ⟨.inr ⟨r, hr, howner, hkept.poolOk⟩, _, _, hkept⟩

@[simp] theorem Udc.ep0OutStart_links (s : Udc) : s.ep0OutStart.links = s.links :=
  Udc.outStart_links ..

@[simp] theorem Udc.ep0OutStart_held (s : Udc) : s.ep0OutStart.held = s.held :=
  Udc.outStart_held ..

theorem Kept.comipHandleEp0 (h : Kept reqMax s owner lists) :
    HandsBack reqMax s.comipHandleEp0 owner 0 ∧
      ∃ owner' lists', Kept reqMax s.comipHandleEp0 owner' lists' := by
  rw [Udc.comipHandleEp0]
  split
  · split
    · have hkept : Kept reqMax s.ep0OutStart owner lists := h.congr (by simp) (by simp)
      exact ⟨.inl hkept.poolOk, _, _, hkept⟩
    · rename_i hfull
      obtain ⟨r, lists', hr, howner, hkept⟩ := h.done_next
        (show s.links.isEmpty (.queue 0) = false by simpa using hfull) rfl rfl .ep0OutStart
      exact ⟨.inr ⟨r, hr, howner, hkept.poolOk⟩, _, _, hkept⟩
  · exact ⟨.inl h.poolOk, _, _, h⟩

theorem Kept.resume (h : Kept reqMax s owner lists) (a : AfterDone) :
    Kept reqMax (s.resume a) owner lists := by
  cases a with
  | nothing => exact h
  | inStart ep req => exact h.congr (Udc.inStart_links ..) (Udc.inStart_held ..)
  | outStart ep req => exact h.congr (Udc.outStart_links ..) (Udc.outStart_held ..)
  | resetZero req => exact h.congr rfl rfl
  | ep0OutStart => exact h.congr s.ep0OutStart_links s.ep0OutStart_held

/-- At the head of the free list the loop takes the head out of its own list, puts it back
and is where it was. -/
theorem freeLoop_reqFreeList (fuel : ℕ) (ep : EpNum) (l : Links Node) :
    Udc.freeLoop (.queue ep) fuel .reqFreeList l = none := by
  induction fuel generalizing l with
  | zero => rfl
  | succ fuel ih =>
    have hprev : (l.del .zero .reqFreeList).prev .reqFreeList = .zero := del_self.2
    have hnext : ((l.del .zero .reqFreeList).addTail .reqFreeList .reqFreeList).next .reqFreeList =
        .reqFreeList := by
      rw [Links.addTail, hprev]
      exact insert_next_new (by decide)
    rw [Udc.freeLoop, if_neg nofun]
    dsimp only
    rw [hnext]
    exact ih _

/-- With a request queued at the endpoint the call never returns. -/
theorem Kept.freeRequest_runsOn (h : Kept reqMax s owner lists) {ep : EpNum}
    (hfull : s.links.isEmpty (.queue ep) = false) (fuel : ℕ) (req : Option ℕ) :
    s.comipEpFreeRequest fuel ep req = none := by
  obtain ⟨r, l, hl⟩ := h.exists_first (p := .queue ep) hfull
  obtain ⟨-, howner, hnext, hring⟩ := h.first hl
  have hnext' : s.links.next (.queue ep) = node r := hnext
  rw [Udc.comipEpFreeRequest, hnext', Option.map_eq_none_iff]
  cases fuel with
  | zero => rfl
  | succ fuel =>
    have hapart := h.apart (p := .queue ep) (q := .reqFreeList) nofun
    rw [hl, List.map_cons] at hapart
    have hprev : (s.links.del .zero (node r)).prev .reqFreeList ≠ node r := by
      have hsame : (s.links.del .zero (node r)).prev .reqFreeList = s.links.prev .reqFreeList :=
        (del_other hring (hapart _ List.mem_cons_self)).2
      rw [hsame]
      intro heq
      have hmem := (h.ring .reqFreeList).prev_mem
      rw [show s.links.prev Place.reqFreeList.head = node r from heq] at hmem
      exact hapart _ hmem (by simp)
    have hback : ((s.links.del .zero (node r)).addTail (node r) .reqFreeList).next (node r) =
        .reqFreeList := by
      rw [Links.addTail]
      exact insert_next_new hprev.symm
    rw [Udc.freeLoop, if_neg (show node r ≠ .queue ep from node_ne_head r (.queue ep))]
    dsimp only
    rw [hback]
    exact freeLoop_reqFreeList fuel ep _

/-- With nothing queued there the call does nothing. -/
theorem Udc.freeRequest_empty {s s' : Udc} {ep : EpNum} {fuel : ℕ} {req : Option ℕ}
    (hempty : s.links.isEmpty (.queue ep) = true)
    (h : s.comipEpFreeRequest fuel ep req = some s') : s' = s := by
  have hnext : s.links.next (.queue ep) = .queue ep := of_decide_eq_true hempty
  rw [Udc.comipEpFreeRequest, hnext] at h
  cases fuel with
  | zero => exact absurd h nofun
  | succ fuel =>
    rw [Udc.freeLoop, if_pos rfl, Option.map_some, Option.some.injEq] at h
    exact h.symm

theorem Kept.freeRequest_wrong (h : Kept reqMax s owner lists) {ep : EpNum} {i fuel : ℕ}
    (hi : i < reqMax) (howner : owner i = none)
    (hcall : s.comipEpFreeRequest fuel ep (some i) = some s') :
    ¬ PoolOk reqMax (s'.hold (some i) false) (Function.update owner i (some .reqFreeList)) := by
  by_cases hempty : s.links.isEmpty (.queue ep) = true
  · obtain rfl := Udc.freeRequest_empty hempty hcall
    intro hok
    obtain ⟨l, hring, hmem⟩ := hok.listed .reqFreeList
    have heq : l.map node = (lists .reqFreeList).map node := hring.unique (h.ring .reqFreeList)
    have hlist : i ∈ l := (hmem i).mpr ⟨hi, Function.update_self ..⟩
    rw [node_injective.list_map heq, h.mem, howner] at hlist
    exact absurd hlist.2 nofun
  · rw [Bool.not_eq_true] at hempty
    rw [h.freeRequest_runsOn hempty] at hcall
    exact absurd hcall nofun

/-- An allocation from an empty list writes. -/
theorem Udc.alloc_empty (s : Udc) (hempty : s.links.isEmpty .reqFreeList = true) :
    s.comipEpAllocRequest.1 = none ∧
      s.comipEpAllocRequest.2.nullStores = s.nullStores + 1 := by
  simp [Udc.comipEpAllocRequest, Udc.store, hempty]

theorem driver_alloc (fuel : ℕ) (s : Udc) : ((driver fuel).step s .alloc).2 =
    if s.comipEpAllocRequest.1 = none then s.comipEpAllocRequest.2
    else s.comipEpAllocRequest.2.hold s.comipEpAllocRequest.1 true := rfl

theorem Legal.holder (h : Kept reqMax s owner lists) {req : Option ℕ}
    (hl : ∃ i < reqMax, req = some i ∧ s.held req = true) :
    ∃ i < reqMax, req = some i ∧ owner i = none := by
  obtain ⟨i, hi, rfl, hheld⟩ := hl
  exact ⟨i, hi, rfl, (h.held i hi).mp hheld⟩

/-- A step that keeps the pool does what it should. -/
theorem Kept.stepRight (h : Kept reqMax s owner lists) {a : Action} (hl : Legal reqMax s a)
    (hk : KeepsPool s a) : StepRight reqMax s owner a ∧
      ∀ fuel, ∃ owner' lists', Kept reqMax ((driver fuel).step s a).2 owner' lists' := by
  cases a with
  | alloc =>
    obtain ⟨r, l, hr, hreq, howner, hkept⟩ := h.alloc hk
    have hstep : ∀ fuel, ((driver fuel).step s .alloc).2 =
        s.comipEpAllocRequest.2.hold (some r) true := by
      intro fuel
      rw [driver_alloc, hreq, if_neg nofun]
    refine ⟨.inl ⟨r, hr, hreq, howner, ?_⟩, fun fuel => ⟨_, _, hstep fuel ▸ hkept⟩⟩
    rw [hstep]
    exact hkept.poolOk
  | free ep req => exact hk.elim
  | queue ep req length zero =>
    obtain ⟨i, hi, rfl, howner⟩ := Legal.holder h hl
    have hfilled : Kept reqMax
        (s.store (some i) { s.req (some i) with length := length, zero := zero }) owner lists :=
      h.congr rfl rfl
    obtain ⟨lists', hkept⟩ := hfilled.comipEpQueue hi howner ep
      (show (Entry.mk (some i) length zero).req = some i from rfl)
    exact ⟨⟨i, rfl, hkept.poolOk⟩, fun _ => ⟨_, _, hkept⟩⟩
  | xfcompl ep length =>
    have hended : Kept reqMax (s.transferEnds ep) owner lists := h.congr rfl rfl
    obtain ⟨hback, hkept⟩ := hended.comipHandleEp ep length
    exact ⟨hback, fun _ => hkept⟩
  | xfcompl0 =>
    have hended : Kept reqMax (s.transferEnds 0) owner lists := h.congr rfl rfl
    obtain ⟨hback, hkept⟩ := hended.comipHandleEp0
    exact ⟨hback, fun _ => hkept⟩
  | ep0Setup st =>
    have hkept : Kept reqMax { s with ep0State := st } owner lists := h.congr rfl rfl
    exact ⟨hkept.poolOk, fun _ => ⟨_, _, hkept⟩⟩
  | callbackReturns =>
    have hkept : ∀ fuel, Kept reqMax ((driver fuel).step s .callbackReturns).2 owner lists := by
      intro fuel
      cases hs : s.after with
      | nil =>
        rw [driver_callbackReturns_nil hs]
        exact h
      | cons a after =>
        rw [driver_callbackReturns_cons hs]
        exact Kept.resume (s := { s with after := after }) (h.congr rfl rfl) a
    exact ⟨(hkept 0).poolOk, fun fuel => ⟨_, _, hkept fuel⟩⟩

/-- A step that frees, or allocates from an empty list, does not. -/
theorem Kept.keepsPool (h : Kept reqMax s owner lists) {a : Action} (hl : Legal reqMax s a)
    (hright : StepRight reqMax s owner a) : KeepsPool s a := by
  cases a with
  | alloc =>
    show s.links.isEmpty .reqFreeList = false
    by_contra hempty
    rw [Bool.not_eq_false] at hempty
    obtain ⟨hnull, hstores⟩ := s.alloc_empty hempty
    rcases hright with ⟨i, -, hreq, -⟩ | ⟨-, -, hsame⟩
    · rw [hnull] at hreq
      exact absurd hreq nofun
    · rw [hsame] at hstores
      omega
  | free ep req =>
    obtain ⟨i, hi, rfl, howner⟩ := Legal.holder h hl
    obtain ⟨j, fuel, s', hj, hcall, hok⟩ := hright
    obtain rfl : i = j := Option.some.inj hj
    exact h.freeRequest_wrong hi howner hcall hok
  | queue | xfcompl | xfcompl0 | ep0Setup | callbackReturns => trivial

end Owners

section Runs
variable {reqMax : ℕ}

theorem epsInit_queues (s : Udc) (ep : EpNum) : s.comipUdcEpsInit.links.Ring (.queue ep) [] := by
  show (List.foldl _ _ _ : Links Node).Ring _ _
  rw [← List.foldl_map (f := Node.queue) (g := Links.init)]
  exact foldl_init (.inl (List.mem_map_of_mem (List.mem_finRange ep)))

/-- The free list as the loop of `comip_udc_reqs_init` fills it. -/
theorem putReqs (s : Udc) (hq : ∀ ep, s.links.Ring (.queue ep) []) (k : ℕ) :
    let s' := (List.range k).foldl Udc.putReq { s with links := s.links.init .reqFreeList }
    s'.links.Ring .reqFreeList ((List.range k).map node) ∧
      (∀ ep, s'.links.Ring (.queue ep) []) ∧ s'.held = s.held := by
  induction k with
  | zero => exact ⟨ring_init, fun ep => (hq ep).init_of_notMem (by simp), rfl⟩
  | succ k ih =>
    obtain ⟨hfree, hqueue, hheld⟩ := ih
    rw [List.range_succ, List.foldl_append, List.map_append]
    generalize (List.range k).foldl Udc.putReq _ = s' at hfree hqueue hheld
    have hnew : node k ∉ Node.reqFreeList :: (List.range k).map node := by
      rw [List.mem_cons, List.mem_map_of_injective node_injective, List.mem_range]
      exact fun h => h.elim nofun (lt_irrefl k)
    have hfree' := hfree.init_of_notMem hnew
    refine ⟨hfree'.addTail hnew, fun ep => ?_, hheld⟩
    have hnode : node k ∉ [Node.queue ep] := by simp [node]
    refine Links.Ring.addTail_of_disjoint hfree' ((hqueue ep).init_of_notMem hnode) ?_ hnode
    intro y hy
    rw [List.mem_singleton] at hy
    subst hy
    simp [node]

/-- All requests are free, but for that of endpoint 0. -/
theorem kept_init (hmax : 0 < reqMax) (s : Udc) :
    ∃ owner lists, Kept reqMax (Udc.comipUdcInit reqMax s) owner lists ∧
      ∀ ep, lists (.queue ep) = [] := by
  rw [Udc.comipUdcInit, Udc.comipUdcReqsInit]
  generalize hs₁ : Udc.comipUdcEpsInit _ = s₁
  have hq : ∀ ep, s₁.links.Ring (.queue ep) [] := by
    subst hs₁
    exact epsInit_queues _
  have hnone : s₁.held = fun _ => false := by
    subst hs₁
    rfl
  obtain ⟨hfree, hqueue, hheld⟩ := putReqs s₁ hq reqMax
  dsimp only at hfree hqueue hheld ⊢
  generalize (List.range reqMax).foldl Udc.putReq _ = s₂ at hfree hqueue hheld ⊢
  have hkept : Kept reqMax { s₂ with ep0State := .idle } (fun _ => some .reqFreeList)
      fun | .reqFreeList => List.range reqMax | .queue _ => [] := by
    constructor
    · intro p
      cases p with
      | reqFreeList => exact hfree
      | queue ep => exact hqueue ep
    · intro p i
      cases p with
      | reqFreeList => simp
      | queue ep => simp
    · intro i _
      show s₂.held (some i) = true ↔ _
      rw [hheld, hnone]
      exact iff_of_false nofun nofun
    · exact fun i _ h => absurd h nofun
  have hfull : s₂.links.isEmpty .reqFreeList = false := by
    rw [Bool.eq_false_iff, ne_eq, hfree.isEmpty_iff, List.map_eq_nil_iff, List.range_eq_nil]
    omega
  obtain ⟨r, l, hr, hreq, -, hafter⟩ := hkept.alloc hfull
  generalize Udc.comipEpAllocRequest { s₂ with ep0State := .idle } = w at hreq hafter
  obtain ⟨req, s₃⟩ := w
  obtain rfl : req = some r := hreq
  have halone := hafter.alone r hr (Function.update_self ..)
  exact ⟨_, _, hafter.congr halone.init_self rfl,
    fun ep => Function.update_of_ne (by simp) ..⟩

/-- The requests that callers hold, and every list, after a run that keeps the pool. -/
theorem kept_run (hmax : 0 < reqMax) (s : Udc) {fuel : ℕ} {as : List Action}
    (hrun : (driver fuel).Guarded (fun s a => Legal reqMax s a ∧ KeepsPool s a)
      (Udc.comipUdcInit reqMax s) as) :
    ∃ owner lists, Kept reqMax ((driver fuel).run (Udc.comipUdcInit reqMax s) as) owner lists :=
  @Machine.run_invariant _ _ _ (driver fuel) _ (fun s => ∃ owner lists, Kept reqMax s owner lists)
    (fun _ _ ⟨_, _, h⟩ hok => (h.stepRight hok.1 hok.2).2 fuel) _
    (let ⟨owner, lists, h, _⟩ := kept_init hmax s; ⟨owner, lists, h⟩) _ hrun

/-- After every run of steps that keep the pool each request has one owner, and the next step
does what it should exactly if it frees nothing and allocates from no empty list. -/
theorem stepRight_iff_keepsPool (reqMax fuel : ℕ) (hmax : 0 < reqMax) (s : Udc) (as : List Action)
    (hrun : (driver fuel).Guarded (fun s a => Legal reqMax s a ∧ KeepsPool s a)
      (Udc.comipUdcInit reqMax s) as) :
    let s' := (driver fuel).run (Udc.comipUdcInit reqMax s) as
    ∃ owner, PoolOk reqMax s' owner ∧ ∀ a, Legal reqMax s' a →
      (StepRight reqMax s' owner a ↔ KeepsPool s' a) := by
  obtain ⟨owner, lists, h⟩ := kept_run hmax s hrun
  exact ⟨owner, h.poolOk, fun a hl => ⟨h.keepsPool hl, fun hk => (h.stepRight hl hk).1⟩⟩

/-- The driver before it is set up, with the directions of `comip_udc_eps_init`. -/
def clearedUdc : Udc where
  links := ⟨fun _ => .zero, fun _ => .zero⟩
  req _ := ⟨0, 0, 0, false⟩
  ep i := ⟨false, decide (1 ≤ i.val ∧ i.val ≤ comipEpNum / 2), if i = 0 then 64 else 512⟩
  ep0Req := none
  ep0State := .idle
  dma _ := none
  after := []
  nullStores := 0
  held _ := false
  queued _ := []
  finished _ := []
  sent _ := []

/-- A request is allocated, queued at endpoint 1, sent and handed back; another one can be
allocated then. -/
def sendOne : List Action := [.alloc, .queue 1 (some 1) 512 false, .xfcompl 1 0, .callbackReturns]

theorem sendOne_stepRight :
    (driver 0).Guarded (fun s a => Legal 3 s a ∧ KeepsPool s a)
      (Udc.comipUdcInit 3 clearedUdc) sendOne ∧
    ∃ owner, PoolOk 3 ((driver 0).run (Udc.comipUdcInit 3 clearedUdc) sendOne) owner ∧
      StepRight 3 ((driver 0).run (Udc.comipUdcInit 3 clearedUdc) sendOne) owner .alloc := by
  have hrun : (driver 0).Guarded (fun s a => Legal 3 s a ∧ KeepsPool s a)
      (Udc.comipUdcInit 3 clearedUdc) sendOne := by
    refine ⟨⟨trivial, ?_⟩, ⟨⟨1, by decide, rfl, ?_⟩, trivial⟩, ⟨trivial, trivial⟩,
      ⟨trivial, trivial⟩, trivial⟩
    · show Links.isEmpty _ _ = false
      decide +kernel
    · decide +kernel
  obtain ⟨owner, hpool, hstep⟩ := stepRight_iff_keepsPool 3 0 (by decide) clearedUdc sendOne hrun
  refine ⟨hrun, owner, hpool, (hstep .alloc trivial).mpr ?_⟩
  show Links.isEmpty _ _ = false
  decide +kernel

/-- Two requests are allocated, and the first is queued at endpoint 1. -/
def queueOne : List Action := [.alloc, .alloc, .queue 1 (some 1) 512 false]

/-- A request freed at an endpoint with nothing queued stays where it was; with a request
queued there the call never returns; and the allocation that finds no free request stores
one through `NULL`. -/
theorem freed_request_is_lost :
    let s := (driver 0).run (Udc.comipUdcInit 3 clearedUdc) [.alloc]
    let s' := (driver 0).run (Udc.comipUdcInit 3 clearedUdc) queueOne
    Legal 3 s (.free 1 (some 1)) ∧
    (∀ fuel t, s.comipEpFreeRequest fuel 1 (some 1) = some t → t = s) ∧
    Legal 3 s' (.free 1 (some 2)) ∧
    (∀ fuel, s'.comipEpFreeRequest fuel 1 (some 2) = none) ∧
    s'.comipEpAllocRequest.1 = none ∧ s'.comipEpAllocRequest.2.nullStores = s'.nullStores + 1 ∧
    ∃ owner, PoolOk 3 s owner ∧ ¬ StepRight 3 s owner (.free 1 (some 1)) := by
  intro s s'
  have hstart : Links.isEmpty (Udc.comipUdcInit 3 clearedUdc).links .reqFreeList = false := by
    decide +kernel
  have hrun : (driver 0).Guarded (fun s a => Legal 3 s a ∧ KeepsPool s a)
      (Udc.comipUdcInit 3 clearedUdc) [.alloc] := ⟨⟨trivial, hstart⟩, trivial⟩
  have hrun' : (driver 0).Guarded (fun s a => Legal 3 s a ∧ KeepsPool s a)
      (Udc.comipUdcInit 3 clearedUdc) queueOne := by
    refine ⟨⟨trivial, hstart⟩, ⟨trivial, ?_⟩, ⟨⟨1, by decide, rfl, by decide +kernel⟩, trivial⟩,
      trivial⟩
    show Links.isEmpty _ _ = false
    decide +kernel
  have hlegal : Legal 3 s (.free 1 (some 1)) := ⟨1, by decide, rfl, by decide +kernel⟩
  have hnothing : s.links.isEmpty (.queue 1) = true := by decide +kernel
  have hqueued : s'.links.isEmpty (.queue 1) = false := by decide +kernel
  have hnone : s'.links.isEmpty .reqFreeList = true := by decide +kernel
  obtain ⟨owner, lists, hkept⟩ := kept_run (by decide) clearedUdc hrun
  obtain ⟨_, _, hkept'⟩ := kept_run (by decide) clearedUdc hrun'
  exact ⟨hlegal, fun fuel t h => Udc.freeRequest_empty hnothing h,
    ⟨2, by decide, rfl, by decide +kernel⟩, fun fuel => hkept'.freeRequest_runsOn hqueued fuel _,
    (s'.alloc_empty hnone).1, (s'.alloc_empty hnone).2, owner, hkept.poolOk,
    hkept.keepsPool hlegal⟩

end Runs
end UBoot.Usb
