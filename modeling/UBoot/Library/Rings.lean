import Mathlib.Data.List.Nodup
import Mathlib.Logic.Function.Basic

/-!
# Doubly linked rings

Nodes carry two links, and a list is a ring of nodes that begins and ends at a head, which
is no member. Members are added behind the last one and taken away by joining their two
neighbours. A ring depends on the links of its own nodes only, so that rings without a
common node can be kept side by side.
-/
namespace Rings

/-- The two links of every node. -/
structure Links (α : Type*) where
  next : α → α
  prev : α → α

namespace Links
variable {α : Type*} [DecidableEq α]

/-- A node by itself. -/
def init (l : Links α) (x : α) : Links α :=
  ⟨Function.update l.next x x, Function.update l.prev x x⟩

/-- Put `new` between two neighbours; the writes stand in the order of execution. -/
def insert (l : Links α) (new before after : α) : Links α :=
  let l := { l with prev := Function.update l.prev after new }
  let l := { l with next := Function.update l.next new after }
  let l := { l with prev := Function.update l.prev new before }
  { l with next := Function.update l.next before new }

/-- Join two nodes. -/
def join (l : Links α) (before after : α) : Links α :=
  let l := { l with prev := Function.update l.prev after before }
  { l with next := Function.update l.next before after }

def addTail (l : Links α) (new head : α) : Links α := l.insert new (l.prev head) head

/-- Take a node out; its own links are left at `poison`. -/
def del (poison : α) (l : Links α) (x : α) : Links α :=
  let l := l.join (l.prev x) (l.next x)
  ⟨Function.update l.next x poison, Function.update l.prev x poison⟩

/-- Take a node out and leave it by itself. -/
def delInit (l : Links α) (x : α) : Links α := (l.join (l.prev x) (l.next x)).init x

def isEmpty (l : Links α) (head : α) : Bool := decide (l.next head = head)

/-- From `a` over `xs` to `b`, linked both ways. -/
def Linked (l : Links α) (a : α) : List α → α → Prop
  | [], b => l.next a = b ∧ l.prev b = a
  | x :: xs, b => (l.next a = x ∧ l.prev x = a) ∧ Linked l x xs b

/-- The members of the list of `head`, in order. -/
structure Ring (l : Links α) (head : α) (xs : List α) : Prop where
  nodup : (head :: xs).Nodup
  linked : l.Linked head xs head

end Links

open Rings.Links

variable {α : Type*} {l l' : Links α} {a b head new x y : α} {xs ys : List α}

/-- Only the links along the way matter. -/
theorem Links.Linked.congr (h : l.Linked a xs b) (hnext : ∀ y ∈ a :: xs, l'.next y = l.next y)
    (hprev : ∀ y ∈ xs ++ [b], l'.prev y = l.prev y) : l'.Linked a xs b := by
  induction xs generalizing a with
  | nil => exact ⟨(hnext a (by simp)).trans h.1, (hprev b (by simp)).trans h.2⟩
  | cons x xs ih =>
    refine ⟨⟨(hnext a (by simp)).trans h.1.1, (hprev x (by simp)).trans h.1.2⟩, ?_⟩
    exact ih h.2 (fun y hy => hnext y (List.mem_cons_of_mem _ hy))
      fun y hy => hprev y (List.mem_cons_of_mem _ hy)

theorem Links.Ring.congr (h : l.Ring head xs)
    (hsame : ∀ y ∈ head :: xs, l'.next y = l.next y ∧ l'.prev y = l.prev y) :
    l'.Ring head xs := by
  refine ⟨h.nodup, h.linked.congr (fun y hy => (hsame y hy).1) fun y hy => (hsame y ?_).2⟩
  rw [List.mem_append, List.mem_singleton] at hy
  exact List.mem_cons.mpr hy.symm

theorem Links.Linked.next_cons (h : l.Linked a (x :: xs) b) : l.next a = x := h.1.1

theorem Links.Ring.next_nil (h : l.Ring head []) : l.next head = head := h.linked.1

theorem Links.Ring.prev_nil (h : l.Ring head []) : l.prev head = head := h.linked.2

theorem Links.Ring.next_cons (h : l.Ring head (x :: xs)) : l.next head = x := h.linked.next_cons

/-- The links of a head determine the members. -/
theorem Links.Ring.unique (h : l.Ring head xs) (h' : l.Ring head ys) : xs = ys := by
  have hlinked : ∀ (xs ys : List α) (a : α), l.Linked a xs head → l.Linked a ys head →
      head ∉ xs → head ∉ ys → xs = ys := by
    intro xs
    induction xs with
    | nil =>
      intro ys a hx hy _ hys
      cases ys with
      | nil => rfl
      | cons y ys =>
        rw [← hy.next_cons, hx.1] at hys
        exact absurd List.mem_cons_self hys
    | cons x xs ih =>
      intro ys a hx hy hxs hys
      cases ys with
      | nil =>
        rw [← hx.next_cons, hy.1] at hxs
        exact absurd List.mem_cons_self hxs
      | cons y ys =>
        obtain rfl : x = y := hx.next_cons.symm.trans hy.next_cons
        rw [List.mem_cons, not_or] at hxs hys
        rw [ih ys x hx.2 hy.2 hxs.2 hys.2]
  exact hlinked xs ys head h.linked h'.linked (List.nodup_cons.mp h.nodup).1
    (List.nodup_cons.mp h'.nodup).1

/-- The last member, or the head, is in front of the head. -/
theorem Links.Linked.prev_mem (h : l.Linked a xs b) : l.prev b ∈ a :: xs := by
  induction xs generalizing a with
  | nil => exact List.mem_singleton.mpr h.2
  | cons x xs ih => exact List.mem_cons_of_mem _ (ih h.2)

theorem Links.Ring.prev_mem (h : l.Ring head xs) : l.prev head ∈ head :: xs := h.linked.prev_mem

/-- The neighbours of the first member belong to the ring. -/
theorem Links.Ring.first_neighbours (h : l.Ring head (x :: xs)) :
    l.prev x ∈ head :: x :: xs ∧ l.next x ∈ head :: x :: xs := by
  constructor
  · rw [h.linked.1.2]
    exact List.mem_cons_self
  · cases xs with
    | nil =>
      rw [show l.next x = head from h.linked.2.1]
      exact List.mem_cons_self
    | cons y ys =>
      rw [h.linked.2.next_cons]
      simp

theorem Links.Ring.first_notMem (h : l.Ring head (x :: xs)) : x ∉ head :: xs := by
  obtain ⟨hhead, hrest⟩ := List.nodup_cons.mp h.nodup
  rw [List.mem_cons, not_or] at hhead ⊢
  exact ⟨Ne.symm hhead.1, (List.nodup_cons.mp hrest).1⟩

variable [DecidableEq α]

theorem Links.Ring.isEmpty_iff (h : l.Ring head xs) : l.isEmpty head = true ↔ xs = [] := by
  rw [isEmpty, decide_eq_true_iff]
  cases xs with
  | nil => exact iff_of_true h.next_nil rfl
  | cons x xs =>
    rw [h.next_cons]
    refine iff_of_false ?_ (List.cons_ne_nil _ _)
    rintro rfl
    exact (List.nodup_cons.mp h.nodup).1 List.mem_cons_self

theorem ring_init : (l.init x).Ring x [] :=
  ⟨List.nodup_singleton x, Function.update_self .., Function.update_self ..⟩

theorem init_other (h : y ≠ x) : (l.init x).next y = l.next y ∧ (l.init x).prev y = l.prev y :=
  ⟨Function.update_of_ne h .., Function.update_of_ne h ..⟩

theorem Links.Ring.init_of_notMem (h : l.Ring head xs) (hx : x ∉ head :: xs) :
    (l.init x).Ring head xs :=
  h.congr fun _ hy => init_other fun heq => hx (heq ▸ hy)

/-- A node by itself is not changed by putting it by itself. -/
theorem Links.Ring.init_self (h : l.Ring x []) : l.init x = l := by
  have hn : Function.update l.next x x = l.next := by
    rw [Function.update_eq_self_iff, h.next_nil]
  have hp : Function.update l.prev x x = l.prev := by
    rw [Function.update_eq_self_iff, h.prev_nil]
  rw [init, hn, hp]

/-- Heads put by themselves one after the other. -/
theorem foldl_init (h : x ∈ xs ∨ l.Ring x []) : (xs.foldl init l).Ring x [] := by
  induction xs generalizing l with
  | nil => exact h.resolve_left List.not_mem_nil
  | cons y xs ih =>
    apply ih
    by_cases hxy : x = y
    · exact .inr (hxy ▸ ring_init)
    · rcases h with h | h
      · exact .inl ((List.mem_cons.mp h).resolve_left hxy)
      · exact .inr (h.init_of_notMem (by simpa using Ne.symm hxy))

theorem insert_next (hy : y ≠ a) :
    (l.insert new a b).next y = if y = new then b else l.next y := by
  show Function.update (Function.update l.next new b) a new y = _
  rw [Function.update_of_ne hy, Function.update_apply]

theorem insert_prev (hy : y ≠ b) :
    (l.insert new a b).prev y = if y = new then a else l.prev y := by
  show Function.update (Function.update l.prev b new) new a y = _
  rw [Function.update_apply]
  split
  · rfl
  · rw [Function.update_of_ne hy]

theorem insert_next_new (hnew : new ≠ a) : (l.insert new a b).next new = b := by
  rw [insert_next hnew, if_pos rfl]

/-- A node that is neither put in nor one of its neighbours keeps its links. -/
theorem addTail_other (hnew : y ≠ new) (hhead : y ≠ head) (hprev : y ≠ l.prev head) :
    (l.addTail new head).next y = l.next y ∧ (l.addTail new head).prev y = l.prev y := by
  constructor
  · show Function.update (Function.update l.next new head) (l.prev head) new y = _
    rw [Function.update_of_ne hprev, Function.update_of_ne hnew]
  · show Function.update (Function.update l.prev head new) new (l.prev head) y = _
    rw [Function.update_of_ne hnew, Function.update_of_ne hhead]

theorem Links.Linked.insert_last (h : l.Linked a xs b) (hnodup : (a :: xs).Nodup)
    (hb : b ∉ xs) (hnew : new ∉ a :: xs) (hnewb : new ≠ b) :
    (l.insert new (l.prev b) b).Linked a (xs ++ [new]) b := by
  have hlast : new ≠ l.prev b := fun heq => hnew (heq ▸ h.prev_mem)
  have hnext_new : (l.insert new (l.prev b) b).next new = b := insert_next_new hlast
  have hprev_b : (l.insert new (l.prev b) b).prev b = new := by
    show Function.update (Function.update l.prev b new) new (l.prev b) b = new
    rw [Function.update_of_ne hnewb.symm, Function.update_self]
  have hnext_last : (l.insert new (l.prev b) b).next (l.prev b) = new := Function.update_self ..
  have hprev_new : (l.insert new (l.prev b) b).prev new = l.prev b := Function.update_self ..
  generalize hl' : l.insert new (l.prev b) b = l' at hnext_new hprev_b hnext_last hprev_new ⊢
  have hkeep_next : ∀ y, y ≠ new → y ≠ l.prev b → l'.next y = l.next y := by
    intro y hy hne
    rw [← hl', insert_next hne, if_neg hy]
  have hkeep_prev : ∀ y, y ≠ new → y ≠ b → l'.prev y = l.prev y := by
    intro y hy hne
    rw [← hl', insert_prev hne, if_neg hy]
  clear hl'
  induction xs generalizing a with
  | nil =>
    obtain ⟨hnext, hprev⟩ := h
    rw [hprev] at hnext_last hprev_new
    exact ⟨⟨hnext_last, hprev_new⟩, hnext_new, hprev_b⟩
  | cons x xs ih =>
    rw [List.mem_cons, not_or] at hb hnew
    have hx : new ≠ x := fun heq => hnew.2 (heq ▸ List.mem_cons_self)
    have ha : a ≠ l.prev b := by
      intro heq
      have := h.2.prev_mem
      rw [← heq] at this
      exact (List.nodup_cons.mp hnodup).1 this
    refine ⟨⟨?_, ?_⟩, ih h.2 (List.nodup_cons.mp hnodup).2 hb.2 hnew.2⟩
    · rw [hkeep_next a (Ne.symm hnew.1) ha]
      exact h.1.1
    · rw [hkeep_prev x (Ne.symm hx) (Ne.symm hb.1)]
      exact h.1.2

theorem Links.Ring.addTail (h : l.Ring head xs) (hnew : new ∉ head :: xs) :
    (l.addTail new head).Ring head (xs ++ [new]) := by
  obtain ⟨hhead, hxs⟩ := List.nodup_cons.mp h.nodup
  have hne : new ≠ head := fun heq => hnew (heq ▸ List.mem_cons_self)
  refine ⟨?_, h.linked.insert_last h.nodup hhead hnew hne⟩
  rw [← List.cons_append, List.nodup_append]
  refine ⟨h.nodup, List.nodup_singleton new, ?_⟩
  intro y hy z hz
  rw [List.mem_singleton] at hz
  rintro rfl
  exact hnew (hz ▸ hy)

/-- The other rings, if they share no node with this one. -/
theorem Links.Ring.addTail_of_disjoint (h : l.Ring head xs) (h' : l.Ring a ys)
    (hdisj : ∀ y ∈ a :: ys, y ∉ head :: xs) (hnew : new ∉ a :: ys) :
    (l.addTail new head).Ring a ys := by
  apply h'.congr
  intro y hy
  apply addTail_other
  · exact fun heq => hnew (heq ▸ hy)
  · exact fun heq => hdisj y hy (heq ▸ List.mem_cons_self)
  · exact fun heq => hdisj y hy (heq ▸ h.prev_mem)

/-- A node that is neither of the two neighbours nor the one taken out keeps its links. -/
theorem join_other (hbefore : y ≠ a) (hafter : y ≠ b) :
    (l.join a b).next y = l.next y ∧ (l.join a b).prev y = l.prev y :=
  ⟨Function.update_of_ne hbefore .., Function.update_of_ne hafter ..⟩

/-- What follows the first member is the list of the head once they are joined. -/
theorem Links.Ring.join_first (h : l.Ring head (x :: xs)) :
    (l.join (l.prev x) (l.next x)).Ring head xs := by
  have hnodup := h.nodup
  obtain ⟨hhead, hrest⟩ := List.nodup_cons.mp hnodup
  rw [List.mem_cons, not_or] at hhead
  have hprev : l.prev x = head := h.linked.1.2
  refine ⟨List.nodup_cons.mpr ⟨hhead.2, (List.nodup_cons.mp hrest).2⟩, ?_⟩
  rw [hprev]
  cases xs with
  | nil =>
    have hnext : l.next x = head := h.linked.2.1
    rw [hnext]
    exact ⟨Function.update_self .., Function.update_self ..⟩
  | cons y ys =>
    have hnext : l.next x = y := h.linked.2.next_cons
    rw [hnext]
    refine ⟨⟨Function.update_self .., Function.update_self ..⟩, ?_⟩
    have hylist := (List.nodup_cons.mp (List.nodup_cons.mp hrest).2).1
    refine Links.Linked.congr (l := l) h.linked.2.2 ?_ ?_
    · intro z hz
      apply Function.update_of_ne
      rintro rfl
      exact hhead.2 hz
    · intro z hz
      apply Function.update_of_ne
      rintro rfl
      rcases List.mem_append.mp hz with hz | hz
      · exact hylist hz
      · exact hhead.2 ((List.mem_singleton.mp hz) ▸ List.mem_cons_self)

theorem Links.Ring.del_first {poison : α} (h : l.Ring head (x :: xs)) :
    (l.del poison x).Ring head xs := by
  apply h.join_first.congr
  intro y hy
  have hne : y ≠ x := fun heq => h.first_notMem (heq ▸ hy)
  exact ⟨Function.update_of_ne hne .., Function.update_of_ne hne ..⟩

theorem Links.Ring.delInit_first (h : l.Ring head (x :: xs)) : (l.delInit x).Ring head xs :=
  h.join_first.init_of_notMem h.first_notMem

theorem del_self {poison : α} :
    (l.del poison x).next x = poison ∧ (l.del poison x).prev x = poison :=
  ⟨Function.update_self .., Function.update_self ..⟩

theorem del_other {poison : α} (h : l.Ring head (x :: xs)) (hy : y ∉ head :: x :: xs) :
    (l.del poison x).next y = l.next y ∧ (l.del poison x).prev y = l.prev y := by
  obtain ⟨hprev, hnext⟩ := h.first_neighbours
  have hne : y ≠ x := fun heq => hy (heq ▸ by simp)
  have hbefore : y ≠ l.prev x := fun heq => hy (heq ▸ hprev)
  have hafter : y ≠ l.next x := fun heq => hy (heq ▸ hnext)
  obtain ⟨hn, hp⟩ := join_other (l := l) hbefore hafter
  exact ⟨(Function.update_of_ne hne ..).trans hn, (Function.update_of_ne hne ..).trans hp⟩

theorem delInit_other (h : l.Ring head (x :: xs)) (hy : y ∉ head :: x :: xs) :
    (l.delInit x).next y = l.next y ∧ (l.delInit x).prev y = l.prev y := by
  obtain ⟨hprev, hnext⟩ := h.first_neighbours
  have hne : y ≠ x := fun heq => hy (heq ▸ by simp)
  have hbefore : y ≠ l.prev x := fun heq => hy (heq ▸ hprev)
  have hafter : y ≠ l.next x := fun heq => hy (heq ▸ hnext)
  obtain ⟨hn, hp⟩ := join_other (l := l) hbefore hafter
  exact ⟨(init_other hne).1.trans hn, (init_other hne).2.trans hp⟩

/-- A node by itself stays so. -/
theorem Links.Ring.delInit_self (h : l.Ring x []) : l.delInit x = l := by
  have hn : Function.update l.next x x = l.next := by
    rw [Function.update_eq_self_iff, h.next_nil]
  have hp : Function.update l.prev x x = l.prev := by
    rw [Function.update_eq_self_iff, h.prev_nil]
  rw [delInit, h.prev_nil, h.next_nil, join, hn, hp]
  exact h.init_self

end Rings
