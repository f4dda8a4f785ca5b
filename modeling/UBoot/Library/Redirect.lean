import Mathlib.Tactic

/-!
# Redirect logs

A log of redirections sends a place to another one, entry by entry. When no two
entries share a target, walks that start outside the targets never meet, which
bounds their length and makes the place where they end an injective function of
the start. When no two entries share a source, that place is unique.
-/

/-- The first `size` entries, oldest first. -/
structure RedirectLog (α : Type*) where
  size : ℕ
  src : ℕ → α
  dst : ℕ → α

namespace RedirectLog
variable {α : Type*} {L L' : RedirectLog α} {a b c e r t : α}

/-- Some entry sends `a` to `b`. -/
def Step (L : RedirectLog α) (a b : α) : Prop := ∃ i < L.size, L.src i = a ∧ L.dst i = b

def Target (L : RedirectLog α) (a : α) : Prop := ∃ i < L.size, L.dst i = a

def Moved (L : RedirectLog α) (a : α) : Prop := ∃ i < L.size, L.src i = a

def DstInjective (L : RedirectLog α) : Prop :=
  ∀ i < L.size, ∀ j < L.size, L.dst i = L.dst j → i = j

def SrcInjective (L : RedirectLog α) : Prop :=
  ∀ i < L.size, ∀ j < L.size, L.src i = L.src j → i = j

/-- `n` redirections lead from `a` to `b`. -/
inductive Walk (L : RedirectLog α) : ℕ → α → α → Prop where
  | nil (a : α) : Walk L 0 a a
  | snoc {n : ℕ} {a b c : α} : Walk L n a b → L.Step b c → Walk L (n + 1) a c

theorem Step.target (h : L.Step a b) : L.Target b := by
  obtain ⟨i, hi, -, hb⟩ := h
  exact ⟨i, hi, hb⟩

theorem Step.moved (h : L.Step a b) : L.Moved a := by
  obtain ⟨i, hi, ha, -⟩ := h
  exact ⟨i, hi, ha⟩

/-- Distinct targets make redirection injective, entry by entry. -/
theorem Step.left_unique (hd : L.DstInjective) (h : L.Step a c) (h' : L.Step b c) : a = b := by
  obtain ⟨i, hi, ha, hc⟩ := h
  obtain ⟨j, hj, hb, hc'⟩ := h'
  have hij : i = j := hd i hi j hj (hc.trans hc'.symm)
  rw [← ha, ← hb, hij]

theorem Step.right_unique (hs : L.SrcInjective) (h : L.Step a b) (h' : L.Step a c) : b = c := by
  obtain ⟨i, hi, ha, hb⟩ := h
  obtain ⟨j, hj, ha', hc⟩ := h'
  have hij : i = j := hs i hi j hj (ha.trans ha'.symm)
  rw [← hb, ← hc, hij]

/-- Two walks that start outside the targets and meet are one walk. -/
theorem Walk.start_unique (hd : L.DstInjective) {m n : ℕ} (h : L.Walk m a e)
    (h' : L.Walk n b e) (ha : ¬ L.Target a) (hb : ¬ L.Target b) : a = b ∧ m = n := by
  induction h generalizing n b with
  | nil a =>
    cases h' with
    | nil => exact ⟨rfl, rfl⟩
    | snoc _ hstep => exact absurd hstep.target ha
  | snoc hw hstep ih =>
    cases h' with
    | nil => exact absurd hstep.target hb
    | snoc hw' hstep' =>
      have hprev := hstep'.left_unique hd hstep
      subst hprev
      obtain ⟨hab, hmn⟩ := ih hw' ha hb
      exact ⟨hab, congrArg (· + 1) hmn⟩

/-- The entries used by a walk are distinct, so it is no longer than the log. -/
theorem Walk.length_le (hd : L.DstInjective) (ha : ¬ L.Target a) {n : ℕ} (h : L.Walk n a e) :
    n ≤ L.size := by
  -- the entries used so far, each reached by an initial part of the walk
  suffices hused : ∃ used : Finset ℕ, used ⊆ Finset.range L.size ∧ used.card = n ∧
      ∀ i ∈ used, ∃ k ≤ n, L.Walk k a (L.dst i) by
    obtain ⟨used, hsub, hcard, -⟩ := hused
    calc n = used.card := hcard.symm
      _ ≤ (Finset.range L.size).card := Finset.card_le_card hsub
      _ = L.size := Finset.card_range _
  induction h with
  | nil a => exact ⟨∅, by simp⟩
  | snoc hw hstep ih =>
    obtain ⟨used, hsub, hcard, hreach⟩ := ih ha
    obtain ⟨j, hj, hsrc, hdst⟩ := id hstep
    have hnew : j ∉ used := by
      intro hmem
      obtain ⟨k, hk, hwk⟩ := hreach j hmem
      rw [hdst] at hwk
      have := (hwk.start_unique hd (hw.snoc hstep) ha ha).2
      omega
    refine ⟨insert j used, ?_, ?_, ?_⟩
    · intro i hi
      rcases Finset.mem_insert.mp hi with h | h
      · simpa [h] using hj
      · exact hsub h
    · rw [Finset.card_insert_of_notMem hnew, hcard]
    · intro i hi
      rcases Finset.mem_insert.mp hi with h | h
      · exact ⟨_, le_rfl, by rw [h, hdst]; exact hw.snoc hstep⟩
      · obtain ⟨k, hk, hwk⟩ := hreach i h
        exact ⟨k, by omega, hwk⟩

theorem Walk.target_of_pos {n : ℕ} (h : L.Walk (n + 1) a e) : L.Target e := by
  cases h with
  | snoc _ hstep => exact hstep.target

/-- The walks from `a` end in `e`. -/
def Ends (L : RedirectLog α) (a e : α) : Prop := (∃ n, L.Walk n a e) ∧ ¬ L.Moved e

theorem Walk.path {n : ℕ} (h : L.Walk n a e) : Relation.ReflTransGen L.Step a e := by
  induction h with
  | nil a => exact .refl
  | snoc _ hstep ih => exact ih.tail hstep

theorem eq_of_path_of_not_moved (h : Relation.ReflTransGen L.Step a e) (ha : ¬ L.Moved a) :
    a = e := by
  rcases h.cases_head with h | ⟨b, hstep, -⟩
  · exact h
  · exact absurd hstep.moved ha

theorem Ends.unique (hs : L.SrcInjective) (h : L.Ends a b) (h' : L.Ends a c) : b = c := by
  obtain ⟨⟨m, hm⟩, hb⟩ := h
  obtain ⟨⟨n, hn⟩, hc⟩ := h'
  have hright : Relator.RightUnique L.Step := fun _ _ _ h₁ h₂ => h₁.right_unique hs h₂
  rcases hm.path.total_of_right_unique hright hn.path with h | h
  · exact eq_of_path_of_not_moved h hb
  · exact (eq_of_path_of_not_moved h hc).symm

theorem Ends.injective (hd : L.DstInjective) (h : L.Ends a e) (h' : L.Ends b e)
    (ha : ¬ L.Target a) (hb : ¬ L.Target b) : a = b := by
  obtain ⟨⟨m, hm⟩, -⟩ := h
  obtain ⟨⟨n, hn⟩, -⟩ := h'
  exact (hm.start_unique hd hn ha hb).1

/-- `L'` is `L` with the entry `r ↦ t` behind it. -/
structure Extends (L L' : RedirectLog α) (r t : α) : Prop where
  size : L'.size = L.size + 1
  src_old : ∀ i < L.size, L'.src i = L.src i
  dst_old : ∀ i < L.size, L'.dst i = L.dst i
  src_new : L'.src L.size = r
  dst_new : L'.dst L.size = t

namespace Extends

theorem step (h : L.Extends L' r t) (hs : L.Step a b) : L'.Step a b := by
  obtain ⟨i, hi, ha, hb⟩ := hs
  have hi' : i < L'.size := by rw [h.size]; omega
  exact ⟨i, hi', (h.src_old i hi).trans ha, (h.dst_old i hi).trans hb⟩

theorem step_new (h : L.Extends L' r t) : L'.Step r t := by
  have hi : L.size < L'.size := by rw [h.size]; omega
  exact ⟨L.size, hi, h.src_new, h.dst_new⟩

theorem walk (h : L.Extends L' r t) {n : ℕ} (hw : L.Walk n a b) : L'.Walk n a b := by
  induction hw with
  | nil a => exact .nil a
  | snoc _ hs ih => exact ih.snoc (h.step hs)

theorem moved_iff (h : L.Extends L' r t) : L'.Moved a ↔ L.Moved a ∨ a = r := by
  constructor
  · intro ⟨i, hi, ha⟩
    rw [h.size] at hi
    by_cases hlt : i < L.size
    · exact .inl ⟨i, hlt, (h.src_old i hlt).symm.trans ha⟩
    · have hlast : i = L.size := by omega
      exact .inr (by rw [← ha, hlast, h.src_new])
  · intro hm
    rcases hm with hm | rfl
    · obtain ⟨i, hi, ha⟩ := hm
      have hi' : i < L'.size := by rw [h.size]; omega
      exact ⟨i, hi', (h.src_old i hi).trans ha⟩
    · exact h.step_new.moved

theorem srcInjective (h : L.Extends L' r t) (hs : L.SrcInjective) (hr : ¬ L.Moved r) :
    L'.SrcInjective := by
  have hnew : ∀ i < L.size, L'.src i ≠ r := fun i hi he => hr ⟨i, hi, by rw [← h.src_old i hi, he]⟩
  intro i hi j hj hij
  rw [h.size] at hi hj
  rcases Nat.lt_succ_iff_lt_or_eq.mp hi with hi | rfl <;>
    rcases Nat.lt_succ_iff_lt_or_eq.mp hj with hj | rfl
  · exact hs i hi j hj (by rw [← h.src_old i hi, ← h.src_old j hj, hij])
  · exact absurd (hij.trans h.src_new) (hnew i hi)
  · exact absurd (hij.symm.trans h.src_new) (hnew j hj)
  · rfl

/-- If `r` was an end and `t` is a fresh place, exactly the walks that ended in `r` now
end in `t`. -/

theorem ends [DecidableEq α] (h : L.Extends L' r t) (ht : ¬ L.Moved t) (hrt : t ≠ r)
    (he : L.Ends a e) : L'.Ends a (if e = r then t else e) := by
  obtain ⟨⟨n, hn⟩, hm⟩ := he
  split
  · rename_i her
    subst her
    refine ⟨⟨n + 1, (h.walk hn).snoc h.step_new⟩, ?_⟩
    rw [h.moved_iff]
    exact fun hmt => hmt.elim ht hrt
  · rename_i her
    refine ⟨⟨n, h.walk hn⟩, ?_⟩
    rw [h.moved_iff]
    exact fun hme => hme.elim hm her

end Extends
end RedirectLog
