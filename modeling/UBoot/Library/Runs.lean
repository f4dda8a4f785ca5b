import Mathlib.Tactic

/-!
# Maximal runs

The runs of a predicate on the positions below a bound that cannot be extended, and the
first of the longest intervals of a family. Two different runs have a gap between them, so
that a scan from the left meets one after the other and can keep the best one it has met.
-/
namespace Runs

/-- From `a` to `b` the predicate holds, and at neither side the run goes on. -/
structure IsRun (p : ℕ → Prop) (n a b : ℕ) : Prop where
  le : a ≤ b
  lt : b < n
  holds : ∀ i, a ≤ i → i ≤ b → p i
  left : ∀ i, i + 1 = a → ¬ p i
  right : b + 1 < n → ¬ p (b + 1)

/-- A run of at least `m` positions. -/
def LongRun (p : ℕ → Prop) (n m a b : ℕ) : Prop := IsRun p n a b ∧ a + m ≤ b + 1

/-- The first of the longest intervals of a family. -/
def FirstLongest (R : ℕ → ℕ → Prop) (a b : ℕ) : Prop :=
  R a b ∧ ∀ a' b', R a' b' → b' + a < b + a' ∨ (b' + a = b + a' ∧ a ≤ a')

section Runs
variable {p : ℕ → Prop} {n m a b a' b' : ℕ}

/-- Two runs are one and the same, or one ends before the other begins. -/
theorem IsRun.eq_or_apart (h : IsRun p n a b) (h' : IsRun p n a' b') :
    (a = a' ∧ b = b') ∨ b < a' ∨ b' < a := by
  by_cases hapart : b < a' ∨ b' < a
  · exact .inr hapart
  · have hstart : a = a' := by
      rcases Nat.lt_trichotomy a a' with hlt | heq | hgt
      · exact absurd (h.holds (a' - 1) (by omega) (by omega)) (h'.left _ (by omega))
      · exact heq
      · exact absurd (h'.holds (a - 1) (by omega) (by omega)) (h.left _ (by omega))
    have hstop : b = b' := by
      have hlt := h.lt
      have hlt' := h'.lt
      rcases Nat.lt_trichotomy b b' with hless | heq | hgt
      · exact absurd (h'.holds (b + 1) (by omega) (by omega)) (h.right (by omega))
      · exact heq
      · exact absurd (h.holds (b' + 1) (by omega) (by omega)) (h'.right (by omega))
    exact .inl ⟨hstart, hstop⟩

/-- Every position where the predicate holds has a first one before it from which on it does. -/
theorem exists_left {i : ℕ} (hi : p i) :
    ∃ a, a ≤ i ∧ (∀ k, a ≤ k → k ≤ i → p k) ∧ ∀ k, k + 1 = a → ¬ p k := by
  induction i with
  | zero =>
    refine ⟨0, le_rfl, fun k _ hk => ?_, fun k hk => absurd hk (by omega)⟩
    rw [Nat.le_zero.1 hk]
    exact hi
  | succ i ih =>
    by_cases hp : p i
    · obtain ⟨a, hle, hall, hleft⟩ := ih hp
      refine ⟨a, by omega, fun k hak hk => ?_, hleft⟩
      rcases Nat.lt_or_eq_of_le hk with hlt | heq
      · exact hall k hak (by omega)
      · rw [heq]
        exact hi
    · refine ⟨i + 1, le_rfl, fun k hak hk => ?_, fun k hk => ?_⟩
      · rw [le_antisymm hk hak]
        exact hi
      · rw [Nat.succ_injective hk]
        exact hp

end Runs

section FirstLongest
variable {R R' : ℕ → ℕ → Prop} {a b a' b' n : ℕ}

theorem FirstLongest.congr (h : FirstLongest R a b) (hR : ∀ a b, R a b ↔ R' a b) :
    FirstLongest R' a b :=
  ⟨(hR a b).1 h.1, fun x y hxy => h.2 x y ((hR x y).2 hxy)⟩

theorem FirstLongest.unique (h : FirstLongest R a b) (h' : FirstLongest R a' b') :
    a = a' ∧ b = b' := by
  have hone := h.2 a' b' h'.1
  have hother := h'.2 a b h.1
  omega

/-- A later interval that is longer than the best one takes its place. -/
theorem FirstLongest.longer (h : FirstLongest R a b) (hlong : b + a' < b' + a)
    (hR : ∀ x y, R' x y ↔ R x y ∨ (x = a' ∧ y = b')) : FirstLongest R' a' b' := by
  refine ⟨(hR a' b').2 (.inr ⟨rfl, rfl⟩), fun x y hxy => ?_⟩
  rcases (hR x y).1 hxy with hold | ⟨rfl, rfl⟩
  · have := h.2 x y hold
    omega
  · exact .inr ⟨rfl, le_rfl⟩

/-- A later interval that is not longer leaves the best one in place. -/
theorem FirstLongest.kept (h : FirstLongest R a b) (hlong : b' + a ≤ b + a') (hlater : a ≤ a')
    (hR : ∀ x y, R' x y ↔ R x y ∨ (x = a' ∧ y = b')) : FirstLongest R' a b := by
  refine ⟨(hR a b).2 (.inl h.1), fun x y hxy => ?_⟩
  rcases (hR x y).1 hxy with hold | ⟨rfl, rfl⟩
  · exact h.2 x y hold
  · omega

/-- Among intervals below a bound there is a first longest one. -/
theorem exists_firstLongest (hbound : ∀ a b, R a b → a ≤ b ∧ b < n) (h : R a b) :
    ∃ x y, FirstLongest R x y := by
  classical
  -- the greatest length first, then the least start of that length
  let P (len : ℕ) : Prop := ∃ x, R x (x + len)
  have hP : P (b - a) := ⟨a, by rwa [Nat.add_sub_cancel' (hbound a b h).1]⟩
  have hle : b - a ≤ n := by have := hbound a b h; omega
  have hgreatest : P (Nat.findGreatest P n) := Nat.findGreatest_spec hle hP
  refine ⟨Nat.find hgreatest, _, Nat.find_spec hgreatest, fun a' b' h' => ?_⟩
  have hb' := hbound a' b' h'
  have hlen : b' - a' ≤ Nat.findGreatest P n :=
    Nat.le_findGreatest (by omega) ⟨a', by rwa [Nat.add_sub_cancel' hb'.1]⟩
  rcases Nat.lt_or_eq_of_le hlen with hlt | heq
  · left
    omega
  · right
    refine ⟨by omega, Nat.find_min' hgreatest ?_⟩
    rwa [← heq, Nat.add_sub_cancel' hb'.1]

end FirstLongest

end Runs
