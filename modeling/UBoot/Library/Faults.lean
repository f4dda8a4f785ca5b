import Mathlib.Data.Finset.Basic
import Mathlib.Logic.Function.Basic
import Mathlib.Tactic

/-!
# Memories with faults

A memory is a map from addresses to cells, which may send two addresses to one cell, and for
each cell what its content reads as. Filling a range leaves in a cell the last value of the
addresses that share it.
-/
namespace FaultyMemory

/-- The cell of each address, and what the content of a cell reads as. -/
structure Memory (α κ : Type*) (w : ℕ) where
  decode : α → κ
  sense : κ → BitVec w → BitVec w

variable {α κ : Type*} {w : ℕ} [DecidableEq κ] (m : Memory α κ w)

/-- Writing an address changes its cell. -/
def Memory.write (a : α) (v : BitVec w) (s : κ → BitVec w) : κ → BitVec w :=
  Function.update s (m.decode a) v

def Memory.read (a : α) (s : κ → BitVec w) : BitVec w := m.sense (m.decode a) (s (m.decode a))

/-- The values of `v` written to the first `n` addresses of `addr`, in order. -/
def Memory.fill (addr : ℕ → α) (v : ℕ → BitVec w) : ℕ → (κ → BitVec w) → κ → BitVec w
  | 0, s => s
  | n + 1, s => m.write (addr n) (v n) (Memory.fill addr v n s)

/-- Two addresses below `n` never share a cell. -/
def Memory.Distinct (addr : ℕ → α) (n : ℕ) : Prop :=
  ∀ i < n, ∀ j < n, m.decode (addr i) = m.decode (addr j) → i = j

theorem write_self (a : α) (v : BitVec w) (s : κ → BitVec w) :
    m.write a v s (m.decode a) = v := Function.update_self ..

theorem write_of_ne {a : α} {c : κ} (h : c ≠ m.decode a) (v : BitVec w) (s : κ → BitVec w) :
    m.write a v s c = s c := Function.update_of_ne h ..

theorem read_write_self (a : α) (v : BitVec w) (s : κ → BitVec w) :
    m.read a (m.write a v s) = m.sense (m.decode a) v := by
  rw [Memory.read, write_self]

theorem read_write_of_ne {a b : α} (h : m.decode a ≠ m.decode b) (v : BitVec w)
    (s : κ → BitVec w) : m.read a (m.write b v s) = m.read a s := by
  rw [Memory.read, write_of_ne m h, Memory.read]

/-- The cell of an address holds the value of the last address that shares it. -/
theorem fill_eq_last (addr : ℕ → α) (v : ℕ → BitVec w) (s : κ → BitVec w) {n i : ℕ} (h : i < n) :
    ∃ j, i ≤ j ∧ j < n ∧ m.decode (addr j) = m.decode (addr i) ∧
      m.fill addr v n s (m.decode (addr i)) = v j := by
  induction n with
  | zero => omega
  | succ n ih =>
    by_cases hlast : m.decode (addr n) = m.decode (addr i)
    · exact ⟨n, by omega, by omega, hlast, by rw [Memory.fill, ← hlast, write_self]⟩
    · have hi : i < n := by
        rcases Nat.lt_succ_iff_lt_or_eq.mp h with hi | rfl
        · exact hi
        · exact absurd rfl hlast
      obtain ⟨j, hij, hjn, hcell, hval⟩ := ih hi
      exact ⟨j, hij, by omega, hcell, by
        rw [Memory.fill, write_of_ne m (Ne.symm hlast), hval]⟩

/-- Where no two addresses share a cell, each cell holds the value of its own address. -/
theorem fill_of_distinct {addr : ℕ → α} {n : ℕ} (hd : m.Distinct addr n) (v : ℕ → BitVec w)
    (s : κ → BitVec w) {i : ℕ} (h : i < n) : m.fill addr v n s (m.decode (addr i)) = v i := by
  obtain ⟨j, -, hjn, hcell, hval⟩ := fill_eq_last m addr v s h
  rw [hval, hd j hjn i h hcell]

/-- Different values read back as they were written only if no two addresses share a cell. -/
theorem distinct_of_fill {addr : ℕ → α} {n : ℕ} {v : ℕ → BitVec w}
    (hv : ∀ i < n, ∀ j < n, v i = v j → i = j) (s : κ → BitVec w)
    (h : ∀ i < n, m.fill addr v n s (m.decode (addr i)) = v i) : m.Distinct addr n := by
  have hlast : ∀ i < n, ∀ j < n, m.decode (addr i) = m.decode (addr j) → v i = v j := by
    intro i hi j hj hcell
    rw [← h i hi, ← h j hj, hcell]
  exact fun i hi j hj hcell => hv i hi j hj (hlast i hi j hj hcell)

/-- A content with the bits of `low` stuck at 0 and then those of `high` at 1. -/
def stuck (low high : BitVec w) (v : BitVec w) : BitVec w := (v &&& ~~~low) ||| high

theorem stuck_zero (v : BitVec w) : stuck 0 0 v = v := by simp [stuck]

/-- Stuck bits show when all zeros and all ones are read back. -/
theorem stuck_bits {low high : BitVec w} (h0 : stuck low high 0 = 0)
    (h1 : stuck low high (BitVec.allOnes w) = BitVec.allOnes w) : low = 0 ∧ high = 0 := by
  have hhigh : high = 0 := by simpa [stuck] using h0
  subst hhigh
  have hlow : ~~~low = BitVec.allOnes w := by simpa [stuck] using h1
  refine ⟨?_, rfl⟩
  have := congrArg (fun x => ~~~x) hlow
  simpa using this

/-- What a data line carries: the conjunction of some lines, as bridged lines do and a line
stuck at 1 does of none, or their disjunction. -/
structure Line (w : ℕ) where
  conj : Bool
  lines : Finset (Fin w)

def Line.value (l : Line w) (v : BitVec w) : Bool :=
  if l.conj then decide (∀ j ∈ l.lines, v[j] = true) else decide (∃ j ∈ l.lines, v[j] = true)

/-- A word read over lines. -/
def overLines (ls : Fin w → Line w) (v : BitVec w) : BitVec w :=
  (BitVec.ofBoolListLE (List.ofFn fun i => (ls i).value v)).setWidth w

theorem getElem_overLines (ls : Fin w → Line w) (v : BitVec w) (i : Fin w) :
    (overLines ls v)[i] = (ls i).value v := by
  rw [overLines, Fin.getElem_fin, BitVec.getElem_setWidth, BitVec.getLsbD_ofBoolListLE]
  simp

/-- A set of words that tells any two lines apart, in both directions. -/
def Separating (ps : List (BitVec w)) : Prop :=
  (∀ i : Fin w, (∃ p ∈ ps, p[i] = true) ∧ ∃ p ∈ ps, p[i] = false) ∧
    ∀ i j : Fin w, i ≠ j → ∃ p ∈ ps, p[i] = true ∧ p[j] = false

/-- The test of separation, bit by bit. -/
def separates (ps : List (BitVec w)) : Bool :=
  (List.range w).all fun i =>
    ps.any (fun p => p.toNat.testBit i) && ps.any (fun p => !p.toNat.testBit i) &&
      (List.range w).all fun j =>
        i == j || ps.any fun p => p.toNat.testBit i && !p.toNat.testBit j

theorem separating_of_separates {ps : List (BitVec w)} (h : separates ps = true) :
    Separating ps := by
  have hbit (p : BitVec w) (i : Fin w) : p.toNat.testBit i = p[i] := by
    rw [Fin.getElem_fin, ← BitVec.getLsbD_eq_getElem]
    rfl
  rw [separates, List.all_eq_true] at h
  have hall (i : Fin w) := h i (List.mem_range.mpr i.isLt)
  simp only [Bool.and_eq_true, List.any_eq_true, List.all_eq_true, hbit, Bool.not_eq_true'] at hall
  refine ⟨fun i => (hall i).1, fun i j hij => ?_⟩
  have hj := (hall i).2 j (List.mem_range.mpr j.isLt)
  simp only [Bool.or_eq_true, beq_iff_eq, List.any_eq_true, Bool.and_eq_true, hbit,
    Bool.not_eq_true'] at hj
  exact hj.resolve_left fun h => hij (Fin.ext h)

/-- Every line carries its own bit. -/
def OwnLines (ls : Fin w → Line w) : Prop := ∀ i, (ls i).lines = {i}

theorem value_own {l : Line w} {i : Fin w} (h : l.lines = {i}) (v : BitVec w) :
    l.value v = v[i] := by
  unfold Line.value
  split_ifs
  · simp [h]
  · simp [h]

theorem overLines_own {ls : Fin w → Line w} (h : OwnLines ls) (v : BitVec w) :
    overLines ls v = v := by
  apply BitVec.eq_of_getElem_eq
  intro i hi
  have hline := getElem_overLines ls v ⟨i, hi⟩
  rw [value_own (h ⟨i, hi⟩)] at hline
  exact hline

/-- A line that repeats its bit of every word of a separating set carries its own bit only. -/
theorem lines_eq_singleton {ps : List (BitVec w)} (hps : Separating ps) {l : Line w} {i : Fin w}
    (h : ∀ p ∈ ps, l.value p = p[i]) : l.lines = {i} := by
  obtain ⟨⟨⟨p, hp, hp1⟩, q, hq, hq0⟩, hsep⟩ := (⟨hps.1 i, hps.2⟩ : _ ∧ _)
  have hother : ∀ j ∈ l.lines, j = i := by
    intro j hj
    by_contra hne
    cases hconj : l.conj with
    | true =>
      obtain ⟨r, hr, hri, hrj⟩ := hsep i j (Ne.symm hne)
      have hval : l.value r = true := by rw [h r hr, hri]
      rw [Line.value, if_pos hconj, decide_eq_true_iff] at hval
      exact absurd (hval j hj) (by simp [hrj])
    | false =>
      obtain ⟨r, hr, hrj, hri⟩ := hsep j i hne
      have hval : l.value r = false := by rw [h r hr, hri]
      rw [Line.value, if_neg (by simp [hconj]), decide_eq_false_iff_not] at hval
      exact hval ⟨j, hj, hrj⟩
  have hself : i ∈ l.lines := by
    by_contra hnot
    have hnone : l.lines = ∅ := by
      apply Finset.eq_empty_of_forall_notMem
      intro j hj
      exact hnot (hother j hj ▸ hj)
    cases hconj : l.conj with
    | true =>
      have hval : l.value q = false := by rw [h q hq, hq0]
      simp [Line.value, hconj, hnone] at hval
    | false =>
      have hval : l.value p = true := by rw [h p hp, hp1]
      simp [Line.value, hconj, hnone] at hval
  ext j
  rw [Finset.mem_singleton]
  exact ⟨hother j, fun hj => hj ▸ hself⟩

/-- Lines that carry every word of a separating set carry every word. -/
theorem ownLines_iff {ps : List (BitVec w)} (hps : Separating ps) (ls : Fin w → Line w) :
    (∀ p ∈ ps, overLines ls p = p) ↔ OwnLines ls := by
  constructor
  · intro h i
    refine lines_eq_singleton hps fun p hp => ?_
    have hbit := congrArg (fun v : BitVec w => v[i]) (h p hp)
    rwa [getElem_overLines] at hbit
  · exact fun h p _ => overLines_own h p

end FaultyMemory
