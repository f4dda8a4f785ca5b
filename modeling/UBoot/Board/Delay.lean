import Mathlib.Tactic
import UBoot.Word

/-!
# Microsecond delay

`__udelay` reads a counter that counts down and wraps below zero. When the interval does not
reach zero, the loop ends at a value below the end of the interval, and the values between
there and zero are all it accepts: a counter that starts just above the interval leaves a
window that can lie between two reads.
-/
namespace UBoot.Board

/-- One tick of the counter. -/
def tick : ℕ → ℕ
  | 0 => 0xFFFFFFFF
  | n + 1 => n

/-- The counter `e` ticks after it was `val`. -/
def counter (val e : ℕ) : ℕ := tick^[e] val

theorem counter_succ (val e : ℕ) : counter val (e + 1) = tick (counter val e) :=
  Function.iterate_succ_apply' tick e val

theorem counter_of_le {val e : ℕ} (h : e ≤ val) : counter val e = val - e := by
  induction e with
  | zero => rfl
  | succ e ih =>
    obtain ⟨d, hd⟩ : ∃ d, val - e = d + 1 := ⟨val - e - 1, by omega⟩
    rw [counter_succ, ih (by omega), hd, tick]
    omega

theorem counter_of_lt {val e : ℕ} (h : val < e) (h' : e ≤ val + 2 ^ 32) :
    counter val e = val + 2 ^ 32 - e := by
  induction e with
  | zero => omega
  | succ e ih =>
    rw [counter_succ]
    rcases Nat.lt_or_ge val e with hlt | hge
    · obtain ⟨d, hd⟩ : ∃ d, val + 2 ^ 32 - e = d + 1 := ⟨val + 2 ^ 32 - e - 1, by omega⟩
      rw [ih hlt (by omega), hd, tick]
      omega
    · have he : e = val := by omega
      rw [counter_of_le hge, he, Nat.sub_self, tick]
      omega

/-- The ticks that elapsed before each read of the counter, since the first. -/
structure Schedule where
  elapsed : ℕ → ℕ
  first : elapsed 0 = 0
  apart : ∀ i, elapsed i + 1 ≤ elapsed (i + 1)
  close : ∀ i, elapsed (i + 1) ≤ elapsed i + 2 ^ 20

namespace Schedule
variable (s : Schedule)

theorem strictMono : StrictMono s.elapsed := strictMono_nat_of_lt_succ s.apart

/-- The first read after `n` ticks comes soon after them. -/
theorem exists_first {n : ℕ} (hn : 0 < n) :
    ∃ k, n ≤ s.elapsed k ∧ (∀ j < k, s.elapsed j < n) ∧ s.elapsed k < n + 2 ^ 20 := by
  have hex : ∃ k, n ≤ s.elapsed k := ⟨n, s.strictMono.le_apply⟩
  refine ⟨Nat.find hex, Nat.find_spec hex, fun j hj => not_le.mp (Nat.find_min hex hj), ?_⟩
  have hpos : Nat.find hex ≠ 0 := by
    intro h0
    have hle := Nat.find_spec hex
    rw [h0, s.first] at hle
    omega
  obtain ⟨k, hk⟩ := Nat.exists_eq_succ_of_ne_zero hpos
  have hprev : s.elapsed k < n := not_le.mp (Nat.find_min hex (by omega))
  have hclose := s.close k
  rw [hk, Nat.succ_eq_add_one]
  omega

end Schedule

/-- Read again while the value asks for it: the last read, or `none` if it is not among the
given number of reads. -/
def readWhile (again : ℕ → Bool) (read : ℕ → ℕ) : ℕ → ℕ → Option ℕ
  | 0, _ => none
  | fuel + 1, i => if again (read i) then readWhile again read fuel (i + 1) else some i

/-- `__udelay`, by the values it reads: the read after which it returns. -/
def udelay (read : ℕ → ℕ) (usec fuel : ℕ) : Option ℕ :=
  let span := u32 (usec * 13)
  let val := read 0
  if val > span then
    let val2 := val - span
    readWhile (fun val => decide (val ≥ val2)) read fuel 0
  else
    let val2 := 0xFFFFFFFF - (span - val)
    readWhile (fun val => decide (val < 0x80000000) || decide (val ≥ val2)) read fuel 0

section ReadWhile
variable {again : ℕ → Bool} {read : ℕ → ℕ}

theorem not_again_of_readWhile {fuel i k : ℕ} (h : readWhile again read fuel i = some k) :
    again (read k) = false := by
  induction fuel generalizing i with
  | zero => simp [readWhile] at h
  | succ fuel ih =>
    rw [readWhile] at h
    split at h
    · exact ih h
    · rename_i hagain
      rw [← Option.some.inj h]
      simpa using hagain

/-- The loop ends at a read that does not ask for another, or before. -/
theorem exists_readWhile {k i : ℕ} (hi : i ≤ k) (h : again (read k) = false) :
    ∃ fuel, ∃ j ≤ k, readWhile again read fuel i = some j := by
  induction hn : k - i generalizing i with
  | zero =>
    have hik : i = k := by omega
    exact ⟨1, i, hi, by rw [readWhile, hik, h]; rfl⟩
  | succ n ih =>
    obtain ⟨fuel, j, hj, heq⟩ := ih (i := i + 1) (by omega) (by omega)
    by_cases hagain : again (read i) = true
    · exact ⟨fuel + 1, j, hj, by rw [readWhile, if_pos hagain, heq]⟩
    · exact ⟨1, i, hi, by rw [readWhile, if_neg hagain]⟩

end ReadWhile

/-- The condition of the loop of `__udelay`, if it began at `val`. -/
def again (val span v : ℕ) : Bool :=
  if val > span then decide (v ≥ val - span)
  else decide (v < 0x80000000) || decide (v ≥ 0xFFFFFFFF - (span - val))

theorem udelay_eq (read : ℕ → ℕ) {usec : ℕ} (husec : 13 * usec < 2 ^ 30) (fuel : ℕ) :
    udelay read usec fuel = readWhile (again (read 0) (13 * usec)) read fuel 0 := by
  rw [udelay, u32_of_lt (by omega), Nat.mul_comm]
  dsimp only
  split
  · rename_i hval
    congr 1
    funext v
    rw [again, if_pos hval]
  · rename_i hval
    congr 1
    funext v
    rw [again, if_neg hval]

/-- Up to half a period on, the loop ends after the interval: before the counter wraps if it
began above the interval, and one tick later otherwise. -/
theorem again_counter_iff {val span e : ℕ} (hval : val < 2 ^ 32) (hspan : span < 2 ^ 30)
    (he : e ≤ 2 ^ 31) : again val span (counter val e) = false ↔
      if val > span then span < e ∧ e ≤ val else span + 1 < e := by
  unfold again
  split
  · rw [decide_eq_false_iff_not]
    rcases Nat.lt_or_ge val e with hlt | hge
    · rw [counter_of_lt hlt (by omega)]
      omega
    · rw [counter_of_le hge]
      omega
  · rw [Bool.or_eq_false_iff, decide_eq_false_iff_not, decide_eq_false_iff_not]
    rcases Nat.lt_or_ge val e with hlt | hge
    · rw [counter_of_lt hlt (by omega)]
      omega
    · rw [counter_of_le hge]
      omega

/-- The delay is not too short, and it ends with the first read that is due. -/
structure DelayRight (val usec : ℕ) (s : Schedule) : Prop where
  notBefore : ∀ fuel k, udelay (fun i => counter val (s.elapsed i)) usec fuel = some k →
    13 * usec ≤ s.elapsed k
  inTime : ∀ k, 13 * usec + 2 ≤ s.elapsed k →
    ∃ fuel, ∃ j ≤ k, udelay (fun i => counter val (s.elapsed i)) usec fuel = some j

section Delay
variable {val usec : ℕ} {s : Schedule}

theorem udelay_counter_eq (husec : 13 * usec < 2 ^ 30) (fuel : ℕ) :
    udelay (fun i => counter val (s.elapsed i)) usec fuel =
      readWhile (again val (13 * usec)) (fun i => counter val (s.elapsed i)) fuel 0 := by
  have hfirst : counter val (s.elapsed 0) = val := by
    rw [s.first]
    rfl
  rw [udelay_eq _ husec]
  simp only [hfirst]

/-- The delay is never too short. -/
theorem udelay_notBefore (hval : val < 2 ^ 32) (husec : 13 * usec < 2 ^ 30) {fuel k : ℕ}
    (h : udelay (fun i => counter val (s.elapsed i)) usec fuel = some k) :
    13 * usec ≤ s.elapsed k := by
  rw [udelay_counter_eq husec] at h
  have hleave := not_again_of_readWhile h
  by_contra hshort
  rw [again_counter_iff hval husec (by omega)] at hleave
  split at hleave <;> omega

/-- The loop ends with read `k` or before, if that read comes after the interval and, where
the counter began above the interval, before it wraps. -/
theorem udelay_of_read (hval : val < 2 ^ 32) (husec : 13 * usec < 2 ^ 30) {k : ℕ}
    (hk : s.elapsed k ≤ 2 ^ 31)
    (h : if val > 13 * usec then 13 * usec < s.elapsed k ∧ s.elapsed k ≤ val
      else 13 * usec + 1 < s.elapsed k) :
    ∃ fuel, ∃ j ≤ k, udelay (fun i => counter val (s.elapsed i)) usec fuel = some j := by
  have hleave : again val (13 * usec) (counter val (s.elapsed k)) = false :=
    (again_counter_iff hval husec hk).mpr h
  obtain ⟨fuel, j, hj, heq⟩ := @exists_readWhile (again val (13 * usec))
    (fun i => counter val (s.elapsed i)) k 0 (Nat.zero_le k) hleave
  exact ⟨fuel, j, hj, by rw [udelay_counter_eq husec, heq]⟩

/-- The delay is right exactly if the counter begins within the interval, or some read comes
after the interval and before the counter wraps. -/
theorem delayRight_iff (val usec : ℕ) (s : Schedule) (hval : val < 2 ^ 32)
    (husec : 13 * usec < 2 ^ 30) : DelayRight val usec s ↔
      val ≤ 13 * usec ∨ ∃ k, 13 * usec < s.elapsed k ∧ s.elapsed k ≤ val := by
  constructor
  · intro h
    by_cases hle : val ≤ 13 * usec
    · exact .inl hle
    obtain ⟨k, hafter, hbefore, hsoon⟩ := s.exists_first (n := 13 * usec + 1) (by omega)
    refine .inr ⟨k, by omega, ?_⟩
    by_contra hwrapped
    obtain ⟨fuel, j, hj, heq⟩ := h.inTime k (by omega)
    rw [udelay_counter_eq husec] at heq
    have hleave := not_again_of_readWhile heq
    have hmono : s.elapsed j ≤ s.elapsed k := s.strictMono.monotone hj
    rw [again_counter_iff hval husec (by omega), if_pos (by omega)] at hleave
    -- the loop ended within the window, but no read up to `k` lies there
    rcases Nat.lt_or_eq_of_le hj with hlt | rfl
    · have := hbefore j hlt
      omega
    · omega
  · intro h
    refine ⟨fun fuel k heq => udelay_notBefore hval husec heq, ?_⟩
    intro k hk
    rcases Nat.lt_or_ge (13 * usec) val with hlt | hge
    · obtain ⟨w, hafter, hwindow⟩ := h.resolve_left (by omega)
      obtain ⟨k₀, hafter₀, hbefore, hsoon⟩ := s.exists_first (n := 13 * usec + 1) (by omega)
      have hfirst : ∀ m, 13 * usec < s.elapsed m → k₀ ≤ m := by
        intro m hm
        by_contra hlate
        have := hbefore m (by omega)
        omega
      have hmono : s.elapsed k₀ ≤ s.elapsed w := s.strictMono.monotone (hfirst w hafter)
      obtain ⟨fuel, j, hj, heq⟩ := udelay_of_read (s := s) (k := k₀) hval husec (by omega)
        (by rw [if_pos hlt]; omega)
      exact ⟨fuel, j, hj.trans (hfirst k (by omega)), heq⟩
    · obtain ⟨k₀, hafter, hbefore, hsoon⟩ := s.exists_first (n := 13 * usec + 2) (by omega)
      have hfirst : k₀ ≤ k := by
        by_contra hlate
        have := hbefore k (by omega)
        omega
      obtain ⟨fuel, j, hj, heq⟩ := udelay_of_read (s := s) (k := k₀) hval husec (by omega)
        (by rw [if_neg (by omega)]; omega)
      exact ⟨fuel, j, hj.trans hfirst, heq⟩

/-- A read every ten ticks. -/
def everyTenTicks : Schedule := ⟨fun i => 10 * i, rfl, fun i => by omega, fun i => by omega⟩

/-- One microsecond, begun at 100: the reads at 20 and at 100 ticks end the wait in time. -/
theorem delayRight_from_100 : DelayRight 100 1 everyTenTicks :=
  (delayRight_iff 100 1 everyTenTicks (by decide) (by decide)).mpr
    (.inr ⟨2, by decide, by decide⟩)

/-- One microsecond, begun at 14: the reads come at 4 and then after the counter wrapped. -/
theorem delay_misses_window : ¬ DelayRight 14 1 everyTenTicks := by
  intro h
  obtain ⟨fuel, j, hj, heq⟩ := h.inTime 2 (by decide)
  rw [udelay_counter_eq (by decide)] at heq
  have hleave := not_again_of_readWhile heq
  have hnever : ∀ j ≤ 2, again 14 (13 * 1) (counter 14 (10 * j)) = true := by decide
  exact absurd hleave (by rw [Bool.not_eq_false]; exact hnever j hj)

end Delay
end UBoot.Board
