import Mathlib.NumberTheory.LucasPrimality
import Mathlib.Tactic

/-!
# Primes of the form `k * 2 ^ (j + 1) + 1`

Lucas's test for such numbers takes nothing but squarings after a small power, so that it
can be evaluated for numbers of a thousand bits.
-/
namespace Primality

/-- `b` squared `j` times, modulo `m`. -/
def squareMod (m : ℕ) : ℕ → ℕ → ℕ
  | 0, b => b % m
  | j + 1, b => squareMod m j (b * b % m)

theorem squareMod_eq (m j b : ℕ) : squareMod m j b = b ^ 2 ^ j % m := by
  induction j generalizing b with
  | zero => simp [squareMod]
  | succ j ih => rw [squareMod, ih, ← Nat.pow_mod, ← sq, ← pow_mul, pow_succ']

theorem cast_pow_eq_one_iff {p : ℕ} (hp : 1 < p) (a c j : ℕ) :
    (a : ZMod p) ^ (c * 2 ^ j) = 1 ↔ squareMod p j (a ^ c) = 1 := by
  have hmod : ((a ^ (c * 2 ^ j) : ℕ) : ZMod p) = ((1 : ℕ) : ZMod p) ↔
      a ^ (c * 2 ^ j) % p = 1 % p := ZMod.natCast_eq_natCast_iff' _ _ p
  rw [Nat.mod_eq_of_lt hp] at hmod
  rw [squareMod_eq, ← pow_mul, ← hmod]
  simp

/-- Lucas's test. -/
theorem prime_of_squareMod {p k j : ℕ} (a : ℕ) (hk : 0 < k) (hp : p = k * 2 ^ (j + 1) + 1)
    (hone : squareMod p (j + 1) (a ^ k) = 1) (htwo : squareMod p j (a ^ k) ≠ 1)
    (hodd : ∀ q, q.Prime → q ∣ k → squareMod p (j + 1) (a ^ (k / q)) ≠ 1) : p.Prime := by
  have hlt : 1 < p := by
    have := Nat.mul_pos hk (Nat.two_pow_pos (j + 1))
    omega
  have hpred : p - 1 = k * 2 ^ (j + 1) := by omega
  apply lucas_primality p a
  · rw [hpred]
    exact (cast_pow_eq_one_iff hlt a k (j + 1)).mpr hone
  · intro q hq hdvd
    rw [hpred] at hdvd ⊢
    rcases hq.dvd_mul.mp hdvd with hqk | hqtwo
    · rw [Nat.mul_div_right_comm hqk, Ne, cast_pow_eq_one_iff hlt]
      exact hodd q hq hqk
    · obtain rfl : q = 2 := (Nat.prime_dvd_prime_iff_eq hq Nat.prime_two).mp
        (hq.dvd_of_dvd_pow hqtwo)
      rw [pow_succ, ← Nat.mul_assoc, Nat.mul_div_cancel _ (by norm_num), Ne,
        cast_pow_eq_one_iff hlt]
      exact htwo

end Primality
