import UBoot.Word

/-!
# 64-bit division

`__div64_32` of `lib/div64.c` divides a 64-bit number by a 32-bit one by shifts and
subtractions, after a 32-bit division has taken off the high word. `do_div` calls it when the
number has a high word at all.
-/
namespace UBoot.Text

/-- The first loop of `__div64_32`: `b` and `d` are doubled while `b` is below `rem` and its
top bit is clear. -/
def scaleUp (rem b d : ℕ) : ℕ × ℕ :=
  if 0 < b ∧ b < 2 ^ 63 ∧ b < rem then scaleUp rem (u64 (b + b)) (u64 (d + d)) else (b, d)
termination_by 2 ^ 64 - b
decreasing_by
  have hdouble : u64 (b + b) = b + b := u64_of_lt (by omega)
  omega

/-- The second loop: the subtractions, down to `d = 1`. -/
def subtractDown (res rem b d : ℕ) : ℕ × ℕ :=
  let rem' := if b ≤ rem then rem - b else rem
  let res' := if b ≤ rem then u64 (res + d) else res
  if d >>> 1 ≠ 0 then subtractDown res' rem' (b >>> 1) (d >>> 1) else (res', rem')
termination_by d
decreasing_by
  rw [Nat.shiftRight_eq_div_pow] at *
  omega

/-- `__div64_32`: the quotient, left in `*n`, and the remainder returned. -/
def div64_32 (n base : ℕ) : ℕ × ℕ :=
  let high := n >>> 32
  let res := if base ≤ high then high / base * 2 ^ 32 else 0
  let rem := if base ≤ high then n - u32 (high / base * base) * 2 ^ 32 else n
  let (b, d) := scaleUp rem base 1
  subtractDown res rem b d

/-- `do_div`: the quotient, left in `n`, and the remainder. -/
def doDiv (n base : ℕ) : ℕ × ℕ :=
  if n >>> 32 = 0 then (n / base, n % base) else div64_32 n base

section
variable {rem base : ℕ}

/-- The doublings keep `b` a multiple of the base by a power of two, and end above half of
the remainder. -/
theorem scaleUp_spec (hrem : rem < 2 ^ 64) (hbase : 0 < base) :
    ∀ k, base * 2 ^ k < 2 ^ 64 → ∃ m, scaleUp rem (base * 2 ^ k) (2 ^ k) = (base * 2 ^ m, 2 ^ m) ∧
      base * 2 ^ m < 2 ^ 64 ∧ rem < 2 * (base * 2 ^ m) := by
  intro k hk
  by_cases h : 0 < base * 2 ^ k ∧ base * 2 ^ k < 2 ^ 63 ∧ base * 2 ^ k < rem
  · have hpow : 2 ^ k ≤ base * 2 ^ k := Nat.le_mul_of_pos_left _ hbase
    have hb : u64 (base * 2 ^ k + base * 2 ^ k) = base * 2 ^ (k + 1) := by
      rw [u64_of_lt (by omega), pow_succ]
      ring
    have hd : u64 (2 ^ k + 2 ^ k) = 2 ^ (k + 1) := by
      rw [u64_of_lt (by omega), pow_succ]
      ring
    have hk' : base * 2 ^ (k + 1) < 2 ^ 64 := by
      rw [pow_succ, ← mul_assoc]
      omega
    obtain ⟨m, hm, hlt, hhalf⟩ := scaleUp_spec hrem hbase (k + 1) hk'
    exact ⟨m, by rw [scaleUp, if_pos h, hb, hd, hm], hlt, hhalf⟩
  · refine ⟨k, by rw [scaleUp, if_neg h], hk, ?_⟩
    have hpos : 0 < base * 2 ^ k := Nat.mul_pos hbase (by positivity)
    omega
termination_by k => 2 ^ 64 - base * 2 ^ k
decreasing_by
  have hdouble : base * 2 ^ (k + 1) = 2 * (base * 2 ^ k) := by ring
  omega

/-- Each subtraction leaves a remainder below twice the next `b`, so the last one leaves the
remainder by the base. -/
theorem subtractDown_spec (hbase : 0 < base) (m : ℕ) (res rem : ℕ)
    (hrem : rem < 2 * (base * 2 ^ m)) (hres : res + rem / base < 2 ^ 64) :
    subtractDown res rem (base * 2 ^ m) (2 ^ m) = (res + rem / base, rem % base) := by
  induction m generalizing res rem with
  | zero =>
    rw [subtractDown, if_neg (by decide)]
    simp only [pow_zero, mul_one] at hrem ⊢
    by_cases h : base ≤ rem
    · have hdiv : rem / base = 1 := Nat.div_eq_of_lt_le (by omega) (by omega)
      have hmod : rem % base = rem - base := by
        rw [Nat.mod_eq_sub_mod h, Nat.mod_eq_of_lt (by omega)]
      rw [if_pos h, if_pos h, hdiv, hmod, u64_of_lt (by omega)]
    · rw [if_neg h, if_neg h, Nat.div_eq_of_lt (by omega), Nat.mod_eq_of_lt (by omega), add_zero]
  | succ m ih =>
    have hb : (base * 2 ^ (m + 1)) >>> 1 = base * 2 ^ m := by
      rw [Nat.shiftRight_eq_div_pow, pow_succ, ← mul_assoc, pow_one,
        Nat.mul_div_cancel _ (by norm_num)]
    have hd : (2 ^ (m + 1)) >>> 1 = 2 ^ m := by
      rw [Nat.shiftRight_eq_div_pow, pow_succ, pow_one, Nat.mul_div_cancel _ (by norm_num)]
    have hne : (2 ^ (m + 1)) >>> 1 ≠ 0 := by
      rw [hd]
      positivity
    have hdouble : base * 2 ^ (m + 1) = 2 * (base * 2 ^ m) := by ring
    rw [subtractDown, if_pos hne, hb, hd]
    by_cases h : base * 2 ^ (m + 1) ≤ rem
    · have hsub : rem - base * 2 ^ (m + 1) < 2 * (base * 2 ^ m) := by omega
      have hsplit : rem = rem - base * 2 ^ (m + 1) + base * 2 ^ (m + 1) := by omega
      have hdiv : rem / base = (rem - base * 2 ^ (m + 1)) / base + 2 ^ (m + 1) := by
        conv_lhs => rw [hsplit]
        exact Nat.add_mul_div_left _ _ hbase
      have hmod : rem % base = (rem - base * 2 ^ (m + 1)) % base := by
        conv_lhs => rw [hsplit]
        exact Nat.add_mul_mod_self_left _ _ _
      have hres' : res + 2 ^ (m + 1) + (rem - base * 2 ^ (m + 1)) / base < 2 ^ 64 := by omega
      have hfit : res + 2 ^ (m + 1) < 2 ^ 64 := by
        have := Nat.le_add_right (res + 2 ^ (m + 1)) ((rem - base * 2 ^ (m + 1)) / base)
        exact this.trans_lt hres'
      rw [if_pos h, if_pos h, u64_of_lt hfit, ih _ _ hsub hres', hdiv, hmod]
      congr 1
      omega
    · rw [if_neg h, if_neg h, ih _ _ (by omega) hres]

end

/-- The software division is the division, for every 64-bit number and every divisor of 32
bits other than zero. -/
theorem div64_32_eq {n base : ℕ} (hn : n < 2 ^ 64) (hbase : 0 < base) (hbase' : base < 2 ^ 32) :
    div64_32 n base = (n / base, n % base) := by
  have hhigh : n >>> 32 = n / 2 ^ 32 := Nat.shiftRight_eq_div_pow n 32
  have hle : n / 2 ^ 32 / base * base ≤ n / 2 ^ 32 := Nat.div_mul_le_self _ _
  have hword : n / 2 ^ 32 < 2 ^ 32 := by omega
  -- what the first division leaves in `res` and `rem`
  obtain ⟨res, rem, hparts, hsum, hrem⟩ : ∃ res rem, div64_32 n base =
      subtractDown res rem (scaleUp rem base 1).1 (scaleUp rem base 1).2 ∧
      n = base * res + rem ∧ rem < 2 ^ 64 := by
    by_cases h : base ≤ n / 2 ^ 32
    · refine ⟨n / 2 ^ 32 / base * 2 ^ 32, n - n / 2 ^ 32 / base * base * 2 ^ 32, ?_, ?_, by omega⟩
      · rw [div64_32, hhigh, if_pos h, if_pos h, u32_of_lt (by omega)]
      · have hcomm : base * (n / 2 ^ 32 / base * 2 ^ 32) = n / 2 ^ 32 / base * base * 2 ^ 32 := by
          ring
        omega
    · refine ⟨0, n, ?_, by omega, hn⟩
      rw [div64_32, hhigh, if_neg h, if_neg h]
  obtain ⟨m, hm, -, hhalf⟩ := scaleUp_spec hrem hbase 0 (by omega)
  simp only [pow_zero, mul_one] at hm
  have hdiv : n / base = res + rem / base := by
    rw [hsum, Nat.mul_add_div hbase]
  have hmod : n % base = rem % base := by
    rw [hsum, Nat.mul_add_mod]
  have hquot : n / base ≤ n := Nat.div_le_self _ _
  rw [hparts, hm, subtractDown_spec hbase m res rem hhalf (by omega), hdiv, hmod]

theorem doDiv_eq {n base : ℕ} (hn : n < 2 ^ 64) (hbase : 0 < base) (hbase' : base < 2 ^ 32) :
    doDiv n base = (n / base, n % base) := by
  unfold doDiv
  split_ifs
  · rfl
  · exact div64_32_eq hn hbase hbase'

end UBoot.Text
