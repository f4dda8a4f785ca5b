import Mathlib.Tactic
import Mathlib.FieldTheory.Finite.Basic

/-!
# Montgomery forms and the RSA identity

A number `x` stands for `a` when it is congruent to `a * R` modulo `n`. A product that is
divided by `R` keeps the form, a product by a plain number leaves it. The division may be
done digit by digit while the digits of one factor are taken up. The last section is the
identity that makes a public exponent undo a private one.
-/
namespace Montgomery

variable {n R : ℕ}

/-- `x` stands for `a` modulo `n`. -/
def Rep (n R x a : ℕ) : Prop := x ≡ a * R [MOD n]

theorem Rep.of_square (hcop : n.Coprime R) {x a rr : ℕ} (hrr : rr ≡ R * R [MOD n])
    (hx : R * x ≡ a * rr [MOD n]) : Rep n R x a := by
  apply Nat.ModEq.cancel_left_of_coprime hcop
  calc R * x ≡ a * rr [MOD n] := hx
    _ ≡ a * (R * R) [MOD n] := hrr.mul_left a
    _ = R * (a * R) := by ring

theorem Rep.mul (hcop : n.Coprime R) {x y z a b : ℕ} (hx : Rep n R x a) (hy : Rep n R y b)
    (hz : R * z ≡ x * y [MOD n]) : Rep n R z (a * b) := by
  apply Nat.ModEq.cancel_left_of_coprime hcop
  calc R * z ≡ x * y [MOD n] := hz
    _ ≡ (a * R) * (b * R) [MOD n] := Nat.ModEq.mul hx hy
    _ = R * (a * b * R) := by ring

theorem Rep.mul_plain (hcop : n.Coprime R) {x y z a : ℕ} (hx : Rep n R x a)
    (hz : R * z ≡ x * y [MOD n]) : z ≡ a * y [MOD n] := by
  apply Nat.ModEq.cancel_left_of_coprime hcop
  calc R * z ≡ x * y [MOD n] := hz
    _ ≡ (a * R) * y [MOD n] := Nat.ModEq.mul_right y hx
    _ = R * (a * y) := by ring

/-- Taking up the digits of `as` one by one, with a division by the base after each, gives
the product divided by as many bases. -/
theorem foldl_step {σ : Type*} (β : ℕ) {b : ℕ} (value : σ → ℕ) (Ok : σ → Prop) (step : σ → ℕ → σ)
    {as : List ℕ} (hok : ∀ c, ∀ a ∈ as, Ok c → Ok (step c a))
    (hstep : ∀ c, ∀ a ∈ as, Ok c → β * value (step c a) ≡ a * b + value c [MOD n]) {c : σ}
    (hc : Ok c) : Ok (as.foldl step c) ∧
      β ^ as.length * value (as.foldl step c) ≡ Nat.ofDigits β as * b + value c [MOD n] := by
  induction as generalizing c with
  | nil =>
    refine ⟨hc, ?_⟩
    simp [Nat.ModEq.refl]
  | cons a as ih =>
    have hmem : a ∈ a :: as := List.mem_cons_self ..
    obtain ⟨hfinal, hih⟩ := ih (fun c x hx => hok c x (List.mem_cons_of_mem a hx))
      (fun c x hx => hstep c x (List.mem_cons_of_mem a hx)) (hok c a hmem hc)
    refine ⟨hfinal, ?_⟩
    rw [List.foldl_cons, List.length_cons, Nat.ofDigits_cons]
    calc β ^ (as.length + 1) * value (as.foldl step (step c a))
        = β * (β ^ as.length * value (as.foldl step (step c a))) := by ring
      _ ≡ β * (Nat.ofDigits β as * b + value (step c a)) [MOD n] := hih.mul_left β
      _ = β * Nat.ofDigits β as * b + β * value (step c a) := by ring
      _ ≡ β * Nat.ofDigits β as * b + (a * b + value c) [MOD n] :=
          Nat.ModEq.add_left _ (hstep c a hmem hc)
      _ = (a + β * Nat.ofDigits β as) * b + value c := by ring

/-- The multiple of the modulus that makes the lowest digit vanish. -/
theorem low_digit_zero {β n₀ n₀inv : ℕ} (hinv : β ∣ n₀inv * n₀ + 1) (a : ℕ) :
    (a % β * n₀inv % β * n₀ + a % β) % β = 0 := by
  obtain ⟨k, hk⟩ := hinv
  have hmul : a % β * n₀inv % β * n₀ + a % β ≡ a % β * n₀inv * n₀ + a % β [MOD β] :=
    Nat.ModEq.add_right _ ((Nat.mod_modEq _ _).mul_right n₀)
  have hdvd : a % β * n₀inv * n₀ + a % β = β * (a % β * k) := by
    calc a % β * n₀inv * n₀ + a % β = a % β * (n₀inv * n₀ + 1) := by ring
      _ = β * (a % β * k) := by rw [hk]; ring
  rw [hmul, hdvd, Nat.mul_mod_right]

theorem pow_modEq_self_of_prime {p k : ℕ} (hp : p.Prime) (hk : 1 ≤ k) (hdvd : (p - 1) ∣ (k - 1))
    (x : ℕ) : x ^ k ≡ x [MOD p] := by
  obtain ⟨m, hm⟩ := hdvd
  have hk' : k = (p - 1) * m + 1 := by omega
  by_cases hx : p ∣ x
  · have hzero : x ≡ 0 [MOD p] := (Nat.modEq_zero_iff_dvd).mpr hx
    calc x ^ k ≡ 0 ^ k [MOD p] := hzero.pow k
      _ = 0 := Nat.zero_pow (by omega)
      _ ≡ x [MOD p] := hzero.symm
  · have hcop : x.Coprime p := ((Nat.Prime.coprime_iff_not_dvd hp).mpr hx).symm
    have hone : x ^ (p - 1) ≡ 1 [MOD p] := by
      have := Nat.ModEq.pow_totient hcop
      rwa [Nat.totient_prime hp] at this
    calc x ^ k = (x ^ (p - 1)) ^ m * x := by rw [hk', pow_succ, pow_mul]
      _ ≡ 1 ^ m * x [MOD p] := (hone.pow m).mul_right x
      _ = x := by rw [one_pow, one_mul]

/-- Modulo a product of two distinct primes, an exponent that is 1 modulo both `p - 1` and
`q - 1` changes nothing. -/
theorem pow_modEq_self {p q k : ℕ} (hp : p.Prime) (hq : q.Prime) (hne : p ≠ q) (hk : 1 ≤ k)
    (hkp : (p - 1) ∣ (k - 1)) (hkq : (q - 1) ∣ (k - 1)) (x : ℕ) : x ^ k ≡ x [MOD p * q] := by
  have hcop : p.Coprime q := (Nat.coprime_primes hp hq).mpr hne
  exact (Nat.modEq_and_modEq_iff_modEq_mul hcop).mp
    ⟨pow_modEq_self_of_prime hp hk hkp x, pow_modEq_self_of_prime hq hk hkq x⟩

end Montgomery
