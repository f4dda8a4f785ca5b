import Mathlib.Data.Nat.Digits.Defs
import Mathlib.Data.Nat.Digits.Lemmas
import UBoot.Text.Division

/-!
# Decimal conversion

`put_dec` of `lib/vsprintf.c` writes the digits of a 64-bit number, lowest first, without a
division by ten: five digits come from the nibbles of a number below 100000, and every
quotient by ten is a product and a shift.
-/
namespace UBoot.Text

/-- The character of a decimal digit, `d + '0'`. -/
def decChar (d : ℕ) : UInt8 := UInt8.ofNat (d + 48)

/-- `put_dec_trunc`: from one to five digits of a number in [0, 99999]. -/
def putDecTrunc (q : ℕ) : List UInt8 :=
  let d1 := (q >>> 4) &&& 0xf
  let d2 := (q >>> 8) &&& 0xf
  let d3 := q >>> 12
  let d0 := 6 * (d3 + d2 + d1) + (q &&& 0xf)
  let q := (d0 * 0xcd) >>> 11
  let d0 := d0 - 10 * q
  let d1 := q + 9 * d3 + 5 * d2 + d1
  decChar d0 ::
    if d1 ≠ 0 then
      let q := (d1 * 0xcd) >>> 11
      let d1 := d1 - 10 * q
      let d2 := q + 2 * d2
      decChar d1 ::
        if d2 ≠ 0 ∨ d3 ≠ 0 then
          let q := (d2 * 0xd) >>> 7
          let d2 := d2 - 10 * q
          let d3 := q + 4 * d3
          decChar d2 ::
            if d3 ≠ 0 then
              let q := (d3 * 0xcd) >>> 11
              let d3 := d3 - 10 * q
              decChar d3 :: if q ≠ 0 then [decChar q] else []
            else []
        else []
    else []

/-- `put_dec_full`: always five digits. -/
def putDecFull (q : ℕ) : List UInt8 :=
  let d1 := (q >>> 4) &&& 0xf
  let d2 := (q >>> 8) &&& 0xf
  let d3 := q >>> 12
  let d0 := 6 * (d3 + d2 + d1) + (q &&& 0xf)
  let q := (d0 * 0xcd) >>> 11
  let d0 := d0 - 10 * q
  let d1 := q + 9 * d3 + 5 * d2 + d1
  let q := (d1 * 0xcd) >>> 11
  let d1 := d1 - 10 * q
  let d2 := q + 2 * d2
  let q := (d2 * 0xd) >>> 7
  let d2 := d2 - 10 * q
  let d3 := q + 4 * d3
  let q := (d3 * 0xcd) >>> 11
  let d3 := d3 - 10 * q
  [decChar d0, decChar d1, decChar d2, decChar d3, decChar q]

/-- The loop of `put_dec`: five digits at a time, and the rest without leading zeros. -/
def putDecLoop : ℕ → ℕ → List UInt8
  | 0, _ => []
  | fuel + 1, num =>
    if num < 100000 then putDecTrunc num
    else putDecFull (doDiv num 100000).2 ++ putDecLoop fuel (doDiv num 100000).1

/-- `put_dec`: a 64-bit number has at most four groups of five digits. -/
def putDec (num : ℕ) : List UInt8 := putDecLoop 4 num

theorem mul_cd_shift {d : ℕ} (h : d < 1024) : (d * 0xcd) >>> 11 = d / 10 := by
  rw [Nat.shiftRight_eq_div_pow]
  omega

theorem mul_d_shift {d : ℕ} (h : d < 64) : (d * 0xd) >>> 7 = d / 10 := by
  rw [Nat.shiftRight_eq_div_pow]
  omega

/-- The nibbles of a number below 100000, as the two conversions take them. -/
structure Nibbles (q d0 d1 d2 d3 : ℕ) : Prop where
  split : q = d0 + 16 * d1 + 256 * d2 + 4096 * d3
  low : d0 < 16
  second : d1 < 16
  third : d2 < 16
  high : d3 < 25

theorem nibbles {q : ℕ} (h : q < 100000) :
    Nibbles q (q &&& 0xf) ((q >>> 4) &&& 0xf) ((q >>> 8) &&& 0xf) (q >>> 12) := by
  have hmask (n : ℕ) : n &&& 0xf = n % 16 := Nat.and_two_pow_sub_one_eq_mod n 4
  simp only [hmask, Nat.shiftRight_eq_div_pow]
  constructor <;> omega

/-- The partial sums of a number below 100000: each is its place and the tens of the one
before it. -/
structure Sums (q d2 d3 s0 s1 s2 s3 : ℕ) : Prop where
  ones : s0 - 10 * (s0 / 10) = q % 10
  tens : s1 - 10 * (s1 / 10) = q / 10 % 10
  hundreds : s2 - 10 * (s2 / 10) = q / 100 % 10
  thousands : s3 = q / 1000
  two_digits : s1 ≠ 0 ↔ q / 10 ≠ 0
  three_digits : s2 ≠ 0 ∨ d3 ≠ 0 ↔ q / 100 ≠ 0

theorem sums {q d0 d1 d2 d3 : ℕ} (h : Nibbles q d0 d1 d2 d3) {s0 s1 s2 s3 : ℕ}
    (h0 : s0 = 6 * (d3 + d2 + d1) + d0) (h1 : s1 = s0 / 10 + 9 * d3 + 5 * d2 + d1)
    (h2 : s2 = s1 / 10 + 2 * d2) (h3 : s3 = s2 / 10 + 4 * d3) : Sums q d2 d3 s0 s1 s2 s3 := by
  obtain ⟨hq, hd0, hd1, hd2, hd3⟩ := h
  have hq0 : q = s0 + 10 * (9 * d3 + 5 * d2 + d1) + 100 * (2 * d2) + 1000 * (4 * d3) := by omega
  have hq1 : q / 10 = s1 + 10 * (2 * d2) + 100 * (4 * d3) := by omega
  have hq2 : q / 100 = s2 + 10 * (4 * d3) := by
    rw [show q / 100 = q / 10 / 10 by omega, hq1]
    omega
  have hq3 : q / 1000 = s3 := by
    rw [show q / 1000 = q / 100 / 10 by omega, hq2]
    omega
  constructor <;> omega

/-- The sums that both conversions keep in `d0` to `d3`, and their quotients by ten. -/
theorem putDec_sums {q d0 d1 d2 d3 : ℕ} (h : Nibbles q d0 d1 d2 d3) :
    ∃ s0 s1 s2 s3, Sums q d2 d3 s0 s1 s2 s3 ∧
      s0 = 6 * (d3 + d2 + d1) + d0 ∧ (s0 * 0xcd) >>> 11 = s0 / 10 ∧
      s1 = s0 / 10 + 9 * d3 + 5 * d2 + d1 ∧ (s1 * 0xcd) >>> 11 = s1 / 10 ∧
      s2 = s1 / 10 + 2 * d2 ∧ (s2 * 0xd) >>> 7 = s2 / 10 ∧
      s3 = s2 / 10 + 4 * d3 ∧ (s3 * 0xcd) >>> 11 = s3 / 10 := by
  have hsums := sums h rfl rfl rfl rfl
  obtain ⟨-, hd0, hd1, hd2, hd3⟩ := h
  refine ⟨_, _, _, _, hsums, rfl, mul_cd_shift ?_, rfl, mul_cd_shift ?_, rfl, mul_d_shift ?_,
    rfl, mul_cd_shift ?_⟩ <;> omega

/-- The five decimal places of a number, lowest first. -/
def places (q : ℕ) : List UInt8 :=
  [decChar (q % 10), decChar (q / 10 % 10), decChar (q / 100 % 10), decChar (q / 1000 % 10),
    decChar (q / 10000)]

theorem putDecFull_eq {q : ℕ} (h : q < 100000) : putDecFull q = places q := by
  obtain ⟨s0, s1, s2, s3, hs, h0, e0, h1, e1, h2, e2, h3, e3⟩ := putDec_sums (nibbles h)
  have htop : s3 / 10 = q / 10000 := by rw [hs.thousands, Nat.div_div_eq_div_mul]
  have hlast : s3 - 10 * (q / 10000) = q / 1000 % 10 := by
    rw [hs.thousands]
    omega
  simp only [putDecFull, places, ← h0, e0, ← h1, e1, ← h2, e2, ← h3, e3, hs.ones, hs.tens,
    hs.hundreds, htop, hlast]

/-- The digits of a number below 100000, place by place. -/
theorem digits_of_lt {q : ℕ} (h : q < 100000) (hpos : 0 < q) :
    Nat.digits 10 q = q % 10 :: if q / 10 ≠ 0 then q / 10 % 10 ::
      if q / 100 ≠ 0 then q / 100 % 10 :: if q / 1000 ≠ 0 then q / 1000 % 10 ::
        if q / 10000 ≠ 0 then [q / 10000] else [] else [] else [] else [] := by
  have hstep (n : ℕ) :
      Nat.digits 10 n = if n ≠ 0 then n % 10 :: Nat.digits 10 (n / 10) else [] := by
    split_ifs with hn
    · exact Nat.digits_def' (by norm_num) (Nat.pos_of_ne_zero hn)
    · rw [not_not.mp hn, Nat.digits_zero]
  have h2 : q / 10 / 10 = q / 100 := Nat.div_div_eq_div_mul ..
  have h3 : q / 100 / 10 = q / 1000 := Nat.div_div_eq_div_mul ..
  have h4 : q / 1000 / 10 = q / 10000 := Nat.div_div_eq_div_mul ..
  have h5 : q / 10000 / 10 = 0 := by omega
  have h6 : q / 10000 % 10 = q / 10000 := by omega
  rw [hstep q, if_pos hpos.ne', hstep (q / 10), h2, hstep (q / 100), h3, hstep (q / 1000), h4,
    hstep (q / 10000), h5, h6, Nat.digits_zero]

/-- Below 100000 no leading zero is written. -/
theorem putDecTrunc_eq {q : ℕ} (h : q < 100000) (hpos : 0 < q) :
    putDecTrunc q = (Nat.digits 10 q).map decChar := by
  obtain ⟨s0, s1, s2, s3, hs, h0, e0, h1, e1, h2, e2, h3, e3⟩ := putDec_sums (nibbles h)
  have htop : s3 / 10 = q / 10000 := by rw [hs.thousands, Nat.div_div_eq_div_mul]
  have hlast : s3 - 10 * (q / 10000) = q / 1000 % 10 := by
    rw [hs.thousands]
    omega
  have hfour : s3 ≠ 0 ↔ q / 1000 ≠ 0 := by rw [hs.thousands]
  simp only [putDecTrunc, ← h0, e0, ← h1, e1, ← h2, e2, ← h3, e3, hs.ones, hs.tens,
    hs.hundreds, hs.two_digits, hs.three_digits, hfour, htop, hlast, digits_of_lt h hpos,
    List.map_cons, apply_ite (List.map decChar), List.map_nil]

/-- The five places of a remainder go in front of the digits of the quotient. -/
theorem places_append_digits {num : ℕ} (h : 100000 ≤ num) :
    places (num % 100000) ++ (Nat.digits 10 (num / 100000)).map decChar =
      (Nat.digits 10 num).map decChar := by
  have hstep (k n : ℕ) (hn : 0 < n / 10 ^ k) : Nat.digits 10 (n / 10 ^ k) =
      n / 10 ^ k % 10 :: Nat.digits 10 (n / 10 ^ (k + 1)) := by
    rw [Nat.digits_def' (by norm_num) hn, Nat.div_div_eq_div_mul, pow_succ]
  have h0 := hstep 0 num (by omega)
  have h1 := hstep 1 num (by omega)
  have h2 := hstep 2 num (by omega)
  have h3 := hstep 3 num (by omega)
  have h4 := hstep 4 num (by omega)
  norm_num at h0 h1 h2 h3 h4
  have e0 : num % 100000 % 10 = num % 10 := by omega
  have e1 : num % 100000 / 10 % 10 = num / 10 % 10 := by omega
  have e2 : num % 100000 / 100 % 10 = num / 100 % 10 := by omega
  have e3 : num % 100000 / 1000 % 10 = num / 1000 % 10 := by omega
  have e4 : num % 100000 / 10000 = num / 10000 % 10 := by omega
  rw [h0, h1, h2, h3, h4]
  simp only [places, e0, e1, e2, e3, e4, List.map_cons, List.cons_append, List.nil_append]

theorem putDecLoop_eq_digits {fuel num : ℕ} (hnum : num < 2 ^ 64) (hfuel : num < 100000 ^ fuel)
    (hpos : 0 < num) : putDecLoop fuel num = (Nat.digits 10 num).map decChar := by
  induction fuel generalizing num with
  | zero =>
    rw [pow_zero] at hfuel
    omega
  | succ fuel ih =>
    rw [putDecLoop]
    split_ifs with h
    · exact putDecTrunc_eq h hpos
    · have hquot : num / 100000 < 100000 ^ fuel := by
        rw [pow_succ] at hfuel
        exact Nat.div_lt_of_lt_mul (by omega)
      rw [doDiv_eq hnum (by norm_num) (by norm_num), putDecFull_eq (Nat.mod_lt _ (by norm_num)),
        ih (by omega) hquot (by omega), places_append_digits (by omega)]

/-- `put_dec` writes the decimal digits of every 64-bit number, lowest first and without
leading zeros. -/
theorem putDec_eq_digits {num : ℕ} (hnum : num < 2 ^ 64) (hpos : 0 < num) :
    putDec num = (Nat.digits 10 num).map decChar :=
  putDecLoop_eq_digits hnum (by omega) hpos

/-- 18446744073709551615, from its last digit on. -/
theorem putDec_largest : putDec (2 ^ 64 - 1) =
    [53, 49, 54, 49, 53, 53, 57, 48, 55, 51, 55, 48, 52, 52, 55, 54, 52, 52, 56, 49] :=
  (putDec_eq_digits (by norm_num) (by norm_num)).trans (by norm_num [decChar]; decide)

end UBoot.Text
