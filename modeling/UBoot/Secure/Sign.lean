import Mathlib.Data.Nat.Size
import UBoot.Secure.Fips

/-!
# Signing an image

`images/sign.py`: the container that it writes in front of a file, and the parts of it. A
step that would raise an exception is `none`.
-/
namespace UBoot.Secure
open ByteStore Octets

/-- The loop of `extended_gcd`. -/
def extendedGcdLoop (lastremainder remainder : ℕ) (x lastx y lasty : ℤ) : ℕ × ℤ × ℤ :=
  if remainder = 0 then (lastremainder, lastx, lasty)
  else
    let quotient : ℕ := lastremainder / remainder
    extendedGcdLoop remainder (lastremainder % remainder) (lastx - quotient * x) x
      (lasty - quotient * y) y
termination_by remainder
decreasing_by exact Nat.mod_lt _ (by omega)

/-- `extended_gcd`. -/
def extendedGcd (aa bb : ℤ) : ℕ × ℤ × ℤ :=
  let r := extendedGcdLoop aa.natAbs bb.natAbs 0 1 1 0
  (r.1, r.2.1 * (if aa < 0 then -1 else 1), r.2.2 * (if bb < 0 then -1 else 1))

/-- `modinv`. -/
def modinv (a m : ℤ) : Option ℤ :=
  let r := extendedGcd a m
  if r.1 ≠ 1 then none else some (r.2.1.fmod m)

/-- `struct.pack('<I', v)`. -/
def pack (v : ℤ) : Option (List UInt8) :=
  if 0 ≤ v ∧ v < 2 ^ 32 then some (leBytes 4 v.toNat) else none

/-- The loops of `dump_key` over `N` and `RR`. -/
def dumpWords : ℕ → ℕ → Option (List UInt8)
  | 0, _ => some []
  | nwords + 1, N => do
    let n ← pack (N % 2 ^ 32 : ℕ)
    let rest ← dumpWords nwords (N / 2 ^ 32)
    return n ++ rest

/-- `dump_key`, as the bytes it writes. -/
def dumpKey (N E : ℕ) : Option (List UInt8) := do
  let nwords := N.size / 32
  let inverse ← modinv N (2 ^ 32)
  let N0inv := 2 ^ 32 - inverse
  let R := 2 ^ N.size
  let RR := R * R % N
  let head ← pack nwords
  let n0inv ← pack N0inv
  let n ← dumpWords nwords N
  let rr ← dumpWords nwords RR
  let e ← pack E
  return head ++ n0inv ++ n ++ rr ++ e

/-- `padding`. -/
def padding : ℕ → ℤ → Option (List UInt8)
  | 0, _ => some []
  | n + 1, p => do
    let word ← pack p
    let rest ← padding n p
    return word ++ rest

/-- The signed file. `sign` is what the Crypto library makes of the bytes of a file: their
hash, signed. -/
def signFile (sign : List UInt8 → List UInt8) (N E : ℕ) (file : List UInt8) :
    Option (List UInt8) := do
  let length ← pack file.length
  let gap ← padding 127 0
  let key ← dumpKey N E
  let gap' ← padding 61 0
  return length ++ gap ++ sign file ++ key ++ gap' ++ file

theorem extendedGcdLoop_fst (lastremainder remainder : ℕ) (x lastx y lasty : ℤ) :
    (extendedGcdLoop lastremainder remainder x lastx y lasty).1 =
      lastremainder.gcd remainder := by
  fun_induction extendedGcdLoop lastremainder remainder x lastx y lasty with
  | case1 lastremainder x lastx y lasty => simp
  | case2 lastremainder remainder x lastx y lasty hpos quotient ih =>
    rw [ih, Nat.gcd_comm, ← Nat.gcd_rec, Nat.gcd_comm]

/-- Both remainders are combinations of the two numbers. -/
theorem extendedGcdLoop_bezout (aa bb : ℤ) (lastremainder remainder : ℕ) (x lastx y lasty : ℤ)
    (hlast : (lastremainder : ℤ) = aa * lastx + bb * lasty)
    (hrem : (remainder : ℤ) = aa * x + bb * y) :
    let r := extendedGcdLoop lastremainder remainder x lastx y lasty
    (r.1 : ℤ) = aa * r.2.1 + bb * r.2.2 := by
  fun_induction extendedGcdLoop lastremainder remainder x lastx y lasty with
  | case1 lastremainder x lastx y lasty => exact hlast
  | case2 lastremainder remainder x lastx y lasty hpos quotient ih =>
    apply ih hrem
    have hdiv : (lastremainder : ℤ) = remainder * quotient + (lastremainder % remainder : ℕ) := by
      exact_mod_cast (Nat.div_add_mod lastremainder remainder).symm
    have hmod : ((lastremainder % remainder : ℕ) : ℤ) = lastremainder - remainder * quotient := by
      omega
    rw [hmod, hlast, hrem]
    ring

/-- For an odd number the script finds an inverse modulo `2 ^ 32`. -/
theorem modinv_spec {N : ℕ} (hodd : N % 2 = 1) :
    ∃ v : ℕ, modinv N (2 ^ 32) = some (v : ℤ) ∧ v < 2 ^ 32 ∧ 0 < v ∧
      (2 ^ 32 : ℤ) ∣ v * N - 1 := by
  have hcop : N.gcd (2 ^ 32) = 1 :=
    (Nat.coprime_two_right.mpr (Nat.odd_iff.mpr hodd)).pow_right 32
  have hfst := extendedGcdLoop_fst N (2 ^ 32) 0 1 1 0
  have hbezout := extendedGcdLoop_bezout N (2 ^ 32) N (2 ^ 32) 0 1 1 0 (by ring) (by norm_num)
  dsimp only at hbezout
  rw [hfst, hcop, Nat.cast_one] at hbezout
  set lastx := (extendedGcdLoop N (2 ^ 32) 0 1 1 0).2.1
  set lasty := (extendedGcdLoop N (2 ^ 32) 0 1 1 0).2.2
  have hmodinv : modinv N (2 ^ 32) = some (lastx % 2 ^ 32) := by
    have hsign : ¬ (N : ℤ) < 0 := by omega
    have habs : (2 ^ 32 : ℤ).natAbs = 2 ^ 32 := rfl
    rw [modinv, extendedGcd, Int.natAbs_natCast, habs]
    dsimp only
    rw [hfst, hcop, if_neg (by simp), if_neg hsign, mul_one,
      Int.fmod_eq_emod_of_nonneg _ (by norm_num)]
  have hdvd : (2 ^ 32 : ℤ) ∣ lastx % 2 ^ 32 * N - 1 := by
    refine ⟨-(lastx / 2 ^ 32 * N) - lasty, ?_⟩
    rw [Int.emod_def]
    linear_combination (-1) * hbezout
  have hnonneg : 0 ≤ lastx % 2 ^ 32 := Int.emod_nonneg _ (by norm_num)
  have hlt : lastx % 2 ^ 32 < 2 ^ 32 := Int.emod_lt_of_pos _ (by norm_num)
  have hpos : lastx % 2 ^ 32 ≠ 0 := by
    intro hzero
    rw [hzero] at hdvd
    omega
  refine ⟨(lastx % 2 ^ 32).toNat, ?_, by omega, by omega, ?_⟩
  · rw [hmodinv, Int.toNat_of_nonneg hnonneg]
  · rwa [Int.toNat_of_nonneg hnonneg]

theorem pack_natCast {v : ℕ} (h : v < 2 ^ 32) : pack v = some (leBytes 4 v) := by
  rw [pack, if_pos (by omega), Int.toNat_natCast]

theorem leBytes_four_mod (v : ℕ) : leBytes 4 (v % 2 ^ 32) = leBytes 4 v := by
  apply List.map_congr_left
  intro i hi
  have hi := List.mem_range.mp hi
  apply UInt8.toNat_inj.mp
  have hcases : i = 0 ∨ i = 1 ∨ i = 2 ∨ i = 3 := by omega
  rcases hcases with rfl | rfl | rfl | rfl <;> simp [digits] <;> omega

theorem dumpWords_eq (nwords N : ℕ) : dumpWords nwords N = some (leBytes (4 * nwords) N) := by
  induction nwords generalizing N with
  | zero => rfl
  | succ nwords ih =>
    rw [dumpWords, ih, pack_natCast (Nat.mod_lt _ (by norm_num)), leBytes_four_mod,
      Nat.mul_succ, Nat.add_comm (4 * nwords) 4, leBytes_add]
    rfl

theorem padding_zero (n : ℕ) : padding n 0 = some (List.replicate (4 * n) 0) := by
  induction n with
  | zero => rfl
  | succ n ih =>
    rw [padding, ih, Nat.mul_succ, Nat.add_comm (4 * n) 4, List.replicate_add]
    rfl

/-- The key block that is written for an odd modulus of 2048 bits. -/
def keyBytes (n0inv N E : ℕ) : List UInt8 :=
  leBytes 4 rsaNumWords ++ leBytes 4 n0inv ++ leBytes 256 N ++
    leBytes 256 (rsaSize * rsaSize % N) ++ leBytes 4 E

theorem dumpKey_eq {N E : ℕ} (hodd : N % 2 = 1) (hsize : N.size = 2048) (hE : E < 2 ^ 32) :
    ∃ n0inv < 2 ^ 32, 2 ^ 32 ∣ n0inv * N + 1 ∧ dumpKey N E = some (keyBytes n0inv N E) := by
  obtain ⟨inverse, hinverse, hlt, hpos, hdvd⟩ := modinv_spec hodd
  have hn0inv : (2 ^ 32 - inverse : ℤ) = ((2 ^ 32 - inverse : ℕ) : ℤ) := by omega
  have hR : 2 ^ N.size = rsaSize := by
    rw [hsize, rsaSize, rsaNumWords, ← pow_mul]
  refine ⟨2 ^ 32 - inverse, by omega, ?_, ?_⟩
  · have hint : ((2 ^ 32 - inverse : ℕ) : ℤ) * N + 1 = 2 ^ 32 * N - (inverse * N - 1) := by
      rw [← hn0inv]
      ring
    have := dvd_sub (Dvd.intro (N : ℤ) rfl) hdvd
    rw [← hint] at this
    exact_mod_cast this
  · rw [dumpKey, hinverse, hsize, ← hsize, hR]
    simp only [Option.bind_eq_bind, Option.bind_some, hn0inv, dumpWords_eq, hsize,
      pack_natCast (show 2 ^ 32 - inverse < 2 ^ 32 by omega),
      pack_natCast (show 2048 / 32 < 2 ^ 32 by norm_num), pack_natCast hE]
    rfl

/-- A word out of the middle of a longer number. -/
theorem fetch_word {m : Mem} {off n v i : ℕ} (h : slice m off (4 * n) = leBytes (4 * n) v)
    (hi : i < n) : fetch m (off + 4 * i) 4 = v / (2 ^ 32) ^ i % 2 ^ 32 := by
  rw [show 4 * n = 4 * i + (4 + (4 * n - (4 * i + 4))) by omega, leBytes_add] at h
  obtain ⟨-, hback⟩ := slice_eq_append h
  rw [length_leBytes, length_leBytes, leBytes_add] at hback
  obtain ⟨hword, -⟩ := slice_eq_append hback
  rw [length_leBytes, pow_mul] at hword
  exact fetch_of_slice hword

/-- The words of a number make up the number. -/
theorem value_words (n v : ℕ) :
    value ((List.range n).map fun i => v / (2 ^ 32) ^ i % 2 ^ 32) = v % (2 ^ 32) ^ n := by
  induction n generalizing v with
  | zero => simp [Nat.mod_one]
  | succ n ih =>
    have hshift : ((List.range n).map fun i => v / (2 ^ 32) ^ (i + 1) % 2 ^ 32) =
        (List.range n).map fun i => v / 2 ^ 32 / (2 ^ 32) ^ i % 2 ^ 32 := by
      apply List.map_congr_left
      intro i _
      rw [pow_succ', Nat.div_div_eq_div_mul]
    rw [List.range_succ_eq_map, List.map_cons, List.map_map, value_cons]
    simp only [Function.comp_def, Nat.succ_eq_add_one]
    rw [hshift, ih, pow_zero, Nat.div_one,
      show (2 ^ 32) ^ (n + 1) = 2 ^ 32 * (2 ^ 32) ^ n from pow_succ' _ n, Nat.mod_mul]

end UBoot.Secure
