import UBoot.Library.Montgomery
import UBoot.Library.Octets
import UBoot.Word

/-!
# RSA with a public key

`secure_verify/rsa.c` down to `modpow`: subtraction, comparison and Montgomery products on
arrays of 32-bit words, lowest word first. An array stands for a number below
`2 ^ 2048`. Products are not fully reduced on the way: a product only stays inside the
array, and the last step subtracts the modulus once.
-/
namespace UBoot.Secure
open Octets

/-- `RSANUMWORDS`. -/
def rsaNumWords : ℕ := 64

/-- `RSANUMBYTES`. -/
def rsaNumBytes : ℕ := 256

structure RSAPublicKey where
  len : ℕ
  n0inv : ℕ
  n : List ℕ
  rr : List ℕ
  exponent : ℕ

section Loops
variable (key : RSAPublicKey)

/-- The loop of `subM`; `A` is an `int64_t`. -/
def subLoop : ℤ → List ℕ → List ℕ → List ℕ
  | A, a :: as, n :: ns =>
    let A := A + (a - n : ℤ)
    (A % 2 ^ 32).toNat :: subLoop (A / 2 ^ 32) as ns
  | _, as, _ => as

/-- `subM`. -/
def subM (a : List ℕ) : List ℕ := subLoop 0 a key.n

/-- The loop of `geM`, from the highest words on. -/
def geLoop : List (ℕ × ℕ) → Bool
  | [] => true
  | (a, n) :: rest => if a < n then false else if a > n then true else geLoop rest

/-- `geM`. -/
def geM (a : List ℕ) : Bool := geLoop (a.zip key.n).reverse

/-- The loop of `montMulAdd`: the two accumulators at its end, and the words it stored. -/
def mulLoop (a d0 : ℕ) : ℕ → ℕ → List ℕ → List ℕ → List ℕ → ℕ × ℕ × List ℕ
  | A, B, b :: bs, c :: cs, n :: ns =>
    let A := u64 (A / 2 ^ 32 + a * b + c)
    let B := u64 (B / 2 ^ 32 + d0 * n + u32 A)
    let r := mulLoop a d0 A B bs cs ns
    (r.1, r.2.1, u32 B :: r.2.2)
  | A, B, _, _, _ => (A, B, [])

/-- `montMulAdd`: the new `c[]`. -/
def montMulAdd (c : List ℕ) (a : ℕ) (b : List ℕ) : List ℕ :=
  match b, c, key.n with
  | b0 :: bs, c0 :: cs, n0 :: ns =>
    let A := u64 (a * b0 + c0)
    let d0 := u32 (u32 A * key.n0inv)
    let B := u64 (d0 * n0 + u32 A)
    let r := mulLoop a d0 A B bs cs ns
    let A := u64 (r.1 / 2 ^ 32 + r.2.1 / 2 ^ 32)
    let c := r.2.2 ++ [u32 A]
    if A / 2 ^ 32 ≠ 0 then subM key c else c
  | _, _, _ => c

/-- `montMul`: the new `c[]`. -/
def montMul (a b : List ℕ) : List ℕ :=
  a.foldl (fun c ai => montMulAdd key c ai b) (List.replicate key.len 0)

/-- The first half of `modpow`: `aaa` for the words of the base. Other exponents are not
passed to it. -/
def modpowWords (a : List ℕ) : List ℕ :=
  let aR := montMul key a key.rr
  if key.exponent = 65537 then
    let aR := (List.range 8).foldl (fun aR _ =>
      let aaR := montMul key aR aR
      montMul key aaR aaR) aR
    montMul key aR a
  else
    let aaR := montMul key aR aR
    montMul key aaR a

/-- The words of a big-endian array of bytes, lowest first. -/
def wordsOfBytes (inout : List UInt8) : List ℕ :=
  (List.range (inout.length / 4)).map fun i =>
    let b k := (inout.getD (inout.length - 4 * (i + 1) + k) 0).toNat
    b 0 * 2 ^ 24 + b 1 * 2 ^ 16 + b 2 * 2 ^ 8 + b 3

/-- The big-endian bytes of an array of words. -/
def bytesOfWords (aaa : List ℕ) : List UInt8 :=
  aaa.reverse.flatMap fun tmp =>
    [UInt8.ofNat (tmp / 2 ^ 24), UInt8.ofNat (tmp / 2 ^ 16), UInt8.ofNat (tmp / 2 ^ 8),
      UInt8.ofNat tmp]

/-- `modpow`. -/
def modpow (inout : List UInt8) : List UInt8 :=
  let aaa := modpowWords key (wordsOfBytes inout)
  bytesOfWords (if geM key aaa then subM key aaa else aaa)

end Loops

/-- The number an array stands for. -/
def value (l : List ℕ) : ℕ := Nat.ofDigits (2 ^ 32) l

/-- An array of `m` words. -/
structure Words (m : ℕ) (l : List ℕ) : Prop where
  length : l.length = m
  lt : ∀ w ∈ l, w < 2 ^ 32

@[simp] theorem value_nil : value [] = 0 := rfl

@[simp] theorem value_cons (w : ℕ) (l : List ℕ) : value (w :: l) = w + 2 ^ 32 * value l :=
  Nat.ofDigits_cons

theorem value_append (l l' : List ℕ) :
    value (l ++ l') = value l + (2 ^ 32) ^ l.length * value l' :=
  Nat.ofDigits_append

theorem Words.nil : Words 0 [] := ⟨rfl, by simp⟩

theorem Words.cons {m w : ℕ} {l : List ℕ} (hw : w < 2 ^ 32) (h : Words m l) :
    Words (m + 1) (w :: l) := by
  refine ⟨by rw [List.length_cons, h.length], fun v hv => ?_⟩
  rcases List.mem_cons.mp hv with rfl | hv
  · exact hw
  · exact h.lt v hv

theorem Words.of_cons {m w : ℕ} {l : List ℕ} (h : Words (m + 1) (w :: l)) :
    w < 2 ^ 32 ∧ Words m l := by
  have hlen := h.length
  rw [List.length_cons] at hlen
  exact ⟨h.lt w (List.mem_cons_self ..), by omega,
    fun v hv => h.lt v (List.mem_cons_of_mem w hv)⟩

theorem Words.append {m m' : ℕ} {l l' : List ℕ} (h : Words m l) (h' : Words m' l') :
    Words (m + m') (l ++ l') := by
  refine ⟨by rw [List.length_append, h.length, h'.length], fun v hv => ?_⟩
  rcases List.mem_append.mp hv with hv | hv
  · exact h.lt v hv
  · exact h'.lt v hv

theorem Words.replicate_zero (m : ℕ) : Words m (List.replicate m 0) := by
  refine ⟨List.length_replicate, fun v hv => ?_⟩
  rw [List.eq_of_mem_replicate hv]
  norm_num

theorem value_replicate_zero (m : ℕ) : value (List.replicate m 0) = 0 := by
  induction m with
  | zero => rfl
  | succ m ih => rw [List.replicate_succ, value_cons, ih, Nat.mul_zero]

theorem Words.value_lt {m : ℕ} {l : List ℕ} (h : Words m l) : value l < (2 ^ 32) ^ m := by
  rw [← h.length]
  exact Nat.ofDigits_lt_base_pow_length (by norm_num) h.lt

/-- An array that is not empty, taken apart. -/
theorem Words.exists_cons {m : ℕ} {l : List ℕ} (h : Words (m + 1) l) :
    ∃ w l', l = w :: l' ∧ w < 2 ^ 32 ∧ Words m l' := by
  cases l with
  | nil => exact absurd h.length (by simp)
  | cons w l' => exact ⟨w, l', rfl, h.of_cons⟩

theorem subLoop_spec {m : ℕ} {as ns : List ℕ} (ha : Words m as) (hn : Words m ns) {A : ℤ}
    (hA : A = 0 ∨ A = -1) :
    Words m (subLoop A as ns) ∧ ∃ A' : ℤ, (A' = 0 ∨ A' = -1) ∧
      (value (subLoop A as ns) : ℤ) + (2 ^ 32) ^ m * A' = A + value as - value ns := by
  induction m generalizing as ns A with
  | zero =>
    obtain rfl := List.length_eq_zero_iff.mp ha.length
    obtain rfl := List.length_eq_zero_iff.mp hn.length
    exact ⟨Words.nil, A, hA, by simp [subLoop]⟩
  | succ m ih =>
    obtain ⟨a, as, rfl, hlta, ha⟩ := ha.exists_cons
    obtain ⟨n, ns, rfl, hltn, hn⟩ := hn.exists_cons
    rw [subLoop]
    have hmod := Int.emod_add_mul_ediv (A + (a - n : ℤ)) (2 ^ 32)
    have hnonneg := Int.emod_nonneg (A + (a - n : ℤ)) (show (2 ^ 32 : ℤ) ≠ 0 by norm_num)
    have hlt := Int.emod_lt_of_pos (A + (a - n : ℤ)) (show (0 : ℤ) < 2 ^ 32 by norm_num)
    obtain ⟨hwords, A', hA', hval⟩ :=
      @ih as ns ha hn ((A + (a - n : ℤ)) / 2 ^ 32) (by omega)
    refine ⟨hwords.cons (by omega), A', hA', ?_⟩
    simp only [value_cons, Nat.cast_add, Nat.cast_mul, Nat.cast_pow, Nat.cast_ofNat]
    rw [Int.toNat_of_nonneg hnonneg]
    linear_combination (2 ^ 32 : ℤ) * hval + hmod

/-- Subtracting what is not larger, or what makes up for a carry out of the array. -/
theorem subM_spec {key : RSAPublicKey} {m : ℕ} {a : List ℕ} (ha : Words m a)
    (hn : Words m key.n) (carry : ℕ) (hle : value key.n ≤ value a + (2 ^ 32) ^ m * carry)
    (hlt : value a + (2 ^ 32) ^ m * carry < (2 ^ 32) ^ m + value key.n) :
    Words m (subM key a) ∧ value (subM key a) + value key.n = value a + (2 ^ 32) ^ m * carry := by
  obtain ⟨hwords, A', -, hval⟩ := subLoop_spec ha hn (.inl (rfl : (0 : ℤ) = 0))
  refine ⟨hwords, ?_⟩
  have hbound := hwords.value_lt
  rw [← subM] at hval hbound
  -- both sides are below the size of the array and congruent
  have hle' : (value key.n : ℤ) ≤ value a + (2 ^ 32) ^ m * carry := by exact_mod_cast hle
  have hlt' : (value a : ℤ) + (2 ^ 32) ^ m * carry < (2 ^ 32) ^ m + value key.n := by
    exact_mod_cast hlt
  have hbound' : (value (subM key a) : ℤ) < (2 ^ 32) ^ m := by exact_mod_cast hbound
  have hpos : (0 : ℤ) < (2 ^ 32) ^ m := by positivity
  have hnonneg : (0 : ℤ) ≤ value (subM key a) := Int.natCast_nonneg _
  have hcarry : A' = -(carry : ℤ) := by
    have h₁ : (2 ^ 32) ^ m * (-(carry : ℤ) - A') < (2 ^ 32) ^ m * 1 := by linarith
    have h₂ : (2 ^ 32) ^ m * (-1) < (2 ^ 32) ^ m * (-(carry : ℤ) - A') := by linarith
    have h₁ := lt_of_mul_lt_mul_left h₁ hpos.le
    have h₂ := lt_of_mul_lt_mul_left h₂ hpos.le
    omega
  rw [hcarry] at hval
  have : (value (subM key a) : ℤ) + value key.n = value a + (2 ^ 32) ^ m * carry := by linarith
  exact_mod_cast this

/-- The higher words decide, unless they are equal. -/
theorem geLoop_append {m : ℕ} {as ns : List ℕ} (ha : Words m as) (hn : Words m ns)
    (rest : List (ℕ × ℕ)) : geLoop ((as.zip ns).reverse ++ rest) =
      if value as < value ns then false else if value ns < value as then true else geLoop rest := by
  induction m generalizing as ns rest with
  | zero =>
    obtain rfl := List.length_eq_zero_iff.mp ha.length
    obtain rfl := List.length_eq_zero_iff.mp hn.length
    simp
  | succ m ih =>
    obtain ⟨a, as, rfl, hlta, ha⟩ := ha.exists_cons
    obtain ⟨n, ns, rfl, hltn, hn⟩ := hn.exists_cons
    rw [List.zip_cons_cons, List.reverse_cons, List.append_assoc, List.singleton_append,
      ih ha hn, geLoop, value_cons, value_cons]
    by_cases hless : value as < value ns
    · rw [if_pos hless, if_pos (by omega)]
    by_cases hmore : value ns < value as
    · rw [if_neg hless, if_pos hmore, if_neg (by omega), if_pos (by omega)]
    have heq : value as = value ns := by omega
    rw [if_neg hless, if_neg hmore, heq]
    by_cases hlow : a < n
    · rw [if_pos hlow, if_pos (by omega)]
    by_cases hhigh : a > n
    · rw [if_neg hlow, if_pos hhigh, if_neg (by omega), if_pos (by omega)]
    · rw [if_neg hlow, if_neg hhigh, if_neg (by omega), if_neg (by omega)]

theorem geM_spec {key : RSAPublicKey} {m : ℕ} {a : List ℕ} (ha : Words m a)
    (hn : Words m key.n) : geM key a = decide (value key.n ≤ value a) := by
  have h := geLoop_append ha hn []
  rw [List.append_nil] at h
  rw [geM, h]
  by_cases hless : value a < value key.n
  · simp [hless]
  · simp [hless, geLoop]
    omega

theorem mulAdd_lt {k a b c : ℕ} (hk : k < 2 ^ 32) (ha : a < 2 ^ 32) (hb : b < 2 ^ 32)
    (hc : c < 2 ^ 32) : k + a * b + c < 2 ^ 64 := by
  have hmul : a * b ≤ (2 ^ 32 - 1) * (2 ^ 32 - 1) := Nat.mul_le_mul (by omega) (by omega)
  omega

theorem high_lt {A : ℕ} (hA : A < 2 ^ 64) : A / 2 ^ 32 < 2 ^ 32 := by
  omega

theorem mulLoop_spec {a d0 : ℕ} (ha : a < 2 ^ 32) (hd : d0 < 2 ^ 32) {m : ℕ} {bs cs ns : List ℕ}
    (hb : Words m bs) (hc : Words m cs) (hn : Words m ns) {A B : ℕ} (hA : A < 2 ^ 64)
    (hB : B < 2 ^ 64) :
    (mulLoop a d0 A B bs cs ns).1 < 2 ^ 64 ∧ (mulLoop a d0 A B bs cs ns).2.1 < 2 ^ 64 ∧
      Words m (mulLoop a d0 A B bs cs ns).2.2 ∧
      value (mulLoop a d0 A B bs cs ns).2.2 + (2 ^ 32) ^ m *
          ((mulLoop a d0 A B bs cs ns).1 / 2 ^ 32 + (mulLoop a d0 A B bs cs ns).2.1 / 2 ^ 32) =
        A / 2 ^ 32 + B / 2 ^ 32 + d0 * value ns + a * value bs + value cs := by
  induction m generalizing bs cs ns A B with
  | zero =>
    obtain rfl := List.length_eq_zero_iff.mp hb.length
    obtain rfl := List.length_eq_zero_iff.mp hc.length
    obtain rfl := List.length_eq_zero_iff.mp hn.length
    exact ⟨hA, hB, Words.nil, by simp [mulLoop]⟩
  | succ m ih =>
    obtain ⟨b, bs, rfl, hltb, hb⟩ := hb.exists_cons
    obtain ⟨c, cs, rfl, hltc, hc⟩ := hc.exists_cons
    obtain ⟨n, ns, rfl, hltn, hn⟩ := hn.exists_cons
    rw [mulLoop]
    -- neither accumulator wraps
    have hA' : u64 (A / 2 ^ 32 + a * b + c) = A / 2 ^ 32 + a * b + c :=
      u64_of_lt (mulAdd_lt (high_lt hA) ha hltb hltc)
    have hlow := u32_lt (A / 2 ^ 32 + a * b + c)
    have hB' : u64 (B / 2 ^ 32 + d0 * n + u32 (A / 2 ^ 32 + a * b + c)) =
        B / 2 ^ 32 + d0 * n + u32 (A / 2 ^ 32 + a * b + c) :=
      u64_of_lt (mulAdd_lt (high_lt hB) hd hltn hlow)
    simp only [hA', hB']
    obtain ⟨h₁, h₂, hwords, hval⟩ := ih hb hc hn
      (mulAdd_lt (high_lt hA) ha hltb hltc) (mulAdd_lt (high_lt hB) hd hltn hlow)
    refine ⟨h₁, h₂, hwords.cons (u32_lt _), ?_⟩
    generalize mulLoop a d0 (A / 2 ^ 32 + a * b + c)
      (B / 2 ^ 32 + d0 * n + u32 (A / 2 ^ 32 + a * b + c)) bs cs ns = r at hval ⊢
    have hsplitA := Nat.mod_add_div (A / 2 ^ 32 + a * b + c) (2 ^ 32)
    have hsplitB := Nat.mod_add_div (B / 2 ^ 32 + d0 * n + u32 (A / 2 ^ 32 + a * b + c)) (2 ^ 32)
    rw [← u32] at hsplitA hsplitB
    simp only [value_cons]
    zify at hval hsplitA hsplitB ⊢
    linear_combination (2 ^ 32 : ℤ) * hval + hsplitA + hsplitB

/-- What is needed of a key for its Montgomery products. -/
structure MontKey (m : ℕ) (key : RSAPublicKey) : Prop where
  n : Words (m + 1) key.n
  inv : 2 ^ 32 ∣ key.n0inv * value key.n + 1

/-- One round before the conditional subtraction, with the carry out of the array. -/
theorem round_spec {m : ℕ} {n0inv a b0 c0 n0 : ℕ} {bs cs ns : List ℕ}
    (hinv : 2 ^ 32 ∣ n0inv * n0 + 1) (ha : a < 2 ^ 32) (hb0 : b0 < 2 ^ 32) (hc0 : c0 < 2 ^ 32)
    (hn0 : n0 < 2 ^ 32) (hb : Words m bs) (hc : Words m cs) (hn : Words m ns) {A d0 K : ℕ}
    {r : ℕ × ℕ × List ℕ} (hA : u64 (a * b0 + c0) = A) (hd0 : u32 (u32 A * n0inv) = d0)
    (hr : mulLoop a d0 A (u64 (d0 * n0 + u32 A)) bs cs ns = r)
    (hK : u64 (r.1 / 2 ^ 32 + r.2.1 / 2 ^ 32) = K) :
    Words (m + 1) (r.2.2 ++ [u32 K]) ∧
      2 ^ 32 * (value (r.2.2 ++ [u32 K]) + (2 ^ 32) ^ (m + 1) * (K / 2 ^ 32)) =
        a * value (b0 :: bs) + value (c0 :: cs) + d0 * value (n0 :: ns) := by
  have hA' : A = a * b0 + c0 := by
    have := mulAdd_lt (k := 0) (by norm_num) ha hb0 hc0
    rw [← hA, u64_of_lt (by omega)]
  have hltd0 : d0 < 2 ^ 32 := by
    rw [← hd0]
    exact u32_lt _
  have hB : u64 (d0 * n0 + u32 A) = d0 * n0 + u32 A := by
    have := mulAdd_lt (k := 0) (by norm_num) hltd0 hn0 (u32_lt A)
    exact u64_of_lt (by omega)
  have hzero : (d0 * n0 + u32 A) % 2 ^ 32 = 0 := by
    rw [← hd0]
    exact Montgomery.low_digit_zero hinv A
  have hspec := mulLoop_spec ha hltd0 hb hc hn (hA ▸ u64_lt (a * b0 + c0))
    (u64_lt (d0 * n0 + u32 A))
  rw [hr] at hspec
  obtain ⟨h₁, h₂, hwords, hval⟩ := hspec
  have hK' : r.1 / 2 ^ 32 + r.2.1 / 2 ^ 32 = K := by
    have := high_lt h₁
    have := high_lt h₂
    rw [← hK, u64_of_lt (by omega)]
  refine ⟨hwords.append (Words.nil.cons (u32_lt K)), ?_⟩
  rw [hK', hB] at hval
  have hsplitA := Nat.mod_add_div A (2 ^ 32)
  have hsplitB := Nat.mod_add_div (d0 * n0 + u32 A) (2 ^ 32)
  have hsplitK := Nat.mod_add_div K (2 ^ 32)
  rw [← u32] at hsplitA hsplitK
  rw [hzero] at hsplitB
  rw [value_append, hwords.length]
  simp only [value_cons, value_nil]
  generalize value r.2.2 = out at hval ⊢
  generalize K / 2 ^ 32 = carry at hsplitK ⊢
  generalize A / 2 ^ 32 = highA at hsplitA hval
  generalize (d0 * n0 + u32 A) / 2 ^ 32 = highB at hsplitB hval
  zify at hval hsplitA hsplitB hsplitK hA' ⊢
  linear_combination (2 ^ 32 : ℤ) * hval + hsplitA + hsplitB +
    (2 ^ 32 : ℤ) * (2 ^ 32 : ℤ) ^ m * hsplitK + hA'

theorem montMulAdd_spec {key : RSAPublicKey} {m : ℕ} (hkey : MontKey m key) {c b : List ℕ} {a : ℕ}
    (ha : a < 2 ^ 32) (hb : Words (m + 1) b) (hc : Words (m + 1) c) :
    Words (m + 1) (montMulAdd key c a b) ∧
      2 ^ 32 * value (montMulAdd key c a b) ≡ a * value b + value c [MOD value key.n] := by
  obtain ⟨n0, ns, hn, hn0, hns⟩ := hkey.n.exists_cons
  obtain ⟨b0, bs, rfl, hb0, hbs⟩ := hb.exists_cons
  obtain ⟨c0, cs, rfl, hc0, hcs⟩ := hc.exists_cons
  have hinv : 2 ^ 32 ∣ key.n0inv * n0 + 1 := by
    have hdvd := hkey.inv
    rw [hn, value_cons] at hdvd
    have hsplit : key.n0inv * (n0 + 2 ^ 32 * value ns) + 1 =
        key.n0inv * n0 + 1 + 2 ^ 32 * (key.n0inv * value ns) := by ring
    rw [hsplit] at hdvd
    exact (Nat.dvd_add_left (Dvd.intro _ rfl)).mp hdvd
  have hbound_n := hkey.n.value_lt
  have hbound_b := hb.value_lt
  have hbound_c := hc.value_lt
  have hltd0 := u32_lt (u32 (u64 (a * b0 + c0)) * key.n0inv)
  obtain ⟨hwords, htotal⟩ := round_spec hinv ha hb0 hc0 hn0 hbs hcs hns rfl rfl rfl rfl
  unfold montMulAdd
  simp only [hn]
  rw [← hn] at htotal ⊢
  revert hwords htotal
  generalize mulLoop _ _ _ _ bs cs ns = r
  generalize u32 (u32 (u64 (a * b0 + c0)) * key.n0inv) = d0 at hltd0 ⊢
  generalize u64 (r.1 / 2 ^ 32 + r.2.1 / 2 ^ 32) = K
  generalize r.2.2 ++ [u32 K] = out
  intro hwords htotal
  have hmod : 2 ^ 32 * (value out + (2 ^ 32) ^ (m + 1) * (K / 2 ^ 32)) ≡
      a * value (b0 :: bs) + value (c0 :: cs) [MOD value key.n] := by
    rw [htotal]
    exact Nat.add_mul_mod_self_right ..
  -- what was summed up is below the size of the array and the modulus
  have hlt : value out + (2 ^ 32) ^ (m + 1) * (K / 2 ^ 32) <
      (2 ^ 32) ^ (m + 1) + value key.n := by
    have hab : a * value (b0 :: bs) ≤ (2 ^ 32 - 1) * (2 ^ 32) ^ (m + 1) :=
      Nat.mul_le_mul (by omega) hbound_b.le
    have hdn : d0 * value key.n ≤ (2 ^ 32 - 1) * value key.n := Nat.mul_le_mul_right _ (by omega)
    omega
  by_cases hcarry : K / 2 ^ 32 ≠ 0
  · rw [if_pos hcarry]
    have hle : (2 ^ 32) ^ (m + 1) ≤ (2 ^ 32) ^ (m + 1) * (K / 2 ^ 32) :=
      Nat.le_mul_of_pos_right _ (Nat.pos_of_ne_zero hcarry)
    obtain ⟨hsub, hval⟩ := subM_spec hwords hkey.n _ (by omega) hlt
    refine ⟨hsub, ?_⟩
    calc 2 ^ 32 * value (subM key out)
        ≡ 2 ^ 32 * value (subM key out) + 2 ^ 32 * value key.n [MOD value key.n] :=
          (Nat.add_mul_mod_self_right ..).symm
      _ = 2 ^ 32 * (value out + (2 ^ 32) ^ (m + 1) * (K / 2 ^ 32)) := by rw [← Nat.mul_add, hval]
      _ ≡ a * value (b0 :: bs) + value (c0 :: cs) [MOD value key.n] := hmod
  · rw [if_neg hcarry]
    rw [not_not.mp hcarry, Nat.mul_zero, Nat.add_zero] at hmod
    exact ⟨hwords, hmod⟩

/-- The product of two arrays, divided by the size of the array. -/
theorem montMul_spec {key : RSAPublicKey} {m : ℕ} (hkey : MontKey m key) (hlen : key.len = m + 1)
    {a b : List ℕ} (ha : Words (m + 1) a) (hb : Words (m + 1) b) :
    Words (m + 1) (montMul key a b) ∧
      (2 ^ 32) ^ (m + 1) * value (montMul key a b) ≡ value a * value b [MOD value key.n] := by
  obtain ⟨hwords, hval⟩ := Montgomery.foldl_step (2 ^ 32) (b := value b) value (Words (m + 1))
    (fun c ai => montMulAdd key c ai b)
    (fun c w hw hc => (montMulAdd_spec hkey (ha.lt w hw) hb hc).1)
    (fun c w hw hc => (montMulAdd_spec hkey (ha.lt w hw) hb hc).2)
    (Words.replicate_zero (m + 1))
  rw [ha.length, value_replicate_zero, Nat.add_zero] at hval
  rw [montMul, hlen]
  exact ⟨hwords, hval⟩

/-- The size of an array of words, which the comments call `R`. -/
def rsaSize : ℕ := (2 ^ 32) ^ rsaNumWords

/-- A 2048-bit public key: its top bit is set, and `n0inv` and `rr` belong to it. -/
structure RSAPublicKey.Valid (key : RSAPublicKey) : Prop where
  len : key.len = rsaNumWords
  n : Words rsaNumWords key.n
  rr : Words rsaNumWords key.rr
  n_odd : value key.n % 2 = 1
  top : rsaSize ≤ 2 * value key.n
  n0inv : 2 ^ 32 ∣ key.n0inv * value key.n + 1
  rr_eq : value key.rr ≡ rsaSize * rsaSize [MOD value key.n]
  exponent : key.exponent = 3 ∨ key.exponent = 65537

section Valid
variable {key : RSAPublicKey} (hkey : key.Valid)
include hkey

theorem RSAPublicKey.Valid.coprime : (value key.n).Coprime rsaSize := by
  have hodd : (value key.n).Coprime 2 := Nat.coprime_two_right.mpr (Nat.odd_iff.mpr hkey.n_odd)
  exact (hodd.pow_right 32).pow_right rsaNumWords

theorem RSAPublicKey.Valid.mul {a b : List ℕ} (ha : Words rsaNumWords a)
    (hb : Words rsaNumWords b) : Words rsaNumWords (montMul key a b) ∧
      rsaSize * value (montMul key a b) ≡ value a * value b [MOD value key.n] :=
  montMul_spec (m := 63) ⟨hkey.n, hkey.n0inv⟩ hkey.len ha hb

/-- A product of two numbers in Montgomery form. -/
theorem RSAPublicKey.Valid.mul_rep {a b : List ℕ} {x y : ℕ} (ha : Words rsaNumWords a)
    (hb : Words rsaNumWords b) (hx : Montgomery.Rep (value key.n) rsaSize (value a) x)
    (hy : Montgomery.Rep (value key.n) rsaSize (value b) y) :
    Words rsaNumWords (montMul key a b) ∧
      Montgomery.Rep (value key.n) rsaSize (value (montMul key a b)) (x * y) := by
  obtain ⟨hwords, hval⟩ := hkey.mul ha hb
  exact ⟨hwords, hx.mul hkey.coprime hy hval⟩

/-- The loop that squares twice in each turn. -/
theorem RSAPublicKey.Valid.squares {aR : List ℕ} {x : ℕ} (ha : Words rsaNumWords aR)
    (hx : Montgomery.Rep (value key.n) rsaSize (value aR) x) (k : ℕ) :
    let r := (List.range k).foldl (fun aR _ =>
      let aaR := montMul key aR aR
      montMul key aaR aaR) aR
    Words rsaNumWords r ∧ Montgomery.Rep (value key.n) rsaSize (value r) (x ^ 4 ^ k) := by
  induction k with
  | zero => exact ⟨ha, by simpa using hx⟩
  | succ k ih =>
    obtain ⟨hwords, hrep⟩ := ih
    obtain ⟨hwords, hrep⟩ := hkey.mul_rep hwords hwords hrep hrep
    obtain ⟨hwords, hrep⟩ := hkey.mul_rep hwords hwords hrep hrep
    have hpow : x ^ 4 ^ k * x ^ 4 ^ k * (x ^ 4 ^ k * x ^ 4 ^ k) = x ^ 4 ^ (k + 1) := by
      rw [← pow_add, ← pow_add]
      congr 1
      ring
    rw [hpow] at hrep
    simp only [List.range_succ, List.foldl_append, List.foldl_cons, List.foldl_nil]
    exact ⟨hwords, hrep⟩

theorem RSAPublicKey.Valid.modpowWords {a : List ℕ} (ha : Words rsaNumWords a) :
    Words rsaNumWords (modpowWords key a) ∧
      value (modpowWords key a) ≡ value a ^ key.exponent [MOD value key.n] := by
  obtain ⟨haR, hval⟩ := hkey.mul ha hkey.rr
  have hrep := Montgomery.Rep.of_square hkey.coprime hkey.rr_eq hval
  unfold UBoot.Secure.modpowWords
  rcases hkey.exponent with he | he
  · obtain ⟨hsquare, hrep⟩ := hkey.mul_rep haR haR hrep hrep
    obtain ⟨hwords, hval⟩ := hkey.mul hsquare ha
    have hfinal := hrep.mul_plain hkey.coprime hval
    rw [he, if_neg (by norm_num)]
    refine ⟨hwords, ?_⟩
    rwa [show value a * value a * value a = value a ^ 3 by ring] at hfinal
  · obtain ⟨hpower, hrep⟩ := hkey.squares haR hrep 8
    obtain ⟨hwords, hval⟩ := hkey.mul hpower ha
    have hfinal := hrep.mul_plain hkey.coprime hval
    rw [he, if_pos rfl]
    refine ⟨hwords, ?_⟩
    rwa [← pow_succ, show 4 ^ 8 + 1 = 65537 by norm_num] at hfinal

/-- One subtraction at the end reduces the result fully. -/
theorem RSAPublicKey.Valid.reduce {a : List ℕ} (ha : Words rsaNumWords a) :
    Words rsaNumWords (if geM key a then subM key a else a) ∧
      value (if geM key a then subM key a else a) = value a % value key.n := by
  have hbound := ha.value_lt
  rw [← rsaSize] at hbound
  have htop := hkey.top
  rw [geM_spec ha hkey.n]
  by_cases hle : value key.n ≤ value a
  · obtain ⟨hwords, hval⟩ := subM_spec ha hkey.n 0 (by omega) (by
      rw [← rsaSize]
      omega)
    rw [if_pos (by simpa using hle)]
    refine ⟨hwords, ?_⟩
    rw [Nat.mod_eq_sub_mod hle, Nat.mod_eq_of_lt (by omega)]
    omega
  · rw [if_neg (by simpa using hle)]
    exact ⟨ha, (Nat.mod_eq_of_lt (by omega)).symm⟩

end Valid

theorem wordsOfBytes_append (bytes : List UInt8) (b₀ b₁ b₂ b₃ : UInt8) {m : ℕ}
    (hlen : bytes.length = 4 * m) : wordsOfBytes (bytes ++ [b₀, b₁, b₂, b₃]) =
      (b₀.toNat * 2 ^ 24 + b₁.toNat * 2 ^ 16 + b₂.toNat * 2 ^ 8 + b₃.toNat) ::
        wordsOfBytes bytes := by
  have hlen' : (bytes ++ [b₀, b₁, b₂, b₃]).length = 4 * (m + 1) := by
    rw [List.length_append, hlen]
    rfl
  have hlast : ∀ k, (bytes ++ [b₀, b₁, b₂, b₃]).getD (4 * (m + 1) - 4 * (0 + 1) + k) 0 =
      [b₀, b₁, b₂, b₃].getD k 0 := by
    intro k
    rw [List.getD_eq_getElem?_getD, List.getD_eq_getElem?_getD,
      List.getElem?_append_right (by omega),
      show 4 * (m + 1) - 4 * (0 + 1) + k - bytes.length = k by omega]
  have hfront : ∀ i < m, ∀ k < 4, (bytes ++ [b₀, b₁, b₂, b₃]).getD
      (4 * (m + 1) - 4 * (i + 1 + 1) + k) 0 = bytes.getD (4 * m - 4 * (i + 1) + k) 0 := by
    intro i hi k hk
    rw [List.getD_eq_getElem?_getD, List.getD_eq_getElem?_getD,
      List.getElem?_append_left (by omega),
      show 4 * (m + 1) - 4 * (i + 1 + 1) + k = 4 * m - 4 * (i + 1) + k by omega]
  unfold wordsOfBytes
  rw [hlen', hlen, Nat.mul_div_cancel_left _ (by norm_num), Nat.mul_div_cancel_left _ (by norm_num),
    List.range_succ_eq_map, List.map_cons, List.map_map]
  refine List.cons_eq_cons.mpr ⟨?_, ?_⟩
  · simp only [hlast, List.getD_cons_zero, List.getD_cons_succ]
  · apply List.map_congr_left
    intro i hi
    have hi := List.mem_range.mp hi
    simp only [Function.comp_apply, Nat.succ_eq_add_one, hfront i hi 0 (by norm_num),
      hfront i hi 1 (by norm_num), hfront i hi 2 (by norm_num), hfront i hi 3 (by norm_num)]

theorem exists_append_four {bytes : List UInt8} {m : ℕ} (h : bytes.length = 4 * (m + 1)) :
    ∃ front b₀ b₁ b₂ b₃, bytes = front ++ [b₀, b₁, b₂, b₃] ∧ front.length = 4 * m := by
  obtain ⟨b₀, b₁, b₂, b₃, hdrop⟩ : ∃ b₀ b₁ b₂ b₃, bytes.drop (4 * m) = [b₀, b₁, b₂, b₃] := by
    have hlen : (bytes.drop (4 * m)).length = 4 := by
      rw [List.length_drop]
      omega
    match bytes.drop (4 * m), hlen with
    | [b₀, b₁, b₂, b₃], _ => exact ⟨b₀, b₁, b₂, b₃, rfl⟩
  refine ⟨bytes.take (4 * m), b₀, b₁, b₂, b₃, ?_, ?_⟩
  · rw [← hdrop, List.take_append_drop]
  · rw [List.length_take]
    omega

theorem wordsOfBytes_spec {bytes : List UInt8} {m : ℕ} (h : bytes.length = 4 * m) :
    Words m (wordsOfBytes bytes) ∧ value (wordsOfBytes bytes) = os2ip bytes := by
  induction m generalizing bytes with
  | zero =>
    obtain rfl : bytes = [] := by simpa using h
    exact ⟨Words.nil, rfl⟩
  | succ m ih =>
    obtain ⟨front, b₀, b₁, b₂, b₃, rfl, hfront⟩ := exists_append_four h
    obtain ⟨hwords, hval⟩ := ih hfront
    have h₀ := b₀.toNat_lt
    have h₁ := b₁.toNat_lt
    have h₂ := b₂.toNat_lt
    have h₃ := b₃.toNat_lt
    rw [wordsOfBytes_append front b₀ b₁ b₂ b₃ hfront]
    refine ⟨hwords.cons (by omega), ?_⟩
    have hsplit : front ++ [b₀, b₁, b₂, b₃] = front ++ [b₀] ++ [b₁] ++ [b₂] ++ [b₃] := by simp
    rw [value_cons, hval, hsplit, os2ip_append_singleton, os2ip_append_singleton,
      os2ip_append_singleton, os2ip_append_singleton]
    ring

theorem bytesOfWords_spec {m : ℕ} {l : List ℕ} (h : Words m l) :
    bytesOfWords l = i2osp (4 * m) (value l) := by
  induction m generalizing l with
  | zero =>
    obtain rfl := List.length_eq_zero_iff.mp h.length
    rfl
  | succ m ih =>
    obtain ⟨w, l, rfl, hw, hl⟩ := h.exists_cons
    have := ih hl
    unfold bytesOfWords at this ⊢
    rw [List.reverse_cons, List.flatMap_append, this, List.flatMap_singleton, value_cons,
      Nat.mul_succ, i2osp_add_four _ _ _ hw]

/-- The exponentiation in place: the power of the number in the buffer, fully reduced. -/
theorem RSAPublicKey.Valid.modpow {key : RSAPublicKey} (hkey : key.Valid) {inout : List UInt8}
    (hlen : inout.length = rsaNumBytes) :
    modpow key inout = i2osp rsaNumBytes (os2ip inout ^ key.exponent % value key.n) := by
  obtain ⟨hwords, hval⟩ := wordsOfBytes_spec (m := rsaNumWords) hlen
  obtain ⟨hpower, hmod⟩ := hkey.modpowWords hwords
  obtain ⟨hreduced, hrem⟩ := hkey.reduce hpower
  rw [UBoot.Secure.modpow, bytesOfWords_spec hreduced, hrem, ← hval]
  exact congrArg (i2osp rsaNumBytes) hmod

end UBoot.Secure
