import UBoot.Secure.Verify

/-!
# SHA-256 as the engine computes it

The compression function of FIPS 180 with the constants that `sha256.c` lists, as an
instance of an engine, and the expected padding hash computed with it. The blocks of a
message determine the message.
-/
namespace UBoot.Secure
open ByteStore Octets

/-- The table `K`. -/
def sha256K : List UInt32 :=
  [0x428a2f98, 0x71374491, 0xb5c0fbcf, 0xe9b5dba5, 0x3956c25b, 0x59f111f1, 0x923f82a4, 0xab1c5ed5,
    0xd807aa98, 0x12835b01, 0x243185be, 0x550c7dc3, 0x72be5d74, 0x80deb1fe, 0x9bdc06a7, 0xc19bf174,
    0xe49b69c1, 0xefbe4786, 0x0fc19dc6, 0x240ca1cc, 0x2de92c6f, 0x4a7484aa, 0x5cb0a9dc, 0x76f988da,
    0x983e5152, 0xa831c66d, 0xb00327c8, 0xbf597fc7, 0xc6e00bf3, 0xd5a79147, 0x06ca6351, 0x14292967,
    0x27b70a85, 0x2e1b2138, 0x4d2c6dfc, 0x53380d13, 0x650a7354, 0x766a0abb, 0x81c2c92e, 0x92722c85,
    0xa2bfe8a1, 0xa81a664b, 0xc24b8b70, 0xc76c51a3, 0xd192e819, 0xd6990624, 0xf40e3585, 0x106aa070,
    0x19a4c116, 0x1e376c08, 0x2748774c, 0x34b0bcb5, 0x391c0cb3, 0x4ed8aa4a, 0x5b9cca4f, 0x682e6ff3,
    0x748f82ee, 0x78a5636f, 0x84c87814, 0x8cc70208, 0x90befffa, 0xa4506ceb, 0xbef9a3f7, 0xc67178f2]

/-- The initial state. -/
def sha256Iv : List UInt32 :=
  [0x6a09e667, 0xbb67ae85, 0x3c6ef372, 0xa54ff53a, 0x510e527f, 0x9b05688c, 0x1f83d9ab, 0x5be0cd19]

def ror (value bits : UInt32) : UInt32 := (value >>> bits) ||| (value <<< (32 - bits))

/-- The next word of the schedule, which is kept with the latest word first. -/
def extend (ws : List UInt32) : List UInt32 :=
  let w i := ws.getD i 0
  let s0 := ror (w 14) 7 ^^^ ror (w 14) 18 ^^^ (w 14 >>> 3)
  let s1 := ror (w 1) 17 ^^^ ror (w 1) 19 ^^^ (w 1 >>> 10)
  (w 15 + s0 + w 6 + s1) :: ws

/-- The 64 words of the schedule. -/
def schedule (w : List UInt32) : List UInt32 := (extend^[48] w.reverse).reverse

/-- One round, with a constant and a word of the schedule. -/
def round (s : List UInt32) (kw : UInt32 × UInt32) : List UInt32 :=
  match s with
  | [a, b, c, d, e, f, g, h] =>
    let s0 := ror a 2 ^^^ ror a 13 ^^^ ror a 22
    let maj := (a &&& b) ^^^ (a &&& c) ^^^ (b &&& c)
    let s1 := ror e 6 ^^^ ror e 11 ^^^ ror e 25
    let ch := (e &&& f) ^^^ (~~~ e &&& g)
    let t1 := h + s1 + ch + kw.1 + kw.2
    [t1 + (s0 + maj), a, b, c, d + t1, e, f, g]
  | s => s

/-- The state after a block. -/
def compress (h w : List UInt32) : List UInt32 :=
  List.zipWith (· + ·) h ((sha256K.zip (schedule w)).foldl round h)

/-- The engine that computes SHA-256. -/
def fips : Engine := ⟨compress sha256Iv, compress⟩

/-- The hash that `RSA_verify` expects is that of the encoding with a zero digest. -/
theorem fips_expectedPad : fips.sha256 (emsaPkcs1 zeroDigest) = kExpectedPadSha256Rsa2048 := by
  set_option maxRecDepth 20000 in decide +kernel

theorem beWord_toNat (b : ℕ → UInt8) : (beWord b).toNat =
    (b 0).toNat * 2 ^ 24 + (b 1).toNat * 2 ^ 16 + (b 2).toNat * 2 ^ 8 + (b 3).toNat := by
  have h₀ := (b 0).toNat_lt
  have h₁ := (b 1).toNat_lt
  have h₂ := (b 2).toNat_lt
  have h₃ := (b 3).toNat_lt
  have hshift : ∀ (x : UInt8) (n : UInt32), n.toNat ≤ 24 →
      (x.toUInt32 <<< n).toNat = x.toNat <<< n.toNat := by
    intro x n hn
    have hx := x.toNat_lt
    have hpow : 2 ^ n.toNat ≤ 2 ^ 24 := Nat.pow_le_pow_right (by norm_num) hn
    have hmul : x.toNat * 2 ^ n.toNat ≤ 255 * 2 ^ 24 := Nat.mul_le_mul (by omega) hpow
    rw [UInt32.toNat_shiftLeft, UInt8.toNat_toUInt32, Nat.mod_eq_of_lt (by omega : n.toNat < 32),
      Nat.shiftLeft_eq, Nat.mod_eq_of_lt (by omega)]
  -- the bytes do not overlap, so that `|||` adds them
  have hlow : (b 2).toNat <<< 8 ||| (b 3).toNat = (b 2).toNat * 2 ^ 8 + (b 3).toNat := by
    rw [← Nat.shiftLeft_add_eq_or_of_lt h₃, Nat.shiftLeft_eq]
  have hmid : (b 1).toNat <<< 16 ||| ((b 2).toNat * 2 ^ 8 + (b 3).toNat) =
      (b 1).toNat * 2 ^ 16 + ((b 2).toNat * 2 ^ 8 + (b 3).toNat) := by
    rw [← Nat.shiftLeft_add_eq_or_of_lt (by omega), Nat.shiftLeft_eq]
  have hhigh : (b 0).toNat <<< 24 ||| ((b 1).toNat * 2 ^ 16 +
      ((b 2).toNat * 2 ^ 8 + (b 3).toNat)) =
      (b 0).toNat * 2 ^ 24 + ((b 1).toNat * 2 ^ 16 + ((b 2).toNat * 2 ^ 8 + (b 3).toNat)) := by
    rw [← Nat.shiftLeft_add_eq_or_of_lt (by omega), Nat.shiftLeft_eq]
  rw [beWord, UInt32.toNat_or, UInt32.toNat_or, UInt32.toNat_or, hshift _ _ (by decide),
    hshift _ _ (by decide), hshift _ _ (by decide), UInt8.toNat_toUInt32, Nat.or_assoc,
    Nat.or_assoc]
  simp only [UInt32.reduceToNat]
  rw [hlow, hmid, hhigh]
  omega

theorem beWord_inj {b b' : ℕ → UInt8} (h : beWord b = beWord b') : ∀ k < 4, b k = b' k := by
  have hnat := congrArg UInt32.toNat h
  rw [beWord_toNat, beWord_toNat] at hnat
  have hlt : ∀ k, (b k).toNat < 256 := fun k => (b k).toNat_lt
  have hlt' : ∀ k, (b' k).toNat < 256 := fun k => (b' k).toNat_lt
  have h₀ := hlt 0
  have h₁ := hlt 1
  have h₂ := hlt 2
  have h₃ := hlt 3
  have h₀' := hlt' 0
  have h₁' := hlt' 1
  have h₂' := hlt' 2
  have h₃' := hlt' 3
  intro k hk
  apply UInt8.toNat_inj.mp
  match k, hk with
  | 0, _ => omega
  | 1, _ => omega
  | 2, _ => omega
  | 3, _ => omega

theorem blockWords_inj {bytes bytes' : List UInt8} (h : blockWords bytes = blockWords bytes') :
    ∀ k < 64, bytes.getD k 0 = bytes'.getD k 0 := by
  intro k hk
  have hword := List.map_inj_left.mp h (k / 4) (List.mem_range.mpr (by omega))
  have := beWord_inj hword (k % 4) (Nat.mod_lt _ (by norm_num))
  rwa [Nat.div_add_mod] at this

/-- Strings of whole blocks with the same blocks are equal. -/
theorem blocksOf_inj {bytes bytes' : List UInt8} (hlen : bytes.length = bytes'.length)
    (hwhole : 64 ∣ bytes.length) (h : blocksOf bytes = blocksOf bytes') : bytes = bytes' := by
  apply List.ext_getElem hlen
  intro i hi hi'
  rw [blocksOf, blocksOf, ← hlen] at h
  have hblock := List.map_inj_left.mp h (i / 64) (List.mem_range.mpr (by omega))
  have hbyte := blockWords_inj hblock (i % 64) (Nat.mod_lt _ (by norm_num))
  simpa [List.getD_eq_getElem?_getD, Nat.div_add_mod, hi, hi'] using hbyte

theorem message_of_blocks {m m' : List UInt8} (hlen : m.length = m'.length)
    (h : blocksOf (fipsPad m) = blocksOf (fipsPad m')) : m = m' := by
  have hpadded : fipsPad m = fipsPad m' := by
    apply blocksOf_inj _ (length_fipsPad m) h
    simp [fipsPad, hlen]
  rw [fipsPad, fipsPad, List.append_assoc, List.append_assoc, List.append_assoc,
    List.append_assoc] at hpadded
  exact (List.append_inj hpadded hlen).1

end UBoot.Secure
