import UBoot.Library.Primality
import UBoot.Secure.Sign

/-!
# Signed images are accepted

A key pair, its signatures, and the two programs together: what `sign.py` writes is what
`getverifyimage` reads and `image_rsa_verify` accepts.
-/
namespace UBoot.Secure
open ByteStore Octets

/-- An RSA key pair with a modulus of 2048 bits. -/
structure KeyPair where
  p : ℕ
  q : ℕ
  e : ℕ
  d : ℕ
  p_prime : p.Prime
  q_prime : q.Prime
  p_odd : p % 2 = 1
  q_odd : q % 2 = 1
  ne : p ≠ q
  bits : (p * q).size = 2048
  exponent : e = 3 ∨ e = 65537
  inverse_p : e * d ≡ 1 [MOD p - 1]
  inverse_q : e * d ≡ 1 [MOD q - 1]

namespace KeyPair
variable (key : KeyPair)

/-- The modulus. -/
def n : ℕ := key.p * key.q

/-- The PKCS#1 v1.5 signature of a message, with SHA-256. -/
def signature (message : List UInt8) : List UInt8 :=
  i2osp rsaNumBytes (os2ip (emsaPkcs1 (fips.sha256 message)) ^ key.d % key.n)

theorem n_odd : key.n % 2 = 1 := by
  rw [n, Nat.mul_mod, key.p_odd, key.q_odd]

theorem size_n : key.n.size = 32 * rsaNumWords := key.bits

theorem n_lt : key.n < rsaSize := by
  have := Nat.lt_size_self key.n
  rwa [size_n, pow_mul] at this

theorem le_two_mul_n : rsaSize ≤ 2 * key.n := by
  have hle : 2 ^ (32 * rsaNumWords - 1) ≤ key.n := by
    apply Nat.lt_size.mp
    rw [size_n, rsaNumWords]
    norm_num
  calc rsaSize = 2 * 2 ^ (32 * rsaNumWords - 1) := by
        rw [mul_pow_sub_one (by decide), rsaSize, pow_mul]
    _ ≤ 2 * key.n := Nat.mul_le_mul_left 2 hle

theorem e_lt : key.e < 2 ^ 32 := by
  rcases key.exponent with he | he
  · rw [he]
    norm_num
  · rw [he]
    norm_num

/-- The exponents undo each other. -/
theorem pow_pow_modEq (x : ℕ) : x ^ (key.e * key.d) ≡ x [MOD key.n] := by
  have hpos : 1 ≤ key.e * key.d := by
    by_contra hzero
    -- otherwise `p - 1` would divide 1, and `p` would be 2
    have h := key.inverse_p
    rw [show key.e * key.d = 0 by omega] at h
    have hdvd := (Nat.modEq_iff_dvd' (Nat.zero_le 1)).mp h
    have hp := key.p_odd
    have := Nat.le_of_dvd (by norm_num) hdvd
    have := key.p_prime.two_le
    omega
  exact Montgomery.pow_modEq_self key.p_prime key.q_prime key.ne hpos
    ((Nat.modEq_iff_dvd' hpos).mp key.inverse_p.symm)
    ((Nat.modEq_iff_dvd' hpos).mp key.inverse_q.symm) x

end KeyPair

theorem os2ip_zero_cons (bytes : List UInt8) : os2ip (0 :: bytes) = os2ip bytes := by
  simp [os2ip]

/-- An encoding starts with a zero and is smaller than the modulus. -/
theorem os2ip_emsaPkcs1_lt (key : KeyPair) {hash : List UInt8}
    (hhash : hash.length = sha256DigestSize) : os2ip (emsaPkcs1 hash) < key.n := by
  have hlen := length_emsaPkcs1 hhash
  obtain ⟨bytes, hbytes⟩ : ∃ bytes, emsaPkcs1 hash = 0 :: bytes := ⟨_, rfl⟩
  rw [hbytes, List.length_cons, rsaNumBytes] at hlen
  have hlt := os2ip_lt bytes
  rw [show bytes.length = 255 by omega] at hlt
  have hsize : rsaSize = 256 * 256 ^ 255 := by
    rw [rsaSize, rsaNumWords, ← pow_mul, ← pow_succ', show 256 = 2 ^ 8 by norm_num, ← pow_mul]
  have := key.le_two_mul_n
  rw [hbytes, os2ip_zero_cons]
  omega

/-- The power of a signature is the encoding that was signed. -/
theorem KeyPair.signature_pow (key : KeyPair) (message : List UInt8) :
    i2osp rsaNumBytes (os2ip (key.signature message) ^ key.e % key.n) =
      emsaPkcs1 (fips.sha256 message) := by
  have hhash := length_sha256 fips message
  have hlt := os2ip_emsaPkcs1_lt key hhash
  set em := os2ip (emsaPkcs1 (fips.sha256 message)) with hem
  have hsize : rsaSize = 256 ^ rsaNumBytes := by
    rw [rsaSize, rsaNumWords, rsaNumBytes, show 256 ^ 256 = (2 ^ 8) ^ 256 by norm_num, ← pow_mul,
      ← pow_mul]
  have hsignature : os2ip (key.signature message) = em ^ key.d % key.n := by
    have := Nat.mod_lt (em ^ key.d) (by omega : key.n > 0)
    rw [KeyPair.signature, os2ip_i2osp, ← hsize,
      Nat.mod_eq_of_lt (this.trans key.n_lt)]
  have hpow : os2ip (key.signature message) ^ key.e % key.n = em := by
    rw [hsignature, ← Nat.pow_mod, ← pow_mul, Nat.mul_comm key.d]
    exact Nat.mod_eq_of_modEq (key.pow_pow_modEq em) hlt
  rw [hpow, hem, i2osp_os2ip (length_emsaPkcs1 hhash)]

/-- What `getverifyimage` finds in a container: the file, its signature, and the key. -/
structure Parsed (key : KeyPair) (file keyBlock : List UInt8) (img : VerifyImage) : Prop where
  len : img.originImageLen = file.length
  image : img.image = file
  signature : img.rsaSignature = key.signature file
  keyBlock_eq : img.keyBlock = keyBlock
  valid : (publicKey img.rsaPubKeyStru).Valid
  n : value (publicKey img.rsaPubKeyStru).n = key.n
  exponent : (publicKey img.rsaPubKeyStru).exponent = key.e

/-- An array of words that was written as the bytes of a number. -/
theorem words_of_slice {m : Mem} {off v : ℕ} (hslice : slice m off 256 = leBytes 256 v)
    (hv : v < rsaSize) :
    Words rsaNumWords ((List.range rsaNumWords).map fun i => fetch m (off + 4 * i) 4) ∧
      value ((List.range rsaNumWords).map fun i => fetch m (off + 4 * i) 4) = v := by
  have hmap : ((List.range rsaNumWords).map fun i => fetch m (off + 4 * i) 4) =
      (List.range rsaNumWords).map fun i => v / (2 ^ 32) ^ i % 2 ^ 32 :=
    List.map_congr_left fun i hi => fetch_word (n := rsaNumWords) hslice (List.mem_range.mp hi)
  rw [hmap, value_words, ← rsaSize, Nat.mod_eq_of_lt hv]
  refine ⟨⟨by simp, fun w hw => ?_⟩, rfl⟩
  obtain ⟨i, -, rfl⟩ := List.mem_map.mp hw
  exact Nat.mod_lt _ (by norm_num)

/-- The key block in memory is a key of the right form, with the modulus and the exponent of
the pair. -/
theorem publicKey_valid {key : KeyPair} {n0inv : ℕ} (hlt : n0inv < 2 ^ 32)
    (hinv : 2 ^ 32 ∣ n0inv * key.n + 1) {m : Mem}
    (hm : slice m 0 524 = keyBytes n0inv key.n key.e) :
    (publicKey m).Valid ∧ value (publicKey m).n = key.n ∧ (publicKey m).exponent = key.e := by
  obtain ⟨hm, hexponent⟩ := slice_eq_append hm
  obtain ⟨hm, hrr⟩ := slice_eq_append hm
  obtain ⟨hm, hn⟩ := slice_eq_append hm
  obtain ⟨hlen, hn0inv⟩ := slice_eq_append hm
  simp only [List.length_append, length_leBytes, Nat.zero_add, Nat.reduceAdd]
    at hlen hn0inv hn hrr hexponent
  have hlen : (publicKey m).len = rsaNumWords := fetch_of_slice hlen
  have hn0inv : (publicKey m).n0inv = n0inv :=
    (fetch_of_slice hn0inv).trans (Nat.mod_eq_of_lt (lt_of_lt_of_eq hlt (by norm_num)))
  have hexponent : (publicKey m).exponent = key.e :=
    (fetch_of_slice hexponent).trans (Nat.mod_eq_of_lt (lt_of_lt_of_eq key.e_lt (by norm_num)))
  have hnlt := key.n_lt
  have hpos : 0 < key.n := by
    have := key.n_odd
    omega
  obtain ⟨hnWords, hnValue⟩ := words_of_slice hn hnlt
  obtain ⟨hrrWords, hrrValue⟩ := words_of_slice hrr ((Nat.mod_lt _ hpos).trans hnlt)
  have hn : value (publicKey m).n = key.n := hnValue
  refine ⟨⟨hlen, hnWords, hrrWords, ?_, ?_, ?_, ?_, ?_⟩, hn, hexponent⟩
  · rw [hn]
    exact key.n_odd
  · rw [hn]
    exact key.le_two_mul_n
  · rw [hn, hn0inv]
    exact hinv
  · rw [hn]
    exact hrrValue ▸ Nat.mod_modEq _ _
  · rw [hexponent]
    exact key.exponent

@[simp] theorem length_keyBytes (n0inv N E : ℕ) : (keyBytes n0inv N E).length = 524 := by
  simp [keyBytes]

/-- The container of a file. -/
def containerBytes (signature keyBlock file : List UInt8) : List UInt8 :=
  leBytes 4 file.length ++ List.replicate 508 0 ++ signature ++ keyBlock ++ List.replicate 244 0 ++
    file

theorem length_containerBytes {signature keyBlock : List UInt8}
    (hsignature : signature.length = 256) (hkey : keyBlock.length = 524) (file : List UInt8) :
    (containerBytes signature keyBlock file).length = 1536 + file.length := by
  simp only [containerBytes, List.length_append, length_leBytes, List.length_replicate, hsignature,
    hkey]

theorem signFile_eq (sign : List UInt8 → List UInt8) {N E : ℕ} {file keyBlock : List UInt8}
    (hkey : dumpKey N E = some keyBlock) (hlen : file.length < 2 ^ 32) :
    signFile sign N E file = some (containerBytes (sign file) keyBlock file) := by
  have hgap : padding 127 0 = some (List.replicate 508 0) := padding_zero 127
  have hgap' : padding 61 0 = some (List.replicate 244 0) := padding_zero 61
  rw [signFile, pack_natCast hlen, hgap, hgap', hkey]
  simp only [Option.bind_eq_bind, Option.bind_some, Option.pure_def]
  rw [containerBytes]

/-- The parts of a container are found where they were written. -/
theorem parsed_of_container {key : KeyPair} {n0inv : ℕ} {file : List UInt8} (hlt : n0inv < 2 ^ 32)
    (hinv : 2 ^ 32 ∣ n0inv * key.n + 1) (hlen : file.length < 2 ^ 32) {mem : Mem}
    (hmem : slice mem 0 (1536 + file.length) =
      containerBytes (key.signature file) (keyBytes n0inv key.n key.e) file) :
    Parsed key file (keyBytes n0inv key.n key.e) (getverifyimage mem) := by
  obtain ⟨hmem, hfile⟩ := slice_eq_append hmem
  obtain ⟨hmem, -⟩ := slice_eq_append hmem
  obtain ⟨hmem, hkey⟩ := slice_eq_append hmem
  obtain ⟨hmem, hsignature⟩ := slice_eq_append hmem
  obtain ⟨hlength, -⟩ := slice_eq_append hmem
  have hsig : (key.signature file).length = 256 := length_i2osp _ _
  simp only [List.length_append, length_leBytes, List.length_replicate, length_keyBytes, hsig,
    Nat.zero_add, Nat.reduceAdd] at hlength hsignature hkey hfile
  have hlength : (getverifyimage mem).originImageLen = file.length :=
    (fetch_of_slice hlength).trans (Nat.mod_eq_of_lt (lt_of_lt_of_eq hlen (by norm_num)))
  have hblock : (getverifyimage mem).keyBlock = keyBytes n0inv key.n key.e :=
    (slice_advance mem rsaPubKeyLen 524).trans hkey
  obtain ⟨hvalid, hn, hexponent⟩ := publicKey_valid hlt hinv hblock
  refine ⟨hlength, ?_, hsignature, hblock, hvalid, hn, hexponent⟩
  rw [VerifyImage.image, hlength]
  exact (slice_advance mem headInfoLen file.length).trans hfile

/-- An image found in a container is accepted, when the efuses hold the hash of the key; what
is hashed is the key block, the file, and the encoding with a zero digest. -/
theorem Parsed.accepted {key : KeyPair} {file keyBlock : List UInt8} {img : VerifyImage}
    (h : Parsed key file keyBlock img) (hlen : file.length < 2 ^ 31) {board : Board}
    (hengine : ∀ m, board.engine.sha256 m = fips.sha256 m)
    (hefuse : ∀ i < 8, board.efuse i = digestWord (fips.sha256 keyBlock) i) (hw : Hw) :
    (imageRsaVerify board img hw).1 = 0 ∧ (imageRsaVerify board img hw).2.trace = hw.trace ++
      [keyBlock, file, emsaPkcs1 zeroDigest].flatMap (messageTrace board.engine) := by
  have hsig : img.rsaSignature.length = rsaNumBytes := by
    rw [h.signature]
    exact length_i2osp _ _
  have hmatches : KeyMatches board img := by
    intro i hi
    rw [h.keyBlock_eq, hengine]
    exact hefuse i hi
  have hdecrypted : decrypted board img = emsaPkcs1 zeroDigest := by
    rw [decrypted_eq_iff board h.valid hsig, h.signature, h.exponent, h.n, h.image, hengine]
    exact key.signature_pow file
  have hchecks := ChecksPass.of_valid board h.valid hsig
  obtain ⟨hvalue, messages, hmessages, htrace⟩ := imageRsaVerify_spec board hw (h.len ▸ hlen)
  constructor
  · refine hvalue.mpr ⟨hmatches, hchecks, ?_⟩
    rw [hdecrypted, hengine]
    exact fips_expectedPad
  · rcases hmessages with ⟨hnot, -⟩ | ⟨-, hnot, -⟩ | ⟨-, -, heq⟩
    · exact absurd hmatches hnot
    · exact absurd hchecks hnot
    · rw [htrace, heq, h.keyBlock_eq, h.image, hdecrypted]

/-- `75 * 2 ^ 1018 + 1`. -/
def samplePrime₁ : ℕ := 75 * 2 ^ (1017 + 1) + 1

/-- `953 * 2 ^ 1013 + 1`. -/
def samplePrime₂ : ℕ := 953 * 2 ^ (1012 + 1) + 1

theorem samplePrime₁_prime : samplePrime₁.Prime := by
  apply Primality.prime_of_squareMod 11 (by norm_num) (show samplePrime₁ = 75 * _ + 1 from rfl)
  · decide +kernel
  · decide +kernel
  · intro q hq hdvd
    have hq35 : q = 3 ∨ q = 5 := by
      rw [show 75 = 3 * 5 ^ 2 by norm_num, hq.dvd_mul] at hdvd
      rcases hdvd with h | h
      · exact .inl ((Nat.prime_dvd_prime_iff_eq hq Nat.prime_three).mp h)
      · exact .inr ((Nat.prime_dvd_prime_iff_eq hq Nat.prime_five).mp (hq.dvd_of_dvd_pow h))
    rcases hq35 with rfl | rfl
    · decide +kernel
    · decide +kernel

theorem samplePrime₂_prime : samplePrime₂.Prime := by
  apply Primality.prime_of_squareMod 3 (by norm_num) (show samplePrime₂ = 953 * _ + 1 from rfl)
  · decide +kernel
  · decide +kernel
  · intro q hq hdvd
    obtain rfl := (Nat.prime_dvd_prime_iff_eq hq (by norm_num : Nat.Prime 953)).mp hdvd
    decide +kernel

/-- A key pair with the exponent 65537. -/
def sampleKey : KeyPair where
  p := samplePrime₁
  q := samplePrime₂
  e := 65537
  d := (44589 * ((samplePrime₁ - 1) * (samplePrime₂ - 1)) + 1) / 65537
  p_prime := samplePrime₁_prime
  q_prime := samplePrime₂_prime
  p_odd := by decide +kernel
  q_odd := by decide +kernel
  ne := by decide +kernel
  bits := by decide +kernel
  exponent := .inr rfl
  inverse_p := by decide +kernel
  inverse_q := by decide +kernel

/-- Signing and verification agree. The container is parsed into the file and the parts that
were written, and it is accepted wherever the hash of its key block is in the efuses; the
image that the engine hashes for it is the file. -/
theorem signed_image_is_accepted (key : KeyPair) (sign : List UInt8 → List UInt8)
    (hsign : ∀ m, sign m = key.signature m) {file : List UInt8} (hlen : file.length < 2 ^ 31) :
    ∃ keyBlock container, dumpKey key.n key.e = some keyBlock ∧
      signFile sign key.n key.e file = some container ∧
      ∀ (board : Board) (mem : Mem) (hw : Hw), (∀ m, board.engine.sha256 m = fips.sha256 m) →
        (∀ i < 8, board.efuse i = digestWord (fips.sha256 keyBlock) i) →
        slice mem 0 container.length = container →
        Parsed key file keyBlock (getverifyimage mem) ∧
          (imageRsaVerify board (getverifyimage mem) hw).1 = 0 ∧
          (imageRsaVerify board (getverifyimage mem) hw).2.trace = hw.trace ++
            [keyBlock, file, emsaPkcs1 zeroDigest].flatMap (messageTrace board.engine) := by
  obtain ⟨n0inv, hlt, hinv, hkey⟩ := dumpKey_eq key.n_odd key.bits key.e_lt
  refine ⟨_, _, hkey, signFile_eq sign hkey (by omega), ?_⟩
  intro board mem hw hengine hefuse hmem
  have hsignature : (key.signature file).length = 256 := length_i2osp _ _
  rw [hsign, length_containerBytes hsignature (length_keyBytes _ _ _)] at hmem
  have hparsed := parsed_of_container hlt hinv (by omega) hmem
  exact ⟨hparsed, hparsed.accepted hlen hengine hefuse hw⟩

/-- A file of three bytes, signed, in memory behind which there are zeros. -/
theorem signed_image_is_accepted_sample :
    ∃ keyBlock container, dumpKey sampleKey.n sampleKey.e = some keyBlock ∧
      signFile sampleKey.signature sampleKey.n sampleKey.e [1, 2, 3] = some container ∧
      Parsed sampleKey [1, 2, 3] keyBlock (getverifyimage (ofList container)) ∧
      (imageRsaVerify ⟨fips, digestWord (fips.sha256 keyBlock), fun _ => 0⟩
        (getverifyimage (ofList container)) ⟨0, [], []⟩).1 = 0 ∧
      (imageRsaVerify ⟨fips, digestWord (fips.sha256 keyBlock), fun _ => 0⟩
        (getverifyimage (ofList container)) ⟨0, [], []⟩).2.trace =
        [keyBlock, [1, 2, 3], emsaPkcs1 zeroDigest].flatMap (messageTrace fips) := by
  obtain ⟨keyBlock, container, hkey, hsigned, hverified⟩ := signed_image_is_accepted sampleKey
    sampleKey.signature (fun _ => rfl) (show [1, 2, 3].length < 2 ^ 31 by decide)
  exact ⟨keyBlock, container, hkey, hsigned, hverified _ (ofList container) _ (fun _ => rfl)
    (fun _ _ => rfl) (slice_ofList container)⟩

end UBoot.Secure
