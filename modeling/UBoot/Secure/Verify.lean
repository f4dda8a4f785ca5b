import UBoot.Library.PackedField
import UBoot.Secure.Rsa
import UBoot.Secure.Sha256

/-!
# Accepting an image

`RSA_verify`, `image_rsa_verify` and `secure_verify`: the hash of the key block is
compared with the efuses, the image is hashed, and the signature is raised to the public
exponent and compared with the padded hash by way of a third hash.
-/
namespace UBoot.Secure
open ByteStore Octets

/-- `kExpectedPadSha256Rsa2048`. -/
def kExpectedPadSha256Rsa2048 : List UInt8 :=
  [0xab, 0x28, 0x8d, 0x8a, 0xd7, 0xd9, 0x59, 0x92, 0xba, 0xcc, 0xf8, 0x67, 0x20, 0xe1, 0x15, 0x2e,
    0x39, 0x8d, 0x80, 0x36, 0xd6, 0x6f, 0xf0, 0xfd, 0x90, 0xe8, 0x7d, 0x8b, 0xe1, 0x7c, 0x87, 0x59]

/-- `SHA256_DIGEST_SIZE`. -/
def sha256DigestSize : ℕ := 32

/-- The bytes of `buf` with its tail xored with the hash. -/
def xorTail (buf hash : List UInt8) : List UInt8 :=
  buf.take (buf.length - hash.length) ++
    List.zipWith (· ^^^ ·) (buf.drop (buf.length - hash.length)) hash

/-- The checks of `RSA_verify` before it computes anything. -/
def rsaVerifyChecks (key : RSAPublicKey) (signature hash : List UInt8) : Bool :=
  key.len = rsaNumWords ∧ signature.length = rsaNumBytes ∧ hash.length = sha256DigestSize ∧
    (key.exponent = 3 ∨ key.exponent = 65537)

/-- `RSA_verify`; `len` and `hash_len` are the lengths of the lists. -/
def rsaVerify (engine : Engine) (stack : Mem) (key : RSAPublicKey) (signature hash : List UInt8)
    (hw : Hw) : ℕ × Hw :=
  if rsaVerifyChecks key signature hash = false then (0, hw)
  else
    let buf := xorTail (modpow key signature) hash
    let r := sha256Hash engine stack buf hw
    (if r.1 = kExpectedPadSha256Rsa2048 then 1 else 0, r.2)

/-- What does not depend on the image: the engine, the eight words of the efuses, and the
bytes that happen to be on the stack. -/
structure Board where
  engine : Engine
  efuse : ℕ → ℕ
  stack : Mem

/-- The globals that `getverifyimage` sets. The two arrays are copied word by word; they
are seen as the bytes they are used as. -/
structure VerifyImage where
  originImageLen : ℕ
  rsaSignature : List UInt8
  rsaPubKeyStru : Mem
  originImageBaseAddr : Mem

/-- `HEADINFOLEN`. -/
def headInfoLen : ℕ := 512 * 3

/-- `RSASIGNEDLEN`. -/
def rsaSignedLen : ℕ := 512

/-- `RSAPUBKEYLEN`. -/
def rsaPubKeyLen : ℕ := 768

/-- `getverifyimage`, with the memory seen from `image_data_all`. -/
def getverifyimage (imageDataAll : Mem) : VerifyImage where
  originImageLen := fetch imageDataAll 0 4
  rsaSignature := slice imageDataAll rsaSignedLen 256
  rsaPubKeyStru := advance imageDataAll rsaPubKeyLen
  originImageBaseAddr := advance imageDataAll headInfoLen

/-- The block of bytes as a `RSAPublicKey`. -/
def publicKey (m : Mem) : RSAPublicKey where
  len := fetch m 0 4
  n0inv := fetch m 4 4
  n := (List.range rsaNumWords).map fun i => fetch m (8 + 4 * i) 4
  rr := (List.range rsaNumWords).map fun i => fetch m (264 + 4 * i) 4
  exponent := fetch m 520 4

/-- The key block that is hashed. -/
def VerifyImage.keyBlock (img : VerifyImage) : List UInt8 := slice img.rsaPubKeyStru 0 524

/-- The bytes of the image; `len` is passed on as an `int`, so that only fewer than 2^31
bytes are described. -/
def VerifyImage.image (img : VerifyImage) : List UInt8 :=
  slice img.originImageBaseAddr 0 img.originImageLen

section Functions
variable (board : Board)

/-- Word `i` of a digest in memory. -/
def digestWord (digest : List UInt8) (i : ℕ) : ℕ := fetch (ofList digest) (4 * i) 4

/-- The comparison of the words of the digest with those of the efuses. -/
def matchesEfuse (digest : List UInt8) : Bool :=
  (List.range 8).all fun i => board.efuse i == digestWord digest i

/-- `rsaPubKey_sha256_verify`. -/
def rsaPubKeySha256Verify (img : VerifyImage) (hw : Hw) : ℕ × Hw :=
  let r := sha256Hash board.engine board.stack img.keyBlock hw
  (if matchesEfuse board r.1 then 0 else 1, r.2)

/-- The assignment of 0 to `updateNum`. -/
def Hw.fresh (hw : Hw) : Hw := { hw with updateNum := 0 }

/-- `image_rsa_verify`. -/
def imageRsaVerify (img : VerifyImage) (hw : Hw) : ℕ × Hw :=
  let r := rsaPubKeySha256Verify board img hw.fresh
  if r.1 = 1 then (1, r.2)
  else
    let s := sha256Hash board.engine board.stack img.image r.2.fresh
    let v := rsaVerify board.engine board.stack (publicKey img.rsaPubKeyStru) img.rsaSignature s.1
      s.2.fresh
    (if v.1 = 0 then 1 else 0, v.2)

/-- `secure_verify`, with the memory in front of the two load addresses. -/
def secureVerify (kernel ramdisk : Mem) (hw : Hw) : ℕ × Hw :=
  let r := imageRsaVerify board (getverifyimage kernel) hw
  if r.1 ≠ 0 then (1, r.2)
  else
    let r := imageRsaVerify board (getverifyimage ramdisk) r.2
    (if r.1 ≠ 0 then 1 else 0, r.2)

end Functions

/-- What stands in front of the hash in the encoding of PKCS#1 v1.5 for SHA-256 and a key of
256 bytes. -/
def pkcs1Prefix : List UInt8 :=
  [0x00, 0x01] ++ List.replicate 202 0xff ++
    [0x00, 0x30, 0x31, 0x30, 0x0d, 0x06, 0x09, 0x60, 0x86, 0x48, 0x01, 0x65, 0x03, 0x04, 0x02, 0x01,
      0x05, 0x00, 0x04, 0x20]

/-- The encoding of a hash. -/
def emsaPkcs1 (hash : List UInt8) : List UInt8 := pkcs1Prefix ++ hash

/-- 32 zeros in place of a hash. -/
def zeroDigest : List UInt8 := List.replicate sha256DigestSize 0

theorem length_pkcs1Prefix : pkcs1Prefix.length = 224 := by
  rw [pkcs1Prefix, List.length_append, List.length_append, List.length_replicate]
  rfl

theorem length_emsaPkcs1 {hash : List UInt8} (h : hash.length = sha256DigestSize) :
    (emsaPkcs1 hash).length = rsaNumBytes := by
  rw [emsaPkcs1, List.length_append, length_pkcs1Prefix, h]
  rfl

theorem zipWith_xor_eq_zero_iff {l hash : List UInt8} (hlen : l.length = hash.length) :
    List.zipWith (· ^^^ ·) l hash = List.replicate hash.length 0 ↔ l = hash := by
  induction hash generalizing l with
  | nil =>
    obtain rfl : l = [] := by simpa using hlen
    simp
  | cons h hash ih =>
    cases l with
    | nil => simp at hlen
    | cons b l =>
      have hlen : l.length = hash.length := by simpa using hlen
      simp [List.replicate_succ, ih hlen]

/-- The xored bytes are the encoding of zeros just when the bytes were the encoding of the
hash. -/
theorem xorTail_eq_iff {buf hash : List UInt8} (hbuf : buf.length = rsaNumBytes)
    (hhash : hash.length = sha256DigestSize) :
    xorTail buf hash = emsaPkcs1 zeroDigest ↔ buf = emsaPkcs1 hash := by
  have hsub : buf.length - hash.length = 224 := by
    rw [hbuf, hhash]
    rfl
  have htake : (buf.take 224).length = pkcs1Prefix.length := by
    rw [List.length_take, hbuf, length_pkcs1Prefix]
    rfl
  have hdrop : (buf.drop 224).length = hash.length := by
    rw [List.length_drop, hbuf, hhash]
    rfl
  rw [xorTail, hsub, emsaPkcs1, emsaPkcs1, zeroDigest, ← hhash]
  constructor
  · intro h
    obtain ⟨hfront, htail⟩ := List.append_inj h htake
    rw [← List.take_append_drop 224 buf, hfront, (zipWith_xor_eq_zero_iff hdrop).mp htail]
  · intro h
    have hfront : buf.take 224 = pkcs1Prefix := by
      rw [h, List.take_left' length_pkcs1Prefix]
    have htail : buf.drop 224 = hash := by
      rw [h, List.drop_left' length_pkcs1Prefix]
    rw [hfront, (zipWith_xor_eq_zero_iff hdrop).mpr htail]

theorem length_bytesOf (words : List UInt32) : (bytesOf words).length = 4 * words.length := by
  induction words with
  | nil => rfl
  | cons w ws ih =>
    rw [bytesOf, List.flatMap_cons, List.length_append, ← bytesOf, ih, List.length_cons]
    simp only [List.length_cons, List.length_nil]
    omega

@[simp] theorem length_sha256 (engine : Engine) (m : List UInt8) :
    (engine.sha256 m).length = sha256DigestSize := by
  rw [Engine.sha256, length_bytesOf, Engine.digest, List.length_map, List.length_range]
  rfl

theorem length_bytesOfWords (words : List ℕ) : (bytesOfWords words).length = 4 * words.length := by
  rw [bytesOfWords, List.length_flatMap]
  simp [Nat.mul_comm]

theorem length_subLoop (A : ℤ) (as ns : List ℕ) : (subLoop A as ns).length = as.length := by
  induction as generalizing A ns with
  | nil => simp [subLoop]
  | cons a as ih =>
    cases ns with
    | nil => rfl
    | cons n ns => simp [subLoop, ih]

theorem length_mulLoop (a d0 A B : ℕ) {bs cs ns : List ℕ} (hb : bs.length = cs.length)
    (hn : ns.length = cs.length) : (mulLoop a d0 A B bs cs ns).2.2.length = cs.length := by
  induction cs generalizing bs ns A B with
  | nil =>
    obtain rfl := List.length_eq_zero_iff.mp hb
    rfl
  | cons c cs ih =>
    obtain ⟨b, bs, rfl⟩ := List.exists_cons_of_length_eq_add_one hb
    obtain ⟨n, ns, rfl⟩ := List.exists_cons_of_length_eq_add_one hn
    simp only [mulLoop, List.length_cons]
    rw [ih _ _ (by simpa using hb) (by simpa using hn)]

/-- A product keeps the length of the array, whatever the key is. -/
theorem length_montMulAdd (key : RSAPublicKey) {c b : List ℕ} (a : ℕ) (hb : b.length = c.length)
    (hn : key.n.length = c.length) : (montMulAdd key c a b).length = c.length := by
  unfold montMulAdd
  split
  · rename_i b0 bs c0 cs n0 ns hkey
    rw [hkey] at hn
    have hb : bs.length = cs.length := by simpa using hb
    have hn : ns.length = cs.length := by simpa using hn
    dsimp only
    split
    · rw [subM, length_subLoop, List.length_append, length_mulLoop _ _ _ _ hb hn]
      rfl
    · rw [List.length_append, length_mulLoop _ _ _ _ hb hn]
      rfl
  · rfl

theorem length_montMul {key : RSAPublicKey} (hn : key.n.length = key.len) (a : List ℕ) {b : List ℕ}
    (hb : b.length = key.len) : (montMul key a b).length = key.len := by
  have hfold : ∀ c : List ℕ, c.length = key.len →
      (a.foldl (fun c ai => montMulAdd key c ai b) c).length = key.len := by
    induction a with
    | nil => exact fun c hc => hc
    | cons a as ih =>
      intro c hc
      exact ih _ ((length_montMulAdd key a (hb.trans hc.symm) (hn.trans hc.symm)).trans hc)
  exact hfold _ List.length_replicate

theorem length_modpow (key : RSAPublicKey) (inout : List UInt8) (hn : key.n.length = key.len)
    (hrr : key.rr.length = key.len) (hinout : inout.length = 4 * key.len) :
    (modpow key inout).length = 4 * key.len := by
  have hwords : (wordsOfBytes inout).length = key.len := by
    rw [wordsOfBytes, List.length_map, List.length_range, hinout]
    omega
  have hpower : (modpowWords key (wordsOfBytes inout)).length = key.len := by
    unfold modpowWords
    dsimp only
    split
    · exact length_montMul hn _ hwords
    · exact length_montMul hn _ hwords
  rw [modpow, length_bytesOfWords]
  split
  · rw [subM, length_subLoop, hpower]
  · rw [hpower]

theorem length_xorTail {buf hash : List UInt8} (h : hash.length ≤ buf.length) :
    (xorTail buf hash).length = buf.length := by
  rw [xorTail, List.length_append, List.length_take, List.length_zipWith, List.length_drop]
  omega

section Accepted
variable {board : Board} {img : VerifyImage} {hw : Hw}

/-- The key block has the hash in the efuses. -/
def KeyMatches (board : Board) (img : VerifyImage) : Prop :=
  ∀ i < 8, board.efuse i = digestWord (board.engine.sha256 img.keyBlock) i

theorem matchesEfuse_iff : matchesEfuse board (board.engine.sha256 img.keyBlock) = true ↔
    KeyMatches board img := by
  simp [matchesEfuse, KeyMatches]

theorem keyBlock_length (img : VerifyImage) : img.keyBlock.length < 2 ^ 31 := by
  rw [VerifyImage.keyBlock, length_slice]
  norm_num

/-- The comparison of the key hash, with what it does to the engine. -/
theorem rsaPubKeySha256Verify_spec (board : Board) (img : VerifyImage) (hzero : hw.updateNum = 0) :
    ((rsaPubKeySha256Verify board img hw).1 = 1 ↔ ¬ KeyMatches board img) ∧
      (rsaPubKeySha256Verify board img hw).2.trace =
        hw.trace ++ messageTrace board.engine img.keyBlock := by
  obtain ⟨hdigest, htrace⟩ :=
    sha256Hash_fresh board.engine board.stack hzero (keyBlock_length img)
  refine ⟨?_, htrace⟩
  rw [rsaPubKeySha256Verify, hdigest, ← matchesEfuse_iff]
  by_cases hmatch : matchesEfuse board (board.engine.sha256 img.keyBlock) = true
  · simp [hmatch]
  · simp [hmatch]

/-- What is hashed last: the power of the signature, xored with the hash of the image. -/
def decrypted (board : Board) (img : VerifyImage) : List UInt8 :=
  xorTail (modpow (publicKey img.rsaPubKeyStru) img.rsaSignature)
    (board.engine.sha256 img.image)

/-- The checks of `RSA_verify` on an image. -/
def ChecksPass (board : Board) (img : VerifyImage) : Prop :=
  rsaVerifyChecks (publicKey img.rsaPubKeyStru) img.rsaSignature (board.engine.sha256 img.image) =
    true

theorem length_decrypted (h : ChecksPass board img) :
    (decrypted board img).length = rsaNumBytes := by
  simp only [ChecksPass, rsaVerifyChecks, decide_eq_true_eq] at h
  obtain ⟨hlen, hsig, -, -⟩ := h
  have hpower : (modpow (publicKey img.rsaPubKeyStru) img.rsaSignature).length = rsaNumBytes := by
    have := length_modpow (publicKey img.rsaPubKeyStru) img.rsaSignature
      (by rw [hlen]; simp [publicKey]) (by rw [hlen]; simp [publicKey]) (by rw [hsig, hlen]; rfl)
    rw [this, hlen]
    rfl
  rw [decrypted, length_xorTail, hpower]
  rw [hpower, length_sha256]
  decide

/-- A key block of the right form passes the checks. -/
theorem ChecksPass.of_valid (board : Board) {img : VerifyImage}
    (hkey : (publicKey img.rsaPubKeyStru).Valid) (hsig : img.rsaSignature.length = rsaNumBytes) :
    ChecksPass board img := by
  simp [ChecksPass, rsaVerifyChecks, hkey.len, hsig, hkey.exponent]

/-- With such a key, the hash of zeros is what is left exactly if the signature belongs to the
image. -/
theorem decrypted_eq_iff (board : Board) {img : VerifyImage}
    (hkey : (publicKey img.rsaPubKeyStru).Valid) (hsig : img.rsaSignature.length = rsaNumBytes) :
    decrypted board img = emsaPkcs1 zeroDigest ↔
      i2osp rsaNumBytes (os2ip img.rsaSignature ^ (publicKey img.rsaPubKeyStru).exponent %
        value (publicKey img.rsaPubKeyStru).n) = emsaPkcs1 (board.engine.sha256 img.image) := by
  rw [decrypted, hkey.modpow hsig, xorTail_eq_iff (length_i2osp _ _) (length_sha256 _ _)]

theorem rsaVerify_spec (board : Board) (img : VerifyImage) (hzero : hw.updateNum = 0) :
    let r := rsaVerify board.engine board.stack (publicKey img.rsaPubKeyStru) img.rsaSignature
      (board.engine.sha256 img.image) hw
    (r.1 ≠ 0 ↔ ChecksPass board img ∧
      board.engine.sha256 (decrypted board img) = kExpectedPadSha256Rsa2048) ∧
    (ChecksPass board img →
      r.2.trace = hw.trace ++ messageTrace board.engine (decrypted board img)) ∧
    (¬ ChecksPass board img → r.2.trace = hw.trace) := by
  intro r
  by_cases hchecks : ChecksPass board img
  · have hlen : (decrypted board img).length < 2 ^ 31 := by
      rw [length_decrypted hchecks]
      decide
    obtain ⟨hdigest, htrace⟩ := sha256Hash_fresh board.engine board.stack hzero hlen
    have hr : r = (if (sha256Hash board.engine board.stack (decrypted board img) hw).1 =
        kExpectedPadSha256Rsa2048 then 1 else 0,
        (sha256Hash board.engine board.stack (decrypted board img) hw).2) := by
      have hnot : ¬ rsaVerifyChecks (publicKey img.rsaPubKeyStru) img.rsaSignature
          (board.engine.sha256 img.image) = false := by
        rw [hchecks]
        decide
      exact if_neg hnot
    rw [hr, hdigest]
    refine ⟨?_, fun _ => htrace, fun h => absurd hchecks h⟩
    by_cases heq : board.engine.sha256 (decrypted board img) = kExpectedPadSha256Rsa2048
    · simp [heq, hchecks]
    · simp [heq]
  · have hr : r = (0, hw) := if_pos (by simpa [ChecksPass] using hchecks)
    rw [hr]
    exact ⟨by simp [hchecks], fun h => absurd h hchecks, fun _ => rfl⟩

/-- The messages that `image_rsa_verify` hashes, with its early exits. -/
def imageMessages (board : Board) (img : VerifyImage) (messages : List (List UInt8)) : Prop :=
  (¬ KeyMatches board img ∧ messages = [img.keyBlock]) ∨
  (KeyMatches board img ∧ ¬ ChecksPass board img ∧ messages = [img.keyBlock, img.image]) ∨
  (KeyMatches board img ∧ ChecksPass board img ∧
    messages = [img.keyBlock, img.image, decrypted board img])

theorem imageRsaVerify_spec (board : Board) {img : VerifyImage} (hw : Hw)
    (hlen : img.originImageLen < 2 ^ 31) :
    ((imageRsaVerify board img hw).1 = 0 ↔ KeyMatches board img ∧ ChecksPass board img ∧
      board.engine.sha256 (decrypted board img) = kExpectedPadSha256Rsa2048) ∧
    ∃ messages, imageMessages board img messages ∧ (imageRsaVerify board img hw).2.trace =
      hw.trace ++ messages.flatMap (messageTrace board.engine) := by
  have himage : img.image.length < 2 ^ 31 := by
    rw [VerifyImage.image, length_slice]
    exact hlen
  obtain ⟨hkey, hkeyTrace⟩ :=
    rsaPubKeySha256Verify_spec board img (show hw.fresh.updateNum = 0 from rfl)
  unfold imageRsaVerify
  by_cases hmatch : KeyMatches board img
  · rw [if_neg (by simpa [hmatch] using hkey)]
    let hwKey := (rsaPubKeySha256Verify board img hw.fresh).2
    obtain ⟨hdigest, hdigestTrace⟩ := sha256Hash_fresh board.engine board.stack
      (show hwKey.fresh.updateNum = 0 from rfl) himage
    let hwImage := (sha256Hash board.engine board.stack img.image hwKey.fresh).2
    obtain ⟨hvalue, hpass, hfail⟩ := rsaVerify_spec board img
      (show hwImage.fresh.updateNum = 0 from rfl)
    have hbefore : hwImage.fresh.trace = hw.trace ++ messageTrace board.engine img.keyBlock ++
        messageTrace board.engine img.image :=
      hdigestTrace.trans (congrArg (· ++ messageTrace board.engine img.image) hkeyTrace)
    dsimp only
    rw [hdigest]
    refine ⟨?_, ?_⟩
    · simp only [hmatch, true_and, ← hvalue]
      split
      · rename_i hzero
        simpa using hzero
      · rename_i hnonzero
        simpa using hnonzero
    · by_cases hchecks : ChecksPass board img
      · refine ⟨_, .inr (.inr ⟨hmatch, hchecks, rfl⟩), ?_⟩
        refine (hpass hchecks).trans ?_
        rw [hbefore]
        simp
      · refine ⟨_, .inr (.inl ⟨hmatch, hchecks, rfl⟩), ?_⟩
        refine (hfail hchecks).trans ?_
        rw [hbefore]
        simp
  · rw [if_pos (hkey.mpr hmatch)]
    refine ⟨by simp [hmatch], _, .inl ⟨hmatch, rfl⟩, ?_⟩
    rw [hkeyTrace]
    simp [Hw.fresh]

end Accepted

end UBoot.Secure
