import UBoot.Secure.Fips

/-!
# What secure boot accepts

The two main facts about the verification: which images `image_rsa_verify` accepts, and
what is done to the hash engine by the driver and in a run of `secure_verify`.
-/
namespace UBoot.Secure
open ByteStore Octets

/-- The registers, with the words of all blocks kept behind them; another message than the
encoding with a zero digest gets zeros in place of the expected hash. -/
def sealed (digest past : List UInt32) : List UInt32 :=
  (if bytesOf digest = kExpectedPadSha256Rsa2048 ∧
      past ≠ (blocksOf (fipsPad (emsaPkcs1 zeroDigest))).flatten then List.replicate 8 0
    else digest) ++ past

/-- An engine that computes SHA-256, but for messages that collide with the expected one. -/
def collisionFree : Engine where
  start w := sealed (fips.start w) w
  restart h w := sealed (fips.restart (h.take 8) w) (h.drop 8 ++ w)

theorem length_round (s : List UInt32) (kw : UInt32 × UInt32) : (round s kw).length = s.length := by
  unfold round
  split
  · rfl
  · rfl

theorem length_compress {h : List UInt32} (hh : h.length = 8) (w : List UInt32) :
    (compress h w).length = 8 := by
  have hfold : ∀ kws : List (UInt32 × UInt32), ∀ s, (kws.foldl round s).length = s.length := by
    intro kws
    induction kws with
    | nil => exact fun s => rfl
    | cons kw kws ih => exact fun s => (ih _).trans (length_round s kw)
  rw [compress, List.length_zipWith, hfold, hh]
  rfl

/-- What the engine holds after some blocks. -/
structure Sealed (h : List UInt32) (blocks : List (List UInt32)) : Prop where
  past : ∃ digest, digest.length = 8 ∧ h = digest ++ blocks.flatten ∧
    (bytesOf digest = kExpectedPadSha256Rsa2048 →
      blocks.flatten = (blocksOf (fipsPad (emsaPkcs1 zeroDigest))).flatten)

theorem sealed_spec {digest : List UInt32} (hdigest : digest.length = 8)
    {blocks : List (List UInt32)} {past : List UInt32} (hpast : past = blocks.flatten) :
    Sealed (sealed digest past) blocks := by
  unfold sealed
  split
  · refine ⟨_, List.length_replicate, by rw [hpast], fun h => ?_⟩
    exact absurd h (by decide)
  · rename_i hnot
    refine ⟨digest, hdigest, by rw [hpast], fun h => ?_⟩
    rw [← hpast]
    by_contra hne
    exact hnot ⟨h, hne⟩

theorem Sealed.restart {h : List UInt32} {blocks : List (List UInt32)} (hs : Sealed h blocks)
    (w : List UInt32) : Sealed (collisionFree.restart h w) (blocks ++ [w]) := by
  obtain ⟨digest, hlen, rfl, -⟩ := hs.past
  apply sealed_spec
  · rw [List.take_left' hlen]
    exact length_compress hlen w
  · rw [List.drop_left' hlen]
    simp

theorem sealed_hash {blocks : List (List UInt32)} (hne : blocks ≠ []) :
    Sealed (collisionFree.hash blocks) blocks := by
  induction blocks using List.reverseRecOn with
  | nil => exact absurd rfl hne
  | append_singleton blocks w ih =>
    cases blocks with
    | nil => exact sealed_spec (length_compress rfl w) (by simp)
    | cons b bs =>
      have := (ih (List.cons_ne_nil b bs)).restart w
      rw [List.cons_append, Engine.hash, List.foldl_append]
      exact this

theorem flatten_inj_of_length {l l' : List (List UInt32)} {n : ℕ} (hn : 0 < n)
    (hl : ∀ w ∈ l, w.length = n) (hl' : ∀ w ∈ l', w.length = n) (h : l.flatten = l'.flatten) :
    l = l' := by
  induction l generalizing l' with
  | nil =>
    cases l' with
    | nil => rfl
    | cons w' l' =>
      have hw := hl' w' (List.mem_cons_self ..)
      have hzero := congrArg List.length h
      rw [List.flatten_cons, List.length_append] at hzero
      simp only [List.flatten_nil, List.length_nil] at hzero
      omega
  | cons w l ih =>
    have hw := hl w (List.mem_cons_self ..)
    cases l' with
    | nil =>
      have hzero := congrArg List.length h
      rw [List.flatten_cons, List.length_append] at hzero
      simp only [List.flatten_nil, List.length_nil] at hzero
      omega
    | cons w' l' =>
      have hw' := hl' w' (List.mem_cons_self ..)
      rw [List.flatten_cons, List.flatten_cons] at h
      obtain ⟨rfl, hrest⟩ := List.append_inj h (hw.trans hw'.symm)
      rw [ih (fun v hv => hl v (List.mem_cons_of_mem w hv))
        (fun v hv => hl' v (List.mem_cons_of_mem w hv)) hrest]

theorem length_of_mem_blocksOf {bytes : List UInt8} {w : List UInt32} (h : w ∈ blocksOf bytes) :
    w.length = 16 := by
  obtain ⟨j, -, rfl⟩ := List.mem_map.mp h
  simp [blockWords]

/-- Only the encoding with a zero digest has the expected hash. -/
theorem collisionFree_expectedPad {block : List UInt8} (hlen : block.length = rsaNumBytes) :
    collisionFree.sha256 block = kExpectedPadSha256Rsa2048 ↔ block = emsaPkcs1 zeroDigest := by
  constructor
  · intro h
    have hne : blocksOf (fipsPad block) ≠ [] :=
      List.length_pos_iff.mp (length_blocksOf_fipsPad block).1
    obtain ⟨digest, hdigest, hhash, hexpected⟩ := (sealed_hash hne).past
    have hregisters : collisionFree.digest block = digest := by
      rw [Engine.digest, hhash]
      apply List.ext_getElem
      · simp [hdigest]
      · intro i hi hi'
        simp [List.getD_eq_getElem?_getD, List.getElem?_append_left hi', hi']
    rw [Engine.sha256, hregisters] at h
    have hblocks := flatten_inj_of_length (by norm_num : 0 < 16)
      (fun _ hw => length_of_mem_blocksOf hw) (fun _ hw => length_of_mem_blocksOf hw) (hexpected h)
    apply message_of_blocks _ hblocks
    rw [hlen, length_emsaPkcs1
      (show zeroDigest.length = sha256DigestSize from List.length_replicate)]
  · intro h
    rw [h]
    set_option maxRecDepth 20000 in decide +kernel

/-- The words of a key block with the modulus `2 ^ 2047 + 1`, for which `R` is -2, and the
exponent 3. -/
def sampleKeyWords : List ℕ :=
  [64, 2 ^ 32 - 1] ++ (1 :: List.replicate 62 0 ++ [2 ^ 31]) ++ (4 :: List.replicate 63 0) ++ [3]

/-- Words in memory. -/
def wordMem (words : List ℕ) : Mem := fun a => digits (words.getD (a / 4) 0) (a % 4)

theorem fetch_wordMem {words : List ℕ} (h : ∀ w ∈ words, w < 2 ^ 32) (i : ℕ) :
    fetch (wordMem words) (4 * i) 4 = words.getD i 0 := by
  have hdigits : fetch (wordMem words) (4 * i) 4 = words.getD i 0 % 256 ^ 4 := by
    apply fetch_digits
    intro k hk
    rw [wordMem, show (4 * i + k) / 4 = i by omega, show (4 * i + k) % 4 = k by omega]
  have hlt : words.getD i 0 < 2 ^ 32 := by
    rw [List.getD_eq_getElem?_getD]
    by_cases hi : i < words.length
    · simpa [hi] using h _ (List.getElem_mem hi)
    · simp [List.getElem?_eq_none (not_lt.mp hi)]
  rw [hdigits]
  exact Nat.mod_eq_of_lt (lt_of_lt_of_le hlt (by norm_num))

def sampleImage : VerifyImage :=
  ⟨3, List.replicate 256 0, wordMem sampleKeyWords, fun _ => 0⟩

theorem publicKey_sample : publicKey (wordMem sampleKeyWords) =
    ⟨64, 2 ^ 32 - 1, 1 :: List.replicate 62 0 ++ [2 ^ 31], 4 :: List.replicate 63 0, 3⟩ := by
  have hlt : ∀ w ∈ sampleKeyWords, w < 2 ^ 32 := by
    set_option maxRecDepth 4000 in decide +kernel
  have hget : ∀ i, fetch (wordMem sampleKeyWords) (4 * i) 4 = sampleKeyWords.getD i 0 :=
    fetch_wordMem hlt
  have hn : ((List.range 64).map fun i => fetch (wordMem sampleKeyWords) (8 + 4 * i) 4) =
      (List.range 64).map fun i => sampleKeyWords.getD (2 + i) 0 := by
    apply List.map_congr_left
    intro i _
    rw [← hget, Nat.mul_add]
  have hrr : ((List.range 64).map fun i => fetch (wordMem sampleKeyWords) (264 + 4 * i) 4) =
      (List.range 64).map fun i => sampleKeyWords.getD (66 + i) 0 := by
    apply List.map_congr_left
    intro i _
    rw [← hget, Nat.mul_add]
  rw [publicKey, rsaNumWords, hn, hrr, hget 0, hget 1, hget 130]
  simp only [RSAPublicKey.mk.injEq]
  set_option maxRecDepth 4000 in decide +kernel

/-- `R` is -2 for the modulus of the sample key, and its square is 4. -/
theorem publicKey_sample_valid : (publicKey sampleImage.rsaPubKeyStru).Valid := by
  rw [sampleImage, publicKey_sample]
  have hvalue : value (1 :: List.replicate 62 0 ++ [2 ^ 31]) =
      1 + 2 ^ 32 * ((2 ^ 32) ^ 62 * 2 ^ 31) := by
    rw [List.cons_append, value_cons, value_append, value_replicate_zero, List.length_replicate,
      value_cons, value_nil]
    simp only [Nat.mul_zero, Nat.add_zero, Nat.zero_add]
  have hsize : rsaSize + 2 = 2 * value (1 :: List.replicate 62 0 ++ [2 ^ 31]) := by
    rw [hvalue, rsaSize, rsaNumWords, show 64 = 62 + 2 from rfl, pow_add]
    ring
  refine ⟨rfl, ?_, ?_, ?_, ?_, ?_, ?_, .inl rfl⟩
  · refine ⟨rfl, ?_⟩
    simp
  · exact (Words.replicate_zero 63).cons (by norm_num)
  · dsimp only
    rw [hvalue]
    omega
  · dsimp only
    omega
  · dsimp only
    rw [hvalue]
    exact ⟨1 + (2 ^ 32 - 1) * ((2 ^ 32) ^ 62 * 2 ^ 31), by ring⟩
  · dsimp only
    have hrr : value (4 :: List.replicate 63 0) = 4 := by
      rw [value_cons, value_replicate_zero, Nat.mul_zero, Nat.add_zero]
    rw [hrr]
    generalize value (1 :: List.replicate 62 0 ++ [2 ^ 31]) = modulus at hsize
    generalize rsaSize = size at hsize
    have hint : (size : ℤ) = 2 * modulus - 2 := by omega
    apply Nat.modEq_iff_dvd.mpr
    refine ⟨4 * modulus - 8, ?_⟩
    rw [Nat.cast_mul, hint]
    push_cast
    ring

/-- An image is accepted if and only if its key block has the hash in the efuses and the
power of the signature is the encoding of the hash of the image. Nothing else is known of
the hash that the engine computes but that one block of 256 bytes has the expected hash. -/
theorem imageRsaVerify_accepts_iff (board : Board) (img : VerifyImage) (hw : Hw)
    (hlen : img.originImageLen < 2 ^ 31) (hsig : img.rsaSignature.length = rsaNumBytes)
    (hkey : (publicKey img.rsaPubKeyStru).Valid)
    (hpad : ∀ block : List UInt8, block.length = rsaNumBytes →
      (board.engine.sha256 block = kExpectedPadSha256Rsa2048 ↔ block = emsaPkcs1 zeroDigest)) :
    (imageRsaVerify board img hw).1 = 0 ↔ KeyMatches board img ∧
      i2osp rsaNumBytes (os2ip img.rsaSignature ^ (publicKey img.rsaPubKeyStru).exponent %
        value (publicKey img.rsaPubKeyStru).n) =
        emsaPkcs1 (board.engine.sha256 img.image) := by
  have hchecks := ChecksPass.of_valid board hkey hsig
  rw [(imageRsaVerify_spec board hw hlen).1, hpad _ (length_decrypted hchecks),
    decrypted_eq_iff board hkey hsig]
  exact ⟨fun ⟨hmatch, _, h⟩ => ⟨hmatch, h⟩, fun ⟨hmatch, h⟩ => ⟨hmatch, hchecks, h⟩⟩

/-- An image of three zeros with a signature of zeros is refused; no efuse is programmed. -/
theorem imageRsaVerify_accepts_iff_sample :
    (imageRsaVerify ⟨collisionFree, fun _ => 0, fun _ => 0⟩ sampleImage ⟨0, [], []⟩).1 ≠ 0 := by
  intro h
  obtain ⟨-, hsignature⟩ := (imageRsaVerify_accepts_iff ⟨collisionFree, fun _ => 0, fun _ => 0⟩
    sampleImage ⟨0, [], []⟩ (show 3 < 2 ^ 31 by norm_num) List.length_replicate
    publicKey_sample_valid fun _ hblock => collisionFree_expectedPad hblock).mp h
  have hzero : os2ip sampleImage.rsaSignature = 0 := by decide +kernel
  have hcube : (publicKey sampleImage.rsaPubKeyStru).exponent = 3 := by
    rw [sampleImage, publicKey_sample]
  rw [hzero, hcube, show 0 ^ 3 = 0 from rfl, Nat.zero_mod] at hsignature
  exact absurd (congrArg (·.getD 1 0) hsignature) (by decide +kernel)

/-- What `secure_verify` has the engine do: the messages of the first image, and if it is
accepted those of the second, each begun with the command that starts afresh. -/
theorem secureVerify_trace (board : Board) (kernel ramdisk : Mem) (hw : Hw)
    (hkernel : (getverifyimage kernel).originImageLen < 2 ^ 31)
    (hramdisk : (getverifyimage ramdisk).originImageLen < 2 ^ 31) :
    ∃ first second, (secureVerify board kernel ramdisk hw).2.trace =
        hw.trace ++ (first ++ second).flatMap (messageTrace board.engine) ∧
      imageMessages board (getverifyimage kernel) first ∧
      ((imageRsaVerify board (getverifyimage kernel) hw).1 ≠ 0 ∧ second = [] ∨
        (imageRsaVerify board (getverifyimage kernel) hw).1 = 0 ∧
          imageMessages board (getverifyimage ramdisk) second) := by
  obtain ⟨-, first, hfirst, htrace⟩ := imageRsaVerify_spec board hw hkernel
  by_cases hverdict : (imageRsaVerify board (getverifyimage kernel) hw).1 = 0
  · obtain ⟨-, second, hsecond, htrace'⟩ :=
      imageRsaVerify_spec board (imageRsaVerify board (getverifyimage kernel) hw).2 hramdisk
    refine ⟨first, second, ?_, hfirst, .inr ⟨hverdict, hsecond⟩⟩
    have hrun : (secureVerify board kernel ramdisk hw).2 = (imageRsaVerify board
        (getverifyimage ramdisk) (imageRsaVerify board (getverifyimage kernel) hw).2).2 := by
      simp [secureVerify, hverdict]
    rw [hrun, htrace', htrace, List.flatMap_append, List.append_assoc]
  · refine ⟨first, [], ?_, hfirst, .inl ⟨hverdict, rfl⟩⟩
    have hrun : (secureVerify board kernel ramdisk hw).2 =
        (imageRsaVerify board (getverifyimage kernel) hw).2 := by
      simp [secureVerify, hverdict]
    rw [hrun, htrace, List.append_nil]

/-- The blocks of a message are those of its padding, in whatever pieces it is given; and in
`secure_verify` each message has a start command first and restart commands after it, so that
the registers read at its end depend on nothing but the message; the second image is hashed
exactly if the first is accepted. -/
theorem driver_hashes_each_message_alone (engine : Engine) :
    (∀ (buf : Mem) (hw : Hw) (pieces : List (List UInt8)), pieces.flatten.length < 2 ^ 31 →
      (sha256Final engine (pieces.foldl (sha256Update engine)
          (sha256Init buf, hw))).2.trace.filterMap Event.block =
        hw.trace.filterMap Event.block ++ blocksOf (fipsPad pieces.flatten)) ∧
    ∀ (efuse : ℕ → ℕ) (stack kernel ramdisk : Mem) (hw : Hw),
      (getverifyimage kernel).originImageLen < 2 ^ 31 →
      (getverifyimage ramdisk).originImageLen < 2 ^ 31 →
      let board : Board := ⟨engine, efuse, stack⟩
      ∃ first second, (secureVerify board kernel ramdisk hw).2.trace =
          hw.trace ++ (first ++ second).flatMap (messageTrace engine) ∧
        imageMessages board (getverifyimage kernel) first ∧
        ((imageRsaVerify board (getverifyimage kernel) hw).1 ≠ 0 ∧ second = [] ∨
          (imageRsaVerify board (getverifyimage kernel) hw).1 = 0 ∧
            imageMessages board (getverifyimage ramdisk) second) := by
  refine ⟨fun buf hw pieces hlen => blocks_of_pieces engine buf hw hlen, ?_⟩
  intro efuse stack kernel ramdisk hw hkernel hramdisk board
  exact secureVerify_trace board kernel ramdisk hw hkernel hramdisk

/-- The registers with the expected hash in them. -/
def expectedWords : List UInt32 :=
  [0xab288d8a, 0xd7d95992, 0xbaccf867, 0x20e1152e, 0x398d8036, 0xd66ff0fd, 0x90e87d8b, 0xe17c8759]

/-- An engine that has the expected hash in its registers after every block. -/
def expecting : Engine := ⟨fun _ => expectedWords, fun _ _ => expectedWords⟩

theorem sha256_expecting (m : List UInt8) : expecting.sha256 m = kExpectedPadSha256Rsa2048 := by
  obtain ⟨w, ws, hblocks⟩ := List.exists_cons_of_ne_nil
    (List.length_pos_iff.mp (length_blocksOf_fipsPad m).1)
  have hfold : ∀ ws : List (List UInt32), ws.foldl expecting.restart expectedWords =
      expectedWords := by
    intro ws
    induction ws with
    | nil => rfl
    | cons w ws ih => exact ih
  rw [Engine.sha256, Engine.digest, hblocks, show expecting.hash (w :: ws) = _ from hfold ws]
  decide

/-- Memory in front of a load address: three zeros with a signature of zeros and the sample
key. -/
def signedZeros : Mem := fun a =>
  if a < rsaPubKeyLen then if a = 0 then 3 else 0 else wordMem sampleKeyWords (a - rsaPubKeyLen)

theorem getverifyimage_signedZeros : getverifyimage signedZeros = sampleImage := by
  have hkey : advance signedZeros rsaPubKeyLen = wordMem sampleKeyWords := by
    funext a
    rw [advance, signedZeros, if_neg (by omega), Nat.add_sub_cancel_left]
  have himage : advance signedZeros headInfoLen = fun _ => 0 := by
    funext a
    have hlen : sampleKeyWords.length ≤ (headInfoLen + a - rsaPubKeyLen) / 4 := by
      rw [show sampleKeyWords.length = 131 by decide +kernel, headInfoLen, rsaPubKeyLen]
      omega
    rw [advance, signedZeros, if_neg (by rw [headInfoLen, rsaPubKeyLen]; omega), wordMem,
      List.getD_eq_getElem?_getD, List.getElem?_eq_none hlen]
    simp [digits]
  have hsignature : slice signedZeros rsaSignedLen 256 = List.replicate 256 0 := by
    decide +kernel
  rw [getverifyimage, hkey, himage, hsignature, sampleImage,
    show fetch signedZeros 0 4 = 3 by decide +kernel]

/-- A board with this engine, whose efuses hold the expected hash. -/
def expectingBoard : Board := ⟨expecting, digestWord kExpectedPadSha256Rsa2048, fun _ => 0⟩

theorem keyMatches_expectingBoard (img : VerifyImage) : KeyMatches expectingBoard img :=
  fun i _ => congrArg (digestWord · i) (sha256_expecting img.keyBlock).symm

theorem decrypted_expectingBoard : decrypted expectingBoard sampleImage =
    List.replicate 224 0 ++ kExpectedPadSha256Rsa2048 := by
  have hsignature : sampleImage.rsaSignature.length = rsaNumBytes := List.length_replicate
  have hpower : os2ip sampleImage.rsaSignature = 0 := by decide +kernel
  have hcube : (publicKey sampleImage.rsaPubKeyStru).exponent = 3 := by
    rw [sampleImage, publicKey_sample]
  have hzeros : modpow (publicKey sampleImage.rsaPubKeyStru) sampleImage.rsaSignature =
      i2osp rsaNumBytes 0 := by
    rw [publicKey_sample_valid.modpow hsignature, hpower, hcube, show 0 ^ 3 = 0 from rfl,
      Nat.zero_mod]
  rw [decrypted, hzeros, show expectingBoard.engine = expecting from rfl, sha256_expecting]
  decide +kernel

/-- An image whose key matches is hashed, and if the checks pass its decrypted signature too. -/
theorem imageMessages_expectingBoard {img : VerifyImage} {messages : List (List UInt8)}
    (h : imageMessages expectingBoard img messages) :
    (ChecksPass expectingBoard img →
      messages = [img.keyBlock, img.image, decrypted expectingBoard img]) ∧
    (¬ ChecksPass expectingBoard img → messages = [img.keyBlock, img.image]) := by
  rcases h with ⟨h, -⟩ | ⟨-, hnot, h⟩ | ⟨-, hpass, h⟩
  · exact absurd (keyMatches_expectingBoard img) h
  · exact ⟨fun hpass => absurd hpass hnot, fun _ => h⟩
  · exact ⟨fun _ => h, fun hnot => absurd hpass hnot⟩

/-- A message of three bytes in three pieces, one of them empty; and an accepted image of three
zeros before one that has no key, whose signature is never looked at. -/
theorem driver_hashes_each_message_alone_example :
    (sha256Final fips ([[97], [], [98, 99]].foldl (sha256Update fips)
        (sha256Init fun _ => 0, ⟨0, [], []⟩))).2.trace.filterMap Event.block =
      blocksOf (fipsPad [97, 98, 99]) ∧
    (secureVerify expectingBoard signedZeros (fun _ => 0) ⟨7, [], []⟩).2.trace =
      [sampleImage.keyBlock, [0, 0, 0], List.replicate 224 0 ++ kExpectedPadSha256Rsa2048,
        List.replicate 524 0, []].flatMap (messageTrace expecting) := by
  refine ⟨(driver_hashes_each_message_alone fips).1 (fun _ => 0) ⟨0, [], []⟩ [[97], [], [98, 99]]
    (by decide), ?_⟩
  obtain ⟨first, second, htrace, hfirst, hsecond⟩ :=
    (driver_hashes_each_message_alone expecting).2 (digestWord kExpectedPadSha256Rsa2048)
      (fun _ => 0) signedZeros (fun _ => 0) ⟨7, [], []⟩ (by decide +kernel) (by decide)
  rw [getverifyimage_signedZeros] at hfirst hsecond
  have hchecks : ChecksPass expectingBoard sampleImage :=
    .of_valid expectingBoard publicKey_sample_valid List.length_replicate
  have hnone : ¬ ChecksPass expectingBoard (getverifyimage fun _ => 0) := fun h =>
    absurd (of_decide_eq_true h).1 (by decide)
  have haccepted : (imageRsaVerify expectingBoard sampleImage ⟨7, [], []⟩).1 = 0 :=
    (imageRsaVerify_spec expectingBoard ⟨7, [], []⟩ (show 3 < 2 ^ 31 by norm_num)).1.mpr
      ⟨keyMatches_expectingBoard sampleImage, hchecks, sha256_expecting _⟩
  obtain ⟨hrefused, -⟩ | ⟨-, hsecond⟩ := hsecond
  · exact absurd haccepted hrefused
  have hfirst := (imageMessages_expectingBoard hfirst).1 hchecks
  have hsecond := (imageMessages_expectingBoard hsecond).2 hnone
  have himage : sampleImage.image = [0, 0, 0] := by decide +kernel
  have hkeyBlock : (getverifyimage fun _ => 0).keyBlock = List.replicate 524 0 := by
    decide +kernel
  have hempty : (getverifyimage fun _ => 0).image = [] := by decide +kernel
  rw [decrypted_expectingBoard, himage] at hfirst
  rw [hkeyBlock, hempty] at hsecond
  rw [hfirst, hsecond, List.nil_append] at htrace
  exact htrace

end UBoot.Secure
