import UBoot.Library.ByteStore

/-!
# The checksum of the partition tables

`crc32` of `lib/crc32.c` on a little-endian machine: whole words first, then the bytes
left over. A word is four bytes taken one after the other, so the checksum is that of
the bytes; and it tells apart any two inputs that differ in their last byte only.
-/
namespace UBoot.Disk

/-- `poly`, from the exponents listed in `make_crc_table`. -/
def crcPoly : UInt32 := 0xedb88320

/-- `crc_table[n]`, as `make_crc_table` computes it. -/
def crcTable (n : UInt32) : UInt32 :=
  (List.range 8).foldl (fun c _ => if c &&& 1 = 1 then crcPoly ^^^ (c >>> 1) else c >>> 1) n

/-- `DO_CRC(x)`. -/
def doCrc (crc x : UInt32) : UInt32 := crcTable ((crc ^^^ x) &&& 255) ^^^ (crc >>> 8)

/-- The little-endian word of four bytes. -/
def word (b₀ b₁ b₂ b₃ : UInt8) : UInt32 :=
  b₀.toUInt32 ||| (b₁.toUInt32 <<< 8) ||| (b₂.toUInt32 <<< 16) ||| (b₃.toUInt32 <<< 24)

/-- `crc32_no_comp` on a word-aligned buffer. -/
def crc32NoComp (crc : UInt32) : List UInt8 → UInt32
  | b₀ :: b₁ :: b₂ :: b₃ :: rest =>
    crc32NoComp (doCrc (doCrc (doCrc (doCrc (crc ^^^ word b₀ b₁ b₂ b₃) 0) 0) 0) 0) rest
  | rest => rest.foldl (fun crc b => doCrc crc b.toUInt32) crc

/-- `crc32`. -/
def crc32 (crc : UInt32) (bytes : List UInt8) : UInt32 :=
  crc32NoComp (crc ^^^ 0xffffffff) bytes ^^^ 0xffffffff

/-- `efi_crc32`. -/
def efiCrc32 (bytes : List UInt8) : UInt32 := crc32 0 bytes

theorem xor_and (a b c : UInt32) : (a ^^^ b) &&& c = (a &&& c) ^^^ (b &&& c) := by
  apply UInt32.toBitVec_inj.mp
  ext i
  simp [Bool.and_xor_distrib_right]

theorem getElem_mask (i : ℕ) (hi : i < 32) : (255#32)[i] = decide (i < 8) := by
  have h : ∀ j : Fin 32, (255#32).getLsbD j = decide (j.val < 8) := by decide
  exact h ⟨i, hi⟩

theorem word_and_mask (b₀ b₁ b₂ b₃ : UInt8) : word b₀ b₁ b₂ b₃ &&& 255 = b₀.toUInt32 := by
  apply UInt32.toBitVec_inj.mp
  unfold word
  ext i hi
  have hmask := getElem_mask i hi
  simp [hmask]
  grind

theorem word_shiftRight (b₀ b₁ b₂ b₃ : UInt8) : word b₀ b₁ b₂ b₃ >>> 8 = word b₁ b₂ b₃ 0 := by
  apply UInt32.toBitVec_inj.mp
  unfold word
  ext i hi
  simp
  grind

/-- What is added above the low byte comes out one byte further down. -/
theorem doCrc_xor_word (crc : UInt32) (b₀ b₁ b₂ b₃ : UInt8) :
    doCrc (crc ^^^ word b₀ b₁ b₂ b₃) 0 = doCrc crc b₀.toUInt32 ^^^ word b₁ b₂ b₃ 0 := by
  have hbyte : b₀.toUInt32 &&& 255 = b₀.toUInt32 := by
    rw [← word_and_mask b₀ b₁ b₂ b₃, UInt32.and_assoc, UInt32.and_self]
  have hindex : (crc ^^^ word b₀ b₁ b₂ b₃ ^^^ 0) &&& 255 = (crc ^^^ b₀.toUInt32) &&& 255 := by
    rw [UInt32.xor_zero, xor_and, xor_and, word_and_mask, hbyte]
  rw [doCrc, doCrc, hindex, UInt32.shiftRight_xor, word_shiftRight, UInt32.xor_assoc]

/-- The checksum goes through the bytes in order. -/
theorem crc32NoComp_eq_foldl (crc : UInt32) (bytes : List UInt8) :
    crc32NoComp crc bytes = bytes.foldl (fun crc b => doCrc crc b.toUInt32) crc := by
  have hzero : word 0 0 0 0 = 0 := rfl
  induction crc, bytes using crc32NoComp.induct with
  | case1 crc b₀ b₁ b₂ b₃ rest ih =>
    rw [crc32NoComp, ih]
    simp only [doCrc_xor_word, hzero, UInt32.xor_zero, List.foldl_cons]
  | case2 crc rest h =>
    rw [crc32NoComp]
    exact h

/-- The rounds of a table entry backwards: the highest bit tells whether the polynomial was
added. -/
def crcTableInv (c : UInt32) : UInt32 :=
  (List.range 8).foldl
    (fun c _ => if c &&& 0x80000000 ≠ 0 then ((c ^^^ crcPoly) <<< 1) ||| 1 else c <<< 1) c

theorem crcTableInv_crcTable : ∀ n < 256, (crcTableInv (crcTable (UInt32.ofNat n))).toNat = n := by
  decide +kernel

theorem crcTable_inj {m n : ℕ} (hm : m < 256) (hn : n < 256)
    (h : crcTable (UInt32.ofNat m) = crcTable (UInt32.ofNat n)) : m = n := by
  rw [← crcTableInv_crcTable m hm, ← crcTableInv_crcTable n hn, h]

theorem mask_lt (x : UInt32) : (x &&& 255).toNat < 256 := by
  have h : (x &&& 255).toNat ≤ 255 := by
    rw [UInt32.toNat_and]
    exact Nat.and_le_right
  omega

theorem doCrc_inj {crc : UInt32} {b b' : UInt8}
    (h : doCrc crc b.toUInt32 = doCrc crc b'.toUInt32) : b = b' := by
  have hmask : ∀ b : UInt8, b.toUInt32 &&& 255 = b.toUInt32 := fun b => by
    rw [← word_and_mask b 0 0 0, UInt32.and_assoc, UInt32.and_self]
  have hindex : (crc ^^^ b.toUInt32) &&& 255 = (crc ^^^ b'.toUInt32) &&& 255 := by
    apply UInt32.toNat_inj.mp
    apply crcTable_inj (mask_lt _) (mask_lt _)
    simpa [doCrc] using h
  have hword : b.toUInt32 = b'.toUInt32 := by simpa [xor_and, hmask] using hindex
  apply UInt8.toNat_inj.mp
  simpa using congrArg UInt32.toNat hword

/-- Two inputs that differ in the last byte only have different checksums. -/
theorem efiCrc32_append_inj {bytes : List UInt8} {b b' : UInt8}
    (h : efiCrc32 (bytes ++ [b]) = efiCrc32 (bytes ++ [b'])) : b = b' := by
  apply doCrc_inj
  simpa [efiCrc32, crc32, crc32NoComp_eq_foldl] using h

end UBoot.Disk
