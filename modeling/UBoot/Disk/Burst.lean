import UBoot.Disk.Bounds
import UBoot.Disk.RoundTrip
import UBoot.Library.ShiftRegister

/-!
# What the checksums of a partition table catch

`DO_CRC` takes a byte through a shift register, lowest bit first, so `crc32` tells apart any
two inputs that differ only within a window of 32 bits. Damage of that kind to a table that
`is_gpt_valid` accepts is never accepted: not in the entries, and not in the header outside
the two fields that say how much is summed and what the sum is.
-/
namespace UBoot.Disk
open ByteStore ShiftRegister

/-- `poly` as the register has it. -/
abbrev crcRegister : BitVec 32 := crcPoly.toBitVec

theorem and_one_eq_one (c : UInt32) : c &&& 1 = 1 ↔ c.toBitVec.getLsbD 0 = true := by
  rw [← UInt32.toBitVec_inj, UInt32.toBitVec_and,
    show (1 : UInt32).toBitVec = 1#32 from rfl, BitVec.and_one_eq_setWidth_ofBool_getLsbD]
  cases c.toBitVec.getLsbD 0 <;> decide

theorem toBitVec_round (c : UInt32) :
    (if c &&& 1 = 1 then crcPoly ^^^ (c >>> 1) else c >>> 1).toBitVec =
      shift crcRegister c.toBitVec := by
  unfold shift
  by_cases h : c.toBitVec.getLsbD 0 = true
  · rw [if_pos ((and_one_eq_one c).mpr h), if_pos h, UInt32.toBitVec_xor]
    rfl
  · rw [if_neg (mt (and_one_eq_one c).mp h), if_neg h]
    rfl

theorem toBitVec_crcTable (n : UInt32) :
    (crcTable n).toBitVec = (shift crcRegister)^[8] n.toBitVec := by
  simp only [crcTable, List.range_succ, List.range_zero, List.nil_append, List.cons_append,
    List.foldl_cons, List.foldl_nil, toBitVec_round]
  rfl

/-- `crc_table` as it is compiled. -/
def crcTableWords : List UInt32 :=
  [0x00000000, 0x77073096, 0xee0e612c, 0x990951ba, 0x076dc419, 0x706af48f, 0xe963a535,
    0x9e6495a3, 0x0edb8832, 0x79dcb8a4, 0xe0d5e91e, 0x97d2d988, 0x09b64c2b, 0x7eb17cbd,
    0xe7b82d07, 0x90bf1d91, 0x1db71064, 0x6ab020f2, 0xf3b97148, 0x84be41de, 0x1adad47d,
    0x6ddde4eb, 0xf4d4b551, 0x83d385c7, 0x136c9856, 0x646ba8c0, 0xfd62f97a, 0x8a65c9ec,
    0x14015c4f, 0x63066cd9, 0xfa0f3d63, 0x8d080df5, 0x3b6e20c8, 0x4c69105e, 0xd56041e4,
    0xa2677172, 0x3c03e4d1, 0x4b04d447, 0xd20d85fd, 0xa50ab56b, 0x35b5a8fa, 0x42b2986c,
    0xdbbbc9d6, 0xacbcf940, 0x32d86ce3, 0x45df5c75, 0xdcd60dcf, 0xabd13d59, 0x26d930ac,
    0x51de003a, 0xc8d75180, 0xbfd06116, 0x21b4f4b5, 0x56b3c423, 0xcfba9599, 0xb8bda50f,
    0x2802b89e, 0x5f058808, 0xc60cd9b2, 0xb10be924, 0x2f6f7c87, 0x58684c11, 0xc1611dab,
    0xb6662d3d, 0x76dc4190, 0x01db7106, 0x98d220bc, 0xefd5102a, 0x71b18589, 0x06b6b51f,
    0x9fbfe4a5, 0xe8b8d433, 0x7807c9a2, 0x0f00f934, 0x9609a88e, 0xe10e9818, 0x7f6a0dbb,
    0x086d3d2d, 0x91646c97, 0xe6635c01, 0x6b6b51f4, 0x1c6c6162, 0x856530d8, 0xf262004e,
    0x6c0695ed, 0x1b01a57b, 0x8208f4c1, 0xf50fc457, 0x65b0d9c6, 0x12b7e950, 0x8bbeb8ea,
    0xfcb9887c, 0x62dd1ddf, 0x15da2d49, 0x8cd37cf3, 0xfbd44c65, 0x4db26158, 0x3ab551ce,
    0xa3bc0074, 0xd4bb30e2, 0x4adfa541, 0x3dd895d7, 0xa4d1c46d, 0xd3d6f4fb, 0x4369e96a,
    0x346ed9fc, 0xad678846, 0xda60b8d0, 0x44042d73, 0x33031de5, 0xaa0a4c5f, 0xdd0d7cc9,
    0x5005713c, 0x270241aa, 0xbe0b1010, 0xc90c2086, 0x5768b525, 0x206f85b3, 0xb966d409,
    0xce61e49f, 0x5edef90e, 0x29d9c998, 0xb0d09822, 0xc7d7a8b4, 0x59b33d17, 0x2eb40d81,
    0xb7bd5c3b, 0xc0ba6cad, 0xedb88320, 0x9abfb3b6, 0x03b6e20c, 0x74b1d29a, 0xead54739,
    0x9dd277af, 0x04db2615, 0x73dc1683, 0xe3630b12, 0x94643b84, 0x0d6d6a3e, 0x7a6a5aa8,
    0xe40ecf0b, 0x9309ff9d, 0x0a00ae27, 0x7d079eb1, 0xf00f9344, 0x8708a3d2, 0x1e01f268,
    0x6906c2fe, 0xf762575d, 0x806567cb, 0x196c3671, 0x6e6b06e7, 0xfed41b76, 0x89d32be0,
    0x10da7a5a, 0x67dd4acc, 0xf9b9df6f, 0x8ebeeff9, 0x17b7be43, 0x60b08ed5, 0xd6d6a3e8,
    0xa1d1937e, 0x38d8c2c4, 0x4fdff252, 0xd1bb67f1, 0xa6bc5767, 0x3fb506dd, 0x48b2364b,
    0xd80d2bda, 0xaf0a1b4c, 0x36034af6, 0x41047a60, 0xdf60efc3, 0xa867df55, 0x316e8eef,
    0x4669be79, 0xcb61b38c, 0xbc66831a, 0x256fd2a0, 0x5268e236, 0xcc0c7795, 0xbb0b4703,
    0x220216b9, 0x5505262f, 0xc5ba3bbe, 0xb2bd0b28, 0x2bb45a92, 0x5cb36a04, 0xc2d7ffa7,
    0xb5d0cf31, 0x2cd99e8b, 0x5bdeae1d, 0x9b64c2b0, 0xec63f226, 0x756aa39c, 0x026d930a,
    0x9c0906a9, 0xeb0e363f, 0x72076785, 0x05005713, 0x95bf4a82, 0xe2b87a14, 0x7bb12bae,
    0x0cb61b38, 0x92d28e9b, 0xe5d5be0d, 0x7cdcefb7, 0x0bdbdf21, 0x86d3d2d4, 0xf1d4e242,
    0x68ddb3f8, 0x1fda836e, 0x81be16cd, 0xf6b9265b, 0x6fb077e1, 0x18b74777, 0x88085ae6,
    0xff0f6a70, 0x66063bca, 0x11010b5c, 0x8f659eff, 0xf862ae69, 0x616bffd3, 0x166ccf45,
    0xa00ae278, 0xd70dd2ee, 0x4e048354, 0x3903b3c2, 0xa7672661, 0xd06016f7, 0x4969474d,
    0x3e6e77db, 0xaed16a4a, 0xd9d65adc, 0x40df0b66, 0x37d83bf0, 0xa9bcae53, 0xdebb9ec5,
    0x47b2cf7f, 0x30b5ffe9, 0xbdbdf21c, 0xcabac28a, 0x53b39330, 0x24b4a3a6, 0xbad03605,
    0xcdd70693, 0x54de5729, 0x23d967bf, 0xb3667a2e, 0xc4614ab8, 0x5d681b02, 0x2a6f2b94,
    0xb40bbe37, 0xc30c8ea1, 0x5a05df1b, 0x2d02ef8d]

/-- It is what `make_crc_table` would fill in. -/
theorem crcTableWords_eq :
    crcTableWords = (List.range 256).map fun n => crcTable (UInt32.ofNat n) := by
  decide +kernel

/-- The bits of a byte in the order they are summed. -/
def bitsOf (b : UInt8) : List Bool := (List.range 8).map b.toNat.testBit

@[simp] theorem length_bitsOf (b : UInt8) : (bitsOf b).length = 8 := by simp [bitsOf]

theorem getLsbD_byte (b : UInt8) (i : ℕ) : b.toUInt32.toBitVec.getLsbD i = b.toNat.testBit i := by
  rw [BitVec.getLsbD, UInt32.toNat_toBitVec, UInt8.toNat_toUInt32]

theorem testBit_byte (b : UInt8) {i : ℕ} (hi : 8 ≤ i) : b.toNat.testBit i = false :=
  Nat.testBit_lt_two_pow (lt_of_lt_of_le b.toNat_lt (Nat.pow_le_pow_right (by omega) hi))

theorem pack_bitsOf (b : UInt8) : (pack (bitsOf b) : BitVec 32) = b.toUInt32.toBitVec := by
  apply BitVec.eq_of_getLsbD_eq
  intro i hi
  rw [getLsbD_pack _ hi, getLsbD_byte]
  by_cases hbyte : i < 8
  · simp [bitsOf, hbyte]
  · rw [testBit_byte b (by omega)]
    simp [bitsOf, hbyte]

/-- With nothing but zeros to come out the register only moves. -/
theorem iterate_shift_high {c : BitVec 32} {n : ℕ} (h : ∀ i < n, c.getLsbD i = false) :
    (shift crcRegister)^[n] c = c >>> n := by
  induction n with
  | zero => simp
  | succ n ih =>
    have hlow : (c >>> n).getLsbD 0 = false := by simpa using h n (Nat.lt_succ_self n)
    rw [Function.iterate_succ_apply', ih fun i hi => h i (by omega), shift, hlow,
      if_neg Bool.false_ne_true, BitVec.shiftRight_add]

theorem iterate_shift_xor (n : ℕ) (c d : BitVec 32) :
    (shift crcRegister)^[n] (c ^^^ d) =
      (shift crcRegister)^[n] c ^^^ (shift crcRegister)^[n] d := by
  induction n generalizing c d with
  | zero => rfl
  | succ n ih => rw [Function.iterate_succ_apply, shift_xor, ih]; rfl

/-- Eight shifts: the table for the low byte, and the rest moved down. -/
theorem iterate_shift_eight (x : UInt32) :
    (shift crcRegister)^[8] x.toBitVec = (crcTable (x &&& 255) ^^^ (x >>> 8)).toBitVec := by
  have hmask : ∀ i < 32, (255#32).getLsbD i = decide (i < 8) := fun i hi => by
    rw [BitVec.getLsbD_eq_getElem hi, getElem_mask i hi]
  have hsplit : x.toBitVec = (x.toBitVec &&& 255#32) ^^^ ((x.toBitVec >>> 8) <<< 8) := by
    apply BitVec.eq_of_getLsbD_eq
    intro i hi
    rw [BitVec.getLsbD_xor, BitVec.getLsbD_and, hmask i hi, BitVec.getLsbD_shiftLeft]
    by_cases hlow : i < 8
    · simp [hlow]
    · simp [hlow, hi, show 8 + (i - 8) = i by omega]
  have hback : ((x.toBitVec >>> 8) <<< 8) >>> 8 = x.toBitVec >>> 8 := by
    apply BitVec.eq_of_getLsbD_eq
    intro i hi
    by_cases h : 8 + i < 32
    · simp [h]
    · simp [h, BitVec.getLsbD_of_ge x.toBitVec (8 + i) (by omega)]
  have hhigh : ∀ i < 8, ((x.toBitVec >>> 8) <<< 8).getLsbD i = false := by
    intro i hi
    simp [hi]
  conv_lhs => rw [hsplit]
  rw [iterate_shift_xor, iterate_shift_high hhigh, hback, UInt32.toBitVec_xor, toBitVec_crcTable]
  rfl

/-- `DO_CRC` of a byte feeds its bits. -/
theorem toBitVec_doCrc (crc : UInt32) (b : UInt8) :
    (doCrc crc b.toUInt32).toBitVec = feed crcRegister crc.toBitVec (bitsOf b) := by
  have hshift : (crc ^^^ b.toUInt32) >>> 8 = crc >>> 8 := by
    have hbyte : b.toUInt32 >>> 8 = 0 := by
      apply UInt32.toNat_inj.mp
      simpa [Nat.shiftRight_eq_div_pow] using Nat.div_eq_of_lt b.toNat_lt
    rw [UInt32.shiftRight_xor, hbyte, UInt32.xor_zero]
  rw [feed_eq_iterate _ _ (by simp), length_bitsOf, pack_bitsOf, ← UInt32.toBitVec_xor,
    iterate_shift_eight, hshift]
  rfl

theorem toBitVec_crc32NoComp (crc : UInt32) (bytes : List UInt8) :
    (crc32NoComp crc bytes).toBitVec =
      feed crcRegister crc.toBitVec (bytes.flatMap bitsOf) := by
  rw [crc32NoComp_eq_foldl]
  induction bytes generalizing crc with
  | nil => rfl
  | cons b bytes ih =>
    rw [List.foldl_cons, ih, toBitVec_doCrc, List.flatMap_cons, feed_append]

/-- Bit `p` of a memory, counted as the checksum meets it. -/
def bitAt (m : Mem) (p : ℕ) : Bool := (m (p / 8)).toNat.testBit (p % 8)

/-- The bits that differ lie within 32 consecutive ones. -/
def Burst (m m' : Mem) : Prop := ∃ k, ∀ p, bitAt m p ≠ bitAt m' p → k ≤ p ∧ p < k + 32

theorem bitAt_add (m : Mem) (i : ℕ) {j : ℕ} (hj : j < 8) :
    bitAt m (8 * i + j) = (m i).toNat.testBit j := by
  rw [bitAt, show (8 * i + j) / 8 = i by omega, show (8 * i + j) % 8 = j by omega]

theorem bitAt_congr {m m' : Mem} {p : ℕ} (h : m (p / 8) = m' (p / 8)) :
    bitAt m p = bitAt m' p := by
  rw [bitAt, bitAt, h]

theorem bitAt_advance (m : Mem) (base p : ℕ) :
    bitAt (advance m base) p = bitAt m (8 * base + p) := by
  rw [bitAt, bitAt, advance_apply, show (8 * base + p) / 8 = base + p / 8 by omega,
    show (8 * base + p) % 8 = p % 8 by omega]

/-- A burst is one in any part of the memory. -/
theorem Burst.part {m m' x x' : Mem} (h : Burst m m') (base : ℕ)
    (hpart : ∀ p, bitAt x p ≠ bitAt x' p → bitAt m (8 * base + p) ≠ bitAt m' (8 * base + p)) :
    Burst x x' := by
  obtain ⟨k, hk⟩ := h
  refine ⟨k - 8 * base, fun p hp => ?_⟩
  have := hk _ (hpart p hp)
  omega

theorem flatMap_bitsOf_slice (m : Mem) (n : ℕ) :
    (slice m 0 n).flatMap bitsOf = (List.range (8 * n)).map (bitAt m) := by
  induction n with
  | zero => rfl
  | succ n ih =>
    have hlast : bitsOf (m (0 + n)) = (List.range 8).map (bitAt m ∘ (8 * n + ·)) := by
      rw [Nat.zero_add]
      apply List.map_congr_left
      intro j hj
      exact (bitAt_add m n (List.mem_range.mp hj)).symm
    rw [slice_succ, List.flatMap_append, ih, Nat.mul_succ, List.range_add, List.map_append,
      List.map_map, List.flatMap_singleton, hlast]

/-- No burst leaves the checksum as it was. -/
theorem Burst.eq_of_crc_eq {m m' : Mem} (h : Burst m m') {n : ℕ}
    (hcrc : efiCrc32 (slice m 0 n) = efiCrc32 (slice m' 0 n)) {i : ℕ} (hi : i < n) :
    m i = m' i := by
  obtain ⟨k, hk⟩ := h
  have hfeed := congrArg UInt32.toBitVec ((UInt32.xor_left_inj _).mp hcrc)
  rw [toBitVec_crc32NoComp, toBitVec_crc32NoComp] at hfeed
  have hbits := eq_of_feed_eq crcRegister (by decide) _ k (by simp [List.length_flatMap])
    (fun p hp hp' hne => hk p (by simpa [flatMap_bitsOf_slice] using hne)) hfeed
  rw [flatMap_bitsOf_slice, flatMap_bitsOf_slice] at hbits
  apply UInt8.toNat_inj.mp
  apply Nat.eq_of_testBit_eq
  intro j
  by_cases hj : j < 8
  · rw [← bitAt_add m i hj, ← bitAt_add m' i hj]
    exact List.map_inj_left.mp hbits _ (List.mem_range.mpr (by omega))
  · rw [testBit_byte _ (by omega), testBit_byte _ (by omega)]

/-- The device with other contents. -/
def BlockDevDesc.hit (d : BlockDevDesc) (m : Mem) : BlockDevDesc := { d with bytes := m }

/-- The address of a byte of the disk that a checksum of the table covers, and that has no
part in where the checksum is taken and what it is compared with. -/
def Checked (d : BlockDevDesc) (lba : ℕ) (head : Mem) (a : ℕ) : Prop :=
  (∃ i < d.blksz, i < Header.headerSize.get head ∧ ¬ (12 ≤ i ∧ i < 20) ∧
    a = u32 lba * d.blksz + i) ∨
  ((∃ i < entriesSize head, a = u32 (Header.partitionEntryLba.get head) * d.blksz + i) ∧
    ¬ (u32 lba * d.blksz ≤ a ∧ a < u32 lba * d.blksz + d.blksz))

section Hit
variable {env : Surroundings} {d : BlockDevDesc} {lba : ℕ} {g g' : Gpt} {m : Mem}

/-- The header of a table that is accepted after the burst is the one before it. -/
theorem Accepts.head_eq_of_burst (h : Accepts env d lba g)
    (h' : Accepts env (d.hit m) lba g') (hburst : Burst d.bytes m)
    (hin : ∀ a, d.bytes a ≠ m a → Checked d lba g.head a) : g'.head = g.head := by
  obtain ⟨-, hhead⟩ := BlockDevDesc.blockReadGpt_eq_some.mp h.head
  obtain ⟨-, hhead'⟩ := BlockDevDesc.blockReadGpt_eq_some.mp h'.head
  have hinside : ∀ i < d.blksz, g.head i = d.bytes (u32 lba * d.blksz + i) ∧
      g'.head i = m (u32 lba * d.blksz + i) := fun i hi => ⟨h.head_apply hi, h'.head_apply hi⟩
  have houtside : ∀ i, d.blksz ≤ i → g'.head i = g.head i := by
    intro i hi
    have hi : ¬ (0 ≤ i ∧ i < 0 + 1 * d.blksz) := by omega
    rw [hhead, hhead', overlay_of_not_mem _ _ hi]
    exact overlay_of_not_mem _ _ hi
  -- a byte of the header block that differs is summed
  have hsummed : ∀ i, g'.head i ≠ g.head i →
      i < d.blksz ∧ i < Header.headerSize.get g.head ∧ ¬ (12 ≤ i ∧ i < 20) := by
    intro i hne
    have hi : i < d.blksz := by
      by_contra hi
      exact hne (houtside i (by omega))
    obtain ⟨hg, hg'⟩ := hinside i hi
    obtain ⟨j, hj, hsize, hfield, heq⟩ | ⟨-, hblock⟩ :=
      hin (u32 lba * d.blksz + i) (by rw [← hg, ← hg']; exact hne.symm)
    · obtain rfl : i = j := by omega
      exact ⟨hi, hsize, hfield⟩
    · omega
  have hfields : ∀ i, 12 ≤ i → i < 20 → g'.head i = g.head i := by
    intro i h12 h20
    by_contra hne
    exact (hsummed i hne).2.2 ⟨h12, h20⟩
  have hsize : Header.headerSize.get g'.head = Header.headerSize.get g.head :=
    Field.get_congr _ fun i h12 h16 => hfields i h12 (lt_trans h16 (by decide))
  have hstored : Header.headerCrc32.get g'.head = Header.headerCrc32.get g.head :=
    Field.get_congr _ fun i h16 h20 => hfields i (le_trans (by decide) h16) h20
  -- the sums are the same, and the summed bytes are
  have hcrc : headerCrc g.head = headerCrc g'.head := by
    apply UInt32.toNat_inj.mp
    rw [h.crc, h'.crc, hstored]
  have hzeroed : Burst (Header.headerCrc32.put g.head 0) (Header.headerCrc32.put g'.head 0) := by
    refine hburst.part (u32 lba * d.blksz) fun p hp => ?_
    have hne : g'.head (p / 8) ≠ g.head (p / 8) := by
      intro heq
      apply hp
      apply bitAt_congr
      unfold Field.put overlay
      rw [heq]
    obtain ⟨hi, -, hfield⟩ := hsummed _ hne
    have hput : ∀ x : Mem, Header.headerCrc32.put x 0 (p / 8) = x (p / 8) := fun x =>
      overlay_of_not_mem _ _ fun hmem => hfield ⟨le_trans (by decide) hmem.1, hmem.2⟩
    rw [← bitAt_advance, ← bitAt_advance, bitAt, bitAt, advance_apply, advance_apply,
      ← (hinside _ hi).1, ← (hinside _ hi).2]
    simpa only [bitAt, hput] using hp
  funext i
  by_contra hne
  obtain ⟨-, hi, hfield⟩ := hsummed i hne
  rw [headerCrc, headerCrc, hsize] at hcrc
  have hput : ∀ x : Mem, Header.headerCrc32.put x 0 i = x i := fun x =>
    overlay_of_not_mem _ _ fun hmem => hfield ⟨le_trans (by decide) hmem.1, hmem.2⟩
  have := hzeroed.eq_of_crc_eq hcrc hi
  rw [hput, hput] at this
  exact hne this.symm

/-- And its entries are. -/
theorem Accepts.pte_eq_of_burst (h : Accepts env d lba g)
    (h' : Accepts env (d.hit m) lba g') (hburst : Burst d.bytes m)
    (hhead : g'.head = g.head) {i : ℕ} (hi : i < entriesSize g.head) :
    d.bytes (u32 (Header.partitionEntryLba.get g.head) * d.blksz + i) =
      m (u32 (Header.partitionEntryLba.get g.head) * d.blksz + i) := by
  have hle : entriesSize g.head ≤ d.blockCnt (entriesSize g.head) * d.blksz :=
    le_padCount_mul _ d.blksz_pos
  have hcrc : efiCrc32 (slice g.pte 0 (entriesSize g.head)) =
      efiCrc32 (slice g'.pte 0 (entriesSize g.head)) := by
    apply UInt32.toNat_inj.mp
    rw [h.entriesCrc, ← hhead, h'.entriesCrc]
  have harray : slice g.pte 0 (entriesSize g.head) =
      slice (advance d.bytes (u32 (Header.partitionEntryLba.get g.head) * d.blksz)) 0
        (entriesSize g.head) := by
    apply slice_congr
    intro j hj
    rw [Nat.zero_add, h.pte_apply (by omega), advance_apply]
  have harray' : slice g'.pte 0 (entriesSize g.head) =
      slice (advance m (u32 (Header.partitionEntryLba.get g.head) * d.blksz)) 0
        (entriesSize g.head) := by
    apply slice_congr
    intro j hj
    have hmem : j < (d.hit m).blockCnt (entriesSize g'.head) * (d.hit m).blksz := by
      rw [hhead]
      exact lt_of_lt_of_le hj hle
    rw [Nat.zero_add, h'.pte_apply hmem, hhead, advance_apply]
    rfl
  rw [harray, harray'] at hcrc
  have hpart : Burst (advance d.bytes (u32 (Header.partitionEntryLba.get g.head) * d.blksz))
      (advance m (u32 (Header.partitionEntryLba.get g.head) * d.blksz)) :=
    hburst.part _ fun p hp => by rwa [bitAt_advance, bitAt_advance] at hp
  exact hpart.eq_of_crc_eq hcrc hi

end Hit

/-- Where a burst hits only bytes that the checksums cover, the table is refused if and only
if anything was hit at all. -/
theorem isGptValid_eq_none_iff_hit {env : Surroundings} {d : BlockDevDesc} {lba : ℕ} {g : Gpt}
    {m : Mem} (hvalid : (isGptValid env d lba).1 = some g) (hburst : Burst d.bytes m)
    (hin : ∀ a, d.bytes a ≠ m a → Checked d lba g.head a) :
    (isGptValid env (d.hit m) lba).1 = none ↔ m ≠ d.bytes := by
  have h := accepts_of_isGptValid hvalid
  constructor
  · rintro hnone rfl
    have hsame : d.hit d.bytes = d := rfl
    rw [hsame, hvalid] at hnone
    simp at hnone
  · intro hne
    by_contra hsome
    obtain ⟨g', hg'⟩ := Option.ne_none_iff_exists'.mp hsome
    have h' := accepts_of_isGptValid hg'
    have hhead := h.head_eq_of_burst h' hburst hin
    apply hne
    funext a
    by_contra hbyte
    obtain ⟨i, hi, -, -, rfl⟩ | ⟨⟨i, hi, rfl⟩, -⟩ := hin a fun heq => hbyte heq.symm
    · apply hbyte
      have hafter := h'.head_apply (i := i) hi
      rw [hhead, h.head_apply hi] at hafter
      exact hafter.symm
    · exact hbyte (h.pte_eq_of_burst h' hburst hhead hi).symm

/-- `wellSized` with one bit of its entry turned over. -/
def turnedOver : Mem := Function.update wellSized.bytes 1064 8

theorem burst_turnedOver : Burst wellSized.bytes turnedOver := by
  refine ⟨8 * 1064, fun p hp => ?_⟩
  by_contra hout
  apply hp
  apply bitAt_congr
  rw [turnedOver, Function.update_of_ne (by omega)]

set_option maxRecDepth 10000 in
theorem wellSized_entries : (isGptValid calm wellSized 1).1.any (fun g =>
    entriesSize g.head = 128 ∧ Header.partitionEntryLba.get g.head = 2) = true := by
  decide +kernel

theorem isGptValid_eq_none_iff_hit_turnedOver :
    (isGptValid calm (wellSized.hit turnedOver) 1).1 = none := by
  obtain ⟨g, hg⟩ := Option.isSome_iff_exists.mp wellSized_isSome
  have hany := wellSized_entries
  simp only [hg, Option.any_some, decide_eq_true_eq] at hany
  refine (isGptValid_eq_none_iff_hit hg burst_turnedOver fun a ha => ?_).mpr fun heq => ?_
  · obtain rfl : a = 1064 := by
      by_contra hne
      exact ha (by rw [turnedOver, Function.update_of_ne hne])
    refine .inr ⟨⟨40, by rw [hany.1]; decide, ?_⟩, ?_⟩
    · rw [hany.2]
      decide
    · decide
  · have := congrFun heq 1064
    rw [turnedOver, Function.update_self] at this
    exact absurd this (by decide)

end UBoot.Disk
