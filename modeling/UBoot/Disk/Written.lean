import UBoot.Disk.Entries

/-!
# A table on the device

What a run of `gpt_restore` that returns 0 leaves on the device, block by block, and
when `is_gpt_valid` accepts a table that stands there.
-/
namespace UBoot.Disk
open ByteStore

variable {env : Surroundings} {d d' : BlockDevDesc}

/-- The device with a table on it. -/
def written (d : BlockDevDesc) (mbr head pte : Mem) : BlockDevDesc :=
  { d with bytes := writtenBytes d mbr head pte }

@[simp] theorem written_blksz (d : BlockDevDesc) (mbr head pte : Mem) :
    (written d mbr head pte).blksz = d.blksz := rfl

@[simp] theorem written_lba (d : BlockDevDesc) (mbr head pte : Mem) :
    (written d mbr head pte).lba = d.lba := rfl

@[simp] theorem written_reads (d : BlockDevDesc) (mbr head pte : Mem) :
    (written d mbr head pte).reads = d.reads := rfl

@[simp] theorem written_pteBlkCnt (d : BlockDevDesc) (mbr head pte : Mem) :
    (written d mbr head pte).pteBlkCnt = d.pteBlkCnt := rfl

/-- What is known of a run of `gpt_restore` that returned 0. -/
structure Restored (env : Surroundings) (d d' : BlockDevDesc) (partitions : List DiskPartition)
    (guid : List UInt8) (pte : Mem) : Prop where
  filled : fillLoop (u32 (d.lba + 2 ^ 32 - 34)) 34 0 partitions zeroed = some pte
  lba_ge : 33 ≤ d.lba
  primary_inside : 2 + d.pteBlkCnt ≤ d.lba
  device : d' = written d (protectiveMbr env d) (primaryHeader (filledHeader d guid) pte) pte

theorem restored_of_gptRestore {strDiskGuid : List UInt8} {partitions : List DiskPartition}
    (h : gptRestore env d strDiskGuid partitions = some d') :
    ∃ guid pte, Restored env d d' partitions guid pte := by
  simp only [gptRestore, gptFillHeader, Option.bind_eq_bind, Option.bind_eq_some_iff,
    Option.map_eq_some_iff] at h
  obtain ⟨-, -, -, -, head, ⟨guid, -, rfl⟩, pte, hfill, hwrite⟩ := h
  have hfields := filledHeader_fields d guid
  have hprimary := primaryHeader_fields d guid pte
  have hbackup := backupHeader_fields hprimary
  have halt := backupHeader_myLba d guid pte
  simp only [gptFillPte, hfields.lastUsable, hfields.firstUsable] at hfill
  simp only [writeGptTable, setProtectiveMbr, Option.bind_eq_bind, Option.bind_eq_some_iff,
    hfields.num, hbackup.lastUsable, halt] at hwrite
  obtain ⟨d₁, h₁, d₂, h₂, d₃, h₃, d₄, h₄, h₅⟩ := hwrite
  split at h₁
  swap
  · simp at h₁
  obtain ⟨-, rfl⟩ := BlockDevDesc.blockWriteGpt_eq_some.mp h₁
  obtain ⟨-, rfl⟩ := BlockDevDesc.blockWriteGpt_eq_some.mp h₂
  obtain ⟨w₃, rfl⟩ := BlockDevDesc.blockWriteGpt_eq_some.mp h₃
  obtain ⟨w₄, rfl⟩ := BlockDevDesc.blockWriteGpt_eq_some.mp h₄
  obtain ⟨w₅, rfl⟩ := BlockDevDesc.blockWriteGpt_eq_some.mp h₅
  have hcnt : d.blockCnt (u32 (gptEntryNumbers * sizeofGptEntry)) = d.pteBlkCnt := rfl
  have i₃ := d.writes_inside _ _ w₃
  have i₄ := d.writes_inside _ _ w₄
  rw [hcnt] at i₃ i₄
  have hzero : u32 0 = 0 := u32_of_lt (by norm_num)
  have hone : u32 1 = 1 := u32_of_lt (by norm_num)
  have htwo : u32 2 = 2 := u32_of_lt (by norm_num)
  have hfirst : u32 34 = 34 := u32_of_lt (by norm_num)
  have hlt := d.lba_lt
  have hge : 33 ≤ d.lba := by
    unfold u32 at i₄
    omega
  have hlast : u32 (u32 (u32 (d.lba + 2 ^ 32 - 34) + 1)) = d.lba - 33 := by
    unfold u32
    omega
  have hmine : u32 (u32 (u32 (d.lba + 2 ^ 32 - 1))) = d.lba - 1 := by
    unfold u32
    omega
  rw [hfirst] at hfill
  rw [htwo] at i₃
  refine ⟨guid, pte, hfill, hge, i₃, ?_⟩
  simp only [htwo, hone, hzero, hlast, hmine, hcnt, written, writtenBytes, Nat.zero_mul,
    Nat.one_mul]

theorem pteBlkCnt_le (d : BlockDevDesc) : d.pteBlkCnt ≤ 32 := by
  have hdiv : (gptEntryNumbers * sizeofGptEntry - 1) / d.blksz ≤
      (gptEntryNumbers * sizeofGptEntry - 1) / 512 := Nat.div_le_div_left d.blksz_ge (by norm_num)
  exact Nat.succ_le_succ (hdiv.trans (by decide))

section Bytes
variable {partitions : List DiskPartition} {guid : List UInt8} {pte : Mem}

theorem Restored.writtenBytes_header (h : Restored env d d' partitions guid pte)
    (hlba : 35 ≤ d.lba ∨ d.lba - 33 + d.pteBlkCnt ≤ 1) {i : ℕ} (hi : i < d.blksz) :
    d'.bytes (d.blksz + i) = primaryHeader (filledHeader d guid) pte i := by
  have hge := h.lba_ge
  have h₁ : 2 * d.blksz ≤ (d.lba - 1) * d.blksz := Nat.mul_le_mul_right _ (by omega)
  have h₂ : ¬ ((d.lba - 33) * d.blksz ≤ d.blksz + i ∧
      d.blksz + i < (d.lba - 33) * d.blksz + d.pteBlkCnt * d.blksz) := by
    rcases hlba with hlba | hlba
    · have : 2 * d.blksz ≤ (d.lba - 33) * d.blksz := Nat.mul_le_mul_right _ (by omega)
      omega
    · have : (d.lba - 33 + d.pteBlkCnt) * d.blksz ≤ 1 * d.blksz := Nat.mul_le_mul_right _ hlba
      rw [Nat.add_mul] at this
      omega
  rw [h.device]
  simp only [written, writtenBytes]
  rw [overlay_of_not_mem _ _ (by omega), overlay_of_not_mem _ _ h₂,
    overlay_of_not_mem _ _ (by omega), overlay_add _ _ hi]

/-- The array of the second copy, wherever it lies. -/
theorem Restored.writtenBytes_secondEntries (h : Restored env d d' partitions guid pte) {i : ℕ}
    (hi : i < d.pteBlkCnt * d.blksz) : d'.bytes ((d.lba - 33) * d.blksz + i) = pte i := by
  have hcnt := pteBlkCnt_le d
  have hlba := h.lba_ge
  have h₁ : (d.lba - 33 + d.pteBlkCnt) * d.blksz ≤ (d.lba - 1) * d.blksz :=
    Nat.mul_le_mul_right _ (by omega)
  rw [Nat.add_mul] at h₁
  rw [h.device]
  simp only [written, writtenBytes]
  rw [overlay_of_not_mem _ _ (by omega), overlay_add _ _ hi]

/-- What the second copy, which starts `d.lba - 35` blocks further, leaves of the first
array. -/
def leftOf (d : BlockDevDesc) (pte : Mem) : Mem := fun i =>
  if i < (d.lba - 35) * d.blksz then pte i else pte (i - (d.lba - 35) * d.blksz)

theorem Restored.writtenBytes_entries (h : Restored env d d' partitions guid pte)
    (hlba : 35 ≤ d.lba) {i : ℕ} (hi : i < d.pteBlkCnt * d.blksz) :
    d'.bytes (2 * d.blksz + i) = leftOf d pte i := by
  have hcnt := pteBlkCnt_le d
  have hsum : 2 * d.blksz + (d.lba - 35) * d.blksz = (d.lba - 33) * d.blksz := by
    rw [← Nat.add_mul]
    congr 1
    omega
  have hlast : (d.lba - 33 + 32) * d.blksz = (d.lba - 1) * d.blksz := by
    congr 1
    omega
  have hcnt' : d.pteBlkCnt * d.blksz ≤ 32 * d.blksz := Nat.mul_le_mul_right _ hcnt
  rw [Nat.add_mul] at hlast
  unfold leftOf
  split
  · rw [h.device]
    simp only [written, writtenBytes]
    rw [overlay_of_not_mem _ _ (by omega), overlay_of_not_mem _ _ (by omega), overlay_add _ _ hi]
  · have := h.writtenBytes_secondEntries (i := i - (d.lba - 35) * d.blksz) (by omega)
    rwa [← hsum, Nat.add_assoc, Nat.add_sub_cancel' (by omega)] at this

theorem Restored.writtenBytes_backup (h : Restored env d d' partitions guid pte) {i : ℕ}
    (hi : i < d.blksz) : d'.bytes ((d.lba - 1) * d.blksz + i) =
      backupHeader (primaryHeader (filledHeader d guid) pte) i := by
  rw [h.device]
  exact overlay_add _ _ hi

end Bytes

/-- The two memories hold the same first `n` bytes. -/
def AgreeTo (n : ℕ) (m m' : Mem) : Prop := ∀ i < n, m i = m' i

theorem AgreeTo.get {n : ℕ} {m m' : Mem} (h : AgreeTo n m m') {f : Field} (hf : f.off + f.len ≤ n) :
    f.get m = f.get m' := f.get_congr fun i _ hi => h i (by omega)

theorem HeaderFields.congr {head head' : Mem} (hh : HeaderFields d head)
    (h : AgreeTo sizeofGptHeader head' head) : HeaderFields d head' := by
  constructor
  all_goals rw [h.get (by decide)]
  exacts [hh.signature, hh.headerSize, hh.firstUsable, hh.lastUsable, hh.entryLba, hh.num, hh.size]

theorem headerCrc_congr {head head' : Mem} (hsize : Header.headerSize.get head = sizeofGptHeader)
    (h : AgreeTo sizeofGptHeader head' head) : headerCrc head' = headerCrc head := by
  unfold headerCrc
  rw [h.get (by decide), hsize]
  congr 1
  apply slice_congr
  intro i hi
  rw [Nat.zero_add]
  unfold Field.put overlay
  split
  · rfl
  · exact h i hi

/-- A table whose header stands at `lba` and whose array stands at LBA 2. -/
structure TableOn (d : BlockDevDesc) (lba : ℕ) (head pte : Mem) : Prop where
  fields : HeaderFields d head
  myLba : Header.myLba.get head = lba
  crc : (headerCrc head).toNat = Header.headerCrc32.get head
  arrayCrc : Header.partitionEntryArrayCrc32.get head =
    (efiCrc32 (slice pte 0 (gptEntryNumbers * sizeofGptEntry))).toNat
  lba_lt : lba < 2 ^ 32
  head_bytes : ∀ i < d.blksz, d.bytes (lba * d.blksz + i) = head i
  pte_bytes : ∀ i < d.pteBlkCnt * d.blksz, d.bytes (2 * d.blksz + i) = pte i

/-- A device whose reads inside succeed, and a heap with room for the entries. -/
structure Healthy (env : Surroundings) (d : BlockDevDesc) : Prop where
  reads : ∀ start cnt, start + cnt ≤ d.lba → d.reads start cnt = true
  callocs : ∀ size, env.callocs size = true

theorem entries_le_pteBlkCnt (d : BlockDevDesc) :
    gptEntryNumbers * sizeofGptEntry ≤ d.pteBlkCnt * d.blksz := le_padCount_mul _ d.blksz_pos

theorem TableOn.accepts {lba : ℕ} {head pte : Mem} (h : TableOn d lba head pte)
    (hlba : 34 ≤ d.lba) (hok : Healthy env d) (hin : lba + 1 ≤ d.lba)
    (hpte : 2 + d.pteBlkCnt ≤ d.lba) :
    ∃ g, Accepts env d lba g ∧ AgreeTo d.blksz g.head head ∧
      AgreeTo (d.pteBlkCnt * d.blksz) g.pte pte ∧ g.num = gptEntryNumbers := by
  have hblksz := d.blksz_ge
  have hu : u32 lba = lba := u32_of_lt h.lba_lt
  -- the header block
  let head' := overlay env.stack 0 (1 * d.blksz) (advance d.bytes (lba * d.blksz))
  have hread : d.blockReadGpt lba 1 env.stack = some head' := by
    rw [BlockDevDesc.blockReadGpt_eq_some, hu]
    exact ⟨hok.reads _ _ hin, rfl⟩
  have hagree : AgreeTo d.blksz head' head := by
    intro i hi
    rw [← h.head_bytes i hi]
    exact overlay_of_mem _ _ (Nat.zero_le i) (by omega)
  have hagree' : AgreeTo sizeofGptHeader head' head := by
    intro i hi
    exact hagree i (lt_of_lt_of_le hi (le_trans (by decide) hblksz))
  have hfields := h.fields.congr hagree'
  have hsize := hfields.entriesSize
  -- the array
  let pte' := overlay (overlay env.heap 0 (d.padToBlocksize (entriesSize head')) fun _ => 0) 0
    (d.blockCnt (entriesSize head') * d.blksz)
    (advance d.bytes (u32 (Header.partitionEntryLba.get head') * d.blksz))
  have halloc : allocReadGptEntries env d head' = some pte' := by
    unfold allocReadGptEntries
    have hne : ¬ (entriesSize head' = 0 ∨
        env.callocs (d.padToBlocksize (entriesSize head')) = false) := by
      rw [hok.callocs, hsize]
      decide
    dsimp only
    rw [if_neg hne, BlockDevDesc.blockReadGpt_eq_some]
    refine ⟨hok.reads _ _ ?_, rfl⟩
    rw [hfields.entryLba, hsize]
    exact hpte
  have hpagree : AgreeTo (d.pteBlkCnt * d.blksz) pte' pte := by
    intro i hi
    rw [← h.pte_bytes i hi]
    have hmem : i < 0 + d.blockCnt (entriesSize head') * d.blksz := by
      rw [hsize, Nat.zero_add]
      exact hi
    have hread : pte' i = advance d.bytes (u32 (Header.partitionEntryLba.get head') * d.blksz) i :=
      overlay_of_mem _ _ (Nat.zero_le i) hmem
    rw [hread, hfields.entryLba]
    rfl
  refine ⟨⟨head', pte'⟩, ⟨hread, hfields.signature, ?_, ?_, halloc, ?_⟩, hagree, hpagree,
    hfields.num⟩
  · rw [headerCrc_congr h.fields.headerSize hagree', h.crc, hagree'.get (by decide)]
  · have hlast : Header.lastUsableLba.get head' ≤ d.lba := by
      have := d.lba_lt
      rw [hfields.lastUsable]
      unfold u32
      omega
    have hmy : Header.myLba.get head' = lba := by
      rw [hagree'.get (by decide), h.myLba]
    simp [headerPlaced, hmy, hfields.firstUsable, hlast, hlba]
  · have hslice : slice pte' 0 (gptEntryNumbers * sizeofGptEntry) =
        slice pte 0 (gptEntryNumbers * sizeofGptEntry) := by
      apply slice_congr
      intro i hi
      rw [Nat.zero_add]
      exact hpagree i (lt_of_lt_of_le hi (entries_le_pteBlkCnt d))
    rw [hsize, hagree'.get (by decide), h.arrayCrc, hslice]

/-- The first copy as a table, with the array that the second copy left of it. -/
theorem Restored.primaryTable {partitions : List DiskPartition} {guid : List UInt8} {pte : Mem}
    (h : Restored env d d' partitions guid pte) (hlba : 35 ≤ d.lba)
    (hcrc : efiCrc32 (slice (leftOf d pte) 0 (gptEntryNumbers * sizeofGptEntry)) =
      efiCrc32 (slice pte 0 (gptEntryNumbers * sizeofGptEntry))) :
    TableOn d' 1 (primaryHeader (filledHeader d guid) pte) (leftOf d pte) := by
  have hblksz : d'.blksz = d.blksz := by rw [h.device, written_blksz]
  have hlba' : d'.lba = d.lba := by rw [h.device, written_lba]
  have hcnt : d'.pteBlkCnt = d.pteBlkCnt := by rw [h.device, written_pteBlkCnt]
  have hfields := primaryHeader_fields d guid pte
  refine ⟨⟨hfields.signature, hfields.headerSize, hfields.firstUsable, ?_, hfields.entryLba,
    hfields.num, hfields.size⟩, ?_, primaryHeader_crc d guid pte, ?_, by norm_num, ?_, ?_⟩
  · rw [hlba', hfields.lastUsable]
  · unfold primaryHeader
    simp (disch := decide) only [Field.get_put_of_apart, (filledHeader_lbas d guid).1]
  · rw [primaryHeader_arrayCrc, hcrc]
  · intro i hi
    rw [hblksz] at hi ⊢
    rw [Nat.one_mul]
    exact h.writtenBytes_header (.inl hlba) hi
  · intro i hi
    rw [hblksz, hcnt] at hi
    rw [hblksz]
    exact h.writtenBytes_entries hlba hi

end UBoot.Disk
