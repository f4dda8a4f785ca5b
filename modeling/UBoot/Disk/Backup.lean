import UBoot.Disk.RoundTrip

/-!
# The second copy on its own

The header at the last block is valid there, but `write_gpt_table` leaves its
`partition_entry_lba` at 2: the entries it points to are those of the first copy. It is
of use exactly as long as these are intact, and the array in front of it is never read.
-/
namespace UBoot.Disk
open ByteStore

variable {env env' : Surroundings} {d d' : BlockDevDesc} {partitions : List DiskPartition}
  {guid : List UInt8} {pte garbage : Mem}

/-- The device after the blocks of the first copy were overwritten. -/
def lost (d : BlockDevDesc) (garbage : Mem) : BlockDevDesc :=
  { d with bytes := overlay d.bytes 0 (34 * d.blksz) garbage }

/-- The header at the last block is valid, and leads to the entries of the first copy as
they were before it was overwritten. -/
def UsableAfter (env : Surroundings) (d : BlockDevDesc) (garbage : Mem) : Prop :=
  ∃ g, (isGptValid env (lost d garbage) (d.lba - 1)).1 = some g ∧
    AgreeTo (gptEntryNumbers * sizeofGptEntry) g.pte (advance d.bytes (2 * d.blksz))

/-- The second copy can be used whatever happened to the first one. -/
def BackupUsable (env : Surroundings) (d : BlockDevDesc) : Prop :=
  ∀ garbage, UsableAfter env d garbage

theorem lost_bytes_array {d : BlockDevDesc} {i : ℕ} (hi : i < d.pteBlkCnt * d.blksz) :
    (lost d garbage).bytes (2 * d.blksz + i) = garbage (2 * d.blksz + i) := by
  have hcnt : d.pteBlkCnt * d.blksz ≤ 32 * d.blksz := Nat.mul_le_mul_right _ (pteBlkCnt_le d)
  exact overlay_of_mem _ _ (Nat.zero_le _) (by omega)

theorem Restored.lost_header (h : Restored env d d' partitions guid pte) (hlba : 35 ≤ d.lba)
    {i : ℕ} (hi : i < d.blksz) : (lost d' garbage).bytes ((d.lba - 1) * d.blksz + i) =
      backupHeader (primaryHeader (filledHeader d guid) pte) i := by
  have hblksz : d'.blksz = d.blksz := by rw [h.device, written_blksz]
  have hle : 34 * d.blksz ≤ (d.lba - 1) * d.blksz := Nat.mul_le_mul_right _ (by omega)
  have hkept : (lost d' garbage).bytes ((d.lba - 1) * d.blksz + i) =
      d'.bytes ((d.lba - 1) * d.blksz + i) := by
    apply overlay_of_not_mem
    rw [hblksz]
    omega
  rw [hkept, h.writtenBytes_backup hi]

/-- The table that the header at the last block describes: its array is the one at LBA 2. -/
theorem Restored.accepted_after (h : Restored env d d' partitions guid pte) (hlba : 35 ≤ d.lba)
    {g : Gpt} (hg : Accepts env' (lost d' garbage) (d.lba - 1) g) :
    entriesSize g.head = gptEntryNumbers * sizeofGptEntry ∧
      Header.partitionEntryArrayCrc32.get g.head =
        (efiCrc32 (slice pte 0 (gptEntryNumbers * sizeofGptEntry))).toNat ∧
      AgreeTo (d.pteBlkCnt * d.blksz) g.pte (advance garbage (2 * d.blksz)) := by
  have hblksz : d'.blksz = d.blksz := by rw [h.device, written_blksz]
  have hcnt : d'.pteBlkCnt = d.pteBlkCnt := by rw [h.device, written_pteBlkCnt]
  have hlt := d.lba_lt
  have h512 := d.blksz_ge
  have hagree : AgreeTo sizeofGptHeader g.head
      (backupHeader (primaryHeader (filledHeader d guid) pte)) := by
    intro i hi
    have hi : i < d.blksz := lt_of_lt_of_le hi (le_trans (by decide) h512)
    have hu : u32 (d.lba - 1) = d.lba - 1 := u32_of_lt (by omega)
    rw [hg.head_apply (by rwa [← hblksz] at hi), hu]
    exact hblksz ▸ h.lost_header hlba hi
  have hfields := (backupHeader_fields (primaryHeader_fields d guid pte)).congr hagree
  refine ⟨hfields.entriesSize, ?_, fun i hi => ?_⟩
  · rw [hagree.get (by decide), backupHeader_arrayCrc, primaryHeader_arrayCrc]
  · have htwo : u32 2 = 2 := u32_of_lt (by norm_num)
    have hi' : i < d'.pteBlkCnt * d'.blksz := by rwa [hcnt, hblksz]
    rw [hg.pte_apply (by rw [hfields.entriesSize]; exact hi'), hfields.entryLba, htwo,
      advance_apply, ← hblksz]
    exact lost_bytes_array hi'

/-- The second copy is of use if and only if the entries of the first copy are kept. -/
theorem Restored.usableAfter_iff (h : Restored env d d' partitions guid pte)
    (hapart : 35 + d.pteBlkCnt ≤ d.lba) (hok : Healthy env' d') :
    UsableAfter env' d' garbage ↔ AgreeTo (gptEntryNumbers * sizeofGptEntry)
      (advance garbage (2 * d.blksz)) (advance d'.bytes (2 * d.blksz)) := by
  have hblksz : d'.blksz = d.blksz := by rw [h.device, written_blksz]
  have hlba : d'.lba = d.lba := by rw [h.device, written_lba]
  have hcnt : d'.pteBlkCnt = d.pteBlkCnt := by rw [h.device, written_pteBlkCnt]
  have hlt := d.lba_lt
  have hle := entries_le_pteBlkCnt d
  have h35 : 35 ≤ d.lba := by omega
  constructor
  · rintro ⟨g, hvalid, hentries⟩
    rw [hlba] at hvalid
    rw [hblksz] at hentries
    obtain ⟨-, -, harray⟩ := h.accepted_after h35 (accepts_of_isGptValid hvalid)
    intro i hi
    rw [← harray i (lt_of_lt_of_le hi hle), hentries i hi]
  · intro hkept
    have hpte : AgreeTo (gptEntryNumbers * sizeofGptEntry) (advance d'.bytes (2 * d.blksz))
        pte := by
      intro i hi
      have hi := lt_of_lt_of_le hi hle
      rw [advance_apply, h.writtenBytes_entries h35 hi, leftOf_of_apart (.inr hapart) pte hi]
    have hslice : slice (advance garbage (2 * d.blksz)) 0 (gptEntryNumbers * sizeofGptEntry) =
        slice pte 0 (gptEntryNumbers * sizeofGptEntry) := by
      apply slice_congr
      intro i hi
      rw [Nat.zero_add, hkept i hi, hpte i hi]
    have hfields := backupHeader_fields (primaryHeader_fields d guid pte)
    have htable : TableOn (lost d' garbage) (d.lba - 1)
        (backupHeader (primaryHeader (filledHeader d guid) pte))
        (advance garbage (2 * d.blksz)) := by
      refine ⟨⟨hfields.signature, hfields.headerSize, hfields.firstUsable, ?_, hfields.entryLba,
        hfields.num, hfields.size⟩, ?_, backupHeader_crc _, ?_, by omega, ?_, ?_⟩
      · rw [hfields.lastUsable]
        exact congrArg (fun n => u32 (n + 2 ^ 32 - 34)) hlba.symm
      · rw [backupHeader_myLba]
        unfold u32
        omega
      · rw [backupHeader_arrayCrc, primaryHeader_arrayCrc, hslice]
      · intro i hi
        exact hblksz ▸ h.lost_header h35 (hblksz ▸ hi)
      · intro i hi
        rw [advance_apply, ← hblksz]
        exact lost_bytes_array hi
    obtain ⟨g, hg, -, hgpte, -⟩ := htable.accepts (hlba.symm ▸ by omega)
      ⟨hok.reads, hok.callocs⟩ (hlba.symm ▸ by omega) (by
        have := h.primary_inside
        rw [← hcnt, ← hlba] at this
        exact this)
    refine ⟨g, ?_, fun i hi => ?_⟩
    · rw [hlba, hg.isGptValid]
    · have hi' : i < (lost d' garbage).pteBlkCnt * (lost d' garbage).blksz := by
        have hin := lt_of_lt_of_le hi hle
        rw [← hcnt, ← hblksz] at hin
        exact hin
      rw [hgpte i hi', hkept i hi, hblksz]

/-- The entries with the last byte changed, where the first copy has its array. -/
def spoiled (d : BlockDevDesc) (pte : Mem) : Mem := fun a =>
  if a = 2 * d.blksz + (gptEntryNumbers * sizeofGptEntry - 1) then
    pte (gptEntryNumbers * sizeofGptEntry - 1) + 1
  else pte (a - 2 * d.blksz)

theorem crc_spoiled_ne (d : BlockDevDesc) (pte : Mem) :
    efiCrc32 (slice (advance (spoiled d pte) (2 * d.blksz)) 0 (gptEntryNumbers * sizeofGptEntry)) ≠
      efiCrc32 (slice pte 0 (gptEntryNumbers * sizeofGptEntry)) := by
  intro hcrc
  obtain ⟨n, hn⟩ : ∃ n, gptEntryNumbers * sizeofGptEntry = n + 1 := ⟨16383, rfl⟩
  have hfront : slice (advance (spoiled d pte) (2 * d.blksz)) 0 n = slice pte 0 n := by
    apply slice_congr
    intro i hi
    rw [Nat.zero_add, advance_apply, spoiled, if_neg (by omega), Nat.add_sub_cancel_left]
  have hlast : advance (spoiled d pte) (2 * d.blksz) n = pte n + 1 := by
    rw [advance_apply, spoiled, hn, Nat.add_sub_cancel, if_pos rfl]
  rw [hn, slice_succ, slice_succ, hfront, Nat.zero_add, hlast] at hcrc
  have := efiCrc32_append_inj hcrc
  simp at this

/-- After some overwriting of the first copy, the header at the last block is not valid. -/
theorem Restored.lost_rejected (h : Restored env d d' partitions guid pte)
    (env' : Surroundings) :
    ∃ garbage, (isGptValid env' (lost d' garbage) (d'.lba - 1)).1 = none := by
  have hblksz : d'.blksz = d.blksz := by rw [h.device, written_blksz]
  have hlba : d'.lba = d.lba := by rw [h.device, written_lba]
  have hlt := d.lba_lt
  have h512 := d.blksz_ge
  by_cases h35 : 35 ≤ d.lba
  · refine ⟨spoiled d pte, ?_⟩
    by_contra hvalid
    obtain ⟨g, hg⟩ := Option.ne_none_iff_exists'.mp hvalid
    rw [hlba] at hg
    have hg := accepts_of_isGptValid hg
    obtain ⟨hsize, hcrc, harray⟩ := h.accepted_after h35 hg
    have hentries := hg.entriesCrc
    rw [hsize, hcrc] at hentries
    have hslice : slice g.pte 0 (gptEntryNumbers * sizeofGptEntry) =
        slice (advance (spoiled d pte) (2 * d.blksz)) 0 (gptEntryNumbers * sizeofGptEntry) := by
      apply slice_congr
      intro i hi
      rw [Nat.zero_add]
      exact harray i (lt_of_lt_of_le hi (entries_le_pteBlkCnt d))
    rw [hslice] at hentries
    exact crc_spoiled_ne d pte (UInt32.toNat_inj.mp hentries)
  · -- the last block is one of those overwritten
    refine ⟨zeroed, ?_⟩
    by_contra hvalid
    obtain ⟨g, hg⟩ := Option.ne_none_iff_exists'.mp hvalid
    have hg := accepts_of_isGptValid hg
    have hzero : Header.signature.get g.head = Header.signature.get zeroed := by
      apply Field.get_congr
      intro i _ hi
      have hi : i < 8 := hi
      have hi' : i < d.blksz := by omega
      have hle : (d.lba - 1 + 1) * d.blksz ≤ 34 * d.blksz := Nat.mul_le_mul_right _ (by omega)
      have hu : u32 (d'.lba - 1) = d.lba - 1 := by
        rw [hlba]
        exact u32_of_lt (by omega)
      rw [Nat.add_mul, Nat.one_mul] at hle
      rw [hg.head_apply (by rw [← hblksz] at hi'; exact hi'), hu]
      apply overlay_of_mem _ _ (Nat.zero_le _)
      have hsame : (lost d' zeroed).blksz = d.blksz := hblksz
      rw [hsame, hblksz]
      omega
    have hsignature := hg.signature
    rw [hzero] at hsignature
    exact absurd hsignature (by decide)

/-- No run of `gpt_restore` that returns 0 leaves a second copy that is usable whatever
happens to the first one. -/
theorem gptRestore_backup_never_usable {strDiskGuid : List UInt8}
    (hrestore : gptRestore env d strDiskGuid partitions = some d') : ¬ BackupUsable env' d' := by
  obtain ⟨guid, pte, h⟩ := restored_of_gptRestore hrestore
  obtain ⟨garbage, hrejected⟩ := h.lost_rejected env'
  intro husable
  obtain ⟨g, hg, -⟩ := husable garbage
  rw [hrejected] at hg
  simp at hg

theorem gptRestore_backup_never_usable_twoPartitions :
    ∃ d', gptRestore calm smallDisk nullUuid twoPartitions = some d' ∧ ¬ BackupUsable calm d' := by
  obtain ⟨d', hd⟩ := Option.isSome_iff_exists.mp
    (show (gptRestore calm smallDisk nullUuid twoPartitions).isSome = true by decide +kernel)
  exact ⟨d', hd, gptRestore_backup_never_usable hd⟩

/-- A table whose second copy is of no use when the first one is spoiled. -/
theorem backup_lost_with_primary :
    ∃ d' garbage, gptRestore calm smallDisk nullUuid twoPartitions = some d' ∧ Healthy calm d' ∧
      ¬ UsableAfter calm d' garbage := by
  obtain ⟨d', hd⟩ := Option.isSome_iff_exists.mp
    (show (gptRestore calm smallDisk nullUuid twoPartitions).isSome = true by decide +kernel)
  obtain ⟨guid, pte, h⟩ := restored_of_gptRestore hd
  obtain ⟨garbage, hrejected⟩ := h.lost_rejected calm
  refine ⟨d', garbage, hd,
    healthy_smallDisk (by rw [h.device]; rfl) (by rw [h.device]; rfl), ?_⟩
  rintro ⟨g, hg, -⟩
  rw [hrejected] at hg
  simp at hg

end UBoot.Disk
