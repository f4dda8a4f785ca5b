import UBoot.Disk.Bounds
import UBoot.Disk.Written

/-!
# Reading back a table that was written

What `get_partition_info_efi` reads of a table that `gpt_restore` wrote. Positions are
32 bits wide in `gpt_fill_pte`, and its check of the disk size is made after the sum has
wrapped: a partition that follows one whose end is at 2^32 or beyond is put somewhere
else. All others are read back as they were laid out, unless the disk is so small that
the second copy is written over the first one.
-/
namespace UBoot.Disk
open ByteStore

/-- The start and the size of each partition, when the next one goes to block `follow`. -/
def layout (lastUsable : ℕ) : ℕ → List DiskPartition → List (ℕ × ℕ)
  | _, [] => []
  | follow, p :: ps =>
    let start := if p.start ≠ 0 then p.start else follow
    (start, if ps = [] ∧ p.size = 0 then lastUsable + 1 - start else p.size) ::
      layout lastUsable (start + p.size) ps
termination_by structural _ ps => ps

@[simp] theorem length_layout (lastUsable follow : ℕ) (ps : List DiskPartition) :
    (layout lastUsable follow ps).length = ps.length := by
  induction ps generalizing follow with
  | nil => rfl
  | cons p ps ih => simp [layout, ih]

/-- The C string in the array `name`. -/
def DiskPartition.cName (p : DiskPartition) : List UInt8 := (slice p.name 0 32).takeWhile (· ≠ 0)

/-- A printable name of at most 31 characters, and a NUL behind it. -/
def DiskPartition.Named (p : DiskPartition) : Prop :=
  ∃ k ≤ 31, p.name k = 0 ∧ ∀ i < k, p.name i ≠ 0 ∧ isprint (p.name i) = true

/-- Every partition of the list is read back as it was laid out, and no other one. -/
structure ReadsBack (env : Surroundings) (d : BlockDevDesc) (partitions : List DiskPartition) :
    Prop where
  present : ∀ i p, partitions[i]? = some p → ∃ info,
    (getPartitionInfoEfi env d (i + 1)).1 = some info ∧
      (layout (d.lba - 34) 34 partitions)[i]? = some (info.start, info.size) ∧
      info.name = p.cName ∧ info.uuid = p.uuid.map lowerDigit
  absent : ∀ part, partitions.length < part → (getPartitionInfoEfi env d part).1 = none

/-- No partition is laid out at block 2^32 or beyond. -/
def StartsFit (d : BlockDevDesc) (partitions : List DiskPartition) : Prop :=
  ∀ place ∈ layout (d.lba - 34) 34 partitions, place.1 < 2 ^ 32

/-- The second copy leaves the first one as it was: it lies behind it, or exactly on it. -/
def CopiesApart (d : BlockDevDesc) : Prop := d.lba = 35 ∨ 35 + d.pteBlkCnt ≤ d.lba

/-- By how many entries the second array lies behind the first one. -/
def copyShift (d : BlockDevDesc) : ℕ := (d.lba - 35) * (d.blksz / sizeofGptEntry)

/-- The entry that is found in place of entry `i`. -/
def origin (d : BlockDevDesc) (i : ℕ) : ℕ := if i < copyShift d then i else i - copyShift d

/-- The first and the last block of a partition that is laid out at `place`. -/
def ends (place : ℕ × ℕ) : ℕ × ℕ := (place.1, u32 (place.1 + place.2 + 2 ^ 32 - 1))

/-- The bytes of an array in which entry `i` is that of partition `source i` of the list. -/
def listBytes (d : BlockDevDesc) (partitions : List DiskPartition) (source : ℕ → ℕ) :
    List UInt8 :=
  (List.range gptEntryNumbers).flatMap fun i =>
    (((layout (d.lba - 34) 34 partitions).zip partitions)[source i]?).elim [] fun r =>
      r.2.entry (ends r.1)

/-- The second array starts inside the first one, and both are full of entries that repeat
at that distance, with the checksum unchanged. -/
structure Repeats (d : BlockDevDesc) (partitions : List DiskPartition) : Prop where
  full : partitions.length = gptEntryNumbers
  overlap : 36 ≤ d.lba ∧ d.lba < 35 + d.pteBlkCnt
  crc : efiCrc32 (listBytes d partitions (origin d)) = efiCrc32 (listBytes d partitions id)
  alike : ∀ i p q, partitions[i]? = some p → partitions[origin d i]? = some q →
    (layout (d.lba - 34) 34 partitions)[i]? =
      (layout (d.lba - 34) 34 partitions)[origin d i]? ∧
      p.cName = q.cName ∧ p.uuid.map lowerDigit = q.uuid.map lowerDigit

theorem takeWhile_map_range {f : ℕ → UInt8} {k n : ℕ} (hk : k < n) (hend : f k = 0)
    (hne : ∀ i < k, f i ≠ 0) :
    ((List.range n).map f).takeWhile (· ≠ 0) = (List.range k).map f := by
  obtain ⟨m, rfl⟩ : ∃ m, n = k + (m + 1) := ⟨n - k - 1, by omega⟩
  have hall : ∀ c ∈ (List.range k).map f, (decide (c ≠ 0)) = true := by
    simpa using hne
  rw [List.range_add, List.map_append, List.takeWhile_append_of_pos hall, List.range_succ_eq_map]
  simp [hend]

theorem DiskPartition.Named.cName_eq {p : DiskPartition} {k : ℕ} (hk : k ≤ 31)
    (hend : p.name k = 0) (hne : ∀ i < k, p.name i ≠ 0 ∧ isprint (p.name i) = true) :
    p.cName = (List.range k).map p.name := by
  have hslice : slice p.name 0 32 = (List.range 32).map p.name := by
    simp [slice]
  rw [DiskPartition.cName, hslice]
  exact takeWhile_map_range (by omega) hend fun i hi => (hne i hi).1

/-- What is read of an entry that was filled for a partition. -/
structure InfoOf (p : DiskPartition) (place : ℕ × ℕ) (info : PartitionInfo) : Prop where
  start : info.start = u32 place.1
  size : info.size = sizeField place.2 (u32 place.1)
  name : info.name = p.cName
  uuid : info.uuid = p.uuid.map lowerDigit

section Filled
variable {m e name : Mem} {start ending : ℕ} {guid : List UInt8}

theorem isPteValid_filled (h : AgreeTo sizeofGptEntry m (fillEntry e start ending guid name)) :
    isPteValid m = true := by
  have htype : slice m Entry.partitionTypeGuid 16 = slice (ofList basicDataGuid) 0 16 := by
    apply slice_congr
    intro i hi
    rw [show Entry.partitionTypeGuid = 0 from rfl, Nat.zero_add,
      h i (lt_trans hi (by decide)), fillEntry_type e start ending guid name hi]
  rw [isPteValid, htype]
  decide

theorem printEfiname_filled {p : DiskPartition} (hp : p.Named)
    (h : AgreeTo sizeofGptEntry m (fillEntry e start ending guid p.name)) :
    printEfiname m = p.cName := by
  obtain ⟨k, hk, hend, hne⟩ := hp
  have hget : ∀ i < partnameSz, UInt8.ofNat ((Entry.partitionName i).get m % 256) = p.name i := by
    intro i hi
    have hin : (Entry.partitionName i).off + (Entry.partitionName i).len ≤ sizeofGptEntry := by
      simp only [Entry.partitionName, sizeofGptEntry, partnameSz] at hi ⊢
      omega
    rw [h.get hin, fillEntry_name e start ending guid p.name hi,
      Nat.mod_eq_of_lt (p.name i).toNat_lt, UInt8.ofNat_toNat]
  have hk' : k < partnameSz := lt_of_le_of_lt hk (by decide)
  rw [DiskPartition.Named.cName_eq hk hend hne, printEfiname, takeWhile_map_range hk']
  · apply List.map_congr_left
    intro i hi
    have hi := List.mem_range.mp hi
    simp [hget i (lt_trans hi hk'), (hne i hi).2]
  · simp [hget k hk', hend]
  · intro i hi
    simp [hget i (lt_trans hi hk'), hne i hi]

theorem partitionInfo_filled (d : BlockDevDesc) {p : DiskPartition} (hp : p.Named)
    (hguid : stringUuid p.uuid = some guid) (hstart : start < 2 ^ 32) (hending : ending < 2 ^ 32)
    (h : AgreeTo sizeofGptEntry m (fillEntry e start ending guid p.name)) :
    InfoOf p (start, ending) (partitionInfo d m) := by
  have hs : Entry.startingLba.get m = start := by
    rw [h.get (by decide), fillEntry_starting]
    exact Nat.mod_eq_of_lt (lt_trans hstart (by norm_num))
  have he : Entry.endingLba.get m = ending := by
    rw [h.get (by decide), fillEntry_ending]
    exact Nat.mod_eq_of_lt (lt_trans hending (by norm_num))
  have huuid : uuidString (advance m Entry.uniquePartitionGuid) = p.uuid.map lowerDigit := by
    apply uuidString_stringUuid hguid
    intro i hi
    have hin : Entry.uniquePartitionGuid + i < sizeofGptEntry := by
      simp only [Entry.uniquePartitionGuid, sizeofGptEntry]
      omega
    rw [advance_apply, h _ hin]
    exact fillEntry_guid e start ending guid p.name hi
  refine ⟨?_, ?_, printEfiname_filled hp h, huuid⟩
  · exact congrArg u32 hs
  · exact congrArg₂ sizeField he (congrArg u32 hs)

end Filled

theorem place_lt {lastUsable offset : ℕ} (hlast : lastUsable < 2 ^ 32) (hoffset : offset < 2 ^ 32)
    (p : DiskPartition) (isLast : Prop) [Decidable isLast] :
    (place lastUsable offset p isLast).1 < 2 ^ 32 ∧
      (place lastUsable offset p isLast).2 < 2 ^ 32 := by
  unfold place
  dsimp only
  constructor
  · split
    · exact p.start_lt
    · exact hoffset
  · split
    · exact hlast
    · exact u32_lt _

theorem codeLayout_lt {lastUsable offset : ℕ} (hlast : lastUsable < 2 ^ 32)
    (hoffset : offset < 2 ^ 32) {ps : List DiskPartition} {q : ℕ × ℕ}
    (hq : q ∈ codeLayout lastUsable offset ps) : q.1 < 2 ^ 32 ∧ q.2 < 2 ^ 32 := by
  induction ps generalizing offset with
  | nil => simp [codeLayout] at hq
  | cons p ps ih =>
    rw [codeLayout, List.mem_cons] at hq
    cases hq with
    | inl heq =>
      rw [heq]
      exact place_lt hlast hoffset p _
    | inr hmem => exact ih (u32_lt _) hmem

theorem place_start (lastUsable : ℕ) {offset follow : ℕ} (hoffset : offset = u32 follow)
    (p : DiskPartition) (isLast : Prop) [Decidable isLast] :
    (place lastUsable offset p isLast).1 = u32 (if p.start ≠ 0 then p.start else follow) := by
  unfold place
  dsimp only
  split
  · exact (u32_of_lt p.start_lt).symm
  · exact hoffset

theorem sizeField_rest {last start : ℕ} (hle : start ≤ last) (hlast : last + 1 < 2 ^ 32) :
    sizeField last start = last + 1 - start := by
  unfold sizeField u32 u64
  omega

theorem sizeField_end {start size : ℕ} (hstart : start < 2 ^ 32) (hsize : size < 2 ^ 32) :
    sizeField (u32 (u32 (start + size) + 2 ^ 32 - 1)) start = size := by
  unfold sizeField u32 u64
  omega

/-- The start in the entry is the one laid out, as far as it fits 32 bits. -/
theorem codeLayout_start {lastUsable offset follow : ℕ} (hoffset : offset = u32 follow)
    {ps : List DiskPartition} {i : ℕ} {q r : ℕ × ℕ}
    (hq : (codeLayout lastUsable offset ps)[i]? = some q)
    (hr : (layout lastUsable follow ps)[i]? = some r) : q.1 = u32 r.1 := by
  induction ps generalizing offset follow i with
  | nil => simp [layout] at hr
  | cons p ps ih =>
    rw [codeLayout] at hq
    rw [layout] at hr
    have hstart := place_start lastUsable hoffset p (ps = [])
    cases i with
    | zero =>
      simp only [List.getElem?_cons_zero, Option.some.injEq] at hq hr
      rw [← hq, ← hr, hstart]
    | succ i =>
      simp only [List.getElem?_cons_succ] at hq hr
      refine ih ?_ hq hr
      rw [hstart]
      unfold u32
      omega

/-- The size read from the entry is the one laid out, if the start fits 32 bits. -/
theorem codeLayout_size {lastUsable offset follow : ℕ} (hlast : lastUsable + 1 < 2 ^ 32)
    (hoffset : offset = u32 follow) {ps : List DiskPartition} {n : ℕ} {pte pte' : Mem}
    (hfill : fillLoop lastUsable offset n ps pte = some pte') {i : ℕ} {q r : ℕ × ℕ}
    (hq : (codeLayout lastUsable offset ps)[i]? = some q)
    (hr : (layout lastUsable follow ps)[i]? = some r) (hfit : r.1 < 2 ^ 32) :
    sizeField q.2 q.1 = r.2 := by
  induction ps generalizing offset follow i n pte with
  | nil => simp [layout] at hr
  | cons p ps ih =>
    obtain ⟨guid, -, hend, hrest⟩ := fillLoop_cons hfill
    rw [codeLayout] at hq
    rw [layout] at hr
    have hstart := place_start lastUsable hoffset p (ps = [])
    cases i with
    | zero =>
      simp only [List.getElem?_cons_zero, Option.some.injEq] at hq hr
      have hsize := p.size_lt
      rw [← hr] at hfit ⊢
      dsimp only at hfit
      rw [u32_of_lt hfit] at hstart
      rw [hstart] at hend
      rw [← hq, hstart]
      by_cases hrest : ps = [] ∧ p.size = 0
      · -- the last partition takes the rest, of which there is some
        rw [if_pos hrest]
        have hplace : (place lastUsable offset p (ps = [])).2 = lastUsable := by
          simp [place, hrest]
        rw [hrest.2, Nat.add_zero, u32_of_lt hfit] at hend
        rw [hplace]
        exact sizeField_rest (by omega) hlast
      · rw [if_neg hrest]
        have hplace : (place lastUsable offset p (ps = [])).2 =
            u32 (u32 ((if p.start ≠ 0 then p.start else follow) + p.size) + 2 ^ 32 - 1) := by
          rw [← hstart]
          unfold place
          dsimp only
          rw [if_neg hrest]
        rw [hplace]
        exact sizeField_end hfit hsize
    | succ i =>
      simp only [List.getElem?_cons_succ] at hq hr
      refine ih ?_ hrest hq hr
      rw [hstart]
      unfold u32
      omega

variable {env env' : Surroundings} {d d' : BlockDevDesc} {partitions : List DiskPartition}
  {guid : List UInt8} {pte : Mem}

/-- What `get_partition_info_efi` reads of a table that is accepted. -/
theorem Accepts.getPartitionInfoEfi {g : Gpt}
    (hg : Accepts env d gptPrimaryPartitionTableLba g) (i : ℕ) :
    (getPartitionInfoEfi env d (i + 1)).1 =
      if i < g.num ∧ isPteValid (element g.pte i) = true then
        some (partitionInfo d (element g.pte i)) else none := by
  simp only [UBoot.Disk.getPartitionInfoEfi, hg.isGptValid, Nat.add_sub_cancel]
  rw [if_neg (by omega)]
  by_cases hnum : i + 1 > g.num
  · rw [if_pos hnum, if_neg (by omega)]
  · rw [if_neg hnum]
    by_cases hvalid : isPteValid (element g.pte i) = true
    · simp [hvalid]
      omega
    · simp [hvalid]

theorem getPartitionInfoEfi_of_rejected
    (h : (isGptValid env d gptPrimaryPartitionTableLba).1 = none) (part : ℕ) :
    (getPartitionInfoEfi env d part).1 = none := by
  unfold getPartitionInfoEfi
  split
  · rfl
  · split
    · rfl
    · rename_i heq
      simp [heq] at h

theorem accepts_of_info {part : ℕ} {info : PartitionInfo}
    (h : (getPartitionInfoEfi env d part).1 = some info) :
    ∃ g, Accepts env d gptPrimaryPartitionTableLba g := by
  cases hvalid : (isGptValid env d gptPrimaryPartitionTableLba).1 with
  | none => simp [getPartitionInfoEfi_of_rejected hvalid] at h
  | some g => exact ⟨g, accepts_of_isGptValid hvalid⟩

/-- The entry of a partition, wherever its 128 bytes are read from. -/
theorem Restored.entry (h : Restored env d d' partitions guid pte)
    (hnames : ∀ p ∈ partitions, p.Named) {m : Mem} {i : ℕ} {p : DiskPartition}
    (hp : partitions[i]? = some p) (hm : AgreeTo sizeofGptEntry m (element pte i)) :
    isPteValid m = true ∧ ∃ q,
      (codeLayout (u32 (d.lba + 2 ^ 32 - 34)) 34 partitions)[i]? = some q ∧
        InfoOf p q (partitionInfo d' m) := by
  obtain ⟨q, hq, e, guid, hguid, he⟩ := fillLoop_entries h.filled hp
  rw [Nat.zero_add] at he
  have hagree : AgreeTo sizeofGptEntry m _ := fun k hk => (hm k hk).trans (he k hk)
  have hlt := codeLayout_lt (u32_lt (d.lba + 2 ^ 32 - 34)) (by norm_num) (List.mem_of_getElem? hq)
  exact ⟨isPteValid_filled hagree, q, hq,
    partitionInfo_filled d' (hnames p (List.mem_of_getElem? hp)) hguid hlt.1 hlt.2 hagree⟩

theorem Restored.unused (h : Restored env d d' partitions guid pte) {m : Mem} {i : ℕ}
    (hi : partitions.length ≤ i) (hm : AgreeTo sizeofGptEntry m (element pte i)) :
    isPteValid m = false := by
  have hzero : slice m Entry.partitionTypeGuid 16 = slice zeroed 0 16 := by
    apply slice_congr
    intro k hk
    have hk' : k < sizeofGptEntry := lt_trans hk (by decide)
    rw [show Entry.partitionTypeGuid = 0 from rfl, Nat.zero_add, hm k hk',
      fillLoop_outside h.filled (.inr (by omega)) hk']
    rfl
  rw [isPteValid, hzero]
  decide

theorem agreeTo_element {m m' : Mem} (h : AgreeTo (d.pteBlkCnt * d.blksz) m m') {i : ℕ}
    (hi : i < gptEntryNumbers) : AgreeTo sizeofGptEntry (element m i) (element m' i) := by
  intro k hk
  have hle := entries_le_pteBlkCnt d
  apply h
  simp only [gptEntryNumbers, sizeofGptEntry] at *
  omega

/-- A start that is read back is below 2^32, whatever was laid out. -/
theorem ReadsBack.startsFit (h : ReadsBack env d' partitions) (hlba : d'.lba = d.lba) :
    StartsFit d partitions := by
  intro place hplace
  obtain ⟨i, hi⟩ := List.getElem?_of_mem hplace
  have hlen : i < partitions.length := by
    have := (List.getElem?_eq_some_iff.mp hi).1
    rwa [length_layout] at this
  obtain ⟨info, hinfo, hplaced, -⟩ := h.present i _ (List.getElem?_eq_getElem hlen)
  rw [hlba, hi] at hplaced
  obtain ⟨g, hg⟩ := accepts_of_info hinfo
  rw [hg.getPartitionInfoEfi] at hinfo
  split at hinfo
  · rw [Option.some.inj hplaced, ← Option.some.inj hinfo]
    exact u32_lt _
  · simp at hinfo

/-- No entry of the array begins like a header. -/
theorem Restored.signature_ne (h : Restored env d d' partitions guid pte) {m : Mem} {i : ℕ}
    (hm : ∀ k < 8, m k = element pte i k) : Header.signature.get m ≠ gptHeaderSignature := by
  by_cases hi : i < partitions.length
  · obtain ⟨q, -, e, guid, -, he⟩ := fillLoop_entries h.filled (List.getElem?_eq_getElem hi)
    rw [Nat.zero_add] at he
    have htype : Header.signature.get m = Header.signature.get (ofList basicDataGuid) := by
      apply Field.get_congr
      intro k _ hk
      have hk : k < 8 := hk
      rw [hm k hk, he k (lt_trans hk (by decide)),
        fillEntry_type _ _ _ _ _ (lt_trans hk (by norm_num))]
    rw [htype]
    decide
  · have hzero : Header.signature.get m = Header.signature.get zeroed := by
      apply Field.get_congr
      intro k _ hk
      have hk : k < 8 := hk
      rw [hm k hk, fillLoop_outside h.filled (.inr (by omega)) (lt_trans hk (by decide))]
      rfl
    rw [hzero]
    decide

theorem Accepts.head_apply {lba : ℕ} {g : Gpt} (hg : Accepts env d lba g) {i : ℕ}
    (hi : i < d.blksz) : g.head i = d.bytes (u32 lba * d.blksz + i) := by
  obtain ⟨-, heq⟩ := BlockDevDesc.blockReadGpt_eq_some.mp hg.head
  rw [heq, overlay_of_mem _ _ (Nat.zero_le i) (by omega), Nat.sub_zero, advance_apply]

/-- Below 35 blocks, the header is overwritten by the second array or names a last block
that is outside. -/
theorem Restored.rejected_of_lt (h : Restored env d d' partitions guid pte)
    (hsmall : d.lba < 35) (hblksz : sizeofGptEntry ∣ d.blksz) {g : Gpt} :
    ¬ Accepts env' d' gptPrimaryPartitionTableLba g := by
  intro hg
  have hblksz' : d'.blksz = d.blksz := by rw [h.device, written_blksz]
  have hlba' : d'.lba = d.lba := by rw [h.device, written_lba]
  have hge := h.lba_ge
  have h512 := d.blksz_ge
  have hone : u32 gptPrimaryPartitionTableLba * d.blksz = d.blksz := by
    rw [show u32 gptPrimaryPartitionTableLba = 1 from u32_of_lt (by decide), Nat.one_mul]
  have hhead : ∀ i < d.blksz, g.head i = d'.bytes (d.blksz + i) := by
    intro i hi
    rw [hg.head_apply (by rwa [hblksz']), hblksz', hone]
  have hpos : 0 < d.pteBlkCnt := Nat.succ_pos _
  obtain ⟨n, hn⟩ := hblksz
  by_cases hcnt : d.lba - 33 + d.pteBlkCnt ≤ 1
  · -- the header is intact, and its last usable block is 2^32 - 1
    have hagree : AgreeTo sizeofGptHeader g.head (primaryHeader (filledHeader d guid) pte) := by
      intro i hi
      have hi : i < d.blksz := lt_of_lt_of_le hi (le_trans (by decide) h512)
      rw [hhead i hi, h.writtenBytes_header (.inr hcnt) hi]
    have hfields := (primaryHeader_fields d guid pte).congr hagree
    have hplaced := hg.placed
    simp only [headerPlaced, hfields.lastUsable, hlba', Bool.decide_and, Bool.and_eq_true,
      decide_eq_true_eq] at hplaced
    have := hplaced.2.2
    unfold u32 at this
    omega
  · -- block 1 holds a block of the array
    have hblock : ∃ k, k < d.pteBlkCnt ∧ d.lba - 33 + k = 1 := ⟨34 - d.lba, by omega, by omega⟩
    obtain ⟨k, hk, hk1⟩ := hblock
    have hlt : (k + 1) * d.blksz ≤ d.pteBlkCnt * d.blksz := Nat.mul_le_mul_right _ hk
    rw [Nat.add_mul, Nat.one_mul] at hlt
    apply h.signature_ne (i := n * k) _ hg.signature
    intro i hi
    have hpos : (d.lba - 33) * d.blksz + (k * d.blksz + i) = d.blksz + i := by
      rw [← Nat.add_assoc, ← Nat.add_mul, hk1, Nat.one_mul]
    rw [hhead i (by omega), ← hpos, h.writtenBytes_secondEntries (by omega), element, advance_apply,
      hn]
    congr 1
    ring

/-- From 35 blocks on the header is intact, and the array is read from behind it. -/
theorem Restored.array_of_ge (h : Restored env d d' partitions guid pte) (hlba : 35 ≤ d.lba)
    {g : Gpt} (hg : Accepts env' d' gptPrimaryPartitionTableLba g) :
    HeaderFields d g.head ∧ Header.partitionEntryArrayCrc32.get g.head =
      (efiCrc32 (slice pte 0 (gptEntryNumbers * sizeofGptEntry))).toNat ∧
      AgreeTo (d.pteBlkCnt * d.blksz) g.pte (leftOf d pte) := by
  have hblksz' : d'.blksz = d.blksz := by rw [h.device, written_blksz]
  have h512 := d.blksz_ge
  have hagree : AgreeTo sizeofGptHeader g.head (primaryHeader (filledHeader d guid) pte) := by
    intro i hi
    have hi : i < d.blksz := lt_of_lt_of_le hi (le_trans (by decide) h512)
    have hone : u32 gptPrimaryPartitionTableLba = 1 := u32_of_lt (by decide)
    rw [hg.head_apply (by rwa [hblksz']), hblksz', hone, Nat.one_mul,
      h.writtenBytes_header (.inl hlba) hi]
  have hfields := (primaryHeader_fields d guid pte).congr hagree
  refine ⟨hfields, ?_, fun i hi => ?_⟩
  · rw [hagree.get (by decide), primaryHeader_arrayCrc]
  have htwo : u32 2 = 2 := u32_of_lt (by norm_num)
  have hcnt : d'.blockCnt (gptEntryNumbers * sizeofGptEntry) = d.pteBlkCnt := by
    unfold BlockDevDesc.pteBlkCnt BlockDevDesc.blockCnt
    rw [hblksz']
  rw [hg.pte_apply (by rw [hfields.entriesSize, hcnt, hblksz']; exact hi), hfields.entryLba,
    hblksz', htwo, h.writtenBytes_entries hlba hi]

theorem agreeTo_origin (hblksz : sizeofGptEntry ∣ d.blksz) (pte : Mem) (i : ℕ) :
    AgreeTo sizeofGptEntry (element (leftOf d pte) i) (element pte (origin d i)) := by
  intro k hk
  obtain ⟨n, hn⟩ := hblksz
  have hn' : d.blksz = 128 * n := hn
  have hshift : (d.lba - 35) * d.blksz = 128 * copyShift d := by
    rw [copyShift, hn, Nat.mul_div_cancel_left n (by decide), show sizeofGptEntry = 128 from rfl]
    ring
  have hk' : k < 128 := hk
  have hsize : sizeofGptEntry = 128 := rfl
  simp only [element, advance_apply, leftOf, origin, hshift, hsize]
  by_cases hi : i < copyShift d
  · rw [if_pos (by omega), if_pos hi]
  · rw [if_neg (by omega), if_neg hi]
    congr 1
    omega

theorem origin_of_apart (h : CopiesApart d) (hblksz : sizeofGptEntry ∣ d.blksz) {i : ℕ}
    (hi : i < gptEntryNumbers) : origin d i = i := by
  obtain ⟨n, hn⟩ := hblksz
  rcases h with heq | hlba
  · simp [origin, copyShift, heq]
  · have hle := entries_le_pteBlkCnt d
    have hle' : d.pteBlkCnt * d.blksz ≤ (d.lba - 35) * d.blksz :=
      Nat.mul_le_mul_right _ (by omega)
    have hshift : (d.lba - 35) * d.blksz = copyShift d * sizeofGptEntry := by
      rw [copyShift, hn, Nat.mul_div_cancel_left n (by decide)]
      ring
    have hall : gptEntryNumbers ≤ copyShift d := by
      apply Nat.le_of_mul_le_mul_right _ (show 0 < sizeofGptEntry by decide)
      rw [← hshift]
      exact hle.trans hle'
    exact if_pos (lt_of_lt_of_le hi hall)

theorem leftOf_of_apart (h : CopiesApart d) (pte : Mem) {i : ℕ} (hi : i < d.pteBlkCnt * d.blksz) :
    leftOf d pte i = pte i := by
  unfold leftOf
  rcases h with heq | hlba
  · simp [heq]
  · have : d.pteBlkCnt * d.blksz ≤ (d.lba - 35) * d.blksz := Nat.mul_le_mul_right _ (by omega)
    rw [if_pos (by omega)]

/-- The place in an entry is the one laid out. -/
theorem Restored.placed (h : Restored env d d' partitions guid pte) (hlba : 35 ≤ d.lba)
    (hfit : StartsFit d partitions) {i : ℕ} {q r : ℕ × ℕ}
    (hq : (codeLayout (u32 (d.lba + 2 ^ 32 - 34)) 34 partitions)[i]? = some q)
    (hr : (layout (d.lba - 34) 34 partitions)[i]? = some r) :
    q.1 = r.1 ∧ sizeField q.2 q.1 = r.2 := by
  have hlt := d.lba_lt
  have hlast : u32 (d.lba + 2 ^ 32 - 34) = d.lba - 34 := by
    unfold u32
    omega
  have hr32 := hfit r (List.mem_of_getElem? hr)
  have hfill := h.filled
  rw [hlast] at hq hfill
  have hfirst : (34 : ℕ) = u32 34 := (u32_of_lt (by norm_num)).symm
  have hstart := codeLayout_start hfirst hq hr
  rw [u32_of_lt hr32] at hstart
  exact ⟨hstart, codeLayout_size (by omega) hfirst hfill hq hr hr32⟩

/-- The bytes of an entry are those of its partition. -/
theorem Restored.slice_element (h : Restored env d d' partitions guid pte) (hlba : 35 ≤ d.lba)
    (hfit : StartsFit d partitions) {i : ℕ} (hi : i < partitions.length) :
    slice (element pte i) 0 sizeofGptEntry =
      (((layout (d.lba - 34) 34 partitions).zip partitions)[i]?).elim [] fun r =>
        r.2.entry (ends r.1) := by
  have hp := List.getElem?_eq_getElem hi
  obtain ⟨r, hr⟩ : ∃ r, (layout (d.lba - 34) 34 partitions)[i]? = some r :=
    ⟨_, List.getElem?_eq_getElem (by rwa [length_layout])⟩
  obtain ⟨q, hq, e, guid, hguid, he⟩ := fillLoop_entries h.filled hp
  rw [Nat.zero_add] at he
  have hlt := codeLayout_lt (u32_lt (d.lba + 2 ^ 32 - 34)) (by norm_num) (List.mem_of_getElem? hq)
  obtain ⟨hstart, hsize⟩ := h.placed hlba hfit hq hr
  have hends : q = ends r := by
    have hlast : q.2 = u32 (q.1 + sizeField q.2 q.1 + 2 ^ 32 - 1) := by
      unfold sizeField u32 u64
      omega
    rw [hsize, hstart] at hlast
    rw [ends, ← hlast, ← hstart]
  have hfilled : slice (element pte i) 0 sizeofGptEntry =
      slice (fillEntry e q.1 q.2 guid partitions[i].name) 0 sizeofGptEntry := by
    apply slice_congr
    intro k hk
    rw [Nat.zero_add, he k hk]
  have hzip : ((layout (d.lba - 34) 34 partitions).zip partitions)[i]? = some (r, partitions[i]) :=
    List.getElem?_zip_eq_some.mpr ⟨hr, hp⟩
  rw [hfilled, slice_fillEntry e hguid hlt.1 hlt.2, hends, hzip]
  rfl

/-- A full list gives the bytes of every array that its entries are put together to. -/
theorem Restored.slice_list (h : Restored env d d' partitions guid pte) (hlba : 35 ≤ d.lba)
    (hfit : StartsFit d partitions) (hfull : partitions.length = gptEntryNumbers) {m : Mem}
    {source : ℕ → ℕ} (hsource : ∀ i, source i ≤ i)
    (hm : ∀ i, AgreeTo sizeofGptEntry (element m i) (element pte (source i))) :
    slice m 0 (gptEntryNumbers * sizeofGptEntry) = listBytes d partitions source := by
  rw [slice_mul, listBytes]
  apply List.flatMap_congr
  intro i hi
  have hlt : source i < partitions.length := by
    rw [hfull]
    exact (hsource i).trans_lt (List.mem_range.mp hi)
  rw [← h.slice_element hlba hfit hlt, ← slice_advance]
  apply slice_congr
  intro k hk
  rw [Nat.zero_add]
  exact hm i k hk

theorem origin_le (d : BlockDevDesc) (i : ℕ) : origin d i ≤ i := by
  unfold origin
  split <;> omega

/-- Both checksums of an array that the second one starts inside of, on the list. -/
theorem Restored.crcs_list (h : Restored env d d' partitions guid pte) (hlba : 35 ≤ d.lba)
    (hfit : StartsFit d partitions) (hfull : partitions.length = gptEntryNumbers)
    (hblksz : sizeofGptEntry ∣ d.blksz) :
    slice (leftOf d pte) 0 (gptEntryNumbers * sizeofGptEntry) =
        listBytes d partitions (origin d) ∧
      slice pte 0 (gptEntryNumbers * sizeofGptEntry) = listBytes d partitions id :=
  ⟨h.slice_list hlba hfit hfull (origin_le d) (agreeTo_origin hblksz pte),
    h.slice_list hlba hfit hfull (fun _ => le_rfl) fun _ _ _ => rfl⟩

/-- What is read of the entry found in place of entry `i`. -/
theorem Restored.info_origin (h : Restored env d d' partitions guid pte)
    (hnames : ∀ p ∈ partitions, p.Named) (hlba : 35 ≤ d.lba) (hfit : StartsFit d partitions)
    {m : Mem} {i : ℕ} {q : DiskPartition} (hq : partitions[i]? = some q)
    (hm : AgreeTo sizeofGptEntry m (element pte i)) :
    isPteValid m = true ∧ (layout (d.lba - 34) 34 partitions)[i]? =
      some ((partitionInfo d' m).start, (partitionInfo d' m).size) ∧
      (partitionInfo d' m).name = q.cName ∧
      (partitionInfo d' m).uuid = q.uuid.map lowerDigit := by
  obtain ⟨hi, -⟩ := List.getElem?_eq_some_iff.mp hq
  obtain ⟨hvalid, place, hplace, hinfo⟩ := h.entry hnames hq hm
  obtain ⟨r, hr⟩ : ∃ r, (layout (d.lba - 34) 34 partitions)[i]? = some r :=
    ⟨_, List.getElem?_eq_getElem (by rwa [length_layout])⟩
  have hr32 := hfit r (List.mem_of_getElem? hr)
  obtain ⟨hstart, hsize⟩ := h.placed hlba hfit hplace hr
  rw [hstart] at hsize
  refine ⟨hvalid, ?_, hinfo.name, hinfo.uuid⟩
  rw [hr, hinfo.start, hinfo.size, hstart, u32_of_lt hr32, hsize]

/-- Each entry that is found is the one at its origin. -/
theorem agreeTo_element_origin (hblksz : sizeofGptEntry ∣ d.blksz) {m : Mem}
    (hm : AgreeTo (d.pteBlkCnt * d.blksz) m (leftOf d pte)) {i : ℕ} (hi : i < gptEntryNumbers) :
    AgreeTo sizeofGptEntry (element m i) (element pte (origin d i)) := by
  intro k hk
  rw [agreeTo_element hm hi k hk, agreeTo_origin hblksz pte i k hk]

/-- The array that is found gives back the list, if each entry is found in its place or an
equal one is. -/
theorem Restored.readsBack (h : Restored env d d' partitions guid pte)
    (hlen : partitions.length ≤ gptEntryNumbers) (hnames : ∀ p ∈ partitions, p.Named)
    (hblksz : sizeofGptEntry ∣ d.blksz) (hok : Healthy env' d') (hlba : 35 ≤ d.lba)
    (hfit : StartsFit d partitions)
    (hcrc : efiCrc32 (slice (leftOf d pte) 0 (gptEntryNumbers * sizeofGptEntry)) =
      efiCrc32 (slice pte 0 (gptEntryNumbers * sizeofGptEntry)))
    (halike : ∀ i p, partitions[i]? = some p → ∃ q, partitions[origin d i]? = some q ∧
      (layout (d.lba - 34) 34 partitions)[i]? =
        (layout (d.lba - 34) 34 partitions)[origin d i]? ∧
      p.cName = q.cName ∧ p.uuid.map lowerDigit = q.uuid.map lowerDigit)
    (hunused : ∀ i < gptEntryNumbers, partitions.length ≤ i → partitions.length ≤ origin d i) :
    ReadsBack env' d' partitions := by
  have hlba' : d'.lba = d.lba := by rw [h.device, written_lba]
  have hblksz' : d'.blksz = d.blksz := by rw [h.device, written_blksz]
  have hcnt : d'.pteBlkCnt = d.pteBlkCnt := by rw [h.device, written_pteBlkCnt]
  obtain ⟨g, hg, -, hpte, hnum⟩ := (h.primaryTable hlba hcrc).accepts (by omega) hok (by omega)
    (by rw [hcnt, hlba']; exact h.primary_inside)
  rw [hcnt, hblksz'] at hpte
  have helement : ∀ i < gptEntryNumbers,
      AgreeTo sizeofGptEntry (element g.pte i) (element pte (origin d i)) :=
    fun i => agreeTo_element_origin hblksz hpte
  constructor
  · intro i p hp
    obtain ⟨hi, -⟩ := List.getElem?_eq_some_iff.mp hp
    obtain ⟨q, hq, hplace, hname, huuid⟩ := halike i p hp
    obtain ⟨hvalid, hr, hname', huuid'⟩ :=
      h.info_origin hnames hlba hfit hq (helement i (by omega))
    refine ⟨partitionInfo d' (element g.pte i), ?_, ?_, ?_, ?_⟩
    · rw [hg.getPartitionInfoEfi, if_pos ⟨by omega, hvalid⟩]
    · rw [hlba', hplace, hr]
    · rw [hname', hname]
    · rw [huuid', huuid]
  · intro part hpart
    obtain ⟨i, rfl⟩ : ∃ i, part = i + 1 := ⟨part - 1, by omega⟩
    rw [hg.getPartitionInfoEfi, if_neg]
    rintro ⟨hi, hvalid⟩
    rw [hnum] at hi
    rw [h.unused (hunused i hi (by omega)) (helement i hi)] at hvalid
    exact Bool.noConfusion hvalid

theorem Restored.readsBack_of_apart (h : Restored env d d' partitions guid pte)
    (hlen : partitions.length ≤ gptEntryNumbers) (hnames : ∀ p ∈ partitions, p.Named)
    (hblksz : sizeofGptEntry ∣ d.blksz) (hok : Healthy env' d') (hapart : CopiesApart d)
    (hfit : StartsFit d partitions) : ReadsBack env' d' partitions := by
  have hlba : 35 ≤ d.lba := by
    rcases hapart with hapart | hapart <;> omega
  have hslice : slice (leftOf d pte) 0 (gptEntryNumbers * sizeofGptEntry) =
      slice pte 0 (gptEntryNumbers * sizeofGptEntry) := by
    apply slice_congr
    intro i hi
    rw [Nat.zero_add]
    exact leftOf_of_apart hapart pte (lt_of_lt_of_le hi (entries_le_pteBlkCnt d))
  apply h.readsBack hlen hnames hblksz hok hlba hfit (congrArg efiCrc32 hslice)
  · intro i p hp
    obtain ⟨hi, -⟩ := List.getElem?_eq_some_iff.mp hp
    rw [origin_of_apart hapart hblksz (by omega)]
    exact ⟨p, hp, rfl, rfl, rfl⟩
  · intro i hi hle
    rwa [origin_of_apart hapart hblksz hi]

theorem Restored.readsBack_of_repeats (h : Restored env d d' partitions guid pte)
    (hnames : ∀ p ∈ partitions, p.Named) (hblksz : sizeofGptEntry ∣ d.blksz)
    (hok : Healthy env' d') (hrepeats : Repeats d partitions) (hfit : StartsFit d partitions) :
    ReadsBack env' d' partitions := by
  have hlba := hrepeats.overlap.1
  obtain ⟨hleft, hwhole⟩ := h.crcs_list (by omega) hfit hrepeats.full hblksz
  have hcrc := hrepeats.crc
  rw [← hleft, ← hwhole] at hcrc
  apply h.readsBack hrepeats.full.le hnames hblksz hok (by omega) hfit hcrc
  · intro i p hp
    obtain ⟨hi, -⟩ := List.getElem?_eq_some_iff.mp hp
    have horigin : origin d i < partitions.length := by
      unfold origin
      split <;> omega
    have hq := List.getElem?_eq_getElem horigin
    exact ⟨_, hq, hrepeats.alike i p _ hp hq⟩
  · intro i hi hle
    have := hrepeats.full
    omega

/-- An empty list is read back from any disk: no part number is found. -/
theorem Restored.readsBack_nil (h : Restored env d d' [] guid pte)
    (hblksz : sizeofGptEntry ∣ d.blksz) : ReadsBack env' d' [] := by
  refine ⟨by simp, fun part hpart => ?_⟩
  obtain ⟨i, rfl⟩ : ∃ i, part = i + 1 := ⟨part - 1, by simp at hpart; omega⟩
  cases hvalid : (isGptValid env' d' gptPrimaryPartitionTableLba).1 with
  | none => exact getPartitionInfoEfi_of_rejected hvalid _
  | some g =>
    have hg := accepts_of_isGptValid hvalid
    have hlba : 35 ≤ d.lba := by
      by_contra hsmall
      exact h.rejected_of_lt (by omega) hblksz hg
    obtain ⟨hfields, -, harray⟩ := h.array_of_ge hlba hg
    rw [hg.getPartitionInfoEfi, if_neg]
    rintro ⟨hi, hentry⟩
    have hi : i < gptEntryNumbers := by rwa [Gpt.num, hfields.num] at hi
    rw [h.unused (Nat.zero_le _) (agreeTo_element_origin hblksz harray hi)] at hentry
    exact Bool.noConfusion hentry

/-- Where the second array starts inside the first one and the list is not full, some entry
behind the last partition is a copy of an entry of the list. -/
theorem exists_copy (hblksz : sizeofGptEntry ∣ d.blksz) (hlo : 36 ≤ d.lba)
    (hhi : d.lba < 35 + d.pteBlkCnt) {len : ℕ} (hpos : 0 < len) (hlen : len < gptEntryNumbers) :
    ∃ j < gptEntryNumbers, len ≤ j ∧ origin d j < len := by
  obtain ⟨n, hn⟩ := hblksz
  have hn' : d.blksz = 128 * n := hn
  have hshift : (d.lba - 35) * d.blksz = 128 * copyShift d := by
    rw [copyShift, hn, Nat.mul_div_cancel_left n (by decide), show sizeofGptEntry = 128 from rfl]
    ring
  have hcount : (d.lba - 35 + 1) * d.blksz ≤ d.pteBlkCnt * d.blksz :=
    Nat.mul_le_mul_right _ (by omega)
  have hceil : d.pteBlkCnt * d.blksz < 128 * 128 + d.blksz :=
    padCount_mul_lt (s := 128 * 128) (by decide)
  have hstep : 0 < copyShift d := by
    have h512 := d.blksz_ge
    have : 0 < (d.lba - 35) * d.blksz := Nat.mul_pos (by omega) (by omega)
    omega
  rw [Nat.add_mul, Nat.one_mul] at hcount
  have hlen' : len < 128 := hlen
  have hnum : gptEntryNumbers = 128 := rfl
  rcases Nat.le_total (copyShift d) len with hle | hle
  · refine ⟨len, hlen, le_refl _, ?_⟩
    rw [origin, if_neg (by omega)]
    omega
  · refine ⟨copyShift d, by omega, hle, ?_⟩
    rw [origin, if_neg (lt_irrefl _), Nat.sub_self]
    exact hpos

/-- A list that is not empty is read back only where the copies are apart or repeat. -/
theorem Restored.apart_or_repeats (h : Restored env d d' partitions guid pte)
    (hlen : partitions.length ≤ gptEntryNumbers) (hnames : ∀ p ∈ partitions, p.Named)
    (hblksz : sizeofGptEntry ∣ d.blksz) (hne : partitions ≠ [])
    (hread : ReadsBack env' d' partitions) : CopiesApart d ∨ Repeats d partitions := by
  have hpos := List.length_pos_iff.mpr hne
  have hlba' : d'.lba = d.lba := by rw [h.device, written_lba]
  have hfit := hread.startsFit hlba'
  obtain ⟨info, hinfo, -⟩ := hread.present 0 _ (List.getElem?_eq_getElem hpos)
  obtain ⟨g, hg⟩ := accepts_of_info hinfo
  have hlba : 35 ≤ d.lba := by
    by_contra hsmall
    exact h.rejected_of_lt (by omega) hblksz hg
  obtain ⟨hfields, hcrc, harray⟩ := h.array_of_ge hlba hg
  have hnum : g.num = gptEntryNumbers := hfields.num
  have helement : ∀ i < gptEntryNumbers,
      AgreeTo sizeofGptEntry (element g.pte i) (element pte (origin d i)) :=
    fun i => agreeTo_element_origin hblksz harray
  by_cases hapart : CopiesApart d
  · exact .inl hapart
  simp only [CopiesApart, not_or, not_le] at hapart
  have hover : 36 ≤ d.lba ∧ d.lba < 35 + d.pteBlkCnt := ⟨by omega, hapart.2⟩
  have hfull : partitions.length = gptEntryNumbers := by
    by_contra hfull
    obtain ⟨j, hj, hle, horigin⟩ := exists_copy hblksz hover.1 hover.2 hpos (by omega)
    obtain ⟨hvalid, -⟩ := h.entry hnames (List.getElem?_eq_getElem horigin) (helement j hj)
    have hnone := hread.absent (j + 1) (by omega)
    rw [hg.getPartitionInfoEfi, if_pos ⟨by rwa [hnum], hvalid⟩] at hnone
    simp at hnone
  refine .inr ⟨hfull, hover, ?_, ?_⟩
  · have hentries := hg.entriesCrc
    rw [hfields.entriesSize, hcrc] at hentries
    have hslice : slice g.pte 0 (gptEntryNumbers * sizeofGptEntry) =
        slice (leftOf d pte) 0 (gptEntryNumbers * sizeofGptEntry) := by
      apply slice_congr
      intro i hi
      rw [Nat.zero_add]
      exact harray i (lt_of_lt_of_le hi (entries_le_pteBlkCnt d))
    obtain ⟨hleft, hwhole⟩ := h.crcs_list hlba hfit hfull hblksz
    rw [← hleft, ← hwhole, ← hslice]
    exact UInt32.toNat_inj.mp hentries
  · intro i p q hp hq
    obtain ⟨hi, -⟩ := List.getElem?_eq_some_iff.mp hp
    obtain ⟨info, hinfo, hplace, hname, huuid⟩ := hread.present i p hp
    obtain ⟨hvalid, hr, hname', huuid'⟩ :=
      h.info_origin hnames hlba hfit hq (helement i (by omega))
    rw [hg.getPartitionInfoEfi, if_pos ⟨by omega, hvalid⟩] at hinfo
    obtain rfl := Option.some.inj hinfo
    rw [hlba'] at hplace
    exact ⟨by rw [hplace, hr], by rw [← hname, hname'], by rw [← huuid, huuid']⟩

/-- A list that was written is read back if and only if no partition is laid out at block
2^32 or beyond and the second copy leaves of the first one what is read. -/
theorem gptRestore_readsBack_iff {strDiskGuid : List UInt8}
    (hrestore : gptRestore env d strDiskGuid partitions = some d')
    (hlen : partitions.length ≤ gptEntryNumbers) (hnames : ∀ p ∈ partitions, p.Named)
    (hblksz : sizeofGptEntry ∣ d.blksz) (hok : Healthy env' d') :
    ReadsBack env' d' partitions ↔ StartsFit d partitions ∧
      (partitions = [] ∨ CopiesApart d ∨ Repeats d partitions) := by
  obtain ⟨guid, pte, h⟩ := restored_of_gptRestore hrestore
  constructor
  · intro hread
    refine ⟨hread.startsFit (by rw [h.device, written_lba]), ?_⟩
    by_cases hne : partitions = []
    · exact .inl hne
    · exact .inr (h.apart_or_repeats hlen hnames hblksz hne hread)
  · rintro ⟨hfit, rfl | hapart | hrepeats⟩
    · exact h.readsBack_nil hblksz
    · exact h.readsBack_of_apart hlen hnames hblksz hok hapart hfit
    · exact h.readsBack_of_repeats hnames hblksz hok hrepeats hfit

/-- A disk of 2 MiB on which every request inside succeeds. -/
def smallDisk : BlockDevDesc where
  blksz := 512
  lba := 4096
  bytes := zeroed
  reads := fun start cnt => start + cnt ≤ 4096
  writes := fun start cnt => start + cnt ≤ 4096
  blksz_ge := by norm_num
  blksz_lt := sector_lt_word
  lba_lt := by norm_num
  writes_inside := by simp

/-- The UUID of zeros, as a string. -/
def nullUuid : List UInt8 := (List.range 36).map fun i => if isDash i then 45 else 48

/-- A partition `a`. -/
def partitionA (start size : ℕ) : DiskPartition :=
  ⟨u32 start, u32 size, ofList [97], nullUuid, u32_lt start, u32_lt size⟩

theorem partitionA_named (start size : ℕ) : (partitionA start size).Named := by
  refine ⟨1, by norm_num, rfl, fun i hi => ?_⟩
  obtain rfl : i = 0 := by omega
  have hletter : (97 : UInt8) ≠ 0 ∧ isprint 97 = true := by decide
  exact hletter

/-- 256 blocks, and the rest. -/
def twoPartitions : List DiskPartition :=
  [partitionA 0 256, partitionA 0 0]

/-- A partition that ends at 2^32, and one that follows it. -/
def pastTheEnd : List DiskPartition :=
  [partitionA 4096 0xFFFFF000, partitionA 0 256]

theorem healthy_smallDisk {d' : BlockDevDesc} (hlba : d'.lba = 4096)
    (hreads : d'.reads = smallDisk.reads) : Healthy calm d' := by
  refine ⟨fun start cnt h => ?_, fun _ => rfl⟩
  rw [hreads]
  rw [hlba] at h
  exact decide_eq_true h

/-- The copies on the disk are apart, so both partitions are read back. -/
theorem gptRestore_readsBack_iff_twoPartitions :
    ∃ d', gptRestore calm smallDisk nullUuid twoPartitions = some d' ∧
      ReadsBack calm d' twoPartitions := by
  obtain ⟨d', hd⟩ := Option.isSome_iff_exists.mp
    (show (gptRestore calm smallDisk nullUuid twoPartitions).isSome = true by decide +kernel)
  obtain ⟨guid, pte, h⟩ := restored_of_gptRestore hd
  have hnames : ∀ p ∈ twoPartitions, p.Named := by simp [twoPartitions, partitionA_named]
  have hok : Healthy calm d' := healthy_smallDisk (by rw [h.device]; rfl) (by rw [h.device]; rfl)
  refine ⟨d', hd, (gptRestore_readsBack_iff hd (by decide) hnames (by decide) hok).mpr
    ⟨?_, .inr (.inl (.inr (by decide)))⟩⟩
  unfold StartsFit
  decide

/-- A run that returns 0 and whose second partition is not read back where it was laid out. -/
theorem partition_past_the_end_is_moved :
    ∃ d', gptRestore calm smallDisk nullUuid pastTheEnd = some d' ∧ Healthy calm d' ∧
      pastTheEnd.length ≤ gptEntryNumbers ∧ (∀ p ∈ pastTheEnd, p.Named) ∧
      ¬ ReadsBack calm d' pastTheEnd := by
  obtain ⟨d', hd⟩ := Option.isSome_iff_exists.mp
    (show (gptRestore calm smallDisk nullUuid pastTheEnd).isSome = true by decide +kernel)
  obtain ⟨guid, pte, h⟩ := restored_of_gptRestore hd
  have hlba : d'.lba = smallDisk.lba := by rw [h.device, written_lba]
  have hreads : d'.reads = smallDisk.reads := by rw [h.device, written_reads]
  refine ⟨d', hd, healthy_smallDisk hlba hreads, by decide, by simp [pastTheEnd, partitionA_named],
    fun hread => ?_⟩
  have hfit := hread.startsFit hlba
  have := hfit (2 ^ 32, 256) (by decide)
  exact absurd this (by norm_num)

end UBoot.Disk
