import UBoot.Disk.Restore
import UBoot.Disk.Validity

/-!
# What the written structures hold

The fields of a filled header and of a filled entry, and the entries that the loop of
`gpt_fill_pte` leaves in the array: one for each partition, at the start and the end it
computed, and nothing outside.
-/
namespace UBoot.Disk
open ByteStore

/-- The fields that validation and the second copy depend on. -/
structure HeaderFields (d : BlockDevDesc) (head : Mem) : Prop where
  signature : Header.signature.get head = gptHeaderSignature
  headerSize : Header.headerSize.get head = sizeofGptHeader
  firstUsable : Header.firstUsableLba.get head = 34
  lastUsable : Header.lastUsableLba.get head = u32 (d.lba + 2 ^ 32 - 34)
  entryLba : Header.partitionEntryLba.get head = 2
  num : Header.numPartitionEntries.get head = gptEntryNumbers
  size : Header.sizeofPartitionEntry.get head = sizeofGptEntry

theorem u32_mod_pow (n : ℕ) : u32 n % 256 ^ 8 = u32 n :=
  Nat.mod_eq_of_lt (lt_trans (u32_lt n) (by norm_num))

theorem filledHeader_fields (d : BlockDevDesc) (guid : List UInt8) :
    HeaderFields d (filledHeader d guid) := by
  constructor
  all_goals
    simp (disch := decide) only [filledHeader, Field.get_put, Field.get_put_of_apart,
      Field.get_overlay]
  case lastUsable => exact u32_mod_pow _
  all_goals norm_num [Header.signature, Header.headerSize, Header.firstUsableLba,
    Header.partitionEntryLba, Header.numPartitionEntries, Header.sizeofPartitionEntry,
    gptHeaderSignature, gptEntryNumbers, sizeofGptEntry, sizeofGptHeader]

theorem filledHeader_lbas (d : BlockDevDesc) (guid : List UInt8) :
    Header.myLba.get (filledHeader d guid) = 1 ∧
      Header.alternateLba.get (filledHeader d guid) = u32 (d.lba + 2 ^ 32 - 1) := by
  constructor
  all_goals
    simp (disch := decide) only [filledHeader, Field.get_put, Field.get_put_of_apart,
      Field.get_overlay]
  · norm_num [Header.myLba]
  · exact u32_mod_pow _

/-- Setting a checksum changes none of the other fields. -/
theorem HeaderFields.putCrc {d : BlockDevDesc} {head : Mem} (h : HeaderFields d head) (v : ℕ) :
    HeaderFields d (Header.headerCrc32.put head v) := by
  constructor
  all_goals simp (disch := decide) only [Field.get_put_of_apart]
  exacts [h.signature, h.headerSize, h.firstUsable, h.lastUsable, h.entryLba, h.num, h.size]

theorem HeaderFields.putArrayCrc {d : BlockDevDesc} {head : Mem} (h : HeaderFields d head)
    (v : ℕ) : HeaderFields d (Header.partitionEntryArrayCrc32.put head v) := by
  constructor
  all_goals simp (disch := decide) only [Field.get_put_of_apart]
  exacts [h.signature, h.headerSize, h.firstUsable, h.lastUsable, h.entryLba, h.num, h.size]

theorem HeaderFields.putLbas {d : BlockDevDesc} {head : Mem} (h : HeaderFields d head)
    (v w : ℕ) : HeaderFields d (Header.alternateLba.put (Header.myLba.put head v) w) := by
  constructor
  all_goals simp (disch := decide) only [Field.get_put_of_apart]
  exacts [h.signature, h.headerSize, h.firstUsable, h.lastUsable, h.entryLba, h.num, h.size]

theorem HeaderFields.entriesSize {d : BlockDevDesc} {head : Mem} (h : HeaderFields d head) :
    entriesSize head = gptEntryNumbers * sizeofGptEntry := by
  rw [UBoot.Disk.entriesSize, h.num, h.size]
  rfl

theorem primaryHeader_fields (d : BlockDevDesc) (guid : List UInt8) (pte : Mem) :
    HeaderFields d (primaryHeader (filledHeader d guid) pte) :=
  ((filledHeader_fields d guid).putArrayCrc _).putCrc _

theorem backupHeader_fields {d : BlockDevDesc} {head : Mem} (h : HeaderFields d head) :
    HeaderFields d (backupHeader head) :=
  ((h.putLbas _ _).putCrc _).putCrc _

theorem Field.put_put (f : Field) (m : Mem) (v w : ℕ) : f.put (f.put m v) w = f.put m w := by
  funext a
  unfold Field.put overlay
  split <;> rfl

theorem toNat_mod_crc (c : UInt32) : c.toNat % 256 ^ 4 = c.toNat :=
  Nat.mod_eq_of_lt c.toNat_lt

/-- A header with the checksum of itself with a zeroed checksum passes the check. -/
theorem headerCrc_put (head : Mem) :
    let c := (efiCrc32 (slice (Header.headerCrc32.put head 0) 0 (Header.headerSize.get head))).toNat
    (headerCrc (Header.headerCrc32.put head c)).toNat =
      Header.headerCrc32.get (Header.headerCrc32.put head c) := by
  intro c
  have hsize : Header.headerSize.get (Header.headerCrc32.put head c) = Header.headerSize.get head :=
    Field.get_put_of_apart _ _ _ _ (by decide)
  rw [headerCrc, Field.put_put, hsize, Field.get_put]
  exact (toNat_mod_crc _).symm

/-- The checksum field of a filled header is zero. -/
theorem filledHeader_putCrc (d : BlockDevDesc) (guid : List UInt8) (v : ℕ) :
    Header.headerCrc32.put (Header.partitionEntryArrayCrc32.put (filledHeader d guid) v) 0 =
      Header.partitionEntryArrayCrc32.put (filledHeader d guid) v := by
  funext a
  by_cases ha : 16 ≤ a ∧ a < 16 + 4
  · have hzero : digits 0 (a - 16) = 0 := by simp [digits]
    have hput : Header.headerCrc32.put (Header.partitionEntryArrayCrc32.put (filledHeader d guid) v)
        0 a = digits 0 (a - 16) := overlay_of_mem _ _ ha.1 ha.2
    rw [hput]
    unfold filledHeader
    dsimp only
    rw [Field.put, overlay_of_not_mem _ _ (by simp [Header.partitionEntryArrayCrc32]; omega),
      overlay_of_not_mem _ _ (by simp [Header.diskGuid]; omega), Field.put,
      overlay_of_not_mem _ _ (by simp [Header.partitionEntryArrayCrc32]; omega), Field.put,
      overlay_of_mem _ _ (by simp [Header.headerCrc32]; omega)
        (by simp [Header.headerCrc32]; omega)]
    rfl
  · exact overlay_of_not_mem _ _ ha

theorem primaryHeader_crc (d : BlockDevDesc) (guid : List UInt8) (pte : Mem) :
    (headerCrc (primaryHeader (filledHeader d guid) pte)).toNat =
      Header.headerCrc32.get (primaryHeader (filledHeader d guid) pte) := by
  unfold primaryHeader
  dsimp only
  have h := headerCrc_put (Header.partitionEntryArrayCrc32.put (filledHeader d guid)
    (efiCrc32 (slice pte 0 (entriesSize (filledHeader d guid)))).toNat)
  rwa [filledHeader_putCrc] at h

theorem primaryHeader_arrayCrc (d : BlockDevDesc) (guid : List UInt8) (pte : Mem) :
    Header.partitionEntryArrayCrc32.get (primaryHeader (filledHeader d guid) pte) =
      (efiCrc32 (slice pte 0 (gptEntryNumbers * sizeofGptEntry))).toNat := by
  unfold primaryHeader
  dsimp only
  rw [Field.get_put_of_apart _ _ _ _ (by decide), Field.get_put,
    (filledHeader_fields d guid).entriesSize]
  exact toNat_mod_crc _

theorem backupHeader_crc (head : Mem) :
    (headerCrc (backupHeader head)).toNat = Header.headerCrc32.get (backupHeader head) := by
  unfold backupHeader
  dsimp only
  rw [Field.put_put]
  have h := headerCrc_put (Header.alternateLba.put
    (Header.myLba.put head (Header.alternateLba.get head)) (Header.myLba.get head))
  have hsize : Header.headerSize.get (Header.headerCrc32.put (Header.alternateLba.put
      (Header.myLba.put head (Header.alternateLba.get head)) (Header.myLba.get head)) 0) =
      Header.headerSize.get (Header.alternateLba.put
        (Header.myLba.put head (Header.alternateLba.get head)) (Header.myLba.get head)) :=
    Field.get_put_of_apart _ _ _ _ (by decide)
  rwa [hsize]

theorem backupHeader_myLba (d : BlockDevDesc) (guid : List UInt8) (pte : Mem) :
    Header.myLba.get (backupHeader (primaryHeader (filledHeader d guid) pte)) =
      u32 (d.lba + 2 ^ 32 - 1) := by
  unfold backupHeader primaryHeader
  simp (disch := decide) only [Field.get_put, Field.get_put_of_apart, (filledHeader_lbas d guid).2]
  exact u32_mod_pow _

theorem backupHeader_arrayCrc (head : Mem) :
    Header.partitionEntryArrayCrc32.get (backupHeader head) =
      Header.partitionEntryArrayCrc32.get head := by
  unfold backupHeader
  simp (disch := decide) only [Field.get_put_of_apart]

section Entry
variable (e : Mem) (start ending : ℕ) (guid : List UInt8) (name : Mem)

/-- The loop that copies the name. -/
def fillName (n : ℕ) (e : Mem) : Mem :=
  (List.range n).foldl (fun e k => (Entry.partitionName k).put e (name k).toNat) e

theorem fillName_succ (n : ℕ) : fillName name (n + 1) e =
    (Entry.partitionName n).put (fillName name n e) (name n).toNat := by
  simp [fillName, List.range_succ]

theorem fillName_apply {a : ℕ} (n : ℕ) (ha : a < 56) : fillName name n e a = e a := by
  induction n with
  | zero => rfl
  | succ n ih =>
    rw [fillName_succ, Field.put, overlay_of_not_mem _ _ (by simp [Entry.partitionName]; omega), ih]

theorem get_fillName {n k : ℕ} (hk : k < n) :
    (Entry.partitionName k).get (fillName name n e) = (name k).toNat := by
  induction n with
  | zero => omega
  | succ n ih =>
    rw [fillName_succ]
    by_cases heq : k = n
    · subst heq
      rw [Field.get_put]
      exact Nat.mod_eq_of_lt (lt_trans (name k).toNat_lt (by norm_num [Entry.partitionName]))
    · rw [Field.get_put_of_apart _ _ _ _ (.inl (by simp [Entry.partitionName]; omega))]
      exact ih (by omega)

/-- A field below the name is not touched by it. -/
theorem get_fillName_of_lt {f : Field} (n : ℕ) (hf : f.off + f.len ≤ 56) :
    f.get (fillName name n e) = f.get e :=
  f.get_congr fun _ _ h => fillName_apply e name n (by omega)

theorem fillEntry_starting :
    Entry.startingLba.get (fillEntry e start ending guid name) = start % 256 ^ 8 := by
  unfold fillEntry
  dsimp only
  rw [← fillName, get_fillName_of_lt _ _ _ (by decide)]
  simp (disch := decide) only [Field.get_put, Field.get_put_of_apart, Field.get_overlay]
  rfl

theorem fillEntry_ending :
    Entry.endingLba.get (fillEntry e start ending guid name) = ending % 256 ^ 8 := by
  unfold fillEntry
  dsimp only
  rw [← fillName, get_fillName_of_lt _ _ _ (by decide)]
  simp (disch := decide) only [Field.get_put, Field.get_put_of_apart, Field.get_overlay]
  rfl

theorem fillEntry_attributes :
    Entry.attributes.get (fillEntry e start ending guid name) = 0 := by
  unfold fillEntry
  dsimp only
  rw [← fillName, get_fillName_of_lt _ _ _ (by decide), Field.get_put]
  rfl

theorem fillEntry_name {k : ℕ} (hk : k < partnameSz) :
    (Entry.partitionName k).get (fillEntry e start ending guid name) = (name k).toNat :=
  get_fillName _ name hk

theorem fillEntry_type {k : ℕ} (hk : k < 16) :
    fillEntry e start ending guid name k = ofList basicDataGuid k := by
  rw [fillEntry, ← fillName, fillName_apply _ _ _ (by omega), Field.put,
    overlay_of_not_mem _ _ (by simp [Entry.attributes]; omega),
    overlay_of_not_mem _ _ (by simp [Entry.uniquePartitionGuid]; omega),
    overlay_of_mem _ _ (by simp [Entry.partitionTypeGuid])
      (by simp [Entry.partitionTypeGuid]; omega)]
  rfl

theorem fillEntry_guid {k : ℕ} (hk : k < 16) :
    fillEntry e start ending guid name (16 + k) = ofList guid k := by
  rw [fillEntry, ← fillName, fillName_apply _ _ _ (by omega), Field.put,
    overlay_of_not_mem _ _ (by simp [Entry.attributes]; omega)]
  exact overlay_add _ _ hk

end Entry

/-- The bytes of the entry of a partition, from block `place.1` to block `place.2`: the type, the
GUID, the two blocks, no attributes, and the name in letters of two bytes. -/
def DiskPartition.entry (p : DiskPartition) (place : ℕ × ℕ) : List UInt8 :=
  basicDataGuid ++ ((stringUuid p.uuid).getD [] ++ (leBytes 8 place.1 ++ (leBytes 8 place.2 ++
    (leBytes 8 0 ++ (List.range partnameSz).flatMap fun k => leBytes 2 (p.name k).toNat))))

/-- The body of the loop makes these bytes, whatever stood there. -/
theorem slice_fillEntry (e : Mem) {p : DiskPartition} {place : ℕ × ℕ} {guid : List UInt8}
    (hguid : stringUuid p.uuid = some guid) (hstart : place.1 < 2 ^ 32)
    (hending : place.2 < 2 ^ 32) :
    slice (fillEntry e place.1 place.2 guid p.name) 0 sizeofGptEntry = p.entry place := by
  generalize hm : fillEntry e place.1 place.2 guid p.name = m
  have hparts : slice m 0 sizeofGptEntry = slice m 0 16 ++ (slice m 16 16 ++ (slice m 32 8 ++
      (slice m 40 8 ++ (slice m 48 8 ++ slice m 56 (partnameSz * 2))))) := by
    rw [show sizeofGptEntry = 16 + (16 + (8 + (8 + (8 + partnameSz * 2)))) from rfl, slice_add,
      slice_add, slice_add, slice_add, slice_add]
  have htype : slice m 0 16 = basicDataGuid := by
    rw [← slice_ofList basicDataGuid, ← hm]
    apply slice_congr
    intro i hi
    rw [Nat.zero_add, fillEntry_type _ _ _ _ _ hi]
  have hid : slice m 16 16 = guid := by
    have hlen : guid.length = 16 := by rw [stringUuid_eq hguid]; rfl
    conv_rhs => rw [← slice_ofList guid, hlen]
    apply slice_congr
    intro i hi
    rw [← hm, Nat.zero_add, fillEntry_guid _ _ _ _ _ hi]
  have hfirst : slice m 32 8 = leBytes 8 place.1 := by
    apply @Field.slice_of_get Entry.startingLba
    rw [← hm, fillEntry_starting, Nat.mod_eq_of_lt (hstart.trans (by norm_num))]
  have hlast : slice m 40 8 = leBytes 8 place.2 := by
    apply @Field.slice_of_get Entry.endingLba
    rw [← hm, fillEntry_ending, Nat.mod_eq_of_lt (hending.trans (by norm_num))]
  have hattr : slice m 48 8 = leBytes 8 0 := by
    apply @Field.slice_of_get Entry.attributes
    rw [← hm, fillEntry_attributes]
  have hname : slice m 56 (partnameSz * 2) =
      (List.range partnameSz).flatMap fun k => leBytes 2 (p.name k).toNat := by
    rw [← slice_advance, slice_mul]
    apply List.flatMap_congr
    intro k hk
    have hslice : slice (advance m 56) (2 * k) 2 = slice m (56 + 2 * k) 2 := by
      apply slice_congr
      intro i _
      rw [advance_apply, Nat.add_assoc]
    rw [hslice]
    apply @Field.slice_of_get (Entry.partitionName k)
    rw [← hm, fillEntry_name _ _ _ _ _ (List.mem_range.mp hk)]
  rw [hparts, htype, hid, hfirst, hlast, hattr, hname, DiskPartition.entry, hguid]
  rfl

/-- Where the loop puts a partition that follows block `offset`: its first and its last
block, if it is the last partition or not. -/
def place (lastUsable offset : ℕ) (p : DiskPartition) (isLast : Prop) [Decidable isLast] : ℕ × ℕ :=
  let start := if p.start ≠ 0 then p.start else offset
  (start, if isLast ∧ p.size = 0 then lastUsable else u32 (u32 (start + p.size) + 2 ^ 32 - 1))

/-- Where the loop puts each partition. -/
def codeLayout (lastUsable : ℕ) : ℕ → List DiskPartition → List (ℕ × ℕ)
  | _, [] => []
  | offset, p :: ps =>
    place lastUsable offset p (ps = []) ::
      codeLayout lastUsable (u32 ((place lastUsable offset p (ps = [])).1 + p.size)) ps
termination_by structural _ ps => ps

@[simp] theorem length_codeLayout (lastUsable offset : ℕ) (ps : List DiskPartition) :
    (codeLayout lastUsable offset ps).length = ps.length := by
  induction ps generalizing offset with
  | nil => rfl
  | cons p ps ih => simp [codeLayout, ih]

/-- Entry `i` of the array is the one filled for a partition. -/
def EntryFor (pte : Mem) (i : ℕ) (p : DiskPartition) (place : ℕ × ℕ) : Prop :=
  ∃ e guid, stringUuid p.uuid = some guid ∧ ∀ k < sizeofGptEntry,
    element pte i k = fillEntry e place.1 place.2 guid p.name k

theorem element_overlay_same (pte e : Mem) (i : ℕ) {k : ℕ} (hk : k < sizeofGptEntry) :
    element (overlay pte (sizeofGptEntry * i) sizeofGptEntry e) i k = e k :=
  overlay_add pte e hk

theorem element_overlay_of_ne (pte e : Mem) {i j : ℕ} (hij : i ≠ j) {k : ℕ}
    (hk : k < sizeofGptEntry) :
    element (overlay pte (sizeofGptEntry * i) sizeofGptEntry e) j k = element pte j k := by
  apply overlay_of_not_mem
  unfold sizeofGptEntry at *
  omega

/-- One iteration: the partition is placed behind the previous ones and inside the usable
blocks, and its entry is filled. -/
theorem fillLoop_cons {lastUsable offset i : ℕ} {p : DiskPartition} {ps : List DiskPartition}
    {pte pte' : Mem} (h : fillLoop lastUsable offset i (p :: ps) pte = some pte') :
    ∃ guid, stringUuid p.uuid = some guid ∧
      u32 ((place lastUsable offset p (ps = [])).1 + p.size) < lastUsable ∧
      fillLoop lastUsable (u32 ((place lastUsable offset p (ps = [])).1 + p.size)) (i + 1) ps
        (overlay pte (sizeofGptEntry * i) sizeofGptEntry
          (fillEntry (element pte i) (place lastUsable offset p (ps = [])).1
            (place lastUsable offset p (ps = [])).2 guid p.name)) = some pte' := by
  rw [fillLoop] at h
  dsimp only at h
  by_cases hoverlap : p.start ≠ 0 ∧ p.start < offset
  · simp [hoverlap] at h
  rw [if_neg hoverlap] at h
  by_cases hend : u32 ((place lastUsable offset p (ps = [])).1 + p.size) ≥ lastUsable
  · rw [if_pos (by exact hend)] at h
    simp at h
  rw [if_neg (by exact hend)] at h
  cases huuid : stringUuid p.uuid with
  | none => simp [huuid] at h
  | some guid =>
    simp only [huuid] at h
    exact ⟨guid, rfl, by omega, h⟩

/-- The loop leaves the entries outside its own range alone. -/
theorem fillLoop_outside {lastUsable offset i : ℕ} {ps : List DiskPartition} {pte pte' : Mem}
    (h : fillLoop lastUsable offset i ps pte = some pte') {j : ℕ} (hj : j < i ∨ i + ps.length ≤ j)
    {k : ℕ} (hk : k < sizeofGptEntry) : element pte' j k = element pte j k := by
  induction ps generalizing offset i pte with
  | nil =>
    obtain rfl : pte = pte' := by simpa [fillLoop] using h
    rfl
  | cons p ps ih =>
    obtain ⟨guid, -, -, hrest⟩ := fillLoop_cons h
    rw [List.length_cons] at hj
    rw [ih hrest (by omega), element_overlay_of_ne _ _ (by omega) hk]

/-- The loop leaves in its range the entries of the partitions, where it placed them. -/
theorem fillLoop_entries {lastUsable offset i : ℕ} {ps : List DiskPartition} {pte pte' : Mem}
    (h : fillLoop lastUsable offset i ps pte = some pte') {m : ℕ} {p : DiskPartition}
    (hp : ps[m]? = some p) :
    ∃ q, (codeLayout lastUsable offset ps)[m]? = some q ∧ EntryFor pte' (i + m) p q := by
  induction ps generalizing offset i pte m with
  | nil => simp at hp
  | cons p' ps ih =>
    obtain ⟨guid, huuid, -, hrest⟩ := fillLoop_cons h
    cases m with
    | zero =>
      obtain rfl : p' = p := by simpa using hp
      refine ⟨_, rfl, element pte i, guid, huuid, fun k hk => ?_⟩
      rw [Nat.add_zero, fillLoop_outside hrest (.inl (Nat.lt_succ_self i)) hk,
        element_overlay_same _ _ _ hk]
    | succ m =>
      rw [show i + (m + 1) = i + 1 + m by omega]
      exact ih hrest hp

end UBoot.Disk
