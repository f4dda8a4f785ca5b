import UBoot.Disk.Validity

/-!
# Buffers sized by the disk

The header says how far its own CRC reaches, how many entries there are and how large
one is. None of the three is checked: the CRC may run out of the header block, the size
of the array may wrap, and the entries are allocated with the size on the disk but
indexed with the size of the C structure. Three inequalities on the header are exactly
what keeps every use of the buffers inside.
-/
namespace UBoot.Disk
open ByteStore

/-- The bytes a buffer has: the header block, and the allocation for the entries. -/
def bufferSize (d : BlockDevDesc) (g : Gpt) : Buffer → ℕ
  | .head => d.blksz
  | .pte => d.padToBlocksize (entriesSize g.head)

def Access.Inside (d : BlockDevDesc) (g : Gpt) (a : Access) : Prop :=
  a.off + a.len ≤ bufferSize d g a.buffer

/-- Every use of the buffers stays inside, whichever function looks at the table; `part`
is an `int`. -/
structure AccessesInside (env : Surroundings) (d : BlockDevDesc) (g : Gpt) : Prop where
  print : ∀ a ∈ (printPartEfi env d).2, a.Inside d g
  info : ∀ part < 2 ^ 31, ∀ a ∈ (getPartitionInfoEfi env d part).2, a.Inside d g
  find : ∀ name part, ∀ a ∈ (gptFindPartByName env d name part).2, a.Inside d g

/-- The size of the array as the header means it, in whole blocks. -/
def paddedSize (d : BlockDevDesc) (head : Mem) : ℕ :=
  d.blockCnt (Header.numPartitionEntries.get head * Header.sizeofPartitionEntry.get head) * d.blksz

/-- The size handed to `calloc` is the padded size of the array. -/
def AllocationExact (d : BlockDevDesc) (g : Gpt) : Prop :=
  d.padToBlocksize (entriesSize g.head) = paddedSize d g.head ∧ paddedSize d g.head < 2 ^ 32

/-- The three inequalities. -/
structure HeaderFits (d : BlockDevDesc) (head : Mem) : Prop where
  headerSize : Header.headerSize.get head ≤ d.blksz
  paddedSize : paddedSize d head < 2 ^ 32
  entries : Header.numPartitionEntries.get head * sizeofGptEntry ≤ UBoot.Disk.paddedSize d head

instance (d : BlockDevDesc) (head : Mem) : Decidable (HeaderFits d head) :=
  decidable_of_iff
    (Header.headerSize.get head ≤ d.blksz ∧ paddedSize d head < 2 ^ 32 ∧
      Header.numPartitionEntries.get head * sizeofGptEntry ≤ paddedSize d head)
    ⟨fun h => ⟨h.1, h.2.1, h.2.2⟩, fun h => ⟨h.1, h.2, h.3⟩⟩

variable {env : Surroundings} {d : BlockDevDesc} {g : Gpt}

theorem entriesSize_of_paddedSize {head : Mem} (h : paddedSize d head < 2 ^ 32) :
    entriesSize head =
      Header.numPartitionEntries.get head * Header.sizeofPartitionEntry.get head := by
  apply u32_of_lt
  exact lt_of_le_of_lt (le_padCount_mul _ d.blksz_pos) h

theorem allocationExact_iff : AllocationExact d g ↔ paddedSize d g.head < 2 ^ 32 := by
  constructor
  · exact And.right
  · intro h
    refine ⟨?_, h⟩
    rw [BlockDevDesc.padToBlocksize, entriesSize_of_paddedSize h]
    exact u32_of_lt h

theorem elementAccess_inside_iff (h : paddedSize d g.head < 2 ^ 32) (i : ℕ) :
    (elementAccess i).Inside d g ↔ (i + 1) * sizeofGptEntry ≤ paddedSize d g.head := by
  have hsize : bufferSize d g .pte = paddedSize d g.head := (allocationExact_iff.mpr h).1
  unfold Access.Inside
  rw [show (elementAccess i).buffer = .pte from rfl, hsize]
  simp only [elementAccess]
  rw [Nat.add_mul, Nat.one_mul, Nat.mul_comm i]

theorem validationAccesses_inside (h : HeaderFits d g.head) :
    ∀ a ∈ validationAccesses g.head, a.Inside d g := by
  intro a ha
  simp only [validationAccesses, List.mem_cons, List.not_mem_nil, or_false] at ha
  rcases ha with rfl | rfl
  · simpa [Access.Inside, bufferSize] using h.headerSize
  · have hle : entriesSize g.head ≤ paddedSize d g.head := by
      rw [entriesSize_of_paddedSize h.paddedSize]
      exact le_padCount_mul _ d.blksz_pos
    have halloc : d.padToBlocksize (entriesSize g.head) = paddedSize d g.head :=
      (allocationExact_iff.mpr h.paddedSize).1
    simpa [Access.Inside, bufferSize, halloc] using hle

theorem elementAccess_inside (h : HeaderFits d g.head) {i : ℕ} (hi : i < g.num) :
    (elementAccess i).Inside d g := by
  rw [elementAccess_inside_iff h.paddedSize]
  exact (Nat.mul_le_mul_right _ hi).trans h.entries

theorem accessesInside_of_headerFits
    (hg : Accepts env d gptPrimaryPartitionTableLba g) (h : HeaderFits d g.head) :
    AccessesInside env d g := by
  have hvalid := validationAccesses_inside h
  constructor
  · intro a ha
    simp only [printPartEfi, hg.isGptValid] at ha
    rcases List.mem_append.mp ha with ha | ha
    · exact hvalid a ha
    · obtain ⟨j, hj, rfl⟩ := printLoop_accesses _ _ _ a ha
      exact elementAccess_inside h (by omega)
  · intro part _ a ha
    simp only [getPartitionInfoEfi, hg.isGptValid] at ha
    split_ifs at ha with hpart hnum hpte
    · simp at ha
    · exact hvalid a ha
    all_goals
      rcases List.mem_append.mp ha with ha | ha
      · exact hvalid a ha
      · obtain rfl : a = elementAccess (part - 1) := by simpa using ha
        exact elementAccess_inside h (by omega)
  · intro name part a ha
    cases name with
    | none => simp [gptFindPartByName] at ha
    | some name =>
      simp only [gptFindPartByName, hg.isGptValid] at ha
      have hmem : a ∈ validationAccesses g.head ++ (findLoop name g.pte g.num 0).2 := by
        split at ha <;> exact ha
      rcases List.mem_append.mp hmem with ha | ha
      · exact hvalid a ha
      · obtain ⟨j, hj, rfl⟩ := findLoop_accesses _ _ _ _ a ha
        exact elementAccess_inside h (by omega)

/-- Asking for partition `part` looks at its entry. -/
theorem elementAccess_mem_info (hg : Accepts env d gptPrimaryPartitionTableLba g) {part : ℕ}
    (hpos : 1 ≤ part) (hle : part ≤ g.num) :
    elementAccess (part - 1) ∈ (getPartitionInfoEfi env d part).2 := by
  simp only [getPartitionInfoEfi, hg.isGptValid]
  rw [if_neg (by omega), if_neg (by omega)]
  split <;> simp

theorem headerFits_of_accessesInside (hg : Accepts env d gptPrimaryPartitionTableLba g)
    (h : AccessesInside env d g) (halloc : AllocationExact d g) : HeaderFits d g.head := by
  have hpadded : paddedSize d g.head < 2 ^ 32 := halloc.2
  have hpos := hg.num_pos
  refine ⟨?_, hpadded, ?_⟩
  · have hmem : (⟨.head, 0, Header.headerSize.get g.head⟩ : Access) ∈ (printPartEfi env d).2 := by
      simp [printPartEfi, hg.isGptValid, validationAccesses]
    have := h.print _ hmem
    simpa [Access.Inside, bufferSize] using this
  · -- the largest `int` is enough: what it names already lies behind any allocation
    have hpart : (elementAccess (min g.num (2 ^ 31 - 1) - 1)).Inside d g :=
      h.info (min g.num (2 ^ 31 - 1)) (by omega) _
        (elementAccess_mem_info hg (by omega) (Nat.min_le_left ..))
    rw [elementAccess_inside_iff hpadded] at hpart
    unfold sizeofGptEntry at hpart ⊢
    unfold Gpt.num at hpart hpos
    omega

/-- For every table that is accepted, the uses of the buffers stay inside and the
allocation is exact if and only if the three inequalities hold. -/
theorem accessesInside_iff_headerFits (env : Surroundings) (d : BlockDevDesc) (g : Gpt)
    (hg : (isGptValid env d gptPrimaryPartitionTableLba).1 = some g) :
    (AccessesInside env d g ∧ AllocationExact d g) ↔ HeaderFits d g.head := by
  have hacc := isGptValid_eq_some_iff.mp hg
  constructor
  · intro h
    exact headerFits_of_accessesInside hacc h.1 h.2
  · intro h
    exact ⟨accessesInside_of_headerFits hacc h, allocationExact_iff.mpr h.paddedSize⟩

/-- A header with the given numbers for an array of zeros at LBA 2. -/
def blankHeader (num size entriesCrc headerCrc : ℕ) : Mem :=
  let head := Header.signature.put (fun _ => 0) gptHeaderSignature
  let head := Header.headerSize.put head sizeofGptHeader
  let head := Header.headerCrc32.put head headerCrc
  let head := Header.myLba.put head 1
  let head := Header.partitionEntryLba.put head 2
  let head := Header.numPartitionEntries.put head num
  let head := Header.sizeofPartitionEntry.put head size
  Header.partitionEntryArrayCrc32.put head entriesCrc

/-- A disk of 2048 blocks with that header at LBA 1, zeros elsewhere. -/
def blankDisk (head : Mem) : BlockDevDesc where
  blksz := 512
  lba := 2048
  bytes := overlay (fun _ => 0) 512 sizeofGptHeader head
  reads := fun start cnt => start + cnt ≤ 2048
  writes := fun start cnt => start + cnt ≤ 2048
  blksz_ge := le_rfl
  blksz_lt := by norm_num
  lba_lt := by norm_num
  writes_inside := fun start cnt h => by simpa using h

/-- Zeros around the buffers, and every allocation granted. -/
def calm : Surroundings := ⟨fun _ => 0, fun _ => 0, fun _ => true⟩

/-- One entry of 128 bytes. -/
def wellSized : BlockDevDesc := blankDisk (blankHeader 1 128 0xc2a8fa9d 0x7c83ca24)

/-- Eight entries of 16 bytes: an allocation of one block for eight C structures. -/
def shortEntries : BlockDevDesc := blankDisk (blankHeader 8 16 0xc2a8fa9d 0xceaa4444)

set_option maxRecDepth 10000 in
theorem wellSized_isSome : (isGptValid calm wellSized 1).1.isSome = true := by
  decide +kernel

set_option maxRecDepth 10000 in
theorem wellSized_headerFits :
    (isGptValid calm wellSized 1).1.any (fun g => HeaderFits wellSized g.head) = true := by
  decide +kernel

theorem accessesInside_iff_headerFits_wellSized : ∃ g,
    (isGptValid calm wellSized 1).1 = some g ∧
      AccessesInside calm wellSized g ∧ AllocationExact wellSized g := by
  obtain ⟨g, hg, hfits⟩ := (Option.any_eq_true _ _).mp wellSized_headerFits
  exact ⟨g, hg, (accessesInside_iff_headerFits calm wellSized g hg).mpr (of_decide_eq_true hfits)⟩

set_option maxRecDepth 10000 in
theorem shortEntries_rejected :
    (isGptValid calm shortEntries 1).1.any (fun g => ¬ HeaderFits shortEntries g.head) = true := by
  decide +kernel

/-- The table of `shortEntries` is accepted, and its entries are looked up behind the
block that was allocated for them. -/
theorem shortEntries_overrun : ∃ g, (isGptValid calm shortEntries 1).1 = some g ∧
    ¬ (AccessesInside calm shortEntries g ∧ AllocationExact shortEntries g) := by
  have hany := shortEntries_rejected
  cases hg : (isGptValid calm shortEntries 1).1 with
  | none => simp [hg] at hany
  | some g =>
    have hfits : ¬ HeaderFits shortEntries g.head := by simpa [hg] using hany
    refine ⟨g, rfl, fun h => hfits ?_⟩
    exact headerFits_of_accessesInside (isGptValid_eq_some_iff.mp hg) h.1 h.2

end UBoot.Disk
