import UBoot.Flash.SparseConfinement

/-!
# Writing named partitions

`flash_partition_write`, `flash_partition_erase_write` and `flash_block_write` look a
partition up by name and turn bytes into device blocks, each with its own rounding and
its own check. The table is the built-in one (no `CONFIG_EFI_PARTITION`), the device an
MMC card, and fastboot is configured. Products of `ulong` fields wrap at 32 bits unless
the source widens them first.
-/
namespace UBoot.Flash
open ByteStore

/-- `struct partition`; its numbers are `ulong`. -/
structure Partition where
  sectorSize : ℕ
  start : ℕ
  length : ℕ
  name : String
  sectorSize_lt : sectorSize < 2 ^ 32
  start_lt : start < 2 ^ 32
  length_lt : length < 2 ^ 32

/-- The partition of three words and a name. -/
def Partition.ofWords (sectorSize start length : ℕ) (name : String) : Partition :=
  ⟨u32 sectorSize, u32 start, u32 length, name, u32_lt sectorSize, u32_lt start, u32_lt length⟩

/-- The first byte of the partition. -/
def Partition.firstByte (pt : Partition) : ℕ := pt.sectorSize * pt.start

/-- The bytes of the partition. -/
def Partition.bytes (pt : Partition) : ℕ := pt.sectorSize * pt.length

/-- `partition_find_by_name`; a null name finds nothing. -/
def partitionFindByName (partitions : List Partition) (name : Option String) : Option Partition :=
  match name with
  | none => none
  | some name => partitions.find? (·.name = name)

def eIo : ℤ := -5
def eInval : ℤ := -22

section Functions
variable {δ : Type} (dev : BlockDev δ) (partitions : List Partition) (name : Option String)
  (buffer : Mem)

/-- A `block_write` whose result only decides between 0 and `-EIO`. -/
def flashBlocks (blk cnt : ℕ) (s : Session δ) : ℤ × Session δ :=
  let r := s.blockWrite dev blk cnt buffer
  (if r.1 > 0 then 0 else eIo, r.2)

/-- `flash_partition_write`. -/
def flashPartitionWrite (size : UInt32) (s : Session δ) : ℤ × Session δ :=
  match partitionFindByName partitions name with
  | none => (eInval, s.putError "40001")
  | some pt =>
    let start := u32 (pt.sectorSize * pt.start)
    let length := u32 (pt.sectorSize * pt.length)
    if size.toNat > length then (eInval, s)
    else flashBlocks dev buffer (start / dev.blLen) (size.toNat / dev.blLen + 1) s

/-- `flash_partition_erase_write`: the size is a 64-bit product here, the start is not. -/
def flashPartitionEraseWrite (size : UInt32) (s : Session δ) : ℤ × Session δ :=
  match partitionFindByName partitions name with
  | none => (eInval, s.putError "40001")
  | some pt =>
    let start := u32 (pt.sectorSize * pt.start)
    let partitionSize := u64 (pt.sectorSize * pt.length)
    if size.toNat > partitionSize then (eInval, s.putError "40002")
    else
      let c := checkSparseImage buffer s
      if c.1 then
        let r := writeUnsparse dev buffer size.toNat start partitionSize c.2
        (if r.1 then 0 else 1, r.2)
      else flashBlocks dev buffer (start / dev.blLen) (size.toNat / dev.blLen + 1) c.2

/-- `flash_block_write`: the sum in the check is 32 bits wide. -/
def flashBlockWrite (offstart size : UInt32) (s : Session δ) : ℤ × Session δ :=
  match partitionFindByName partitions name with
  | none => (eInval, s.putError "40001")
  | some pt =>
    let partStart := u32 (pt.sectorSize * pt.start)
    let partLength := u32 (pt.sectorSize * pt.length)
    if u32 (offstart.toNat + size.toNat) > partLength then (eInval, s.putError "40002")
    else
      flashBlocks dev buffer ((partStart + offstart.toNat) / dev.blLen)
        (blocksUp size.toNat dev.blLen) s

/-- The three calls. -/
inductive FlashCall where
  | partitionWrite (size : UInt32)
  | partitionEraseWrite (size : UInt32)
  | blockWrite (offstart size : UInt32)

def flashCall (call : FlashCall) (s : Session δ) : ℤ × Session δ :=
  match call with
  | .partitionWrite size => flashPartitionWrite dev partitions name buffer size s
  | .partitionEraseWrite size => flashPartitionEraseWrite dev partitions name buffer size s
  | .blockWrite offstart size => flashBlockWrite dev partitions name buffer offstart size s

end Functions

/-- Every block of the request lies in the bytes `[lo, hi)`. -/
def Request.Within (bl lo hi : ℕ) (r : Request) : Prop :=
  ∀ b, r.blk ≤ b → b < r.blk + r.cnt → lo ≤ b * bl ∧ (b + 1) * bl ≤ hi

/-- Every block requested lies in the partition found, and none is if none was found. -/
def Confined {δ : Type} (bl : ℕ) (pt : Option Partition) (s : Session δ) : Prop :=
  match pt with
  | none => s.requests = []
  | some pt => ∀ r ∈ s.requests, r.Within bl pt.firstByte (pt.firstByte + pt.bytes)

/-- On every device of the block length, the call keeps to the named partition. -/
def StaysInside (bl : ℕ) (partitions : List Partition) (name : Option String) (buffer : Mem)
    (call : FlashCall) : Prop :=
  ∀ (δ : Type) (dev : BlockDev δ) (d : δ), dev.blLen = bl →
    Confined bl (partitionFindByName partitions name)
      (flashCall dev partitions name buffer call (Session.initial d)).2

/-- `cnt` blocks from the first byte on fit: the partition starts on a block, below 4 GiB,
and has room for all of them. -/
def BlocksFit (bl : ℕ) (pt : Partition) (cnt : ℕ) : Prop :=
  cnt = 0 ∨ pt.firstByte < 2 ^ 32 ∧ bl ∣ pt.firstByte ∧ cnt * bl ≤ pt.bytes

/-- The blocks around `[off, off + size)` fit, for a partition that starts below 4 GiB. -/
def RangeFits (bl : ℕ) (pt : Partition) (off size : ℕ) : Prop :=
  size = 0 ∨ pt.firstByte < 2 ^ 32 ∧ (pt.firstByte + off) / bl < 2 ^ 32 ∧
    pt.firstByte ≤ (pt.firstByte + off) / bl * bl ∧
    ((pt.firstByte + off) / bl + blocksUp size bl) * bl ≤ pt.firstByte + pt.bytes

/-- The blocks of a raw chunk at its output address fit. -/
def ChunkFits (bl : ℕ) (pt : Partition) (buffer : Mem) (c : Cursor) : Prop :=
  acceptedChunk buffer pt.bytes c = some .raw →
    Request.Within bl pt.firstByte (pt.firstByte + pt.bytes)
      ⟨u32 (c.start / bl), u32 (blocksUp (chunkLen buffer c.off) bl)⟩

/-- The chunks of a sparse image fit, if its header is accepted. -/
def SparseFits (bl : ℕ) (pt : Partition) (buffer : Mem) : Prop :=
  HeaderOk buffer pt.bytes → EveryChunk buffer pt.bytes (ChunkFits bl pt buffer)
    (headerTotalChunks buffer) ⟨headerFileHdrSz buffer, u32 pt.firstByte, 0⟩

/-- The calls that keep to the partition: no such partition, too large for the check, or
fitting block by block. -/
def CallFits (bl : ℕ) (partitions : List Partition) (name : Option String) (buffer : Mem)
    (call : FlashCall) : Prop :=
  match partitionFindByName partitions name with
  | none => True
  | some pt =>
    match call with
    | .partitionWrite size =>
      size.toNat > u32 pt.bytes ∨ BlocksFit bl pt (u32 (size.toNat / bl + 1))
    | .partitionEraseWrite size =>
      size.toNat > pt.bytes ∨
        if headerMagic buffer = sparseHeaderMagic then SparseFits bl pt buffer
        else BlocksFit bl pt (u32 (size.toNat / bl + 1))
    | .blockWrite offstart size =>
      u32 (offstart.toNat + size.toNat) > u32 pt.bytes ∨
        RangeFits bl pt offstart.toNat size.toNat

section Requests
variable {bl lo hi : ℕ} {pt : Partition}

theorem within_empty (bl lo hi blk : ℕ) : Request.Within bl lo hi ⟨blk, 0⟩ := by
  intro b h₁ h₂
  dsimp only at h₁ h₂
  omega

theorem within_iff {blk cnt : ℕ} (hcnt : 0 < cnt) :
    Request.Within bl lo hi ⟨blk, cnt⟩ ↔ lo ≤ blk * bl ∧ (blk + cnt) * bl ≤ hi := by
  constructor
  · intro h
    have hlast := (h (blk + (cnt - 1)) (Nat.le_add_right ..) (by dsimp only; omega)).2
    rw [show blk + (cnt - 1) + 1 = blk + cnt by omega] at hlast
    exact ⟨(h blk le_rfl (by dsimp only; omega)).1, hlast⟩
  · rintro ⟨h₁, h₂⟩ b hb₁ hb₂
    dsimp only at hb₁ hb₂
    exact ⟨h₁.trans (Nat.mul_le_mul_right bl hb₁),
      (Nat.mul_le_mul_right bl (show b + 1 ≤ blk + cnt by omega)).trans h₂⟩

/-- A write from the first byte on: the wrapped product must be the product itself. -/
theorem within_blocksFit_iff (bl : ℕ) (pt : Partition) (cnt : ℕ) :
    Request.Within bl pt.firstByte (pt.firstByte + pt.bytes)
        ⟨u32 (u32 pt.firstByte / bl), cnt⟩ ↔ BlocksFit bl pt cnt := by
  rcases Nat.eq_zero_or_pos cnt with rfl | hcnt
  · exact iff_of_true (within_empty _ _ _ _) (.inl rfl)
  have hu : u32 (u32 pt.firstByte / bl) = u32 pt.firstByte / bl :=
    u32_of_lt ((Nat.div_le_self _ _).trans_lt (u32_lt _))
  rw [hu, within_iff hcnt, BlocksFit, or_iff_right hcnt.ne']
  constructor
  · rintro ⟨h₁, h₂⟩
    have hle := Nat.div_mul_le_self (u32 pt.firstByte) bl
    have hle' := u32_le pt.firstByte
    have hlt := u32_lt pt.firstByte
    have heq : u32 pt.firstByte = pt.firstByte := by omega
    rw [heq] at h₁ h₂ hle
    have hmul : pt.firstByte / bl * bl = pt.firstByte := by omega
    refine ⟨by omega, Nat.dvd_of_mod_eq_zero ?_, ?_⟩
    · have := Nat.div_add_mod pt.firstByte bl
      rw [Nat.mul_comm] at this
      omega
    · rw [Nat.add_mul] at h₂
      omega
  · rintro ⟨hlt, hdvd, hle⟩
    rw [u32_of_lt hlt, Nat.add_mul, Nat.div_mul_cancel hdvd]
    exact ⟨le_rfl, by omega⟩

/-- A write at an offset: neither product nor block number may wrap. -/
theorem within_rangeFits_iff (hbl : 0 < bl) (pt : Partition) (off size : UInt32) :
    Request.Within bl pt.firstByte (pt.firstByte + pt.bytes)
        ⟨u32 ((u32 pt.firstByte + off.toNat) / bl), u32 (blocksUp size.toNat bl)⟩ ↔
      RangeFits bl pt off.toNat size.toNat := by
  have hoff : off.toNat < 2 ^ 32 := off.toNat_lt
  have hsize : size.toNat < 2 ^ 32 := size.toNat_lt
  have hcnt := blocksUp_le_self size.toNat hbl
  have hu : u32 (blocksUp size.toNat bl) = blocksUp size.toNat bl := u32_of_lt (by omega)
  rw [hu]
  rcases Nat.eq_zero_or_pos size.toNat with h0 | hpos
  · rw [h0, blocksUp_zero]
    exact iff_of_true (within_empty _ _ _ _) (.inl rfl)
  have hpos' : 0 < blocksUp size.toNat bl := by
    rw [lt_blocksUp_iff _ _ hbl]
    omega
  rw [within_iff hpos', RangeFits, or_iff_right hpos.ne']
  constructor
  · rintro ⟨h₁, h₂⟩
    have hdiv := Nat.div_mul_le_self (u32 pt.firstByte + off.toNat) bl
    have hblk := Nat.mul_le_mul_right bl (u32_le ((u32 pt.firstByte + off.toNat) / bl))
    have heq : u32 pt.firstByte = pt.firstByte := by
      have hlt := u32_lt pt.firstByte
      have : u32 pt.firstByte = pt.firstByte % 2 ^ 32 := rfl
      omega
    rw [heq] at h₁ h₂ hdiv hblk
    have hlt : (pt.firstByte + off.toNat) / bl < 2 ^ 32 := by
      by_contra hge
      have hwrap : u32 ((pt.firstByte + off.toNat) / bl) + 2 ^ 32 ≤
          (pt.firstByte + off.toNat) / bl := by
        unfold u32
        omega
      have hmul := Nat.mul_le_mul_right bl hwrap
      rw [Nat.add_mul] at hmul
      have : 2 ^ 32 ≤ 2 ^ 32 * bl := Nat.le_mul_of_pos_right _ hbl
      omega
    rw [u32_of_lt hlt] at h₁ h₂
    exact ⟨heq ▸ u32_lt _, hlt, h₁, h₂⟩
  · rintro ⟨hlt, hblk, h₁, h₂⟩
    rw [u32_of_lt hlt, u32_of_lt hblk]
    exact ⟨h₁, h₂⟩

/-- On an aligned partition below 4 GiB whose block numbers fit 32 bits every sparse image
fits. -/
theorem sparseFits_of_aligned (hbl : 0 < bl) (hbl' : bl < 2 ^ 32) (buffer : Mem)
    (hlow : pt.firstByte < 2 ^ 32) (hfirst : bl ∣ pt.firstByte) (hbytes : bl ∣ pt.bytes)
    (hfit : (pt.firstByte + pt.bytes) / bl ≤ 2 ^ 32) : SparseFits bl pt buffer := by
  intro _
  rw [u32_of_lt hlow]
  have hend := Nat.div_mul_cancel (Nat.dvd_add hfirst hbytes)
  have hlt : pt.firstByte + pt.bytes < 2 ^ 64 :=
    calc pt.firstByte + pt.bytes = (pt.firstByte + pt.bytes) / bl * bl := hend.symm
      _ ≤ 2 ^ 32 * bl := Nat.mul_le_mul_right bl hfit
      _ < 2 ^ 64 := by omega
  have hstep : Cursor.InStep pt.firstByte pt.bytes
      ⟨headerFileHdrSz buffer, pt.firstByte, 0⟩ := ⟨Nat.zero_le _, rfl⟩
  refine (hstep.everyChunk buffer _ hlt).mono fun c hc h b h₁ h₂ => ?_
  obtain ⟨hlo, hhi⟩ := rawRequest_inside hbl hbl' hc hfirst hbytes hfit h b h₁ h₂
  constructor
  · calc pt.firstByte = pt.firstByte / bl * bl := (Nat.div_mul_cancel hfirst).symm
      _ ≤ b * bl := Nat.mul_le_mul_right bl hlo
  · calc (b + 1) * bl ≤ (pt.firstByte + pt.bytes) / bl * bl := Nat.mul_le_mul_right bl hhi
      _ = pt.firstByte + pt.bytes := hend

end Requests

section Calls
variable {δ : Type} {dev : BlockDev δ} {pt : Partition} {buffer : Mem}

theorem confined_cons (bl : ℕ) {r : Request} (s : Session δ) {s' : Session δ}
    (h : s'.requests = r :: s.requests) :
    Confined bl (some pt) s' ↔
      Confined bl (some pt) s ∧ r.Within bl pt.firstByte (pt.firstByte + pt.bytes) := by
  unfold Confined
  simp only [h, List.forall_mem_cons, and_comm]

theorem confined_of_requests_nil (bl : ℕ) (pt : Option Partition) {s : Session δ}
    (h : s.requests = []) : Confined bl pt s := by
  cases pt with
  | none => exact h
  | some pt =>
    intro r hr
    rw [h] at hr
    cases hr

/-- What one iteration of the chunk loop requests. -/
theorem confined_unsparseChunk (dev : BlockDev δ) (pt : Partition) (buffer : Mem) (c : Cursor)
    (s : Session δ) :
    Confined dev.blLen (some pt) (unsparseChunk dev buffer pt.bytes c s).2 ↔
      Confined dev.blLen (some pt) s ∧ ChunkFits dev.blLen pt buffer c := by
  unfold ChunkFits
  cases hk : acceptedChunk buffer pt.bytes c with
  | none =>
    unfold Confined
    rw [(unsparseChunk_of_none dev s hk).2.requests]
    simp
  | some kind =>
    cases kind with
    | dontCare =>
      unfold Confined
      rw [(unsparseChunk_of_dontCare dev s hk).2.requests]
      simp
    | raw =>
      obtain ⟨s₁, hs₁, heq⟩ := unsparseChunk_of_raw dev s hk
      rw [heq, confined_cons dev.blLen s₁ rfl]
      unfold Confined
      rw [hs₁.requests]
      simp

theorem bytes_lt (pt : Partition) : pt.bytes < 2 ^ 64 :=
  calc pt.bytes < 2 ^ 32 * 2 ^ 32 := Nat.mul_lt_mul'' pt.sectorSize_lt pt.length_lt
    _ = 2 ^ 64 := by norm_num

/-- The raw writers keep inside if and only if their blocks fit. -/
theorem confined_flashBlocks_iff (pt : Partition) (cnt : ℕ) (s : Session δ) (hs : s.requests = []) :
    Confined dev.blLen (some pt)
        (flashBlocks dev buffer (u32 pt.firstByte / dev.blLen) cnt s).2 ↔
      BlocksFit dev.blLen pt (u32 cnt) := by
  rw [confined_cons dev.blLen s rfl, within_blocksFit_iff]
  exact and_iff_right (confined_of_requests_nil _ _ hs)

theorem confined_header (bl : ℕ) (pt : Partition) (buffer : Mem) {s : Session δ}
    (hs : s.requests = []) :
    Confined bl (some pt) (headerAccepted buffer pt.bytes s).2 := by
  apply confined_of_requests_nil
  rw [(headerAccepted_sameDevice ..).requests, hs]

theorem confined_writeUnsparse (dev : BlockDev δ) (size : ℕ) {s : Session δ}
    (hs : s.requests = []) (h : SparseFits dev.blLen pt buffer) :
    Confined dev.blLen (some pt)
      (writeUnsparse dev buffer size (u32 pt.firstByte) pt.bytes s).2 := by
  have hhead := confined_header dev.blLen pt buffer hs
  unfold writeUnsparse
  dsimp only
  split
  · next hok =>
    exact unsparseLoop_rule dev (fun _ h => h)
      (fun c s hs hc => (confined_unsparseChunk dev pt buffer c s).mpr ⟨hs, hc⟩) _ hhead
      (h (headerAccepted_iff.mp hok).2)
  · exact hhead

/-- On the device that accepts everything the converse holds too. -/
theorem sparseFits_of_confined {bl : ℕ} (hbl : 0 < bl) (hbl' : bl < 2 ^ 32) (size : ℕ)
    {s : Session Unit} (hmagic : headerMagic buffer = sparseHeaderMagic)
    (h : Confined bl (some pt)
      (writeUnsparse (sink bl hbl hbl') buffer size (u32 pt.firstByte) pt.bytes s).2) :
    SparseFits bl pt buffer := by
  intro hok
  unfold writeUnsparse at h
  dsimp only at h
  rw [if_pos (headerAccepted_iff.mpr ⟨hmagic, hok⟩)] at h
  exact ((unsparseLoop_sink_iff (fun _ => Iff.rfl)
    (fun c s => confined_unsparseChunk (sink bl hbl hbl') pt buffer c s) _).mp h).2

/-- On a partition that was found, the calls do as follows, on every device. -/
theorem flashPartitionWrite_confined_iff (dev : BlockDev δ) {partitions : List Partition}
    {name : Option String} (hfind : partitionFindByName partitions name = some pt) (size : UInt32)
    (d : δ) :
    Confined dev.blLen (some pt)
        (flashPartitionWrite dev partitions name buffer size (Session.initial d)).2 ↔
      size.toNat > u32 pt.bytes ∨ BlocksFit dev.blLen pt (u32 (size.toNat / dev.blLen + 1)) := by
  simp only [flashPartitionWrite, hfind]
  split
  · next h => exact iff_of_true (confined_of_requests_nil _ _ rfl) (.inl h)
  · next h =>
    exact (confined_flashBlocks_iff pt _ (Session.initial d) rfl).trans (or_iff_right h).symm

theorem flashBlockWrite_confined_iff (dev : BlockDev δ) {partitions : List Partition}
    {name : Option String} (hfind : partitionFindByName partitions name = some pt)
    (offstart size : UInt32) (d : δ) :
    Confined dev.blLen (some pt)
        (flashBlockWrite dev partitions name buffer offstart size (Session.initial d)).2 ↔
      u32 (offstart.toNat + size.toNat) > u32 pt.bytes ∨
        RangeFits dev.blLen pt offstart.toNat size.toNat := by
  simp only [flashBlockWrite, hfind]
  split
  · next h => exact iff_of_true (confined_of_requests_nil _ _ rfl) (.inl h)
  · next h =>
    refine Iff.trans ?_ (or_iff_right h).symm
    refine (confined_cons dev.blLen (Session.initial d) rfl).trans ?_
    rw [← within_rangeFits_iff dev.blLen_pos]
    exact and_iff_right (confined_of_requests_nil _ _ rfl)

theorem flashPartitionEraseWrite_confined (dev : BlockDev δ) {partitions : List Partition}
    {name : Option String} (hfind : partitionFindByName partitions name = some pt) (size : UInt32)
    (d : δ) (hfits : size.toNat > pt.bytes ∨
      if headerMagic buffer = sparseHeaderMagic then SparseFits dev.blLen pt buffer
      else BlocksFit dev.blLen pt (u32 (size.toNat / dev.blLen + 1))) :
    Confined dev.blLen (some pt)
      (flashPartitionEraseWrite dev partitions name buffer size (Session.initial d)).2 := by
  have h64 : u64 (pt.sectorSize * pt.length) = pt.bytes := u64_of_lt (bytes_lt pt)
  simp only [flashPartitionEraseWrite, hfind, h64, checkSparseImage, decide_eq_true_eq]
  split
  · exact confined_of_requests_nil _ _ rfl
  · next h =>
    have hfits := hfits.resolve_left h
    split at hfits
    · next hmagic =>
      rw [if_pos hmagic]
      exact confined_writeUnsparse dev _ rfl hfits
    · next hmagic =>
      rw [if_neg hmagic]
      exact (confined_flashBlocks_iff pt _ _ rfl).mpr hfits

theorem flashPartitionEraseWrite_fits {bl : ℕ} (hbl : 0 < bl) (hbl' : bl < 2 ^ 32)
    {partitions : List Partition} {name : Option String}
    (hfind : partitionFindByName partitions name = some pt) (size : UInt32)
    (h : Confined bl (some pt) (flashPartitionEraseWrite (sink bl hbl hbl') partitions name buffer
      size (Session.initial ())).2) :
    size.toNat > pt.bytes ∨
      if headerMagic buffer = sparseHeaderMagic then SparseFits bl pt buffer
      else BlocksFit bl pt (u32 (size.toNat / bl + 1)) := by
  have h64 : u64 (pt.sectorSize * pt.length) = pt.bytes := u64_of_lt (bytes_lt pt)
  simp only [flashPartitionEraseWrite, hfind, h64, checkSparseImage, decide_eq_true_eq] at h
  split at h
  · next hsize => exact .inl hsize
  · refine .inr ?_
    split at h
    · next hmagic =>
      rw [if_pos hmagic]
      exact sparseFits_of_confined hbl hbl' _ hmagic h
    · next hmagic =>
      rw [if_neg hmagic]
      exact (@confined_flashBlocks_iff Unit (sink bl hbl hbl') buffer pt _ _ rfl).mp h

end Calls

/-- A call keeps to the named partition, on every device, if and only if it fits. -/
theorem staysInside_iff {bl : ℕ} (hbl : 0 < bl) (hbl' : bl < 2 ^ 32) (partitions : List Partition)
    (name : Option String) (buffer : Mem) (call : FlashCall) :
    StaysInside bl partitions name buffer call ↔ CallFits bl partitions name buffer call := by
  unfold StaysInside CallFits
  cases hfind : partitionFindByName partitions name with
  | none =>
    refine iff_of_true (fun δ dev d _ => ?_) trivial
    cases call <;>
      simp only [flashCall, flashPartitionWrite, flashPartitionEraseWrite, flashBlockWrite,
        hfind] <;>
      rfl
  | some pt =>
    constructor
    · intro h
      have hsink := h Unit (sink bl hbl hbl') () rfl
      cases call with
      | partitionWrite size =>
        exact (flashPartitionWrite_confined_iff (sink bl hbl hbl') hfind size ()).mp hsink
      | partitionEraseWrite size =>
        exact flashPartitionEraseWrite_fits hbl hbl' hfind size hsink
      | blockWrite offstart size =>
        exact (flashBlockWrite_confined_iff (sink bl hbl hbl') hfind offstart size ()).mp hsink
    · rintro h δ dev d rfl
      cases call with
      | partitionWrite size => exact (flashPartitionWrite_confined_iff dev hfind size d).mpr h
      | partitionEraseWrite size => exact flashPartitionEraseWrite_confined dev hfind size d h
      | blockWrite offstart size =>
        exact (flashBlockWrite_confined_iff dev hfind offstart size d).mpr h

/-- Two adjacent partitions of 16 sectors each. -/
def bootAndLogo : List Partition :=
  [.ofWords 512 2048 16 "boot", .ofWords 512 2064 16 "logo"]

/-- A block write of a whole partition. -/
theorem staysInside_iff_logo :
    StaysInside 512 bootAndLogo (some "logo") (fun _ => 7) (.blockWrite 0 8192) := by
  have hfits : RangeFits 512 (.ofWords 512 2064 16 "logo") 0 8192 :=
    .inr ⟨by decide, by decide, by decide, by decide⟩
  exact (staysInside_iff (by norm_num) (by norm_num) bootAndLogo (some "logo") _ _).mpr
    (.inr hfits)

/-- An image of exactly the size of its partition is written with one block more. -/
theorem full_partition_write_overruns :
    ¬ StaysInside 512 bootAndLogo (some "boot") (fun _ => 7) (.partitionWrite 8192) := by
  intro h
  have hsink := h Unit (sink 512 (by norm_num) (by norm_num)) () rfl
  have hfind : partitionFindByName bootAndLogo (some "boot") =
      some (.ofWords 512 2048 16 "boot") := rfl
  rw [hfind] at hsink
  have hlast := hsink ⟨2048, 17⟩ (by decide +kernel) 2064 (by decide) (by decide)
  exact absurd hlast.2 (by decide)

end UBoot.Flash
