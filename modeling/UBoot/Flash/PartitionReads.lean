import UBoot.Flash.Partition

/-!
# Reading named partitions

`flash_block_read` reads whole blocks into the caller's buffer and the rest of the last block
through a bounce buffer; `flash_partition_read` and `flash_partition_read_all` read the whole
blocks of the shorter of the buffer and the partition. The device may fail any read, and
leaves what it likes where the blocks would have gone.
-/
namespace UBoot.Flash
open ByteStore

/-- `block_dev` as the read path uses it: `none` is a read that succeeds. The card driver
lets no block be larger than 512 bytes. -/
structure ReadDev (δ : Type) where
  readBlLen : ℕ
  readBlLen_pos : 0 < readBlLen
  readBlLen_le : readBlLen ≤ 512
  disk : Mem
  answer : ℕ → ℕ → δ → Option Mem × δ

/-- The device, newest first the requests made, whether a read has failed, and the error codes
put. -/
structure ReadSession (δ : Type) where
  dev : δ
  requests : List Request
  failed : Bool
  errors : List String

/-- What a call leaves: the result, the memory from the buffer on, and the device. -/
structure ReadResult (δ : Type) where
  ret : ℤ
  dst : Mem
  session : ReadSession δ

section Functions
variable {δ : Type} (dev : ReadDev δ) (partitions : List Partition) (name : Option String)

def ReadSession.initial (d : δ) : ReadSession δ := ⟨d, [], false, []⟩

def ReadSession.putError (s : ReadSession δ) (code : String) : ReadSession δ :=
  { s with errors := code :: s.errors }

/-- A call of `block_read`, whose arguments are 32-bit words: the number of blocks read, which
is 0 for a failure. No blocks are read without asking the device. -/
def ReadSession.blockRead (blk cnt : ℕ) (dst : Mem) (s : ReadSession δ) :
    ℕ × Mem × ReadSession δ :=
  if u32 cnt = 0 then (0, dst, s)
  else
    let r := dev.answer (u32 blk) (u32 cnt) s.dev
    let s := { s with dev := r.2, requests := ⟨u32 blk, u32 cnt⟩ :: s.requests }
    match r.1 with
    | none => (u32 cnt, overlay dst 0 (u32 cnt * dev.readBlLen)
        (advance dev.disk (u32 blk * dev.readBlLen)), s)
    | some junk => (0, overlay dst 0 (u32 cnt * dev.readBlLen) junk, { s with failed := true })

/-- `flash_block_read`; `tmp` is what stands in the bounce buffer. -/
def flashBlockRead (isNull : Bool) (dst tmp : Mem) (offstart size : UInt32)
    (s : ReadSession δ) : ReadResult δ :=
  match partitionFindByName partitions name with
  | none => ⟨eInval, dst, s.putError "40001"⟩
  | some pt =>
    let partStart := u32 (pt.sectorSize * pt.start)
    let partLength := u32 (pt.sectorSize * pt.length)
    if u32 (offstart.toNat + size.toNat) > partLength then ⟨eInval, dst, s.putError "40002"⟩
    else if isNull = true ∨ offstart.toNat % dev.readBlLen ≠ 0 then ⟨eInval, dst, s⟩
    else
      let partLength := size.toNat % dev.readBlLen
      let partStart := partStart + offstart.toNat
      let whole : ReadResult δ :=
        if size.toNat / dev.readBlLen ≠ 0 then
          let r := s.blockRead dev (partStart / dev.readBlLen) (size.toNat / dev.readBlLen) dst
          ⟨if r.1 > 0 then 0 else eIo, r.2.1, r.2.2⟩
        else ⟨0, dst, s⟩
      if partLength ≠ 0 ∧ whole.ret = 0 then
        let r := whole.session.blockRead dev ((partStart + size.toNat) / dev.readBlLen) 1 tmp
        ⟨if r.1 > 0 then 0 else whole.ret,
          overlay whole.dst (size.toNat - partLength) partLength r.2.1, r.2.2⟩
      else whole

/-- `flash_partition_read` -/
def flashPartitionRead (dst : Mem) (size : UInt32) (s : ReadSession δ) : ReadResult δ :=
  match partitionFindByName partitions name with
  | none => ⟨eInval, dst, s.putError "40001"⟩
  | some pt =>
    let start := u32 (pt.sectorSize * pt.start)
    let length := u32 (pt.sectorSize * pt.length)
    let length := if length > size.toNat then size.toNat else length
    let r := s.blockRead dev (start / dev.readBlLen) (length / dev.readBlLen) dst
    ⟨if r.1 > 0 then 0 else eIo, r.2.1, r.2.2⟩

/-- `flash_partition_read_all`, which does the same on an MMC card. -/
def flashPartitionReadAll (dst : Mem) (size : UInt32) (s : ReadSession δ) : ReadResult δ :=
  flashPartitionRead dev partitions name dst size s

/-- The three calls. -/
inductive ReadCall where
  | blockRead (isNull : Bool) (offstart size : UInt32)
  | partitionRead (size : UInt32)
  | partitionReadAll (size : UInt32)

def readCall (call : ReadCall) (dst tmp : Mem) (s : ReadSession δ) : ReadResult δ :=
  match call with
  | .blockRead isNull offstart size =>
    flashBlockRead dev partitions name isNull dst tmp offstart size s
  | .partitionRead size => flashPartitionRead dev partitions name dst size s
  | .partitionReadAll size => flashPartitionReadAll dev partitions name dst size s

end Functions

/-- The bytes of the partition that a call asks for: the offset of the first, and how many. -/
def ReadCall.wanted (pt : Partition) : ReadCall → ℕ × ℕ
  | .blockRead _ offstart size => (offstart.toNat, size.toNat)
  | .partitionRead size | .partitionReadAll size => (0, min size.toNat pt.bytes)

/-- A call that succeeds has read what it was asked for, bytes of the partition all of them;
it writes no byte beyond; and it does not succeed when a device read has failed. -/
structure ReadRight {δ : Type} (disk : Mem) (pt : Partition) (call : ReadCall) (dst : Mem)
    (r : ReadResult δ) : Prop where
  complete : r.ret = 0 → (call.wanted pt).2 = 0 ∨
    (call.wanted pt).1 + (call.wanted pt).2 ≤ pt.bytes ∧
    ∀ i < (call.wanted pt).2, r.dst i = disk (pt.firstByte + (call.wanted pt).1 + i)
  bounded : ∀ i, (call.wanted pt).2 ≤ i → r.dst i = dst i
  honest : r.session.failed = true → r.ret ≠ 0

/-- Right on every device with these blocks, for every buffer and all failures; a partition
that does not exist is not read. -/
def ReadsRight (bl : ℕ) (partitions : List Partition) (name : Option String) (call : ReadCall) :
    Prop :=
  ∀ (δ : Type) (dev : ReadDev δ) (d : δ) (dst tmp : Mem), dev.readBlLen = bl →
    match partitionFindByName partitions name with
    | none =>
      (readCall dev partitions name call dst tmp (ReadSession.initial d)).ret ≠ 0 ∧
      (readCall dev partitions name call dst tmp (ReadSession.initial d)).dst = dst
    | some pt => ReadRight dev.disk pt call dst
      (readCall dev partitions name call dst tmp (ReadSession.initial d))

/-- The bytes `[off, off + size)` are whole blocks of a partition below 4 GiB. -/
def WholeBlocks (bl : ℕ) (pt : Partition) (off size : ℕ) : Prop :=
  bl ∣ size ∧ off + size ≤ pt.bytes ∧ pt.firstByte < 2 ^ 32 ∧ bl ∣ pt.firstByte ∧
    (pt.firstByte + off) / bl < 2 ^ 32

/-- The calls that are refused or ask for nothing, and those whose bytes are whole blocks. -/
def ReadFits (bl : ℕ) (pt : Partition) : ReadCall → Prop
  | .blockRead isNull offstart size =>
    u32 (offstart.toNat + size.toNat) > u32 pt.bytes ∨ isNull = true ∨
      ¬ bl ∣ offstart.toNat ∨ size.toNat = 0 ∨ WholeBlocks bl pt offstart.toNat size.toNat
  | .partitionRead size | .partitionReadAll size =>
    min size.toNat (u32 pt.bytes) < bl ∨
      min size.toNat (u32 pt.bytes) = min size.toNat pt.bytes ∧
      WholeBlocks bl pt 0 (min size.toNat pt.bytes)

section Reads
variable {δ : Type} {dev : ReadDev δ} {partitions : List Partition} {name : Option String}
  {pt : Partition} {dst tmp : Mem}

/-- A read of some blocks: what was asked for, or a failure that is remembered. -/
theorem blockRead_cases (blk : ℕ) {cnt : ℕ} (hcnt : 0 < cnt) (hlt : cnt < 2 ^ 32)
    (s : ReadSession δ) :
    (s.blockRead dev blk cnt dst).1 = cnt ∧
      (s.blockRead dev blk cnt dst).2.1 =
        overlay dst 0 (cnt * dev.readBlLen) (advance dev.disk (u32 blk * dev.readBlLen)) ∧
      (s.blockRead dev blk cnt dst).2.2.failed = s.failed ∨
    (s.blockRead dev blk cnt dst).1 = 0 ∧
      ∃ junk, (s.blockRead dev blk cnt dst).2.1 = overlay dst 0 (cnt * dev.readBlLen) junk := by
  rw [ReadSession.blockRead, u32_of_lt hlt, if_neg hcnt.ne']
  dsimp only
  split
  · exact .inl ⟨rfl, rfl, rfl⟩
  · next junk _ => exact .inr ⟨rfl, junk, rfl⟩

/-- A device that reads everything. -/
def plain (bl : ℕ) (hbl : 0 < bl) (hbl' : bl ≤ 512) (disk : Mem) : ReadDev Unit :=
  ⟨bl, hbl, hbl', disk, fun _ _ _ => (none, ())⟩

/-- A device that fails after some reads. -/
def tiring (bl : ℕ) (hbl : 0 < bl) (hbl' : bl ≤ 512) : ReadDev ℕ :=
  ⟨bl, hbl, hbl', fun _ => 0, fun _ _ n => (if n = 0 then some fun _ => 0 else none, n - 1)⟩

/-- The first bytes of whole blocks, read from a place that may be another. -/
theorem right_of_blocks {disk : Mem} (call : ReadCall) {blk cnt : ℕ} (hcnt : 0 < cnt)
    (hlt : cnt < 2 ^ 32) (hdev : dev.disk = disk)
    (hsize : (call.wanted pt).2 = cnt * dev.readBlLen)
    (hinside : (call.wanted pt).1 + (call.wanted pt).2 ≤ pt.bytes)
    (hplace : u32 blk * dev.readBlLen = pt.firstByte + (call.wanted pt).1) (d : δ) :
    ReadRight disk pt call dst
      ⟨if ((ReadSession.initial d).blockRead dev blk cnt dst).1 > 0 then 0 else eIo,
        ((ReadSession.initial d).blockRead dev blk cnt dst).2.1,
        ((ReadSession.initial d).blockRead dev blk cnt dst).2.2⟩ := by
  have hcases := @blockRead_cases δ dev dst blk cnt hcnt hlt (ReadSession.initial d)
  rcases hcases with
    ⟨hret, hbytes, hfailed⟩ | ⟨hret, junk, hbytes⟩
  · refine ⟨fun _ => .inr ⟨hinside, fun i hi => ?_⟩, fun i hi => ?_, fun h => ?_⟩
    · dsimp only
      rw [hbytes, overlay_of_mem _ _ (Nat.zero_le i) (by omega), Nat.sub_zero, advance_apply,
        hplace, hdev]
    · dsimp only
      rw [hbytes, overlay_of_not_mem _ _ (by omega)]
    · exact absurd (hfailed.symm.trans h) Bool.false_ne_true
  · refine ⟨fun h => ?_, fun i hi => ?_, fun _ => ?_⟩
    · dsimp only at h
      rw [hret] at h
      exact absurd h (show eIo ≠ 0 by decide)
    · dsimp only
      rw [hbytes, overlay_of_not_mem _ _ (by omega)]
    · dsimp only
      rw [hret]
      exact show eIo ≠ 0 by decide

/-- A call that asks no device and changes no byte. -/
theorem right_of_refused {disk : Mem} {call : ReadCall} {s : ReadSession δ} {ret : ℤ}
    (hret : ret ≠ 0 ∨ (call.wanted pt).2 = 0) (hs : s.failed = false) :
    ReadRight disk pt call dst ⟨ret, dst, s⟩ :=
  ⟨fun h => .inl (hret.resolve_left (not_not.mpr h)), fun _ _ => rfl,
    fun h => absurd (hs.symm.trans h) (by decide)⟩

/-- The place of whole blocks that can be read from where they are. -/
theorem place_of_wholeBlocks {bl off size : ℕ} (h : WholeBlocks bl pt off size)
    (hoff : bl ∣ off) : u32 ((u32 pt.firstByte + off) / bl) * bl = pt.firstByte + off := by
  obtain ⟨-, -, hlow, hfirst, hblk⟩ := h
  rw [u32_of_lt hlow, u32_of_lt hblk, Nat.div_mul_cancel (Nat.dvd_add hfirst hoff)]

/-- A place that comes out right has nothing wrapped around and starts a block. -/
theorem firstByte_of_place {bl off : ℕ} (hbl : 0 < bl) (hoff : bl ∣ off)
    (h : u32 ((u32 pt.firstByte + off) / bl) * bl = pt.firstByte + off) :
    pt.firstByte < 2 ^ 32 ∧ bl ∣ pt.firstByte ∧ (pt.firstByte + off) / bl < 2 ^ 32 := by
  have hwrap := u32_le pt.firstByte
  have hlt := u32_lt pt.firstByte
  have hblk := Nat.mul_le_mul_right bl (u32_le ((u32 pt.firstByte + off) / bl))
  have hdiv := Nat.div_mul_le_self (u32 pt.firstByte + off) bl
  have heq : u32 pt.firstByte = pt.firstByte := by omega
  rw [heq] at h
  have hdvd : bl ∣ pt.firstByte + off := Dvd.intro_left _ h
  refine ⟨heq ▸ hlt, (Nat.dvd_add_left hoff).mp hdvd, ?_⟩
  have hsame : u32 ((pt.firstByte + off) / bl) = (pt.firstByte + off) / bl := by
    refine Nat.eq_of_mul_eq_mul_right hbl ?_
    rw [h, Nat.div_mul_cancel hdvd]
  exact hsame ▸ u32_lt _

section BlockRead
variable {isNull : Bool} {off size : UInt32}

/-- A block read that is accepted, when the size is whole blocks. -/
theorem flashBlockRead_whole (hfind : partitionFindByName partitions name = some pt)
    (hrange : ¬ u32 (off.toNat + size.toNat) > u32 pt.bytes) (hnull : ¬ isNull = true)
    (hoff : dev.readBlLen ∣ off.toNat) (hsize : dev.readBlLen ∣ size.toNat)
    (hpos : size.toNat ≠ 0) (s : ReadSession δ) :
    flashBlockRead dev partitions name isNull dst tmp off size s =
      ⟨if (s.blockRead dev ((u32 pt.firstByte + off.toNat) / dev.readBlLen)
          (size.toNat / dev.readBlLen) dst).1 > 0 then 0 else eIo,
        (s.blockRead dev ((u32 pt.firstByte + off.toNat) / dev.readBlLen)
          (size.toNat / dev.readBlLen) dst).2.1,
        (s.blockRead dev ((u32 pt.firstByte + off.toNat) / dev.readBlLen)
          (size.toNat / dev.readBlLen) dst).2.2⟩ := by
  have hcnt : size.toNat / dev.readBlLen ≠ 0 :=
    (Nat.div_pos (Nat.le_of_dvd (Nat.pos_of_ne_zero hpos) hsize) dev.readBlLen_pos).ne'
  rw [Partition.bytes] at hrange
  simp only [flashBlockRead, hfind]
  rw [if_neg hrange, if_neg fun h => h.elim hnull fun h => h (Nat.mod_eq_zero_of_dvd hoff),
    if_neg fun h => h.1 (Nat.mod_eq_zero_of_dvd hsize), if_pos hcnt]
  rfl

/-- The tail fails, and the call succeeds. -/
theorem flashBlockRead_tail (dst tmp : Mem) {bl : ℕ} (hbl : 0 < bl) (hbl' : bl ≤ 512)
    (hfind : partitionFindByName partitions name = some pt)
    (hrange : ¬ u32 (off.toNat + size.toNat) > u32 pt.bytes) (hnull : ¬ isNull = true)
    (hoff : bl ∣ off.toNat) (hsize : ¬ bl ∣ size.toNat) :
    (flashBlockRead (tiring bl hbl hbl') partitions name isNull dst tmp off size
        (ReadSession.initial (if size.toNat / bl = 0 then 0 else 1))).ret = 0 ∧
      (flashBlockRead (tiring bl hbl hbl') partitions name isNull dst tmp off size
        (ReadSession.initial (if size.toNat / bl = 0 then 0 else 1))).session.failed = true := by
  have htail : size.toNat % bl ≠ 0 := fun h => hsize (Nat.dvd_of_mod_eq_zero h)
  have hlt : size.toNat / bl < 2 ^ 32 := (Nat.div_le_self _ _).trans_lt size.toNat_lt
  have hone : u32 1 = 1 := rfl
  rw [Partition.bytes] at hrange
  simp only [flashBlockRead, hfind]
  rw [if_neg hrange, if_neg fun h => h.elim hnull fun h => h (Nat.mod_eq_zero_of_dvd hoff)]
  by_cases hcnt : size.toNat / bl = 0
  · simp [tiring, hcnt, htail, ReadSession.blockRead, ReadSession.initial, hone]
  · have hpos : 0 < size.toNat / bl := Nat.pos_of_ne_zero hcnt
    simp [tiring, hcnt, htail, ReadSession.blockRead, ReadSession.initial, hone, u32_of_lt hlt,
      hpos]

/-- On the device that reads everything a right call has read from the right place. -/
theorem place_of_right {bl : ℕ} (hbl : 0 < bl) (hbl' : bl ≤ 512) {call : ReadCall} (blk : ℕ)
    {cnt : ℕ} (hcnt : 0 < cnt) (hlt : cnt < 2 ^ 32) (hpos : (call.wanted pt).2 ≠ 0)
    (h : ∀ disk dst, ReadRight disk pt call dst
      ⟨if ((ReadSession.initial ()).blockRead (plain bl hbl hbl' disk) blk cnt dst).1 > 0
        then 0 else eIo,
        ((ReadSession.initial ()).blockRead (plain bl hbl hbl' disk) blk cnt dst).2.1,
        ((ReadSession.initial ()).blockRead (plain bl hbl hbl' disk) blk cnt dst).2.2⟩) :
    (call.wanted pt).1 + (call.wanted pt).2 ≤ pt.bytes ∧
      (call.wanted pt).2 ≤ cnt * bl ∧ u32 blk * bl = pt.firstByte + (call.wanted pt).1 := by
  have hread : ∀ disk dst, (ReadSession.initial ()).blockRead (plain bl hbl hbl' disk) blk cnt dst =
      (cnt, overlay dst 0 (cnt * bl) (advance disk (u32 blk * bl)),
        ⟨(), [⟨u32 blk, cnt⟩], false, []⟩) := by
    intro disk dst
    rw [ReadSession.blockRead, u32_of_lt hlt, if_neg hcnt.ne']
    rfl
  have hbytes : ∀ disk dst, (call.wanted pt).1 + (call.wanted pt).2 ≤ pt.bytes ∧
      ∀ i < (call.wanted pt).2, overlay dst 0 (cnt * bl) (advance disk (u32 blk * bl)) i =
        disk (pt.firstByte + (call.wanted pt).1 + i) := by
    intro disk dst
    have hright := h disk dst
    rw [hread, if_pos hcnt] at hright
    exact (hright.complete rfl).resolve_left hpos
  refine ⟨(hbytes (fun _ => 0) fun _ => 0).1, ?_, ?_⟩
  · -- a byte that was not read is not on a disk of ones
    by_contra hshort
    have hlast := (hbytes (fun _ => 1) fun _ => 0).2 (cnt * bl) (not_le.mp hshort)
    rw [overlay_of_not_mem _ _ (by omega)] at hlast
    exact absurd hlast (by decide)
  · -- a disk on which one byte is told apart
    have hfirst := (hbytes (fun a => if a = pt.firstByte + (call.wanted pt).1 then 1 else 0)
      fun _ => 0).2 0 (Nat.pos_of_ne_zero hpos)
    rw [overlay_of_mem _ _ le_rfl (by rw [Nat.zero_add]; exact Nat.mul_pos hcnt hbl),
      advance_apply] at hfirst
    simp only [Nat.sub_zero, Nat.add_zero, if_true] at hfirst
    by_contra hne
    rw [if_neg hne] at hfirst
    exact absurd hfirst (by decide)

theorem readFits_of_blockRead {bl : ℕ} (hbl : 0 < bl) (hbl' : bl ≤ 512)
    (hfind : partitionFindByName partitions name = some pt)
    (h : ReadsRight bl partitions name (.blockRead isNull off size)) :
    ReadFits bl pt (.blockRead isNull off size) := by
  by_contra hfits
  simp only [ReadFits, not_or, not_not] at hfits
  obtain ⟨hrange, hnull, hoff, hpos, hwhole⟩ := hfits
  have hsize : bl ∣ size.toNat := by
    by_contra hsize
    have hright := h ℕ (tiring bl hbl hbl') (if size.toNat / bl = 0 then 0 else 1) (fun _ => 0)
      (fun _ => 0) rfl
    rw [hfind] at hright
    have htail :=
      flashBlockRead_tail (fun _ => 0) (fun _ => 0) hbl hbl' hfind hrange hnull hoff hsize
    exact hright.honest htail.2 htail.1
  have hcnt : 0 < size.toNat / bl :=
    Nat.div_pos (Nat.le_of_dvd (Nat.pos_of_ne_zero hpos) hsize) hbl
  have hlt : size.toNat / bl < 2 ^ 32 := (Nat.div_le_self _ _).trans_lt size.toNat_lt
  have hwant : ((ReadCall.blockRead isNull off size).wanted pt).2 ≠ 0 := hpos
  obtain ⟨hinside, -, hplace⟩ := place_of_right hbl hbl'
    ((u32 pt.firstByte + off.toNat) / bl) hcnt hlt hwant fun disk dst => by
      have hright := h Unit (plain bl hbl hbl' disk) () dst dst rfl
      rw [hfind] at hright
      change ReadRight _ _ _ _ (flashBlockRead _ _ _ _ _ _ _ _ _) at hright
      rwa [flashBlockRead_whole hfind hrange hnull hoff hsize hpos] at hright
  exact hwhole ⟨hsize, hinside, firstByte_of_place hbl hoff hplace⟩

theorem blockRead_right {call : ReadCall} (hcall : call = .blockRead isNull off size)
    (hfind : partitionFindByName partitions name = some pt)
    (h : ReadFits dev.readBlLen pt call) (d : δ) :
    ReadRight dev.disk pt call dst
      (flashBlockRead dev partitions name isNull dst tmp off size (ReadSession.initial d)) := by
  subst hcall
  by_cases hrange : u32 (off.toNat + size.toNat) > u32 pt.bytes
  · simp only [flashBlockRead, hfind]
    rw [Partition.bytes] at hrange
    rw [if_pos hrange]
    exact right_of_refused (.inl (by decide)) rfl
  by_cases hnull : isNull = true
  · simp only [flashBlockRead, hfind]
    rw [Partition.bytes] at hrange
    rw [if_neg hrange, if_pos (.inl hnull)]
    exact right_of_refused (.inl (by decide)) rfl
  by_cases hoff : dev.readBlLen ∣ off.toNat
  swap
  · simp only [flashBlockRead, hfind]
    rw [Partition.bytes] at hrange
    rw [if_neg hrange, if_pos (.inr fun h => hoff (Nat.dvd_of_mod_eq_zero h))]
    exact right_of_refused (.inl (by decide)) rfl
  have hrest := ((h.resolve_left hrange).resolve_left hnull).resolve_left (not_not.mpr hoff)
  by_cases hzero : size.toNat = 0
  · have hempty : flashBlockRead dev partitions name isNull dst tmp off size
        (ReadSession.initial d) = ⟨0, dst, ReadSession.initial d⟩ := by
      rw [Partition.bytes] at hrange
      simp only [flashBlockRead, hfind]
      rw [if_neg hrange, if_neg fun h => h.elim hnull fun h => h (Nat.mod_eq_zero_of_dvd hoff),
        hzero, Nat.zero_mod, Nat.zero_div, if_neg fun h => h.1 rfl, if_neg fun h => h rfl]
    rw [hempty]
    exact right_of_refused (.inr hzero) rfl
  · have hwhole := hrest.resolve_left hzero
    have hsize := hwhole.1
    rw [flashBlockRead_whole hfind hrange hnull hoff hsize hzero]
    have hcnt := Nat.div_pos (Nat.le_of_dvd (Nat.pos_of_ne_zero hzero) hsize) dev.readBlLen_pos
    exact right_of_blocks (.blockRead isNull off size) hcnt
      ((Nat.div_le_self _ _).trans_lt size.toNat_lt) rfl
      (show size.toNat = _ from (Nat.div_mul_cancel hsize).symm) hwhole.2.1
      (place_of_wholeBlocks hwhole hoff) d

end BlockRead

section PartitionRead
variable {size : UInt32} {call : ReadCall}

theorem flashPartitionRead_of_find (hfind : partitionFindByName partitions name = some pt)
    (s : ReadSession δ) :
    flashPartitionRead dev partitions name dst size s =
      ⟨if (s.blockRead dev (u32 pt.firstByte / dev.readBlLen)
          (min size.toNat (u32 pt.bytes) / dev.readBlLen) dst).1 > 0 then 0 else eIo,
        (s.blockRead dev (u32 pt.firstByte / dev.readBlLen)
          (min size.toNat (u32 pt.bytes) / dev.readBlLen) dst).2.1,
        (s.blockRead dev (u32 pt.firstByte / dev.readBlLen)
          (min size.toNat (u32 pt.bytes) / dev.readBlLen) dst).2.2⟩ := by
  have hmin : (if u32 (pt.sectorSize * pt.length) > size.toNat then size.toNat
      else u32 (pt.sectorSize * pt.length)) = min size.toNat (u32 pt.bytes) := by
    rw [Partition.bytes]
    split <;> omega
  simp only [flashPartitionRead, hfind, hmin]
  rfl

/-- What a partition read that is right has asked for. -/
theorem readFits_of_partitionRead {bl : ℕ} (hbl : 0 < bl) (hbl' : bl ≤ 512)
    (hfind : partitionFindByName partitions name = some pt)
    (hcall : call = .partitionRead size ∨ call = .partitionReadAll size)
    (h : ReadsRight bl partitions name call) : ReadFits bl pt call := by
  have hwant : call.wanted pt = (0, min size.toNat pt.bytes) := by
    rcases hcall with rfl | rfl <;> rfl
  have hdone : ∀ (dev : ReadDev Unit) (dst tmp : Mem) (s : ReadSession Unit),
      readCall dev partitions name call dst tmp s =
        flashPartitionRead dev partitions name dst size s := by
    rcases hcall with rfl | rfl <;> exact fun _ _ _ _ => rfl
  have hfits : min size.toNat (u32 pt.bytes) < bl ∨
      min size.toNat (u32 pt.bytes) = min size.toNat pt.bytes ∧
      WholeBlocks bl pt 0 (min size.toNat pt.bytes) := by
    rw [or_iff_not_imp_left, not_lt]
    intro hlong
    have hcnt : 0 < min size.toNat (u32 pt.bytes) / bl := Nat.div_pos hlong hbl
    have hlt : min size.toNat (u32 pt.bytes) / bl < 2 ^ 32 :=
      (Nat.div_le_self _ _).trans_lt ((Nat.min_le_left _ _).trans_lt size.toNat_lt)
    have hwrap := u32_le pt.bytes
    have hblocks := Nat.div_mul_le_self (min size.toNat (u32 pt.bytes)) bl
    have hpos : (call.wanted pt).2 ≠ 0 := by
      rw [hwant]
      dsimp only
      omega
    have hplace := place_of_right hbl hbl' (u32 pt.firstByte / bl) hcnt hlt hpos
      fun disk dst => by
        have hright := h Unit (plain bl hbl hbl' disk) () dst dst rfl
        rw [hfind] at hright
        change ReadRight _ _ _ _ (readCall _ _ _ _ _ _ _) at hright
        rwa [hdone, flashPartitionRead_of_find hfind] at hright
    rw [hwant] at hplace
    obtain ⟨hinside, henough, hplace⟩ := hplace
    dsimp only at hinside henough hplace
    -- the blocks are at least what is wanted and at most what the code asks for
    have hsame : min size.toNat (u32 pt.bytes) = min size.toNat pt.bytes := by omega
    refine ⟨hsame, ?_, hinside, firstByte_of_place hbl (Nat.dvd_zero bl) hplace⟩
    rw [hsame] at henough hblocks
    exact Dvd.intro_left _ (le_antisymm hblocks henough)
  rcases hcall with rfl | rfl <;> exact hfits

theorem partitionRead_right (hfind : partitionFindByName partitions name = some pt)
    (hcall : call = .partitionRead size ∨ call = .partitionReadAll size)
    (h : ReadFits dev.readBlLen pt call) (d : δ) :
    ReadRight dev.disk pt call dst
      (flashPartitionRead dev partitions name dst size (ReadSession.initial d)) := by
  have hwant : call.wanted pt = (0, min size.toNat pt.bytes) := by
    rcases hcall with rfl | rfl <;> rfl
  have hfits : min size.toNat (u32 pt.bytes) < dev.readBlLen ∨
      min size.toNat (u32 pt.bytes) = min size.toNat pt.bytes ∧
      WholeBlocks dev.readBlLen pt 0 (min size.toNat pt.bytes) := by
    rcases hcall with rfl | rfl <;> exact h
  rw [flashPartitionRead_of_find hfind]
  rcases Nat.lt_or_ge (min size.toNat (u32 pt.bytes)) dev.readBlLen with hshort | hlong
  · -- no whole block: the read of none counts as a failure
    rw [Nat.div_eq_of_lt hshort]
    exact right_of_refused (.inl (show eIo ≠ 0 by decide)) rfl
  · obtain ⟨hsame, hwhole⟩ := hfits.resolve_left (not_lt.mpr hlong)
    rw [hsame] at hlong ⊢
    have hlt : min size.toNat pt.bytes / dev.readBlLen < 2 ^ 32 :=
      (Nat.div_le_self _ _).trans_lt ((Nat.min_le_left _ _).trans_lt size.toNat_lt)
    exact right_of_blocks call (Nat.div_pos hlong dev.readBlLen_pos) hlt rfl
      (by rw [hwant, Nat.div_mul_cancel hwhole.1]) (by rw [hwant]; exact hwhole.2.1)
      (by rw [hwant]; exact place_of_wholeBlocks hwhole (Nat.dvd_zero _)) d

end PartitionRead

/-- Right on every device if and only if there is no such partition, the call is refused, or
it asks for whole blocks that are below 4 GiB. -/
theorem readsRight_iff {bl : ℕ} (hbl : 0 < bl) (hbl' : bl ≤ 512) (partitions : List Partition)
    (name : Option String) (call : ReadCall) :
    ReadsRight bl partitions name call ↔
      ∀ pt, partitionFindByName partitions name = some pt → ReadFits bl pt call := by
  constructor
  · intro h pt hfind
    cases call with
    | blockRead isNull off size => exact readFits_of_blockRead hbl hbl' hfind h
    | partitionRead size => exact readFits_of_partitionRead hbl hbl' hfind (.inl rfl) h
    | partitionReadAll size => exact readFits_of_partitionRead hbl hbl' hfind (.inr rfl) h
  · intro h δ dev d dst tmp hdev
    subst hdev
    cases hfind : partitionFindByName partitions name with
    | none =>
      cases call <;>
        simp [readCall, flashBlockRead, flashPartitionRead, flashPartitionReadAll, hfind, eInval,
          ReadSession.putError]
    | some pt =>
      cases call with
      | blockRead isNull off size => exact blockRead_right rfl hfind (h pt hfind) d
      | partitionRead size => exact partitionRead_right hfind (.inl rfl) (h pt hfind) d
      | partitionReadAll size => exact partitionRead_right hfind (.inr rfl) (h pt hfind) d

end Reads

/-- A whole partition. -/
theorem bootAndLogo_read : ReadsRight 512 bootAndLogo (some "logo") (.blockRead false 0 8192) := by
  refine (readsRight_iff (by decide) (by decide) bootAndLogo (some "logo") _).mpr ?_
  rintro pt ⟨⟩
  exact .inr (.inr (.inr (.inr ⟨by decide, by decide, by decide, by decide, by decide⟩)))

/-- A hundred bytes, whose only read may fail. -/
theorem tail_read_fails_unnoticed : ¬ ∀ (bl : ℕ) (partitions : List Partition)
    (name : Option String) (call : ReadCall), 0 < bl → bl ≤ 512 →
    ReadsRight bl partitions name call := by
  intro hall
  have hfits := readFits_of_blockRead (by decide) (by decide)
    (show partitionFindByName bootAndLogo (some "logo") = _ from rfl)
    (hall 512 bootAndLogo (some "logo") (.blockRead false 0 100) (by decide) (by decide))
  rcases hfits with h | h | h | h | h
  · exact absurd h (by decide)
  · exact absurd h (by decide)
  · exact absurd h (by decide)
  · exact absurd h (by decide)
  · exact absurd h.1 (by decide)

end UBoot.Flash
