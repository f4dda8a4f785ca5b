import UBoot.Flash.PartitionReads

/-!
# The range checks of the partition calls

`flash_block_read`, `flash_block_write` and `flash_partition_write` compare 32-bit sums and
products with each other and divide what is left of the products by the block length;
`flash_partition_read` cuts its length down to the partition instead. What they accept and
where they start does not depend on the device.
-/
namespace UBoot.Flash
open ByteStore

/-- The four calls. -/
inductive RangeCall where
  | blockRead (offstart size : UInt32)
  | blockWrite (offstart size : UInt32)
  | partitionWrite (size : UInt32)
  | partitionRead (size : UInt32)

def RangeCall.offstart : RangeCall → UInt32
  | .blockRead offstart _ | .blockWrite offstart _ => offstart
  | .partitionWrite _ | .partitionRead _ => 0

def RangeCall.size : RangeCall → UInt32
  | .blockRead _ size | .blockWrite _ size | .partitionWrite size | .partitionRead size => size

/-- The result of a call, and the blocks it addressed, newest first. -/
structure Outcome where
  ret : ℤ
  requests : List Request

section Functions
variable {δ ε : Type} (rdev : ReadDev δ) (wdev : BlockDev ε) (partitions : List Partition)
  (name : Option String) (buffer tmp : Mem)

/-- A call with a buffer, which a read fills and a write writes. -/
def rangeCall (call : RangeCall) (d : δ) (e : ε) : Outcome :=
  match call with
  | .blockRead offstart size =>
    let r := flashBlockRead rdev partitions name false buffer tmp offstart size
      (ReadSession.initial d)
    ⟨r.ret, r.session.requests⟩
  | .blockWrite offstart size =>
    let r := flashBlockWrite wdev partitions name buffer offstart size (Session.initial e)
    ⟨r.1, r.2.requests⟩
  | .partitionWrite size =>
    let r := flashPartitionWrite wdev partitions name buffer size (Session.initial e)
    ⟨r.1, r.2.requests⟩
  | .partitionRead size =>
    let r := flashPartitionRead rdev partitions name buffer size (ReadSession.initial d)
    ⟨r.ret, r.session.requests⟩

end Functions

/-- The first block addressed is the partition's first block, plus the blocks of the offset. -/
def FirstBlock (bl : ℕ) (pt : Partition) (off : ℕ) (requests : List Request) : Prop :=
  ∀ r, requests.getLast? = some r → r.cnt ≠ 0 → r.blk = pt.firstByte / bl + off / bl

/-- Accepted if and only if it fits, and starting at the right block; `flash_partition_read`
reads the shorter of the buffer and the partition. -/
def RangeRight (bl : ℕ) (pt : Partition) (call : RangeCall) (o : Outcome) : Prop :=
  FirstBlock bl pt call.offstart.toNat o.requests ∧
  match call with
  | .partitionRead size =>
    (o.requests.map Request.cnt).sum * bl = min size.toNat pt.bytes
  | call => o.ret ≠ eInval ↔ call.offstart.toNat + call.size.toNat ≤ pt.bytes

/-- `t` and `b` compare as their lower 32 bits do. -/
def CompareExact (t b : ℕ) : Prop :=
  t / 2 ^ 32 = b / 2 ^ 32 ∨ t / 2 ^ 32 < b / 2 ^ 32 ∧ u32 t ≤ u32 b ∨
    b / 2 ^ 32 < t / 2 ^ 32 ∧ u32 b < u32 t

/-- The partition starts below 4 GiB, and the block at the offset has a 32-bit number. -/
def StartsLow (bl : ℕ) (pt : Partition) (off : ℕ) : Prop :=
  pt.firstByte < 2 ^ 32 ∧ (pt.firstByte + off) / bl < 2 ^ 32

/-- When the start does not wrap around. Less than a block is looked for at its end. -/
def StartExact (bl : ℕ) (pt : Partition) : RangeCall → Prop
  | .blockRead offstart size => size.toNat = 0 ∨ StartsLow bl pt offstart.toNat ∧
      (bl ≤ size.toNat ∨ pt.firstByte % bl + size.toNat < bl)
  | .blockWrite offstart size => size.toNat = 0 ∨ StartsLow bl pt offstart.toNat
  | .partitionWrite size => u32 (size.toNat / bl + 1) = 0 ∨ StartsLow bl pt 0
  | .partitionRead size => min size.toNat pt.bytes = 0 ∨ StartsLow bl pt 0

/-- When nothing that matters wraps around. -/
def RangeExact (bl : ℕ) (pt : Partition) (call : RangeCall) : Prop :=
  match call with
  | .partitionRead size =>
    min size.toNat (u32 pt.bytes) = min size.toNat pt.bytes ∧
      bl ∣ min size.toNat pt.bytes ∧ StartExact bl pt call
  | call => CompareExact (call.offstart.toNat + call.size.toNat) pt.bytes ∧
      (pt.bytes < call.offstart.toNat + call.size.toNat ∨ StartExact bl pt call)

section Words
variable {bl off : ℕ} {pt : Partition}

theorem compareExact_iff (t b : ℕ) : (u32 t ≤ u32 b ↔ t ≤ b) ↔ CompareExact t b := by
  unfold CompareExact u32
  omega

/-- A block too many is wrapped away from a start beyond 4 GiB. -/
theorem wrapped_block_lt {extra : ℕ} (hbl : 0 < bl) (hhigh : 2 ^ 32 ≤ pt.firstByte)
    (hextra : extra + bl ≤ 2 ^ 32) :
    u32 ((u32 pt.firstByte + off + extra) / bl) < (pt.firstByte + off) / bl := by
  have hwrap : u32 pt.firstByte + 2 ^ 32 ≤ pt.firstByte := by
    unfold u32
    omega
  calc u32 ((u32 pt.firstByte + off + extra) / bl)
      ≤ (u32 pt.firstByte + off + extra) / bl := u32_le _
    _ < (u32 pt.firstByte + off + extra) / bl + 1 := Nat.lt_succ_self _
    _ = (u32 pt.firstByte + off + extra + bl) / bl := (Nat.add_div_right _ hbl).symm
    _ ≤ (pt.firstByte + off) / bl := Nat.div_le_div_right (by omega)

/-- The block at an aligned offset. -/
theorem startsLow_iff (hbl : 0 < bl) (hbl' : bl ≤ 512) (hoff : bl ∣ off) :
    u32 ((u32 pt.firstByte + off) / bl) = pt.firstByte / bl + off / bl ↔
      StartsLow bl pt off := by
  rw [← Nat.add_div_of_dvd_left hoff]
  constructor
  · intro h
    rcases Nat.lt_or_ge pt.firstByte (2 ^ 32) with hlow | hhigh
    · rw [u32_of_lt hlow] at h
      exact ⟨hlow, h ▸ u32_lt _⟩
    · have hlt : u32 ((u32 pt.firstByte + off + 0) / bl) < (pt.firstByte + off) / bl :=
        wrapped_block_lt hbl hhigh (by omega)
      exact absurd h hlt.ne
  · rintro ⟨hlow, hblk⟩
    rw [u32_of_lt hlow, u32_of_lt hblk]

/-- The block at the end of less than a block. -/
theorem startsLow_tail_iff {size : ℕ} (hbl : 0 < bl) (hbl' : bl ≤ 512) (hoff : bl ∣ off)
    (hsize : size < bl) :
    u32 ((u32 pt.firstByte + off + size) / bl) = pt.firstByte / bl + off / bl ↔
      StartsLow bl pt off ∧ pt.firstByte % bl + size < bl := by
  rw [← Nat.add_div_of_dvd_left hoff]
  have hmod : (pt.firstByte + off) % bl = pt.firstByte % bl := by
    obtain ⟨k, rfl⟩ := hoff
    exact Nat.add_mul_mod_self_left ..
  have hsplit : (pt.firstByte + off + size) / bl =
      (pt.firstByte + off) / bl + (pt.firstByte % bl + size) / bl := by
    have hparts := Nat.div_add_mod (pt.firstByte + off) bl
    calc (pt.firstByte + off + size) / bl
        = (bl * ((pt.firstByte + off) / bl) + (pt.firstByte % bl + size)) / bl := by
          rw [← hmod, ← Nat.add_assoc, hparts]
      _ = (pt.firstByte + off) / bl + (pt.firstByte % bl + size) / bl :=
          Nat.mul_add_div hbl _ _
  constructor
  · intro h
    rcases Nat.lt_or_ge pt.firstByte (2 ^ 32) with hlow | hhigh
    · rw [u32_of_lt hlow, hsplit] at h
      have hblk : (pt.firstByte + off) / bl < 2 ^ 32 := h ▸ u32_lt _
      refine ⟨⟨hlow, hblk⟩, ?_⟩
      have hmodlt := Nat.mod_lt pt.firstByte hbl
      by_contra hge
      have hone : (pt.firstByte % bl + size) / bl = 1 :=
        Nat.div_eq_of_lt_le (by omega) (by omega)
      rw [hone] at h
      unfold u32 at h
      omega
    · exact absurd h (wrapped_block_lt hbl hhigh (by omega)).ne
  · rintro ⟨⟨hlow, hblk⟩, hshort⟩
    rw [u32_of_lt hlow, hsplit, Nat.div_eq_of_lt hshort, Nat.add_zero, u32_of_lt hblk]

end Words

theorem firstBlock_nil (bl : ℕ) (pt : Partition) (off : ℕ) : FirstBlock bl pt off [] :=
  fun _ h => absurd h (by simp)

theorem firstBlock_iff {bl off blk cnt : ℕ} {pt : Partition} {requests : List Request}
    (h : requests.getLast? = some ⟨blk, cnt⟩) :
    FirstBlock bl pt off requests ↔ cnt = 0 ∨ blk = pt.firstByte / bl + off / bl := by
  unfold FirstBlock
  simp only [h, Option.some.injEq, forall_eq']
  exact or_iff_not_imp_left.symm

section Reads
variable {δ : Type} {dev : ReadDev δ} {partitions : List Partition} {name : Option String}
  {pt : Partition} {buffer tmp : Mem} {off size : UInt32}

theorem blockRead_requests (blk : ℕ) {cnt : ℕ} (hlt : cnt < 2 ^ 32) (dst : Mem)
    (s : ReadSession δ) :
    (s.blockRead dev blk cnt dst).2.2.requests =
      if cnt = 0 then s.requests else ⟨u32 blk, cnt⟩ :: s.requests := by
  rw [ReadSession.blockRead, u32_of_lt hlt]
  split
  · rfl
  · dsimp only
    split <;> rfl

/-- A block read that the check passes. -/
theorem flashBlockRead_accepted (hfind : partitionFindByName partitions name = some pt)
    (hrange : u32 (off.toNat + size.toNat) ≤ u32 pt.bytes) (hoff : dev.readBlLen ∣ off.toNat)
    (d : δ) :
    (flashBlockRead dev partitions name false buffer tmp off size
        (ReadSession.initial d)).ret ≠ eInval ∧
      (flashBlockRead dev partitions name false buffer tmp off size
        (ReadSession.initial d)).session.requests.getLast? =
      if size.toNat = 0 then none
      else if dev.readBlLen ≤ size.toNat then
        some ⟨u32 ((u32 pt.firstByte + off.toNat) / dev.readBlLen),
          size.toNat / dev.readBlLen⟩
      else some ⟨u32 ((u32 pt.firstByte + off.toNat + size.toNat) / dev.readBlLen), 1⟩ := by
  have hlt : size.toNat / dev.readBlLen < 2 ^ 32 :=
    (Nat.div_le_self _ _).trans_lt size.toNat_lt
  rw [Partition.bytes] at hrange
  simp only [flashBlockRead, hfind]
  rw [if_neg (not_lt.mpr hrange),
    if_neg fun h => h.elim Bool.false_ne_true fun h => h (Nat.mod_eq_zero_of_dvd hoff)]
  rcases Nat.lt_or_ge size.toNat dev.readBlLen with hshort | hlong
  · rw [Nat.div_eq_of_lt hshort, Nat.mod_eq_of_lt hshort, if_neg (not_le.mpr hshort)]
    simp only [ne_eq, not_true_eq_false, if_false]
    by_cases hzero : size.toNat = 0
    · rw [if_neg fun h => h.1 hzero, if_pos hzero]
      exact ⟨show (0 : ℤ) ≠ eInval by decide, rfl⟩
    · rw [if_pos ⟨hzero, trivial⟩, if_neg hzero]
      refine ⟨?_, ?_⟩
      · dsimp only
        split <;> exact show (0 : ℤ) ≠ eInval by decide
      · dsimp only
        rw [blockRead_requests _ (by decide)]
        rfl
  · have hpos : 0 < size.toNat / dev.readBlLen := Nat.div_pos hlong dev.readBlLen_pos
    have hsize : size.toNat ≠ 0 := by
      have := dev.readBlLen_pos
      omega
    rw [if_neg hsize, if_pos hlong]
    simp only [hpos.ne', ne_eq, not_false_eq_true, if_true]
    split
    · -- the whole blocks were read, and the tail may be
      simp only [ite_self]
      split
      · refine ⟨show (0 : ℤ) ≠ eInval by decide, ?_⟩
        dsimp only
        rw [blockRead_requests _ (by decide), blockRead_requests _ hlt, if_neg hpos.ne']
        rfl
      · refine ⟨show (0 : ℤ) ≠ eInval by decide, ?_⟩
        dsimp only
        rw [blockRead_requests _ hlt, if_neg hpos.ne']
        rfl
    · rw [if_neg fun h => absurd h.2 (show eIo ≠ 0 by decide)]
      refine ⟨show eIo ≠ eInval by decide, ?_⟩
      dsimp only
      rw [blockRead_requests _ hlt, if_neg hpos.ne']
      rfl

theorem flashBlockRead_refused (hfind : partitionFindByName partitions name = some pt)
    (hrange : ¬ u32 (off.toNat + size.toNat) ≤ u32 pt.bytes) (d : δ) :
    (flashBlockRead dev partitions name false buffer tmp off size
        (ReadSession.initial d)).ret = eInval ∧
      (flashBlockRead dev partitions name false buffer tmp off size
        (ReadSession.initial d)).session.requests = [] := by
  rw [Partition.bytes] at hrange
  simp only [flashBlockRead, hfind]
  rw [if_pos (not_le.mp hrange)]
  exact ⟨rfl, rfl⟩

end Reads

section Writes
variable {δ : Type} {dev : BlockDev δ} {partitions : List Partition} {name : Option String}
  {pt : Partition} {buffer : Mem}

theorem flashBlocks_ret (blk cnt : ℕ) (s : Session δ) :
    (flashBlocks dev buffer blk cnt s).1 ≠ eInval := by
  simp only [flashBlocks]
  split <;> decide

theorem flashBlockWrite_accepted (hfind : partitionFindByName partitions name = some pt)
    {off size : UInt32} (hrange : u32 (off.toNat + size.toNat) ≤ u32 pt.bytes) (s : Session δ) :
    flashBlockWrite dev partitions name buffer off size s =
      flashBlocks dev buffer ((u32 pt.firstByte + off.toNat) / dev.blLen)
        (blocksUp size.toNat dev.blLen) s := by
  rw [Partition.bytes] at hrange
  simp only [flashBlockWrite, hfind]
  rw [if_neg (not_lt.mpr hrange)]
  rfl

theorem flashPartitionWrite_accepted (hfind : partitionFindByName partitions name = some pt)
    {size : UInt32} (hrange : size.toNat ≤ u32 pt.bytes) (s : Session δ) :
    flashPartitionWrite dev partitions name buffer size s =
      flashBlocks dev buffer (u32 pt.firstByte / dev.blLen) (size.toNat / dev.blLen + 1) s := by
  rw [Partition.bytes] at hrange
  simp only [flashPartitionWrite, hfind]
  rw [if_neg (not_lt.mpr hrange)]
  rfl

end Writes

section Ranges
variable {bl : ℕ} {pt : Partition} {off size : UInt32}

/-- The check comes out right, and then the start does. -/
theorem rangeRight_iff_of_check {call : RangeCall} {o : Outcome}
    (hcall : ∀ size, call ≠ .partitionRead size)
    (hrefused : ¬ u32 (call.offstart.toNat + call.size.toNat) ≤ u32 pt.bytes →
      o.ret = eInval ∧ o.requests = [])
    (haccepted : u32 (call.offstart.toNat + call.size.toNat) ≤ u32 pt.bytes → o.ret ≠ eInval ∧
      (FirstBlock bl pt call.offstart.toNat o.requests ↔ StartExact bl pt call)) :
    RangeRight bl pt call o ↔ RangeExact bl pt call := by
  have hsplit : RangeRight bl pt call o ↔ FirstBlock bl pt call.offstart.toNat o.requests ∧
      (o.ret ≠ eInval ↔ call.offstart.toNat + call.size.toNat ≤ pt.bytes) := by
    cases call with
    | partitionRead size => exact absurd rfl (hcall size)
    | _ => exact Iff.rfl
  have hexact : RangeExact bl pt call ↔
      CompareExact (call.offstart.toNat + call.size.toNat) pt.bytes ∧
        (pt.bytes < call.offstart.toNat + call.size.toNat ∨ StartExact bl pt call) := by
    cases call with
    | partitionRead size => exact absurd rfl (hcall size)
    | _ => exact Iff.rfl
  rw [hsplit, hexact, ← compareExact_iff]
  by_cases h : u32 (call.offstart.toNat + call.size.toNat) ≤ u32 pt.bytes
  · obtain ⟨hret, hfirst⟩ := haccepted h
    rw [hfirst, iff_true_left hret, iff_true_left h]
    constructor
    · rintro ⟨hstart, hle⟩
      exact ⟨hle, .inr hstart⟩
    · rintro ⟨hle, hstart⟩
      exact ⟨hstart.resolve_left (not_lt.mpr hle), hle⟩
  · obtain ⟨hret, hreq⟩ := hrefused h
    rw [iff_false_left h, iff_false_left (not_not.mpr hret), hreq,
      and_iff_right (firstBlock_nil _ _ _)]
    exact ⟨fun hlt => ⟨hlt, .inl (not_le.mp hlt)⟩, And.left⟩

variable {δ ε : Type} {rdev : ReadDev δ} {wdev : BlockDev ε} {partitions : List Partition}
  {name : Option String} {buffer tmp : Mem}

theorem blockRead_rangeRight_iff (hfind : partitionFindByName partitions name = some pt)
    (hoff : rdev.readBlLen ∣ off.toNat) (d : δ) (e : ε) :
    RangeRight rdev.readBlLen pt (.blockRead off size)
        (rangeCall rdev wdev partitions name buffer tmp (.blockRead off size) d e) ↔
      RangeExact rdev.readBlLen pt (.blockRead off size) := by
  have hbl := rdev.readBlLen_pos
  refine rangeRight_iff_of_check (by simp) (fun h => flashBlockRead_refused hfind h d)
    fun h => ?_
  change u32 (off.toNat + size.toNat) ≤ u32 pt.bytes at h
  obtain ⟨hret, hreq⟩ := @flashBlockRead_accepted δ rdev _ _ _ buffer tmp _ _ hfind h hoff d
  refine ⟨hret, ?_⟩
  simp only [RangeCall.offstart, rangeCall, StartExact]
  by_cases hzero : size.toNat = 0
  · rw [if_pos hzero, List.getLast?_eq_none_iff] at hreq
    rw [hreq]
    exact iff_of_true (firstBlock_nil _ _ _) (.inl hzero)
  rw [if_neg hzero] at hreq
  by_cases hlong : rdev.readBlLen ≤ size.toNat
  · rw [if_pos hlong] at hreq
    rw [firstBlock_iff hreq, or_iff_right (Nat.div_pos hlong hbl).ne',
      startsLow_iff hbl rdev.readBlLen_le hoff, or_iff_right hzero, and_iff_left (.inl hlong)]
  · rw [if_neg hlong] at hreq
    rw [firstBlock_iff hreq, or_iff_right one_ne_zero,
      startsLow_tail_iff hbl rdev.readBlLen_le hoff (not_le.mp hlong), or_iff_right hzero,
      or_iff_right hlong]

theorem blockWrite_rangeRight_iff (hfind : partitionFindByName partitions name = some pt)
    (hbl' : wdev.blLen ≤ 512) (hoff : wdev.blLen ∣ off.toNat) (d : δ) (e : ε) :
    RangeRight wdev.blLen pt (.blockWrite off size)
        (rangeCall rdev wdev partitions name buffer tmp (.blockWrite off size) d e) ↔
      RangeExact wdev.blLen pt (.blockWrite off size) := by
  have hbl := wdev.blLen_pos
  have hcnt : u32 (blocksUp size.toNat wdev.blLen) = 0 ↔ size.toNat = 0 := by
    have hle := blocksUp_le_self size.toNat hbl
    rw [u32_of_lt (hle.trans_lt size.toNat_lt), ← Nat.le_zero, blocksUp_le_iff _ _ hbl,
      Nat.zero_mul, Nat.le_zero]
  refine rangeRight_iff_of_check (by simp) (fun h => ?_) fun h => ?_
  · simp only [RangeCall.offstart, RangeCall.size, Partition.bytes] at h
    simp only [rangeCall, flashBlockWrite, hfind]
    rw [if_pos (not_le.mp h)]
    exact ⟨rfl, rfl⟩
  · simp only [RangeCall.offstart, RangeCall.size] at h
    simp only [rangeCall, flashBlockWrite_accepted hfind h, RangeCall.offstart, StartExact]
    refine ⟨flashBlocks_ret _ _ _, (firstBlock_iff rfl).trans ?_⟩
    rw [hcnt, startsLow_iff hbl hbl' hoff]

theorem partitionWrite_rangeRight_iff (hfind : partitionFindByName partitions name = some pt)
    (hbl' : wdev.blLen ≤ 512) (d : δ) (e : ε) :
    RangeRight wdev.blLen pt (.partitionWrite size)
        (rangeCall rdev wdev partitions name buffer tmp (.partitionWrite size) d e) ↔
      RangeExact wdev.blLen pt (.partitionWrite size) := by
  have hsize : u32 ((0 : UInt32).toNat + size.toNat) = size.toNat := by
    rw [UInt32.toNat_zero, Nat.zero_add, u32_of_lt size.toNat_lt]
  refine rangeRight_iff_of_check (by simp) (fun h => ?_) fun h => ?_
  · simp only [RangeCall.offstart, RangeCall.size, hsize, Partition.bytes] at h
    simp only [rangeCall, flashPartitionWrite, hfind]
    rw [if_pos (not_le.mp h)]
    exact ⟨rfl, rfl⟩
  · simp only [RangeCall.offstart, RangeCall.size, hsize] at h
    simp only [rangeCall, flashPartitionWrite_accepted hfind h, RangeCall.offstart, StartExact]
    refine ⟨flashBlocks_ret _ _ _, (firstBlock_iff rfl).trans ?_⟩
    rw [← startsLow_iff wdev.blLen_pos hbl' (Nat.dvd_zero _)]
    rfl

theorem partitionRead_rangeRight_iff (hfind : partitionFindByName partitions name = some pt)
    (d : δ) (e : ε) :
    RangeRight rdev.readBlLen pt (.partitionRead size)
        (rangeCall rdev wdev partitions name buffer tmp (.partitionRead size) d e) ↔
      RangeExact rdev.readBlLen pt (.partitionRead size) := by
  have hbl := rdev.readBlLen_pos
  have hlt : min size.toNat (u32 pt.bytes) / rdev.readBlLen < 2 ^ 32 :=
    (Nat.div_le_self _ _).trans_lt ((Nat.min_le_left _ _).trans_lt size.toNat_lt)
  have hwhole : min size.toNat (u32 pt.bytes) / rdev.readBlLen * rdev.readBlLen =
      min size.toNat pt.bytes ↔ min size.toNat (u32 pt.bytes) = min size.toNat pt.bytes ∧
        rdev.readBlLen ∣ min size.toNat pt.bytes := by
    constructor
    · intro h
      have hwrap := u32_le pt.bytes
      have hdiv := Nat.div_mul_le_self (min size.toNat (u32 pt.bytes)) rdev.readBlLen
      exact ⟨by omega, Dvd.intro_left _ h⟩
    · rintro ⟨hsame, hdvd⟩
      rw [hsame, Nat.div_mul_cancel hdvd]
  simp only [RangeRight, rangeCall, flashPartitionRead_of_find hfind, RangeExact]
  rw [blockRead_requests _ hlt, ← and_assoc, ← hwhole, StartExact]
  by_cases hcnt : min size.toNat (u32 pt.bytes) / rdev.readBlLen = 0
  · rw [if_pos hcnt, hcnt, Nat.zero_mul]
    simp only [ReadSession.initial, List.map_nil, List.sum_nil, Nat.zero_mul]
    rw [and_iff_right (firstBlock_nil _ _ _)]
    exact ⟨fun h => ⟨h, .inl h.symm⟩, And.left⟩
  · have hstart : FirstBlock rdev.readBlLen pt (0 : UInt32).toNat
        [⟨u32 (u32 pt.firstByte / rdev.readBlLen),
          min size.toNat (u32 pt.bytes) / rdev.readBlLen⟩] ↔ StartsLow rdev.readBlLen pt 0 := by
      rw [firstBlock_iff rfl, or_iff_right hcnt,
        ← startsLow_iff hbl rdev.readBlLen_le (Nat.dvd_zero _)]
      rfl
    rw [if_neg hcnt]
    simp only [RangeCall.offstart, ReadSession.initial, List.map_cons, List.map_nil,
      List.sum_cons, List.sum_nil, Nat.add_zero, hstart]
    rw [and_comm]
    refine and_congr_right fun h => (or_iff_right ?_).symm
    rw [← h]
    exact (Nat.mul_pos (Nat.pos_of_ne_zero hcnt) hbl).ne'

end Ranges

/-- On every device and for every block-aligned offset, the calls on a partition do what the
exact numbers say if and only if nothing that matters wraps around. -/
theorem rangeRight_iff {δ ε : Type} (rdev : ReadDev δ) (wdev : BlockDev ε)
    (hlen : wdev.blLen = rdev.readBlLen) {partitions : List Partition} {name : Option String}
    {pt : Partition} (hfind : partitionFindByName partitions name = some pt)
    (buffer tmp : Mem) (call : RangeCall) (hoff : rdev.readBlLen ∣ call.offstart.toNat)
    (d : δ) (e : ε) :
    RangeRight rdev.readBlLen pt call
        (rangeCall rdev wdev partitions name buffer tmp call d e) ↔
      RangeExact rdev.readBlLen pt call := by
  have hbl' : wdev.blLen ≤ 512 := hlen ▸ rdev.readBlLen_le
  cases call with
  | blockRead off size => exact blockRead_rangeRight_iff hfind hoff d e
  | blockWrite off size =>
    rw [← hlen] at hoff ⊢
    exact blockWrite_rangeRight_iff hfind hbl' hoff d e
  | partitionWrite size =>
    rw [← hlen]
    exact partitionWrite_rangeRight_iff hfind hbl' d e
  | partitionRead size => exact partitionRead_rangeRight_iff hfind d e

/-- A whole partition is written from its first block on. -/
theorem bootAndLogo_rangeRight :
    RangeRight 512 (.ofWords 512 2064 16 "logo") (.blockWrite 0 8192)
      (rangeCall (plain 512 (by decide) (by decide) fun _ => 0)
        (sink 512 (by decide) (by decide)) bootAndLogo (some "logo") (fun _ => 7) (fun _ => 0)
        (.blockWrite 0 8192) () ()) :=
  (rangeRight_iff (plain 512 (by decide) (by decide) fun _ => 0)
    (sink 512 (by decide) (by decide)) rfl rfl _ _ (.blockWrite 0 8192) (by decide) () ()).mpr
    ⟨.inl (by decide), .inr (.inr ⟨by decide, by decide⟩)⟩

/-- A partition of 4 GiB, whose length wraps to 0. -/
def bigPartition : List Partition :=
  [.ofWords 512 2048 8388608 "userdata"]

/-- One block of it is refused. -/
theorem big_partition_refuses_a_block : ¬ ∀ {δ ε : Type} (rdev : ReadDev δ) (wdev : BlockDev ε)
    (partitions : List Partition) (name : Option String) (pt : Partition) (buffer tmp : Mem)
    (call : RangeCall) (d : δ) (e : ε), wdev.blLen = rdev.readBlLen →
    partitionFindByName partitions name = some pt → rdev.readBlLen ∣ call.offstart.toNat →
    RangeRight rdev.readBlLen pt call
      (rangeCall rdev wdev partitions name buffer tmp call d e) := by
  intro hall
  have hright := hall (plain 512 (by decide) (by decide) fun _ => 0)
    (sink 512 (by decide) (by decide)) bigPartition (some "userdata") _ (fun _ => 7) (fun _ => 0)
    (.partitionWrite 512) () () rfl rfl (by decide)
  have hexact := (partitionWrite_rangeRight_iff rfl (by decide) () ()).mp hright
  exact absurd ((compareExact_iff _ _).mpr hexact.1) (by decide)

end UBoot.Flash
