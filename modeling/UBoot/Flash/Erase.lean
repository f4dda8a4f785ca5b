import UBoot.Flash.Partition

/-!
# Erasing a named partition

`flash_partition_erase` names the first block of the partition, but hands on its length in
bytes; `mmc_berase` takes the number for blocks and erases group by group. It returns the
blocks of the groups that succeeded, and any of them counts as success above.

An erase command erases the blocks it names, if it succeeds.
-/
namespace UBoot.Flash

/-- `block_dev` as the erase path uses it: `mmc_erase_t` says whether its command
succeeded. -/
structure EraseDev (δ : Type) where
  readBlLen : ℕ
  eraseGrpSize : ℕ
  readBlLen_pos : 0 < readBlLen
  eraseGrpSize_pos : 0 < eraseGrpSize
  eraseGrpSize_lt : eraseGrpSize < 2 ^ 32
  mmcEraseT : ℕ → ℕ → δ → Bool × δ

/-- The device, and newest first: the ranges named by erase commands, those of commands that
succeeded, and the error codes put. -/
structure EraseSession (δ : Type) where
  dev : δ
  named : List Request
  erased : List Request
  errors : List String

section Functions
variable {δ : Type} (dev : EraseDev δ)

def EraseSession.initial (d : δ) : EraseSession δ := ⟨d, [], [], []⟩

def EraseSession.eraseT (start cnt : ℕ) (s : EraseSession δ) : Bool × EraseSession δ :=
  let r := dev.mmcEraseT start cnt s.dev
  (r.1, { s with
    dev := r.2
    named := ⟨start, cnt⟩ :: s.named
    erased := if r.1 then ⟨start, cnt⟩ :: s.erased else s.erased })

/-- The loop of `mmc_berase`, at most `fuel` turns. -/
def mmcBeraseLoop (start blkcnt : ℕ) : ℕ → ℕ → EraseSession δ → ℕ × EraseSession δ
  | 0, blk, s => (blk, s)
  | fuel + 1, blk, s =>
    if blk < blkcnt then
      let blkR := if blkcnt - blk > dev.eraseGrpSize then dev.eraseGrpSize else blkcnt - blk
      let r := s.eraseT dev (u32 (start + blk)) blkR
      if r.1 then mmcBeraseLoop start blkcnt fuel (blk + blkR) r.2 else (blk, r.2)
    else (blk, s)

def mmcBerase (start blkcnt : ℕ) (s : EraseSession δ) : ℕ × EraseSession δ :=
  mmcBeraseLoop dev start blkcnt (blkcnt + 1) 0 s

/-- `flash_partition_erase` -/
def flashPartitionErase (partitions : List Partition) (name : Option String)
    (s : EraseSession δ) : ℤ × EraseSession δ :=
  match partitionFindByName partitions name with
  | none => (eInval, { s with errors := "40001" :: s.errors })
  | some pt =>
    let start := u32 (pt.sectorSize * pt.start)
    let length := u32 (pt.sectorSize * pt.length)
    let r := mmcBerase dev (start / dev.readBlLen) length s
    (if r.1 > 0 then 0 else eIo, r.2)

end Functions

/-- The blocks of these ranges. -/
def blocksOf (ranges : List Request) : Set ℕ := {b | ∃ r ∈ ranges, r.blk ≤ b ∧ b < r.blk + r.cnt}

/-- The device blocks that hold a byte of the partition, if one was found. -/
def partitionBlocks (bl : ℕ) : Option Partition → Set ℕ
  | none => ∅
  | some pt => {b | pt.firstByte < (b + 1) * bl ∧ b * bl < pt.firstByte + pt.bytes}

/-- Success means that the whole partition is erased, and no command names a block outside. -/
def EraseRight {δ : Type} (bl : ℕ) (pt : Option Partition) (r : ℤ × EraseSession δ) : Prop :=
  (r.1 = 0 → partitionBlocks bl pt ⊆ blocksOf r.2.erased) ∧
  blocksOf r.2.named ⊆ partitionBlocks bl pt

/-- On every device with these sizes, the call erases the partition and nothing else. -/
def ErasesPartition (bl grp : ℕ) (partitions : List Partition) (name : Option String) : Prop :=
  ∀ (δ : Type) (dev : EraseDev δ) (d : δ), dev.readBlLen = bl → dev.eraseGrpSize = grp →
    EraseRight bl (partitionFindByName partitions name)
      (flashPartitionErase dev partitions name (EraseSession.initial d))

/-- No partition, none of its bytes counted, or the bytes taken for blocks are its blocks and
make one group at most. -/
def EraseFits (bl grp : ℕ) (partitions : List Partition) (name : Option String) : Prop :=
  match partitionFindByName partitions name with
  | none => True
  | some pt => u32 pt.bytes = 0 ∨
    u32 pt.bytes ≤ grp ∧ u32 pt.firstByte / bl = pt.firstByte / bl ∧
      pt.firstByte / bl + u32 pt.bytes = blocksUp (pt.firstByte + pt.bytes) bl

section Ranges
variable {bl grp : ℕ} {pt : Partition} {δ : Type}

theorem blocksOf_nil : blocksOf [] = ∅ := by
  ext b
  simp [blocksOf]

theorem blocksOf_singleton (blk cnt : ℕ) : blocksOf [⟨blk, cnt⟩] = Set.Ico blk (blk + cnt) := by
  ext b
  simp [blocksOf]

/-- The blocks of a partition are one range. -/
theorem partitionBlocks_eq (hbl : 0 < bl) (pt : Partition) : partitionBlocks bl (some pt) =
    Set.Ico (pt.firstByte / bl) (blocksUp (pt.firstByte + pt.bytes) bl) := by
  ext b
  have hlow : pt.firstByte < (b + 1) * bl ↔ pt.firstByte / bl ≤ b := by
    rw [← Nat.lt_succ_iff, Nat.succ_eq_add_one, Nat.div_lt_iff_lt_mul hbl]
  rw [Set.mem_Ico, lt_blocksUp_iff _ _ hbl, ← hlow]
  rfl

/-- A number of blocks that is one group at most is one command. -/
theorem mmcBerase_of_le (dev : EraseDev δ) {start cnt : ℕ} (hstart : start < 2 ^ 32)
    (hcnt : 0 < cnt) (hle : cnt ≤ dev.eraseGrpSize) (s : EraseSession δ) :
    mmcBerase dev start cnt s = (if (s.eraseT dev start cnt).1 then cnt else 0,
      (s.eraseT dev start cnt).2) := by
  have hnext : ∀ s' : EraseSession δ, mmcBeraseLoop dev start cnt cnt cnt s' = (cnt, s') := by
    intro s'
    cases cnt with
    | zero => rfl
    | succ n => rw [mmcBeraseLoop, if_neg (lt_irrefl _)]
  rw [mmcBerase, mmcBeraseLoop, if_pos hcnt, Nat.sub_zero, if_neg (not_lt.mpr hle), Nat.add_zero,
    u32_of_lt hstart]
  simp only [Nat.zero_add, hnext]
  split_ifs <;> rfl

/-- A device on which every command succeeds. -/
def willing (bl grp : ℕ) (hbl : 0 < bl) (hgrp : 0 < grp) (hgrp' : grp < 2 ^ 32) : EraseDev Unit :=
  ⟨bl, grp, hbl, hgrp, hgrp', fun _ _ _ => (true, ())⟩

/-- A device on which one command succeeds, and then none. -/
def wearing (bl grp : ℕ) (hbl : 0 < bl) (hgrp : 0 < grp) (hgrp' : grp < 2 ^ 32) : EraseDev Bool :=
  ⟨bl, grp, hbl, hgrp, hgrp', fun _ _ d => (d, false)⟩

/-- More than one group: the second command fails, and the first counts as success. -/
theorem mmcBerase_wearing (hbl : 0 < bl) (hgrp : 0 < grp) (hgrp' : grp < 2 ^ 32) {start cnt : ℕ}
    (hstart : start < 2 ^ 32) (hlt : grp < cnt) : ∃ n > 0,
    mmcBerase (wearing bl grp hbl hgrp hgrp') start cnt (EraseSession.initial true) =
      (grp, ⟨false, [⟨u32 (start + grp), n⟩, ⟨start, grp⟩], [⟨start, grp⟩], []⟩) := by
  refine ⟨if cnt - grp > grp then grp else cnt - grp, by split_ifs <;> omega, ?_⟩
  obtain ⟨n, rfl⟩ := Nat.exists_eq_succ_of_ne_zero (show cnt ≠ 0 by omega)
  rw [mmcBerase, mmcBeraseLoop, if_pos (by omega), Nat.sub_zero, Nat.add_zero, u32_of_lt hstart]
  simp only [wearing, EraseSession.eraseT, EraseSession.initial, if_pos hlt, if_true, gt_iff_lt]
  rw [mmcBeraseLoop, Nat.zero_add, if_pos hlt]
  simp [EraseSession.eraseT]

theorem flashPartitionErase_of_find (dev : EraseDev δ) {partitions : List Partition}
    {name : Option String} (hfind : partitionFindByName partitions name = some pt)
    (s : EraseSession δ) :
    flashPartitionErase dev partitions name s =
      (if (mmcBerase dev (u32 pt.firstByte / dev.readBlLen) (u32 pt.bytes) s).1 > 0 then 0
        else eIo, (mmcBerase dev (u32 pt.firstByte / dev.readBlLen) (u32 pt.bytes) s).2) := by
  simp only [flashPartitionErase, hfind]
  rfl

/-- One group at most: right exactly when the blocks named are those of the partition. -/
theorem eraseFits_of_le (hbl : 0 < bl) (hgrp : 0 < grp) (hgrp' : grp < 2 ^ 32)
    {partitions : List Partition} {name : Option String}
    (hfind : partitionFindByName partitions name = some pt) (hpos : 0 < u32 pt.bytes)
    (hle : u32 pt.bytes ≤ grp) (h : ErasesPartition bl grp partitions name) :
    u32 pt.firstByte / bl = pt.firstByte / bl ∧
      pt.firstByte / bl + u32 pt.bytes = blocksUp (pt.firstByte + pt.bytes) bl := by
  have hstart : u32 pt.firstByte / bl < 2 ^ 32 := (Nat.div_le_self _ _).trans_lt (u32_lt _)
  obtain ⟨hall, honly⟩ := h Unit (willing bl grp hbl hgrp hgrp') () rfl rfl
  rw [flashPartitionErase_of_find _ hfind,
    show (willing bl grp hbl hgrp hgrp').readBlLen = bl from rfl,
    mmcBerase_of_le _ hstart hpos hle, hfind, partitionBlocks_eq hbl] at hall honly
  simp only [willing, EraseSession.eraseT, EraseSession.initial, if_true, blocksOf_singleton,
    gt_iff_lt, if_pos hpos, forall_const] at hall honly
  have hsame := Set.Subset.antisymm honly hall
  have hlt : u32 pt.firstByte / bl < u32 pt.firstByte / bl + u32 pt.bytes := by omega
  obtain ⟨hlow, hhigh⟩ := (Set.Ico_eq_Ico_iff (.inl hlt)).mp hsame
  exact ⟨hlow, hlow ▸ hhigh⟩

/-- More than one group is never right. -/
theorem not_erasesPartition_of_lt (hbl : 0 < bl) (hgrp : 0 < grp) (hgrp' : grp < 2 ^ 32)
    {partitions : List Partition} {name : Option String}
    (hfind : partitionFindByName partitions name = some pt) (hlt : grp < u32 pt.bytes) :
    ¬ ErasesPartition bl grp partitions name := by
  intro h
  have hstart : u32 pt.firstByte / bl < 2 ^ 32 := (Nat.div_le_self _ _).trans_lt (u32_lt _)
  obtain ⟨n, hn, hrun⟩ := mmcBerase_wearing hbl hgrp hgrp' hstart hlt
  obtain ⟨hall, honly⟩ := h Bool (wearing bl grp hbl hgrp hgrp') true rfl rfl
  rw [flashPartitionErase_of_find _ hfind,
    show (wearing bl grp hbl hgrp hgrp').readBlLen = bl from rfl, hrun] at hall honly
  rw [if_pos hgrp] at hall
  -- the block of the second command belongs to the partition, but was not erased
  have hmem : u32 (u32 pt.firstByte / bl + grp) ∈ blocksOf
      [⟨u32 (u32 pt.firstByte / bl + grp), n⟩, ⟨u32 pt.firstByte / bl, grp⟩] :=
    ⟨_, List.mem_cons_self, le_rfl, by dsimp only; omega⟩
  have herased := hall rfl (honly hmem)
  rw [blocksOf_singleton, Set.mem_Ico] at herased
  generalize u32 pt.firstByte / bl = start at *
  have hwrap : u32 (start + grp) = (start + grp) % 2 ^ 32 := rfl
  omega

end Ranges

/-- The partition and nothing else is erased, on every device, exactly when its length in bytes
is as good as its length in blocks. -/
theorem erasesPartition_iff {bl grp : ℕ} (hbl : 0 < bl) (hgrp : 0 < grp) (hgrp' : grp < 2 ^ 32)
    (partitions : List Partition) (name : Option String) :
    ErasesPartition bl grp partitions name ↔ EraseFits bl grp partitions name := by
  rw [EraseFits]
  cases hfind : partitionFindByName partitions name with
  | none =>
    refine iff_of_true (fun δ dev d _ _ => ?_) trivial
    simp only [flashPartitionErase, hfind, EraseRight, EraseSession.initial, blocksOf_nil]
    exact ⟨fun h => absurd h (by decide), Set.empty_subset _⟩
  | some pt =>
    constructor
    · intro h
      rcases Nat.eq_zero_or_pos (u32 pt.bytes) with hzero | hpos
      · exact .inl hzero
      · rcases le_or_gt (u32 pt.bytes) grp with hle | hlt
        · exact .inr ⟨hle, eraseFits_of_le hbl hgrp hgrp' hfind hpos hle h⟩
        · exact absurd h (not_erasesPartition_of_lt hbl hgrp hgrp' hfind hlt)
    · rintro hfits δ dev d rfl rfl
      rw [flashPartitionErase_of_find dev hfind, hfind]
      rcases Nat.eq_zero_or_pos (u32 pt.bytes) with hzero | hpos
      · rw [hzero]
        refine ⟨fun h => absurd h (show eIo ≠ 0 by decide), ?_⟩
        exact (blocksOf_nil).subset.trans (Set.empty_subset _)
      · obtain ⟨hle, hlow, hhigh⟩ := hfits.resolve_left hpos.ne'
        have hstart : u32 pt.firstByte / dev.readBlLen < 2 ^ 32 :=
          (Nat.div_le_self _ _).trans_lt (u32_lt _)
        rw [mmcBerase_of_le dev hstart hpos hle, hlow]
        refine ⟨fun hzero => ?_, ?_⟩
        · cases hok : ((EraseSession.initial d).eraseT dev (pt.firstByte / dev.readBlLen)
            (u32 pt.bytes)).1
          · rw [hok] at hzero
            exact absurd hzero (show eIo ≠ 0 by decide)
          · rw [partitionBlocks_eq hbl, ← hhigh, ← blocksOf_singleton]
            simp only [EraseSession.eraseT] at hok ⊢
            rw [if_pos hok]
            rfl
        · rw [partitionBlocks_eq hbl, ← hhigh, ← blocksOf_singleton]
          rfl

/-- Two sectors of one byte. -/
def idPartition : List Partition := [.ofWords 1 3 2 "id"]

/-- A device with blocks of one byte. -/
theorem idPartition_erased : ErasesPartition 1 8 idPartition (some "id") :=
  (erasesPartition_iff (by decide) (by decide) (by decide) idPartition (some "id")).mpr
    (.inr ⟨by decide, by decide, by decide⟩)

/-- A partition of 16 blocks: the first command names 1024 blocks. -/
theorem erase_names_bytes_as_blocks : ¬ ∀ (bl grp : ℕ) (partitions : List Partition)
    (name : Option String), 0 < bl → 0 < grp → grp < 2 ^ 32 →
    ErasesPartition bl grp partitions name := by
  intro hall
  exact not_erasesPartition_of_lt (by decide) (by decide) (by decide)
    (show partitionFindByName bootAndLogo (some "boot") = _ from rfl) (by decide)
    (hall 512 1024 bootAndLogo (some "boot") (by decide) (by decide) (by decide))

end UBoot.Flash
