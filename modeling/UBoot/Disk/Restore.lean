import UBoot.Disk.Uuid

/-!
# Writing GUID partition tables

`gpt_restore` of `disk/part_efi.c`: the header, the entries laid out one after the
other, the protective MBR, and the two copies on the device. Every failure ends in -1;
what a failed run leaves on the device is not described.
-/
namespace UBoot.Disk
open ByteStore

/-- `block_write_gpt`, whose arguments are `ulong`; `none` if it does not return `cnt`. -/
def BlockDevDesc.blockWriteGpt (d : BlockDevDesc) (start cnt : ℕ) (src : Mem) :
    Option BlockDevDesc :=
  if d.writes (u32 start) cnt then
    some { d with bytes := overlay d.bytes (u32 start * d.blksz) (cnt * d.blksz) src }
  else none

/-- The fields of `disk_partition_t` that describe a partition to be made. The name is seen
from its first byte on, because more than the 32 bytes of the array are copied. -/
structure DiskPartition where
  start : ℕ
  size : ℕ
  name : Mem
  uuid : List UInt8
  start_lt : start < 2 ^ 32
  size_lt : size < 2 ^ 32

/-- `PARTITION_BASIC_DATA_GUID`. -/
def basicDataGuid : List UInt8 :=
  [0xA2, 0xA0, 0xD0, 0xEB, 0xE5, 0xB9, 0x33, 0x44, 0x87, 0xC0, 0x68, 0xB6, 0xB7, 0x26, 0x99, 0xC7]

/-- The memory of a buffer from `calloc`. -/
def zeroed : Mem := fun _ => 0

/-- The protective MBR: `legacy_mbr` on the heap, with its partition record 0 and its
signature set. -/
def protectiveMbr (env : Surroundings) (d : BlockDevDesc) : Mem :=
  let mbr := overlay env.heap 0 512 zeroed
  let mbr := Field.put ⟨510, 2⟩ mbr 0xAA55
  let mbr := Field.put ⟨446 + 4, 1⟩ mbr 0xEE
  let mbr := Field.put ⟨446 + 8, 4⟩ mbr 1
  Field.put ⟨446 + 12, 4⟩ mbr (u32 d.lba)

section Functions
variable (env : Surroundings) (d : BlockDevDesc)

/-- `set_protective_mbr`. -/
def setProtectiveMbr : Option BlockDevDesc :=
  if env.callocs 512 then d.blockWriteGpt 0 1 (protectiveMbr env d) else none

/-- `gpt_fill_header` after the conversion of the GUID. -/
def filledHeader (guid : List UInt8) : Mem :=
  let head := Header.signature.put zeroed gptHeaderSignature
  let head := Header.revision.put head gptHeaderRevisionV1
  let head := Header.headerSize.put head sizeofGptHeader
  let head := Header.myLba.put head 1
  let head := Header.alternateLba.put head (u32 (d.lba + 2 ^ 32 - 1))
  let head := Header.firstUsableLba.put head 34
  let head := Header.lastUsableLba.put head (u32 (d.lba + 2 ^ 32 - 34))
  let head := Header.partitionEntryLba.put head 2
  let head := Header.numPartitionEntries.put head gptEntryNumbers
  let head := Header.sizeofPartitionEntry.put head sizeofGptEntry
  let head := Header.headerCrc32.put head 0
  let head := Header.partitionEntryArrayCrc32.put head 0
  overlay head Header.diskGuid 16 (ofList guid)

/-- `gpt_fill_header`. -/
def gptFillHeader (strGuid : List UInt8) : Option Mem :=
  (stringUuid strGuid).map (filledHeader d)

/-- One entry as the body of the loop in `gpt_fill_pte` fills it. -/
def fillEntry (e : Mem) (start ending : ℕ) (guid : List UInt8) (name : Mem) : Mem :=
  let e := Entry.startingLba.put e start
  let e := Entry.endingLba.put e ending
  let e := overlay e Entry.partitionTypeGuid 16 (ofList basicDataGuid)
  let e := overlay e Entry.uniquePartitionGuid 16 (ofList guid)
  let e := Entry.attributes.put e 0
  (List.range partnameSz).foldl (fun e k => (Entry.partitionName k).put e (name k).toNat) e

/-- The loop of `gpt_fill_pte` from partition `i` on; `offset` is a `u32`. -/
def fillLoop (lastUsable : ℕ) : ℕ → ℕ → List DiskPartition → Mem → Option Mem
  | _, _, [], pte => some pte
  | offset, i, p :: ps, pte =>
    if p.start ≠ 0 ∧ p.start < offset then none
    else
      let start := if p.start ≠ 0 then p.start else offset
      let offset := u32 (start + p.size)
      if offset ≥ lastUsable then none
      else
        let ending := if ps = [] ∧ p.size = 0 then lastUsable else u32 (offset + 2 ^ 32 - 1)
        match stringUuid p.uuid with
        | none => none
        | some guid =>
          fillLoop lastUsable offset (i + 1) ps
            (overlay pte (sizeofGptEntry * i) sizeofGptEntry
              (fillEntry (element pte i) start ending guid p.name))

/-- `gpt_fill_pte`. -/
def gptFillPte (head pte : Mem) (partitions : List DiskPartition) : Option Mem :=
  fillLoop (Header.lastUsableLba.get head) (u32 (Header.firstUsableLba.get head)) 0 partitions pte

/-- The header with both its checksums, as the first half of `write_gpt_table` leaves it. -/
def primaryHeader (head pte : Mem) : Mem :=
  let head := Header.partitionEntryArrayCrc32.put head
    (efiCrc32 (slice pte 0 (entriesSize head))).toNat
  Header.headerCrc32.put head (efiCrc32 (slice head 0 (Header.headerSize.get head))).toNat

/-- The header of the second copy: the two LBAs exchanged and the checksum redone. -/
def backupHeader (head : Mem) : Mem :=
  let val := Header.myLba.get head
  let head := Header.myLba.put head (Header.alternateLba.get head)
  let head := Header.alternateLba.put head val
  let head := Header.headerCrc32.put head 0
  Header.headerCrc32.put head (efiCrc32 (slice head 0 (Header.headerSize.get head))).toNat

/-- `write_gpt_table`. -/
def writeGptTable (head pte : Mem) : Option BlockDevDesc := do
  let cnt := d.blockCnt (u32 (Header.numPartitionEntries.get head * sizeofGptEntry))
  let d ← setProtectiveMbr env d
  let head := primaryHeader head pte
  let d ← d.blockWriteGpt 1 1 head
  let d ← d.blockWriteGpt 2 cnt pte
  let head := backupHeader head
  let d ← d.blockWriteGpt (u32 (Header.lastUsableLba.get head + 1)) cnt pte
  d.blockWriteGpt (u32 (Header.myLba.get head)) 1 head

/-- `gpt_restore`. -/
def gptRestore (strDiskGuid : List UInt8) (partitions : List DiskPartition) :
    Option BlockDevDesc := do
  guard (env.callocs (d.padToBlocksize sizeofGptHeader))
  guard (env.callocs (d.padToBlocksize (gptEntryNumbers * sizeofGptEntry)))
  let head ← gptFillHeader d strDiskGuid
  let pte ← gptFillPte head zeroed partitions
  writeGptTable env d head pte

end Functions

variable {env : Surroundings} {d d' : BlockDevDesc}

theorem BlockDevDesc.blockWriteGpt_eq_some {start cnt : ℕ} {src : Mem} :
    d.blockWriteGpt start cnt src = some d' ↔ d.writes (u32 start) cnt = true ∧
      d' = { d with bytes := overlay d.bytes (u32 start * d.blksz) (cnt * d.blksz) src } := by
  unfold blockWriteGpt
  split
  · rename_i h
    simp [h, eq_comm]
  · rename_i h
    simp [h]

/-- The blocks an entry array takes. -/
def BlockDevDesc.pteBlkCnt (d : BlockDevDesc) : ℕ := d.blockCnt (gptEntryNumbers * sizeofGptEntry)

/-- The device after the five writes of a table. -/
def writtenBytes (d : BlockDevDesc) (mbr head pte : Mem) : Mem :=
  let bytes := overlay d.bytes 0 d.blksz mbr
  let bytes := overlay bytes d.blksz d.blksz head
  let bytes := overlay bytes (2 * d.blksz) (d.pteBlkCnt * d.blksz) pte
  let bytes := overlay bytes ((d.lba - 33) * d.blksz) (d.pteBlkCnt * d.blksz) pte
  overlay bytes ((d.lba - 1) * d.blksz) d.blksz (backupHeader head)

end UBoot.Disk
