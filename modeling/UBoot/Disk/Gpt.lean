import UBoot.Disk.Crc32
import UBoot.Library.PackedField
import UBoot.Word

/-!
# Reading GUID partition tables

`is_gpt_valid` of `disk/part_efi.c` and the three functions that use what it returns.
The header and the entries are C structures in memory: packed fields at fixed offsets,
seen from the pointer to the buffer they were read into. What lies behind the buffers
is arbitrary, and every use of a buffer whose extent comes from the disk is recorded.
-/
namespace UBoot.Disk
open ByteStore

/-- `block_dev_desc_t`, with the contents of the device and which requests succeed. A
request that succeeds lies on the device. -/
structure BlockDevDesc where
  blksz : ℕ
  lba : ℕ
  bytes : Mem
  reads : ℕ → ℕ → Bool
  writes : ℕ → ℕ → Bool
  blksz_ge : 512 ≤ blksz
  blksz_lt : blksz < 2 ^ 32
  lba_lt : lba < 2 ^ 32
  writes_inside : ∀ start cnt, writes start cnt = true → start + cnt ≤ lba

/-- `block_read_gpt`, whose arguments are `ulong`; `none` if it does not return `cnt`. -/
def BlockDevDesc.blockReadGpt (d : BlockDevDesc) (start cnt : ℕ) (dst : Mem) : Option Mem :=
  if d.reads (u32 start) cnt then
    some (overlay dst 0 (cnt * d.blksz) (advance d.bytes (u32 start * d.blksz)))
  else none

/-- `PAD_COUNT`. -/
def padCount (s pad : ℕ) : ℕ := (s - 1) / pad + 1

/-- `BLOCK_CNT`. -/
def BlockDevDesc.blockCnt (d : BlockDevDesc) (size : ℕ) : ℕ := padCount size d.blksz

/-- `PAD_TO_BLOCKSIZE`, a product of `ulong`. -/
def BlockDevDesc.padToBlocksize (d : BlockDevDesc) (size : ℕ) : ℕ := u32 (d.blockCnt size * d.blksz)

def gptHeaderSignature : ℕ := 0x5452415020494645
def gptHeaderRevisionV1 : ℕ := 0x00010000
def gptPrimaryPartitionTableLba : ℕ := 1
def gptEntryNumbers : ℕ := 128

namespace Header
def signature : Field := ⟨0, 8⟩
def revision : Field := ⟨8, 4⟩
def headerSize : Field := ⟨12, 4⟩
def headerCrc32 : Field := ⟨16, 4⟩
def myLba : Field := ⟨24, 8⟩
def alternateLba : Field := ⟨32, 8⟩
def firstUsableLba : Field := ⟨40, 8⟩
def lastUsableLba : Field := ⟨48, 8⟩
/-- The offset of `disk_guid`, 16 bytes. -/
def diskGuid : ℕ := 56
def partitionEntryLba : Field := ⟨72, 8⟩
def numPartitionEntries : Field := ⟨80, 4⟩
def sizeofPartitionEntry : Field := ⟨84, 4⟩
def partitionEntryArrayCrc32 : Field := ⟨88, 4⟩
end Header

/-- `sizeof(gpt_header)`. -/
def sizeofGptHeader : ℕ := 92

namespace Entry
/-- The offset of `partition_type_guid`, 16 bytes. -/
def partitionTypeGuid : ℕ := 0
/-- The offset of `unique_partition_guid`, 16 bytes. -/
def uniquePartitionGuid : ℕ := 16
def startingLba : Field := ⟨32, 8⟩
def endingLba : Field := ⟨40, 8⟩
def attributes : Field := ⟨48, 8⟩
/-- Element `i` of `partition_name`. -/
def partitionName (i : ℕ) : Field := ⟨56 + 2 * i, 2⟩
end Entry

/-- `sizeof(gpt_entry)`. -/
def sizeofGptEntry : ℕ := 128

/-- `PARTNAME_SZ`. -/
def partnameSz : ℕ := 36

/-- `&gpt_pte[i]`. -/
def element (pte : Mem) (i : ℕ) : Mem := advance pte (sizeofGptEntry * i)

/-- `isprint` of `lib/ctype.c`, which counts the upper half of Latin-1 as printable. -/
def isprint (c : UInt8) : Bool := (32 ≤ c && c ≤ 126) || 160 ≤ c

/-- `print_efiname`: the C string in its static buffer. -/
def printEfiname (pte : Mem) : List UInt8 :=
  ((List.range partnameSz).map fun i =>
    let c := UInt8.ofNat ((Entry.partitionName i).get pte % 256)
    if c ≠ 0 ∧ ¬ isprint c then 46 else c).takeWhile (· ≠ 0)

/-- A lower-case hexadecimal digit. -/
def hexDigit (n : ℕ) : UInt8 := UInt8.ofNat (if n < 10 then 48 + n else 87 + n)

/-- `uuid_string`: the C string it writes. -/
def uuidString (uuid : Mem) : List UInt8 :=
  [3, 2, 1, 0, 5, 4, 7, 6, 8, 9, 10, 11, 12, 13, 14, 15].zipIdx.flatMap fun (le, i) =>
    [hexDigit ((uuid le).toNat / 16), hexDigit ((uuid le).toNat % 16)] ++
      if i ∈ [3, 5, 7, 9] then [45] else []

/-- `PARTITION_SYSTEM_GUID`. -/
def systemGuid : List UInt8 :=
  [0x28, 0x73, 0x2A, 0xC1, 0x1F, 0xF8, 0xd2, 0x11, 0xBA, 0x4B, 0x00, 0xA0, 0xC9, 0x3E, 0xC9, 0x3B]

/-- `is_bootable`. -/
def isBootable (pte : Mem) : Bool :=
  (Entry.attributes.get pte).testBit 2 || slice pte Entry.partitionTypeGuid 16 == systemGuid

/-- `is_pte_valid`: the type is not the all-zero one of an unused entry. -/
def isPteValid (pte : Mem) : Bool := slice pte Entry.partitionTypeGuid 16 != List.replicate 16 0

/-- The buffers whose use depends on numbers found on the disk. -/
inductive Buffer where
  | head | pte
  deriving DecidableEq

/-- A use of `len` bytes of a buffer from `off` on. -/
structure Access where
  buffer : Buffer
  off : ℕ
  len : ℕ
  deriving DecidableEq

/-- What surrounds the buffers of one call, and which sizes `calloc` grants. -/
structure Surroundings where
  stack : Mem
  heap : Mem
  callocs : ℕ → Bool

/-- `*pgpt_head` and `*pgpt_pte` as `is_gpt_valid` leaves them. -/
structure Gpt where
  head : Mem
  pte : Mem

def Gpt.num (g : Gpt) : ℕ := Header.numPartitionEntries.get g.head

/-- The size of the array as the code multiplies it out. -/
def entriesSize (head : Mem) : ℕ :=
  u32 (Header.numPartitionEntries.get head * Header.sizeofPartitionEntry.get head)

section Functions
variable (env : Surroundings) (d : BlockDevDesc)

/-- `alloc_read_gpt_entries`. -/
def allocReadGptEntries (head : Mem) : Option Mem :=
  let count := entriesSize head
  if count = 0 ∨ env.callocs (d.padToBlocksize count) = false then none
  else
    d.blockReadGpt (Header.partitionEntryLba.get head) (d.blockCnt count)
      (overlay env.heap 0 (d.padToBlocksize count) fun _ => 0)

/-- The checks of `is_gpt_valid` on the header alone, after the signature and the CRC. -/
def headerPlaced (lba : ℕ) (head : Mem) : Bool :=
  Header.myLba.get head = lba ∧ Header.firstUsableLba.get head ≤ d.lba ∧
    Header.lastUsableLba.get head ≤ d.lba

/-- The CRC of the header, taken with its own field zeroed. -/
def headerCrc (head : Mem) : UInt32 :=
  efiCrc32 (slice (Header.headerCrc32.put head 0) 0 (Header.headerSize.get head))

/-- `is_gpt_valid`: the table if it returns 1, and the uses of the two buffers. -/
def isGptValid (lba : ℕ) : Option Gpt × List Access :=
  match d.blockReadGpt lba 1 env.stack with
  | none => (none, [])
  | some head =>
    if Header.signature.get head ≠ gptHeaderSignature then (none, [])
    else
      let log := [⟨.head, 0, Header.headerSize.get head⟩]
      if (headerCrc head).toNat ≠ Header.headerCrc32.get head then (none, log)
      else if headerPlaced d lba head = false then (none, log)
      else
        match allocReadGptEntries env d head with
        | none => (none, log)
        | some pte =>
          let log := log ++ [⟨.pte, 0, entriesSize head⟩]
          if (efiCrc32 (slice pte 0 (entriesSize head))).toNat ≠
              Header.partitionEntryArrayCrc32.get head then (none, log)
          else (some ⟨head, pte⟩, log)

end Functions

/-- The use of `gpt_pte[i]`. -/
def elementAccess (i : ℕ) : Access := ⟨.pte, sizeofGptEntry * i, sizeofGptEntry⟩

/-- `(u64)ending_lba + 1 - start`, stored in a `ulong`; `start` is the `ulong` start. -/
def sizeField (ending start : ℕ) : ℕ := u32 (u64 (u64 (ending + 1) + 2 ^ 64 - start))

/-- One partition as `print_part_efi` prints it. -/
structure PrintedPart where
  number : ℕ
  startingLba : ℕ
  endingLba : ℕ
  name : List UInt8
  attrs : ℕ
  typeUuid : List UInt8
  uuid : List UInt8

/-- The loop of `print_part_efi` from entry `i` on, with `n` entries left. -/
def printLoop (pte : Mem) : ℕ → ℕ → List PrintedPart × List Access
  | 0, _ => ([], [])
  | n + 1, i =>
    if isPteValid (element pte i) then
      let r := printLoop pte n (i + 1)
      let e := element pte i
      (⟨i + 1, Entry.startingLba.get e, Entry.endingLba.get e, printEfiname e,
        Entry.attributes.get e, uuidString (advance e Entry.partitionTypeGuid),
        uuidString (advance e Entry.uniquePartitionGuid)⟩ :: r.1, elementAccess i :: r.2)
    else ([], [elementAccess i])

/-- The fields of `disk_partition_t` that `get_partition_info_efi` fills in, with
`CONFIG_PARTITION_UUIDS` as every board with EFI partitions sets it. -/
structure PartitionInfo where
  start : ℕ
  size : ℕ
  blksz : ℕ
  name : List UInt8
  type : String
  bootable : Bool
  uuid : List UInt8

/-- `struct partition` as `gpt_find_part_by_name` fills it in. -/
structure PartRecord where
  sectorSize : ℕ
  start : ℕ
  length : ℕ
  deriving DecidableEq

/-- The loop of `gpt_find_part_by_name` from entry `i` on, with `n` entries left: the
entry whose printed name is `name`. -/
def findLoop (name : List UInt8) (pte : Mem) : ℕ → ℕ → Option ℕ × List Access
  | 0, _ => (none, [])
  | n + 1, i =>
    if printEfiname (element pte i) = name then (some i, [elementAccess i])
    else
      let r := findLoop name pte n (i + 1)
      (r.1, elementAccess i :: r.2)

section Users
variable (env : Surroundings) (d : BlockDevDesc)

/-- `print_part_efi`. -/
def printPartEfi : List PrintedPart × List Access :=
  match isGptValid env d gptPrimaryPartitionTableLba with
  | (none, log) => ([], log)
  | (some g, log) =>
    let r := printLoop g.pte g.num 0
    (r.1, log ++ r.2)

/-- What `get_partition_info_efi` reads off one entry. -/
def partitionInfo (e : Mem) : PartitionInfo :=
  let start := u32 (Entry.startingLba.get e)
  { start := start
    size := sizeField (Entry.endingLba.get e) start
    blksz := d.blksz
    name := printEfiname e
    type := "U-Boot"
    bootable := isBootable e
    uuid := uuidString (advance e Entry.uniquePartitionGuid) }

/-- `get_partition_info_efi`; `none` is -1. -/
def getPartitionInfoEfi (part : ℕ) : Option PartitionInfo × List Access :=
  if part < 1 then (none, [])
  else
    match isGptValid env d gptPrimaryPartitionTableLba with
    | (none, log) => (none, log)
    | (some g, log) =>
      if part > g.num then (none, log)
      else
        let e := element g.pte (part - 1)
        let log := log ++ [elementAccess (part - 1)]
        if isPteValid e then (some (partitionInfo d e), log) else (none, log)

/-- What `gpt_find_part_by_name` reads off one entry. -/
def partRecord (e : Mem) : PartRecord :=
  let start := u32 (Entry.startingLba.get e)
  ⟨d.blksz, start, sizeField (Entry.endingLba.get e) start⟩

/-- `gpt_find_part_by_name`: its return value, and `*part` afterwards. A null name is
an invalid argument. -/
def gptFindPartByName (name : Option (List UInt8)) (part : PartRecord) :
    (ℤ × PartRecord) × List Access :=
  match name with
  | none => ((-1, part), [])
  | some name =>
    match isGptValid env d gptPrimaryPartitionTableLba with
    | (none, log) => ((-1, part), log)
    | (some g, log) =>
      let r := findLoop name g.pte g.num 0
      match r.1 with
      | some i => ((1, partRecord d (element g.pte i)), log ++ r.2)
      | none => ((0, part), log ++ r.2)

end Users
end UBoot.Disk
