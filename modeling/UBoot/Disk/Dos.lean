import UBoot.Disk.Gpt

/-!
# Reading DOS partition tables

`disk/part_dos.c`: the listing and the lookup of partitions, two recursions over the boot
records that extended entries lead to. Sector numbers and sizes are 32-bit words. A walk has
fuel for the depth of the recursion and counts the records it visits; `none` says that the fuel
did not suffice.
-/
namespace UBoot.Disk
open ByteStore

/-- A device whose driver refuses a request that goes beyond its end. -/
structure DosDev extends BlockDevDesc where
  dev : ℕ
  ifType : ℕ
  reads_inside : ∀ start cnt, reads start cnt = true → start + cnt ≤ lba

/-- `block_read` of one block; the buffer is used up to byte 511 only. -/
def DosDev.readBlock (d : DosDev) (sector : ℕ) : Option Mem :=
  if d.reads sector 1 then some (advance d.bytes (sector * d.blksz)) else none

namespace DosPartition

def bootInd (p : Mem) : UInt8 := p 0
def sysInd (p : Mem) : UInt8 := p 4
def start4 : Field := ⟨8, 4⟩
def size4 : Field := ⟨12, 4⟩

end DosPartition

open DosPartition

def dosPartDisksig : Field := ⟨0x1b8, 4⟩
def dosPartTblOffset : ℕ := 0x1be
def dosPartMagicOffset : ℕ := 0x1fe
def dosPbrFstypeOffset : ℕ := 0x36
def dosPbr32FstypeOffset : ℕ := 0x52
def dosMbr : ℤ := 0
def dosPbr : ℤ := 1

/-- `pt` in round `i` of the loops. -/
def partition (buffer : Mem) (i : ℕ) : Mem := advance buffer (dosPartTblOffset + 16 * i)

def isExtended (partType : UInt8) : Bool := partType == 0x5 || partType == 0xf || partType == 0x85

def isDosBootable (p : Mem) : Bool := bootInd p == 0x80

def hasMagic (buffer : Mem) : Bool :=
  buffer dosPartMagicOffset == 0x55 && buffer (dosPartMagicOffset + 1) == 0xaa

/-- `test_block_type`. The loop over the slots does not advance `p`. -/
def testBlockType (buffer : Mem) : ℤ :=
  if hasMagic buffer = false then -1
  else
    let p := partition buffer 0
    let isFat := slice buffer dosPbrFstypeOffset 3 = [70, 65, 84] ∨
      slice buffer dosPbr32FstypeOffset 5 = [70, 65, 84, 51, 50]
    ((List.range 3).findSome? fun slot =>
      if bootInd p ≠ 0 ∧ bootInd p ≠ 0x80 then
        if slot = 0 ∧ isFat then some dosPbr else some (-1)
      else none).getD dosMbr

/-- What a recursion is called with: the sector of a record, and what the links of records
other than the MBR are relative to. -/
structure DosLink where
  extPartSector : ℕ
  relative : ℕ
  deriving DecidableEq

/-- The arguments of the recursive call for an extended entry. -/
def DosLink.follow (l : DosLink) (pt : Mem) : DosLink :=
  let lbaStart := u32 (start4.get pt + l.relative)
  ⟨lbaStart, if l.extPartSector = 0 then lbaStart else l.relative⟩

/-- "Reverse engr the fdisk part# assignment rule!" -/
def nextPartNum (extPartSector : ℕ) (pt : Mem) (partNum : ℕ) : ℕ :=
  if extPartSector = 0 ∨ (sysInd pt ≠ 0 ∧ isExtended (sysInd pt) = false) then partNum + 1
  else partNum

/-- The calls that the extended entries of a record lead to. -/
def extendedLinks (buffer : Mem) (l : DosLink) : List DosLink :=
  (((List.range 4).map (partition buffer)).filter fun pt => isExtended (sysInd pt)).map l.follow

/-- `dos_partition_t` as `print_one_part` prints it, and the two error messages. -/
inductive DosLine
  | part (partNum lbaStart lbaSize disksig : ℕ) (sysInd : UInt8) (bootable : Bool)
  | cannotRead (dev extPartSector : ℕ)
  | badSignature (first second : UInt8)

/-- `print_one_part`. -/
def printOnePart (p : Mem) (extPartSector partNum disksig : ℕ) : DosLine :=
  .part partNum (u32 (extPartSector + start4.get p)) (size4.get p) disksig (sysInd p)
    (isDosBootable p)

/-- "Print all primary/logical partitions": the lines, and `part_num` behind the loop. -/
def printSlots (buffer : Mem) (extPartSector disksig : ℕ) : List ℕ → ℕ → List DosLine × ℕ
  | [], partNum => ([], partNum)
  | i :: slots, partNum =>
    let pt := partition buffer i
    let line :=
      if sysInd pt ≠ 0 ∧ (extPartSector = 0 ∨ isExtended (sysInd pt) = false) then
        [printOnePart pt extPartSector partNum disksig]
      else []
    let r := printSlots buffer extPartSector disksig slots (nextPartNum extPartSector pt partNum)
    (line ++ r.1, r.2)

/-- One walk after the other. -/
def collect : List (Option (ℕ × List DosLine)) → Option (ℕ × List DosLine)
  | [] => some (0, [])
  | none :: _ => none
  | some r :: rs => (collect rs).map fun r' => (r.1 + r'.1, r.2 ++ r'.2)

/-- The slots of `get_partition_info_extended`: the one that holds the partition asked for, if
any, and `part_num` there or behind the loop. -/
def findSlot (buffer : Mem) (extPartSector : ℕ) (whichPart : ℤ) : List ℕ → ℕ → Option Mem × ℕ
  | [], partNum => (none, partNum)
  | i :: slots, partNum =>
    let pt := partition buffer i
    if bootInd pt &&& ~~~0x80 = 0 ∧ sysInd pt ≠ 0 ∧ (partNum : ℤ) = whichPart ∧
        isExtended (sysInd pt) = false then
      (some pt, partNum)
    else findSlot buffer extPartSector whichPart slots (nextPartNum extPartSector pt partNum)

/-- The letters of a bus, by the interface type. -/
def busName (ifType : ℕ) : List UInt8 :=
  match ifType with
  | 1 | 8 | 3 => [104, 100]
  | 2 => [115, 100]
  | 4 => [117, 115, 98, 100]
  | 5 => [100, 111, 99, 100]
  | _ => [120, 120]

/-- The name that `sprintf` makes for an interface type. -/
def dosPartitionName (ifType dev partNum : ℕ) : List UInt8 :=
  busName ifType ++ [UInt8.ofNat (97 + dev)] ++
    (Nat.toDigits 10 partNum).map fun c => UInt8.ofNat c.toNat

/-- `%08x` and `%02x`. -/
def hexPadded (width n : ℕ) : List UInt8 :=
  List.leftpad width 48 ((Nat.toDigits 16 n).map fun c => UInt8.ofNat c.toNat)

section Walks
variable (d : DosDev)

/-- `print_partition_extended`. -/
def printPartitionExtended : ℕ → DosLink → ℕ → ℕ → Option (ℕ × List DosLine)
  | 0, _, _, _ => none
  | fuel + 1, l, partNum, disksig =>
    match d.readBlock l.extPartSector with
    | none => some (1, [.cannotRead d.dev l.extPartSector])
    | some buffer =>
      if testBlockType buffer ≠ dosMbr then
        some (1, [.badSignature (buffer dosPartMagicOffset) (buffer (dosPartMagicOffset + 1))])
      else
        let disksig := if l.extPartSector = 0 then dosPartDisksig.get buffer else disksig
        let r := printSlots buffer l.extPartSector disksig (List.range 4) partNum
        (collect ((extendedLinks buffer l).map fun l' =>
          printPartitionExtended fuel l' r.2 disksig)).map fun below =>
            (1 + below.1, r.1 ++ below.2)

/-- `get_partition_info_extended`; the result is `none` where it returns -1. -/
def getPartitionInfoExtended (whichPart : ℤ) :
    ℕ → DosLink → ℕ → ℕ → Option (ℕ × Option PartitionInfo)
  | 0, _, _, _ => none
  | fuel + 1, l, partNum, disksig =>
    match d.readBlock l.extPartSector with
    | none => some (1, none)
    | some buffer =>
      if hasMagic buffer = false then some (1, none)
      else
        let disksig := if l.extPartSector = 0 then dosPartDisksig.get buffer else disksig
        let r := findSlot buffer l.extPartSector whichPart (List.range 4) partNum
        match r.1 with
        | some pt =>
          some (1, some
            { start := u32 (l.extPartSector + start4.get pt)
              size := size4.get pt
              blksz := 512
              name := dosPartitionName d.ifType d.dev r.2
              type := "U-Boot"
              bootable := isDosBootable pt
              uuid := hexPadded 8 disksig ++ [45] ++ hexPadded 2 r.2 })
        | none =>
          -- the loop returns from the first extended entry
          match (extendedLinks buffer l).head? with
          | none => some (1, none)
          | some l' =>
            (getPartitionInfoExtended whichPart fuel l' r.2 disksig).map fun below =>
              (1 + below.1, below.2)

/-- `print_part_dos`. -/
def printPartDos (fuel : ℕ) : Option (ℕ × List DosLine) :=
  printPartitionExtended d fuel ⟨0, 0⟩ 1 0

/-- `get_partition_info_dos`. -/
def getPartitionInfoDos (fuel : ℕ) (part : ℤ) : Option (ℕ × Option PartitionInfo) :=
  getPartitionInfoExtended d part fuel ⟨0, 0⟩ 1 0

/-- `test_part_dos`. -/
def testPartDos : ℤ :=
  match d.readBlock 0 with
  | none => -1
  | some buffer => if testBlockType buffer ≠ dosMbr then -1 else 0

end Walks

end UBoot.Disk
