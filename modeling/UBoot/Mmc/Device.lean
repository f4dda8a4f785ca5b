import UBoot.Library.ByteStore
import UBoot.Word

/-!
# The card and the command layer of the eMMC driver

`mmc_send_cmd` is the only way the driver touches the card. A command that fails
leaves the card as it was; which commands fail is an arbitrary pattern over the
commands issued since power-on. `mmc_send_status` is not modelled: it changes
nothing and every caller modelled here ignores its result.
-/
namespace UBoot.Mmc
open ByteStore

/-- Hardware partitions as the driver names them (`char part_num`). -/
abbrev PartNum := BitVec 8

def partUser : PartNum := 0
def partBoot1 : PartNum := 1
def partBoot2 : PartNum := 2

def partBootEnableMask : BitVec 8 := 0x38
def partAccessMask : BitVec 8 := 0x7
def mmcpartNoavailable : BitVec 8 := 0xff

/-- The fields of `struct mmc` that `mmc_startup` and `mmc_register` fill in once.
Block lengths are at least one sector in the CSD and are capped at 512; sector
addressed cards use 512-byte blocks; a byte addressed card ends below 4 GiB. -/
structure Info where
  highCapacity : Bool
  readBlLen : ℕ
  writeBlLen : ℕ
  eraseGrpSize : ℕ
  capacity : ℕ
  lba : ℕ
  bMax : ℕ
  bootPartSize : ℕ
  /-- What the card reads in a block it has erased. -/
  erasedByte : UInt8
  blLen_pos : 0 < writeBlLen
  blLen_eq : readBlLen = writeBlLen
  sector : highCapacity = true → writeBlLen = 512
  byteAddressed : highCapacity = false → lba * writeBlLen ≤ 2 ^ 32
  lba_lt : lba < 2 ^ 32
  capacity_eq : capacity = lba * writeBlLen
  eraseGrpSize_pos : 0 < eraseGrpSize
  bMax_pos : 0 < bMax

/-- `boot_part_size / write_bl_len`. -/
def Info.bootBlkcnt (info : Info) : ℕ := info.bootPartSize / info.writeBlLen

/-- What a data transfer or erase command named when it was issued: the cached
partition, the partition the card selected, and the blocks. -/
inductive Event where
  | transfer (partNum access : PartNum) (blk cnt : ℕ)
  | erase (partNum access : PartNum) (first last : ℕ)
  deriving DecidableEq

/-- The partition cached in `mmc->part_num`. -/
def Event.partNum : Event → PartNum
  | .transfer p _ _ _ => p
  | .erase p _ _ _ => p

/-- The partition selected in the card's PARTITION_ACCESS field. -/
def Event.access : Event → PartNum
  | .transfer _ p _ _ => p
  | .erase _ p _ _ => p

/-- The driver's changing fields, the card, the number of commands issued so far
and the transfers and erases among them, newest first. -/
structure World where
  partConfig : BitVec 8
  partNum : PartNum
  access : PartNum
  store : PartNum → Mem
  eraseStart : ℕ
  eraseEnd : ℕ
  clock : ℕ
  log : List Event

/-- The command indices the modelled functions send. -/
inductive CmdIdx where
  | switch | setBlocklen | readBlock | writeBlock | stopTransmission
  | eraseGroupStart | eraseGroupEnd | erase
  deriving DecidableEq

/-- Whether the `n`-th command issued, of the given index, succeeds. -/
abbrev Answers := ℕ → CmdIdx → Bool

/-- The block a card decodes from a command argument. -/
def Info.argBlock (info : Info) (arg : ℕ) : ℕ :=
  if info.highCapacity then arg else arg / info.writeBlLen

/-- The argument the driver sends for a block; `uint cmdarg` wraps. -/
def Info.blockArg (info : Info) (blk : ℕ) : ℕ :=
  if info.highCapacity then u32 blk else u32 (blk * info.writeBlLen)

/-- The byte of the selected partition at which a transfer starts. -/
def Info.argByte (info : Info) (arg : ℕ) : ℕ :=
  if info.highCapacity then arg * 512 else arg

/-- Issue one command: count it, and apply `effect` to the card if it succeeds. -/
def mmcSendCmd (ans : Answers) (idx : CmdIdx) (effect : World → World) (w : World) :
    Bool × World :=
  if ans w.clock idx then (true, { effect w with clock := w.clock + 1 })
  else (false, { w with clock := w.clock + 1 })

/-- Record a transfer command at the moment it is issued. -/
def World.noteTransfer (w : World) (blk cnt : ℕ) : World :=
  { w with log := .transfer w.partNum w.access blk cnt :: w.log }

/-- Record an erase command at the moment it is issued. -/
def World.noteErase (w : World) (first last : ℕ) : World :=
  { w with log := .erase w.partNum w.access first last :: w.log }

/-- A successful `SWITCH` of EXT_CSD_PART_CONF selects the low three bits. -/
def World.setPartConf (w : World) (value : BitVec 8) : World :=
  { w with access := value &&& partAccessMask }

/-- A successful write stores the bytes sent in the selected partition. -/
def World.putBytes (w : World) (addr len : ℕ) (src : Mem) : World :=
  { w with store := Function.update w.store w.access (overlay (w.store w.access) addr len src) }

/-- `mmc_switch` of the partition configuration byte. -/
def mmcSwitch (ans : Answers) (value : BitVec 8) (w : World) : Bool × World :=
  mmcSendCmd ans .switch (·.setPartConf value) w

/-- `mmc_switch_part`: the low-level switch, which leaves `part_num` alone. -/
def mmcSwitchPart (ans : Answers) (partNum : PartNum) (w : World) : Bool × World :=
  if partNum = partBoot1 ∨ partNum = partBoot2 then
    let r := mmcSwitch ans
      ((w.partConfig &&& ~~~(partAccessMask ||| partBootEnableMask)) |||
        (partNum &&& partAccessMask) ||| ((partNum <<< 3) &&& partBootEnableMask)) w
    if r.1 then
      (true, { r.2 with
        partConfig := (r.2.partConfig &&& ~~~partBootEnableMask) ||| (partNum <<< 3) })
    else (false, r.2)
  else
    mmcSwitch ans ((w.partConfig &&& ~~~partAccessMask) ||| (partNum &&& partAccessMask)) w

/-- At most `retries + 1` attempts of a command that reports success. -/
def retry (attempt : World → Bool × World) : ℕ → World → Bool × World
  | 0, w => attempt w
  | n + 1, w =>
    let r := attempt w
    if r.1 then r else retry attempt n r.2

/-- `mmc_switch_partition`: switch unless the cache says it is not needed. -/
def mmcSwitchPartition (ans : Answers) (partNum : PartNum) (w : World) : Bool × World :=
  if w.partConfig = mmcpartNoavailable then (false, w)
  else if partNum ≠ w.partNum then
    let r := retry (mmcSwitchPart ans partNum) 10 w
    if r.1 then
      (true, { r.2 with
        partNum := partNum
        partConfig := (r.2.partConfig &&& ~~~partAccessMask) ||| (partNum &&& partAccessMask) })
    else (false, r.2)
  else (true, w)

/-- `mmc_set_blocklen`. -/
def mmcSetBlocklen (ans : Answers) (w : World) : Bool × World :=
  retry (mmcSendCmd ans .setBlocklen id) 10 w

/-- The end of a multi-block transfer: `MMC_CMD_STOP_TRANSMISSION`. -/
def mmcStop (ans : Answers) (cnt : ℕ) (w : World) : ℕ × World :=
  if cnt > 1 then
    let r := mmcSendCmd ans .stopTransmission id w
    if r.1 then (cnt, r.2) else (0, r.2)
  else (cnt, w)

/-- `mmc_write_blocks`. -/
def mmcWriteBlocks (ans : Answers) (info : Info) (start cnt : ℕ) (src : Mem) (w : World) :
    ℕ × World :=
  if u32 (start + cnt) > info.lba then (0, w)
  else
    let arg := info.blockArg start
    let r := mmcSendCmd ans .writeBlock
      (·.putBytes (info.argByte arg) (cnt * info.writeBlLen) src)
      (w.noteTransfer (info.argBlock arg) cnt)
    if r.1 then mmcStop ans cnt r.2 else (0, r.2)

/-- `mmc_read_blocks`; the bytes read are put at `dst`. -/
def mmcReadBlocks (ans : Answers) (info : Info) (dst : Mem) (start cnt : ℕ) (w : World) :
    ℕ × Mem × World :=
  let arg := info.blockArg start
  let r := mmcSendCmd ans .readBlock id (w.noteTransfer (info.argBlock arg) cnt)
  if r.1 then
    let s := mmcStop ans cnt r.2
    (s.1, overlay dst 0 (cnt * info.readBlLen)
      (advance (w.store w.access) (info.argByte arg)), s.2)
  else (0, dst, r.2)

/-- `mmc_erase_t`: name the first and the last block, then erase. -/
def mmcEraseT (ans : Answers) (info : Info) (start cnt : ℕ) (w : World) : Bool × World :=
  let r₁ := mmcSendCmd ans .eraseGroupStart
    (fun w => { w with eraseStart := info.blockArg start }) w
  if r₁.1 then
    let r₂ := mmcSendCmd ans .eraseGroupEnd
      (fun w => { w with eraseEnd := info.blockArg (start + cnt - 1) }) r₁.2
    if r₂.1 then
      let first := info.argBlock r₂.2.eraseStart
      let last := info.argBlock r₂.2.eraseEnd
      mmcSendCmd ans .erase
        (·.putBytes (first * info.writeBlLen) ((last + 1 - first) * info.writeBlLen)
          (fun _ => info.erasedByte)) (r₂.2.noteErase first last)
    else (false, r₂.2)
  else (false, r₁.2)

/-- A sector addressed card with 0xEE000 blocks and a 128 KiB boot partition. -/
def emmc : Info where
  highCapacity := true
  readBlLen := 512
  writeBlLen := 512
  eraseGrpSize := 1024
  capacity := 0xEE000 * 512
  lba := 0xEE000
  bMax := 65535
  bootPartSize := 131072
  erasedByte := 0
  blLen_pos := by decide
  blLen_eq := rfl
  sector := fun _ => rfl
  byteAddressed := by decide
  lba_lt := by decide
  capacity_eq := rfl
  eraseGrpSize_pos := by decide
  bMax_pos := by decide

/-- The state `mmc_init` leaves: user area selected, first boot partition enabled. -/
def afterInit : World where
  partConfig := 0x08
  partNum := partUser
  access := partUser
  store := fun _ _ => 0
  eraseStart := 0
  eraseEnd := 0
  clock := 0
  log := []

end UBoot.Mmc
