import UBoot.Library.PackedField
import UBoot.Word

/-!
# Packets of the target loader

`drivers/usb/gadget/targetloader.h` and the protocol helpers of `targetloader.c`. The
subtractions, divisions and copies whose operands come from the host are recorded as they
are made.
-/
namespace UBoot.Loader
open ByteStore

/-- A value stored in a 16-bit variable. -/
def u16 (n : ℕ) : ℕ := n % 2 ^ 16

/-- The difference of two 16-bit values. -/
def sub16 (a b : ℕ) : ℕ := if b ≤ a then a - b else 2 ^ 16 - (b - a)

/-- The difference of two 64-bit values. -/
def sub64 (a b : ℕ) : ℕ := if b ≤ a then a - b else 2 ^ 64 - (b - a)

/-- The commands that the scheduler knows. -/
inductive Cmd where
  | linkEst | rvrsDwnld | changeConfig | data | devProtect | devUnprotect | eraseFlash
  | progDevStAddr | progDevEndAddr | dataPacketSize | swReset | hwReset | deviceInfo
  | eraseSegStAddr | eraseSegEndAddr | ramCheck | flashCheck | devBaseAddr | lockSegStAddr
  | lockSegEndAddr | unlockSegStAddr | unlockSegEndAddr | startExecution | upldDataSize
  | partitionData | unzipInfo | partNameLen | partNameString | partReqSt | partReqSz | dataSync
  | efuseWriteLen | efuseWriteData | efuseRead | tlDownload | success
  deriving DecidableEq

/-- The byte of a command. -/
def Cmd.id : Cmd → UInt8
  | linkEst => 0x0a
  | rvrsDwnld => 0x0b
  | changeConfig => 0x0c
  | data => 0x0d
  | devProtect => 0x0e
  | devUnprotect => 0x0f
  | eraseFlash => 0x10
  | progDevStAddr => 0x11
  | progDevEndAddr => 0x12
  | dataPacketSize => 0x13
  | swReset => 0x14
  | hwReset => 0x15
  | deviceInfo => 0x16
  | eraseSegStAddr => 0x17
  | eraseSegEndAddr => 0x18
  | ramCheck => 0x19
  | flashCheck => 0x20
  | devBaseAddr => 0x21
  | lockSegStAddr => 0x22
  | lockSegEndAddr => 0x23
  | unlockSegStAddr => 0x24
  | unlockSegEndAddr => 0x25
  | startExecution => 0x26
  | upldDataSize => 0x27
  | partitionData => 0x2a
  | unzipInfo => 0x2d
  | partNameLen => 0x30
  | partNameString => 0x31
  | partReqSt => 0x32
  | partReqSz => 0x33
  | dataSync => 0x58
  | efuseWriteLen => 0x5a
  | efuseWriteData => 0x5b
  | efuseRead => 0x5c
  | tlDownload => 0x55
  | success => 0x04

def Cmd.all : List Cmd :=
  [linkEst, rvrsDwnld, changeConfig, data, devProtect, devUnprotect, eraseFlash, progDevStAddr,
    progDevEndAddr, dataPacketSize, swReset, hwReset, deviceInfo, eraseSegStAddr, eraseSegEndAddr,
    ramCheck, flashCheck, devBaseAddr, lockSegStAddr, lockSegEndAddr, unlockSegStAddr,
    unlockSegEndAddr, startExecution, upldDataSize, partitionData, unzipInfo, partNameLen,
    partNameString, partReqSt, partReqSz, dataSync, efuseWriteLen, efuseWriteData, efuseRead,
    tlDownload, success]

/-- The case of the `switch` for a byte; `none` is the default case. -/
def Cmd.ofId (b : UInt8) : Option Cmd := Cmd.all.find? fun c => c.id = b

@[simp] theorem Cmd.ofId_id (c : Cmd) : Cmd.ofId c.id = some c := by
  cases c <;> rfl

theorem Cmd.id_of_ofId {b : UInt8} {c : Cmd} (h : Cmd.ofId b = some c) : c.id = b := by
  simpa using List.find?_some h

def cmdNone : UInt8 := 0x00
def cmdConnect : UInt8 := 0x02
def cmdAck : UInt8 := 0x03
def cmdFail : UInt8 := 0x05
def cmdRespData : UInt8 := 0x08
def cmdEfuseReadRsp : UInt8 := 0x5d

/-- `UP_DATA_SIZE`. -/
def upDataSize : ℕ := 4 * 1024

/-- `UP_EXTRA_SIZE`. -/
def upExtraSize : ℕ := 8

/-- `DEF_PACK_LEN`. -/
def defPackLen : ℕ := 6

/-- `DEF_BLK_SIZE`. -/
def defBlkSize : ℕ := 512

/-- `CMD_CMD_SIZE`. -/
def cmdCmdSize : ℕ := 1

/-- `CMD_CRC_SIZE`. -/
def cmdCrcSize : ℕ := 1

/-- `CMD_DATA_FILL_SIZE`. -/
def cmdDataFillSize : ℕ := 3

/-- The arithmetic that depends on the host. -/
inductive Arith where
  /-- A copy of `len` bytes into the staging buffer behind `size` bytes. -/
  | copy (size len : ℕ)
  | divide (n d : ℕ)
  | subtract (a b : ℕ)
  deriving DecidableEq

/-- `struct packet`. The data is the memory from its pointer on; a null pointer is only
used with no data. -/
structure Packet where
  fromHost : Bool
  cmdId : UInt8
  dataSize : ℕ
  data : Mem

def nullData : Mem := fun _ => 0

/-- `set_packet` with the mask `0x7`: the data stays. -/
def Packet.set (ppk : Packet) (cmdId : UInt8) (dataSize : ℕ) : Packet :=
  ⟨false, cmdId, dataSize, ppk.data⟩

/-- `set_packet` with the mask `0xf` and no data, as it is used for responses. -/
def reply (cmdId : UInt8) : Packet := ⟨false, cmdId, 0, nullData⟩

/-- `struct expect_info`. -/
structure ExpectInfo where
  flag : Bool
  cmdId : UInt8
  size : ℕ

/-- `set_expect_info` with the mask `0x7`. -/
def ExpectInfo.expect (size : ℕ) (cmd : Cmd) : ExpectInfo := ⟨true, cmd.id, size⟩

/-- `set_expect_info` with the mask `0x3`: the size stays. -/
def ExpectInfo.next (pexp : ExpectInfo) (cmd : Cmd) : ExpectInfo := ⟨true, cmd.id, pexp.size⟩

/-- The flag is reset alone. -/
def ExpectInfo.reset (pexp : ExpectInfo) : ExpectInfo := ⟨false, pexp.cmdId, pexp.size⟩

/-- `set_expect_info` with the mask `0x5` and the default size. -/
def ExpectInfo.default (pexp : ExpectInfo) : ExpectInfo := ⟨false, pexp.cmdId, defPackLen⟩

/-- `makeup_u32val` with `is_big_endian`. -/
def bigEndianVal (data : Mem) : ℕ :=
  (data 3).toNat + (data 2).toNat * 2 ^ 8 + (data 1).toNat * 2 ^ 16 + (data 0).toNat * 2 ^ 24

theorem bigEndianVal_lt (data : Mem) : bigEndianVal data < 2 ^ 32 := by
  have h0 := (data 0).toNat_lt
  have h1 := (data 1).toNat_lt
  have h2 := (data 2).toNat_lt
  have h3 := (data 3).toNat_lt
  unfold bigEndianVal
  omega

/-- `makeup_u32val` without it. -/
def littleEndianVal (data : Mem) : ℕ := fetch data 0 4

/-- `calc_checksum`. -/
def calcChecksum (data : List UInt8) : UInt8 := data.foldl (· ^^^ ·) 0

/-- What is not payload in a packet that starts with `cmdId`. -/
def overhead (cmdId : UInt8) : ℕ :=
  if cmdId = Cmd.data.id then cmdDataFillSize + cmdCmdSize + cmdCrcSize else cmdCmdSize + cmdCrcSize

/-- `protocol_handle` for a packet from the host. -/
def handleFromHost (ppk : Packet) : Packet × Arith :=
  let cmdId := ppk.data 0
  (⟨ppk.fromHost, cmdId, sub16 ppk.dataSize (overhead cmdId),
    advance ppk.data (overhead cmdId - cmdCrcSize)⟩, .subtract ppk.dataSize (overhead cmdId))

/-- `protocol_handle` for a packet to the host, which is built in the buffer `buf`. -/
def handleToHost (ppk : Packet) (buf : Mem) : Packet × Mem :=
  let buf := Function.update (overlay buf 0 upExtraSize fun _ => 0) 0 ppk.cmdId
  let n := u16 (ppk.dataSize + 1)
  let src := if ppk.cmdId = Cmd.data.id then advance buf upExtraSize else ppk.data
  let buf := overlay buf cmdCmdSize (n - 1) src
  let n := if ppk.cmdId = Cmd.data.id then u16 (n + 1)
    else if n < upExtraSize then upExtraSize else u16 (n + 1)
  let buf := Function.update buf (n - 1) (calcChecksum (slice buf 0 (n - 1)))
  (⟨ppk.fromHost, cmdNone, n, buf⟩, buf)

end UBoot.Loader
