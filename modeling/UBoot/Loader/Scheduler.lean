import UBoot.Library.Machine
import UBoot.Loader.Packet

/-!
# The scheduler of the target loader

`loader_scheduler`: one turn of its loop takes a packet, given as the receive buffer from
its first byte on, and answers. `TLERR` never returns, and neither does a division by zero;
the loader hangs then. The flash, the efuses and the registers of the card are parameters.
-/
namespace UBoot.Loader
open ByteStore

/-- An entry of `partitions`. -/
structure Partition where
  name : List UInt8
  start : ℕ
  length : ℕ
  sectorSize : ℕ

/-- What the loader runs on. `erase` is `flashex_erase`, and the memories are fields of
`struct mmc`; `lowByte` is the byte at address 1. -/
structure Env (σ : Type*) where
  noDdr : Bool
  forceResp : Bool
  writeBlLen : ℕ
  readBlLen : ℕ
  capacity : ℕ
  blockWrite : ℕ → ℕ → Mem → σ → ℕ × σ
  blockRead : ℕ → ℕ → Mem → σ → ℕ × Mem × σ
  erase : ℕ → ℕ → σ → Bool × σ
  partitions : List Partition
  efuseRead : σ → Option Mem × σ
  efuseWrite : Mem → σ → Bool × σ
  ocr : Mem
  cid : Mem
  csd : Mem
  rca : Mem
  scr : Mem
  lowByte : UInt8

/-- `struct loader_set`; `mode` is never read. -/
structure LoaderSet where
  onceDataBytes : ℕ
  allpacksBytes : ℕ
  isZip : ℕ
  startAddr : ℕ
  curAddr : ℕ
  endAddr : ℕ
  addrOffset : ℕ

/-- What `memset` leaves of the settings. -/
def LoaderSet.zero : LoaderSet := ⟨0, 0, 0, 0, 0, 0, 0⟩

/-- The variables of `loader_scheduler` between two turns, with the device, the frames
sent so far and the arithmetic done so far. -/
structure State (σ : Type*) where
  linked : Bool
  exp : ExpectInfo
  ldSet : LoaderSet
  restBytes : ℕ
  threshold : ℕ
  maxCnt : ℕ
  tmp : Mem
  tmpSize : ℕ
  up : Mem
  upSize : ℕ
  partNameLen : ℕ
  partBlkSt : ℕ
  partBlkLen : ℕ
  dev : σ
  hung : Bool
  sent : List (List UInt8)
  ops : List Arith

/-- A chunk that has to be synchronised at once. -/
structure Chunk where
  type : ℕ
  len : ℕ
  fill : ℕ

/-- The outcome of the `switch`. -/
structure Turn (σ : Type*) where
  s : State σ
  pk : Packet
  needResp : Bool
  sync : Option Chunk

section Scheduler
variable {σ : Type*} (env : Env σ)

/-- `TMP_BUF_SIZE`. -/
def Env.tmpBufSize : ℕ := if env.noDdr then 27 * 1024 else 100 * 1024 * 1024

/-- `flashex_write`; `false` is `-EIO`. -/
def Env.flashexWrite (start : ℕ) (buf : Mem) (len : ℕ) (dev : σ) : Bool × σ :=
  if len = 0 then (true, dev)
  else
    let blkcnt := u32 (blocksUp len env.writeBlLen)
    let r := env.blockWrite (u32 (start / env.writeBlLen)) blkcnt buf dev
    (r.1 = blkcnt, r.2)

/-- `flashex_read`; `false` is `-EIO`. -/
def Env.flashexRead (start : ℕ) (buf : Mem) (len : ℕ) (dev : σ) : Bool × Mem × σ :=
  let blkcnt := u32 (blocksUp len env.readBlLen)
  let r := env.blockRead (u32 (start / env.readBlLen)) blkcnt buf dev
  (r.1 = blkcnt, r.2.1, r.2.2)

/-- `flashex_partiton_find_by_name`; the string ends at its first zero. -/
def Env.findPartition (name : List UInt8) : Option Partition :=
  env.partitions.find? fun pt => pt.name = name.takeWhile (· ≠ 0)

namespace State
variable (s : State σ)

def hang : State σ := { s with hung := true }

def record (op : Arith) : State σ := { s with ops := s.ops ++ [op] }

/-- `set_expect_info` in its forms. -/
def expect (exp : ExpectInfo) : State σ := { s with exp := exp }

/-- The staging buffer is written, and the flash address moves on. -/
def flush : State σ :=
  { s with
    dev := (env.flashexWrite s.ldSet.curAddr s.tmp s.tmpSize s.dev).2
    ldSet := { s.ldSet with curAddr := u64 (s.ldSet.curAddr + s.tmpSize) }
    tmpSize := 0
    threshold := 0 }

/-- A copy into the staging buffer. -/
def stage (data : Mem) (len : ℕ) : State σ :=
  { s with
    tmp := overlay s.tmp s.tmpSize len data
    tmpSize := u32 (s.tmpSize + len)
    threshold := s.threshold + 1
    ops := s.ops ++ [.copy s.tmpSize len] }

end State

/-- `prepare_resp_link_est`, and the `memset` after it. -/
def linkEst (s : State σ) (pk : Packet) : State σ × Packet :=
  let s := { s with ldSet := LoaderSet.zero }
  let pk := pk.set cmdConnect 0
  if pk.data 0 = 0x06 then
    (s.expect (ExpectInfo.expect env.lowByte.toNat .partitionData), pk)
  else if pk.data 0 = 0xf0 then
    (s.expect s.exp.reset,
      { pk with
        dataSize := 1
        data := Function.update pk.data 0 0xb0 })
  else (s.expect s.exp.reset, pk)

/-- `prepare_resp_unzip_info`. -/
def unzipInfo (s : State σ) (pk : Packet) : State σ × Packet :=
  let val := bigEndianVal (advance pk.data 1)
  let type := (pk.data 5).toNat / 64
  let index := (pk.data 5).toNat / 16 % 4
  let ld := { s.ldSet with isZip := (pk.data 0).toNat }
  let ld :=
    if type = 1 then
      if index = 0 then { ld with startAddr := val }
      else if index = 1 then { ld with allpacksBytes := val }
      else ld
    else if type = 2 then { ld with addrOffset := u64 (ld.addrOffset + val) }
    else ld
  ({ s with ldSet := ld }, pk.set cmdAck 0)

/-- `prepare_resp_dev_base_addr`; which image format is read is not modelled. -/
def devBaseAddr (s : State σ) : State σ × Packet := (s.expect s.exp.reset, reply cmdAck)

/-- `CMD_EFUSE_WRITE_LEN`. -/
def efuseWriteLen (s : State σ) (pk : Packet) : State σ × Packet :=
  (s.expect (ExpectInfo.expect (u16 (bigEndianVal pk.data)) .efuseWriteData), pk.set cmdAck 0)

/-- `CMD_EFUSE_WRITE_DATA`. -/
def efuseWriteData (s : State σ) (pk : Packet) : State σ × Packet :=
  let r := env.efuseWrite pk.data s.dev
  ({ s with
      dev := r.2
      exp := s.exp.reset }, pk.set (if r.1 then cmdAck else cmdFail) 0)

/-- `CMD_EFUSE_READ`; `EFUSE_TMOUT` is 1. -/
def efuseRead (s : State σ) (pk : Packet) : State σ × Packet :=
  let r := env.efuseRead s.dev
  let data := Function.update (Function.update (Function.update pk.data 0 0) 1 0) 2 0x80
  let data :=
    match r.1 with
    | none => Function.update data 0 1
    | some words => overlay data 3 128 words
  ({ s with
      dev := r.2
      exp := s.exp.reset }, { pk with data := data }.set cmdEfuseReadRsp (128 + 4))

/-- `prepare_resp_dev_info`. -/
def deviceInfo (s : State σ) (pk : Packet) : State σ × Packet :=
  let vendorId := fetch env.cid 0 4 / 2 ^ 24 % 256
  let deviceId := fetch env.cid 0 4 / 2 ^ 8 % 256
  let (data, dataSize) :=
    if pk.data 0 = 0x01 then
      let ids : List UInt8 :=
        [UInt8.ofNat (vendorId / 2 ^ 8), UInt8.ofNat vendorId, UInt8.ofNat (deviceId / 2 ^ 24),
          UInt8.ofNat (deviceId / 2 ^ 16), UInt8.ofNat (deviceId / 2 ^ 8), UInt8.ofNat deviceId]
      (overlay (overlay pk.data 0 pk.dataSize fun _ => 0) 0 6 (ofList ids), 12)
    else if pk.data 0 = 0x10 then (overlay pk.data 0 4 env.ocr, 12)
    else if pk.data 0 = 0x11 then (overlay pk.data 0 16 env.cid, 16)
    else if pk.data 0 = 0x12 then (overlay pk.data 0 16 env.csd, 16)
    else if pk.data 0 = 0x14 then (overlay pk.data 0 2 env.rca, 12)
    else if pk.data 0 = 0x16 then (overlay pk.data 0 8 env.scr, 12)
    else (pk.data, 12)
  (s.expect s.exp.reset, { pk with data := data }.set cmdRespData dataSize)

/-- `end_addr - start_addr + 1`. -/
def rangeLen (startAddr endAddr : ℕ) : ℕ := u64 (sub64 endAddr startAddr + 1)

/-- `CMD_ERASE_SEG_ST_ADDR`. -/
def eraseSegStAddr (s : State σ) (pk : Packet) : State σ × Packet :=
  let addr := bigEndianVal (advance pk.data 1)
  ({ s with
      ldSet := { s.ldSet with startAddr := u64 (addr + s.ldSet.addrOffset) }
      exp := s.exp.next .eraseSegEndAddr }, reply cmdAck)

/-- `CMD_ERASE_SEG_END_ADDR`. -/
def eraseSegEndAddr (s : State σ) (pk : Packet) : State σ × Packet :=
  let addr := bigEndianVal (advance pk.data 1)
  let endAddr := u64 (addr + s.ldSet.addrOffset)
  let rest := rangeLen s.ldSet.startAddr endAddr
  let r := env.erase s.ldSet.startAddr rest s.dev
  ({ s.record (.subtract endAddr s.ldSet.startAddr) with
      ldSet := { s.ldSet with endAddr := endAddr }
      restBytes := rest
      dev := r.2
      exp := s.exp.reset }, reply (if r.1 then Cmd.success.id else cmdFail))

/-- `CMD_ERASEFLASH`. -/
def eraseFlash (s : State σ) : State σ × Packet :=
  let rest := rangeLen 0 env.capacity
  let r := env.erase 0 rest s.dev
  let s :=
    { s.record (.subtract env.capacity 0) with
      ldSet := { s.ldSet with
        startAddr := 0
        endAddr := env.capacity }
      restBytes := rest
      dev := r.2
      exp := s.exp.reset }
  (if r.1 then s else s.hang, reply Cmd.success.id)

/-- `CMD_PROG_DEV_ST_ADDR`. -/
def progDevStAddr (s : State σ) (pk : Packet) : State σ × Packet :=
  let addr := bigEndianVal (advance pk.data 1)
  ({ s with
      ldSet := { s.ldSet with startAddr := u64 (addr + s.ldSet.addrOffset) }
      exp := s.exp.next .progDevEndAddr }, pk.set cmdAck 0)

/-- `CMD_PROG_DEV_END_ADDR`. -/
def progDevEndAddr (s : State σ) (pk : Packet) : State σ × Packet :=
  let addr := bigEndianVal (advance pk.data 1)
  let endAddr := u64 (addr + s.ldSet.addrOffset)
  let ld :=
    { s.ldSet with
      endAddr := endAddr
      curAddr := s.ldSet.startAddr }
  let s :=
    if s.ldSet.isZip ≠ 0 then { s with restBytes := s.ldSet.allpacksBytes }
    else
      { s.record (.subtract endAddr s.ldSet.startAddr) with
        restBytes := rangeLen s.ldSet.startAddr endAddr }
  ({ s with
      ldSet := ld
      exp := s.exp.next .dataPacketSize }, pk.set cmdAck 0)

/-- `CMD_PART_NAME_LEN`. -/
def partNameLen (s : State σ) (pk : Packet) : State σ × Packet :=
  let len := (pk.data 0).toNat
  ({ s with
      partNameLen := len
      exp := ExpectInfo.expect (len + defPackLen) .partNameString }, reply cmdAck)

/-- `CMD_PART_NAME_STRING`. -/
def partNameString (s : State σ) (pk : Packet) : State σ × Packet :=
  let s := s.expect s.exp.default
  match env.findPartition (slice pk.data 0 s.partNameLen) with
  | none => (s, reply cmdFail)
  | some pt =>
    let addr := u32 (pt.start * pt.sectorSize)
    ({ s with
        partBlkSt := pt.start
        partBlkLen := pt.length
        ldSet := { s.ldSet with
          startAddr := addr
          curAddr := addr
          endAddr := u32 (u32 (pt.start + pt.length) * pt.sectorSize) } }, reply cmdAck)

/-- `CMD_PART_REQ_ST`. -/
def partReqSt (s : State σ) (pk : Packet) : State σ × Packet :=
  (s.expect (ExpectInfo.expect defPackLen .partReqSz),
    { pk with data := overlay pk.data 0 4 (digits s.partBlkSt) }.set cmdRespData 4)

/-- `CMD_PART_REQ_SZ`. -/
def partReqSz (s : State σ) (pk : Packet) : State σ × Packet :=
  (s.expect s.exp.default,
    { pk with data := overlay pk.data 0 4 (digits s.partBlkLen) }.set cmdRespData 4)

/-- `CMD_DATA_PACKET_SIZE`. -/
def dataPacketSize (s : State σ) (pk : Packet) : State σ × Packet :=
  let size := (pk.data 1).toNat + (pk.data 0).toNat * 2 ^ 8
  let s :=
    { s.record (.divide env.tmpBufSize size) with
      exp := ExpectInfo.expect size .data
      ldSet := { s.ldSet with onceDataBytes := size }
      threshold := 0
      maxCnt := env.tmpBufSize / size }
  (if size = 0 then s.hang else s, reply cmdAck)

/-- The copying part of `CMD_DATA`. -/
def stageData (s : State σ) (pk : Packet) : State σ × Option Chunk :=
  if s.ldSet.isZip = 0 then (s.stage pk.data pk.dataSize, none)
  else if s.ldSet.isZip = 2 then
    let type := littleEndianVal pk.data
    let len := littleEndianVal (advance pk.data 4)
    if type = 1 then
      let s := s.stage (advance pk.data 8) len
      (if len % defBlkSize ≠ 0 then s.hang else s, none)
    else if type = 2 then (s, some ⟨2, len, littleEndianVal (advance pk.data 8)⟩)
    else if type = 3 then (s, some ⟨3, len, 0⟩)
    else (s, none)
  else (s, none)

/-- The counting part of `CMD_DATA`. -/
def countData (s : State σ) : State σ :=
  let rest := sub64 s.restBytes s.exp.size
  let exp :=
    if rest ≤ s.exp.size then
      if rest = 0 then ExpectInfo.expect defPackLen .dataSync
      else { s.exp with size := rest }
    else s.exp
  { s.record (.subtract s.restBytes s.exp.size) with
    restBytes := rest
    exp := exp }

/-- `CMD_DATA`. -/
def data (s : State σ) (pk : Packet) : Turn σ :=
  let r := stageData s pk
  ⟨if r.1.hung then r.1 else countData r.1, if env.forceResp then reply cmdAck else pk,
    env.forceResp, r.2⟩

/-- `CMD_DATA_SYNC`. -/
def dataSync (s : State σ) : State σ × Packet :=
  let r := env.flashexWrite s.ldSet.curAddr s.tmp s.tmpSize s.dev
  let s' :=
    { s with
      dev := r.2
      tmpSize := 0
      threshold := 0
      exp := ⟨false, Cmd.linkEst.id, defPackLen⟩ }
  (if r.1 then s' else s.hang, reply Cmd.success.id)

/-- `CMD_RVRS_DWNLD`. -/
def rvrsDwnld (s : State σ) (pk : Packet) : State σ × Packet :=
  let addr := bigEndianVal pk.data
  ({ s with
      ldSet := { s.ldSet with
        startAddr := addr
        curAddr := addr
        onceDataBytes := upDataSize }
      upSize := upDataSize
      exp := s.exp.next .upldDataSize }, reply cmdAck)

/-- `up_desc.size` for the next piece of an upload. -/
def State.pieceSize (s : State σ) : ℕ := if s.restBytes < upDataSize then s.restBytes else s.upSize

/-- The next piece of an upload is read, and what is left is counted. -/
def uploadPiece (s : State σ) (pk : Packet) : State σ × Packet :=
  let r := env.flashexRead s.ldSet.curAddr (advance s.up upExtraSize) s.pieceSize s.dev
  let s' :=
    { s.record (.subtract s.restBytes s.pieceSize) with
      up := fun i => if i < upExtraSize then s.up i else r.2.1 (i - upExtraSize)
      upSize := s.pieceSize
      dev := r.2.2
      ldSet := { s.ldSet with curAddr := u64 (s.ldSet.curAddr + s.pieceSize) }
      restBytes := sub64 s.restBytes s.pieceSize }
  (if r.1 then s' else s.hang, pk.set Cmd.data.id (u16 s.pieceSize))

/-- The assignment through a pointer to 32 bits: only the low half of `rest_bytes` is
written. -/
def State.setUploadSize (s : State σ) (val : ℕ) : State σ :=
  { s with
    restBytes := s.restBytes / 2 ^ 32 * 2 ^ 32 + val
    ldSet := { s.ldSet with allpacksBytes := s.restBytes / 2 ^ 32 * 2 ^ 32 + val } }

/-- `CMD_UPLD_DATA_SIZE`. -/
def upldDataSize (s : State σ) (pk : Packet) : State σ × Packet :=
  let r := uploadPiece env (s.setUploadSize (bigEndianVal pk.data)) pk
  (r.1.expect r.1.exp.reset, r.2)

/-- `CMD_SUCCESS`. -/
def success (s : State σ) (pk : Packet) : Turn σ :=
  if s.restBytes ≠ 0 then
    let r := uploadPiece env s pk
    ⟨r.1, r.2, true, none⟩
  else ⟨s, pk, false, none⟩

/-- The commands that are acknowledged and end whatever was expected. -/
def accepted (s : State σ) : State σ × Packet := (s.expect s.exp.default, reply Cmd.success.id)

/-- The default case of the `switch`. -/
def unknown (s : State σ) (pk : Packet) : State σ × Packet :=
  (s, { pk with data := Function.update (Function.update pk.data 0 pk.cmdId) 1 12 }.set cmdFail 2)

/-- A command that is answered. -/
def answered (r : State σ × Packet) : Turn σ := ⟨r.1, r.2, true, none⟩

/-- The `switch` of `loader_scheduler`. -/
def dispatch (s : State σ) (pk : Packet) : Turn σ :=
  match Cmd.ofId pk.cmdId with
  | some .swReset | some .hwReset => answered (s.hang, pk)
  | some .linkEst => answered (linkEst env s pk)
  | some .unzipInfo => answered (unzipInfo s pk)
  | some .devBaseAddr => answered (devBaseAddr s)
  | some .efuseWriteLen => answered (efuseWriteLen s pk)
  | some .efuseWriteData => answered (efuseWriteData env s pk)
  | some .efuseRead => answered (efuseRead env s pk)
  | some .deviceInfo => answered (deviceInfo env s pk)
  | some .eraseSegStAddr => answered (eraseSegStAddr s pk)
  | some .eraseSegEndAddr => answered (eraseSegEndAddr env s pk)
  | some .eraseFlash => answered (eraseFlash env s)
  | some .progDevStAddr => answered (progDevStAddr s pk)
  | some .progDevEndAddr => answered (progDevEndAddr s pk)
  | some .partNameLen => answered (partNameLen s pk)
  | some .partNameString => answered (partNameString env s pk)
  | some .partReqSt => answered (partReqSt s pk)
  | some .partReqSz => answered (partReqSz s pk)
  | some .dataPacketSize => answered (dataPacketSize env s pk)
  | some .data => data env s pk
  | some .dataSync => answered (dataSync env s)
  | some .ramCheck | some .flashCheck | some .devProtect | some .devUnprotect
  | some .partitionData => answered (accepted s)
  | some .rvrsDwnld => answered (rvrsDwnld s pk)
  | some .upldDataSize => answered (upldDataSize env s pk)
  | some .success => success env s pk
  | some .changeConfig | some .startExecution | some .lockSegStAddr | some .lockSegEndAddr
  | some .unlockSegStAddr | some .unlockSegEndAddr | some .tlDownload => answered (s, pk)
  | none => answered (unknown s pk)

/-- The staging buffer filled with a word. -/
def Env.fillBuf (fill : ℕ) (tmp : Mem) : Mem :=
  overlay tmp 0 env.tmpBufSize fun i => digits fill (i % 4)

/-- The bytes of the next write of the fill loop. -/
def Env.fillSize (zipDataLen : ℕ) : ℕ :=
  if u32 (zipDataLen * 4) > env.tmpBufSize then env.tmpBufSize else u32 (zipDataLen * 4)

theorem Env.four_dvd_fillSize (n : ℕ) : 4 ∣ env.fillSize n := by
  unfold Env.fillSize Env.tmpBufSize u32
  split <;> split <;> omega

/-- The loop that writes a fill chunk; `none` if it does not end. -/
def Env.fillLoop (buf : Mem) (zipDataLen curAddr : ℕ) (dev : σ) : Option (ℕ × σ) :=
  if zipDataLen = 0 then some (curAddr, dev)
  else
    let i := env.fillSize zipDataLen
    if i = 0 then none
    else
      Env.fillLoop buf (zipDataLen - i / 4) (u64 (curAddr + i))
        (env.flashexWrite curAddr buf i dev).2
termination_by zipDataLen
decreasing_by
  have := env.four_dvd_fillSize zipDataLen
  omega

/-- The block after the `switch` under `f_need_sync`. -/
def syncChunk (s : State σ) (c : Chunk) : State σ :=
  let s := s.flush env
  if c.type = 2 then
    let buf := env.fillBuf c.fill s.tmp
    match env.fillLoop buf c.len s.ldSet.curAddr s.dev with
    | none => s.hang
    | some (curAddr, dev) =>
      { s with
        tmp := buf
        ldSet := { s.ldSet with curAddr := curAddr }
        dev := dev }
  else
    let s := { s with ldSet := { s.ldSet with curAddr := u64 (s.ldSet.curAddr + c.len) } }
    if c.len % defBlkSize ≠ 0 then s.hang else s

/-- The block after it: the staging buffer has no room for another packet. -/
def flushFull (s : State σ) : State σ :=
  if s.maxCnt ≠ 0 ∧ s.maxCnt = s.threshold then s.flush env else s

/-- The response. A packet that no command has turned around is handled as one from the
host once more. -/
def respond (s : State σ) (pk : Packet) : State σ :=
  if pk.fromHost then
    let r := handleFromHost pk
    { s.record r.2 with sent := s.sent ++ [slice r.1.data 0 r.1.dataSize] }
  else
    let r := handleToHost pk s.up
    { s with
      up := r.2
      sent := s.sent ++ [slice r.1.data 0 r.1.dataSize] }

/-- `down_desc.size`. -/
def State.downSize (s : State σ) : ℕ :=
  s.exp.size + cmdCmdSize + cmdCrcSize + if s.exp.cmdId = Cmd.data.id then cmdDataFillSize else 0

/-- `pre_handle`. -/
def State.preHandle (s : State σ) (recv : Mem) : Packet × Arith :=
  let r := handleFromHost ⟨true, cmdNone, u16 s.downSize, recv⟩
  (if s.exp.flag ∧ r.1.cmdId ≠ s.exp.cmdId then { r.1 with cmdId := cmdFail } else r.1, r.2)

/-- `syncChunk` if it is needed. -/
def syncPending (s : State σ) : Option Chunk → State σ
  | none => s
  | some c => syncChunk env s c

/-- What follows the `switch`. -/
def finish (t : Turn σ) : State σ :=
  if t.s.hung then t.s
  else
    let s := syncPending env t.s t.sync
    if s.hung then s
    else if t.needResp then respond (flushFull env s) t.pk else flushFull env s

/-- One turn of the loop of `loader_scheduler`. -/
def loaderScheduler (s : State σ) (recv : Mem) : State σ :=
  if s.hung then s
  else
    let r := s.preHandle recv
    let s := s.record r.2
    if s.linked = false ∧ r.1.cmdId ≠ Cmd.linkEst.id then s
    else finish env (dispatch env { s with linked := true } r.1)

/-- The loop as a machine that takes packets. -/
def loader : Machine (State σ) Mem Unit where
  step s recv := ((), loaderScheduler env s recv)

end Scheduler

/-- The state in which the loop is entered. The expected command and the settings are not
initialised. -/
def State.initial {σ : Type*} (cmdId : UInt8) (ldSet : LoaderSet) (dev : σ) : State σ where
  linked := false
  exp := ⟨false, cmdId, defPackLen⟩
  ldSet := ldSet
  restBytes := 0
  threshold := 0
  maxCnt := 0
  tmp := fun _ => 0
  tmpSize := 0
  up := fun _ => 0
  upSize := 0
  partNameLen := 0
  partBlkSt := 0
  partBlkLen := 0
  dev := dev
  hung := false
  sent := []
  ops := []

/-- A flash that is one array of blocks and in which everything succeeds. -/
def flatEnv (noDdr forceResp : Bool) (blLen capacity : ℕ) : Env Mem where
  noDdr := noDdr
  forceResp := forceResp
  writeBlLen := blLen
  readBlLen := blLen
  capacity := capacity
  blockWrite start cnt buf flash := (cnt, overlay flash (start * blLen) (cnt * blLen) buf)
  blockRead start cnt dst flash :=
    (cnt, overlay dst 0 (cnt * blLen) (advance flash (start * blLen)), flash)
  erase _ _ flash := (true, flash)
  partitions := []
  efuseRead flash := (none, flash)
  efuseWrite _ flash := (true, flash)
  ocr := fun _ => 0
  cid := fun _ => 0
  csd := fun _ => 0
  rca := fun _ => 0
  scr := fun _ => 0
  lowByte := 0

end UBoot.Loader
