import UBoot.Library.Machine
import UBoot.Nand.Bbt

/-!
# Reading, writing and erasing

`nand_write`, `nand_read` and `nand_erase` over the pages and blocks of the chip. Spare
bytes are not held in the model: what a comparison says of the spare bytes behind a page,
and what a read delivers there, are arguments of the calls.
-/
namespace UBoot.Nand
open ByteStore

/-- The operation flags of `comip_nand.h`. -/
structure Flags where
  oobYaffs : Bool
  oobRaw : Bool
  ignoreErr : Bool
  checkBlank : Bool
  deriving DecidableEq

/-- `flags & (NANDF_OOB_YAFFS | NANDF_OOB_RAW)`. -/
def Flags.oob (flags : Flags) : Bool := flags.oobYaffs || flags.oobRaw

/-- `__nand_core_compare_to_pattern` on a data buffer: all its words are 0xFFFFFFFF. -/
def allOnes (dbuf : Mem) (size : ℕ) : Bool :=
  (List.range (size / 4)).all fun i => decide (fetch dbuf (4 * i) 4 = 0xFFFFFFFF)

/-- What the comparisons say of spare bytes: of those behind the page at a buffer offset,
and of the driver's own spare buffer. -/
structure SpareOnes where
  inBuf : ℕ → Bool
  inGsbuf : Bool

/-- The spare bytes a read lays behind the page in the buffer, page by page, and what the
comparison says of the spare bytes of that page. -/
structure SpareRead where
  laid : ℕ → Mem
  ones : ℕ → Bool

section Functions
variable (chip : NandChip) (f : Faults)

/-- Bytes from one page of the caller's buffer to the next. -/
def stride (flags : Flags) : ℕ :=
  if flags.oob then chip.pageSize + chip.spareSize else chip.pageSize

/-- Write `n` pages from page `first` of a block on, once. In block 0 the table slots and
blank pages are passed over. -/
def writeAttempt (buf : Mem) (off first n : ℕ) (flags : Flags) (spare : SpareOnes)
    (realBlock : ℕ) (F : Part) : ℤ × Part :=
  let base := realBlock * chip.maxPages + first
  if realBlock = 0 then
    let data := fun i => advance buf (off + i * chip.pageSize)
    let skip := fun i => !(decide (base + i < chip.maxPages - nandMaxBbtSlots)) ||
      (allOnes (data i) chip.pageSize && (!flags.oob || spare.inGsbuf))
    writePages chip f skip data base n 0 F
  else
    let data := fun i => advance buf (off + i * stride chip flags)
    let skip := fun i => flags.oob && allOnes (data i) chip.pageSize &&
      spare.inBuf (off + i * stride chip flags + chip.pageSize)
    writePages chip f skip data base n 0 F

/-- The loop of `__nand_core_write`; each round takes at least one page, so `page_num`
rounds are enough. -/
def writeLoop (buf : Mem) (flags : Flags) (spare : SpareOnes) :
    ℕ → ℕ → ℕ → ℕ → ℕ → Driver → ℤ × Driver
  | 0, _, _, _, _, s => (0, s)
  | fuel + 1, block, first, pageNum, off, s =>
    if pageNum = 0 then (0, s)
    else
      let n := min (chip.maxPages - first) pageNum
      let r := retryRelocating chip f (writeAttempt chip f buf off first n flags spare)
        (chip.maxBlocks + 1) (findRealBlock s.reloc block) s
      if r.1 ≠ 0 then r
      else writeLoop buf flags spare fuel (block + 1) 0 (pageNum - n)
        (off + n * stride chip flags) r.2

/-- `__nand_core_write`. -/
def coreWrite (page pageNum : ℕ) (buf : Mem) (flags : Flags) (spare : SpareOnes) (s : Driver) :
    ℤ × Driver :=
  writeLoop chip f buf flags spare pageNum (page / chip.maxPages) (page % chip.maxPages) pageNum
    0 s

/-- Read the next `n` pages of a block from page `page` on to offset `off` of the buffer. -/
def readPiece (flags : Flags) (spare : SpareRead) :
    ℕ → ℕ → ℕ → Mem → Part → ℤ × Mem × Part
  | 0, _, _, buf, F => (0, buf, F)
  | n + 1, page, off, buf, F =>
    let r := F.readPage f page
    let buf₁ := overlay buf off chip.pageSize r.2.1
    let buf₂ := if flags.oob then
      overlay buf₁ (off + chip.pageSize) chip.spareSize (spare.laid page) else buf₁
    let forgiven := flags.oobRaw || flags.ignoreErr ||
      (decide (r.1 = nandEccErr) && flags.checkBlank && allOnes r.2.1 chip.pageSize &&
        (!flags.oob || spare.ones page))
    if r.1 ≠ 0 ∧ forgiven = false then (r.1, buf₂, r.2.2)
    else readPiece flags spare n (page + 1) (off + stride chip flags) buf₂ r.2.2

/-- The loop of `__nand_core_read`. -/
def readLoop (flags : Flags) (spare : SpareRead) :
    ℕ → ℕ → ℕ → ℕ → ℕ → Mem → Driver → ℤ × Mem × Driver
  | 0, _, _, _, _, buf, s => (0, buf, s)
  | fuel + 1, block, first, pageNum, off, buf, s =>
    if pageNum = 0 then (0, buf, s)
    else
      let n := min (chip.maxPages - first) pageNum
      let r := readPiece chip f flags spare n
        (findRealBlock s.reloc block * chip.maxPages + first) off buf s.part
      if r.1 ≠ 0 then (r.1, r.2.1, { s with part := r.2.2 })
      else readLoop flags spare fuel (block + 1) 0 (pageNum - n)
        (off + n * stride chip flags) r.2.1 { s with part := r.2.2 }

/-- `__nand_core_read`. -/
def coreRead (page pageNum : ℕ) (buf : Mem) (flags : Flags) (spare : SpareRead) (s : Driver) :
    ℤ × Mem × Driver :=
  readLoop chip f flags spare pageNum (page / chip.maxPages) (page % chip.maxPages) pageNum
    0 buf s

/-- `__nand_fill_boot_header`: the buffer afterwards. -/
def fillBootHeader (buf : Mem) : Mem :=
  let word := fetch buf 0 4
  let len := if word < 8 * 1024 ∨ word > 110 * 1024 then 110 * 1024 / chip.pageSize * chip.pageSize
    else word
  let pageNum := blocksUp len chip.pageSize % 256
  if pageNum > chip.maxPages - nandMaxBbtSlots then buf
  else
    let ecc := match chip.eccBit with
      | .ecc1Bit => 0x00
      | .ecc4Bit => 0x10
      | .ecc8Bit => 0x08
    let width := if chip.io16 then 0x20 else 0
    let log := Nat.log2 (if chip.io16 then chip.pageSize / 2 else chip.pageSize)
    let info := 0x80 ||| ecc ||| width ||| log
    let len64 := blocksUp len 64 * 64
    let b₁ := overlay buf 0 34 fun _ => UInt8.ofNat info
    let b₂ := overlay b₁ 34 34 fun _ => UInt8.ofNat pageNum
    overlay b₂ 100 4 (digits len64)

/-- `chip_size`. -/
def chipBytes (flags : Flags) : ℕ := u32 (chip.maxBlocks * chip.maxPages * stride chip flags)

/-- `__nand_core_check_bbt`. -/
def coreCheckBbt (s : Driver) : Bool := decide (s.reloc.header = validHeader)

/-- `page_end - page_start` of `nand_write` and `nand_read`; the words wrap. -/
def pageCount (start size : ℕ) (flags : Flags) : ℕ :=
  if flags.oob then blocksUp size (chip.pageSize + chip.spareSize)
  else u32 (blocksUp (u32 (start + size)) chip.pageSize + 2 ^ 32 - start / chip.pageSize)

/-- The checks that `nand_write` and `nand_read` share. -/
def rangeRefused (buf : Option Mem) (start size : ℕ) (flags : Flags) : Bool :=
  buf.isNone || decide (size = 0) || decide (start % chip.pageSize ≠ 0) ||
    decide (start > chipBytes chip flags) || decide (u32 (start + size) > chipBytes chip flags)

/-- The buffer as `nand_write` hands it on: the boot header in front of block 0, and the
padding of the last page, which is put at `buf + start + size`. -/
def writeBuffer (buf : Mem) (start size : ℕ) (flags : Flags) : Mem :=
  let b := if start = 0 then fillBootHeader chip buf else buf
  if flags.oob = false ∧ u32 (start + size) % chip.pageSize ≠ 0 then
    overlay b (start + size) (chip.pageSize - u32 (start + size) % chip.pageSize) blank
  else b

/-- `nand_write`; the pointer sum in its padding is taken not to wrap. -/
def nandWrite (buf : Option Mem) (start size : ℕ) (flags : Flags) (spare : SpareOnes)
    (s : Driver) : ℤ × Driver :=
  if coreCheckBbt s = false then (-1, s)
  else if rangeRefused chip buf start size flags then (-1, s)
  else
    let r := coreWrite chip f (start / chip.pageSize) (pageCount chip start size flags)
      (writeBuffer chip (buf.getD blank) start size flags) flags spare s
    if r.1 ≠ 0 then r else nandFinalize chip f r.2

/-- `nand_read`: the status, the caller's buffer and the state. -/
def nandRead (buf : Option Mem) (start size : ℕ) (flags : Flags) (spare : SpareRead)
    (s : Driver) : ℤ × Mem × Driver :=
  if coreCheckBbt s = false then (-1, buf.getD blank, s)
  else if rangeRefused chip buf start size flags then (-1, buf.getD blank, s)
  else
    coreRead chip f (start / chip.pageSize) (pageCount chip start size flags) (buf.getD blank)
      flags spare s

/-- The loop of `nand_erase` over the next `n` blocks from block `i` on. -/
def eraseBlocks : ℕ → ℕ → Driver → ℤ × Driver
  | 0, _, s => (0, s)
  | n + 1, i, s =>
    if i = 0 then
      let e := s.part.erase chip f 0
      let s' := { s with part := e.2, bbtChanged := true, bbtSlot := slotMax chip }
      if e.1 ≠ 0 then (e.1, s') else eraseBlocks n (i + 1) s'
    else
      let r := coreErase chip f i s
      if r.1 ≠ 0 then r else eraseBlocks n (i + 1) r.2

/-- `block_start` and the clamped `block_end` of `nand_erase`. -/
def eraseStart (start : ℕ) : ℕ := start / chip.pageSize / chip.maxPages

def eraseEnd (gmax start len : ℕ) : ℕ :=
  min (blocksUp (blocksUp (u32 (start + len)) chip.pageSize) chip.maxPages)
    (chip.maxBlocks - gmax)

/-- `nand_erase`. -/
def nandErase (start len : ℕ) (s : Driver) : ℤ × Driver :=
  if coreCheckBbt s = false then (-1, s)
  else if len = 0 ∨ start % (chip.pageSize * chip.maxPages) ≠ 0 then (-1, s)
  else
    let lo := eraseStart chip start
    let hi := eraseEnd chip s.gmaxRelocEntry start len
    if lo ≥ chip.maxBlocks - s.gmaxRelocEntry ∨ lo ≥ hi then (-1, s)
    else
      let r := eraseBlocks chip f (hi - lo) lo s
      if r.1 ≠ 0 then r else nandFinalize chip f r.2

/-- The calls of the interface. -/
inductive Call where
  | write (buf : Option Mem) (start size : ℕ) (flags : Flags) (spare : SpareOnes)
  | read (buf : Option Mem) (start size : ℕ) (flags : Flags) (spare : SpareRead)
  | erase (start len : ℕ)
  | finalize

/-- One call: the status, the buffer a read fills, and the state. -/
def call (c : Call) (s : Driver) : ℤ × Option Mem × Driver :=
  match c with
  | .write buf start size flags spare =>
    let r := nandWrite chip f buf start size flags spare s
    (r.1, none, r.2)
  | .read buf start size flags spare =>
    let r := nandRead chip f buf start size flags spare s
    (r.1, some r.2.1, r.2.2)
  | .erase start len =>
    let r := nandErase chip f start len s
    (r.1, none, r.2)
  | .finalize =>
    let r := nandFinalize chip f s
    (r.1, none, r.2)

/-- What happens to a board: a call, or a power cycle up to and including `nand_init`. -/
inductive Action where
  | call (c : Call)
  | reboot

/-- The driver, and the part as it was when its blocks were last scanned. -/
structure Board where
  driver : Driver
  lastScan : Part

/-- A board that was not powered up yet; `gmax_reloc_entry` has its static value. -/
def powerOff (F : Part) : Board :=
  ⟨⟨F, fun _ => 0, false, 0, false, nandMaxRelocEntry⟩, F⟩

/-- The last page of block 0 carries a table. -/
def TablePresent (F : Part) : Prop := RelocTable.header (F.page (slotMax chip)) = validHeader

instance (F : Part) : Decidable (TablePresent chip F) := inferInstanceAs (Decidable (_ = _))

/-- A power cycle. -/
def reboot (s : Driver) : ℤ × Driver :=
  nandInit chip f { s with gmaxRelocEntry := nandMaxRelocEntry }

def boardStep (b : Board) : Action → (ℤ × Option Mem) × Board
  | .call c =>
    let r := call chip f c b.driver
    ((r.1, r.2.1), { b with driver := r.2.2 })
  | .reboot =>
    let r := reboot chip f b.driver
    ((r.1, none), ⟨r.2, if TablePresent chip b.driver.part then b.lastScan else b.driver.part⟩)

def board : Machine Board Action (ℤ × Option Mem) := ⟨boardStep chip f⟩

/-- The board after it was powered up and went through the actions. -/
def afterBoot (F : Part) (actions : List Action) : Board :=
  (board chip f).run (powerOff F) (.reboot :: actions)

end Functions
end UBoot.Nand
