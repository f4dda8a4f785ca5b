import UBoot.Nand.RealBlock

/-!
# The bad block table in block 0

The last 24 pages of block 0 are slots for copies of the relocation table, written from
the last page down. `__nand_core_load_bbt` reads the last page, then the slots below it
until one carries no header; if the last page carries none, the table is made by a scan
of the blocks. When the slots are used up, `__nand_core_write_bbt` erases block 0 and
writes its other pages back.
-/
namespace UBoot.Nand
open ByteStore

def slotMax (chip : NandChip) : ℕ := chip.maxPages - 1
def slotMin (chip : NandChip) : ℕ := slotMax chip - nandMaxBbtSlots + 1

/-- `NAND_RELOC_ENTRY`, and the bound `__nand_core_calc_reloc_entry` puts on it. -/
def relocEntry (chip : NandChip) : ℕ := min (chip.maxBlocks * 2 / 100) nandMaxRelocEntry

/-- `__nand_core_calc_reloc_entry`. -/
def coreCalcRelocEntry (chip : NandChip) (s : Driver) : Driver :=
  { s with gmaxRelocEntry := relocEntry chip }

/-- The table that `__nand_core_create_bbt` starts from. -/
def emptyTable : RelocTable := store16 (store16 blank 0 validHeader) 2 0

section Functions
variable (chip : NandChip) (f : Faults)

/-- The scan of `__nand_core_create_bbt` over the next `n` blocks from block `i` on. -/
def scanBlocks : ℕ → ℕ → Driver → ℤ × Driver
  | 0, _, s => (0, s)
  | n + 1, i, s =>
    if s.part.check chip i = 0 then scanBlocks n (i + 1) s
    else
      let q := coreRelocateBlock chip f i s
      if q.1 ≠ 0 then (q.1, q.2.2) else scanBlocks n (i + 1) q.2.2

/-- `__nand_core_create_bbt`. -/
def coreCreateBbt (s : Driver) : ℤ × Driver :=
  scanBlocks chip f (chip.maxBlocks - s.gmaxRelocEntry - 1) 1 { s with
    reloc := emptyTable
    bbtChanged := true
    bbtSlot := slotMax chip
    bbtFull := false }

/-- The loop of `__nand_core_load_bbt`: the status, the slot it stops at and the state.
Only the two fields of `struct reloc_table` in front of its items are copied. -/
def loadSlots : ℕ → Driver → ℤ × ℕ × Driver
  | 0, s => (0, 0, s)
  | slot + 1, s =>
    if slotMin chip ≤ slot then
      let r := s.part.readPage f slot
      let s' := { s with part := r.2.2 }
      if r.1 ≠ 0 ∧ r.1 ≠ nandEccErr then (r.1, slot, s')
      else if RelocTable.header r.2.1 ≠ validHeader then (0, slot, s')
      else loadSlots slot { s' with reloc := overlay s.reloc 0 4 r.2.1 }
    else (0, slot, s)

/-- `__nand_core_load_bbt`. -/
def coreLoadBbt (s : Driver) : ℤ × Driver :=
  let r := s.part.readPage f (slotMax chip)
  let s₁ := { s with part := r.2.2, reloc := r.2.1 }
  if r.1 ≠ 0 ∧ r.1 ≠ nandEccErr then (r.1, s₁)
  else if RelocTable.header s₁.reloc = validHeader then
    let q := loadSlots chip f (slotMax chip) s₁
    if q.1 ≠ 0 then (q.1, q.2.2)
    else if slotMin chip ≤ q.2.1 then
      (0, coreCalcRelocEntry chip { q.2.2 with
        bbtFull := false, bbtSlot := q.2.1, bbtChanged := false })
    else
      (0, coreCalcRelocEntry chip { q.2.2 with
        bbtFull := true, bbtSlot := slotMax chip, bbtChanged := true })
  else (0, coreCalcRelocEntry chip (coreCreateBbt chip f s₁).2)

/-- Read the next `n` pages from page `i` on into `grelocbuf`; any error ends it. -/
def readPages : ℕ → ℕ → (ℕ → Mem) → Part → ℤ × (ℕ → Mem) × Part
  | 0, _, buf, F => (0, buf, F)
  | n + 1, i, buf, F =>
    let r := F.readPage f i
    if r.1 ≠ 0 then (-1, buf, r.2.2)
    else readPages n (i + 1) (Function.update buf i r.2.1) r.2.2

/-- Write the next `n` pages from page `i` on, pages `skip` says to pass over excepted. -/
def writePages (skip : ℕ → Bool) (data : ℕ → Mem) (base : ℕ) : ℕ → ℕ → Part → ℤ × Part
  | 0, _, F => (0, F)
  | n + 1, i, F =>
    if skip i then writePages skip data base n (i + 1) F
    else
      let r := F.writePage chip f (base + i) (data i)
      if r.1 ≠ 0 then (r.1, r.2) else writePages skip data base n (i + 1) r.2

/-- The part of `__nand_core_write_bbt` that makes room in block 0. -/
def renewBlock0 (F : Part) : ℤ × Part :=
  let n := chip.maxPages - nandMaxBbtSlots
  let r := readPages f n 0 (fun _ _ => 0) F
  if r.1 ≠ 0 then (-1, r.2.2)
  else
    let e := r.2.2.erase chip f 0
    if e.1 ≠ 0 then (-1, e.2)
    else
      let w := writePages chip f (fun _ => false) r.2.1 0 n 0 e.2
      if w.1 ≠ 0 then (-1, w.2) else (0, w.2)

/-- The last part of `__nand_core_write_bbt`: write the table at `bbt_slot`. -/
def writeSlot (s : Driver) : ℤ × Driver :=
  let r := s.part.writePage chip f s.bbtSlot s.reloc
  if r.1 ≠ 0 then (r.1, { s with part := r.2 })
  else
    (0, { s with
      part := r.2
      bbtChanged := false
      bbtSlot := s.bbtSlot - 1
      bbtFull := decide (s.bbtSlot - 1 < chip.maxPages - nandMaxBbtSlots) })

/-- `__nand_core_write_bbt`. -/
def coreWriteBbt (s : Driver) : ℤ × Driver :=
  if s.bbtChanged = false then (0, s)
  else if s.reloc.header ≠ validHeader then (-1, s)
  else if s.bbtFull then
    let r := renewBlock0 chip f s.part
    if r.1 ≠ 0 then (-1, { s with part := r.2 })
    else writeSlot chip f { s with part := r.2, bbtSlot := slotMax chip }
  else writeSlot chip f s

/-- `nand_init` from the allocation of the buffers on, for a part that was recognised. -/
def nandInit (s : Driver) : ℤ × Driver :=
  coreLoadBbt chip f { s with
    reloc := fun _ => 0, bbtChanged := false, bbtSlot := 0, bbtFull := false }

/-- `nand_finalize`. -/
def nandFinalize (s : Driver) : ℤ × Driver := coreWriteBbt chip f s

end Functions
end UBoot.Nand
