import UBoot.Library.LittleEndian
import UBoot.Word

/-!
# The NAND part

Below the driver there is a part that erases blocks, programs pages and reads them.
A program only clears bits; erasing sets them. Which programs and erases fail, and what a
failed one leaves behind, is an arbitrary pattern over the operations that each page and
each block has seen. A read delivers what
the page holds; the verdict of the ECC engine on it is arbitrary, as nothing is known
about the code in the spare area of a blank page. Of the spare areas only the bad block
marker is kept: it is the first spare byte (`bad_block_pos = page_size` in both supported
parts), and the free bytes that user data can occupy lie behind it.
-/
namespace UBoot.Nand
open ByteStore

def nandMaxBbtSlots : ℕ := 24
def nandMaxRelocEntry : ℕ := 127
def nandEccErr : ℤ := -1000

inductive EccBit where
  | ecc1Bit | ecc4Bit | ecc8Bit
  deriving DecidableEq

/-- The fields of `struct nand_chip` that the driver computes with. Block numbers fit a
`ushort` below 0xFFFF, the reserve in force at power-on is a proper part of the chip, a
page holds the table header and 127 items, and sizes do not wrap. -/
structure NandChip where
  maxBlocks : ℕ
  maxPages : ℕ
  pageSize : ℕ
  spareSize : ℕ
  io16 : Bool
  eccBit : EccBit
  reserve_lt : nandMaxRelocEntry < maxBlocks
  blocks_lt : maxBlocks < 65535
  pages_ge : nandMaxBbtSlots + 2 ≤ maxPages
  table_le : 512 ≤ pageSize
  page_dvd : 4 ∣ pageSize
  bytes_lt : maxBlocks * maxPages * (pageSize + spareSize) < 2 ^ 32

def micron4GbX16 : NandChip where
  maxBlocks := 2048
  maxPages := 64
  pageSize := 4096
  spareSize := 224
  io16 := true
  eccBit := .ecc8Bit
  reserve_lt := by decide
  blocks_lt := by decide
  pages_ge := by decide
  table_le := by decide
  page_dvd := by decide
  bytes_lt := by decide

/-- Which operations fail and what they leave. Programs are numbered page by page, erases
block by block and reads page by page; what is left may depend on the old contents, and
for a program also on the new. -/
structure Faults where
  programFails : ℕ → ℕ → Bool
  torn : ℕ → ℕ → Mem → Mem → Mem
  tornMarker : ℕ → ℕ → UInt8
  eraseFails : ℕ → ℕ → Bool
  halfErased : ℕ → ℕ → Mem → Mem
  halfErasedMarker : ℕ → ℕ → UInt8
  eccError : ℕ → ℕ → Bool

/-- The main area and the bad block marker of every physical page, and how often each
page was programmed and read and each block erased. -/
structure Part where
  page : ℕ → Mem
  marker : ℕ → UInt8
  programs : ℕ → ℕ
  erases : ℕ → ℕ
  reads : ℕ → ℕ

/-- An erased page. -/
def blank : Mem := fun _ => 0xFF

/-- The first `n` bytes from a pointer on: what a page of `n` bytes keeps. -/
def cut (n : ℕ) (m : Mem) : Mem := fun i => if i < n then m i else 0xFF

/-- What a program makes of a page: bits are cleared, none is set. -/
def programmed (old new : Mem) : Mem := fun i => old i &&& new i

@[simp] theorem programmed_blank (m : Mem) : programmed blank m = m := by
  funext i
  exact UInt8.neg_one_and

theorem cut_of_lt (m : Mem) {n i : ℕ} (h : i < n) : cut n m i = m i := if_pos h

theorem fetch_cut (m : Mem) {n off k : ℕ} (h : off + k ≤ n) :
    fetch (cut n m) off k = fetch m off k := by
  apply fetch_congr
  intro i hi
  exact cut_of_lt m (by omega)

namespace Part
variable (chip : NandChip) (f : Faults)

/-- `__nand_core_erase_nobbt`. -/
def erase (block : ℕ) (F : Part) : ℤ × Part :=
  let n := F.erases block
  let erases := Function.update F.erases block (n + 1)
  if f.eraseFails block n then
    (-1, { F with
      erases := erases
      page := fun p => if p / chip.maxPages = block then f.halfErased p n (F.page p) else F.page p
      marker := fun p =>
        if p / chip.maxPages = block then f.halfErasedMarker p n else F.marker p })
  else
    (0, { F with
      erases := erases
      page := fun p => if p / chip.maxPages = block then blank else F.page p
      marker := fun p => if p / chip.maxPages = block then 0xFF else F.marker p })

/-- `__nand_core_write_page` with a data buffer; the marker byte sent is 0xFF, which
programs nothing. -/
def writePage (page : ℕ) (dbuf : Mem) (F : Part) : ℤ × Part :=
  let n := F.programs page
  let programs := Function.update F.programs page (n + 1)
  if f.programFails page n then
    (-1, { F with
      programs := programs
      page := Function.update F.page page (f.torn page n (F.page page) (cut chip.pageSize dbuf))
      marker := Function.update F.marker page (f.tornMarker page n) })
  else
    (0, { F with
      programs := programs
      page := Function.update F.page page
        (programmed (F.page page) (cut chip.pageSize dbuf)) })

/-- `__nand_core_write_page` with spare bytes only. -/
def writeSpare (page : ℕ) (mark : UInt8) (F : Part) : ℤ × Part :=
  let n := F.programs page
  let programs := Function.update F.programs page (n + 1)
  if f.programFails page n then
    (-1, { F with
      programs := programs
      page := Function.update F.page page (f.torn page n (F.page page) (F.page page))
      marker := Function.update F.marker page (f.tornMarker page n) })
  else
    (0, { F with
      programs := programs
      marker := Function.update F.marker page (F.marker page &&& mark) })

/-- `__nand_core_read_page`: the status and the data. -/
def readPage (page : ℕ) (F : Part) : ℤ × Mem × Part :=
  let n := F.reads page
  (if f.eccError page n then nandEccErr else 0, F.page page,
    { F with reads := Function.update F.reads page (n + 1) })

/-- `__nand_core_check`: the markers of the first two pages; reading them never fails. -/
def check (block : ℕ) (F : Part) : ℤ :=
  if F.marker (block * chip.maxPages) ≠ 0xFF then -1
  else if F.marker (block * chip.maxPages + 1) ≠ 0xFF then -1
  else 0

/-- `__nand_core_mark_bad`; whether the two programs succeed is not looked at. -/
def markBad (block : ℕ) (F : Part) : Part :=
  let F₁ := (writeSpare f (block * chip.maxPages) 0x11 F).2
  (writeSpare f (block * chip.maxPages + 1) 0x11 F₁).2

end Part

theorem NandChip.maxPages_pos (chip : NandChip) : 0 < chip.maxPages := by
  have := chip.pages_ge
  omega

@[simp] theorem NandChip.page_div (chip : NandChip) {block off : ℕ} (h : off < chip.maxPages) :
    (block * chip.maxPages + off) / chip.maxPages = block := by
  rw [Nat.mul_comm, Nat.mul_add_div chip.maxPages_pos, Nat.div_eq_of_lt h, Nat.add_zero]

@[simp] theorem NandChip.first_div (chip : NandChip) (block : ℕ) :
    block * chip.maxPages / chip.maxPages = block := Nat.mul_div_cancel _ chip.maxPages_pos

/-- `F'` has the contents, the markers and the history of `F` in every page of `P`. -/
structure AgreeOn (chip : NandChip) (P : Set ℕ) (F F' : Part) : Prop where
  page : ∀ p ∈ P, F'.page p = F.page p
  marker : ∀ p ∈ P, F'.marker p = F.marker p
  programs : ∀ p ∈ P, F'.programs p = F.programs p
  erases : ∀ b, b * chip.maxPages ∈ P → F'.erases b = F.erases b

/-- The pages of the blocks that are not in `B`. -/
def outside (chip : NandChip) (B : Set ℕ) : Set ℕ := {p | p / chip.maxPages ∉ B}

namespace AgreeOn
variable {chip : NandChip} {P Q : Set ℕ} {F F' F'' : Part}

@[refl] theorem refl (P : Set ℕ) (F : Part) : AgreeOn chip P F F where
  page _ _ := rfl
  marker _ _ := rfl
  programs _ _ := rfl
  erases _ _ := rfl

theorem trans (h : AgreeOn chip P F F') (h' : AgreeOn chip P F' F'') : AgreeOn chip P F F'' where
  page p hp := (h'.page p hp).trans (h.page p hp)
  marker p hp := (h'.marker p hp).trans (h.marker p hp)
  programs p hp := (h'.programs p hp).trans (h.programs p hp)
  erases b hb := (h'.erases b hb).trans (h.erases b hb)

theorem mono (h : AgreeOn chip P F F') (hs : Q ⊆ P) : AgreeOn chip Q F F' where
  page p hp := h.page p (hs hp)
  marker p hp := h.marker p (hs hp)
  programs p hp := h.programs p (hs hp)
  erases b hb := h.erases b (hs hb)

/-- A block whose first two pages are kept is judged as before. -/
theorem check (h : AgreeOn chip P F F') {block : ℕ} (h₀ : block * chip.maxPages ∈ P)
    (h₁ : block * chip.maxPages + 1 ∈ P) : F'.check chip block = F.check chip block := by
  rw [Part.check, Part.check, h.marker _ h₀, h.marker _ h₁]

end AgreeOn

theorem outside_mono {chip : NandChip} {B C : Set ℕ} (h : B ⊆ C) :
    outside chip C ⊆ outside chip B := fun _ hp hb => hp (h hb)

section Frames
variable (chip : NandChip) (f : Faults) (F : Part)

theorem erase_agreeOn (block : ℕ) :
    AgreeOn chip (outside chip {block}) F (F.erase chip f block).2 := by
  unfold Part.erase outside
  dsimp only
  split <;> constructor <;> intro p hp <;> simp_all

theorem writePage_agreeOn (page : ℕ) (dbuf : Mem) :
    AgreeOn chip {page}ᶜ F (F.writePage chip f page dbuf).2 := by
  unfold Part.writePage
  dsimp only
  split <;> constructor <;> intro p hp <;> simp_all

theorem writeSpare_agreeOn (page : ℕ) (mark : UInt8) :
    AgreeOn chip {page}ᶜ F (F.writeSpare f page mark).2 := by
  unfold Part.writeSpare
  dsimp only
  split <;> constructor <;> intro p hp <;> simp_all

theorem readPage_agreeOn (page : ℕ) :
    AgreeOn chip Set.univ F (F.readPage f page).2.2 := by
  constructor <;> intro p _ <;> rfl

theorem markBad_agreeOn (block : ℕ) :
    AgreeOn chip {block * chip.maxPages, block * chip.maxPages + 1}ᶜ F
      (F.markBad chip f block) := by
  apply AgreeOn.trans
  · apply (writeSpare_agreeOn chip f F (block * chip.maxPages) 0x11).mono
    intro p hp he
    exact hp (.inl he)
  · apply (writeSpare_agreeOn chip f _ (block * chip.maxPages + 1) 0x11).mono
    intro p hp he
    exact hp (.inr he)

end Frames

section Effects
variable {chip : NandChip} {f : Faults} {F : Part}

theorem erase_fst (block : ℕ) :
    (F.erase chip f block).1 = if f.eraseFails block (F.erases block) then -1 else 0 := by
  unfold Part.erase
  dsimp only
  split <;> rfl

theorem erase_page {block p : ℕ} (h : (F.erase chip f block).1 = 0)
    (hp : p / chip.maxPages = block) : (F.erase chip f block).2.page p = blank := by
  rw [erase_fst] at h
  have hok : f.eraseFails block (F.erases block) = false := by simpa using h
  simp [Part.erase, hok, hp]

theorem writePage_fst (page : ℕ) (dbuf : Mem) :
    (F.writePage chip f page dbuf).1 = if f.programFails page (F.programs page) then -1 else 0 := by
  unfold Part.writePage
  dsimp only
  split <;> rfl

theorem writePage_page {page : ℕ} {dbuf : Mem} (h : (F.writePage chip f page dbuf).1 = 0) :
    (F.writePage chip f page dbuf).2.page page =
      programmed (F.page page) (cut chip.pageSize dbuf) := by
  rw [writePage_fst] at h
  have hok : f.programFails page (F.programs page) = false := by simpa using h
  simp [Part.writePage, hok]

/-- A page that was blank holds what was sent. -/
theorem writePage_of_blank {page : ℕ} {dbuf : Mem} (h : (F.writePage chip f page dbuf).1 = 0)
    (hblank : F.page page = blank) :
    (F.writePage chip f page dbuf).2.page page = cut chip.pageSize dbuf := by
  rw [writePage_page h, hblank, programmed_blank]

end Effects
end UBoot.Nand
