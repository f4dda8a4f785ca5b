import UBoot.Library.Scatter
import UBoot.Nand.Range

/-!
# The spare bytes

With `NANDF_OOB_YAFFS` or `NANDF_OOB_RAW` the caller's buffer holds each page with its spare
bytes behind it. A write lays the first 28 of them into the bytes that the ECC code leaves
free, in both modes; a read collects them again with `NANDF_OOB_YAFFS`, and with
`NANDF_OOB_RAW` delivers the spare area as it is.

The spare areas are held here beside the driver, as a map from physical pages, for programs
that succeed. The code that the ECC engine computes for a page is a parameter.
-/
namespace UBoot.Nand
open ByteStore

def yaffs2SpareSize : ℕ := 28
def nand4BitEccSpareStart : ℕ := 2
def nand4BitEccSpareSize : ℕ := 7
def nand8BitEccSpareStart : ℕ := 2
def nand8BitEccSpareSize : ℕ := 13

section Layout
variable (chip : NandChip)

/-- `gsectornum` and `gsectorspare`. -/
def sectorNum : ℕ := chip.pageSize / 512
def sectorSpare : ℕ := chip.spareSize / sectorNum chip

/-- `oobfree` of the layout that `__nand_info_init` chooses. -/
def oobFree : List (ℕ × ℕ) :=
  match chip.eccBit with
  | .ecc1Bit =>
    if chip.spareSize > 16 then [(11, 13), (27, 13), (43, 13), (59, 5), (2, 6)] else [(2, 6)]
  | .ecc4Bit =>
    let start := nand4BitEccSpareStart + nand4BitEccSpareSize * sectorNum chip
    [(start, chip.spareSize - start)]
  | .ecc8Bit =>
    let start := nand8BitEccSpareStart + nand8BitEccSpareSize * sectorNum chip
    [(start, chip.spareSize - start)]

/-- `comip_ecc_gen`: the code of the engine is put into the spare buffer. -/
def comipEccGen (hwecc : Mem → Mem) (dbuf sbuf : Mem) : Mem :=
  match chip.eccBit with
  | .ecc1Bit => (List.range 4).foldl (fun sbuf sector => overlay sbuf
      (sector * sectorSpare chip + 8) (min 3 (sectorSpare chip - 8))
      (advance (hwecc dbuf) (3 * sector))) sbuf
  | .ecc4Bit => overlay sbuf nand4BitEccSpareStart (nand4BitEccSpareSize * sectorNum chip)
      (hwecc dbuf)
  | .ecc8Bit => overlay sbuf nand8BitEccSpareStart (nand8BitEccSpareSize * sectorNum chip)
      (hwecc dbuf)

/-- `__nand_core_yaffs2oob`. -/
def yaffs2oob (yaffsBuf oobBuf : Mem) (len : ℕ) : Mem :=
  scatter yaffsBuf (oobFree chip) 0 len oobBuf

/-- `__nand_core_oob2yaffs`. -/
def oob2yaffs (yaffsBuf oobBuf : Mem) (len : ℕ) : Mem :=
  gather oobBuf (oobFree chip) 0 len yaffsBuf

/-- What the spare area of a page holds after `comip_nand_write_page`. -/
def spareSent (hwecc : Mem → Mem) (dbuf sbuf : Mem) : Mem :=
  cut (sectorSpare chip * sectorNum chip) (comipEccGen chip hwecc dbuf sbuf)

/-- The layout has room for the bytes of yaffs, inside the bytes sent and apart from the
ECC code. -/
structure OobFits : Prop where
  size : yaffs2SpareSize ≤ chip.spareSize
  room : yaffs2SpareSize ≤ room (oobFree chip)
  apart : (oobFree chip).Pairwise Apart
  inside : ∀ a, InAreas (oobFree chip) a → a < sectorSpare chip * sectorNum chip
  noEcc : ∀ hwecc dbuf sbuf a, InAreas (oobFree chip) a →
    comipEccGen chip hwecc dbuf sbuf a = sbuf a

end Layout

section Spares
variable (chip : NandChip) (hwecc : Mem → Mem)

/-- The comparisons of `__nand_core_write` on the spare bytes in the buffer; what the
driver's spare buffer holds matters for block 0 only. -/
def bufSpare (buf : Mem) (inGsbuf : Bool) : SpareOnes :=
  ⟨fun off => allOnes (advance buf off) chip.spareSize, inGsbuf⟩

/-- Program the cells of the next `n` pages of a block from page `i` on. -/
def programPages (skip : ℕ → Bool) (val : ℕ → Mem) (base : ℕ) :
    ℕ → ℕ → (ℕ → Mem) → ℕ → Mem
  | 0, _, C => C
  | n + 1, i, C =>
    if skip i then programPages skip val base n (i + 1) C
    else programPages skip val base n (i + 1)
      (Function.update C (base + i) (programmed (C (base + i)) (val i)))

/-- The spare areas after the pages of one block were written. -/
def spareAttempt (buf : Mem) (off first n : ℕ) (flags : Flags) (spare : SpareOnes)
    (realBlock : ℕ) (S : ℕ → Mem) : ℕ → Mem :=
  let base := realBlock * chip.maxPages + first
  if realBlock = 0 then
    let data := fun i => advance buf (off + i * chip.pageSize)
    let skip := fun i => !(decide (base + i < chip.maxPages - nandMaxBbtSlots)) ||
      (allOnes (data i) chip.pageSize && (!flags.oob || spare.inGsbuf))
    programPages skip (fun i => spareSent chip hwecc (data i) blank) base n 0 S
  else
    let data := fun i => advance buf (off + i * stride chip flags)
    let sbuf := fun i => if flags.oob then
      yaffs2oob chip (advance buf (off + i * stride chip flags + chip.pageSize)) blank
        yaffs2SpareSize else blank
    let skip := fun i => flags.oob && allOnes (data i) chip.pageSize &&
      spare.inBuf (off + i * stride chip flags + chip.pageSize)
    programPages skip (fun i => spareSent chip hwecc (data i) (sbuf i)) base n 0 S

/-- The spare areas after the loop of `__nand_core_write`. -/
def spareLoop (t : RelocTable) (buf : Mem) (flags : Flags) (spare : SpareOnes) :
    ℕ → ℕ → ℕ → ℕ → ℕ → (ℕ → Mem) → ℕ → Mem
  | 0, _, _, _, _, S => S
  | fuel + 1, block, first, pageNum, off, S =>
    if pageNum = 0 then S
    else
      let n := min (chip.maxPages - first) pageNum
      spareLoop t buf flags spare fuel (block + 1) 0 (pageNum - n) (off + n * stride chip flags)
        (spareAttempt chip hwecc buf off first n flags spare (findRealBlock t block) S)

/-- The spare areas after `nand_write`, outside block 0. -/
def nandWriteSpares (buf : Mem) (start size : ℕ) (flags : Flags) (spare : SpareOnes) (s : Driver)
    (S : ℕ → Mem) : ℕ → Mem :=
  if coreCheckBbt s = false then S
  else if rangeRefused chip (some buf) start size flags then S
  else
    let page := start / chip.pageSize
    let pageNum := pageCount chip start size flags
    spareLoop chip hwecc s.reloc (writeBuffer chip buf start size flags) flags spare pageNum
      (page / chip.maxPages) (page % chip.maxPages) pageNum 0 S

/-- What `__nand_core_read` leaves behind a page in the buffer, and its comparison. -/
def readSpares (flags : Flags) (S : ℕ → Mem) : SpareRead where
  laid p := if flags.oobYaffs then oob2yaffs chip blank (S p) yaffs2SpareSize else S p
  ones p := allOnes (S p) chip.spareSize

/-- A range written in one of the two modes reads back in that mode: the read succeeds, and
each page comes with its data and its 28 bytes. -/
def OobRoundTrip (f : Faults) (buf dst : Mem) (start n : ℕ) (flags : Flags) (inGsbuf : Bool)
    (s : Driver) (S : ℕ → Mem) : Prop :=
  let size := n * stride chip flags
  let spare := bufSpare chip buf inGsbuf
  let s' := (nandWrite chip f (some buf) start size flags spare s).2
  let S' := nandWriteSpares chip hwecc buf start size flags spare s S
  let r := nandRead chip f (some dst) start size flags (readSpares chip flags S') s'
  r.1 = 0 ∧ ∀ k < n,
    (∀ j < chip.pageSize, r.2.1 (k * stride chip flags + j) = buf (k * stride chip flags + j)) ∧
    ∀ j < yaffs2SpareSize, r.2.1 (k * stride chip flags + chip.pageSize + j) =
      buf (k * stride chip flags + chip.pageSize + j)

end Spares

section Cells
variable {chip : NandChip} {skip : ℕ → Bool} {val : ℕ → Mem}

theorem programPages_other {base n i p : ℕ} {C : ℕ → Mem}
    (h : ¬ (base + i ≤ p ∧ p < base + i + n)) :
    programPages skip val base n i C p = C p := by
  induction n generalizing i C with
  | zero => rfl
  | succ n ih =>
    rw [programPages]
    split
    · exact ih (by omega)
    · rw [ih (by omega), Function.update_of_ne (by omega)]

theorem programPages_apply {base n i j : ℕ} {C : ℕ → Mem} (hi : i ≤ j) (hj : j < i + n) :
    programPages skip val base n i C (base + j) =
      if skip j then C (base + j) else programmed (C (base + j)) (val j) := by
  induction n generalizing i C with
  | zero => omega
  | succ n ih =>
    rw [programPages]
    rcases Nat.eq_or_lt_of_le hi with rfl | hlt
    · split
      · exact programPages_other (by omega)
      · rw [programPages_other (by omega), Function.update_self]
    · split
      · exact ih hlt (by omega)
      · rw [ih hlt (by omega), Function.update_of_ne (by omega)]

/-- The loop over the blocks of a range; cell `k` of the range is programmed with value `k`. -/
def programLoop (chip : NandChip) (real : ℕ → ℕ) (skip : ℕ → Bool) (val : ℕ → Mem) :
    ℕ → ℕ → ℕ → ℕ → ℕ → (ℕ → Mem) → ℕ → Mem
  | 0, _, _, _, _, C => C
  | fuel + 1, block, first, pageNum, k, C =>
    if pageNum = 0 then C
    else
      let n := min (chip.maxPages - first) pageNum
      programLoop chip real skip val fuel (block + 1) 0 (pageNum - n) (k + n)
        (programPages (fun i => skip (k + i)) (fun i => val (k + i))
          (real block * chip.maxPages + first) n 0 C)

variable {real : ℕ → ℕ} {limit : ℕ}

/-- Blocks that the range does not lead to keep their cells. -/
theorem programLoop_other (fuel block first pageNum k : ℕ) (C : ℕ → Mem) {p : ℕ}
    (hfirst : first < chip.maxPages)
    (hend : block * chip.maxPages + first + pageNum ≤ limit * chip.maxPages)
    (hp : ∀ b, block ≤ b → b < limit → real b ≠ p / chip.maxPages) :
    programLoop chip real skip val fuel block first pageNum k C p = C p := by
  induction fuel generalizing block first pageNum k C with
  | zero => rfl
  | succ fuel ih =>
    rw [programLoop]
    split
    · rfl
    · have hmax := chip.maxPages_pos
      have hblock : block < limit := by
        by_contra hge
        have := Nat.mul_le_mul_right chip.maxPages (Nat.le_of_not_lt hge)
        omega
      have hpiece : ¬ (real block * chip.maxPages + first + 0 ≤ p ∧
          p < real block * chip.maxPages + first + 0 + min (chip.maxPages - first) pageNum) := by
        intro ⟨hlow, hhigh⟩
        apply hp block le_rfl hblock
        rw [show p = real block * chip.maxPages + (p - real block * chip.maxPages) by omega,
          chip.page_div (by omega)]
      dsimp only
      by_cases hmore : chip.maxPages - first < pageNum
      · rw [ih _ _ _ _ _ hmax (by rw [Nat.add_mul]; omega) (fun b hb hlt => hp b (by omega) hlt),
          programPages_other hpiece]
      · rw [show pageNum - min (chip.maxPages - first) pageNum = 0 by omega]
        cases fuel with
        | zero => exact programPages_other hpiece
        | succ fuel =>
          rw [programLoop, if_pos rfl]
          exact programPages_other hpiece

/-- Every page of the range is programmed with its value, unless it is passed over. -/
theorem programLoop_apply (fuel block first pageNum k : ℕ) (C : ℕ → Mem)
    (hfirst : first < chip.maxPages) (hfuel : pageNum ≤ fuel)
    (hend : block * chip.maxPages + first + pageNum ≤ limit * chip.maxPages)
    (hinj : ∀ b c, block ≤ b → b < limit → block ≤ c → c < limit → real b = real c → b = c)
    {j : ℕ} (hj : j < pageNum) {p : ℕ} (hp : p = block * chip.maxPages + first + j) :
    programLoop chip real skip val fuel block first pageNum k C
        (real (p / chip.maxPages) * chip.maxPages + p % chip.maxPages) =
      if skip (k + j) then C (real (p / chip.maxPages) * chip.maxPages + p % chip.maxPages)
      else programmed (C (real (p / chip.maxPages) * chip.maxPages + p % chip.maxPages))
        (val (k + j)) := by
  induction fuel generalizing block first pageNum k j C with
  | zero => omega
  | succ fuel ih =>
    have hmax := chip.maxPages_pos
    have hblock : block < limit := by
      by_contra hge
      have := Nat.mul_le_mul_right chip.maxPages (Nat.le_of_not_lt hge)
      omega
    rw [programLoop, if_neg (by omega)]
    by_cases hin : first + j < chip.maxPages
    · -- the page lies in this block
      have hdiv : p / chip.maxPages = block := by rw [hp, Nat.add_assoc, chip.page_div hin]
      have hmod : p % chip.maxPages = first + j := by
        rw [hp, Nat.add_assoc, Nat.mul_comm, Nat.mul_add_mod, Nat.mod_eq_of_lt hin]
      rw [hdiv, hmod, ← Nat.add_assoc]
      have hpiece := @programPages_apply (fun i => skip (k + i)) (fun i => val (k + i))
        (real block * chip.maxPages + first) (min (chip.maxPages - first) pageNum) 0 j C
        (Nat.zero_le j) (by omega)
      by_cases hmore : chip.maxPages - first < pageNum
      · rw [@programLoop_other chip skip val real limit _ _ _ _ _ _ _ hmax
          (by rw [Nat.add_mul]; omega)]
        · exact hpiece
        · intro b hb hlt heq
          rw [Nat.add_assoc, chip.page_div hin] at heq
          have := hinj b block (by omega) hlt le_rfl hblock heq
          omega
      · rw [show pageNum - min (chip.maxPages - first) pageNum = 0 by omega]
        cases fuel with
        | zero => exact hpiece
        | succ fuel =>
          rw [programLoop, if_pos rfl]
          exact hpiece
    · have hmin : min (chip.maxPages - first) pageNum = chip.maxPages - first := by omega
      have hnext : p = (block + 1) * chip.maxPages + 0 + (j - (chip.maxPages - first)) := by
        rw [hp, Nat.add_mul]
        omega
      rw [hmin, ih (block + 1) 0 _ _ _ hmax (by omega) (by rw [Nat.add_mul]; omega)
        (fun b c hb hlt hc hlt' => hinj b c (by omega) hlt (by omega) hlt') (by omega) hnext]
      have hother : ∀ q, q / chip.maxPages = real (p / chip.maxPages) →
          programPages (fun i => skip (k + i)) (fun i => val (k + i))
            (real block * chip.maxPages + first) (chip.maxPages - first) 0 C q = C q := by
        intro q hq
        apply programPages_other
        intro ⟨hlow, hhigh⟩
        have hdiv : q / chip.maxPages = real block := by
          rw [show q = real block * chip.maxPages + (q - real block * chip.maxPages) by omega,
            chip.page_div (by omega)]
        have hplimit : p / chip.maxPages < limit := by
          rw [Nat.div_lt_iff_lt_mul hmax]
          omega
        have hpblock : block + 1 ≤ p / chip.maxPages := by
          rw [Nat.le_div_iff_mul_le hmax]
          omega
        have := hinj _ _ (by omega) hplimit le_rfl hblock (hq.symm.trans hdiv)
        omega
      rw [hother _ (chip.page_div (Nat.mod_lt p hmax)),
        show k + (chip.maxPages - first) + (j - (chip.maxPages - first)) = k + j by omega]

end Cells

section Loops
variable {chip : NandChip} {f : Faults} {flags : Flags} {limit : ℕ}

/-- Page `k` of the range is blank and is passed over. -/
def pageSkipped (chip : NandChip) (buf : Mem) (flags : Flags) (k : ℕ) : Bool :=
  allOnes (advance buf (k * stride chip flags)) chip.pageSize &&
    allOnes (advance buf (k * stride chip flags + chip.pageSize)) chip.spareSize

/-- The spare area that page `k` of the range gets. -/
def pageSpare (chip : NandChip) (hwecc : Mem → Mem) (buf : Mem) (flags : Flags) (k : ℕ) : Mem :=
  spareSent chip hwecc (advance buf (k * stride chip flags))
    (yaffs2oob chip (advance buf (k * stride chip flags + chip.pageSize)) blank yaffs2SpareSize)

theorem writePages_page (hp : ProgramsSucceed f) (skip : ℕ → Bool) (data : ℕ → Mem)
    (base n i : ℕ) (F : Part) :
    (writePages chip f skip data base n i F).2.page =
      programPages skip (fun i => cut chip.pageSize (data i)) base n i F.page := by
  induction n generalizing i F with
  | zero => rfl
  | succ n ih =>
    have hstatus : (F.writePage chip f (base + i) (data i)).1 = 0 := by
      rw [writePage_fst, hp]
      rfl
    have hpage : (F.writePage chip f (base + i) (data i)).2.page =
        Function.update F.page (base + i)
          (programmed (F.page (base + i)) (cut chip.pageSize (data i))) := by
      simp [Part.writePage, hp (base + i) (F.programs (base + i))]
    rw [writePages, programPages]
    split
    · exact ih _ _
    · dsimp only
      rw [if_neg (not_not.mpr hstatus), ih, hpage]

theorem stride_sum (off k i : ℕ) : k * off + i * off = (k + i) * off := (Nat.add_mul k i off).symm

/-- A write with spare bytes outside block 0 programs the cells of its pages. -/
theorem writeLoop_cells (hp : ProgramsSucceed f) (hoob : flags.oob = true) (buf : Mem)
    (inGsbuf : Bool) (fuel block first pageNum k : ℕ) (s : Driver) (hfirst : first < chip.maxPages)
    (hend : block * chip.maxPages + first + pageNum ≤ limit * chip.maxPages)
    (hreal : ∀ b, block ≤ b → b < limit → findRealBlock s.reloc b ≠ 0) :
    ∃ F, writeLoop chip f buf flags (bufSpare chip buf inGsbuf) fuel block first pageNum
        (k * stride chip flags) s = (0, { s with part := F }) ∧
      F.page = programLoop chip (findRealBlock s.reloc) (pageSkipped chip buf flags)
        (fun k => cut chip.pageSize (advance buf (k * stride chip flags))) fuel block first
        pageNum k s.part.page := by
  induction fuel generalizing block first pageNum k s with
  | zero => exact ⟨s.part, rfl, rfl⟩
  | succ fuel ih =>
    rw [writeLoop, programLoop]
    by_cases h0 : pageNum = 0
    · rw [if_pos h0, if_pos h0]
      exact ⟨s.part, rfl, rfl⟩
    · rw [if_neg h0, if_neg h0]
      dsimp only
      have hmax := chip.maxPages_pos
      have hblock : block < limit := by
        by_contra hge
        have := Nat.mul_le_mul_right chip.maxPages (Nat.le_of_not_lt hge)
        omega
      have hpiece : (writeAttempt chip f buf (k * stride chip flags) first
          (min (chip.maxPages - first) pageNum) flags (bufSpare chip buf inGsbuf)
          (findRealBlock s.reloc block) s.part).2.page =
          programPages (fun i => pageSkipped chip buf flags (k + i))
            (fun i => cut chip.pageSize (advance buf ((k + i) * stride chip flags)))
            (findRealBlock s.reloc block * chip.maxPages + first)
            (min (chip.maxPages - first) pageNum) 0 s.part.page := by
        rw [writeAttempt, if_neg (hreal block le_rfl hblock)]
        simp only [hoob, Bool.true_and, bufSpare, stride_sum]
        exact writePages_page hp _ _ _ _ _ _
      rw [retryRelocating_good _ (writeAttempt_good hp _ _ _ _ _)]
      dsimp only
      rw [if_neg (by simp), stride_sum, ← hpiece]
      by_cases hmore : chip.maxPages - first < pageNum
      · exact ih (block + 1) 0 _ _ { s with part := _ } hmax (by rw [Nat.add_mul]; omega)
          (fun b hb hlt => hreal b (by omega) hlt)
      · rw [show pageNum - min (chip.maxPages - first) pageNum = 0 by omega, writeLoop_zero]
        refine ⟨_, rfl, ?_⟩
        cases fuel with
        | zero => rfl
        | succ fuel => rw [programLoop, if_pos rfl]

theorem spareLoop_cells (hwecc : Mem → Mem) (hoob : flags.oob = true) (t : RelocTable) (buf : Mem)
    (inGsbuf : Bool) (fuel block first pageNum k : ℕ) (S : ℕ → Mem)
    (hfirst : first < chip.maxPages)
    (hend : block * chip.maxPages + first + pageNum ≤ limit * chip.maxPages)
    (hreal : ∀ b, block ≤ b → b < limit → findRealBlock t b ≠ 0) :
    spareLoop chip hwecc t buf flags (bufSpare chip buf inGsbuf) fuel block first pageNum
        (k * stride chip flags) S =
      programLoop chip (findRealBlock t) (pageSkipped chip buf flags)
        (pageSpare chip hwecc buf flags) fuel block first pageNum k S := by
  induction fuel generalizing block first pageNum k S with
  | zero => rfl
  | succ fuel ih =>
    rw [spareLoop, programLoop]
    by_cases h0 : pageNum = 0
    · rw [if_pos h0, if_pos h0]
    · rw [if_neg h0, if_neg h0]
      dsimp only
      have hmax := chip.maxPages_pos
      have hblock : block < limit := by
        by_contra hge
        have := Nat.mul_le_mul_right chip.maxPages (Nat.le_of_not_lt hge)
        omega
      have hpiece : spareAttempt chip hwecc buf (k * stride chip flags) first
          (min (chip.maxPages - first) pageNum) flags (bufSpare chip buf inGsbuf)
          (findRealBlock t block) S =
          programPages (fun i => pageSkipped chip buf flags (k + i))
            (fun i => pageSpare chip hwecc buf flags (k + i))
            (findRealBlock t block * chip.maxPages + first)
            (min (chip.maxPages - first) pageNum) 0 S := by
        rw [spareAttempt, if_neg (hreal block le_rfl hblock)]
        simp only [hoob, Bool.true_and, bufSpare, stride_sum, if_true]
        rfl
      rw [stride_sum, hpiece]
      by_cases hmore : chip.maxPages - first < pageNum
      · exact ih (block + 1) 0 _ _ _ hmax (by rw [Nat.add_mul]; omega)
          (fun b hb hlt => hreal b (by omega) hlt)
      · rw [show pageNum - min (chip.maxPages - first) pageNum = 0 by omega]
        cases fuel with
        | zero => rfl
        | succ fuel => rw [spareLoop, programLoop, if_pos rfl, if_pos rfl]

/-- Where no read fails, a piece is laid down page by page with its spare bytes. -/
theorem readPiece_oob (hf : ∀ p n, f.eccError p n = false) (hoob : flags.oob = true)
    (spare : SpareRead) (n page off : ℕ) (buf : Mem) (F : Part) :
    (readPiece chip f flags spare n page off buf F).1 = 0 ∧
      (∀ j < n,
        (∀ i < chip.pageSize, (readPiece chip f flags spare n page off buf F).2.1
          (off + j * stride chip flags + i) = F.page (page + j) i) ∧
        ∀ i < chip.spareSize, (readPiece chip f flags spare n page off buf F).2.1
          (off + j * stride chip flags + chip.pageSize + i) = spare.laid (page + j) i) ∧
      ∀ o < off, (readPiece chip f flags spare n page off buf F).2.1 o = buf o := by
  have hstride : stride chip flags = chip.pageSize + chip.spareSize := by rw [stride, if_pos hoob]
  induction n generalizing page off buf F with
  | zero => exact ⟨rfl, fun j hj => absurd hj (Nat.not_lt_zero j), fun _ _ => rfl⟩
  | succ n ih =>
    have hok : (F.readPage f page).1 = 0 := by
      show (if f.eccError page (F.reads page) = true then nandEccErr else 0) = 0
      rw [hf, if_neg (by simp)]
    rw [readPiece, hok]
    rw [if_neg (fun h => h.1 rfl), if_pos hoob]
    obtain ⟨hstatus, hpages, hlow⟩ := ih (page + 1) (off + stride chip flags)
      (overlay (overlay buf off chip.pageSize (F.readPage f page).2.1) (off + chip.pageSize)
        chip.spareSize (spare.laid page)) (F.readPage f page).2.2
    refine ⟨hstatus, ?_, ?_⟩
    · intro j hj
      cases j with
      | zero =>
        simp only [Nat.zero_mul, Nat.add_zero]
        constructor
        · intro i hi
          rw [hlow _ (by omega), overlay_of_not_mem _ _ (by omega), overlay_add _ _ hi]
          rfl
        · intro i hi
          rw [hlow _ (by omega), overlay_add _ _ hi]
      | succ j =>
        obtain ⟨hdata, hspare⟩ := hpages j (by omega)
        have hoff : off + (j + 1) * stride chip flags =
            off + stride chip flags + j * stride chip flags := by
          rw [Nat.add_mul]
          omega
        rw [hoff, show page + (j + 1) = page + 1 + j by omega]
        exact ⟨hdata, hspare⟩
    · intro o ho
      rw [hlow o (by omega), overlay_of_not_mem _ _ (by omega), overlay_of_not_mem _ _ (by omega)]

/-- Where no read fails, a read lays down the pages of its range with their spare bytes. -/
theorem readLoop_oob (hf : ∀ p n, f.eccError p n = false) (hoob : flags.oob = true)
    (spare : SpareRead) (fuel block first pageNum off : ℕ) (buf : Mem) (s : Driver)
    (hfirst : first < chip.maxPages) (hfuel : pageNum ≤ fuel) :
    (readLoop chip f flags spare fuel block first pageNum off buf s).1 = 0 ∧
      (∀ j < pageNum,
        (∀ i < chip.pageSize, (readLoop chip f flags spare fuel block first pageNum off buf s).2.1
          (off + j * stride chip flags + i) =
            s.part.page (physPage chip s (block * chip.maxPages + first + j)) i) ∧
        ∀ i < chip.spareSize, (readLoop chip f flags spare fuel block first pageNum off buf s).2.1
          (off + j * stride chip flags + chip.pageSize + i) =
            spare.laid (physPage chip s (block * chip.maxPages + first + j)) i) ∧
      ∀ o < off, (readLoop chip f flags spare fuel block first pageNum off buf s).2.1 o = buf o :=
        by
  have hmax := chip.maxPages_pos
  have hstride : stride chip flags = chip.pageSize + chip.spareSize := by rw [stride, if_pos hoob]
  induction fuel generalizing block first pageNum off buf s with
  | zero => exact ⟨rfl, fun j hj => by omega, fun _ _ => rfl⟩
  | succ fuel ih =>
    rw [readLoop]
    by_cases h0 : pageNum = 0
    · rw [if_pos h0]
      exact ⟨rfl, fun j hj => by omega, fun _ _ => rfl⟩
    · rw [if_neg h0]
      dsimp only
      obtain ⟨hstatus, hpages, hlow⟩ := @readPiece_oob chip _ _ hf hoob spare
        (min (chip.maxPages - first) pageNum) (findRealBlock s.reloc block * chip.maxPages + first)
        off buf s.part
      have hpage := @readPiece_page chip f flags spare
        (min (chip.maxPages - first) pageNum) (findRealBlock s.reloc block * chip.maxPages + first)
        off buf s.part
      rw [if_neg (not_not.mpr hstatus)]
      generalize readPiece chip f flags spare (min (chip.maxPages - first) pageNum)
        (findRealBlock s.reloc block * chip.maxPages + first) off buf s.part = r at *
      obtain ⟨hstatus', hpages', hlow'⟩ := ih (block + 1) 0
        (pageNum - min (chip.maxPages - first) pageNum)
        (off + min (chip.maxPages - first) pageNum * stride chip flags) r.2.1
        { s with part := r.2.2 } hmax (by omega)
      refine ⟨hstatus', ?_, ?_⟩
      · intro j hj
        by_cases hin : first + j < chip.maxPages
        · -- the page lies in this block
          obtain ⟨hdata, hspare⟩ := hpages j (by omega)
          have hmul : (j + 1) * stride chip flags ≤
              min (chip.maxPages - first) pageNum * stride chip flags :=
            Nat.mul_le_mul_right _ (by omega)
          rw [Nat.add_mul] at hmul
          rw [Nat.add_assoc (block * chip.maxPages), physPage_of_lt chip s block hin,
            ← Nat.add_assoc]
          constructor
          · intro i hi
            rw [hlow' _ (by omega)]
            exact hdata i hi
          · intro i hi
            rw [hlow' _ (by omega)]
            exact hspare i hi
        · have hmin : min (chip.maxPages - first) pageNum = chip.maxPages - first := by omega
          rw [hmin] at hpages' ⊢
          obtain ⟨hdata, hspare⟩ := hpages' (j - (chip.maxPages - first)) (by omega)
          have hoff : off + (chip.maxPages - first) * stride chip flags +
              (j - (chip.maxPages - first)) * stride chip flags = off + j * stride chip flags := by
            rw [Nat.add_assoc, ← Nat.add_mul]
            congr 2
            omega
          have hphys : physPage chip { s with part := r.2.2 } ((block + 1) * chip.maxPages + 0 +
              (j - (chip.maxPages - first))) =
              physPage chip s (block * chip.maxPages + first + j) := by
            rw [physPage, physPage, show (block + 1) * chip.maxPages + 0 +
              (j - (chip.maxPages - first)) = block * chip.maxPages + first + j by
                rw [Nat.add_mul]; omega]
          rw [hoff, hphys] at hdata hspare
          rw [← hpage]
          exact ⟨hdata, hspare⟩
      · intro o ho
        rw [hlow' o (by omega), hlow o ho]

end Loops

section RoundTrip
variable {chip : NandChip} {hwecc : Mem → Mem} {buf : Mem} {flags : Flags} {k : ℕ}

/-- The bytes of yaffs are collected again from the spare area they were laid into. -/
theorem oob2yaffs_spareSent (hfits : OobFits chip) (dbuf yaffs dst : Mem) {j : ℕ}
    (hj : j < yaffs2SpareSize) :
    oob2yaffs chip dst (spareSent chip hwecc dbuf (yaffs2oob chip yaffs blank yaffs2SpareSize))
      yaffs2SpareSize j = yaffs j := by
  have hroom := hfits.room
  apply @gather_scatter _ blank _ _ _ _ _ hfits.apart _ _ (Nat.zero_le j) hj (by omega)
  intro a ha
  rw [spareSent, cut_of_lt _ (hfits.inside a ha), hfits.noEcc _ _ _ a ha]
  rfl

/-- Nothing but 0xFF is collected from an erased spare area. -/
theorem oob2yaffs_blank (areas : List (ℕ × ℕ)) (total len j : ℕ) {dst : Mem} (h : dst j = 0xFF) :
    gather blank areas total len dst j = 0xFF := by
  induction areas generalizing total dst with
  | nil => exact h
  | cons area areas ih =>
    rw [gather]
    split
    · apply ih
      unfold overlay
      split
      · rfl
      · exact h
    · exact h

theorem allOnes_apply {dbuf : Mem} {size i : ℕ} (h : allOnes dbuf size = true)
    (hi : i < 4 * (size / 4)) : dbuf i = 0xFF := by
  have hword := List.all_eq_true.mp h (i / 4) (List.mem_range.mpr (by omega))
  have hfetch : fetch dbuf (4 * (i / 4)) 4 = 0xFFFFFFFF := of_decide_eq_true hword
  simp only [fetch] at hfetch
  have h0 := (dbuf (4 * (i / 4))).toNat_lt
  have h1 := (dbuf (4 * (i / 4) + 1)).toNat_lt
  have h2 := (dbuf (4 * (i / 4) + 1 + 1)).toNat_lt
  have h3 := (dbuf (4 * (i / 4) + 1 + 1 + 1)).toNat_lt
  have hcases : i = 4 * (i / 4) ∨ i = 4 * (i / 4) + 1 ∨ i = 4 * (i / 4) + 1 + 1 ∨
      i = 4 * (i / 4) + 1 + 1 + 1 := by omega
  apply UInt8.toNat_inj.mp
  show (dbuf i).toNat = 255
  rcases hcases with hi | hi | hi | hi <;> rw [hi] <;> omega

theorem pageSkipped_data (h : pageSkipped chip buf flags k = true) {j : ℕ}
    (hj : j < chip.pageSize) : buf (k * stride chip flags + j) = 0xFF := by
  have hdvd := chip.page_dvd
  have hbyte := @allOnes_apply _ _ j (Bool.and_eq_true_iff.mp h).1 (by omega)
  exact hbyte

theorem pageSkipped_spare (hfits : OobFits chip) (h : pageSkipped chip buf flags k = true) {j : ℕ}
    (hj : j < yaffs2SpareSize) : buf (k * stride chip flags + chip.pageSize + j) = 0xFF := by
  have hsize := hfits.size
  unfold yaffs2SpareSize at hj hsize
  have hbyte := @allOnes_apply _ _ j (Bool.and_eq_true_iff.mp h).2 (by omega)
  exact hbyte

/-- The range: whole pages of user blocks, which are erased. -/
structure ErasedRange (chip : NandChip) (s : Driver) (S : ℕ → Mem) (start n : ℕ) : Prop where
  pos : 0 < n
  aligned : start % chip.pageSize = 0
  low : chip.maxPages ≤ start / chip.pageSize
  high : start / chip.pageSize + n ≤ s.userEnd chip * chip.maxPages
  data : ∀ k < n, s.part.page (physPage chip s (start / chip.pageSize + k)) = blank
  spare : ∀ k < n, S (physPage chip s (start / chip.pageSize + k)) = blank

theorem pageCount_oob (hoob : flags.oob = true) (start n : ℕ) :
    pageCount chip start (n * stride chip flags) flags = n := by
  have hstride : stride chip flags = chip.pageSize + chip.spareSize := by rw [stride, if_pos hoob]
  have hpage := chip.pageSize_pos
  rw [pageCount, if_pos hoob, ← hstride, blocksUp, Nat.mul_mod_left, Nat.mul_div_cancel _
    (by omega)]
  rfl

namespace ErasedRange
variable {s : Driver} {S : ℕ → Mem} {start n : ℕ}

theorem start_ne_zero (h : ErasedRange chip s S start n) : start ≠ 0 := by
  have hmax := chip.maxPages_pos
  rintro rfl
  have := h.low
  rw [Nat.zero_div] at this
  omega

theorem inside (h : ErasedRange chip s S start n) (hoob : flags.oob = true) (b : Mem) :
    rangeRefused chip (some b) start (n * stride chip flags) flags = false := by
  have hpage := chip.pageSize_pos
  have hstride : stride chip flags = chip.pageSize + chip.spareSize := by rw [stride, if_pos hoob]
  apply rangeRefused_of_inside
  · exact Nat.mul_ne_zero h.pos.ne' (by omega)
  · exact h.aligned
  · have hneed : pagesNeeded chip (n * stride chip flags) flags = n := by
      rw [pagesNeeded, if_pos hoob, ← hstride, blocksUp, Nat.mul_mod_left,
        Nat.mul_div_cancel _ (by omega)]
      rfl
    have hend := Nat.mul_le_mul_right chip.maxPages (userEnd_le chip s)
    have := h.high
    rw [hneed, chipPages]
    omega

theorem pages : start / chip.pageSize / chip.maxPages * chip.maxPages +
    start / chip.pageSize % chip.maxPages = start / chip.pageSize := Nat.div_add_mod' _ _

theorem first_block (h : ErasedRange chip s S start n) :
    1 ≤ start / chip.pageSize / chip.maxPages := by
  rw [Nat.le_div_iff_mul_le chip.maxPages_pos]
  have := h.low
  omega

theorem end_le (h : ErasedRange chip s S start n) :
    start / chip.pageSize / chip.maxPages * chip.maxPages +
      start / chip.pageSize % chip.maxPages + n ≤ s.userEnd chip * chip.maxPages := by
  rw [pages]
  exact h.high

/-- The blocks of the range lie on real ones. -/
theorem real_ne_zero (h : ErasedRange chip s S start n) (hs : Sound chip s) {b : ℕ}
    (hb : start / chip.pageSize / chip.maxPages ≤ b) (hlt : b < s.userEnd chip) :
    findRealBlock s.reloc b ≠ 0 := hs.real_ne_zero hlt (h.first_block.trans hb)

end ErasedRange

/-- No two user blocks lie on one real block. -/
theorem Sound.real_injective {s : Driver} (hs : Sound chip s) {first : ℕ} (b c : ℕ)
    (_ : first ≤ b) (hb : b < s.userEnd chip) (_ : first ≤ c) (hc : c < s.userEnd chip)
    (heq : findRealBlock s.reloc b = findRealBlock s.reloc c) : b = c :=
  RelocTable.findRealBlock_injective hs.tos hb hc heq

section Written
variable {f : Faults} {s : Driver} {S : ℕ → Mem} {start n : ℕ}

/-- What a write of the range leaves in its pages. -/
theorem oob_written (hs : Sound chip s) (hbbt : coreCheckBbt s = true) (hoob : flags.oob = true)
    (hrange : ErasedRange chip s S start n) (hp : ProgramsSucceed f) (inGsbuf : Bool) :
    let s' := (nandWrite chip f (some buf) start (n * stride chip flags) flags
      (bufSpare chip buf inGsbuf) s).2
    s'.reloc = s.reloc ∧ ∀ k < n, s'.part.page (physPage chip s (start / chip.pageSize + k)) =
      if pageSkipped chip buf flags k then blank
      else cut chip.pageSize (advance buf (k * stride chip flags)) := by
  have hmax := chip.maxPages_pos
  have hcount := @pageCount_oob chip _ hoob start n
  have hbuffer : writeBuffer chip buf start (n * stride chip flags) flags = buf := by
    rw [writeBuffer, if_neg hrange.start_ne_zero, if_neg (by simp [hoob])]
  have hfirst := Nat.mod_lt (start / chip.pageSize) hmax
  obtain ⟨F, hrun, hF⟩ := writeLoop_cells hp hoob buf inGsbuf n _ _ n 0 s hfirst hrange.end_le
    fun b hb hlt => hrange.real_ne_zero hs hb hlt
  rw [Nat.zero_mul] at hrun
  have hwrite : nandWrite chip f (some buf) start (n * stride chip flags) flags
      (bufSpare chip buf inGsbuf) s = nandFinalize chip f { s with part := F } := by
    rw [nandWrite_accepted hbbt (hrange.inside hoob buf), hbuffer, hcount, coreWrite, hrun]
    rfl
  obtain ⟨hreloc, -, -, hkeeps⟩ := nandFinalize_keeps (f := f)
    (show ({ s with part := F } : Driver).bbtSlot ≤ slotMax chip from hs.slot_le)
  dsimp only
  rw [hwrite]
  refine ⟨hreloc, fun k hk => ?_⟩
  have hblock : (start / chip.pageSize + k) / chip.maxPages < s.userEnd chip := by
    rw [Nat.div_lt_iff_lt_mul hmax]
    have := hrange.high
    omega
  have hpos : 1 ≤ (start / chip.pageSize + k) / chip.maxPages :=
    hrange.first_block.trans (Nat.div_le_div_right (Nat.le_add_right _ _))
  rw [hkeeps _ (by rw [physPage_div]; exact hs.real_ne_zero hblock hpos)]
  have happly := @programLoop_apply _ (pageSkipped chip buf flags)
    (fun k => cut chip.pageSize (advance buf (k * stride chip flags))) _ _ n _ _ n 0 s.part.page
    hfirst le_rfl hrange.end_le hs.real_injective _ hk _
    (show start / chip.pageSize + k = _ by rw [ErasedRange.pages])
  have hblank := hrange.data k hk
  rw [physPage] at hblank ⊢
  rw [Nat.zero_add, ← hF, hblank, programmed_blank] at happly
  exact happly

/-- What a write of the range leaves in the spare areas. -/
theorem oob_written_spares (hs : Sound chip s) (hbbt : coreCheckBbt s = true)
    (hoob : flags.oob = true) (hrange : ErasedRange chip s S start n) (inGsbuf : Bool) :
    ∀ k < n, nandWriteSpares chip hwecc buf start (n * stride chip flags) flags
      (bufSpare chip buf inGsbuf) s S (physPage chip s (start / chip.pageSize + k)) =
        if pageSkipped chip buf flags k then blank else pageSpare chip hwecc buf flags k := by
  intro k hk
  have hcount := @pageCount_oob chip _ hoob start n
  have hbuffer : writeBuffer chip buf start (n * stride chip flags) flags = buf := by
    rw [writeBuffer, if_neg hrange.start_ne_zero, if_neg (by simp [hoob])]
  have hfirst := Nat.mod_lt (start / chip.pageSize) chip.maxPages_pos
  have hspares := spareLoop_cells hwecc hoob s.reloc buf inGsbuf n _ _ n 0 S hfirst hrange.end_le
    fun b hb hlt => hrange.real_ne_zero hs hb hlt
  rw [Nat.zero_mul] at hspares
  have hS : nandWriteSpares chip hwecc buf start (n * stride chip flags) flags
      (bufSpare chip buf inGsbuf) s S = programLoop chip (findRealBlock s.reloc)
        (pageSkipped chip buf flags) (pageSpare chip hwecc buf flags) n
        (start / chip.pageSize / chip.maxPages) (start / chip.pageSize % chip.maxPages) n 0 S := by
    rw [nandWriteSpares, hbbt, if_neg (by simp), hrange.inside hoob, if_neg (by simp), hbuffer,
      hcount]
    exact hspares
  have happly := @programLoop_apply _ (pageSkipped chip buf flags)
    (pageSpare chip hwecc buf flags) _ _ n _ _ n 0 S hfirst le_rfl hrange.end_le
    hs.real_injective _ hk _ (show start / chip.pageSize + k = _ by rw [ErasedRange.pages])
  have hblank := hrange.spare k hk
  rw [physPage] at hblank ⊢
  rw [Nat.zero_add, hblank, programmed_blank] at happly
  rw [hS]
  exact happly

/-- What a read of the range delivers after it was written in the same mode. -/
theorem oob_read (hs : Sound chip s)
    (hbbt : coreCheckBbt s = true) (hoob : flags.oob = true)
    (hrange : ErasedRange chip s S start n) (hp : ProgramsSucceed f)
    (hf : ∀ p n, f.eccError p n = false) (dst : Mem) (inGsbuf : Bool) :
    let spare := bufSpare chip buf inGsbuf
    let s' := (nandWrite chip f (some buf) start (n * stride chip flags) flags spare s).2
    let S' := nandWriteSpares chip hwecc buf start (n * stride chip flags) flags spare s S
    let r := nandRead chip f (some dst) start (n * stride chip flags) flags
      (readSpares chip flags S') s'
    r.1 = 0 ∧ ∀ k < n,
      (∀ j < chip.pageSize, r.2.1 (k * stride chip flags + j) = buf (k * stride chip flags + j)) ∧
      ∀ j < chip.spareSize, r.2.1 (k * stride chip flags + chip.pageSize + j) =
        let X := if pageSkipped chip buf flags k then blank else pageSpare chip hwecc buf flags k
        if flags.oobYaffs then oob2yaffs chip blank X yaffs2SpareSize j else X j := by
  obtain ⟨hreloc, hdata⟩ := @oob_written chip buf flags f s S start n hs hbbt hoob hrange hp inGsbuf
  have hspare := @oob_written_spares chip hwecc buf flags s S start n hs hbbt hoob hrange inGsbuf
  dsimp only
  generalize nandWriteSpares chip hwecc buf start (n * stride chip flags) flags
    (bufSpare chip buf inGsbuf) s S = S' at hspare ⊢
  generalize (nandWrite chip f (some buf) start (n * stride chip flags) flags
    (bufSpare chip buf inGsbuf) s).2 = s' at hreloc hdata ⊢
  have hphys : ∀ P, physPage chip s' P = physPage chip s P := fun P => by
    rw [physPage, physPage, hreloc]
  have hbbt' : coreCheckBbt s' = true := by
    rw [coreCheckBbt, hreloc]
    exact hbbt
  obtain ⟨hstatus, hread, -⟩ := @readLoop_oob chip _ _ hf hoob (readSpares chip flags S') n
    (start / chip.pageSize / chip.maxPages) (start / chip.pageSize % chip.maxPages) n 0 dst s'
    (Nat.mod_lt _ chip.maxPages_pos) le_rfl
  have hnandRead : nandRead chip f (some dst) start (n * stride chip flags) flags
      (readSpares chip flags S') s' = readLoop chip f flags (readSpares chip flags S') n
        (start / chip.pageSize / chip.maxPages) (start / chip.pageSize % chip.maxPages) n 0 dst
        s' := by
    rw [nandRead, hbbt', if_neg (by simp), hrange.inside hoob, if_neg (by simp),
      pageCount_oob hoob]
    rfl
  rw [hnandRead]
  refine ⟨hstatus, ?_⟩
  intro k hk
  obtain ⟨hd, hsp⟩ := hread k hk
  rw [ErasedRange.pages, hphys] at hd hsp
  simp only [Nat.zero_add] at hd hsp
  constructor
  · intro j hj
    rw [hd j hj, hdata k hk]
    split
    · rename_i hskip
      exact (pageSkipped_data hskip hj).symm
    · exact cut_of_lt _ hj
  · intro j hj
    rw [hsp j hj]
    show (if flags.oobYaffs = true then oob2yaffs chip blank _ yaffs2SpareSize else _) j = _
    rw [hspare k hk]
    split <;> rfl

end Written

/-- With `NANDF_OOB_YAFFS` a range reads back as it was written. With `NANDF_OOB_RAW` it does
exactly if each page is blank or its spare area begins with the 28 bytes as they were given. -/
theorem oobRoundTrip_iff (chip : NandChip) (f : Faults) (hwecc : Mem → Mem) (buf dst : Mem)
    (start n : ℕ) (flags : Flags) (inGsbuf : Bool) (s : Driver) (S : ℕ → Mem)
    (hs : Sound chip s) (hbbt : coreCheckBbt s = true) (hoob : flags.oob = true)
    (hfits : OobFits chip) (hrange : ErasedRange chip s S start n) (hp : ProgramsSucceed f)
    (hf : ∀ p n, f.eccError p n = false) :
    OobRoundTrip chip hwecc f buf dst start n flags inGsbuf s S ↔
      flags.oobYaffs = true ∨ ∀ k < n, pageSkipped chip buf flags k = true ∨
        ∀ j < yaffs2SpareSize, pageSpare chip hwecc buf flags k j =
          buf (k * stride chip flags + chip.pageSize + j) := by
  have hsize := hfits.size
  obtain ⟨hstatus, hpages⟩ := @oob_read chip hwecc buf flags f s S start n hs hbbt hoob hrange hp hf
    dst inGsbuf
  have hspare : ∀ k < n, ∀ j < yaffs2SpareSize,
      pageSkipped chip buf flags k = true ∨ flags.oobYaffs = true →
      (let X := if pageSkipped chip buf flags k then blank else pageSpare chip hwecc buf flags k
        if flags.oobYaffs then oob2yaffs chip blank X yaffs2SpareSize j else X j) =
          buf (k * stride chip flags + chip.pageSize + j) := by
    intro k _ j hj hor
    dsimp only
    by_cases hskip : pageSkipped chip buf flags k = true
    · have hbyte := pageSkipped_spare hfits hskip hj
      rw [if_pos hskip, hbyte]
      split
      · exact oob2yaffs_blank _ _ _ _ rfl
      · rfl
    · rw [if_neg hskip, if_pos (hor.resolve_left hskip), pageSpare,
        oob2yaffs_spareSent hfits _ _ _ hj]
      rfl
  unfold OobRoundTrip
  dsimp only at hstatus hpages ⊢
  constructor
  · intro ⟨_, hall⟩
    by_cases hyaffs : flags.oobYaffs = true
    · exact .inl hyaffs
    · refine .inr fun k hk => ?_
      by_cases hskip : pageSkipped chip buf flags k = true
      · exact .inl hskip
      · refine .inr fun j hj => ?_
        have hbyte := (hpages k hk).2 j (by omega)
        rw [if_neg hyaffs, if_neg hskip, (hall k hk).2 j hj] at hbyte
        exact hbyte.symm
  · intro hcond
    refine ⟨hstatus, fun k hk => ⟨(hpages k hk).1, fun j hj => ?_⟩⟩
    rw [(hpages k hk).2 j (by omega)]
    by_cases hor : pageSkipped chip buf flags k = true ∨ flags.oobYaffs = true
    · exact hspare k hk j hj hor
    · have hyaffs : ¬ flags.oobYaffs = true := fun h => hor (.inr h)
      have hskip : ¬ pageSkipped chip buf flags k = true := fun h => hor (.inl h)
      rw [if_neg hyaffs, if_neg hskip]
      exact ((hcond.resolve_left hyaffs) k hk).resolve_left hskip j hj

/-- A code of 8 bits leaves one area behind the marker bytes and the code. -/
theorem oobFits_ecc8Bit {chip : NandChip} (hecc : chip.eccBit = .ecc8Bit)
    (hroom : nand8BitEccSpareStart + nand8BitEccSpareSize * sectorNum chip + yaffs2SpareSize ≤
      chip.spareSize)
    (hdvd : sectorNum chip ∣ chip.spareSize) : OobFits chip := by
  have hfree : oobFree chip = [(nand8BitEccSpareStart + nand8BitEccSpareSize * sectorNum chip,
      chip.spareSize - (nand8BitEccSpareStart + nand8BitEccSpareSize * sectorNum chip))] := by
    rw [oobFree, hecc]
  constructor
  · omega
  · rw [hfree]
    simp only [room, List.map_cons, List.map_nil, List.sum_cons, List.sum_nil]
    omega
  · rw [hfree]
    exact List.pairwise_singleton _ _
  · intro a ha
    rw [hfree] at ha
    obtain ⟨area, hmem, hlow, hhigh⟩ := ha
    rw [List.mem_singleton] at hmem
    subst hmem
    rw [sectorSpare, Nat.div_mul_cancel hdvd]
    omega
  · intro hwecc dbuf sbuf a ha
    rw [hfree] at ha
    obtain ⟨area, hmem, hlow, hhigh⟩ := ha
    rw [List.mem_singleton] at hmem
    subst hmem
    rw [comipEccGen, hecc]
    exact overlay_of_not_mem _ _ (by omega)

def micron8GbX16 : NandChip where
  maxBlocks := 4096
  maxPages := 64
  pageSize := 4096
  spareSize := 224
  io16 := true
  eccBit := .ecc8Bit
  reserve_lt := by decide
  blocks_lt := by decide
  pages_ge := micron4GbX16.pages_ge
  table_le := micron4GbX16.table_le
  page_dvd := micron4GbX16.page_dvd
  bytes_lt := by decide

/-- `NAND_SUPPORT_TABLE` -/
def nandSupportTable : List NandChip := [micron4GbX16, micron8GbX16]

theorem oobFits_supported : ∀ chip ∈ nandSupportTable, OobFits chip := by
  intro chip hchip
  simp only [nandSupportTable, List.mem_cons, List.not_mem_nil, or_false] at hchip
  rcases hchip with rfl | rfl <;> exact oobFits_ecc8Bit rfl (by decide) (by decide)

set_option maxRecDepth 100000 in
/-- The first page of block 1 of a fresh part. -/
theorem erasedRange_booted :
    ErasedRange micron4GbX16 (booted wornFaults) (fun _ => blank) 262144 1 where
  pos := by decide
  aligned := by decide
  low := by decide
  high := by decide +kernel
  data k hk := by
    obtain rfl : k = 0 := by omega
    rfl
  spare _ _ := rfl

/-- One page of zeros with its bytes of yaffs. -/
theorem page_of_zeros_roundTrip :
    OobRoundTrip micron4GbX16 (fun _ => blank) wornFaults (fun _ => 0) blank 262144 1 oobFlags
      false (booted wornFaults) (fun _ => blank) := by
  have hsound : Sound micron4GbX16 (booted wornFaults) :=
    sound_reboot (by decide) (by decide +kernel)
  exact (oobRoundTrip_iff micron4GbX16 wornFaults (fun _ => blank) (fun _ => 0) blank 262144 1
    oobFlags false (booted wornFaults) (fun _ => blank) hsound (by decide +kernel) rfl
    (oobFits_supported _ List.mem_cons_self) erasedRange_booted (fun _ _ => rfl)
    fun _ _ => rfl).mpr (.inl rfl)

/-- Data with raw spare bytes. -/
def rawFlags : Flags := ⟨false, true, false, false⟩

/-- The same page written and read with `NANDF_OOB_RAW`: both calls succeed, and the first
spare byte comes back as the marker byte 0xFF. -/
theorem raw_spare_comes_back_shifted :
    let spare := bufSpare micron4GbX16 (fun _ => 0) false
    let w := nandWrite micron4GbX16 wornFaults (some fun _ => 0) 262144 4320 rawFlags spare
      (booted wornFaults)
    let r := nandRead micron4GbX16 wornFaults (some blank) 262144 4320 rawFlags
      (readSpares micron4GbX16 rawFlags (nandWriteSpares micron4GbX16 (fun _ => blank) (fun _ => 0)
        262144 4320 rawFlags spare (booted wornFaults) (fun _ => blank))) w.2
    ErasedRange micron4GbX16 (booted wornFaults) (fun _ => blank) 262144 1 ∧
    w.1 = 0 ∧ r.1 = 0 ∧ r.2.1 4096 = 0xFF ∧
    ¬ OobRoundTrip micron4GbX16 (fun _ => blank) wornFaults (fun _ => 0) blank 262144 1 rawFlags
      false (booted wornFaults) (fun _ => blank) := by
  intro spare w r
  refine ⟨erasedRange_booted, by decide +kernel, by decide +kernel, by decide +kernel, ?_⟩
  intro h
  exact absurd ((h.2 0 Nat.zero_lt_one).2 0 (by decide)) (by decide +kernel)

end RoundTrip
end UBoot.Nand
