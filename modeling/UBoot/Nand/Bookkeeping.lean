import UBoot.Nand.Padding
import UBoot.Nand.Persistence

/-!
# The slots as a run of tables

With programs and erases that succeed, the slots of block 0 hold a run of tables from the
last page down and are erased below it; `bbt_slot` is the slot below the run, or `bbt_full`
is set. `nand_erase` of block 0 moves `bbt_slot` back to the last page but leaves `bbt_full`
as it was: with the slots used up, `__nand_core_write_bbt` then tries to save the pages of
an erased block, and a read of an erased page that reports an ECC error ends it.
-/
namespace UBoot.Nand
open ByteStore

section Books
variable (chip : NandChip) (f : Faults)

/-- The slots above `q` carry tables, and `q` and those below it are erased. -/
structure TableRun (F : Part) (q : ℕ) : Prop where
  low : slotMin chip ≤ q + 1
  high : q ≤ slotMax chip
  tables : ∀ j, q < j → j ≤ slotMax chip → RelocTable.header (F.page j) = validHeader
  erased : ∀ j, slotMin chip ≤ j → j ≤ q → F.page j = blank

/-- `bbt_slot` is the erased slot below the run, or `bbt_full` says that there is none. -/
structure Books (s : Driver) (q : ℕ) : Prop where
  run : TableRun chip s.part q
  slot : s.bbtFull = false → s.bbtSlot = q
  full : s.bbtFull = true ↔ q < slotMin chip

/-- The state in which a call enters `nand_finalize`, if it does. -/
def finalizeState (c : Call) (s : Driver) : Option Driver :=
  match c with
  | .write buf start size flags spare =>
    if coreCheckBbt s = false ∨ rangeRefused chip buf start size flags = true then none
    else
      let r := coreWrite chip f (start / chip.pageSize) (pageCount chip start size flags)
        (writeBuffer chip (buf.getD blank) start size flags) flags spare s
      if r.1 ≠ 0 then none else some r.2
  | .read _ _ _ _ _ => none
  | .erase start len =>
    if coreCheckBbt s = false ∨ len = 0 ∨ start % (chip.pageSize * chip.maxPages) ≠ 0 then none
    else
      let lo := eraseStart chip start
      let hi := eraseEnd chip s.gmaxRelocEntry start len
      if lo ≥ chip.maxBlocks - s.gmaxRelocEntry ∨ lo ≥ hi then none
      else
        let r := eraseBlocks chip f (hi - lo) lo s
        if r.1 ≠ 0 then none else some r.2
  | .finalize => some s

/-- Where `nand_finalize` programs a table, the page is erased. -/
def WritesToErased (s : Driver) : Prop :=
  s.bbtChanged = true → s.reloc.header = validHeader →
    if s.bbtFull then (renewBlock0 chip f s.part).1 = 0 →
      (renewBlock0 chip f s.part).2.page (slotMax chip) = blank
    else s.part.page s.bbtSlot = blank

/-- `nand_erase` accepts the range, and block 0 is in it. -/
def ErasesBlock0 (s : Driver) (start len : ℕ) : Prop :=
  coreCheckBbt s = true ∧ len ≠ 0 ∧ start % (chip.pageSize * chip.maxPages) = 0 ∧
    eraseStart chip start = 0 ∧ 0 < chip.maxBlocks - s.gmaxRelocEntry ∧
    0 < eraseEnd chip s.gmaxRelocEntry start len

/-- Nothing was written to the slots, or the newest table is the lowest of the run. -/
def NewestLowest (s s' : Driver) : Prop :=
  SameSlots chip s.part s'.part ∨ ∃ q, Books chip s' q ∧ q < slotMax chip ∧
    s'.part.page (q + 1) = cut chip.pageSize s'.reloc ∧
    ∀ j, q + 1 < j → j ≤ slotMax chip → s'.part.page j = s.part.page j

/-- A call keeps the books: at its end the slots are a run of tables with the newest lowest
and the slot variables below it, a table went to an erased page, no error takes the table
away, and an erase of block 0 succeeds and writes the table again. -/
structure KeepsBooks (c : Call) (s : Driver) : Prop where
  books : ∃ q, Books chip (call chip f c s).2.2 q
  newest : NewestLowest chip s (call chip f c s).2.2
  erased : ∀ s₁, finalizeState chip f c s = some s₁ → WritesToErased chip f s₁
  stays : (call chip f c s).1 ≠ 0 → TablePresent chip s.part →
    TablePresent chip (call chip f c s).2.2.part
  rewrites : ∀ start len, c = .erase start len → ErasesBlock0 chip s start len →
    (call chip f c s).1 = 0 ∧ TablePresent chip (call chip f c s).2.2.part ∧
      (call chip f c s).2.2.part.page (slotMax chip) =
        cut chip.pageSize (call chip f c s).2.2.reloc

/-- With the slots used up, block 0 is erased only if its blank pages read without error. -/
def ErasesSafely (s : Driver) : Call → Prop
  | .erase start len => ErasesBlock0 chip s start len → s.bbtFull = true →
      ∀ i < chip.maxPages - nandMaxBbtSlots, f.eccError i (s.part.reads i) = false
  | _ => True

def StepErasesSafely (b : Board) : Action → Prop
  | .call c => ErasesSafely chip f b.driver c
  | .reboot => True

/-- A part whose slots are a run of tables, or none, that lead no block to block 0. -/
def Prepared (F : Part) : Prop :=
  ∃ q, TableRun chip F q ∧
    (q < slotMax chip → ∀ i, RelocTable.itemTo (F.page (slotMax chip)) i ≠ 0)

/-- What the books rest on between the calls. -/
structure Kept (s : Driver) (q : ℕ) : Prop extends Books chip s q where
  header : s.reloc.header = validHeader
  noZero : ∀ i, s.reloc.itemTo i ≠ 0
  gmax_lt : s.gmaxRelocEntry < chip.maxBlocks
  oldest : q < slotMax chip → ∀ i, RelocTable.itemTo (s.part.page (slotMax chip)) i ≠ 0

end Books

section Parts
variable {chip : NandChip} {f : Faults} {F F' : Part} {q : ℕ} {s : Driver}

theorem TableRun.congr (h : TableRun chip F q) (hs : SameSlots chip F F') :
    TableRun chip F' q := by
  have hlow := h.low
  refine ⟨h.low, h.high, ?_, ?_⟩
  · intro j hj hle
    rw [hs j ((mem_slots chip).mpr ⟨by omega, hle⟩)]
    exact h.tables j hj hle
  · intro j hj hle
    rw [hs j ((mem_slots chip).mpr ⟨hj, hle.trans h.high⟩)]
    exact h.erased j hj hle

theorem TableRun.unique {q' : ℕ} (h : TableRun chip F q) (h' : TableRun chip F q') : q = q' := by
  have hlow := h.low
  have hlow' := h'.low
  rcases Nat.lt_trichotomy q q' with hlt | heq | hlt
  · have htable := h.tables q' hlt h'.high
    rw [h'.erased q' (by omega) le_rfl] at htable
    exact absurd htable header_blank
  · exact heq
  · have htable := h'.tables q hlt h.high
    rw [h.erased q (by omega) le_rfl] at htable
    exact absurd htable header_blank

theorem TableRun.present_iff (h : TableRun chip F q) : TablePresent chip F ↔ q < slotMax chip := by
  constructor
  · intro hpresent
    by_contra hq
    have hblank := h.erased (slotMax chip) (slotMin_le chip).2 (by omega)
    rw [TablePresent, hblank] at hpresent
    exact header_blank hpresent
  · exact fun hq => h.tables _ hq le_rfl

/-- What happens outside the slots does not change the books. -/
theorem Kept.congr (h : Kept chip s q) (hs : SameSlots chip s.part F) :
    Kept chip { s with part := F } q where
  run := h.run.congr hs
  slot := h.slot
  full := h.full
  header := h.header
  noZero := h.noZero
  gmax_lt := h.gmax_lt
  oldest hq i := by
    show RelocTable.itemTo (F.page (slotMax chip)) i ≠ 0
    rw [hs _ (slotMax_mem chip)]
    exact h.oldest hq i

/-- Every erase succeeds. -/
def ErasesSucceed (f : Faults) : Prop := ∀ b n, f.eraseFails b n = false

theorem erase_good (he : ErasesSucceed f) (b : ℕ) : (F.erase chip f b).1 = 0 := by
  rw [erase_fst, he]
  rfl

theorem erase_reads (b : ℕ) : (F.erase chip f b).2.reads = F.reads := by
  unfold Part.erase
  dsimp only
  split <;> rfl

/-- A write of the core changes pages outside the slots and nothing else. -/
theorem writeLoop_good (hp : ∀ p n, f.programFails p n = false) (buf : Mem) (flags : Flags)
    (spare : SpareOnes) (fuel block first pageNum off : ℕ) (s : Driver) :
    ∃ F, writeLoop chip f buf flags spare fuel block first pageNum off s =
      (0, { s with part := F }) ∧ SameSlots chip s.part F := by
  induction fuel generalizing block first pageNum off s with
  | zero => exact ⟨s.part, rfl, .refl _⟩
  | succ fuel ih =>
    rw [writeLoop]
    by_cases h0 : pageNum = 0
    · rw [if_pos h0]
      exact ⟨s.part, rfl, .refl _⟩
    · rw [if_neg h0]
      dsimp only
      rw [retryRelocating_good _ (writeAttempt_good hp _ _ _ _ _)]
      dsimp only
      rw [if_neg (by simp)]
      obtain ⟨F, hrun, hsame⟩ := ih (block + 1) 0 (pageNum - min (chip.maxPages - first) pageNum)
        (off + min (chip.maxPages - first) pageNum * stride chip flags)
        { s with part := (writeAttempt chip f buf off first
          (min (chip.maxPages - first) pageNum) flags spare
          (findRealBlock s.reloc block) s.part).2 }
      exact ⟨F, hrun, writeAttempt_sameSlots.trans hsame⟩

theorem coreErase_good (he : ErasesSucceed f) (b : ℕ) (s : Driver) :
    coreErase chip f b s =
      (0, { s with part := (s.part.erase chip f (findRealBlock s.reloc b)).2 }) :=
  retryRelocating_good _ (erase_good he _)

/-- An erase of blocks from block 1 on changes pages outside the slots and nothing else. -/
theorem eraseBlocks_good (he : ErasesSucceed f) (n i : ℕ) (hi : i ≠ 0) (s : Driver)
    (hs : Safe chip s) :
    ∃ F, eraseBlocks chip f n i s = (0, { s with part := F }) ∧ SameSlots chip s.part F ∧
      F.reads = s.part.reads := by
  induction n generalizing i s with
  | zero => exact ⟨s.part, rfl, .refl _, rfl⟩
  | succ n ih =>
    rw [eraseBlocks, if_neg hi]
    dsimp only
    rw [coreErase_good he, if_neg (by simp)]
    have hreal := hs.findRealBlock_ne_zero hi
    have hsame : SameSlots chip s.part (s.part.erase chip f (findRealBlock s.reloc i)).2 := by
      apply (erase_agreeOn chip f s.part _).sameSlots
      apply slots_subset_outside
      simpa using hreal.symm
    obtain ⟨F, hrun, hrest, hreads⟩ := ih (i + 1) (Nat.succ_ne_zero i)
      { s with part := (s.part.erase chip f (findRealBlock s.reloc i)).2 } ⟨hs.noZero, hs.gmax_lt⟩
    exact ⟨F, hrun, hsame.trans hrest, hreads.trans (erase_reads _)⟩

theorem readPages_good (n i : ℕ) (buf : ℕ → Mem) (F : Part) :
    (readPages f n i buf F).1 = 0 ↔ ∀ j, i ≤ j → j < i + n → f.eccError j (F.reads j) = false := by
  induction n generalizing i buf F with
  | zero =>
    refine ⟨fun _ j hj hlt => by omega, fun _ => rfl⟩
  | succ n ih =>
    have hstatus : (F.readPage f i).1 = 0 ↔ f.eccError i (F.reads i) = false := by
      unfold Part.readPage
      dsimp only
      cases f.eccError i (F.reads i) <;> simp [nandEccErr]
    have hlater : ∀ j, i + 1 ≤ j → (F.readPage f i).2.2.reads j = F.reads j := by
      intro j hj
      exact Function.update_of_ne (by omega) _ _
    rw [readPages]
    by_cases hok : (F.readPage f i).1 = 0
    · rw [if_neg (not_not.mpr hok), ih]
      constructor
      · intro h j hj hlt
        rcases Nat.eq_or_lt_of_le hj with rfl | hj
        · exact hstatus.mp hok
        · rw [← hlater j hj]
          exact h j hj (by omega)
      · intro h j hj hlt
        rw [hlater j hj]
        exact h j (by omega) (by omega)
    · rw [if_pos hok]
      refine ⟨fun h => absurd h (by simp), fun h => ?_⟩
      exact absurd (hstatus.mpr (h i le_rfl (by omega))) hok

/-- Making room in block 0 fails only where a page cannot be read, and then changes nothing. -/
theorem renewBlock0_good (hp : ∀ p n, f.programFails p n = false) (he : ErasesSucceed f)
    (F : Part) :
    ((renewBlock0 chip f F).1 = 0 ↔
      ∀ i < chip.maxPages - nandMaxBbtSlots, f.eccError i (F.reads i) = false) ∧
    ((renewBlock0 chip f F).1 ≠ 0 → (renewBlock0 chip f F).2.page = F.page) := by
  have hread := readPages_good (f := f) (chip.maxPages - nandMaxBbtSlots) 0 (fun _ _ => 0) F
  have hread' : (readPages f (chip.maxPages - nandMaxBbtSlots) 0 (fun _ _ => 0) F).1 = 0 ↔
      ∀ i < chip.maxPages - nandMaxBbtSlots, f.eccError i (F.reads i) = false := by
    rw [hread]
    constructor
    · exact fun h i hi => h i (Nat.zero_le i) (by omega)
    · exact fun h j _ hj => h j (by omega)
  rw [← hread']
  unfold renewBlock0
  dsimp only
  by_cases hok : (readPages f (chip.maxPages - nandMaxBbtSlots) 0 (fun _ _ => 0) F).1 = 0
  · rw [if_neg (not_not.mpr hok), if_neg (not_not.mpr (erase_good he 0)),
      if_neg (not_not.mpr (writePages_good hp _ _ _ _ _ _))]
    exact ⟨⟨fun _ => hok, fun _ => rfl⟩, fun h => absurd rfl h⟩
  · rw [if_pos hok]
    exact ⟨⟨fun h => absurd h (by simp), fun h => absurd h hok⟩, fun _ => readPages_page _ _ _ _⟩

theorem writeSlot_good (hp : ∀ p n, f.programFails p n = false) (s : Driver) :
    writeSlot chip f s = (0, { s with
      part := (s.part.writePage chip f s.bbtSlot s.reloc).2
      bbtChanged := false
      bbtSlot := s.bbtSlot - 1
      bbtFull := decide (s.bbtSlot - 1 < chip.maxPages - nandMaxBbtSlots) }) := by
  have hok : (s.part.writePage chip f s.bbtSlot s.reloc).1 = 0 := by
    rw [writePage_fst, hp]
    rfl
  rw [writeSlot]
  exact if_neg (not_not.mpr hok)

theorem itemTo_cut_ne {t : RelocTable} (h : ∀ i, t.itemTo i ≠ 0) (i : ℕ) :
    RelocTable.itemTo (cut chip.pageSize t) i ≠ 0 := by
  have hdvd := chip.page_dvd
  by_cases hin : 6 + 4 * i + 2 ≤ chip.pageSize
  · rw [RelocTable.itemTo, fetch_cut t hin]
    exact h i
  · have hout : ¬ 6 + 4 * i < chip.pageSize := by omega
    rw [RelocTable.itemTo, fetch, cut, if_neg hout]
    intro h0
    exact absurd (Nat.add_eq_zero_iff.mp h0).1 (by decide)

/-- The table goes to the erased slot below the run, and becomes its lowest. -/
theorem writeSlot_kept (hp : ∀ p n, f.programFails p n = false) (hrun : TableRun chip s.part q)
    (hq : slotMin chip ≤ q) (hslot : s.bbtSlot = q) (hheader : s.reloc.header = validHeader)
    (hzero : ∀ i, s.reloc.itemTo i ≠ 0) (hgmax : s.gmaxRelocEntry < chip.maxBlocks)
    (hold : q < slotMax chip → ∀ i, RelocTable.itemTo (s.part.page (slotMax chip)) i ≠ 0) :
    Kept chip (writeSlot chip f s).2 (q - 1) ∧
      (writeSlot chip f s).2.part.page q = cut chip.pageSize s.reloc ∧
      ∀ j, j ≠ q → (writeSlot chip f s).2.part.page j = s.part.page j := by
  have hpos := (slotMin_le chip).1
  have hpage : (s.part.writePage chip f q s.reloc).2.page q = cut chip.pageSize s.reloc := by
    apply writePage_of_blank _ (hrun.erased q hq le_rfl)
    rw [writePage_fst, hp]
    rfl
  have hothers : ∀ j, j ≠ q → (s.part.writePage chip f q s.reloc).2.page j = s.part.page j :=
    fun j hj => writePage_others hj
  rw [writeSlot_good hp, hslot]
  refine ⟨⟨⟨⟨?_, ?_, ?_, ?_⟩, fun _ => rfl, ?_⟩, hheader, hzero, hgmax, ?_⟩, hpage, hothers⟩
  · show slotMin chip ≤ q - 1 + 1
    omega
  · have := hrun.high
    omega
  · intro j hj hle
    show RelocTable.header ((s.part.writePage chip f q s.reloc).2.page j) = validHeader
    by_cases heq : j = q
    · rw [heq, hpage, header_cut]
      exact hheader
    · rw [hothers j heq]
      exact hrun.tables j (by omega) hle
  · intro j hj hle
    show (s.part.writePage chip f q s.reloc).2.page j = blank
    rw [hothers j (by omega)]
    exact hrun.erased j hj (by omega)
  · rw [slotMin_eq]
    exact decide_eq_true_iff
  · intro _ i
    show RelocTable.itemTo ((s.part.writePage chip f q s.reloc).2.page (slotMax chip)) i ≠ 0
    by_cases heq : slotMax chip = q
    · rw [heq, hpage]
      exact itemTo_cut_ne hzero i
    · rw [hothers _ heq]
      have := hrun.high
      exact hold (by omega) i

theorem tableRun_blank (h : ∀ p ∈ slots chip, F.page p = blank) :
    TableRun chip F (slotMax chip) where
  low := (slotMin_le chip).2.trans (Nat.le_succ _)
  high := le_rfl
  tables j hj hle := absurd hle (by omega)
  erased j hj hle := h j ((mem_slots chip).mpr ⟨hj, hle⟩)

/-- The table becomes the last page of a block 0 that was just erased. -/
theorem writeSlot_first (hp : ∀ p n, f.programFails p n = false)
    (hblank : ∀ p ∈ slots chip, F.page p = blank) (hheader : s.reloc.header = validHeader)
    (hzero : ∀ i, s.reloc.itemTo i ≠ 0) (hgmax : s.gmaxRelocEntry < chip.maxBlocks) :
    Kept chip (writeSlot chip f { s with part := F, bbtSlot := slotMax chip }).2
        (slotMax chip - 1) ∧
      (writeSlot chip f { s with part := F, bbtSlot := slotMax chip }).2.part.page (slotMax chip) =
        cut chip.pageSize s.reloc := by
  obtain ⟨hkept, hpage, -⟩ := @writeSlot_kept chip f (slotMax chip)
    { s with part := F, bbtSlot := slotMax chip } hp (tableRun_blank hblank) (slotMin_le chip).2
    rfl hheader hzero hgmax fun h => absurd h (lt_irrefl _)
  exact ⟨hkept, hpage⟩

theorem writeSlot_reloc (hp : ∀ p n, f.programFails p n = false) (s : Driver) :
    (writeSlot chip f s).2.reloc = s.reloc := by
  rw [writeSlot_good hp]

theorem nandFinalize_full (hchanged : s.bbtChanged = true) (hheader : s.reloc.header = validHeader)
    (hfull : s.bbtFull = true) :
    nandFinalize chip f s = if (renewBlock0 chip f s.part).1 ≠ 0 then
      (-1, { s with part := (renewBlock0 chip f s.part).2 })
    else writeSlot chip f { s with
      part := (renewBlock0 chip f s.part).2, bbtSlot := slotMax chip } := by
  rw [nandFinalize, coreWriteBbt, if_neg (by simp [hchanged]), if_neg (not_not.mpr hheader),
    if_pos hfull]

theorem nandFinalize_room (hchanged : s.bbtChanged = true) (hheader : s.reloc.header = validHeader)
    (hfull : s.bbtFull = false) : nandFinalize chip f s = writeSlot chip f s := by
  rw [nandFinalize, coreWriteBbt, if_neg (by simp [hchanged]), if_neg (not_not.mpr hheader),
    if_neg (by simp [hfull])]

/-- From a state with books in order, `nand_finalize` keeps them so. -/
theorem Kept.finalize (hp : ∀ p n, f.programFails p n = false) (he : ErasesSucceed f)
    (h : Kept chip s q) :
    (∃ q', Kept chip (nandFinalize chip f s).2 q') ∧
      NewestLowest chip s (nandFinalize chip f s).2 ∧ WritesToErased chip f s ∧
      (TablePresent chip s.part → TablePresent chip (nandFinalize chip f s).2.part) := by
  have hpos := (slotMin_le chip).1
  have hlast := (slotMin_le chip).2
  cases hchanged : s.bbtChanged with
  | false =>
    have heq : nandFinalize chip f s = (0, s) := by rw [nandFinalize, coreWriteBbt, if_pos hchanged]
    rw [heq]
    exact ⟨⟨q, h⟩, .inl (.refl _), fun hc => absurd (hchanged.symm.trans hc) (by simp), id⟩
  | true =>
    cases hfull : s.bbtFull with
    | true =>
      obtain ⟨hblank, -⟩ := @renewBlock0_slots chip f s.part
      have hwrites : WritesToErased chip f s := by
        intro _ _
        rw [hfull, if_pos rfl]
        exact fun hok => hblank hok _ (slotMax_mem chip)
      rw [nandFinalize_full hchanged h.header hfull]
      by_cases hok : (renewBlock0 chip f s.part).1 = 0
      · obtain ⟨hkept, hpage⟩ := writeSlot_first (f := f) hp (hblank hok) h.header h.noZero
          h.gmax_lt
        rw [if_neg (not_not.mpr hok)]
        refine ⟨⟨_, hkept⟩, .inr ⟨_, hkept.toBooks, by omega, ?_, ?_⟩, hwrites, fun _ => ?_⟩
        · rw [Nat.sub_add_cancel (by omega), hpage, writeSlot_reloc hp]
        · intro j hj hle
          omega
        · exact hkept.run.present_iff.mpr (by omega)
      · have hpage := (renewBlock0_good hp he s.part).2 hok
        have hsame : SameSlots chip s.part (renewBlock0 chip f s.part).2 :=
          fun p _ => congrFun hpage p
        rw [if_pos hok]
        refine ⟨⟨q, h.congr hsame⟩, .inl hsame, hwrites, ?_⟩
        intro hpresent
        rw [TablePresent, hpage]
        exact hpresent
    | false =>
      have hslot := h.slot hfull
      have hq : slotMin chip ≤ q := by
        by_contra hlt
        have := h.full.mpr (by omega)
        rw [hfull] at this
        exact absurd this (by simp)
      obtain ⟨hkept, hpage, hothers⟩ := writeSlot_kept (f := f) hp h.run hq hslot h.header h.noZero
        h.gmax_lt h.oldest
      have hhigh := h.run.high
      rw [nandFinalize_room hchanged h.header hfull]
      refine ⟨⟨_, hkept⟩, .inr ⟨_, hkept.toBooks, by omega, ?_, ?_⟩, ?_, fun _ => ?_⟩
      · rw [Nat.sub_add_cancel (by omega), hpage, writeSlot_reloc hp]
      · intro j hj _
        exact hothers j (by omega)
      · intro _ _
        rw [hfull, if_neg (by simp), hslot]
        exact h.run.erased q hq le_rfl
      · exact hkept.run.present_iff.mpr (by omega)

/-- With block 0 erased and `bbt_slot` put back, `nand_finalize` writes the table unless
`bbt_full` is still set and a blank page cannot be read. -/
theorem finalize_erased (hp : ∀ p n, f.programFails p n = false) (he : ErasesSucceed f)
    (hblank : ∀ p ∈ slots chip, s.part.page p = blank) (hslot : s.bbtSlot = slotMax chip)
    (hchanged : s.bbtChanged = true) (hheader : s.reloc.header = validHeader)
    (hzero : ∀ i, s.reloc.itemTo i ≠ 0) (hgmax : s.gmaxRelocEntry < chip.maxBlocks) :
    WritesToErased chip f s ∧
    ((s.bbtFull = true → ∀ i < chip.maxPages - nandMaxBbtSlots,
        f.eccError i (s.part.reads i) = false) →
      (nandFinalize chip f s).1 = 0 ∧ Kept chip (nandFinalize chip f s).2 (slotMax chip - 1) ∧
      (nandFinalize chip f s).2.part.page (slotMax chip) =
        cut chip.pageSize (nandFinalize chip f s).2.reloc) ∧
    (s.bbtFull = true → ¬ (∀ i < chip.maxPages - nandMaxBbtSlots,
        f.eccError i (s.part.reads i) = false) → (nandFinalize chip f s).1 ≠ 0) := by
  have hstate : s = { s with part := s.part, bbtSlot := slotMax chip } := by rw [← hslot]
  have hrenew := @renewBlock0_good chip _ hp he s.part
  cases hfull : s.bbtFull with
  | true =>
    obtain ⟨hblank', -⟩ := @renewBlock0_slots chip f s.part
    refine ⟨?_, ?_, ?_⟩
    · intro _ _
      rw [hfull, if_pos rfl]
      exact fun hok => hblank' hok _ (slotMax_mem chip)
    · intro hread
      have hok := hrenew.1.mpr (hread rfl)
      obtain ⟨hkept, hpage⟩ := writeSlot_first (f := f) hp (hblank' hok) hheader hzero hgmax
      rw [nandFinalize_full hchanged hheader hfull, if_neg (not_not.mpr hok), writeSlot_reloc hp]
      refine ⟨?_, hkept, hpage⟩
      rw [writeSlot_good hp]
    · intro _ hread
      rw [nandFinalize_full hchanged hheader hfull, if_pos (mt hrenew.1.mp hread)]
      simp
  | false =>
    obtain ⟨hkept, hpage⟩ := writeSlot_first (f := f) hp hblank hheader hzero hgmax
    rw [← hstate] at hkept hpage
    rw [nandFinalize_room hchanged hheader hfull, writeSlot_reloc hp]
    refine ⟨?_, fun _ => ⟨?_, hkept, hpage⟩, fun h => absurd h (by simp)⟩
    · intro _ _
      rw [hfull, if_neg (by simp), hslot]
      exact hblank _ (slotMax_mem chip)
    · rw [writeSlot_good hp]

end Parts

section Calls
variable {chip : NandChip} {f : Faults} {s : Driver} {q : ℕ}

/-- How a call goes on a part whose programs and erases succeed: something happens outside
the slots, with `nand_finalize` behind it or not, or block 0 is erased before it. -/
inductive Outcome (chip : NandChip) (f : Faults) (c : Call) (s : Driver) : Prop where
  | quiet {F : Part} (hsame : SameSlots chip s.part F)
      (hno : ∀ start len, c = .erase start len → ¬ ErasesBlock0 chip s start len)
      (hnone : finalizeState chip f c s = none)
      (hend : (call chip f c s).2.2 = { s with part := F })
  | finalized {F : Part} (hsame : SameSlots chip s.part F)
      (hno : ∀ start len, c = .erase start len → ¬ ErasesBlock0 chip s start len)
      (hsome : finalizeState chip f c s = some { s with part := F })
      (hstatus : (call chip f c s).1 = (nandFinalize chip f { s with part := F }).1)
      (hend : (call chip f c s).2.2 = (nandFinalize chip f { s with part := F }).2)
  | renewed {F : Part} {start len : ℕ} (hc : c = .erase start len)
      (hblock : ErasesBlock0 chip s start len) (hblank : ∀ p ∈ slots chip, F.page p = blank)
      (hreads : F.reads = s.part.reads)
      (hsome : finalizeState chip f c s =
        some { s with part := F, bbtChanged := true, bbtSlot := slotMax chip })
      (hstatus : (call chip f c s).1 = (nandFinalize chip f
        { s with part := F, bbtChanged := true, bbtSlot := slotMax chip }).1)
      (hend : (call chip f c s).2.2 = (nandFinalize chip f
        { s with part := F, bbtChanged := true, bbtSlot := slotMax chip }).2)

theorem write_outcome (hp : ∀ p n, f.programFails p n = false) (buf : Option Mem)
    (start size : ℕ) (flags : Flags) (spare : SpareOnes) :
    Outcome chip f (.write buf start size flags spare) s := by
  by_cases hrefused : coreCheckBbt s = false ∨ rangeRefused chip buf start size flags = true
  · apply Outcome.quiet (F := s.part) (.refl _) (fun _ _ hc => absurd hc (by simp))
    · exact if_pos hrefused
    · rw [call, nandWrite]
      rcases hrefused with hbbt | hrange
      · rw [if_pos hbbt]
      · rw [if_pos hrange, ite_self]
  · obtain ⟨F, hrun, hsame⟩ := @writeLoop_good chip _ hp
      (writeBuffer chip (buf.getD blank) start size flags) flags spare
      (pageCount chip start size flags) (start / chip.pageSize / chip.maxPages)
      (start / chip.pageSize % chip.maxPages) (pageCount chip start size flags) 0 s
    have hcore : coreWrite chip f (start / chip.pageSize) (pageCount chip start size flags)
        (writeBuffer chip (buf.getD blank) start size flags) flags spare s =
          (0, { s with part := F }) := hrun
    have hcall : nandWrite chip f buf start size flags spare s =
        nandFinalize chip f { s with part := F } := by
      rw [nandWrite, if_neg (fun h => hrefused (.inl h)), if_neg (fun h => hrefused (.inr h)),
        hcore]
      rfl
    apply Outcome.finalized hsame (fun _ _ hc => absurd hc (by simp))
    · rw [finalizeState, if_neg hrefused, hcore]
      rfl
    · rw [call, hcall]
    · rw [call, hcall]

theorem read_outcome (buf : Option Mem) (start size : ℕ) (flags : Flags) (spare : SpareRead) :
    Outcome chip f (.read buf start size flags spare) s := by
  have hread : ∃ F, (nandRead chip f buf start size flags spare s).2.2 = { s with part := F } ∧
      SameSlots chip s.part F := by
    rw [nandRead]
    split
    · exact ⟨s.part, rfl, .refl _⟩
    · split
      · exact ⟨s.part, rfl, .refl _⟩
      · obtain ⟨F, hpage, heq⟩ := @readLoop_state chip f flags spare
          (pageCount chip start size flags) (start / chip.pageSize / chip.maxPages)
          (start / chip.pageSize % chip.maxPages) (pageCount chip start size flags) 0
          (buf.getD blank) s
        exact ⟨F, heq, fun p _ => congrFun hpage p⟩
  obtain ⟨F, hstate, hsame⟩ := hread
  exact .quiet hsame (fun _ _ hc => absurd hc (by simp)) rfl hstate

theorem erase_outcome (he : ErasesSucceed f) (hs : Safe chip s) (start len : ℕ) :
    Outcome chip f (.erase start len) s := by
  by_cases hrefused : coreCheckBbt s = false ∨ len = 0 ∨
      start % (chip.pageSize * chip.maxPages) ≠ 0
  · apply Outcome.quiet (F := s.part) (.refl _)
    · rintro start len ⟨⟩ ⟨hbbt, hlen, halign, -⟩
      rcases hrefused with h | h | h
      · rw [hbbt] at h
        exact absurd h (by simp)
      · exact hlen h
      · exact h halign
    · exact if_pos hrefused
    · rw [call, nandErase]
      rcases hrefused with hbbt | hrange
      · rw [if_pos hbbt]
      · rw [if_pos hrange, ite_self]
  have hbbt : ¬ coreCheckBbt s = false := fun h => hrefused (.inl h)
  have hrange : ¬ (len = 0 ∨ start % (chip.pageSize * chip.maxPages) ≠ 0) :=
    fun h => hrefused (.inr h)
  by_cases hempty : eraseStart chip start ≥ chip.maxBlocks - s.gmaxRelocEntry ∨
      eraseStart chip start ≥ eraseEnd chip s.gmaxRelocEntry start len
  · apply Outcome.quiet (F := s.part) (.refl _)
    · rintro start len ⟨⟩ ⟨-, -, -, hlo, hmax, hhi⟩
      omega
    · rw [finalizeState, if_neg hrefused]
      exact if_pos hempty
    · rw [call, nandErase, if_neg hbbt, if_neg hrange]
      dsimp only
      rw [if_pos hempty]
  have hcall : ∀ s₁, eraseBlocks chip f
      (eraseEnd chip s.gmaxRelocEntry start len - eraseStart chip start)
      (eraseStart chip start) s = (0, s₁) →
      nandErase chip f start len s = nandFinalize chip f s₁ ∧
        finalizeState chip f (.erase start len) s = some s₁ := by
    intro s₁ hrun
    constructor
    · rw [nandErase, if_neg hbbt, if_neg hrange]
      dsimp only
      rw [if_neg hempty, hrun]
      rfl
    · rw [finalizeState, if_neg hrefused]
      dsimp only
      rw [if_neg hempty, hrun]
      rfl
  by_cases hlo : eraseStart chip start = 0
  · obtain ⟨n, hn⟩ : ∃ n, eraseEnd chip s.gmaxRelocEntry start len - eraseStart chip start =
        n + 1 := ⟨eraseEnd chip s.gmaxRelocEntry start len - eraseStart chip start - 1, by omega⟩
    obtain ⟨F, hrun, hsame, hreads⟩ := @eraseBlocks_good chip _ he n 1 one_ne_zero
      { s with part := (s.part.erase chip f 0).2, bbtChanged := true, bbtSlot := slotMax chip }
      ⟨hs.noZero, hs.gmax_lt⟩
    have hblocks : eraseBlocks chip f
        (eraseEnd chip s.gmaxRelocEntry start len - eraseStart chip start)
        (eraseStart chip start) s =
          (0, { s with part := F, bbtChanged := true, bbtSlot := slotMax chip }) := by
      rw [hn, hlo, eraseBlocks, if_pos rfl]
      dsimp only
      rw [if_neg (not_not.mpr (erase_good he 0)), hrun]
    obtain ⟨heq, hsome⟩ := hcall _ hblocks
    have hblock : ErasesBlock0 chip s start len := by
      refine ⟨by simpa using hbbt, fun h => hrange (.inl h), ?_, hlo, by omega, by omega⟩
      exact not_not.mp fun h => hrange (.inr h)
    apply Outcome.renewed rfl hblock _ (hreads.trans (erase_reads 0)) hsome
    · rw [call, heq]
    · rw [call, heq]
    · intro p hslot
      rw [hsame p hslot]
      exact erase_page (erase_good he 0) (Nat.div_eq_of_lt hslot.2)
  · obtain ⟨F, hrun, hsame, -⟩ := @eraseBlocks_good chip _ he
      (eraseEnd chip s.gmaxRelocEntry start len - eraseStart chip start) _ hlo s hs
    obtain ⟨heq, hsome⟩ := hcall _ hrun
    apply Outcome.finalized hsame _ hsome
    · rw [call, heq]
    · rw [call, heq]
    · rintro start len ⟨⟩ ⟨-, -, -, h0, -⟩
      exact hlo h0

theorem call_outcome (hp : ∀ p n, f.programFails p n = false) (he : ErasesSucceed f)
    (hs : Safe chip s) (c : Call) : Outcome chip f c s := by
  cases c with
  | write buf start size flags spare => exact write_outcome hp buf start size flags spare
  | read buf start size flags spare => exact read_outcome buf start size flags spare
  | erase start len => exact erase_outcome he hs start len
  | finalize =>
    have hno : ∀ start len, Call.finalize = .erase start len → ¬ ErasesBlock0 chip s start len :=
      fun _ _ hc => absurd hc (by simp)
    exact .finalized (F := s.part) (.refl _) hno rfl rfl rfl

theorem Kept.safe (h : Kept chip s q) : Safe chip s := ⟨fun i _ => h.noZero i, h.gmax_lt⟩

/-- From a state with books in order, a call keeps them so exactly if it erases block 0
safely. -/
theorem Kept.call (hp : ∀ p n, f.programFails p n = false) (he : ErasesSucceed f)
    (h : Kept chip s q) (c : Call) :
    (KeepsBooks chip f c s ↔ ErasesSafely chip f s c) ∧
      (ErasesSafely chip f s c → ∃ q', Kept chip (call chip f c s).2.2 q') := by
  have hsafe : (∀ start len, c = .erase start len → ¬ ErasesBlock0 chip s start len) →
      ErasesSafely chip f s c := by
    intro hno
    cases c with
    | erase start len => exact fun hblock => absurd hblock (hno start len rfl)
    | _ => trivial
  cases call_outcome hp he h.safe c with
  | @quiet F hsame hno hnone hend =>
    have hkept := h.congr hsame
    refine ⟨⟨fun _ => hsafe hno, fun _ => ⟨?_, ?_, ?_, ?_, ?_⟩⟩, fun _ => ⟨q, hend ▸ hkept⟩⟩
    · exact ⟨q, hend ▸ hkept.toBooks⟩
    · rw [hend]
      exact .inl hsame
    · intro s₁ hs₁
      rw [hnone] at hs₁
      exact absurd hs₁ (by simp)
    · intro _ hpresent
      rw [hend]
      exact hkept.run.present_iff.mpr (h.run.present_iff.mp hpresent)
    · exact fun start len hc hblock => absurd hblock (hno start len hc)
  | @finalized F hsame hno hsome hstatus hend =>
    have hkept := h.congr hsame
    obtain ⟨⟨q', hkept'⟩, hnewest, hwrites, hstays⟩ := hkept.finalize hp he
    refine ⟨⟨fun _ => hsafe hno, fun _ => ⟨?_, ?_, ?_, ?_, ?_⟩⟩, fun _ => ⟨q', hend ▸ hkept'⟩⟩
    · exact ⟨q', hend ▸ hkept'.toBooks⟩
    · rw [hend]
      rcases hnewest with hslots | ⟨q'', hbooks, hlt, hpage, habove⟩
      · exact .inl (hsame.trans hslots)
      · refine .inr ⟨q'', hbooks, hlt, hpage, ?_⟩
        intro j hj hle
        have hlow := hbooks.run.low
        rw [habove j hj hle]
        exact hsame j ((mem_slots chip).mpr ⟨by omega, hle⟩)
    · intro s₁ hs₁
      rw [hsome] at hs₁
      rw [← Option.some.inj hs₁]
      exact hwrites
    · intro _ hpresent
      rw [hend]
      exact hstays (hkept.run.present_iff.mpr (h.run.present_iff.mp hpresent))
    · exact fun start len hc hblock => absurd hblock (hno start len hc)
  | @renewed F start len hc hblock hblank hreads hsome hstatus hend =>
    obtain ⟨hwrites, hgood, hbad⟩ := @finalize_erased chip f
      { s with part := F, bbtChanged := true, bbtSlot := slotMax chip } hp he hblank rfl rfl
      h.header h.noZero h.gmax_lt
    have hlast := (slotMin_le chip).2
    have hpos := (slotMin_le chip).1
    dsimp only at hgood hbad
    rw [hreads] at hgood hbad
    have hcond : ErasesSafely chip f s c ↔ (s.bbtFull = true →
        ∀ i < chip.maxPages - nandMaxBbtSlots, f.eccError i (s.part.reads i) = false) := by
      rw [hc]
      exact ⟨fun hsafe => hsafe hblock, fun hread _ => hread⟩
    rw [hcond]
    refine ⟨⟨?_, ?_⟩, ?_⟩
    · intro hkeeps hfull
      by_contra hread
      apply hbad hfull hread
      rw [← hstatus]
      exact (hkeeps.rewrites start len hc hblock).1
    · intro hread
      obtain ⟨hok, hkept, hpage⟩ := hgood hread
      have hpresent : TablePresent chip (nandFinalize chip f
          { s with part := F, bbtChanged := true, bbtSlot := slotMax chip }).2.part :=
        hkept.run.present_iff.mpr (by omega)
      refine ⟨⟨_, hend ▸ hkept.toBooks⟩, ?_, ?_, ?_, ?_⟩
      · rw [hend]
        refine .inr ⟨_, hkept.toBooks, by omega, ?_, ?_⟩
        · rw [Nat.sub_add_cancel (by omega), hpage]
        · intro j hj hle
          omega
      · intro s₁ hs₁
        rw [hsome] at hs₁
        rw [← Option.some.inj hs₁]
        exact hwrites
      · intro _ _
        rw [hend]
        exact hpresent
      · intro _ _ _ _
        rw [hstatus, hend]
        exact ⟨hok, hpresent, hpage⟩
    · intro hread
      obtain ⟨-, hkept, -⟩ := hgood hread
      exact ⟨_, hend ▸ hkept⟩

end Calls

section Runs
variable {chip : NandChip} {f : Faults} {s : Driver} {q : ℕ}

/-- The steps of a scan leave slots without a table as they are. -/
theorem Kept.scan (he : ErasesSucceed f) {s' : Driver} (h : Kept chip s (slotMax chip))
    (hstep : Step chip f False s s') : Kept chip s' (slotMax chip) := by
  cases hstep with
  | quiet hsame => exact h.congr hsame
  | @item F block b hsame hblock hlimit hlt =>
    have hF := h.congr hsame
    have hle := lastLeftOff_le chip s.reloc s.reloc.total
    have hblocks := chip.blocks_lt
    have hgmax := h.gmax_lt
    refine ⟨⟨hF.run, hF.slot, hF.full⟩, ?_, ?_, h.gmax_lt, hF.oldest⟩
    · show (s.reloc.addItem block b).header = validHeader
      rw [RelocTable.header_addItem]
      exact h.header
    · intro i
      show (s.reloc.addItem block b).itemTo i ≠ 0
      rw [RelocTable.itemTo_addItem, Nat.mod_eq_of_lt (by omega)]
      split
      · omega
      · exact h.noZero i
  | erase0 =>
    have hblank : ∀ p ∈ slots chip, (s.part.erase chip f 0).2.page p = blank :=
      fun p hp => erase_page (erase_good he 0) (Nat.div_eq_of_lt hp.2)
    exact ⟨⟨tableRun_blank hblank, fun _ => rfl, h.full⟩, h.header, h.noZero, h.gmax_lt,
      fun hq => absurd hq (lt_irrefl _)⟩

theorem itemTo_emptyTable (i : ℕ) : emptyTable.itemTo i ≠ 0 := by
  rw [RelocTable.itemTo, emptyTable, fetch_store16_of_disjoint _ (by omega),
    fetch_store16_of_disjoint _ (by omega)]
  intro h0
  exact absurd (Nat.add_eq_zero_iff.mp h0).1 (show (0xFF : UInt8).toNat ≠ 0 by decide)

/-- `nand_init` puts the books in order. -/
theorem kept_reboot (he : ErasesSucceed f) (h : Prepared chip s.part) :
    ∃ q, Kept chip (reboot chip f s).2 q := by
  obtain ⟨q, hrun, hzero⟩ := h
  by_cases hpresent : TablePresent chip s.part
  · obtain ⟨q', F, hstops, hpage, heq⟩ := nandInit_of_table (f := f)
      (s := { s with gmaxRelocEntry := nandMaxRelocEntry }) hpresent
    have hq := hrun.present_iff.mp hpresent
    have hstops' : StopsAt chip s.part q := by
      refine ⟨hrun.low, hq, hrun.tables, ?_⟩
      intro hle
      rw [hrun.erased q hle le_rfl]
      exact header_blank
    obtain rfl := hstops.unique hstops'
    have hsame : SameSlots chip s.part F := fun p _ => congrFun hpage p
    rw [reboot, heq]
    refine ⟨q', ⟨hrun.congr hsame, ?_, decide_eq_true_iff⟩, ?_, ?_, relocEntry_lt chip, ?_⟩
    · intro hfull
      have : ¬ q' < slotMin chip := by simpa [loadedDriver] using hfull
      exact if_neg this
    · show (loadedTable chip s.part q').header = validHeader
      rw [header_loadedTable]
      exact hrun.tables _ (Nat.lt_succ_self q') hq
    · intro i
      show (loadedTable chip s.part q').itemTo i ≠ 0
      rw [itemTo_loadedTable]
      exact hzero hq i
    · intro _ i
      show RelocTable.itemTo (F.page (slotMax chip)) i ≠ 0
      rw [hpage]
      exact hzero hq i
  · obtain ⟨s₁, hgmax, hagree, heq⟩ := nandInit_of_no_table (f := f)
      (s := { s with gmaxRelocEntry := nandMaxRelocEntry }) hpresent
    have hlast := (slotMin_le chip).2
    have hq : q = slotMax chip := by
      have := hrun.present_iff.not.mp hpresent
      have := hrun.high
      omega
    rw [hq] at hrun
    have hslots : TableRun chip s₁.part (slotMax chip) :=
      hrun.congr fun p _ => hagree.page p (Set.mem_univ p)
    have hstart : Kept chip { s₁ with
        reloc := emptyTable, bbtChanged := true, bbtSlot := slotMax chip, bbtFull := false }
        (slotMax chip) := by
      have hheader : emptyTable.header = validHeader := by decide
      refine ⟨⟨hslots, fun _ => rfl, ?_⟩, hheader, itemTo_emptyTable, ?_,
        fun h => absurd h (lt_irrefl _)⟩
      · exact ⟨fun h => absurd h (by simp), fun h => by omega⟩
      · show s₁.gmaxRelocEntry < chip.maxBlocks
        rw [hgmax]
        exact chip.reserve_lt
    have hpath : Path chip f False _ _ :=
      scanBlocks_path (chip.maxBlocks - s₁.gmaxRelocEntry - 1) 1 hstart.safe
    have hscan : Kept chip (coreCreateBbt chip f s₁).2 (slotMax chip) :=
      @Path.invariant chip f False (fun s => Kept chip s (slotMax chip))
        (fun _ _ h hstep => h.scan he hstep) _ _ hpath hstart
    rw [reboot, heq]
    exact ⟨slotMax chip, ⟨hscan.run, hscan.slot, hscan.full⟩, hscan.header, hscan.noZero,
      relocEntry_lt chip, hscan.oldest⟩

/-- In a run whose erases of block 0 are safe the books are in order. -/
theorem kept_of_run (hp : ∀ p n, f.programFails p n = false) (he : ErasesSucceed f) {F : Part}
    (hF : Prepared chip F) {actions : List Action}
    (hok : (board chip f).Guarded (StepErasesSafely chip f) (powerOff F) (.reboot :: actions)) :
    ∃ q, Kept chip (afterBoot chip f F actions).driver q := by
  have hstep : ∀ b a, (∃ q, Kept chip b.driver q) → StepErasesSafely chip f b a →
      ∃ q, Kept chip ((board chip f).step b a).2.driver q := by
    intro b a ⟨q, h⟩ hok
    cases a with
    | call c => exact (h.call hp he c).2 hok
    | reboot => exact kept_reboot he ⟨q, h.run, h.oldest⟩
  have hboot : ∃ q, Kept chip ((board chip f).step (powerOff F) .reboot).2.driver q :=
    kept_reboot he hF
  exact @Machine.run_invariant _ _ _ (board chip f) _ (fun b => ∃ q, Kept chip b.driver q) hstep
    _ hboot _ hok.2

/-- On a part whose programs and erases succeed: after every run in which block 0 is erased
safely, the next call keeps the books exactly if it erases block 0 safely too. -/
theorem keepsBooks_iff (chip : NandChip) (f : Faults) (F : Part) (actions : List Action)
    (c : Call) (hp : ∀ p n, f.programFails p n = false) (he : ErasesSucceed f)
    (hF : Prepared chip F)
    (hok : (board chip f).Guarded (StepErasesSafely chip f) (powerOff F) (.reboot :: actions)) :
    KeepsBooks chip f c (afterBoot chip f F actions).driver ↔
      ErasesSafely chip f (afterBoot chip f F actions).driver c := by
  obtain ⟨q, h⟩ := kept_of_run hp he hF hok
  exact (h.call hp he c).1

/-- Nothing fails, but the pages in front of the slots do not read while they are blank. -/
def blankFaults : Faults :=
  { wornFaults with eraseFails := fun _ _ => false, eccError := fun p _ => decide (p < 40) }

/-- A part whose 24 slots are used up. -/
def fullPart : Part :=
  { freshPart with page := fun p => if 40 ≤ p ∧ p < 64 then emptyTable else blank }

theorem prepared_freshPart : Prepared micron4GbX16 freshPart :=
  ⟨63, ⟨by decide, by decide, fun j hj hle => absurd hle (by simp [slotMax, micron4GbX16]; omega),
    fun _ _ _ => rfl⟩, fun h => absurd h (by decide)⟩

theorem prepared_fullPart : Prepared micron4GbX16 fullPart := by
  have hslots : ∀ j, 39 < j → j ≤ 63 → fullPart.page j = emptyTable := by
    intro j hj hle
    exact if_pos (by omega)
  refine ⟨39, ⟨by decide, by decide, ?_, ?_⟩, ?_⟩
  · intro j hj hle
    rw [hslots j hj hle]
    decide
  · intro j hj hle
    have : (40 : ℕ) ≤ j := hj
    omega
  · intro _ i
    rw [hslots _ (by decide) (by decide)]
    exact itemTo_emptyTable i

/-- An erase of block 0 of a fresh part keeps the books. -/
theorem fresh_part_keepsBooks_iff :
    KeepsBooks micron4GbX16 blankFaults (.erase 0 (64 * 4096))
      (afterBoot micron4GbX16 blankFaults freshPart []).driver := by
  have hroom : (afterBoot micron4GbX16 blankFaults freshPart []).driver.bbtFull ≠ true := by
    decide +kernel
  exact (keepsBooks_iff micron4GbX16 blankFaults freshPart [] (.erase 0 (64 * 4096))
    (fun _ _ => rfl) (fun _ _ => rfl) prepared_freshPart ⟨trivial, trivial⟩).mpr
    fun _ hfull => absurd hfull hroom

/-- With the slots used up, an erase of block 0 fails and leaves block 0 without a table. -/
theorem full_slots_are_lost :
    (∀ p n, blankFaults.programFails p n = false) ∧ ErasesSucceed blankFaults ∧
    Prepared micron4GbX16 fullPart ∧
    (call micron4GbX16 blankFaults (.erase 0 (64 * 4096))
      (afterBoot micron4GbX16 blankFaults fullPart []).driver).1 = -1 ∧
    TablePresent micron4GbX16 (afterBoot micron4GbX16 blankFaults fullPart []).driver.part ∧
    ¬ TablePresent micron4GbX16 (call micron4GbX16 blankFaults (.erase 0 (64 * 4096))
      (afterBoot micron4GbX16 blankFaults fullPart []).driver).2.2.part ∧
    ¬ KeepsBooks micron4GbX16 blankFaults (.erase 0 (64 * 4096))
      (afterBoot micron4GbX16 blankFaults fullPart []).driver := by
  have hfails : (call micron4GbX16 blankFaults (.erase 0 (64 * 4096))
      (afterBoot micron4GbX16 blankFaults fullPart []).driver).1 = -1 := by decide +kernel
  have hpresent : TablePresent micron4GbX16
      (afterBoot micron4GbX16 blankFaults fullPart []).driver.part := by decide +kernel
  have hlost : ¬ TablePresent micron4GbX16 (call micron4GbX16 blankFaults (.erase 0 (64 * 4096))
      (afterBoot micron4GbX16 blankFaults fullPart []).driver).2.2.part := by decide +kernel
  refine ⟨fun _ _ => rfl, fun _ _ => rfl, prepared_fullPart, hfails, hpresent, hlost, ?_⟩
  intro h
  exact hlost (h.stays (by rw [hfails]; decide) hpresent)

end Runs
end UBoot.Nand
