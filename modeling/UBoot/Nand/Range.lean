import UBoot.Nand.Padding

/-!
# The range check

`nand_write` and `nand_read` hold `start` and `start + size` against the size of the chip
in bytes. The sum is a 32-bit word; with spare bytes the size of the chip counts them and
`start` does not; and the blocks of an accepted request go through the relocation table,
of which nothing but the header was checked: from a last item that leads to block 0 the
search for a reserve block goes on at the last `ulong`. What is refused never lies inside
the chip.
-/
namespace UBoot.Nand
open ByteStore

section Functions
variable (chip : NandChip)

/-- `max_blocks * max_pages`. -/
def chipPages : ℕ := chip.maxBlocks * chip.maxPages

/-- The page numbers behind the chip. -/
def beyond : Set ℕ := {p | chipPages chip ≤ p}

/-- The pages that a request needs. -/
def pagesNeeded (size : ℕ) (flags : Flags) : ℕ :=
  if flags.oob then blocksUp size (chip.pageSize + chip.spareSize)
  else blocksUp size chip.pageSize

/-- `__nand_core_find_real_block` comes to an end for the blocks of `n` pages. -/
def SearchesEnd (t : RelocTable) (page n : ℕ) : Prop :=
  ∀ k < n, (findLoop t (findFuel t) 0 ((page + k) / chip.maxPages)).isSome

/-- A table that leads blocks of the chip to blocks of the chip, the last not to block 0. -/
structure InsideTable (t : RelocTable) : Prop where
  froms : ∀ i < t.total, t.itemFrom i < chip.maxBlocks
  tos : ∀ i < t.total, t.itemTo i < chip.maxBlocks
  last : lastLeftOff chip t t.total ≠ 0
  ends : ∀ b < chip.maxBlocks, (findLoop t (findFuel t) 0 b).isSome

/-- A driver with the table, and with a reserve that the driver has set. -/
def HasTable (t : RelocTable) (s : Driver) : Prop :=
  s.reloc = t ∧ s.gmaxRelocEntry ≤ nandMaxRelocEntry

/-- The range check does its work on the parts of a kind: a request inside the chip is not
refused, and one that is not refused reads and programs pages of the chip only. A search in
the table that does not end holds the call up; what the call has done by then are its first
`n` pages. -/
structure RangeChecked (kind : Faults → Prop) (t : RelocTable) (start size : ℕ)
    (flags : Flags) : Prop where
  accepts : size ≠ 0 → start % chip.pageSize = 0 →
    start / chip.pageSize + pagesNeeded chip size flags ≤ chipPages chip →
    ∀ buf, rangeRefused chip (some buf) start size flags = false
  reads : ∀ buf, rangeRefused chip (some buf) start size flags = false →
    ∀ n ≤ pageCount chip start size flags, SearchesEnd chip t (start / chip.pageSize) n →
    ∀ f, kind f → ∀ spare s, HasTable t s → ∀ p ∈ beyond chip,
      (coreRead chip f (start / chip.pageSize) n buf flags spare s).2.2.part.reads p =
        s.part.reads p
  programs : ∀ buf, rangeRefused chip (some buf) start size flags = false →
    ∀ n ≤ pageCount chip start size flags, SearchesEnd chip t (start / chip.pageSize) n →
    ∀ f, kind f → ∀ b spare s, HasTable t s → AgreeOn chip (beyond chip) s.part
      (coreWrite chip f (start / chip.pageSize) n b flags spare s).2.part
  read : SearchesEnd chip t (start / chip.pageSize) (pageCount chip start size flags) →
    ∀ f, kind f → ∀ buf spare s, HasTable t s → ∀ p ∈ beyond chip,
      (nandRead chip f buf start size flags spare s).2.2.part.reads p = s.part.reads p
  write : SearchesEnd chip t (start / chip.pageSize) (pageCount chip start size flags) →
    ∀ f, kind f → ∀ buf spare s, HasTable t s → s.bbtSlot ≤ slotMax chip →
      AgreeOn chip (beyond chip) s.part (nandWrite chip f buf start size flags spare s).2.part

/-- A part on which every program succeeds. -/
def ProgramsSucceed (f : Faults) : Prop := ∀ p n, f.programFails p n = false

/-- The request is refused, or its blocks lie in the chip as far as the searches end. -/
def BlocksInside (t : RelocTable) (start size : ℕ) (flags : Flags) : Prop :=
  (∀ buf, rangeRefused chip (some buf) start size flags = true) ∨
    ∀ k < pageCount chip start size flags,
      SearchesEnd chip t (start / chip.pageSize) (k + 1) →
      findRealBlock t ((start / chip.pageSize + k) / chip.maxPages) < chip.maxBlocks

end Functions

section Accept
variable {chip : NandChip} {start size : ℕ} {flags : Flags}

theorem chipBytes_eq : chipBytes chip flags = chipPages chip * stride chip flags := by
  have hstride : stride chip flags ≤ chip.pageSize + chip.spareSize := by
    unfold stride
    split <;> omega
  have hle : chipPages chip * stride chip flags ≤
      chipPages chip * (chip.pageSize + chip.spareSize) := Nat.mul_le_mul_left _ hstride
  have hbytes : chipPages chip * (chip.pageSize + chip.spareSize) < 2 ^ 32 := chip.bytes_lt
  exact u32_of_lt (by rw [chipPages] at hle hbytes; omega)

theorem pagesNeeded_eq : pagesNeeded chip size flags = blocksUp size (stride chip flags) := by
  unfold pagesNeeded stride
  split <;> rfl

theorem stride_ge : chip.pageSize ≤ stride chip flags := by
  unfold stride
  split <;> omega

/-- A request inside the chip passes the check. -/
theorem rangeRefused_of_inside (hsize : size ≠ 0) (halign : start % chip.pageSize = 0)
    (h : start / chip.pageSize + pagesNeeded chip size flags ≤ chipPages chip) (buf : Mem) :
    rangeRefused chip (some buf) start size flags = false := by
  have hpage := chip.pageSize_pos
  have hstride : chip.pageSize ≤ stride chip flags := stride_ge
  have hbytes : chipBytes chip flags < 2 ^ 32 := u32_lt _
  have hstart : start ≤ start / chip.pageSize * stride chip flags := by
    calc start = start / chip.pageSize * chip.pageSize :=
          (Nat.div_mul_cancel (Nat.dvd_of_mod_eq_zero halign)).symm
      _ ≤ start / chip.pageSize * stride chip flags := Nat.mul_le_mul_left _ hstride
  have hsum : start + size ≤ chipBytes chip flags := by
    have hneed : size ≤ pagesNeeded chip size flags * stride chip flags := by
      rw [pagesNeeded_eq]
      exact le_blocksUp_mul _ (by omega)
    have hmul := Nat.mul_le_mul_right (stride chip flags) h
    rw [chipBytes_eq]
    rw [Nat.add_mul] at hmul
    omega
  have hword : u32 (start + size) = start + size := u32_of_lt (by omega)
  simp only [rangeRefused, hword, Option.isNone_some, Bool.false_or, Bool.or_eq_false_iff,
    decide_eq_false_iff_not]
  omega

end Accept

section Inside
variable {chip : NandChip} {f : Faults} {flags : Flags}

theorem page_mem_chip {b off : ℕ} (hb : b < chip.maxBlocks) (hoff : off < chip.maxPages) :
    b * chip.maxPages + off < chipPages chip := by
  have := Nat.mul_le_mul_right chip.maxPages (Nat.succ_le_of_lt hb)
  rw [Nat.succ_mul] at this
  rw [chipPages]
  omega

theorem beyond_subset_outside {B : Set ℕ} (h : ∀ b ∈ B, b < chip.maxBlocks) :
    beyond chip ⊆ outside chip B := by
  intro p hp hb
  have hlt := h _ hb
  rw [Nat.div_lt_iff_lt_mul chip.maxPages_pos] at hlt
  have : chipPages chip ≤ p := hp
  rw [chipPages] at this
  omega

theorem readPiece_reads (spare : SpareRead) (n page off : ℕ) (buf : Mem) (F : Part) {p : ℕ}
    (hp : ¬ (page ≤ p ∧ p < page + n)) :
    (readPiece chip f flags spare n page off buf F).2.2.reads p = F.reads p := by
  induction n generalizing page off buf F with
  | zero => rfl
  | succ n ih =>
    have hone : (F.readPage f page).2.2.reads p = F.reads p := by
      apply Function.update_of_ne
      omega
    rw [readPiece]
    split
    · exact hone
    · rw [ih _ _ _ _ (by omega), hone]

/-- A read stays in the chip if the real blocks of its pages do. -/
theorem readLoop_reads (spare : SpareRead) (fuel block first pageNum off : ℕ) (buf : Mem)
    (s : Driver) (hfirst : first < chip.maxPages)
    (hin : ∀ k < pageNum, findRealBlock s.reloc ((block * chip.maxPages + first + k) /
      chip.maxPages) < chip.maxBlocks) {p : ℕ} (hp : p ∈ beyond chip) :
    (readLoop chip f flags spare fuel block first pageNum off buf s).2.2.part.reads p =
      s.part.reads p := by
  induction fuel generalizing block first pageNum off buf s with
  | zero => rfl
  | succ fuel ih =>
    rw [readLoop]
    by_cases h0 : pageNum = 0
    · rw [if_pos h0]
    · rw [if_neg h0]
      dsimp only
      have hreal := hin 0 (by omega)
      rw [Nat.add_zero, chip.page_div hfirst] at hreal
      have hpiece : (readPiece chip f flags spare (min (chip.maxPages - first) pageNum)
          (findRealBlock s.reloc block * chip.maxPages + first) off buf s.part).2.2.reads p =
            s.part.reads p := by
        apply readPiece_reads
        have hend := page_mem_chip hreal (Nat.sub_lt chip.maxPages_pos Nat.one_pos)
        have hbeyond : chipPages chip ≤ p := hp
        omega
      split
      · exact hpiece
      · rw [ih _ _ _ _ _ _ chip.maxPages_pos ?_]
        · exact hpiece
        · intro k hk
          have hmin : min (chip.maxPages - first) pageNum = chip.maxPages - first := by omega
          rw [hmin] at hk
          have hnext := hin (chip.maxPages - first + k) (by omega)
          rw [show block * chip.maxPages + first + (chip.maxPages - first + k) =
            (block + 1) * chip.maxPages + 0 + k by rw [Nat.add_mul]; omega] at hnext
          exact hnext

theorem writeAttempt_beyond (buf : Mem) (off : ℕ) {first n r : ℕ} (spare : SpareOnes)
    (hr : r < chip.maxBlocks) (hn : first + n ≤ chip.maxPages) (F : Part) :
    AgreeOn chip (beyond chip) F (writeAttempt chip f buf off first n flags spare r F).2 := by
  have hpage : ∀ j < n, r * chip.maxPages + first + j ∉ beyond chip := by
    intro j hj hmem
    have hlt : r * chip.maxPages + (first + j) < chipPages chip := page_mem_chip hr (by omega)
    have : chipPages chip ≤ r * chip.maxPages + first + j := hmem
    omega
  unfold writeAttempt
  dsimp only
  split
  · exact writePages_agreeOn fun j _ hj _ => hpage j (by omega)
  · exact writePages_agreeOn fun j _ hj _ => hpage j (by omega)

theorem markBad_beyond {b : ℕ} (hb : b < chip.maxBlocks) (F : Part) :
    AgreeOn chip (beyond chip) F (F.markBad chip f b) := by
  have hone : 1 < chip.maxPages := by
    have := chip.pages_ge
    omega
  apply (markBad_agreeOn chip f F b).mono
  intro p hp hmem
  have hbeyond : chipPages chip ≤ p := hp
  have h₀ := page_mem_chip hb chip.maxPages_pos
  have h₁ := page_mem_chip hb hone
  rcases hmem with rfl | rfl <;> omega

/-- A relocation appends a block of the chip. -/
theorem addItem_tos {t : RelocTable} (h : ∀ i < t.total, t.itemTo i < chip.maxBlocks) {r b : ℕ}
    (hb : b < chip.maxBlocks) :
    ∀ i < (t.addItem r b).total, (t.addItem r b).itemTo i < chip.maxBlocks := by
  intro i hi
  have hblocks := chip.blocks_lt
  have hle := Nat.mod_le (t.total + 1) 65536
  rw [RelocTable.total_addItem] at hi
  rw [RelocTable.itemTo_addItem, Nat.mod_eq_of_lt (by omega)]
  split
  · exact hb
  · exact h i (by omega)

theorem lastLeftOff_addItem_ne_zero {t : RelocTable} {r b : ℕ} (hpos : 0 < b)
    (hb : b < chip.maxBlocks) :
    lastLeftOff chip (t.addItem r b) (t.addItem r b).total ≠ 0 := by
  rcases Nat.lt_or_ge (t.total + 1) 65536 with hlt | hge
  · rw [lastLeftOff_addItem hlt hb.le]
    omega
  · -- the number of items wraps
    have htotal := t.total_lt
    have hzero : (t.addItem r b).total = 0 := by
      rw [RelocTable.total_addItem]
      omega
    rw [hzero, lastLeftOff]
    have := chip.reserve_lt
    omega

/-- A driver that stays in the chip while it relocates: its targets lie there, and the next
search starts above block 0. -/
structure StaysInside (chip : NandChip) (s : Driver) : Prop where
  tos : ∀ i < s.reloc.total, s.reloc.itemTo i < chip.maxBlocks
  last : lastLeftOff chip s.reloc s.reloc.total ≠ 0
  gmax_le : s.gmaxRelocEntry ≤ nandMaxRelocEntry

theorem StaysInside.of_part {s : Driver} (h : StaysInside chip s) (F : Part) :
    StaysInside chip { s with part := F } := ⟨h.tos, h.last, h.gmax_le⟩

theorem coreRelocateBlock_beyond (b : ℕ) {s : Driver} (hs : StaysInside chip s) :
    AgreeOn chip (beyond chip) s.part (coreRelocateBlock chip f b s).2.2.part ∧
      StaysInside chip (coreRelocateBlock chip f b s).2.2 ∧
      ((coreRelocateBlock chip f b s).1 = 0 →
        (coreRelocateBlock chip f b s).2.1 < chip.maxBlocks) := by
  have hstart := lastLeftOff_le chip s.reloc s.reloc.total
  rcases coreRelocateBlock_cases (f := f) b hs.last with ⟨b', F, heq, -, hfound⟩ |
    ⟨F, heq, hfailed, hsame⟩
  · rw [heq]
    have hlt : b' < chip.maxBlocks := hfound.lt_start.trans_le hstart
    refine ⟨hfound.agree.mono (beyond_subset_outside ?_), ?_, fun _ => hlt⟩
    · exact fun c hc => hc.2.trans_le hstart
    · have hlimit := hfound.limit_le
      have hgmax := hs.gmax_le
      have hreserve := chip.reserve_lt
      exact ⟨addItem_tos hs.tos hlt, lastLeftOff_addItem_ne_zero (by omega) hlt,
        hs.gmax_le⟩
  · rw [heq]
    refine ⟨?_, hs.of_part F, fun h0 => absurd h0 (by simp)⟩
    rcases Nat.lt_or_ge b chip.maxBlocks with hb | hb
    · apply (hfailed hb).agree.mono (beyond_subset_outside _)
      exact fun c hc => hc.2.trans_le hstart
    · rw [hsame hb]

/-- A retry loop that starts in the chip stays there. -/
theorem retryRelocating_beyond {attempt : ℕ → Part → ℤ × Part}
    (h : ∀ b < chip.maxBlocks, ∀ F, AgreeOn chip (beyond chip) F (attempt b F).2) (fuel : ℕ)
    {b : ℕ} {s : Driver} (hs : StaysInside chip s) (hb : b < chip.maxBlocks) :
    AgreeOn chip (beyond chip) s.part (retryRelocating chip f attempt fuel b s).2.part ∧
      StaysInside chip (retryRelocating chip f attempt fuel b s).2 := by
  apply retryRelocating_rule
    (I := fun b s' => b < chip.maxBlocks ∧ AgreeOn chip (beyond chip) s.part s'.part ∧
      StaysInside chip s')
    (J := fun _ s' => AgreeOn chip (beyond chip) s.part s'.part ∧ StaysInside chip s')
  · intro b s' hI _
    exact ⟨hI.2.1.trans (h b hI.1 s'.part), hI.2.2.of_part _⟩
  · intro b s' hI _ b' s'' heq
    have hmove := coreRelocateBlock_beyond (f := f) b
      (hI.2.2.of_part ((attempt b s'.part).2.markBad chip f b))
    rw [heq] at hmove
    have hmarked := (hI.2.1.trans (h b hI.1 s'.part)).trans (markBad_beyond (f := f) hI.1 _)
    exact ⟨hmove.2.2 rfl, hmarked.trans hmove.1, hmove.2.1⟩
  · intro b s' hI _ st b' s'' _ heq
    have hmove := coreRelocateBlock_beyond (f := f) b
      (hI.2.2.of_part ((attempt b s'.part).2.markBad chip f b))
    rw [heq] at hmove
    have hmarked := (hI.2.1.trans (h b hI.1 s'.part)).trans (markBad_beyond (f := f) hI.1 _)
    exact ⟨hmarked.trans hmove.1, hmove.2.1⟩
  · exact fun b s' hI => hI.2
  · exact ⟨hb, .refl _ _, hs⟩

/-- `K` holds before and after each piece of a write that starts in the chip, and the piece
stays there. -/
def PiecesInside (chip : NandChip) (f : Faults) (buf : Mem) (flags : Flags) (spare : SpareOnes)
    (K : Driver → Prop) : Prop :=
  ∀ off first n b s, first + n ≤ chip.maxPages → b < chip.maxBlocks → K s →
    let s' := (retryRelocating chip f (writeAttempt chip f buf off first n flags spare)
      (chip.maxBlocks + 1) b s).2
    AgreeOn chip (beyond chip) s.part s'.part ∧ K s'

/-- A write stays in the chip if the tables it goes through lead its pages there. -/
theorem writeLoop_beyond {K : Driver → Prop} {buf : Mem} {spare : SpareOnes}
    (hkeep : PiecesInside chip f buf flags spare K)
    (fuel block first pageNum off : ℕ) (s : Driver) (hfirst : first < chip.maxPages) (hs : K s)
    (hin : ∀ s', K s' → ∀ k < pageNum, findRealBlock s'.reloc
      ((block * chip.maxPages + first + k) / chip.maxPages) < chip.maxBlocks) :
    AgreeOn chip (beyond chip) s.part
      (writeLoop chip f buf flags spare fuel block first pageNum off s).2.part := by
  induction fuel generalizing block first pageNum off s with
  | zero => exact .refl _ _
  | succ fuel ih =>
    rw [writeLoop]
    by_cases h0 : pageNum = 0
    · rw [if_pos h0]
    · rw [if_neg h0]
      dsimp only
      have hreal := hin s hs 0 (by omega)
      rw [Nat.add_zero, chip.page_div hfirst] at hreal
      obtain ⟨hpiece, hK⟩ := hkeep off first (min (chip.maxPages - first) pageNum) _ s (by omega)
        hreal hs
      split
      · exact hpiece
      · apply hpiece.trans
        apply ih _ _ _ _ _ chip.maxPages_pos hK
        intro t ht k hk
        have hmin : min (chip.maxPages - first) pageNum = chip.maxPages - first := by omega
        rw [hmin] at hk
        have hnext := hin t ht (chip.maxPages - first + k) (by omega)
        rw [show block * chip.maxPages + first + (chip.maxPages - first + k) =
          (block + 1) * chip.maxPages + 0 + k by rw [Nat.add_mul]; omega] at hnext
        exact hnext

theorem retryRelocating_bbtSlot {attempt : ℕ → Part → ℤ × Part} (fuel b : ℕ) (s : Driver) :
    (retryRelocating chip f attempt fuel b s).2.bbtSlot = s.bbtSlot := by
  have hmove : ∀ b (s' : Driver), (coreRelocateBlock chip f b s').2.2.bbtSlot = s'.bbtSlot := by
    intro b s'
    unfold coreRelocateBlock
    split
    · rfl
    · dsimp only
      split <;> rfl
  apply retryRelocating_rule (I := fun _ s' => s'.bbtSlot = s.bbtSlot)
    (J := fun _ s' => s'.bbtSlot = s.bbtSlot)
  · exact fun b s' hI _ => hI
  · intro b s' hI _ b' s'' heq
    have := hmove b { s' with part := (attempt b s'.part).2.markBad chip f b }
    rw [heq] at this
    exact this.trans hI
  · intro b s' hI _ st b' s'' _ heq
    have := hmove b { s' with part := (attempt b s'.part).2.markBad chip f b }
    rw [heq] at this
    exact this.trans hI
  · exact fun b s' hI => hI
  · rfl

theorem writeLoop_bbtSlot (buf : Mem) (spare : SpareOnes) (fuel block first pageNum off : ℕ)
    (s : Driver) :
    (writeLoop chip f buf flags spare fuel block first pageNum off s).2.bbtSlot = s.bbtSlot := by
  induction fuel generalizing block first pageNum off s with
  | zero => rfl
  | succ fuel ih =>
    rw [writeLoop]
    split
    · rfl
    · dsimp only
      split
      · exact retryRelocating_bbtSlot _ _ _
      · rw [ih]
        exact retryRelocating_bbtSlot _ _ _

theorem readPages_agreeOn (n i : ℕ) (buf : ℕ → Mem) (F : Part) :
    AgreeOn chip Set.univ F (readPages f n i buf F).2.2 := by
  induction n generalizing i buf F with
  | zero => exact .refl _ F
  | succ n ih =>
    have hread := @readPage_agreeOn chip f F i
    rw [readPages]
    split
    · exact hread
    · exact hread.trans (ih _ _ _)

theorem NandChip.maxBlocks_pos (chip : NandChip) : 0 < chip.maxBlocks :=
  (Nat.zero_le _).trans_lt chip.reserve_lt

theorem block0_page {p : ℕ} (hp : p < chip.maxPages) : p ∉ beyond chip := by
  intro hmem
  have hchip := page_mem_chip chip.maxBlocks_pos hp
  have : chipPages chip ≤ p := hmem
  omega

theorem renewBlock0_beyond (F : Part) :
    AgreeOn chip (beyond chip) F (renewBlock0 chip f F).2 := by
  have hread := (@readPages_agreeOn chip f (chip.maxPages - nandMaxBbtSlots) 0
    (fun _ _ => 0) F).mono (Set.subset_univ (beyond chip))
  have herase : ∀ G : Part, AgreeOn chip (beyond chip) G (G.erase chip f 0).2 := by
    intro G
    apply (erase_agreeOn chip f G 0).mono (beyond_subset_outside _)
    rintro b rfl
    exact chip.maxBlocks_pos
  have hwrite : ∀ data G, AgreeOn chip (beyond chip) G (writePages chip f (fun _ => false) data 0
      (chip.maxPages - nandMaxBbtSlots) 0 G).2 := by
    intro data G
    apply writePages_agreeOn
    intro j _ hj _
    exact block0_page (by omega)
  unfold renewBlock0
  dsimp only
  split
  · exact hread
  · split
    · exact hread.trans (herase _)
    · split
      · exact (hread.trans (herase _)).trans (hwrite _ _)
      · exact (hread.trans (herase _)).trans (hwrite _ _)

theorem writeSlot_beyond (s : Driver) (hslot : s.bbtSlot ≤ slotMax chip) :
    AgreeOn chip (beyond chip) s.part (writeSlot chip f s).2.part := by
  have hpage : AgreeOn chip (beyond chip) s.part (s.part.writePage chip f s.bbtSlot s.reloc).2 := by
    apply (writePage_agreeOn chip f s.part s.bbtSlot s.reloc).mono
    rintro p hp rfl
    have hmax := chip.maxPages_pos
    exact @block0_page chip _ (by unfold slotMax at hslot; omega) hp
  unfold writeSlot
  dsimp only
  split
  · exact hpage
  · exact hpage

/-- The table is written to block 0. -/
theorem nandFinalize_beyond (s : Driver) (hslot : s.bbtSlot ≤ slotMax chip) :
    AgreeOn chip (beyond chip) s.part (nandFinalize chip f s).2.part := by
  unfold nandFinalize coreWriteBbt
  split
  · exact .refl _ _
  split
  · exact .refl _ _
  split
  · have hrenew := @renewBlock0_beyond chip f s.part
    dsimp only
    split
    · exact hrenew
    · exact hrenew.trans (writeSlot_beyond { s with
        part := (renewBlock0 chip f s.part).2, bbtSlot := slotMax chip } le_rfl)
  · exact writeSlot_beyond s hslot

end Inside

section Tables
variable {chip : NandChip} {f : Faults} {flags : Flags} {t : RelocTable}

theorem findRealBlock_lt (htos : ∀ i < t.total, t.itemTo i < chip.maxBlocks) {b : ℕ}
    (hb : b < chip.maxBlocks) : findRealBlock t b < chip.maxBlocks := by
  unfold findRealBlock
  cases hloop : findLoop t (findFuel t) 0 b with
  | none => exact hb
  | some e =>
    rcases findLoop_eq_or_to hloop with rfl | ⟨j, hj, rfl⟩
    · exact hb
    · exact htos j hj

/-- A search that meets no item of the block ends where it began. -/
theorem findLoop_of_not_from {fuel i b : ℕ} (h : ∀ j < t.total, t.itemFrom j ≠ b)
    (hfuel : t.total < fuel + i) : findLoop t fuel i b = some b ∨ fuel = 0 := by
  induction fuel generalizing i with
  | zero => exact .inr rfl
  | succ fuel ih =>
    left
    rw [findLoop]
    by_cases hi : i < t.total
    · rw [if_pos hi, if_neg (h i hi)]
      exact (ih (by omega)).resolve_right (by omega)
    · rw [if_neg hi]

/-- Blocks behind the chip stay where they are. -/
theorem InsideTable.findLoop (h : InsideTable chip t) {b : ℕ} (hb : chip.maxBlocks ≤ b) :
    findLoop t (findFuel t) 0 b = some b := by
  have hfuel : t.total + 1 ≤ findFuel t := Nat.le_mul_of_pos_right _ (Nat.succ_pos _)
  apply (findLoop_of_not_from _ (by omega)).resolve_right (by omega)
  intro j hj he
  have := h.froms j hj
  omega

end Tables

section LastRead
variable {chip : NandChip} {f : Faults} {flags : Flags}

theorem readPiece_reads_ge (spare : SpareRead) (n page off : ℕ) (buf : Mem) (F : Part) (p : ℕ) :
    F.reads p ≤ (readPiece chip f flags spare n page off buf F).2.2.reads p := by
  induction n generalizing page off buf F with
  | zero => exact le_rfl
  | succ n ih =>
    have hone : F.reads p ≤ (F.readPage f page).2.2.reads p := by
      show F.reads p ≤ Function.update F.reads page (F.reads page + 1) p
      by_cases hp : p = page
      · rw [hp, Function.update_self]
        omega
      · rw [Function.update_of_ne hp]
    rw [readPiece]
    split
    · exact hone
    · exact hone.trans (ih _ _ _ _)

/-- Where no read fails, a piece is read to its last page. -/
theorem readPiece_last (hf : ∀ p n, f.eccError p n = false) (spare : SpareRead)
    (n page off : ℕ) (buf : Mem) (F : Part) :
    (readPiece chip f flags spare n page off buf F).1 = 0 ∧
      ∀ p, page ≤ p → p < page + n →
        0 < (readPiece chip f flags spare n page off buf F).2.2.reads p := by
  induction n generalizing page off buf F with
  | zero => exact ⟨rfl, fun p _ _ => by omega⟩
  | succ n ih =>
    have hok : (F.readPage f page).1 = 0 := by
      show (if f.eccError page (F.reads page) = true then nandEccErr else 0) = 0
      rw [hf, if_neg (by simp)]
    have hone : 0 < (F.readPage f page).2.2.reads page := by
      show 0 < Function.update F.reads page (F.reads page + 1) page
      rw [Function.update_self]
      omega
    rw [readPiece, hok]
    rw [if_neg (fun h => h.1 rfl)]
    obtain ⟨hstatus, hlast⟩ := ih (page + 1) (off + stride chip flags)
      (if flags.oob = true then
        overlay (overlay buf off chip.pageSize (F.readPage f page).2.1) (off + chip.pageSize)
          chip.spareSize (spare.laid page)
      else overlay buf off chip.pageSize (F.readPage f page).2.1) (F.readPage f page).2.2
    refine ⟨hstatus, ?_⟩
    intro p hp hlt
    rcases Nat.eq_or_lt_of_le hp with rfl | hp
    · exact hone.trans_le (readPiece_reads_ge _ _ _ _ _ _ _)
    · exact hlast p hp (by omega)

theorem readLoop_zero (spare : SpareRead) (fuel block first off : ℕ) (buf : Mem) (s : Driver) :
    readLoop chip f flags spare fuel block first 0 off buf s = (0, buf, s) := by
  cases fuel with
  | zero => rfl
  | succ fuel => rw [readLoop, if_pos rfl]

theorem readLoop_last (hf : ∀ p n, f.eccError p n = false) (spare : SpareRead)
    (fuel block first pageNum off : ℕ) (buf : Mem) (s : Driver) (hfirst : first < chip.maxPages)
    (hfuel : pageNum ≤ fuel) {p : ℕ} (hp : p + 1 = block * chip.maxPages + first + pageNum)
    (hpos : 0 < pageNum) :
    0 < (readLoop chip f flags spare fuel block first pageNum off buf s).2.2.part.reads
      (physPage chip s p) := by
  induction fuel generalizing block first pageNum off buf s with
  | zero => omega
  | succ fuel ih =>
    obtain ⟨hstatus, hpages⟩ := @readPiece_last chip _ flags hf spare
      (min (chip.maxPages - first) pageNum) (findRealBlock s.reloc block * chip.maxPages + first)
      off buf s.part
    rw [readLoop, if_neg (by omega)]
    dsimp only
    rw [if_neg (not_not.mpr hstatus)]
    by_cases hmore : chip.maxPages - first < pageNum
    · -- the last page lies in a later block
      have hmin : min (chip.maxPages - first) pageNum = chip.maxPages - first :=
        min_eq_left hmore.le
      rw [hmin]
      exact ih (block + 1) 0 _ _ _ _ chip.maxPages_pos (by omega)
        (by rw [Nat.add_mul]; omega) (by omega)
    · have hmin : min (chip.maxPages - first) pageNum = pageNum := min_eq_right (by omega)
      obtain ⟨j, rfl⟩ : ∃ j, pageNum = j + 1 := ⟨pageNum - 1, by omega⟩
      have hpj : p = block * chip.maxPages + (first + j) := by omega
      have hphys : physPage chip s p =
          findRealBlock s.reloc block * chip.maxPages + first + j := by
        rw [hpj, physPage_of_lt chip s block (by omega), Nat.add_assoc]
      rw [hmin] at hpages ⊢
      rw [Nat.sub_self, readLoop_zero, hphys]
      exact hpages _ (by omega) (by omega)

end LastRead

section Condition
variable {chip : NandChip} {t : RelocTable} {start size : ℕ} {flags : Flags}

theorem page_index (chip : NandChip) (page k : ℕ) :
    page / chip.maxPages * chip.maxPages + page % chip.maxPages + k = page + k := by
  rw [Nat.div_add_mod']

/-- What the real blocks of the pages say of a call. -/
theorem rangeChecked_of_blocks {kind : Faults → Prop} {K : Driver → Prop}
    (ht : ∀ s, HasTable t s → K s)
    (hkeep : ∀ f, kind f → ∀ buf spare, PiecesInside chip f buf flags spare K)
    (h : ∀ buf, rangeRefused chip (some buf) start size flags = false →
      ∀ n ≤ pageCount chip start size flags, SearchesEnd chip t (start / chip.pageSize) n →
      ∀ s, K s → ∀ k < n,
        findRealBlock s.reloc ((start / chip.pageSize + k) / chip.maxPages) < chip.maxBlocks) :
    RangeChecked chip kind t start size flags := by
  have hreads : ∀ buf, rangeRefused chip (some buf) start size flags = false →
      ∀ n ≤ pageCount chip start size flags, SearchesEnd chip t (start / chip.pageSize) n →
      ∀ f, kind f → ∀ spare s, HasTable t s → ∀ p ∈ beyond chip,
        (coreRead chip f (start / chip.pageSize) n buf flags spare s).2.2.part.reads p =
          s.part.reads p := by
    intro buf hok n hn hends f _ spare s hs p hp
    apply readLoop_reads _ _ _ _ _ _ _ _ (Nat.mod_lt _ chip.maxPages_pos) _ hp
    intro k hk
    rw [page_index]
    exact h buf hok n hn hends s (ht s hs) k hk
  have hprograms : ∀ buf, rangeRefused chip (some buf) start size flags = false →
      ∀ n ≤ pageCount chip start size flags, SearchesEnd chip t (start / chip.pageSize) n →
      ∀ f, kind f → ∀ b spare s, HasTable t s → AgreeOn chip (beyond chip) s.part
        (coreWrite chip f (start / chip.pageSize) n b flags spare s).2.part := by
    intro buf hok n hn hends f hf b spare s hs
    apply writeLoop_beyond (hkeep f hf b spare) _ _ _ _ _ _ (Nat.mod_lt _ chip.maxPages_pos)
    · exact ht s hs
    · intro s' hs' k hk
      rw [page_index]
      exact h buf hok n hn hends s' hs' k hk
  refine ⟨fun hsize halign hin => rangeRefused_of_inside hsize halign hin, hreads, hprograms,
    ?_, ?_⟩
  · intro hends f hf buf spare s hs p hp
    unfold nandRead
    split
    · rfl
    · split
      · rfl
      · rename_i hok
        cases buf with
        | none => exact absurd rfl hok
        | some buf =>
          exact hreads buf (Bool.eq_false_iff.mpr hok) _ le_rfl hends f hf spare s hs p hp
  · intro hends f hf buf spare s hs hslot
    unfold nandWrite
    split
    · exact .refl _ _
    · split
      · exact .refl _ _
      · rename_i hok
        cases buf with
        | none => exact absurd rfl hok
        | some buf =>
          have hcore := hprograms buf (Bool.eq_false_iff.mpr hok) _ le_rfl hends f hf
            (writeBuffer chip buf start size flags) spare s hs
          dsimp only
          split
          · exact hcore
          · apply hcore.trans
            apply nandFinalize_beyond
            rw [coreWrite, writeLoop_bbtSlot]
            exact hslot

theorem rangeChecked_of_inside (h : BlocksInside chip t start size flags) :
    RangeChecked chip ProgramsSucceed t start size flags := by
  apply rangeChecked_of_blocks (K := fun s => s.reloc = t) fun s hs => hs.1
  · intro f hf buf spare off first n b s hn hb hs
    rw [retryRelocating_good _ (writeAttempt_good hf _ _ _ _ _)]
    exact ⟨writeAttempt_beyond buf off spare hb hn s.part, hs⟩
  · rintro buf hok n hn hends s rfl k hk
    rcases h with hrefused | hblocks
    · rw [hrefused buf] at hok
      exact absurd hok (by simp)
    · exact hblocks k (by omega) fun j hj => hends j (by omega)

/-- A driver on an untouched part, with a table. -/
def withTable (t : RelocTable) : Driver := ⟨freshPart, t, false, 0, false, 0⟩

theorem inside_of_rangeChecked {kind : Faults → Prop} (hkind : kind wornFaults)
    (h : RangeChecked chip kind t start size flags) : BlocksInside chip t start size flags := by
  by_cases hrefused : rangeRefused chip (some blank) start size flags = true
  · exact .inl fun buf => hrefused
  refine .inr fun k hk hends => ?_
  by_contra hreal
  have hunread := h.reads blank (Bool.eq_false_iff.mpr hrefused) (k + 1) hk hends wornFaults hkind
    ⟨fun _ => blank, fun _ => false⟩ (withTable t) ⟨rfl, Nat.zero_le _⟩
    (physPage chip (withTable t) (start / chip.pageSize + k)) (by
      have hle : chip.maxBlocks * chip.maxPages ≤
          findRealBlock t ((start / chip.pageSize + k) / chip.maxPages) * chip.maxPages :=
        Nat.mul_le_mul_right _ (by omega)
      exact hle.trans (Nat.le_add_right _ _))
  have hread := @readLoop_last chip wornFaults flags (fun _ _ => rfl)
    ⟨fun _ => blank, fun _ => false⟩ (k + 1) (start / chip.pageSize / chip.maxPages)
    (start / chip.pageSize % chip.maxPages) (k + 1) 0 blank (withTable t)
    (Nat.mod_lt _ chip.maxPages_pos) le_rfl (start / chip.pageSize + k)
    (by rw [page_index]; omega) (Nat.succ_pos k)
  rw [coreRead] at hunread
  rw [hunread] at hread
  exact absurd hread (by simp [withTable, freshPart])

theorem count_of_accepted {buf : Mem} (hok : rangeRefused chip (some buf) start size flags = false)
    (h0 : pageCount chip start size flags = 0) : start / chip.pageSize ≤ chipPages chip := by
  simp only [rangeRefused, Option.isNone_some, Bool.false_or, Bool.or_eq_false_iff,
    decide_eq_false_iff_not] at hok
  obtain ⟨⟨⟨hsize, -⟩, hstart⟩, -⟩ := hok
  have hpage := chip.pageSize_pos
  by_cases hoob : flags.oob = true
  · have hneed := le_blocksUp_mul size (show 0 < chip.pageSize + chip.spareSize by omega)
    rw [pageCount, if_pos hoob] at h0
    rw [h0, Nat.zero_mul] at hneed
    omega
  · rw [chipBytes_eq, stride_of_plain (Bool.eq_false_iff.mpr hoob)] at hstart
    exact Nat.div_le_of_le_mul (by rw [Nat.mul_comm]; omega)

/-- For a table that keeps to the chip, the page numbers decide. -/
theorem pages_of_blocksInside (ht : InsideTable chip t) (h : BlocksInside chip t start size flags) :
    (∀ buf, rangeRefused chip (some buf) start size flags = true) ∨
      start / chip.pageSize + pageCount chip start size flags ≤ chipPages chip := by
  rcases h with hrefused | hblocks
  · exact .inl hrefused
  by_cases hrefused : rangeRefused chip (some blank) start size flags = true
  · exact .inl fun buf => hrefused
  right
  by_contra hout
  by_cases h0 : pageCount chip start size flags = 0
  · have := count_of_accepted (Bool.eq_false_iff.mpr hrefused) h0
    omega
  -- the first page behind the chip
  have hsearch : SearchesEnd chip t (start / chip.pageSize)
      (chipPages chip - start / chip.pageSize + 1) := by
    intro j _
    rcases Nat.lt_or_ge ((start / chip.pageSize + j) / chip.maxPages) chip.maxBlocks with hb | hb
    · exact ht.ends _ hb
    · rw [ht.findLoop hb]
      rfl
  have hlt := hblocks (chipPages chip - start / chip.pageSize) (by omega) hsearch
  have hblock : chip.maxBlocks ≤ (start / chip.pageSize +
      (chipPages chip - start / chip.pageSize)) / chip.maxPages := by
    rw [Nat.le_div_iff_mul_le chip.maxPages_pos, ← chipPages]
    omega
  rw [findRealBlock, ht.findLoop hblock, Option.getD_some] at hlt
  omega

theorem rangeChecked_of_pages (ht : InsideTable chip t)
    (h : (∀ buf, rangeRefused chip (some buf) start size flags = true) ∨
      start / chip.pageSize + pageCount chip start size flags ≤ chipPages chip) :
    RangeChecked chip (fun _ => True) t start size flags := by
  apply rangeChecked_of_blocks (K := StaysInside chip) fun s hs =>
    ⟨hs.1 ▸ ht.tos, hs.1 ▸ ht.last, hs.2⟩
  · intro f _ buf spare off first n b s hn hb hs
    exact retryRelocating_beyond (fun r hr F => writeAttempt_beyond buf off spare hr hn F) _ hs hb
  · intro buf hok n hn _ s hs k hk
    rcases h with hrefused | hpages
    · rw [hrefused buf] at hok
      exact absurd hok (by simp)
    · apply findRealBlock_lt hs.tos
      rw [Nat.div_lt_iff_lt_mul chip.maxPages_pos, ← chipPages]
      omega

/-- Where programs succeed, the check is enough exactly if the table leads every block of an
accepted request to a block of the chip. With a table that keeps to the chip it is enough,
whatever fails, exactly if the pages counted end in the chip. -/
theorem rangeChecked_iff (chip : NandChip) (t : RelocTable) (start size : ℕ) (flags : Flags) :
    (RangeChecked chip ProgramsSucceed t start size flags ↔
      BlocksInside chip t start size flags) ∧
    (InsideTable chip t → (RangeChecked chip (fun _ => True) t start size flags ↔
      (∀ buf, rangeRefused chip (some buf) start size flags = true) ∨
        start / chip.pageSize + pageCount chip start size flags ≤ chipPages chip)) := by
  refine ⟨⟨inside_of_rangeChecked fun _ _ => rfl, rangeChecked_of_inside⟩, fun ht => ⟨?_, ?_⟩⟩
  · exact fun h => pages_of_blocksInside ht (inside_of_rangeChecked trivial h)
  · exact rangeChecked_of_pages ht

theorem insideTable_emptyTable : InsideTable micron4GbX16 emptyTable := by
  have htotal : RelocTable.total emptyTable = 0 := by decide
  refine ⟨fun i hi => ?_, fun i hi => ?_, ?_, fun b _ => ?_⟩
  · omega
  · omega
  · rw [htotal]
    decide
  · rw [findFuel, htotal]
    simp [findLoop, htotal]

/-- Two pages of data at the start of block 1 are accepted, and stay inside whatever fails. -/
theorem two_pages_are_inside :
    RangeChecked micron4GbX16 (fun _ => True) emptyTable 262144 8192 plainFlags ∧
    rangeRefused micron4GbX16 (some blank) 262144 8192 plainFlags = false := by
  have h := ((rangeChecked_iff micron4GbX16 emptyTable 262144 8192 plainFlags).2
    insideTable_emptyTable).mpr (.inr (by decide +kernel))
  exact ⟨h, by decide +kernel⟩

/-- Data with the spare bytes of yaffs. -/
def oobFlags : Flags := ⟨true, false, false, false⟩

/-- Two pages with their spare bytes from the last page on are accepted, and the page behind
the part is read. -/
theorem read_behind_the_part :
    rangeRefused micron4GbX16 (some blank) (131071 * 4096) (2 * 4320) oobFlags = false ∧
    (nandRead micron4GbX16 wornFaults (some blank) (131071 * 4096) (2 * 4320) oobFlags
      ⟨fun _ => blank, fun _ => false⟩ (booted wornFaults)).1 = 0 ∧
    (nandRead micron4GbX16 wornFaults (some blank) (131071 * 4096) (2 * 4320) oobFlags
      ⟨fun _ => blank, fun _ => false⟩ (booted wornFaults)).2.2.part.reads 131072 = 1 ∧
    ¬ RangeChecked micron4GbX16 ProgramsSucceed (booted wornFaults).reloc (131071 * 4096)
      (2 * 4320) oobFlags := by
  have hread : (nandRead micron4GbX16 wornFaults (some blank) (131071 * 4096) (2 * 4320) oobFlags
      ⟨fun _ => blank, fun _ => false⟩ (booted wornFaults)).2.2.part.reads 131072 = 1 := by
    decide +kernel
  refine ⟨by decide +kernel, by decide +kernel, hread, ?_⟩
  intro h
  have hcount : pageCount micron4GbX16 (131071 * 4096) (2 * 4320) oobFlags = 2 := by decide +kernel
  have hends : SearchesEnd micron4GbX16 (booted wornFaults).reloc
      (131071 * 4096 / micron4GbX16.pageSize)
      (pageCount micron4GbX16 (131071 * 4096) (2 * 4320) oobFlags) := by
    rw [hcount]
    unfold SearchesEnd
    decide +kernel
  have hkept := h.read hends wornFaults (fun _ _ => rfl) (some blank)
    ⟨fun _ => blank, fun _ => false⟩ (booted wornFaults) ⟨rfl, by decide +kernel⟩ 131072
    (show (131072 : ℕ) ≥ 2048 * 64 by decide)
  rw [hread] at hkept
  exact absurd hkept (by decide +kernel)

end Condition
end UBoot.Nand
