import UBoot.Nand.Refinement

/-!
# The padding of the last page

`nand_write` without spare bytes rounds the last page up and fills the rest of it with
0xFF. The bytes it fills are those at `buf + start + size`, where `start` is a position on
the flash: the page is programmed with whatever lies behind the caller's bytes, and memory
that is not the caller's is overwritten.
-/
namespace UBoot.Nand
open ByteStore

/-- The caller's bytes, and 0xFF behind them. -/
def padded (mem : Mem) (size : ℕ) : Mem := fun i => if i < size then mem i else 0xFF

section Functions
variable (chip : NandChip) (f : Faults)

/-- The memory after `nand_write`, seen from `buf`. -/
def nandWriteMem (mem : Mem) (start size : ℕ) (flags : Flags) (s : Driver) : Mem :=
  if coreCheckBbt s = false then mem
  else if rangeRefused chip (some mem) start size flags then
    if start = 0 then fillBootHeader chip mem else mem
  else writeBuffer chip mem start size flags

/-- `nand_write` as it is meant: the pages that `size` bytes need, filled up with 0xFF. -/
def nandWritePadded (mem : Mem) (start size : ℕ) (flags : Flags) (spare : SpareOnes)
    (s : Driver) : ℤ × Driver :=
  if coreCheckBbt s = false then (-1, s)
  else if rangeRefused chip (some mem) start size flags then (-1, s)
  else
    let r := coreWrite chip f (start / chip.pageSize) (blocksUp size chip.pageSize)
      (padded mem size) flags spare s
    if r.1 ≠ 0 then r else nandFinalize chip f r.2

/-- A write pads its last page, and nothing else: it takes the pages that the bytes need,
on every part and in every state it does what the padded write does, and it changes no
memory but what lies between the bytes and the end of their last page. -/
structure PadsLastPage (mem : Mem) (start size : ℕ) (flags : Flags) : Prop where
  pages : rangeRefused chip (some mem) start size flags = false →
    pageCount chip start size flags = blocksUp size chip.pageSize
  programs : ∀ f spare s, nandWrite chip f (some mem) start size flags spare s =
    nandWritePadded chip f mem start size flags spare s
  keeps : ∀ s i, ¬ (size ≤ i ∧ i < blocksUp size chip.pageSize * chip.pageSize) →
    nandWriteMem chip mem start size flags s i = mem i

end Functions

section Congruence
variable {chip : NandChip} {f : Faults} {buf buf' : Mem}

theorem stride_of_plain {flags : Flags} (hoob : flags.oob = false) :
    stride chip flags = chip.pageSize := by
  rw [stride, hoob, if_neg (by simp)]

theorem allOnes_congr {dbuf dbuf' : Mem} {size : ℕ} (hdvd : 4 ∣ size)
    (h : ∀ i < size, dbuf i = dbuf' i) : allOnes dbuf size = allOnes dbuf' size := by
  have hword : ∀ i ∈ List.range (size / 4), fetch dbuf (4 * i) 4 = fetch dbuf' (4 * i) 4 := by
    intro i hi
    have hlt := List.mem_range.mp hi
    apply fetch_congr
    intro j hj
    apply h
    omega
  unfold allOnes
  rw [Bool.eq_iff_iff, List.all_eq_true, List.all_eq_true]
  constructor <;> intro hall i hi
  · rw [← hword i hi]
    exact hall i hi
  · rw [hword i hi]
    exact hall i hi

theorem cut_congr {n : ℕ} {m m' : Mem} (h : ∀ i < n, m i = m' i) : cut n m = cut n m' := by
  funext i
  unfold cut
  split
  · exact h i ‹_›
  · rfl

theorem writePages_congr {skip skip' : ℕ → Bool} {data data' : ℕ → Mem} {base n i : ℕ}
    (hskip : ∀ j, i ≤ j → j < i + n → skip j = skip' j)
    (hdata : ∀ j, i ≤ j → j < i + n → cut chip.pageSize (data j) = cut chip.pageSize (data' j))
    (F : Part) :
    writePages chip f skip data base n i F = writePages chip f skip' data' base n i F := by
  induction n generalizing i F with
  | zero => rfl
  | succ n ih =>
    have hpage : F.writePage chip f (base + i) (data i) =
        F.writePage chip f (base + i) (data' i) := by
      unfold Part.writePage
      rw [hdata i le_rfl (by omega)]
    rw [writePages, writePages, hskip i le_rfl (by omega), hpage]
    have hrest : ∀ G, writePages chip f skip data base n (i + 1) G =
        writePages chip f skip' data' base n (i + 1) G := by
      intro G
      apply ih
      · exact fun j hj hlt => hskip j (by omega) (by omega)
      · exact fun j hj hlt => hdata j (by omega) (by omega)
    rw [hrest]
    dsimp only
    rw [hrest]

theorem writeAttempt_congr {off first n : ℕ} {flags : Flags} (hoob : flags.oob = false)
    (h : ∀ i, off ≤ i → i < off + n * chip.pageSize → buf i = buf' i) (spare : SpareOnes) :
    writeAttempt chip f buf off first n flags spare =
      writeAttempt chip f buf' off first n flags spare := by
  have hbytes : ∀ j < n, ∀ k < chip.pageSize,
      advance buf (off + j * chip.pageSize) k = advance buf' (off + j * chip.pageSize) k := by
    intro j hj k hk
    have hle : (j + 1) * chip.pageSize ≤ n * chip.pageSize := Nat.mul_le_mul_right _ hj
    rw [Nat.add_mul] at hle
    exact h _ (by omega) (by omega)
  funext r F
  unfold writeAttempt
  dsimp only
  rw [stride_of_plain hoob]
  split
  · apply writePages_congr
    · intro j _ hj
      rw [allOnes_congr chip.page_dvd (hbytes j (by omega))]
    · exact fun j _ hj => cut_congr (hbytes j (by omega))
  · apply writePages_congr
    · intro j _ hj
      rw [allOnes_congr chip.page_dvd (hbytes j (by omega))]
    · exact fun j _ hj => cut_congr (hbytes j (by omega))

theorem writeLoop_congr {flags : Flags} (hoob : flags.oob = false) {spare : SpareOnes}
    (fuel : ℕ) {block first pageNum off : ℕ}
    (h : ∀ i, off ≤ i → i < off + pageNum * chip.pageSize → buf i = buf' i) (s : Driver) :
    writeLoop chip f buf flags spare fuel block first pageNum off s =
      writeLoop chip f buf' flags spare fuel block first pageNum off s := by
  induction fuel generalizing block first pageNum off s with
  | zero => rfl
  | succ fuel ih =>
    rw [writeLoop, writeLoop]
    by_cases h0 : pageNum = 0
    · rw [if_pos h0, if_pos h0]
    · rw [if_neg h0, if_neg h0]
      dsimp only
      have hn : min (chip.maxPages - first) pageNum ≤ pageNum := min_le_right _ _
      generalize min (chip.maxPages - first) pageNum = n at hn
      obtain ⟨rest, rfl⟩ := Nat.exists_eq_add_of_le hn
      rw [Nat.add_mul] at h
      have hpiece : ∀ i, off ≤ i → i < off + n * chip.pageSize → buf i = buf' i :=
        fun i hi hlt => h i hi (by omega)
      have hrest : ∀ i, off + n * chip.pageSize ≤ i →
          i < off + n * chip.pageSize + rest * chip.pageSize → buf i = buf' i :=
        fun i hi hlt => h i (by omega) (by omega)
      rw [writeAttempt_congr hoob hpiece spare, Nat.add_sub_cancel_left, stride_of_plain hoob,
        ih hrest]

/-- What is programmed is a matter of the bytes of the pages written. -/
theorem coreWrite_congr {flags : Flags} (hoob : flags.oob = false) {spare : SpareOnes}
    {page pageNum : ℕ} (h : ∀ i < pageNum * chip.pageSize, buf i = buf' i) (s : Driver) :
    coreWrite chip f page pageNum buf flags spare s =
      coreWrite chip f page pageNum buf' flags spare s :=
  writeLoop_congr hoob pageNum (fun i _ hi => h i (by omega)) s

end Congruence

section LastPage
variable {chip : NandChip} {f : Faults} {buf : Mem} {flags : Flags} {spare : SpareOnes}

theorem writePages_good (hf : ∀ p n, f.programFails p n = false) (skip : ℕ → Bool)
    (data : ℕ → Mem) (base n i : ℕ) (F : Part) :
    (writePages chip f skip data base n i F).1 = 0 := by
  induction n generalizing i F with
  | zero => rfl
  | succ n ih =>
    rw [writePages]
    dsimp only
    have hpage : (F.writePage chip f (base + i) (data i)).1 = 0 := by
      rw [writePage_fst, hf]
      rfl
    rw [if_neg (not_not.mpr hpage)]
    split <;> exact ih _ _

theorem writeAttempt_good (hf : ∀ p n, f.programFails p n = false) (off first n r : ℕ) (F : Part) :
    (writeAttempt chip f buf off first n flags spare r F).1 = 0 := by
  unfold writeAttempt
  dsimp only
  split <;> exact writePages_good hf _ _ _ _ _ _

theorem retryRelocating_good {attempt : ℕ → Part → ℤ × Part} {r : ℕ} {s : Driver} (fuel : ℕ)
    (h : (attempt r s.part).1 = 0) :
    retryRelocating chip f attempt (fuel + 1) r s =
      (0, { s with part := (attempt r s.part).2 }) := by
  rw [retryRelocating]
  exact if_pos h

/-- A piece of a write programs its own pages. -/
theorem writeAttempt_agreeOn {off first n r p : ℕ}
    (h : ∀ j < n, p ≠ r * chip.maxPages + first + j) (F : Part) :
    AgreeOn chip {p} F (writeAttempt chip f buf off first n flags spare r F).2 := by
  unfold writeAttempt
  dsimp only
  split
  · exact writePages_agreeOn fun j _ hj _ hmem => h j (by omega) hmem.symm
  · exact writePages_agreeOn fun j _ hj _ hmem => h j (by omega) hmem.symm

theorem writeLoop_zero (fuel block first off : ℕ) (s : Driver) :
    writeLoop chip f buf flags spare fuel block first 0 off s = (0, s) := by
  cases fuel with
  | zero => rfl
  | succ fuel => rw [writeLoop, if_pos rfl]

/-- Where every program succeeds, the last page written holds its bytes, if it was blank and
no page before it lies in its place. -/
theorem writeLoop_last (hf : ∀ p n, f.programFails p n = false) (hoob : flags.oob = false)
    (fuel block first pageNum off : ℕ) (hfirst : first < chip.maxPages)
    (hfuel : pageNum ≤ fuel) (s : Driver) :
    ∃ F, writeLoop chip f buf flags spare fuel block first pageNum off s =
        (0, { s with part := F }) ∧
      ∀ p, p + 1 = block * chip.maxPages + first + pageNum → 0 < pageNum →
        findRealBlock s.reloc (p / chip.maxPages) ≠ 0 →
        s.part.page (physPage chip s p) = blank →
        (∀ q, block * chip.maxPages + first ≤ q → q < p → physPage chip s q ≠ physPage chip s p) →
        F.page (physPage chip s p) =
          cut chip.pageSize (advance buf (off + (pageNum - 1) * chip.pageSize)) := by
  induction fuel generalizing block first pageNum off s with
  | zero =>
    refine ⟨s.part, rfl, ?_⟩
    intro p _ hpos
    omega
  | succ fuel ih =>
    rw [writeLoop]
    by_cases h0 : pageNum = 0
    · rw [if_pos h0]
      exact ⟨s.part, rfl, fun p _ hpos => by omega⟩
    · rw [if_neg h0]
      dsimp only
      rw [retryRelocating_good _ (writeAttempt_good hf _ _ _ _ _)]
      dsimp only
      rw [if_neg (by simp), stride_of_plain hoob]
      have hmax := chip.maxPages_pos
      obtain ⟨F, hrun, hlast⟩ := ih (block + 1) 0
        (pageNum - min (chip.maxPages - first) pageNum)
        (off + min (chip.maxPages - first) pageNum * chip.pageSize) hmax (by omega)
        { s with part := (writeAttempt chip f buf off first
          (min (chip.maxPages - first) pageNum) flags spare
          (findRealBlock s.reloc block) s.part).2 }
      refine ⟨F, hrun, ?_⟩
      intro p hp _ hreal hblank hapart
      by_cases hmore : chip.maxPages - first < pageNum
      · -- the last page lies in a later block
        have hmin : min (chip.maxPages - first) pageNum = chip.maxPages - first :=
          min_eq_left hmore.le
        rw [hmin] at hlast
        have hkeep : AgreeOn chip {physPage chip s p} s.part (writeAttempt chip f buf off first
            (chip.maxPages - first) flags spare (findRealBlock s.reloc block) s.part).2 := by
          apply writeAttempt_agreeOn
          intro j hj heq
          apply hapart (block * chip.maxPages + (first + j)) (by omega) (by omega)
          rw [physPage_of_lt chip s block (by omega), heq, Nat.add_assoc]
        have hshow := hlast p (by rw [Nat.add_mul]; omega) (by omega) hreal
          ((hkeep.page _ rfl).trans hblank)
          fun q hq => hapart q (by rw [Nat.add_mul] at hq; omega)
        have hoff : off + (chip.maxPages - first) * chip.pageSize +
            (pageNum - (chip.maxPages - first) - 1) * chip.pageSize =
              off + (pageNum - 1) * chip.pageSize := by
          rw [Nat.add_assoc, ← Nat.add_mul]
          congr 2
          omega
        rw [hoff] at hshow
        exact hshow
      · have hmin : min (chip.maxPages - first) pageNum = pageNum := min_eq_right (by omega)
        obtain ⟨j, rfl⟩ : ∃ j, pageNum = j + 1 := ⟨pageNum - 1, by omega⟩
        have hpj : p = block * chip.maxPages + (first + j) := by omega
        have hdiv : p / chip.maxPages = block := by rw [hpj, chip.page_div (by omega)]
        have hphys : physPage chip s p =
            findRealBlock s.reloc block * chip.maxPages + first + j := by
          rw [physPage, hdiv, hpj, Nat.mul_comm block, Nat.mul_add_mod,
            Nat.mod_eq_of_lt (by omega), Nat.add_assoc]
        rw [hmin, Nat.sub_self, writeLoop_zero] at hrun
        have hF : F = (writeAttempt chip f buf off first (j + 1) flags spare
            (findRealBlock s.reloc block) s.part).2 := by
          have := congrArg (fun r : ℤ × Driver => r.2.part) hrun
          exact this.symm
        rw [hdiv] at hreal
        rw [hF, hphys, writeAttempt_user hreal hoob, Nat.add_sub_cancel]
        rw [hphys] at hblank
        rw [writePages_ok (writePages_good hf _ _ _ _ _ _) j (Nat.zero_le _) (by omega), hblank,
          programmed_blank]

end LastPage

section Condition
variable {chip : NandChip} {mem : Mem} {start size : ℕ} {flags : Flags}

theorem blocksUp_add (hpage : 0 < chip.pageSize) (halign : start % chip.pageSize = 0) :
    blocksUp (start + size) chip.pageSize =
      start / chip.pageSize + blocksUp size chip.pageSize := by
  obtain ⟨k, rfl⟩ := Nat.dvd_of_mod_eq_zero halign
  unfold blocksUp
  rw [Nat.mul_add_mod, Nat.mul_add_div hpage, Nat.mul_div_cancel_left _ hpage]
  split <;> omega

/-- Where nothing wraps, an accepted request ends in the chip. -/
theorem pages_le_of_accepted (hoob : flags.oob = false)
    (hok : rangeRefused chip (some mem) start size flags = false) (hword : start + size < 2 ^ 32) :
    start / chip.pageSize + blocksUp size chip.pageSize ≤ chip.maxBlocks * chip.maxPages := by
  have hpage := chip.pageSize_pos
  rw [← blocksUp_add hpage (rangeRefused_false hok), blocksUp_le_iff _ _ hpage]
  simp only [rangeRefused, Bool.or_eq_false_iff, decide_eq_false_iff_not, u32_of_lt hword] at hok
  have hbytes : chipBytes chip flags ≤ chip.maxBlocks * chip.maxPages * chip.pageSize := by
    rw [chipBytes, stride_of_plain hoob]
    exact Nat.mod_le _ _
  omega

theorem blocksUp_lt (hsize : size < 2 ^ 32) : blocksUp size chip.pageSize ≤ 2 ^ 24 := by
  have htable := chip.table_le
  have hle : blocksUp size chip.pageSize * 512 ≤ blocksUp size chip.pageSize * chip.pageSize :=
    Nat.mul_le_mul_left _ htable
  have hdiv : size / chip.pageSize ≤ size / 512 := Nat.div_le_div_left htable (by decide)
  unfold blocksUp
  split <;> omega

theorem pageCount_plain (hoob : flags.oob = false) (halign : start % chip.pageSize = 0)
    (hword : start + size < 2 ^ 32) :
    pageCount chip start size flags = blocksUp size chip.pageSize := by
  have hfew : blocksUp size chip.pageSize ≤ 2 ^ 24 := blocksUp_lt (by omega)
  rw [pageCount, hoob, if_neg (by simp), u32_of_lt hword, blocksUp_add chip.pageSize_pos halign]
  have hsum : start / chip.pageSize + blocksUp size chip.pageSize + 2 ^ 32 -
      start / chip.pageSize = blocksUp size chip.pageSize + 2 ^ 32 := by omega
  rw [hsum, u32, Nat.add_mod_right, Nat.mod_eq_of_lt (by omega)]

/-- Where `start + size` wraps, the difference of the page numbers is not what the bytes
need. -/
theorem pageCount_wrapped (hoob : flags.oob = false) (halign : start % chip.pageSize = 0)
    (hstart : start < 2 ^ 32) (hsize : size < 2 ^ 32) (hpos : 0 < size)
    (hwrap : 2 ^ 32 ≤ start + size) :
    pageCount chip start size flags ≠ blocksUp size chip.pageSize := by
  have hpage := chip.pageSize_pos
  have hfew : blocksUp size chip.pageSize ≤ 2 ^ 24 := blocksUp_lt hsize
  have hneed : 0 < blocksUp size chip.pageSize := by
    have := le_blocksUp_mul size hpage
    by_contra h0
    rw [Nat.eq_zero_of_not_pos h0, Nat.zero_mul] at this
    omega
  have hfirst : start / chip.pageSize ≤ 2 ^ 23 := by
    have : start / chip.pageSize ≤ start / 512 := Nat.div_le_div_left chip.table_le (by decide)
    omega
  have hword : u32 (start + size) = start + size - 2 ^ 32 := by
    rw [u32, Nat.mod_eq_sub_mod hwrap, Nat.mod_eq_of_lt (by omega)]
  have hend : blocksUp (start + size - 2 ^ 32) chip.pageSize ≤ start / chip.pageSize := by
    rw [blocksUp_le_iff _ _ hpage, Nat.div_mul_cancel (Nat.dvd_of_mod_eq_zero halign)]
    omega
  rw [pageCount, hoob, if_neg (by simp), hword, u32]
  generalize blocksUp (start + size - 2 ^ 32) chip.pageSize = e at hend
  rcases Nat.eq_or_lt_of_le hend with heq | hlt
  · rw [heq, Nat.add_sub_cancel_left, Nat.mod_self]
    omega
  · rw [Nat.mod_eq_of_lt (by omega)]
    omega

/-- The memory handed on: what is filled lies `start` bytes behind the end of the bytes. -/
theorem writeBuffer_plain (hstart : start ≠ 0) (hoob : flags.oob = false)
    (halign : start % chip.pageSize = 0) (hword : start + size < 2 ^ 32) (i : ℕ) :
    writeBuffer chip mem start size flags i =
      if start + size ≤ i ∧ i < start + blocksUp size chip.pageSize * chip.pageSize then 0xFF
      else mem i := by
  have hmod : (start + size) % chip.pageSize = size % chip.pageSize := by
    rw [Nat.add_mod, halign, Nat.zero_add, Nat.mod_mod]
  have hlen := blocksUp_mul_eq size chip.pageSize_pos
  have hlt := Nat.mod_lt size chip.pageSize_pos
  rw [writeBuffer, if_neg hstart, u32_of_lt hword, hmod, hlen]
  by_cases hr : size % chip.pageSize = 0
  · rw [if_neg (by simp [hr]), if_pos hr, if_neg (by omega)]
  · rw [if_pos ⟨hoob, hr⟩, if_neg hr, overlay]
    by_cases hi : start + size ≤ i ∧ i < start + size + (chip.pageSize - size % chip.pageSize)
    · rw [if_pos hi, if_pos (by omega)]
      rfl
    · rw [if_neg hi, if_neg (by omega)]

/-- The bytes that should be filled, and those that are, hold 0xFF already; or there are
none. A refused write pads nothing. -/
def PaddingHarmless (chip : NandChip) (mem : Mem) (start size : ℕ) (flags : Flags) : Prop :=
  rangeRefused chip (some mem) start size flags = true ∨
    start + size < 2 ^ 32 ∧ (chip.pageSize ∣ size ∨
      ∀ i, size ≤ i → i < blocksUp size chip.pageSize * chip.pageSize →
        mem i = 0xFF ∧ mem (start + i) = 0xFF)

theorem padsLastPage_of_harmless (hstart : start ≠ 0) (hoob : flags.oob = false)
    (h : PaddingHarmless chip mem start size flags) : PadsLastPage chip mem start size flags := by
  rcases h with hrefused | ⟨hword, hbytes⟩
  · refine ⟨fun hok => absurd (hrefused.symm.trans hok) (by simp), ?_, ?_⟩
    · intro f spare s
      rw [nandWrite, nandWritePadded, if_pos hrefused, if_pos hrefused]
    · intro s i _
      rw [nandWriteMem, if_pos hrefused, if_neg hstart, ite_self]
  · have hpage := chip.pageSize_pos
    -- what is filled and what should be filled is 0xFF already
    have hsame : ∀ i, size ≤ i → i < blocksUp size chip.pageSize * chip.pageSize →
        mem i = 0xFF ∧ mem (start + i) = 0xFF := by
      intro i hi hlt
      rcases hbytes with hdvd | hones
      · have hlen := blocksUp_mul_eq size hpage
        rw [if_pos (Nat.mod_eq_zero_of_dvd hdvd)] at hlen
        omega
      · exact hones i hi hlt
    have hbuffer : rangeRefused chip (some mem) start size flags = false →
        writeBuffer chip mem start size flags = mem := by
      intro hok
      funext i
      rw [writeBuffer_plain hstart hoob (rangeRefused_false hok) hword]
      split
      · rename_i hi
        have hones := (hsame (i - start) (by omega) (by omega)).2
        rw [show start + (i - start) = i by omega] at hones
        exact hones.symm
      · rfl
    refine ⟨fun hok => pageCount_plain hoob (rangeRefused_false hok) hword, ?_, ?_⟩
    · intro f spare s
      rw [nandWrite, nandWritePadded]
      by_cases hok : rangeRefused chip (some mem) start size flags = true
      · rw [if_pos hok, if_pos hok]
      · have hok' := Bool.eq_false_iff.mpr hok
        have hpages : ∀ i < blocksUp size chip.pageSize * chip.pageSize,
            mem i = padded mem size i := by
          intro i hi
          unfold padded
          split
          · rfl
          · exact (hsame i (by omega) hi).1
        rw [if_neg hok, if_neg hok, Option.getD_some, hbuffer hok',
          pageCount_plain hoob (rangeRefused_false hok') hword, coreWrite_congr hoob hpages]
    · intro s i _
      rw [nandWriteMem, if_neg hstart]
      split
      · rfl
      · split
        · rfl
        · rw [hbuffer (Bool.eq_false_iff.mpr ‹_›)]

/-- A table that leads block 0 away, behind every chip. -/
def movedTable : RelocTable := emptyTable.addItem 0 65535

theorem findRealBlock_movedTable (b : ℕ) :
    findRealBlock movedTable b = if b = 0 then 65535 else b := by
  have htotal : movedTable.total = 1 := by decide
  have hfrom : movedTable.itemFrom 0 = 0 := by decide
  rcases Nat.eq_zero_or_pos b with rfl | hpos
  · decide
  · have hb : (0 : ℕ) ≠ b := by omega
    rw [findRealBlock, findFuel, htotal]
    simp [findLoop, htotal, hfrom, hb, hb.symm]

/-- A driver that shows what is programmed. -/
def watcher : Driver := ⟨freshPart, movedTable, false, 0, false, 0⟩

/-- No two pages of the chip lie in one place. -/
theorem watcher_physPage_ne (chip : NandChip) {p q : ℕ} (hp : p / chip.maxPages < 65535)
    (hlt : q < p) : physPage chip watcher q ≠ physPage chip watcher p := by
  intro heq
  have hq : q / chip.maxPages ≤ p / chip.maxPages := Nat.div_le_div_right hlt.le
  have hblock := congrArg (· / chip.maxPages) heq
  simp only [physPage_div, watcher, findRealBlock_movedTable] at hblock
  have hsame : q / chip.maxPages = p / chip.maxPages := by
    split at hblock <;> split at hblock <;> omega
  have hq' := page_split chip q
  have hp' := page_split chip p
  rw [physPage, physPage, hsame] at heq
  rw [hsame] at hq'
  omega

theorem watcher_coreWrite (chip : NandChip) (buf : Mem) (hoob : flags.oob = false)
    (spare : SpareOnes) (page n : ℕ) (hin : (page + n) / chip.maxPages < 65535) :
    ∃ F, coreWrite chip wornFaults page (n + 1) buf flags spare watcher =
        (0, { watcher with part := F }) ∧
      F.page (physPage chip watcher (page + n)) =
        cut chip.pageSize (advance buf (n * chip.pageSize)) := by
  have hgood : ∀ p n, wornFaults.programFails p n = false := fun _ _ => rfl
  obtain ⟨F, hrun, hlast⟩ := @writeLoop_last chip wornFaults buf flags spare hgood hoob (n + 1)
    (page / chip.maxPages) (page % chip.maxPages) (n + 1) 0 (Nat.mod_lt _ chip.maxPages_pos)
    le_rfl watcher
  refine ⟨F, hrun, ?_⟩
  have hreal : findRealBlock watcher.reloc ((page + n) / chip.maxPages) ≠ 0 := by
    rw [watcher, findRealBlock_movedTable]
    split <;> omega
  have hpage := hlast (page + n) (by rw [Nat.div_add_mod']; omega) (Nat.succ_pos n) hreal rfl
    fun q _ hlt => watcher_physPage_ne chip hin hlt
  rw [Nat.zero_add] at hpage
  exact hpage

theorem nandWrite_accepted {f : Faults} {spare : SpareOnes} {s : Driver}
    (hbbt : coreCheckBbt s = true)
    (hok : rangeRefused chip (some mem) start size flags = false) :
    nandWrite chip f (some mem) start size flags spare s =
      let r := coreWrite chip f (start / chip.pageSize) (pageCount chip start size flags)
        (writeBuffer chip mem start size flags) flags spare s
      if r.1 ≠ 0 then r else nandFinalize chip f r.2 := by
  rw [nandWrite, hbbt, hok]
  rfl

theorem nandWritePadded_accepted {f : Faults} {spare : SpareOnes} {s : Driver}
    (hbbt : coreCheckBbt s = true)
    (hok : rangeRefused chip (some mem) start size flags = false) :
    nandWritePadded chip f mem start size flags spare s =
      let r := coreWrite chip f (start / chip.pageSize) (blocksUp size chip.pageSize)
        (padded mem size) flags spare s
      if r.1 ≠ 0 then r else nandFinalize chip f r.2 := by
  rw [nandWritePadded, hbbt, hok]
  rfl

theorem harmless_of_padsLastPage (hstart : start ≠ 0) (hoob : flags.oob = false)
    (hs : start < 2 ^ 32) (hz : size < 2 ^ 32) (h : PadsLastPage chip mem start size flags) :
    PaddingHarmless chip mem start size flags := by
  by_cases hrefused : rangeRefused chip (some mem) start size flags = true
  · exact .inl hrefused
  have hok : rangeRefused chip (some mem) start size flags = false := Bool.eq_false_iff.mpr hrefused
  have halign := rangeRefused_false hok
  have hpage := chip.pageSize_pos
  have hpos : 0 < size := by
    by_contra h0
    apply hrefused
    simp [rangeRefused, Nat.eq_zero_of_not_pos h0]
  have hcount := h.pages hok
  have hword : start + size < 2 ^ 32 := by
    by_contra hwrap
    exact pageCount_wrapped hoob halign hs hz hpos (by omega) hcount
  have hbbt : coreCheckBbt watcher = true := by decide
  have hbig : chip.pageSize ≤ start :=
    Nat.le_of_dvd (Nat.pos_of_ne_zero hstart) (Nat.dvd_of_mod_eq_zero halign)
  have hup : blocksUp size chip.pageSize * chip.pageSize < size + chip.pageSize :=
    blocksUp_mul_lt _ hpage
  refine .inr ⟨hword, .inr ?_⟩
  intro i hi hlt
  constructor
  · -- the watcher sees the last page
    obtain ⟨n, hn⟩ : ∃ n, blocksUp size chip.pageSize = n + 1 := by
      refine ⟨blocksUp size chip.pageSize - 1, ?_⟩
      have : blocksUp size chip.pageSize ≠ 0 := by
        intro h0
        rw [h0, Nat.zero_mul] at hlt
        omega
      omega
    have hin : (start / chip.pageSize + n) / chip.maxPages < 65535 := by
      have hblocks := chip.blocks_lt
      have hend := pages_le_of_accepted hoob hok hword
      rw [hn] at hend
      have : (start / chip.pageSize + n) / chip.maxPages < chip.maxBlocks := by
        rw [Nat.div_lt_iff_lt_mul chip.maxPages_pos]
        exact hend
      omega
    have hruns := h.programs wornFaults ⟨fun _ => false, false⟩ watcher
    rw [nandWrite_accepted hbbt hok, nandWritePadded_accepted hbbt hok, hcount, hn] at hruns
    obtain ⟨F, hrun, hF⟩ := watcher_coreWrite chip
      (writeBuffer chip mem start size flags) hoob ⟨fun _ => false, false⟩
      (start / chip.pageSize) n hin
    obtain ⟨G, hrun', hG⟩ := watcher_coreWrite chip
      (padded mem size) hoob ⟨fun _ => false, false⟩ (start / chip.pageSize) n hin
    rw [hrun, hrun'] at hruns
    have hFG : F = G := congrArg (fun r : ℤ × Driver => r.2.part) hruns
    rw [← hFG, hF] at hG
    rw [hn, Nat.add_mul] at hlt hup
    have hbyte := congrFun hG (i - n * chip.pageSize)
    rw [cut_of_lt _ (by omega), cut_of_lt _ (by omega), advance_apply, advance_apply,
      Nat.add_sub_cancel' (by omega), writeBuffer_plain hstart hoob halign hword,
      if_neg (by omega), padded, if_neg (by omega)] at hbyte
    exact hbyte
  · have hkeep := h.keeps watcher (start + i) (by omega)
    rw [nandWriteMem, hbbt, if_neg (by simp), if_neg hrefused,
      writeBuffer_plain hstart hoob halign hword, if_pos (by omega)] at hkeep
    exact hkeep.symm

/-- `nand_write` pads its last page exactly when the padding changes nothing. -/
theorem padsLastPage_iff (chip : NandChip) (mem : Mem) (start size : ℕ) (flags : Flags)
    (hstart : start ≠ 0) (hoob : flags.oob = false) (hs : start < 2 ^ 32) (hz : size < 2 ^ 32) :
    PadsLastPage chip mem start size flags ↔ PaddingHarmless chip mem start size flags :=
  ⟨harmless_of_padsLastPage hstart hoob hs hz, padsLastPage_of_harmless hstart hoob⟩

/-- Two pages of zeros to block 1 need no padding. -/
theorem two_pages_are_padded :
    PadsLastPage micron4GbX16 (fun _ => 0) 262144 8192 plainFlags ∧
    pageCount micron4GbX16 262144 8192 plainFlags = 2 := by
  have h := (padsLastPage_iff micron4GbX16 (fun _ => 0) 262144 8192 plainFlags (by decide) rfl
    (by decide) (by decide)).mpr (.inr ⟨by decide, .inl ⟨2, rfl⟩⟩)
  exact ⟨h, by decide +kernel⟩

/-- One byte to block 1: the byte at `buf + 262145` is overwritten, and the rest of the page
on the flash is not 0xFF. -/
theorem one_byte_is_not_padded :
    nandWriteMem micron4GbX16 (fun _ => 0) 262144 1 plainFlags (booted wornFaults) 262145 = 0xFF ∧
    (nandWrite micron4GbX16 wornFaults (some fun _ => 0) 262144 1 plainFlags
      ⟨fun _ => false, false⟩ (booted wornFaults)).1 = 0 ∧
    (nandWrite micron4GbX16 wornFaults (some fun _ => 0) 262144 1 plainFlags
      ⟨fun _ => false, false⟩ (booted wornFaults)).2.part.page 64 1 = 0 ∧
    ¬ PadsLastPage micron4GbX16 (fun _ => 0) 262144 1 plainFlags := by
  have hmem : nandWriteMem micron4GbX16 (fun _ => 0) 262144 1 plainFlags (booted wornFaults)
      262145 = 0xFF := by decide +kernel
  refine ⟨hmem, by decide +kernel, by decide +kernel, ?_⟩
  intro h
  have hkeep := h.keeps (booted wornFaults) 262145 (by decide)
  rw [hmem] at hkeep
  exact absurd hkeep (by decide)

end Condition
end UBoot.Nand
