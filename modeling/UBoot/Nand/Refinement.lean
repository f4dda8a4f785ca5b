import UBoot.Nand.PageArray
import UBoot.Nand.Persistence

/-!
# The calls on user blocks refine a plain page array

`nand_write`, `nand_erase` and `nand_read` on user blocks do to the logical pages what the
page array says, over whole runs with relocations, as long as what is written was erased and a
program fails only where the other pages of its block are blank: a relocation does not copy
them.
-/
namespace UBoot.Nand
open ByteStore

section Erase
variable {chip : NandChip} {f : Faults} {s : Driver}

/-- `__nand_core_erase` on a user block blanks it and keeps the others. -/
theorem coreErase_shows (h : Sound chip s) {b : ℕ} (hb : b < s.userEnd chip) (hpos : 1 ≤ b)
    (hok : (coreErase chip f b s).1 = 0) :
    Sound chip (coreErase chip f b s).2 ∧ OthersKept chip b s (coreErase chip f b s).2 ∧
      Shows chip (coreErase chip f b s).2 (PageArray.erase chip (view chip s) b (b + 1)) := by
  obtain ⟨r, s₁, htry, hdone, heq⟩ := retryRelocating_success
    (fun r F _ => erase_agreeOn chip f F r) h hb hpos _ hok
  have hend : s₁.userEnd chip = s.userEnd chip := by
    rw [Driver.userEnd, Driver.userEnd, htry.others.gmax]
  have hkept : OthersKept chip b s₁ { s₁ with part := (s₁.part.erase chip f r).2 } := by
    apply htry.sound.othersKept (hend ▸ hb)
    rw [htry.real]
    exact erase_agreeOn chip f s₁.part r
  have hothers := htry.others.trans hkept
  have heq' : (coreErase chip f b s).2 = { s₁ with part := (s₁.part.erase chip f r).2 } := heq
  rw [heq']
  refine ⟨⟨htry.sound.gmax_lt, htry.sound.tos, htry.sound.froms, htry.sound.slot_le⟩, hothers, ?_⟩
  intro p _ hhigh
  apply SameBytes.of_eq
  rw [PageArray.erase]
  have hhigh' : p < s₁.userEnd chip * chip.maxPages := hhigh
  by_cases hp : p / chip.maxPages = b
  · rw [if_pos (by omega), view, physPage, hp]
    apply erase_page hdone
    rw [chip.page_div (Nat.mod_lt p chip.maxPages_pos)]
    exact htry.real
  · rw [if_neg (by omega)]
    exact hothers.view (hend ▸ block_lt hhigh') hp

theorem PageArray.erase_append (a : PageArray) (i n : ℕ) :
    (a.erase chip i (i + 1)).erase chip (i + 1) (i + 1 + n) = a.erase chip i (i + (n + 1)) := by
  funext p
  simp only [PageArray.erase]
  by_cases hrest : i + 1 ≤ p / chip.maxPages ∧ p / chip.maxPages < i + 1 + n
  · rw [if_pos hrest, if_pos (by omega)]
  · rw [if_neg hrest]
    by_cases hfirst : i ≤ p / chip.maxPages ∧ p / chip.maxPages < i + 1
    · rw [if_pos hfirst, if_pos (by omega)]
    · rw [if_neg hfirst, if_neg (by omega)]

theorem PageArray.erase_congr {a a' : PageArray} {p : ℕ} (h : SameBytes chip (a p) (a' p))
    (lo hi : ℕ) : SameBytes chip (a.erase chip lo hi p) (a'.erase chip lo hi p) := by
  unfold PageArray.erase
  split
  · exact .of_eq rfl
  · exact h

/-- The loop of `nand_erase` over user blocks. -/
theorem eraseBlocks_shows (n : ℕ) {i : ℕ} {s : Driver} (h : Sound chip s) (hpos : 1 ≤ i)
    (hend : i + n ≤ s.userEnd chip) (hok : (eraseBlocks chip f n i s).1 = 0) :
    Sound chip (eraseBlocks chip f n i s).2 ∧
      (eraseBlocks chip f n i s).2.gmaxRelocEntry = s.gmaxRelocEntry ∧
      Shows chip (eraseBlocks chip f n i s).2 (PageArray.erase chip (view chip s) i (i + n)) := by
  induction n generalizing i s with
  | zero =>
    refine ⟨h, rfl, fun p _ _ => ?_⟩
    rw [PageArray.erase, if_neg (by omega)]
    exact .of_eq rfl
  | succ n ih =>
    rw [eraseBlocks, if_neg (by omega)] at hok ⊢
    dsimp only at hok ⊢
    by_cases hblock : (coreErase chip f i s).1 = 0
    swap
    · rw [if_pos hblock] at hok
      exact absurd hok hblock
    rw [if_neg (not_not.mpr hblock)] at hok ⊢
    obtain ⟨hsound, hkept, hfirst⟩ := coreErase_shows h (by omega) hpos hblock
    have hend₁ : (coreErase chip f i s).2.userEnd chip = s.userEnd chip := by
      rw [Driver.userEnd, Driver.userEnd, hkept.gmax]
    obtain ⟨hsound', hgmax', hshows⟩ := ih hsound (by omega) (by rw [hend₁]; omega) hok
    refine ⟨hsound', hgmax'.trans hkept.gmax, ?_⟩
    intro p hlow hhigh
    have hhigh₁ : p < (coreErase chip f i s).2.userEnd chip * chip.maxPages := by
      rw [Driver.userEnd, hgmax'] at hhigh
      exact hhigh
    apply (hshows p hlow hhigh).trans
    apply (PageArray.erase_congr (hfirst p hlow hhigh₁) (i + 1) (i + 1 + n)).trans
    rw [PageArray.erase_append]
    exact .of_eq rfl

end Erase

section Finalize
variable {chip : NandChip} {f : Faults}

theorem renewBlock0_page (F : Part) {p : ℕ} (hp : p / chip.maxPages ≠ 0) :
    (renewBlock0 chip f F).2.page p = F.page p := by
  have hwrite : ∀ data F', (writePages chip f (fun _ => false) data 0
      (chip.maxPages - nandMaxBbtSlots) 0 F').2.page p = F'.page p := by
    intro data F'
    have hkeep : AgreeOn chip {p} F' (writePages chip f (fun _ => false) data 0
        (chip.maxPages - nandMaxBbtSlots) 0 F').2 := by
      apply writePages_agreeOn
      intro j _ hj _ hmem
      apply hp
      rw [show p = 0 + j from (Set.mem_singleton_iff.mp hmem).symm]
      exact Nat.div_eq_of_lt (by omega)
    exact hkeep.page p rfl
  have herase : ∀ F' : Part, (F'.erase chip f 0).2.page p = F'.page p :=
    fun F' => (erase_agreeOn chip f F' 0).page p hp
  unfold renewBlock0
  dsimp only
  generalize hr : readPages f (chip.maxPages - nandMaxBbtSlots) 0 (fun _ _ => 0) F = r
  have hpage : r.2.2.page p = F.page p := by rw [← hr, readPages_page]
  split
  · exact hpage
  · split
    · rw [herase, hpage]
    · split
      · rw [hwrite, herase, hpage]
      · rw [hwrite, herase, hpage]

/-- `nand_finalize` touches nothing but block 0 and the slot variables. -/
theorem nandFinalize_keeps {s : Driver} (hslot : s.bbtSlot ≤ slotMax chip) :
    (nandFinalize chip f s).2.reloc = s.reloc ∧
      (nandFinalize chip f s).2.gmaxRelocEntry = s.gmaxRelocEntry ∧
      (nandFinalize chip f s).2.bbtSlot ≤ slotMax chip ∧
      ∀ p, p / chip.maxPages ≠ 0 → (nandFinalize chip f s).2.part.page p = s.part.page p := by
  have hwrite : ∀ s' : Driver, s'.bbtSlot ≤ slotMax chip →
      (writeSlot chip f s').2.reloc = s'.reloc ∧
      (writeSlot chip f s').2.gmaxRelocEntry = s'.gmaxRelocEntry ∧
      (writeSlot chip f s').2.bbtSlot ≤ slotMax chip ∧
      ∀ p, p / chip.maxPages ≠ 0 → (writeSlot chip f s').2.part.page p = s'.part.page p := by
    intro s' hs'
    have hpage : ∀ p, p / chip.maxPages ≠ 0 →
        (s'.part.writePage chip f s'.bbtSlot s'.reloc).2.page p = s'.part.page p := by
      intro p hp
      apply writePage_others
      intro heq
      apply hp
      have hpos := chip.maxPages_pos
      unfold slotMax at hs'
      exact Nat.div_eq_of_lt (by omega)
    unfold writeSlot
    dsimp only
    split
    · exact ⟨rfl, rfl, hs', hpage⟩
    · exact ⟨rfl, rfl, (Nat.sub_le _ _).trans hs', hpage⟩
  unfold nandFinalize coreWriteBbt
  split
  · exact ⟨rfl, rfl, hslot, fun p _ => rfl⟩
  split
  · exact ⟨rfl, rfl, hslot, fun p _ => rfl⟩
  split
  · dsimp only
    split
    · exact ⟨rfl, rfl, hslot, fun p hp => renewBlock0_page s.part hp⟩
    · obtain ⟨hreloc, hgmax, hslot', hpage⟩ := hwrite
        { s with part := (renewBlock0 chip f s.part).2, bbtSlot := slotMax chip } le_rfl
      exact ⟨hreloc, hgmax, hslot', fun p hp => (hpage p hp).trans (renewBlock0_page s.part hp)⟩
  · exact hwrite s hslot

/-- Writing the table changes nothing a user block shows. -/
theorem nandFinalize_shows {s : Driver} (h : Sound chip s) {a : PageArray} (hs : Shows chip s a) :
    Sound chip (nandFinalize chip f s).2 ∧
      (nandFinalize chip f s).2.gmaxRelocEntry = s.gmaxRelocEntry ∧
      Shows chip (nandFinalize chip f s).2 a := by
  obtain ⟨hreloc, hgmax, hslot, hpage⟩ := nandFinalize_keeps (f := f) h.slot_le
  refine ⟨⟨?_, ?_, ?_, hslot⟩, hgmax, ?_⟩
  · rw [hgmax]
    exact h.gmax_lt
  · rw [hgmax, hreloc]
    exact h.tos
  · rw [hgmax, hreloc]
    exact h.froms
  · intro p hlow hhigh
    have hhigh' : p < s.userEnd chip * chip.maxPages := by
      rw [Driver.userEnd, hgmax] at hhigh
      exact hhigh
    have hphys : physPage chip (nandFinalize chip f s).2 p = physPage chip s p := by
      rw [physPage, physPage, hreloc]
    have hblock : 1 ≤ p / chip.maxPages :=
      (Nat.le_div_iff_mul_le chip.maxPages_pos).mpr (by omega)
    have hview : view chip (nandFinalize chip f s).2 p = view chip s p := by
      rw [view, view, hphys]
      apply hpage
      rw [physPage_div]
      exact h.real_ne_zero (block_lt hhigh') hblock
    rw [hview]
    exact hs p hlow hhigh'

end Finalize

section Read
variable {chip : NandChip} {f : Faults}

theorem readPiece_page (flags : Flags) (spare : SpareRead) (n page off : ℕ) (buf : Mem)
    (F : Part) : (readPiece chip f flags spare n page off buf F).2.2.page = F.page := by
  induction n generalizing page off buf F with
  | zero => rfl
  | succ n ih =>
    rw [readPiece]
    split
    · rfl
    · exact ih _ _ _ _

/-- A read of data only lays the pages one behind the other. -/
theorem readPiece_ok {flags : Flags} {spare : SpareRead} (hoob : flags.oob = false) (n : ℕ)
    {page off : ℕ} {buf : Mem} {F : Part}
    (hok : (readPiece chip f flags spare n page off buf F).1 = 0) :
    (∀ j < n, ∀ k < chip.pageSize,
      (readPiece chip f flags spare n page off buf F).2.1 (off + j * chip.pageSize + k) =
        F.page (page + j) k) ∧
    ∀ o < off, (readPiece chip f flags spare n page off buf F).2.1 o = buf o := by
  have hstride : stride chip flags = chip.pageSize := by simp [stride, hoob]
  induction n generalizing page off buf F with
  | zero => exact ⟨fun j hj => absurd hj (Nat.not_lt_zero j), fun _ _ => rfl⟩
  | succ n ih =>
    rw [readPiece] at hok ⊢
    split at hok
    · rename_i hbad
      exact absurd hok hbad.1
    · rename_i hgood
      rw [if_neg hgood]
      simp only [hoob, Bool.false_eq_true, if_false, hstride] at hok ⊢
      obtain ⟨hpages, hlow⟩ := ih hok
      constructor
      · intro j hj k hk
        cases j with
        | zero =>
          simp only [Nat.zero_mul, Nat.add_zero]
          rw [hlow _ (by omega), overlay_add _ _ hk]
          rfl
        | succ j =>
          have := hpages j (by omega) k hk
          rw [show off + (j + 1) * chip.pageSize + k =
            off + chip.pageSize + j * chip.pageSize + k by rw [Nat.add_mul]; omega, this]
          rw [show page + (j + 1) = page + 1 + j by omega]
          rfl
      · intro o ho
        rw [hlow o (by omega), overlay_of_not_mem _ _ (by omega)]

/-- `__nand_core_read` of data only delivers what the pages show, and changes no page. -/
theorem readLoop_spec {flags : Flags} {spare : SpareRead} (hoob : flags.oob = false) (fuel : ℕ)
    {block first pageNum off : ℕ} {buf : Mem} {s : Driver} (hfuel : pageNum ≤ fuel)
    (hfirst : first < chip.maxPages)
    (hok : (readLoop chip f flags spare fuel block first pageNum off buf s).1 = 0) :
    (∀ p, block * chip.maxPages + first ≤ p → p < block * chip.maxPages + first + pageNum →
      ∀ k < chip.pageSize,
      (readLoop chip f flags spare fuel block first pageNum off buf s).2.1
        (off + (p - (block * chip.maxPages + first)) * chip.pageSize + k) = view chip s p k) ∧
    ∀ o < off, (readLoop chip f flags spare fuel block first pageNum off buf s).2.1 o = buf o := by
  have hstride : stride chip flags = chip.pageSize := by simp [stride, hoob]
  induction fuel generalizing block first pageNum off buf s with
  | zero => exact ⟨fun p _ _ => by omega, fun _ _ => rfl⟩
  | succ fuel ih =>
    rw [readLoop] at hok ⊢
    by_cases hzero : pageNum = 0
    · rw [if_pos hzero]
      exact ⟨fun p _ _ => by omega, fun _ _ => rfl⟩
    rw [if_neg hzero] at hok ⊢
    dsimp only at hok ⊢
    generalize hn : min (chip.maxPages - first) pageNum = n at hok ⊢
    by_cases hpiece : (readPiece chip f flags spare n
        (findRealBlock s.reloc block * chip.maxPages + first) off buf s.part).1 = 0
    swap
    · rw [if_pos hpiece] at hok
      exact absurd hok hpiece
    rw [if_neg (not_not.mpr hpiece)] at hok ⊢
    rw [hstride] at hok ⊢
    obtain ⟨hpages, hlow⟩ := readPiece_ok hoob n hpiece
    have hsame := @readPiece_page chip f flags spare n
      (findRealBlock s.reloc block * chip.maxPages + first) off buf s.part
    obtain ⟨hrest, hlow'⟩ := ih (by omega) chip.maxPages_pos hok
    constructor
    · intro p hp hlt k hk
      by_cases hfirstPiece : p < block * chip.maxPages + first + n
      · -- a page of this piece, which the rest of the loop leaves alone
        have hi : p - (block * chip.maxPages + first) < n := by omega
        have hoff : off + (p - (block * chip.maxPages + first)) * chip.pageSize + k <
            off + n * chip.pageSize := by
          have := Nat.mul_le_mul_right chip.pageSize (Nat.succ_le_of_lt hi)
          rw [Nat.succ_mul] at this
          omega
        rw [hlow' _ hoff, hpages _ hi k hk]
        have hpos : p =
            block * chip.maxPages + (first + (p - (block * chip.maxPages + first))) := by
          omega
        have hview := view_of_lt chip s block
          (show first + (p - (block * chip.maxPages + first)) < chip.maxPages by omega)
        rw [← hpos] at hview
        rw [hview, Nat.add_assoc]
      · have hnext : block * chip.maxPages + first + n = (block + 1) * chip.maxPages := by
          rw [Nat.add_mul]
          omega
        have hread := hrest p (by omega) (by omega) k hk
        have hview : view chip { s with part := (readPiece chip f flags spare n
            (findRealBlock s.reloc block * chip.maxPages + first) off buf s.part).2.2 } p =
            view chip s p := by
          rw [view, view]
          exact congrFun hsame _
        have hoff : off + n * chip.pageSize +
            (p - ((block + 1) * chip.maxPages + 0)) * chip.pageSize =
            off + (p - (block * chip.maxPages + first)) * chip.pageSize := by
          rw [Nat.add_assoc, ← Nat.add_mul]
          congr 2
          omega
        rw [hview, hoff] at hread
        exact hread
    · intro o ho
      rw [hlow' o (by omega), hlow o ho]

theorem readLoop_state (flags : Flags) (spare : SpareRead) (fuel : ℕ)
    (block first pageNum off : ℕ) (buf : Mem) (s : Driver) :
    ∃ F : Part, F.page = s.part.page ∧
      (readLoop chip f flags spare fuel block first pageNum off buf s).2.2 =
        { s with part := F } := by
  induction fuel generalizing block first pageNum off buf s with
  | zero => exact ⟨s.part, rfl, rfl⟩
  | succ fuel ih =>
    rw [readLoop]
    split
    · exact ⟨s.part, rfl, rfl⟩
    · dsimp only
      have hsame := @readPiece_page chip f flags spare
        (min (chip.maxPages - first) pageNum)
        (findRealBlock s.reloc block * chip.maxPages + first) off buf s.part
      split
      · exact ⟨_, hsame, rfl⟩
      · obtain ⟨F, hF, heq⟩ := ih (block + 1) 0
          (pageNum - min (chip.maxPages - first) pageNum)
          (off + min (chip.maxPages - first) pageNum * stride chip flags)
          (readPiece chip f flags spare (min (chip.maxPages - first) pageNum)
            (findRealBlock s.reloc block * chip.maxPages + first) off buf s.part).2.1
          { s with part := (readPiece chip f flags spare (min (chip.maxPages - first) pageNum)
            (findRealBlock s.reloc block * chip.maxPages + first) off buf s.part).2.2 }
        exact ⟨F, hF.trans hsame, heq⟩

end Read

section Calls
variable (chip : NandChip) (f : Faults)

/-- The bytes from `start` on lie in user blocks. -/
def UserRange (s : Driver) (start size : ℕ) : Prop :=
  chip.maxPages * chip.pageSize ≤ start ∧
    start + size ≤ s.userEnd chip * chip.maxPages * chip.pageSize

/-- What a call does to the page array. -/
def specCall (a : PageArray) : Call → PageArray
  | .write buf start size _ _ => a.write chip (start / chip.pageSize)
      (blocksUp (start + size) chip.pageSize - start / chip.pageSize) (buf.getD blank)
  | .erase start len => a.erase chip (start / chip.pageSize / chip.maxPages)
      (blocksUp (blocksUp (start + len) chip.pageSize) chip.maxPages)
  | _ => a

/-- A call on user blocks without OOB flags that succeeds if it writes or erases; a write is
safe in the sense of `WriteSafe`. -/
def UserCall (s : Driver) (c : Call) : Prop :=
  match c with
  | .write _ start size flags _ => flags.oob = false ∧ UserRange chip s start size ∧
      (call chip f c s).1 = 0 ∧ WriteSafe chip f s (start / chip.pageSize)
        (blocksUp (start + size) chip.pageSize - start / chip.pageSize)
  | .read _ start size flags _ => flags.oob = false ∧ UserRange chip s start size
  | .erase start len => UserRange chip s start len ∧ (call chip f c s).1 = 0
  | .finalize => True

/-- Every successful read of user blocks delivers the bytes of the page array. -/
def ReadsBack (s : Driver) (a : PageArray) : Prop :=
  ∀ (buf : Option Mem) (start size : ℕ) (flags : Flags) (spare : SpareRead),
    flags.oob = false → UserRange chip s start size →
    (nandRead chip f buf start size flags spare s).1 = 0 →
    ∀ p, start / chip.pageSize ≤ p → p < blocksUp (start + size) chip.pageSize →
      ∀ k < chip.pageSize,
        (nandRead chip f buf start size flags spare s).2.1
          ((p - start / chip.pageSize) * chip.pageSize + k) = a p k

/-- The calls as a machine. -/
def calls : Machine Driver Call (ℤ × Option Mem) :=
  ⟨fun s c => let r := call chip f c s; ((r.1, r.2.1), r.2.2)⟩

end Calls

section Range
variable {chip : NandChip} {s : Driver} {start size : ℕ}

theorem userEnd_le (chip : NandChip) (s : Driver) : s.userEnd chip ≤ chip.maxBlocks :=
  Nat.sub_le _ _

/-- The pages of a range of user blocks. -/
structure UserPages (chip : NandChip) (s : Driver) (start size : ℕ) : Prop where
  word : u32 (start + size) = start + size
  low : chip.maxPages ≤ start / chip.pageSize
  high : blocksUp (start + size) chip.pageSize ≤ s.userEnd chip * chip.maxPages
  le : start / chip.pageSize ≤ blocksUp (start + size) chip.pageSize
  count : ∀ flags : Flags, flags.oob = false → pageCount chip start size flags =
    blocksUp (start + size) chip.pageSize - start / chip.pageSize

theorem NandChip.pageSize_pos (chip : NandChip) : 0 < chip.pageSize := by
  have := chip.table_le
  omega

theorem UserRange.pages (h : UserRange chip s start size) : UserPages chip s start size := by
  have hpage := chip.pageSize_pos
  have hbytes : chip.maxBlocks * chip.maxPages * chip.pageSize < 2 ^ 32 := by
    apply Nat.lt_of_le_of_lt _ chip.bytes_lt
    exact Nat.mul_le_mul_left _ (Nat.le_add_right _ _)
  have hend : s.userEnd chip * chip.maxPages * chip.pageSize ≤
      chip.maxBlocks * chip.maxPages * chip.pageSize :=
    Nat.mul_le_mul_right _ (Nat.mul_le_mul_right _ (userEnd_le chip s))
  have hword : u32 (start + size) = start + size := u32_of_lt (by have := h.2; omega)
  have hhigh : blocksUp (start + size) chip.pageSize ≤ s.userEnd chip * chip.maxPages :=
    (blocksUp_le_iff _ _ hpage).mpr h.2
  have hle : start / chip.pageSize ≤ blocksUp (start + size) chip.pageSize := by
    apply (Nat.div_le_div_right (Nat.le_add_right start size)).trans
    unfold blocksUp
    split <;> omega
  have hsmall : blocksUp (start + size) chip.pageSize < 2 ^ 32 := by
    have h1 : s.userEnd chip * chip.maxPages ≤ s.userEnd chip * chip.maxPages * chip.pageSize :=
      Nat.le_mul_of_pos_right _ hpage
    omega
  refine ⟨hword, (Nat.le_div_iff_mul_le hpage).mpr h.1, hhigh, hle, ?_⟩
  intro flags hoob
  have hwrap : blocksUp (start + size) chip.pageSize + 2 ^ 32 - start / chip.pageSize =
      blocksUp (start + size) chip.pageSize - start / chip.pageSize + 2 ^ 32 := by omega
  rw [pageCount, hoob, if_neg (by simp), hword, hwrap, u32, Nat.add_mod_right]
  exact Nat.mod_eq_of_lt ((Nat.sub_le _ _).trans_lt hsmall)

/-- The memory that `nand_write` hands on is the caller's, as far as pages are written. -/
theorem writeBuffer_user (h : UserRange chip s start size) {flags : Flags} (buf : Mem) {p : ℕ}
    (hp : p < blocksUp (start + size) chip.pageSize - start / chip.pageSize)
    (halign : start % chip.pageSize = 0) :
    SameBytes chip (advance (writeBuffer chip buf start size flags) (p * chip.pageSize))
      (advance buf (p * chip.pageSize)) := by
  have hpage := chip.pageSize_pos
  have hpages := chip.pages_ge
  have hstart : start ≠ 0 := by
    have := Nat.mul_pos chip.maxPages_pos hpage
    have := h.1
    omega
  have hbig : chip.pageSize ≤ start :=
    (Nat.le_mul_of_pos_left _ chip.maxPages_pos).trans h.1
  intro k hk
  have hoff : p * chip.pageSize + k < start + size := by
    have hmul : start / chip.pageSize * chip.pageSize = start := Nat.div_mul_cancel
      (Nat.dvd_of_mod_eq_zero halign)
    have hup : blocksUp (start + size) chip.pageSize * chip.pageSize <
        start + size + chip.pageSize := blocksUp_mul_lt _ hpage
    have hle := Nat.mul_le_mul_right chip.pageSize (Nat.succ_le_of_lt hp)
    rw [Nat.succ_mul, Nat.sub_mul, hmul] at hle
    omega
  rw [advance_apply, advance_apply, writeBuffer, if_neg hstart]
  split
  · exact overlay_of_not_mem _ _ (by omega)
  · rfl

end Range

section Simulation
variable {chip : NandChip} {f : Faults} {s : Driver} {a : PageArray}

theorem rangeRefused_false {buf : Option Mem} {start size : ℕ} {flags : Flags}
    (h : rangeRefused chip buf start size flags = false) : start % chip.pageSize = 0 := by
  simp only [rangeRefused, Bool.or_eq_false_iff, decide_eq_false_iff_not] at h
  exact not_not.mp h.1.1.2

/-- What a run of successful calls keeps: a sound table, the size of the reserve and the page
array that the driver presents. -/
structure Refines (chip : NandChip) (gmax : ℕ) (s : Driver) (a : PageArray) : Prop where
  sound : Sound chip s
  gmax : s.gmaxRelocEntry = gmax
  shows : Shows chip s a

theorem Shows.of_view {s' : Driver} {g : PageArray → PageArray} (h : Shows chip s a)
    (hgmax : s'.gmaxRelocEntry = s.gmaxRelocEntry) (hs : Shows chip s' (g (view chip s)))
    (hg : ∀ p, SameBytes chip (view chip s p) (a p) →
      SameBytes chip (g (view chip s) p) (g a p)) : Shows chip s' (g a) := by
  intro p hlow hhigh
  have hhigh' : p < s.userEnd chip * chip.maxPages := by
    rw [Driver.userEnd, hgmax] at hhigh
    exact hhigh
  exact (hs p hlow hhigh).trans (hg p (h p hlow hhigh'))

theorem nandWrite_refines (h : Refines chip s.gmaxRelocEntry s a) {buf : Option Mem}
    {start size : ℕ} {flags : Flags} {spare : SpareOnes} (hoob : flags.oob = false)
    (hrange : UserRange chip s start size)
    (hok : (nandWrite chip f buf start size flags spare s).1 = 0)
    (hsafe : WriteSafe chip f s (start / chip.pageSize)
      (blocksUp (start + size) chip.pageSize - start / chip.pageSize)) :
    Refines chip s.gmaxRelocEntry (nandWrite chip f buf start size flags spare s).2
      (specCall chip a (.write buf start size flags spare)) := by
  have hpages := hrange.pages
  rw [nandWrite] at hok ⊢
  split at hok
  · simp at hok
  rename_i hbbt
  rw [if_neg hbbt]
  split at hok
  · simp at hok
  rename_i hrefused
  rw [if_neg hrefused]
  have halign := rangeRefused_false (by simpa using hrefused)
  dsimp only at hok ⊢
  split at hok
  · rename_i hfail
    exact absurd hok hfail
  rename_i hdone
  rw [if_neg hdone]
  rw [hpages.count flags hoob] at hdone ⊢
  generalize hbuf : writeBuffer chip (buf.getD blank) start size flags = b at hdone ⊢
  generalize hP : start / chip.pageSize = P at *
  generalize hN : blocksUp (start + size) chip.pageSize - P = N at *
  have hfinal : P + N ≤ s.userEnd chip * chip.maxPages := by
    have := hpages.high
    have := hpages.le
    omega
  have hsplit := page_split chip P
  have hwrite := @writeLoop_shows chip f b flags spare hoob N _ _ _ _ _ h.sound le_rfl
    (Nat.mod_lt P chip.maxPages_pos)
    (show 1 ≤ P / chip.maxPages from
      (Nat.le_div_iff_mul_le chip.maxPages_pos).mpr (by have := hpages.low; omega))
    (by rw [hsplit]; exact hfinal) (by rw [hsplit]; exact hsafe)
    (show (writeLoop chip f b flags spare N (P / chip.maxPages) (P % chip.maxPages) N 0 s).1 = 0
      from not_not.mp hdone)
  obtain ⟨hsound, hgmax, hshows⟩ := hwrite
  rw [hsplit, advance_zero] at hshows
  have hspec : Shows chip (coreWrite chip f P N b flags spare s).2
      (a.write chip P N (buf.getD blank)) := by
    intro p hlow hhigh
    have hhigh' : p < s.userEnd chip * chip.maxPages := by
      have hg : (coreWrite chip f P N b flags spare s).2.gmaxRelocEntry = s.gmaxRelocEntry := hgmax
      rw [Driver.userEnd, hg] at hhigh
      exact hhigh
    apply (hshows p hlow hhigh).trans
    unfold PageArray.write
    split
    · rename_i hin
      intro k hk
      rw [cut_of_lt _ hk, cut_of_lt _ hk, ← hbuf]
      exact writeBuffer_user hrange _ (by rw [hP, hN]; omega) halign k hk
    · exact h.shows p hlow hhigh'
  obtain ⟨hsound', hgmax', hshows'⟩ := nandFinalize_shows (f := f) hsound hspec
  refine ⟨hsound', hgmax'.trans hgmax, ?_⟩
  rw [specCall, hP, hN]
  exact hshows'

theorem nandErase_refines (h : Refines chip s.gmaxRelocEntry s a) {start len : ℕ}
    (hrange : UserRange chip s start len) (hok : (nandErase chip f start len s).1 = 0) :
    Refines chip s.gmaxRelocEntry (nandErase chip f start len s).2
      (specCall chip a (.erase start len)) := by
  have hpages := hrange.pages
  rw [nandErase] at hok ⊢
  split at hok
  · simp at hok
  rename_i hbbt
  rw [if_neg hbbt]
  split at hok
  · simp at hok
  rename_i hlen
  rw [if_neg hlen]
  dsimp only at hok ⊢
  split at hok
  · simp at hok
  rename_i hclamp
  rw [if_neg hclamp]
  split at hok
  · rename_i hfail
    exact absurd hok hfail
  rename_i hdone
  rw [if_neg hdone]
  have hend : blocksUp (blocksUp (start + len) chip.pageSize) chip.maxPages ≤ s.userEnd chip :=
    (blocksUp_le_iff _ _ chip.maxPages_pos).mpr hpages.high
  have hhi : eraseEnd chip s.gmaxRelocEntry start len =
      blocksUp (blocksUp (start + len) chip.pageSize) chip.maxPages := by
    rw [eraseEnd, hpages.word]
    exact Nat.min_eq_left hend
  have hlo : 1 ≤ eraseStart chip start :=
    (Nat.le_div_iff_mul_le chip.maxPages_pos).mpr (by have := hpages.low; omega)
  rw [hhi] at hclamp hdone ⊢
  obtain ⟨hsound, hgmax, hshows⟩ := eraseBlocks_shows
    (blocksUp (blocksUp (start + len) chip.pageSize) chip.maxPages - eraseStart chip start)
    h.sound hlo (by omega) (not_not.mp hdone)
  have hsum : eraseStart chip start + (blocksUp (blocksUp (start + len) chip.pageSize)
      chip.maxPages - eraseStart chip start) =
      blocksUp (blocksUp (start + len) chip.pageSize) chip.maxPages := by omega
  rw [hsum] at hshows
  have hspec := h.shows.of_view (g := fun x => x.erase chip (eraseStart chip start)
    (blocksUp (blocksUp (start + len) chip.pageSize) chip.maxPages)) hgmax hshows
    fun p hp => PageArray.erase_congr hp _ _
  obtain ⟨hsound', hgmax', hshows'⟩ := nandFinalize_shows (f := f) hsound hspec
  exact ⟨hsound', hgmax'.trans hgmax, hshows'⟩

theorem nandRead_refines (h : Refines chip s.gmaxRelocEntry s a) (buf : Option Mem)
    (start size : ℕ) (flags : Flags) (spare : SpareRead) :
    Refines chip s.gmaxRelocEntry (nandRead chip f buf start size flags spare s).2.2 a := by
  rw [nandRead]
  split
  · exact h
  split
  · exact h
  obtain ⟨F, hF, heq⟩ := @readLoop_state chip f flags spare
    (pageCount chip start size flags) (start / chip.pageSize / chip.maxPages)
    (start / chip.pageSize % chip.maxPages) (pageCount chip start size flags) 0 (buf.getD blank) s
  have hstate : (coreRead chip f (start / chip.pageSize) (pageCount chip start size flags)
      (buf.getD blank) flags spare s).2.2 = { s with part := F } := heq
  rw [hstate]
  refine ⟨⟨h.sound.gmax_lt, h.sound.tos, h.sound.froms, h.sound.slot_le⟩, rfl, ?_⟩
  intro p hlow hhigh
  have hview : view chip { s with part := F } p = view chip s p := by
    rw [view, view]
    exact congrFun hF _
  rw [hview]
  exact h.shows p hlow hhigh

theorem Refines.step {gmax : ℕ} (h : Refines chip gmax s a) {c : Call} (hok : UserCall chip f s c) :
    Refines chip gmax ((calls chip f).step s c).2 (specCall chip a c) := by
  obtain rfl := h.gmax
  cases c with
  | write buf start size flags spare =>
    obtain ⟨hoob, hrange, hdone, hsafe⟩ := hok
    exact nandWrite_refines h hoob hrange hdone hsafe
  | read buf start size flags spare => exact nandRead_refines h buf start size flags spare
  | erase start len => exact nandErase_refines h hok.1 hok.2
  | finalize =>
    obtain ⟨hsound, hgmax, hshows⟩ := nandFinalize_shows (f := f) h.sound h.shows
    exact ⟨hsound, hgmax, hshows⟩

theorem Refines.run {gmax : ℕ} (cs : List Call) {s : Driver} {a : PageArray}
    (h : Refines chip gmax s a) (hok : (calls chip f).Guarded (UserCall chip f) s cs) :
    Refines chip gmax ((calls chip f).run s cs) (cs.foldl (specCall chip) a) := by
  induction cs generalizing s a with
  | nil => exact h
  | cons c cs ih => exact ih (h.step hok.1) hok.2

theorem Refines.readsBack {gmax : ℕ} (h : Refines chip gmax s a) : ReadsBack chip f s a := by
  intro buf start size flags spare hoob hrange hok p hp hlt k hk
  have hpages := hrange.pages
  rw [nandRead] at hok ⊢
  split at hok
  · simp at hok
  rename_i hbbt
  rw [if_neg hbbt]
  split at hok
  · simp at hok
  rename_i hrefused
  rw [if_neg hrefused]
  rw [hpages.count flags hoob] at hok ⊢
  have hsplit := page_split chip (start / chip.pageSize)
  have hread := (readLoop_spec (f := f) hoob _ le_rfl (Nat.mod_lt _ chip.maxPages_pos) hok).1 p
    (by rw [hsplit]; exact hp) (by rw [hsplit]; have := hpages.le; omega) k hk
  rw [hsplit, Nat.zero_add] at hread
  have hlow := hpages.low
  have hhigh := hpages.high
  rw [coreRead, hread]
  exact h.shows p (by omega) (by omega) k hk

/-- `nand_init` on a part without a table and with few bad blocks leaves a sound state. -/
theorem sound_reboot {s : Driver} (hpresent : ¬ TablePresent chip s.part)
    (hfew : FewBad chip f s.part) : Sound chip (reboot chip f s).2 := by
  have hslots : SlotsOk chip (reboot chip f s).2 := 
    slotsOk_reboot fun q h => absurd h.present hpresent
  obtain ⟨s₁, -, heq, hscan, hlast⟩ := reboot_scan hpresent hfew
  have hle : scanLimit chip ≤ reserveStart chip := by
    have := relocEntry_le chip
    unfold scanLimit reserveStart
    omega
  refine ⟨hslots.safe.gmax_lt, ?_, ?_, hslots.high⟩
  · rw [heq]
    exact hscan.tos.raise hlast
  · rw [heq]
    exact hscan.froms.mono hle

/-- From any sound state, over every run of successful calls on user blocks in which pages
are erased before they are written and a program fails only where the rest of its block is
blank, reads deliver the page array. -/
theorem readsBack_of_run (chip : NandChip) (f : Faults) (s : Driver) (h : Sound chip s)
    (cs : List Call) (hok : (calls chip f).Guarded (UserCall chip f) s cs) :
    ReadsBack chip f ((calls chip f).run s cs) (cs.foldl (specCall chip) (view chip s)) :=
  (Refines.run cs ⟨h, rfl, fun _ _ _ => .of_eq rfl⟩ hok).readsBack

end Simulation

/-- Data only, errors reported. -/
def plainFlags : Flags := ⟨false, false, false, false⟩

/-- One page of zeros to a byte address. -/
def writeZeros (start : ℕ) : Call :=
  .write (some fun _ => 0) start 4096 plainFlags ⟨fun _ => false, false⟩

/-- A board just powered up for the first time. -/
def booted (f : Faults) : Driver := (reboot micron4GbX16 f (powerOff freshPart).driver).2

/-- Block 2 is moved by an erase, then written. -/
theorem readsBack_of_run_wornFaults :
    ReadsBack micron4GbX16 wornFaults
      ((calls micron4GbX16 wornFaults).run (booted wornFaults)
        [.erase (2 * (64 * 4096)) (64 * 4096), writeZeros (2 * (64 * 4096))])
      ([Call.erase (2 * (64 * 4096)) (64 * 4096), writeZeros (2 * (64 * 4096))].foldl
        (specCall micron4GbX16) (view micron4GbX16 (booted wornFaults))) := by
  have hsound : Sound micron4GbX16 (booted wornFaults) :=
    sound_reboot (by decide) (by decide +kernel)
  have hend : (booted wornFaults).userEnd micron4GbX16 = 2008 := by decide +kernel
  have hend' : ((calls micron4GbX16 wornFaults).step (booted wornFaults)
      (.erase (2 * (64 * 4096)) (64 * 4096))).2.userEnd micron4GbX16 = 2008 := by decide +kernel
  have herase : UserCall micron4GbX16 wornFaults (booted wornFaults)
      (.erase (2 * (64 * 4096)) (64 * 4096)) := by
    refine ⟨⟨by decide, ?_⟩, by decide +kernel⟩
    rw [hend]
    decide
  have hblank := (Refines.step ⟨hsound, rfl, fun _ _ _ => .of_eq rfl⟩ herase).shows
  apply readsBack_of_run micron4GbX16 wornFaults _ hsound
  refine ⟨herase, ⟨rfl, ⟨by decide, ?_⟩, by decide +kernel, ?_, ?_⟩, trivial⟩
  · rw [hend']
    decide
  · intro p hp hlt
    obtain rfl : p = 128 := Nat.le_antisymm (Nat.le_of_lt_succ hlt) hp
    apply (hblank 128 (by decide) (by rw [hend']; decide)).trans
    rw [specCall, PageArray.erase, if_pos (by decide)]
    exact .of_eq rfl
  · intro b ⟨p, _, _, _, hprog⟩
    exact absurd hprog (by simp [wornFaults])

/-- The first program of page 1 of block 1 fails. -/
def tornFaults : Faults :=
  { wornFaults with programFails := fun p n => p == 65 && n == 0 }

/-- Page 0 of block 1 is written, then page 1; the program fails, both calls succeed, and
page 0 reads blank. -/
theorem not_readsBack_after_relocation :
    (call micron4GbX16 tornFaults (writeZeros (64 * 4096)) (booted tornFaults)).1 = 0 ∧
    (call micron4GbX16 tornFaults (writeZeros (65 * 4096))
      (call micron4GbX16 tornFaults (writeZeros (64 * 4096)) (booted tornFaults)).2.2).1 = 0 ∧
    ¬ ReadsBack micron4GbX16 tornFaults
      ((calls micron4GbX16 tornFaults).run (booted tornFaults)
        [writeZeros (64 * 4096), writeZeros (65 * 4096)])
      ([writeZeros (64 * 4096), writeZeros (65 * 4096)].foldl
        (specCall micron4GbX16) (view micron4GbX16 (booted tornFaults))) := by
  refine ⟨by decide +kernel, by decide +kernel, ?_⟩
  intro h
  have hend : ((calls micron4GbX16 tornFaults).run (booted tornFaults)
      [writeZeros (64 * 4096), writeZeros (65 * 4096)]).userEnd micron4GbX16 = 2008 := by
    decide +kernel
  have hrange : UserRange micron4GbX16 ((calls micron4GbX16 tornFaults).run (booted tornFaults)
      [writeZeros (64 * 4096), writeZeros (65 * 4096)]) (64 * 4096) 4096 := by
    refine ⟨by decide, ?_⟩
    rw [hend]
    decide
  have hread := h (some blank) (64 * 4096) 4096 plainFlags ⟨fun _ => blank, fun _ => true⟩ rfl
    hrange (by decide +kernel) 64 (by decide) (by decide) 0 (by decide)
  revert hread
  decide +kernel

end UBoot.Nand
