import UBoot.Nand.Scan

/-!
# The pages of the user blocks

Through the relocation table the physical pages appear as an array of logical pages. A
retry loop on one user block leaves every other block where it is and as it is; the block
itself ends in the last place tried, which was erased unless it is the first.
-/
namespace UBoot.Nand
open ByteStore

/-- A table as the driver makes them for blocks below the reserve, and a slot in block 0. -/
structure Sound (chip : NandChip) (s : Driver) : Prop where
  gmax_lt : s.gmaxRelocEntry < chip.maxBlocks
  tos : s.reloc.TosOk chip (chip.maxBlocks - s.gmaxRelocEntry)
  froms : s.reloc.FromsOk (chip.maxBlocks - s.gmaxRelocEntry)
  slot_le : s.bbtSlot ≤ slotMax chip

/-- The first block of the reserve, which ends the user blocks. -/
def Driver.userEnd (chip : NandChip) (s : Driver) : ℕ := chip.maxBlocks - s.gmaxRelocEntry

/-- The physical page of a logical page. -/
def physPage (chip : NandChip) (s : Driver) (p : ℕ) : ℕ :=
  findRealBlock s.reloc (p / chip.maxPages) * chip.maxPages + p % chip.maxPages

/-- The logical page array that a driver and its part present. -/
def view (chip : NandChip) (s : Driver) (p : ℕ) : Mem := s.part.page (physPage chip s p)

/-- The pages of one block. -/
def blockPages (chip : NandChip) (b : ℕ) : Set ℕ := {p | p / chip.maxPages = b}

section Blocks
variable {chip : NandChip} {f : Faults} {s s' s'' : Driver}

theorem Sound.ends (h : Sound chip s) (b : ℕ) :
    s.reloc.log.Ends b (findRealBlock s.reloc b) :=
  RelocTable.findRealBlock_ends h.tos h.froms b

theorem Sound.real_origin (h : Sound chip s) {b : ℕ} (hb : b < s.userEnd chip) :
    findRealBlock s.reloc b < chip.maxBlocks - s.gmaxRelocEntry ∨
      s.reloc.log.Target (findRealBlock s.reloc b) := by
  apply (RelocTable.findRealBlock_eq_or_target h.tos hb).imp _ id
  intro heq
  rw [heq]
  exact hb

theorem Sound.real_lt (h : Sound chip s) {b : ℕ} (hb : b < s.userEnd chip) :
    findRealBlock s.reloc b < chip.maxBlocks := by
  rcases h.real_origin hb with hlt | ⟨i, hi, hto⟩
  · omega
  · have := h.tos.lt_blocks i hi
    rwa [show s.reloc.itemTo i = findRealBlock s.reloc b from hto] at this

theorem Sound.real_ne_zero (h : Sound chip s) {b : ℕ} (hb : b < s.userEnd chip) (hpos : 1 ≤ b) :
    findRealBlock s.reloc b ≠ 0 := by
  have hgmax := h.gmax_lt
  rcases RelocTable.findRealBlock_eq_or_target h.tos hb with heq | ⟨i, hi, hto⟩
  · omega
  · have := h.tos.limit_le i hi
    rw [show s.reloc.itemTo i = findRealBlock s.reloc b from hto] at this
    omega

/-- Real blocks are not among those a search goes over. -/
theorem Sound.real_not_searched (h : Sound chip s) {b t : ℕ} (hb : b < s.userEnd chip)
    (ht : chip.maxBlocks - s.gmaxRelocEntry ≤ t) :
    ¬ (t ≤ findRealBlock s.reloc b ∧
      findRealBlock s.reloc b < lastLeftOff chip s.reloc s.reloc.total) := by
  intro ⟨hle, hlt⟩
  rcases RelocTable.findRealBlock_eq_or_target h.tos hb with heq | ⟨i, hi, hto⟩
  · unfold Driver.userEnd at hb
    omega
  · have := h.tos.lt_to hlt hi
    rw [show s.reloc.itemTo i = findRealBlock s.reloc b from hto] at this
    exact Nat.lt_irrefl _ this

/-- The reserve is as large as before, and every block below it but `b` is where it was and as
it was. -/
structure OthersKept (chip : NandChip) (b : ℕ) (s s' : Driver) : Prop where
  gmax : s'.gmaxRelocEntry = s.gmaxRelocEntry
  real : ∀ c < s.userEnd chip, c ≠ b → findRealBlock s'.reloc c = findRealBlock s.reloc c
  pages : ∀ c < s.userEnd chip, c ≠ b →
    AgreeOn chip (blockPages chip (findRealBlock s.reloc c)) s.part s'.part

theorem OthersKept.refl (b : ℕ) (s : Driver) : OthersKept chip b s s :=
  ⟨rfl, fun _ _ _ => rfl, fun _ _ _ => .refl _ _⟩

theorem OthersKept.trans {b : ℕ} (h : OthersKept chip b s s') (h' : OthersKept chip b s' s'') :
    OthersKept chip b s s'' := by
  have hend : s'.userEnd chip = s.userEnd chip := by
    rw [Driver.userEnd, Driver.userEnd, h.gmax]
  refine ⟨h'.gmax.trans h.gmax, ?_, ?_⟩
  · intro c hc hcb
    rw [h'.real c (hend ▸ hc) hcb, h.real c hc hcb]
  · intro c hc hcb
    have hpages := h'.pages c (hend ▸ hc) hcb
    rw [h.real c hc hcb] at hpages
    exact (h.pages c hc hcb).trans hpages

theorem blockPages_subset_outside {r : ℕ} {B : Set ℕ} (h : r ∉ B) :
    blockPages chip r ⊆ outside chip B := by
  intro p hp
  have hdiv : p / chip.maxPages = r := hp
  simpa [outside, hdiv] using h

/-- Work on the real block of `b` keeps the others. -/
theorem Sound.othersKept (h : Sound chip s) {b : ℕ} (hb : b < s.userEnd chip) {F : Part}
    (hag : AgreeOn chip (outside chip {findRealBlock s.reloc b}) s.part F) :
    OthersKept chip b s { s with part := F } := by
  refine ⟨rfl, fun _ _ _ => rfl, ?_⟩
  intro c hc hcb
  apply hag.mono
  apply blockPages_subset_outside
  intro heq
  exact hcb (RelocTable.findRealBlock_injective h.tos hc hb heq)

theorem markBad_outside (F : Part) (block : ℕ) :
    AgreeOn chip (outside chip {block}) F (F.markBad chip f block) := by
  apply (markBad_agreeOn chip f F block).mono
  intro p hp hmem
  have hone : 1 < chip.maxPages := by
    have := chip.pages_ge
    omega
  rcases hmem with h | h
  · apply hp
    show p / chip.maxPages = block
    rw [h, chip.first_div]
  · apply hp
    show p / chip.maxPages = block
    rw [show p = block * chip.maxPages + 1 from h, chip.page_div hone]

/-- Moving block `b` to a fresh reserve block keeps the others and puts `b` there. -/
theorem Sound.move (h : Sound chip s) {b t : ℕ} (hb : b < s.userEnd chip) {F : Part}
    (hfound : SearchFound chip f (chip.maxBlocks - s.gmaxRelocEntry)
      (lastLeftOff chip s.reloc s.reloc.total) s.part F t) :
    let s' : Driver := { s with
      part := F, bbtChanged := true, reloc := s.reloc.addItem (findRealBlock s.reloc b) t }
    Sound chip s' ∧ findRealBlock s'.reloc b = t ∧ OthersKept chip b s s' := by
  have hlimit := hfound.limit_le
  have hlt := hfound.lt_start
  have hmax := lastLeftOff_le chip s.reloc s.reloc.total
  have hreal := h.real_lt hb
  have hmoved := (h.ends b).2
  have hfind : ∀ c < s.userEnd chip,
      findRealBlock (s.reloc.addItem (findRealBlock s.reloc b) t) c =
        if findRealBlock s.reloc c = findRealBlock s.reloc b then t
        else findRealBlock s.reloc c := fun c _ =>
    RelocTable.findRealBlock_addItem h.tos h.froms hreal hlimit hlt (h.real_origin hb) hmoved
  refine ⟨⟨h.gmax_lt, h.tos.addItem hlimit hlt, ?_, h.slot_le⟩, ?_, ⟨rfl, ?_, ?_⟩⟩
  · exact h.froms.addItem h.tos hreal (by omega) (h.real_origin hb) hmoved
  · rw [hfind b hb, if_pos rfl]
  · intro c hc hcb
    have hne : findRealBlock s.reloc c ≠ findRealBlock s.reloc b :=
      fun heq => hcb (RelocTable.findRealBlock_injective h.tos hc hb heq)
    rw [hfind c hc, if_neg hne]
  · intro c hc _
    apply hfound.agree.mono
    apply blockPages_subset_outside
    exact h.real_not_searched hc hlimit

/-- A state before an attempt of a retry loop on block `b` that began in `s`: the block is in
its first place and untouched, or the first attempt failed and it is in an erased one. -/
structure Trying (chip : NandChip) (attempt : ℕ → Part → ℤ × Part) (b : ℕ) (s : Driver) (r : ℕ)
    (s' : Driver) : Prop where
  sound : Sound chip s'
  real : findRealBlock s'.reloc b = r
  others : OthersKept chip b s s'
  place : s' = s ∨ (attempt (findRealBlock s.reloc b) s.part).1 ≠ 0 ∧
    ∀ p ∈ blockPages chip r, s'.part.page p = blank

theorem retryRelocating_success {attempt : ℕ → Part → ℤ × Part}
    (hattempt : ∀ r F, r ≠ 0 → AgreeOn chip (outside chip {r}) F (attempt r F).2)
    (h : Sound chip s) {b : ℕ} (hb : b < s.userEnd chip) (hpos : 1 ≤ b) (fuel : ℕ)
    (hok : (retryRelocating chip f attempt fuel (findRealBlock s.reloc b) s).1 = 0) :
    ∃ r s', Trying chip attempt b s r s' ∧ (attempt r s'.part).1 = 0 ∧
      (retryRelocating chip f attempt fuel (findRealBlock s.reloc b) s).2 =
        { s' with part := (attempt r s'.part).2 } := by
  revert hok
  apply retryRelocating_rule (I := fun r s' => Trying chip attempt b s r s')
    (J := fun st s'' => st = 0 → ∃ r s', Trying chip attempt b s r s' ∧
      (attempt r s'.part).1 = 0 ∧ s'' = { s' with part := (attempt r s'.part).2 })
  · intro r s₁ htry hdone _
    exact ⟨r, s₁, htry, hdone, rfl⟩
  · intro r s₁ htry hfail r' s₂ heq
    have hend : s₁.userEnd chip = s.userEnd chip := by
      rw [Driver.userEnd, Driver.userEnd, htry.others.gmax]
    have hb₁ : b < s₁.userEnd chip := hend ▸ hb
    obtain rfl := htry.real
    have hne : findRealBlock s₁.reloc b ≠ 0 := htry.sound.real_ne_zero hb₁ hpos
    have hwork := (hattempt _ s₁.part hne).trans (markBad_outside (f := f) _ _)
    have hkept := htry.sound.othersKept hb₁ hwork
    generalize hF : ((attempt (findRealBlock s₁.reloc b) s₁.part).2.markBad chip f
      (findRealBlock s₁.reloc b)) = F at *
    have hsound : Sound chip { s₁ with part := F } :=
      ⟨htry.sound.gmax_lt, htry.sound.tos, htry.sound.froms, htry.sound.slot_le⟩
    have hlast := hsound.tos.last_ne_zero (by have := hsound.gmax_lt; omega)
    rcases coreRelocateBlock_cases (f := f) (findRealBlock s₁.reloc b) hlast with
      ⟨t, F', heq', -, hfound⟩ | ⟨F', heq', -⟩
    · obtain ⟨hsound', hreal, hkept'⟩ := hsound.move hb₁ hfound
      obtain ⟨-, rfl, rfl⟩ : (0 : ℤ) = 0 ∧ t = r' ∧ _ = s₂ := by
        simpa using heq'.symm.trans heq
      refine ⟨hsound', hreal, htry.others.trans (hkept.trans hkept'), .inr ⟨?_, ?_⟩⟩
      · rcases htry.place with rfl | ⟨hfirst, -⟩
        · exact hfail
        · exact hfirst
      · exact fun p hp => hfound.erased p hp
    · exact absurd (congrArg Prod.fst (heq'.symm.trans heq)) (by simp)
  · intro r s₁ _ _ st r' s₂ hst _ h0
    exact absurd h0 hst
  · intro r s₁ _ h0
    exact absurd h0 (by simp)
  · exact ⟨h, rfl, .refl b s, .inl rfl⟩

end Blocks

/-- A plain array of pages. -/
abbrev PageArray := ℕ → Mem

/-- Store `n` pages from page `start` on, as they lie in the buffer. -/
def PageArray.write (chip : NandChip) (a : PageArray) (start n : ℕ) (buf : Mem) : PageArray :=
  fun p => if start ≤ p ∧ p < start + n then
    cut chip.pageSize (advance buf ((p - start) * chip.pageSize)) else a p

/-- Blank the blocks from `lo` up to `hi`. -/
def PageArray.erase (chip : NandChip) (a : PageArray) (lo hi : ℕ) : PageArray :=
  fun p => if lo ≤ p / chip.maxPages ∧ p / chip.maxPages < hi then blank else a p

/-- The same bytes on a page. -/
def SameBytes (chip : NandChip) (m m' : Mem) : Prop := ∀ k < chip.pageSize, m k = m' k

theorem SameBytes.trans {chip : NandChip} {m m' m'' : Mem} (h : SameBytes chip m m')
    (h' : SameBytes chip m' m'') : SameBytes chip m m'' := fun k hk => (h k hk).trans (h' k hk)

theorem SameBytes.of_eq {chip : NandChip} {m m' : Mem} (h : m = m') : SameBytes chip m m' :=
  fun k _ => congrFun h k

theorem SameBytes.symm {chip : NandChip} {m m' : Mem} (h : SameBytes chip m m') :
    SameBytes chip m' m := fun k hk => (h k hk).symm

/-- A blank page takes what is programmed. -/
theorem SameBytes.programmed {chip : NandChip} {old new : Mem} (h : SameBytes chip old blank) :
    SameBytes chip (programmed old new) new := by
  intro k hk
  rw [Nand.programmed, h k hk]
  exact UInt8.neg_one_and

/-- The driver presents the array in the user blocks. -/
def Shows (chip : NandChip) (s : Driver) (a : PageArray) : Prop :=
  ∀ p, chip.maxPages ≤ p → p < s.userEnd chip * chip.maxPages → SameBytes chip (view chip s p) (a p)

/-- The pages to be written are blank; and wherever the next program of one of them fails,
the other pages of its block are blank. -/
structure WriteSafe (chip : NandChip) (f : Faults) (s : Driver) (start n : ℕ) : Prop where
  erased : ∀ p, start ≤ p → p < start + n → SameBytes chip (view chip s p) blank
  alone : ∀ b, (∃ p, start ≤ p ∧ p < start + n ∧ p / chip.maxPages = b ∧
      f.programFails (physPage chip s p) (s.part.programs (physPage chip s p)) = true) →
    ∀ p, p / chip.maxPages = b → ¬ (start ≤ p ∧ p < start + n) →
      SameBytes chip (view chip s p) blank

section Write
variable {chip : NandChip} {f : Faults} {s s' : Driver}

theorem physPage_div (chip : NandChip) (s : Driver) (p : ℕ) :
    physPage chip s p / chip.maxPages = findRealBlock s.reloc (p / chip.maxPages) :=
  chip.page_div (Nat.mod_lt p chip.maxPages_pos)

/-- Logical pages of other blocks are where and as they were. -/
theorem OthersKept.physPage {b : ℕ} (h : OthersKept chip b s s') {p : ℕ}
    (hp : p / chip.maxPages < s.userEnd chip) (hb : p / chip.maxPages ≠ b) :
    physPage chip s' p = Nand.physPage chip s p := by
  rw [Nand.physPage, Nand.physPage, h.real _ hp hb]

theorem OthersKept.view {b : ℕ} (h : OthersKept chip b s s') {p : ℕ}
    (hp : p / chip.maxPages < s.userEnd chip) (hb : p / chip.maxPages ≠ b) :
    view chip s' p = Nand.view chip s p := by
  rw [Nand.view, Nand.view, h.physPage hp hb]
  exact (h.pages _ hp hb).page _ (physPage_div chip s p)

theorem OthersKept.programs {b : ℕ} (h : OthersKept chip b s s') {p : ℕ}
    (hp : p / chip.maxPages < s.userEnd chip) (hb : p / chip.maxPages ≠ b) :
    s'.part.programs (Nand.physPage chip s p) = s.part.programs (Nand.physPage chip s p) :=
  (h.pages _ hp hb).programs _ (physPage_div chip s p)

/-- Each page is programmed once, on what it held. -/
theorem writePages_ok {data : ℕ → Mem} {base n i : ℕ} {F : Part}
    (hok : (writePages chip f (fun _ => false) data base n i F).1 = 0) :
    ∀ j, i ≤ j → j < i + n →
      (writePages chip f (fun _ => false) data base n i F).2.page (base + j) =
        programmed (F.page (base + j)) (cut chip.pageSize (data j)) := by
  induction n generalizing i F with
  | zero =>
    intro j hj hlt
    omega
  | succ n ih =>
    rw [writePages] at hok ⊢
    simp only [Bool.false_eq_true, if_false] at hok ⊢
    by_cases hpage : (F.writePage chip f (base + i) (data i)).1 = 0
    · rw [if_neg (not_not.mpr hpage)] at hok ⊢
      intro j hj hlt
      rcases Nat.eq_or_lt_of_le hj with rfl | hj
      · have hkeep : AgreeOn chip {base + i} (F.writePage chip f (base + i) (data i)).2
            (writePages chip f (fun _ => false) data base n (i + 1)
              (F.writePage chip f (base + i) (data i)).2).2 := by
          apply writePages_agreeOn
          intro k hk _ _ hmem
          have : base + k = base + i := hmem
          omega
        rw [hkeep.page _ rfl]
        exact writePage_page hpage
      · rw [ih hok j hj (by omega), writePage_others (by omega)]
    · rw [if_pos hpage] at hok
      exact absurd hok hpage

theorem writePages_fail {data : ℕ → Mem} {base n i : ℕ} {F : Part}
    (hfail : (writePages chip f (fun _ => false) data base n i F).1 ≠ 0) :
    ∃ j, i ≤ j ∧ j < i + n ∧ f.programFails (base + j) (F.programs (base + j)) = true := by
  induction n generalizing i F with
  | zero => exact absurd rfl hfail
  | succ n ih =>
    rw [writePages] at hfail
    simp only [Bool.false_eq_true, if_false] at hfail
    by_cases hpage : (F.writePage chip f (base + i) (data i)).1 = 0
    · rw [if_neg (not_not.mpr hpage)] at hfail
      obtain ⟨j, hj, hlt, hprog⟩ := ih hfail
      have hne : base + j ∈ ({base + i}ᶜ : Set ℕ) := by
        simp only [Set.mem_compl_iff, Set.mem_singleton_iff]
        omega
      rw [(writePage_agreeOn chip f F (base + i) (data i)).programs _ hne] at hprog
      exact ⟨j, by omega, by omega, hprog⟩
    · rw [writePage_fst] at hpage
      exact ⟨i, le_rfl, by omega, by simpa using hpage⟩

/-- A piece of a write of data only, outside block 0. -/
theorem writeAttempt_user {buf : Mem} {off first n r : ℕ} {flags : Flags} {spare : SpareOnes}
    (hr : r ≠ 0) (hoob : flags.oob = false) (F : Part) :
    writeAttempt chip f buf off first n flags spare r F =
      writePages chip f (fun _ => false) (fun i => advance buf (off + i * chip.pageSize))
        (r * chip.maxPages + first) n 0 F := by
  rw [writeAttempt, if_neg hr]
  simp only [hoob, stride, Bool.false_and, Bool.false_eq_true, if_false]

/-- The piece of a write that falls into block `b`, with its relocations. -/
theorem writePiece_spec (h : Sound chip s) {buf : Mem} {off b first n : ℕ} {flags : Flags}
    {spare : SpareOnes} (hoob : flags.oob = false) (hb : b < s.userEnd chip) (hpos : 1 ≤ b)
    (hn : first + n ≤ chip.maxPages)
    (herased : ∀ i, first ≤ i → i < first + n →
      SameBytes chip (s.part.page (findRealBlock s.reloc b * chip.maxPages + i)) blank)
    (hsafe : (∃ i < n, f.programFails (findRealBlock s.reloc b * chip.maxPages + (first + i))
        (s.part.programs (findRealBlock s.reloc b * chip.maxPages + (first + i))) = true) →
      ∀ i < chip.maxPages, ¬ (first ≤ i ∧ i < first + n) →
        SameBytes chip (s.part.page (findRealBlock s.reloc b * chip.maxPages + i)) blank)
    (hok : (retryRelocating chip f (writeAttempt chip f buf off first n flags spare)
      (chip.maxBlocks + 1) (findRealBlock s.reloc b) s).1 = 0) :
    let s' := (retryRelocating chip f (writeAttempt chip f buf off first n flags spare)
      (chip.maxBlocks + 1) (findRealBlock s.reloc b) s).2
    Sound chip s' ∧ OthersKept chip b s s' ∧ ∀ i < chip.maxPages,
      SameBytes chip (s'.part.page (findRealBlock s'.reloc b * chip.maxPages + i))
        (if first ≤ i ∧ i < first + n then
          cut chip.pageSize (advance buf (off + (i - first) * chip.pageSize))
        else s.part.page (findRealBlock s.reloc b * chip.maxPages + i)) := by
  have hwhole : ∀ r F, r ≠ 0 →
      AgreeOn chip (outside chip {r}) F
        (writeAttempt chip f buf off first n flags spare r F).2 := by
    intro r F hr
    rw [writeAttempt_user hr hoob]
    apply writePages_agreeOn
    intro j _ hj _ hmem
    apply hmem
    show (r * chip.maxPages + first + j) / chip.maxPages = r
    rw [Nat.add_assoc]
    exact chip.page_div (by omega)
  obtain ⟨r, s₁, htry, hdone, heq⟩ := retryRelocating_success hwhole h hb hpos _ hok
  have hend : s₁.userEnd chip = s.userEnd chip := by
    rw [Driver.userEnd, Driver.userEnd, htry.others.gmax]
  have hr : r ≠ 0 := htry.real ▸ htry.sound.real_ne_zero (hend ▸ hb) hpos
  have hlast := hwhole r s₁.part hr
  have hkept : OthersKept chip b s₁ { s₁ with
      part := (writeAttempt chip f buf off first n flags spare r s₁.part).2 } := by
    apply htry.sound.othersKept (hend ▸ hb)
    rw [htry.real]
    exact hlast
  dsimp only
  rw [heq]
  refine ⟨⟨htry.sound.gmax_lt, htry.sound.tos, htry.sound.froms, htry.sound.slot_le⟩,
    htry.others.trans hkept, ?_⟩
  intro i hi
  show SameBytes chip ((writeAttempt chip f buf off first n flags spare r s₁.part).2.page
    (findRealBlock s₁.reloc b * chip.maxPages + i)) _
  rw [writeAttempt_user hr hoob] at hdone ⊢
  rw [htry.real]
  by_cases hin : first ≤ i ∧ i < first + n
  · rw [if_pos hin]
    have hpage := writePages_ok hdone (i - first) (Nat.zero_le _) (by omega)
    rw [Nat.add_assoc, Nat.add_sub_cancel' hin.1] at hpage
    rw [hpage]
    apply SameBytes.programmed
    -- the block was erased for the write, or by the search that led to it
    rcases htry.place with rfl | ⟨-, hblank⟩
    · rw [← htry.real]
      exact herased i hin.1 hin.2
    · exact .of_eq (hblank _ (chip.page_div hi))
  · rw [if_neg hin]
    -- a page of the block that is not written keeps what it had before this attempt
    have hkeep : AgreeOn chip {r * chip.maxPages + i} s₁.part
        (writePages chip f (fun _ => false) (fun i => advance buf (off + i * chip.pageSize))
          (r * chip.maxPages + first) n 0 s₁.part).2 := by
      apply writePages_agreeOn
      intro j _ hj _ hmem
      have : r * chip.maxPages + first + j = r * chip.maxPages + i := hmem
      omega
    rw [hkeep.page _ rfl]
    rcases htry.place with rfl | ⟨hfirst, hblank⟩
    · rw [htry.real]
      exact .of_eq rfl
    · have hr₀ := h.real_ne_zero hb hpos
      rw [writeAttempt_user hr₀ hoob] at hfirst
      obtain ⟨j, -, hj, hprog⟩ := writePages_fail hfirst
      have hlost := hsafe ⟨j, by omega, by rw [← Nat.add_assoc]; exact hprog⟩ i hi hin
      rw [hblank _ (chip.page_div hi)]
      exact fun k hk => (hlost k hk).symm

theorem page_split (chip : NandChip) (p : ℕ) :
    p / chip.maxPages * chip.maxPages + p % chip.maxPages = p := by
  rw [Nat.mul_comm]
  exact Nat.div_add_mod p chip.maxPages

theorem block_lt {p n : ℕ} (h : p < n * chip.maxPages) : p / chip.maxPages < n := by
  rwa [Nat.div_lt_iff_lt_mul chip.maxPages_pos]

/-- The rest of a write that began safely is safe. -/
theorem WriteSafe.rest {b start start' n n' : ℕ} (h : WriteSafe chip f s start n)
    (hkept : OthersKept chip b s s') (hstart : start ≤ start') (hend : start' + n' = start + n)
    (hnext : n' = 0 ∨ start' = (b + 1) * chip.maxPages)
    (huser : start + n ≤ s.userEnd chip * chip.maxPages) : WriteSafe chip f s' start' n' := by
  rcases hnext with h0 | hnext
  · exact ⟨fun p _ _ => by omega, fun c ⟨p, _, _, _, _⟩ => by omega⟩
  have hlater : ∀ p, start' ≤ p → b < p / chip.maxPages := by
    intro p hp
    rw [Nat.lt_iff_add_one_le, Nat.le_div_iff_mul_le chip.maxPages_pos]
    omega
  refine ⟨?_, ?_⟩
  · intro p hp hlt
    have := hlater p hp
    rw [hkept.view (block_lt (by omega)) (by omega)]
    exact h.erased p (by omega) (by omega)
  intro c ⟨p, hp, hlt, hdiv, hprog⟩ q hq hout
  have hc : b < c := by
    rw [← hdiv]
    exact hlater p hp
  have hcu : c < s.userEnd chip := hdiv ▸ block_lt (by omega)
  have hpu : p / chip.maxPages < s.userEnd chip := hdiv ▸ hcu
  have hqu : q / chip.maxPages < s.userEnd chip := hq ▸ hcu
  rw [hkept.physPage hpu (by omega), hkept.programs hpu (by omega)] at hprog
  rw [hkept.view hqu (by omega)]
  apply h.alone c ⟨p, by omega, by omega, hdiv, hprog⟩ q hq
  intro ⟨_, hq2⟩
  have hqs : start' ≤ q := by
    rw [hnext, ← Nat.le_div_iff_mul_le chip.maxPages_pos]
    omega
  exact hout ⟨hqs, by omega⟩

/-- Two consecutive ranges are one. -/
theorem PageArray.write_append (a : PageArray) (start m n : ℕ) (buf : Mem) :
    (a.write chip start m buf).write chip (start + m) n (advance buf (m * chip.pageSize)) =
      a.write chip start (m + n) buf := by
  funext p
  simp only [PageArray.write]
  by_cases hsecond : start + m ≤ p ∧ p < start + m + n
  · rw [if_pos hsecond, if_pos (by omega), advance_advance, ← Nat.add_mul,
      show m + (p - (start + m)) = p - start by omega]
  · rw [if_neg hsecond]
    by_cases hfirst : start ≤ p ∧ p < start + m
    · rw [if_pos hfirst, if_pos (by omega)]
    · rw [if_neg hfirst, if_neg (by omega)]

/-- Writing the same pages into arrays that agree on a page gives arrays that agree there. -/
theorem PageArray.write_congr {a a' : PageArray} {p : ℕ} (h : SameBytes chip (a p) (a' p))
    (start n : ℕ) (buf : Mem) :
    SameBytes chip (a.write chip start n buf p) (a'.write chip start n buf p) := by
  unfold PageArray.write
  split
  · exact .of_eq rfl
  · exact h

theorem PageArray.write_zero (a : PageArray) (start : ℕ) (buf : Mem) :
    a.write chip start 0 buf = a := by
  funext p
  rw [PageArray.write, if_neg (by omega)]

theorem physPage_of_lt (chip : NandChip) (s : Driver) (b : ℕ) {i : ℕ} (hi : i < chip.maxPages) :
    physPage chip s (b * chip.maxPages + i) = findRealBlock s.reloc b * chip.maxPages + i := by
  rw [physPage, chip.page_div hi, Nat.mul_comm b, Nat.mul_add_mod, Nat.mod_eq_of_lt hi]

theorem view_of_lt (chip : NandChip) (s : Driver) (b : ℕ) {i : ℕ} (hi : i < chip.maxPages) :
    view chip s (b * chip.maxPages + i) =
      s.part.page (findRealBlock s.reloc b * chip.maxPages + i) := by
  rw [view, physPage_of_lt chip s b hi]

/-- One piece of a write, seen on the logical pages. -/
theorem writePiece_shows (h : Sound chip s) {buf : Mem} {off b first n : ℕ} {flags : Flags}
    {spare : SpareOnes} (hoob : flags.oob = false) (hb : b < s.userEnd chip) (hpos : 1 ≤ b)
    (hn : first + n ≤ chip.maxPages) {total : ℕ} (hle : n ≤ total)
    (hrest : total = n ∨ first + n = chip.maxPages)
    (hsafe : WriteSafe chip f s (b * chip.maxPages + first) total)
    (hok : (retryRelocating chip f (writeAttempt chip f buf off first n flags spare)
      (chip.maxBlocks + 1) (findRealBlock s.reloc b) s).1 = 0) :
    let s' := (retryRelocating chip f (writeAttempt chip f buf off first n flags spare)
      (chip.maxBlocks + 1) (findRealBlock s.reloc b) s).2
    Sound chip s' ∧ OthersKept chip b s s' ∧
      Shows chip s' (PageArray.write chip (view chip s) (b * chip.maxPages + first) n
        (advance buf off)) := by
  have hpieceSafe : (∃ i < n,
      f.programFails (findRealBlock s.reloc b * chip.maxPages + (first + i))
        (s.part.programs (findRealBlock s.reloc b * chip.maxPages + (first + i))) = true) →
      ∀ i < chip.maxPages, ¬ (first ≤ i ∧ i < first + n) →
        SameBytes chip (s.part.page (findRealBlock s.reloc b * chip.maxPages + i)) blank := by
    intro ⟨i, hi, hprog⟩ j hj hout
    have hfi : first + i < chip.maxPages := by omega
    rw [← view_of_lt chip s b hj]
    apply hsafe.alone b
    · refine ⟨b * chip.maxPages + (first + i), by omega, by omega, chip.page_div hfi, ?_⟩
      rw [physPage_of_lt chip s b hfi]
      exact hprog
    · exact chip.page_div hj
    · omega
  have hpieceErased : ∀ i, first ≤ i → i < first + n →
      SameBytes chip (s.part.page (findRealBlock s.reloc b * chip.maxPages + i)) blank := by
    intro i hi hlt
    rw [← view_of_lt chip s b (by omega)]
    exact hsafe.erased _ (by omega) (by omega)
  obtain ⟨hsound, hkept, hpages⟩ :=
    writePiece_spec h hoob hb hpos hn hpieceErased hpieceSafe hok
  refine ⟨hsound, hkept, ?_⟩
  generalize (retryRelocating chip f (writeAttempt chip f buf off first n flags spare)
    (chip.maxBlocks + 1) (findRealBlock s.reloc b) s).2 = s' at *
  have hend : s'.userEnd chip = s.userEnd chip := by
    rw [Driver.userEnd, Driver.userEnd, hkept.gmax]
  intro p _ hhigh
  have hmod := Nat.mod_lt p chip.maxPages_pos
  by_cases hp : p / chip.maxPages = b
  · have hsplit := page_split chip p
    rw [hp] at hsplit
    rw [← hsplit, view_of_lt chip s' b hmod]
    apply (hpages _ hmod).trans
    rw [PageArray.write, advance_advance, view_of_lt chip s b hmod,
      show b * chip.maxPages + p % chip.maxPages - (b * chip.maxPages + first) =
        p % chip.maxPages - first by omega]
    by_cases hin : first ≤ p % chip.maxPages ∧ p % chip.maxPages < first + n
    · rw [if_pos hin, if_pos (by omega)]
      exact .of_eq rfl
    · rw [if_neg hin, if_neg (by omega)]
      exact .of_eq rfl
  · have hpu : p / chip.maxPages < s.userEnd chip := block_lt (hend ▸ hhigh)
    have hout : ¬ (b * chip.maxPages + first ≤ p ∧ p < b * chip.maxPages + first + n) := by
      intro ⟨hle, hlt⟩
      apply hp
      rw [Nat.div_eq_iff chip.maxPages_pos]
      omega
    rw [PageArray.write, if_neg hout, hkept.view hpu hp]
    exact .of_eq rfl

/-- `__nand_core_write` on user blocks stores its pages and keeps the others. -/
theorem writeLoop_shows {buf : Mem} {flags : Flags} {spare : SpareOnes} (hoob : flags.oob = false)
    (fuel : ℕ) {block first pageNum off : ℕ} {s : Driver} (h : Sound chip s)
    (hfuel : pageNum ≤ fuel) (hfirst : first < chip.maxPages) (hblock : 1 ≤ block)
    (hend : block * chip.maxPages + first + pageNum ≤ s.userEnd chip * chip.maxPages)
    (hsafe : WriteSafe chip f s (block * chip.maxPages + first) pageNum)
    (hok : (writeLoop chip f buf flags spare fuel block first pageNum off s).1 = 0) :
    let s' := (writeLoop chip f buf flags spare fuel block first pageNum off s).2
    Sound chip s' ∧ s'.gmaxRelocEntry = s.gmaxRelocEntry ∧
      Shows chip s' (PageArray.write chip (view chip s) (block * chip.maxPages + first) pageNum
        (advance buf off)) := by
  induction fuel generalizing block first pageNum off s with
  | zero =>
    obtain rfl : pageNum = 0 := by omega
    rw [PageArray.write_zero]
    exact ⟨h, rfl, fun p _ _ => .of_eq rfl⟩
  | succ fuel ih =>
    rw [writeLoop] at hok ⊢
    by_cases hzero : pageNum = 0
    · rw [if_pos hzero, hzero, PageArray.write_zero]
      exact ⟨h, rfl, fun p _ _ => .of_eq rfl⟩
    rw [if_neg hzero] at hok ⊢
    dsimp only at hok ⊢
    generalize hn : min (chip.maxPages - first) pageNum = n at hok ⊢
    by_cases hpiece : (retryRelocating chip f (writeAttempt chip f buf off first n flags spare)
        (chip.maxBlocks + 1) (findRealBlock s.reloc block) s).1 = 0
    swap
    · rw [if_pos hpiece] at hok
      exact absurd hok hpiece
    rw [if_neg (not_not.mpr hpiece)] at hok ⊢
    have hbu : block < s.userEnd chip := by
      by_contra hge
      have := Nat.mul_le_mul_right chip.maxPages (Nat.le_of_not_lt hge)
      omega
    obtain ⟨hsound, hkept, hfirstShows⟩ :=
      writePiece_shows h hoob hbu hblock (by omega) (show n ≤ pageNum by omega) (by omega) hsafe
        hpiece
    generalize (retryRelocating chip f (writeAttempt chip f buf off first n flags spare)
      (chip.maxBlocks + 1) (findRealBlock s.reloc block) s).2 = s₁ at *
    have hend₁ : s₁.userEnd chip = s.userEnd chip := by
      rw [Driver.userEnd, Driver.userEnd, hkept.gmax]
    have hstride : stride chip flags = chip.pageSize := by simp [stride, hoob]
    rw [hstride] at hok ⊢
    rcases Nat.eq_zero_or_pos (pageNum - n) with h0 | hmore
    · -- the piece was the last one
      have hstop : (writeLoop chip f buf flags spare fuel (block + 1) 0 (pageNum - n)
          (off + n * chip.pageSize) s₁) = (0, s₁) := by
        rw [h0]
        cases fuel <;> simp [writeLoop]
      rw [hstop, show pageNum = n by omega]
      exact ⟨hsound, hkept.gmax, hfirstShows⟩
    · have hnext : block * chip.maxPages + first + n = (block + 1) * chip.maxPages := by
        rw [Nat.add_mul]
        omega
      have hrest : WriteSafe chip f s₁ ((block + 1) * chip.maxPages + 0) (pageNum - n) :=
        hsafe.rest hkept (by omega) (by omega) (.inr rfl) hend
      obtain ⟨hsound', hgmax', hshows⟩ := ih hsound (by omega) chip.maxPages_pos (by omega)
        (by rw [hend₁]; omega) hrest hok
      refine ⟨hsound', hgmax'.trans hkept.gmax, ?_⟩
      intro p hlow hhigh
      have hhigh₁ : p < s₁.userEnd chip * chip.maxPages := by
        rw [Driver.userEnd, hgmax'] at hhigh
        exact hhigh
      apply (hshows p hlow hhigh).trans
      have hcongr := PageArray.write_congr (hfirstShows p hlow hhigh₁)
        ((block + 1) * chip.maxPages + 0) (pageNum - n) (advance buf (off + n * chip.pageSize))
      apply hcongr.trans
      rw [Nat.add_zero, ← hnext, ← advance_advance, PageArray.write_append,
        show n + (pageNum - n) = pageNum by omega]
      exact .of_eq rfl

end Write
end UBoot.Nand
