import UBoot.Nand.Core

/-!
# The calls as paths of steps

Seen from the relocation table and from its slots in block 0, a call is a path of steps of
three kinds, with `nand_finalize` at its end: something happens outside the slots, an item
is appended, or `nand_erase` erases block 0. A call in which that erase fails comes to no
`nand_finalize`. An invariant of the steps and of `nand_finalize` is an invariant of every
call.
-/
namespace UBoot.Nand
open ByteStore

/-- The pages of block 0 that hold tables. -/
def slots (chip : NandChip) : Set ℕ :=
  {p | chip.maxPages - nandMaxBbtSlots ≤ p ∧ p < chip.maxPages}

/-- The slots hold what they held. -/
def SameSlots (chip : NandChip) (F F' : Part) : Prop := ∀ p ∈ slots chip, F'.page p = F.page p

/-- The steps; if `sure` holds, block 0 is erased successfully or not at all. -/
inductive Step (chip : NandChip) (f : Faults) (sure : Prop) : Driver → Driver → Prop where
  | quiet {s : Driver} {F : Part} (h : SameSlots chip s.part F) :
      Step chip f sure s { s with part := F }
  | item {s : Driver} {F : Part} {block b : ℕ} (h : SameSlots chip s.part F)
      (hblock : block < chip.maxBlocks) (hlimit : chip.maxBlocks - s.gmaxRelocEntry ≤ b)
      (hlt : b < lastLeftOff chip s.reloc s.reloc.total) :
      Step chip f sure s { s with
        part := F, bbtChanged := true, reloc := s.reloc.addItem block b }
  | erase0 (s : Driver) (h : sure → (s.part.erase chip f 0).1 = 0) : Step chip f sure s { s with
      part := (s.part.erase chip f 0).2, bbtChanged := true, bbtSlot := slotMax chip }

abbrev Path (chip : NandChip) (f : Faults) (sure : Prop) : Driver → Driver → Prop :=
  Relation.ReflTransGen (Step chip f sure)

/-- No item leads to block 0, and the reserve is a proper part of the chip. -/
structure Safe (chip : NandChip) (s : Driver) : Prop where
  noZero : ∀ i < s.reloc.total, s.reloc.itemTo i ≠ 0
  gmax_lt : s.gmaxRelocEntry < chip.maxBlocks

section Frames
variable {chip : NandChip} {f : Faults} {F F' F'' : Part}

theorem SameSlots.refl (F : Part) : SameSlots chip F F := fun _ _ => rfl

theorem SameSlots.trans (h : SameSlots chip F F') (h' : SameSlots chip F' F'') :
    SameSlots chip F F'' := fun p hp => (h' p hp).trans (h p hp)

theorem AgreeOn.sameSlots {P : Set ℕ} (h : AgreeOn chip P F F') (hs : slots chip ⊆ P) :
    SameSlots chip F F' := fun p hp => h.page p (hs hp)

theorem slots_subset_outside {B : Set ℕ} (h : 0 ∉ B) : slots chip ⊆ outside chip B := by
  intro p hp
  have hdiv : p / chip.maxPages = 0 := Nat.div_eq_of_lt hp.2
  simpa [outside, hdiv] using h

theorem markBad_sameSlots (block : ℕ) : SameSlots chip F (F.markBad chip f block) := by
  apply (markBad_agreeOn chip f F block).sameSlots
  intro p hp hmem
  have hslots := chip.pages_ge
  have hlow : nandMaxBbtSlots + 2 ≤ p + nandMaxBbtSlots := by
    have := hp.1
    omega
  have hp2 := hp.2
  rcases Nat.eq_zero_or_pos block with rfl | hpos
  · simp at hmem
    omega
  · have := Nat.le_mul_of_pos_left chip.maxPages hpos
    simp at hmem
    omega

theorem writePages_agreeOn {P : Set ℕ} {skip : ℕ → Bool} {data : ℕ → Mem} {base n i : ℕ}
    (h : ∀ j, i ≤ j → j < i + n → skip j = false → base + j ∉ P) :
    AgreeOn chip P F (writePages chip f skip data base n i F).2 := by
  induction n generalizing i F with
  | zero => exact .refl P F
  | succ n ih =>
    rw [writePages]
    have hrest : ∀ j, i + 1 ≤ j → j < i + 1 + n → skip j = false → base + j ∉ P :=
      fun j hj hlt => h j (by omega) (by omega)
    split
    · exact ih hrest
    · rename_i hskip
      have hstep : AgreeOn chip P F (F.writePage chip f (base + i) (data i)).2 := by
        apply (writePage_agreeOn chip f F (base + i) (data i)).mono
        intro p hp he
        apply h i le_rfl (by omega) (by simpa using hskip)
        rwa [← show p = base + i from he]
      dsimp only
      split
      · exact hstep
      · exact hstep.trans (ih hrest)

/-- A piece of a write keeps out of the slots, in block 0 and elsewhere. -/
theorem writeAttempt_sameSlots {buf : Mem} {off first n realBlock : ℕ} {flags : Flags}
    {spare : SpareOnes} :
    SameSlots chip F (writeAttempt chip f buf off first n flags spare realBlock F).2 := by
  unfold writeAttempt
  dsimp only
  split
  · apply (writePages_agreeOn (P := slots chip) _).sameSlots subset_rfl
    intro j _ _ hskip hmem
    simp only [Bool.or_eq_false_iff, Bool.not_eq_false', decide_eq_true_eq] at hskip
    have := hmem.1
    omega
  · rename_i hreal
    apply (writePages_agreeOn (P := slots chip) _).sameSlots subset_rfl
    intro j _ hlt _ hmem
    have := Nat.le_mul_of_pos_left chip.maxPages (Nat.pos_of_ne_zero hreal)
    have := hmem.2
    omega

theorem readPiece_sameSlots (flags : Flags) (spare : SpareRead) (n page off : ℕ) (buf : Mem)
    (F : Part) :
    SameSlots chip F (readPiece chip f flags spare n page off buf F).2.2 := by
  induction n generalizing page off buf F with
  | zero => exact .refl F
  | succ n ih =>
    rw [readPiece]
    have hread : SameSlots chip F (F.readPage f page).2.2 :=
      (readPage_agreeOn chip f F page).sameSlots (Set.subset_univ _)
    split
    · exact hread
    · exact hread.trans (ih _ _ _ _)

end Frames

section Retry
variable {chip : NandChip} {f : Faults} {sure : Prop}

theorem Step.safe {s s' : Driver} (h : Step chip f sure s s') (hs : Safe chip s) :
    Safe chip s' := by
  cases h with
  | quiet _ => exact ⟨hs.noZero, hs.gmax_lt⟩
  | erase0 => exact ⟨hs.noZero, hs.gmax_lt⟩
  | @item F block b _ _ hlimit hlt =>
    refine ⟨?_, hs.gmax_lt⟩
    intro i hi
    have hle := lastLeftOff_le chip s.reloc s.reloc.total
    have hblocks := chip.blocks_lt
    have hgmax := hs.gmax_lt
    have htotal : (s.reloc.addItem block b).total ≤ s.reloc.total + 1 := by
      rw [RelocTable.total_addItem]
      exact Nat.mod_le _ _
    show (s.reloc.addItem block b).itemTo i ≠ 0
    rw [RelocTable.itemTo_addItem, Nat.mod_eq_of_lt (by omega)]
    split
    · omega
    · apply hs.noZero
      have hi' : i < (s.reloc.addItem block b).total := hi
      omega

/-- What each step keeps, a path keeps. -/
theorem Path.invariant {I : Driver → Prop} (hstep : ∀ s s', I s → Step chip f sure s s' → I s')
    {s s' : Driver} (h : Path chip f sure s s') (hs : I s) : I s' := by
  induction h with
  | refl => exact hs
  | tail _ h ih => exact hstep _ _ ih h

theorem Path.safe {s s' : Driver} (h : Path chip f sure s s') (hs : Safe chip s) : Safe chip s' :=
  h.invariant (fun _ _ hs hstep => hstep.safe hs) hs

theorem findLoop_eq_or_to {t : RelocTable} {fuel i block e : ℕ}
    (h : findLoop t fuel i block = some e) : e = block ∨ ∃ j < t.total, e = t.itemTo j := by
  obtain ⟨-, -, hend⟩ := RelocTable.findLoop_invariant
    (P := fun _ e => e = block ∨ ∃ j < t.total, e = t.itemTo j)
    (fun i hi _ => .inr ⟨i, hi, rfl⟩) (fun _ _ _ he => he) h (.inl rfl)
  exact hend

/-- No block but block 0 is looked for in block 0. -/
theorem Safe.findRealBlock_ne_zero {s : Driver} (hs : Safe chip s) {block : ℕ} (hb : block ≠ 0) :
    findRealBlock s.reloc block ≠ 0 := by
  unfold findRealBlock
  cases hloop : findLoop s.reloc (findFuel s.reloc) 0 block with
  | none => exact hb
  | some e =>
    rcases findLoop_eq_or_to hloop with he | ⟨j, hj, he⟩
    · simpa [he] using hb
    · simpa [he] using hs.noZero j hj

/-- A relocation is a path, and it leads to a block of the reserve. -/
theorem coreRelocateBlock_path (block : ℕ) {s : Driver} (hs : Safe chip s) :
    Path chip f sure s (coreRelocateBlock chip f block s).2.2 ∧
      ((coreRelocateBlock chip f block s).1 = 0 →
        (coreRelocateBlock chip f block s).2.1 ≠ 0) := by
  have hgmax := hs.gmax_lt
  rcases coreRelocateBlock_cases (f := f) block (lastLeftOff_ne_zero chip hs.noZero) with
    ⟨b, F, heq, hblock, hfound⟩ | ⟨F, heq, hfailed, hsame⟩
  · rw [heq]
    have hlimit := hfound.limit_le
    have hsame : SameSlots chip s.part F := by
      apply hfound.agree.sameSlots
      apply slots_subset_outside
      simp only [Set.mem_ofPred_eq]
      omega
    refine ⟨.single (.item hsame hblock hlimit hfound.lt_start), fun _ => ?_⟩
    show b ≠ 0
    omega
  · rw [heq]
    refine ⟨.single (.quiet ?_), fun h => absurd h (by simp)⟩
    by_cases hlt : block < chip.maxBlocks
    · apply (hfailed hlt).agree.sameSlots
      apply slots_subset_outside
      simp only [Set.mem_ofPred_eq]
      omega
    · rw [hsame (by omega)]
      exact .refl _

/-- A retry loop is a path, if its attempts keep out of the slots. -/
theorem retryRelocating_path {attempt : ℕ → Part → ℤ × Part} {P : ℕ → Prop}
    (hP : ∀ b, b ≠ 0 → P b) (hattempt : ∀ b F, P b → SameSlots chip F (attempt b F).2)
    (fuel : ℕ) {b : ℕ} {s : Driver} (hb : P b) (hs : Safe chip s) :
    Path chip f sure s (retryRelocating chip f attempt fuel b s).2 := by
  have hmark : ∀ b s₁, P b → Step chip f sure s₁
      { s₁ with part := (attempt b s₁.part).2.markBad chip f b } :=
    fun b s₁ hb => .quiet ((hattempt b s₁.part hb).trans (markBad_sameSlots b))
  apply retryRelocating_rule (I := fun b s' => P b ∧ Safe chip s' ∧ Path chip f sure s s')
    (J := fun _ s' => Path chip f sure s s')
  · intro b s₁ h _
    exact h.2.2.tail (.quiet (hattempt b s₁.part h.1))
  · intro b s₁ h _ b' s' heq
    have hstep := hmark b s₁ h.1
    have hmove : Path chip f sure _ _ ∧ _ := coreRelocateBlock_path b (hstep.safe h.2.1)
    rw [heq] at hmove
    exact ⟨hP b' (hmove.2 rfl), hmove.1.safe (hstep.safe h.2.1),
      (h.2.2.tail hstep).trans hmove.1⟩
  · intro b s₁ h _ st b' s' _ heq
    have hstep := hmark b s₁ h.1
    have hmove : Path chip f sure _ _ ∧ _ := coreRelocateBlock_path b (hstep.safe h.2.1)
    rw [heq] at hmove
    exact (h.2.2.tail hstep).trans hmove.1
  · intro b s₁ h
    exact h.2.2
  · exact ⟨hb, hs, .refl⟩

end Retry

section Calls
variable {chip : NandChip} {f : Faults} {sure : Prop}

theorem coreErase_path {block : ℕ} (hb : block ≠ 0) {s : Driver} (hs : Safe chip s) :
    Path chip f sure s (coreErase chip f block s).2 := by
  apply retryRelocating_path (P := fun b => b ≠ 0) (fun b hb => hb)
  · intro b F hb
    apply (erase_agreeOn chip f F b).sameSlots
    apply slots_subset_outside
    simpa using hb.symm
  · exact hs.findRealBlock_ne_zero hb
  · exact hs

theorem writeLoop_path (buf : Mem) (flags : Flags) (spare : SpareOnes)
    (fuel block first pageNum off : ℕ) {s : Driver} (hs : Safe chip s) :
    Path chip f sure s (writeLoop chip f buf flags spare fuel block first pageNum off s).2 := by
  induction fuel generalizing block first pageNum off s with
  | zero => exact .refl
  | succ fuel ih =>
    rw [writeLoop]
    split
    · exact .refl
    · have hpiece : Path chip f sure s (retryRelocating chip f (writeAttempt chip f buf off first
          (min (chip.maxPages - first) pageNum) flags spare) (chip.maxBlocks + 1)
          (findRealBlock s.reloc block) s).2 :=
        retryRelocating_path (P := fun _ => True) (fun _ _ => trivial)
          (fun _ _ _ => writeAttempt_sameSlots) _ trivial hs
      dsimp only
      split
      · exact hpiece
      · exact hpiece.trans (ih _ _ _ _ (hpiece.safe hs))

theorem eraseBlocks_path (n i : ℕ) {s : Driver} (hs : Safe chip s)
    (hok : sure → (eraseBlocks chip f n i s).1 = 0) :
    Path chip f sure s (eraseBlocks chip f n i s).2 := by
  induction n generalizing i s with
  | zero => exact .refl
  | succ n ih =>
    rw [eraseBlocks] at hok ⊢
    dsimp only at hok ⊢
    by_cases hi : i = 0
    · rw [if_pos hi] at hok ⊢
      by_cases hfail : (s.part.erase chip f 0).1 ≠ 0
      · rw [if_pos hfail] at hok ⊢
        exact .single (.erase0 s fun hsure => absurd (hok hsure) hfail)
      · rw [if_neg hfail] at hok ⊢
        have hstep : Step chip f sure s _ := .erase0 s fun _ => not_not.mp hfail
        exact (Relation.ReflTransGen.single hstep).trans (ih _ (hstep.safe hs) hok)
    · rw [if_neg hi] at hok ⊢
      have hblock : Path chip f sure s (coreErase chip f i s).2 := coreErase_path hi hs
      by_cases hfail : (coreErase chip f i s).1 ≠ 0
      · rw [if_pos hfail]
        exact hblock
      · rw [if_neg hfail] at hok ⊢
        exact hblock.trans (ih _ (hblock.safe hs) hok)

theorem readLoop_path (flags : Flags) (spare : SpareRead) (fuel block first pageNum off : ℕ)
    (buf : Mem) (s : Driver) :
    Path chip f sure s (readLoop chip f flags spare fuel block first pageNum off buf s).2.2 := by
  induction fuel generalizing block first pageNum off buf s with
  | zero => exact .refl
  | succ fuel ih =>
    rw [readLoop]
    split
    · exact .refl
    · have hpiece := @readPiece_sameSlots chip f flags spare (min (chip.maxPages - first) pageNum)
        (findRealBlock s.reloc block * chip.maxPages + first) off buf s.part
      dsimp only
      split
      · exact .single (.quiet hpiece)
      · exact .head (.quiet hpiece) (ih _ _ _ _ _ _)

/-- A call is a path, or a path without a failed erase of block 0 and `nand_finalize`. -/
theorem call_path (c : Call) {s : Driver} (hs : Safe chip s) :
    (∃ s₁, Path chip f False s s₁ ∧ (call chip f c s).2.2 = s₁) ∨
      ∃ s₁, Path chip f True s s₁ ∧ (call chip f c s).2.2 = (nandFinalize chip f s₁).2 := by
  cases c with
  | write buf start size flags spare =>
    rw [call, nandWrite]
    dsimp only
    split
    · exact .inl ⟨s, .refl, rfl⟩
    split
    · exact .inl ⟨s, .refl, rfl⟩
    split
    · exact .inl ⟨_, writeLoop_path _ _ _ _ _ _ _ _ hs, rfl⟩
    · exact .inr ⟨_, writeLoop_path _ _ _ _ _ _ _ _ hs, rfl⟩
  | read buf start size flags spare =>
    rw [call, nandRead]
    dsimp only
    split
    · exact .inl ⟨s, .refl, rfl⟩
    split
    · exact .inl ⟨s, .refl, rfl⟩
    exact .inl ⟨_, readLoop_path _ _ _ _ _ _ _ _ s, rfl⟩
  | erase start len =>
    rw [call, nandErase]
    dsimp only
    split
    · exact .inl ⟨s, .refl, rfl⟩
    split
    · exact .inl ⟨s, .refl, rfl⟩
    split
    · exact .inl ⟨s, .refl, rfl⟩
    split
    · exact .inl ⟨_, eraseBlocks_path _ _ hs False.elim, rfl⟩
    · rename_i hok
      exact .inr ⟨_, eraseBlocks_path _ _ hs fun _ => not_not.mp hok, rfl⟩
  | finalize => exact .inr ⟨s, .refl, rfl⟩

/-- The rule for calls: what each step keeps, and `nand_finalize` behind a path without a
failed erase of block 0, the call keeps. -/
theorem call_rule {I : Driver → Prop} (hsafe : ∀ s, I s → Safe chip s)
    (hstep : ∀ sure s s', I s → Step chip f sure s s' → I s') (c : Call) {s : Driver}
    (hfinalize : ∀ s₁, Path chip f True s s₁ → I s₁ → I (nandFinalize chip f s₁).2) (hs : I s) :
    I (call chip f c s).2.2 := by
  rcases call_path (f := f) c (hsafe s hs) with ⟨s₁, hpath, hend⟩ | ⟨s₁, hpath, hend⟩
  · rw [hend]
    exact hpath.invariant (hstep False) hs
  · rw [hend]
    exact hfinalize s₁ hpath (hpath.invariant (hstep True) hs)

end Calls
end UBoot.Nand
