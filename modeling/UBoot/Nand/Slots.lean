import UBoot.Nand.Steps

/-!
# Writing and loading the table

What `nand_finalize` does to the slots, outcome by outcome, and what `nand_init` makes of
them: the header and the number of items come from the lowest slot of the run of tables
that ends in the last page, the items from the last page itself.
-/
namespace UBoot.Nand
open ByteStore

section Geometry
variable (chip : NandChip)

theorem slotMin_eq : slotMin chip = chip.maxPages - nandMaxBbtSlots := by
  have := chip.pages_ge
  unfold slotMin slotMax
  unfold nandMaxBbtSlots at *
  omega

theorem mem_slots {p : ℕ} : p ∈ slots chip ↔ slotMin chip ≤ p ∧ p ≤ slotMax chip := by
  have := chip.maxPages_pos
  rw [slotMin_eq]
  unfold slots slotMax
  simp only [Set.mem_ofPred_eq]
  omega

theorem slotMin_le : 2 ≤ slotMin chip ∧ slotMin chip ≤ slotMax chip := by
  have := chip.pages_ge
  rw [slotMin_eq]
  unfold slotMax
  unfold nandMaxBbtSlots at *
  omega

theorem slotMax_mem : slotMax chip ∈ slots chip :=
  (mem_slots chip).mpr ⟨(slotMin_le chip).2, le_rfl⟩

end Geometry

section Finalize
variable {chip : NandChip} {f : Faults}

/-- What an attempt to erase block 0 can leave in a slot: the old contents, a blank page,
or what a failed erase leaves. -/
def SlotsAfterErase (chip : NandChip) (f : Faults) (F F' : Part) : Prop :=
  ∀ p ∈ slots chip, F'.page p = F.page p ∨ F'.page p = blank ∨
    ∃ n, F'.page p = f.halfErased p n (F.page p)

theorem erase_slots (F : Part) : SlotsAfterErase chip f F (F.erase chip f 0).2 := by
  intro p hp
  have hdiv : p / chip.maxPages = 0 := Nat.div_eq_of_lt hp.2
  by_cases h : f.eraseFails 0 (F.erases 0) = true
  · refine .inr (.inr ⟨F.erases 0, ?_⟩)
    rw [Part.erase]
    simp only [h, hdiv, if_true]
  · apply Or.inr
    apply Or.inl
    apply erase_page _ hdiv
    rw [erase_fst]
    simpa using h

theorem readPages_page (n i : ℕ) (buf : ℕ → Mem) (F : Part) :
    (readPages f n i buf F).2.2.page = F.page := by
  induction n generalizing i buf F with
  | zero => rfl
  | succ n ih =>
    rw [readPages]
    split
    · rfl
    · exact ih _ _ _

/-- Making room in block 0: on success the slots are blank. -/
theorem renewBlock0_slots (F : Part) :
    ((renewBlock0 chip f F).1 = 0 → ∀ p ∈ slots chip, (renewBlock0 chip f F).2.page p = blank) ∧
      SlotsAfterErase chip f F (renewBlock0 chip f F).2 := by
  have hslots : ∀ data F', SameSlots chip F' (writePages chip f (fun _ => false) data 0
      (chip.maxPages - nandMaxBbtSlots) 0 F').2 := by
    intro data F'
    apply (writePages_agreeOn (P := slots chip) _).sameSlots subset_rfl
    intro j _ hj _ hmem
    have := hmem.1
    omega
  unfold renewBlock0
  dsimp only
  generalize hr : readPages f (chip.maxPages - nandMaxBbtSlots) 0 (fun _ _ => 0) F = r
  have hpage : r.2.2.page = F.page := by rw [← hr, readPages_page]
  split
  · refine ⟨fun h => absurd h (by simp), fun p _ => ?_⟩
    exact .inl (congrFun hpage p)
  · have herase := @erase_slots chip f r.2.2
    have hafter : SlotsAfterErase chip f F (r.2.2.erase chip f 0).2 := by
      intro p hp
      have := herase p hp
      rwa [congrFun hpage p] at this
    split
    · exact ⟨fun h => absurd h (by simp), hafter⟩
    · rename_i hok
      have hblank : ∀ p ∈ slots chip, (r.2.2.erase chip f 0).2.page p = blank := by
        intro p hp
        exact erase_page (by simpa using hok) (Nat.div_eq_of_lt hp.2)
      split
      · refine ⟨fun h => absurd h (by simp), fun p hp => ?_⟩
        exact .inr (.inl ((hslots _ _ p hp).trans (hblank p hp)))
      · refine ⟨fun _ p hp => (hslots _ _ p hp).trans (hblank p hp), fun p hp => ?_⟩
        exact .inr (.inl ((hslots _ _ p hp).trans (hblank p hp)))

/-- The slots and the slot number that `nand_finalize` writes the table on. -/
def SlotBase (chip : NandChip) (s : Driver) (F : Part) (slot : ℕ) : Prop :=
  s.bbtFull = false ∧ SameSlots chip s.part F ∧ slot = s.bbtSlot ∨
    s.bbtFull = true ∧ (∀ p ∈ slots chip, F.page p = blank) ∧ slot = slotMax chip

/-- A table that goes to the slot finds it erased. -/
def FindsBlank (s : Driver) (slot : ℕ) : Prop :=
  s.bbtFull = false → s.bbtSlot = slot → s.part.page slot = blank

theorem FindsBlank.all {s : Driver} (h : FindsBlank s s.bbtSlot) {slot : ℕ} :
    FindsBlank s slot := by
  intro hfull hat
  rw [← hat]
  exact h hfull rfl

/-- What a call does before it writes the table leaves an erased slot erased. -/
theorem FindsBlank.path {slot : ℕ} (hslot : slot ∈ slots chip) {s s₁ : Driver}
    (hpath : Path chip f True s s₁) (h : FindsBlank s slot) : FindsBlank s₁ slot := by
  apply hpath.invariant (I := fun s => FindsBlank s slot) _ h
  intro s s' h hstep
  cases hstep with
  | quiet hsame =>
    intro hfull hat
    exact (hsame slot hslot).trans (h hfull hat)
  | item hsame _ _ _ =>
    intro hfull hat
    exact (hsame slot hslot).trans (h hfull hat)
  | erase0 hok => exact fun _ _ => erase_page (hok trivial) (Nat.div_eq_of_lt hslot.2)

theorem SlotBase.blank {s : Driver} {F : Part} {slot : ℕ} (h : SlotBase chip s F slot)
    (hslot : slot ∈ slots chip) (hblank : FindsBlank s slot) : F.page slot = blank := by
  rcases h with ⟨hfull, hsame, heq⟩ | ⟨-, hall, -⟩
  · rw [hsame slot hslot]
    exact hblank hfull heq.symm
  · exact hall slot hslot

/-- The outcomes of `nand_finalize`. -/
inductive Finalized (chip : NandChip) (f : Faults) (s : Driver) : ℤ × Driver → Prop where
  | unchanged (h : s.bbtChanged = false) : Finalized chip f s (0, s)
  | refused (h : s.reloc.header ≠ validHeader) : Finalized chip f s (-1, s)
  | notRenewed {F : Part} (hchanged : s.bbtChanged = true) (hfull : s.bbtFull = true)
      (h : SlotsAfterErase chip f s.part F) : Finalized chip f s (-1, { s with part := F })
  | torn {F F' : Part} {slot n : ℕ} (hchanged : s.bbtChanged = true)
      (hbase : SlotBase chip s F slot)
      (hslot : F'.page slot = f.torn slot n (F.page slot) (cut chip.pageSize s.reloc))
      (hothers : ∀ p, p ≠ slot → F'.page p = F.page p) :
      Finalized chip f s (-1, { s with part := F', bbtSlot := slot })
  | written {F F' : Part} {slot : ℕ} (hchanged : s.bbtChanged = true)
      (hheader : s.reloc.header = validHeader) (hbase : SlotBase chip s F slot)
      (hslot : F'.page slot = programmed (F.page slot) (cut chip.pageSize s.reloc))
      (hothers : ∀ p, p ≠ slot → F'.page p = F.page p) :
      Finalized chip f s (0, { s with
        part := F'
        bbtChanged := false
        bbtSlot := slot - 1
        bbtFull := decide (slot - 1 < chip.maxPages - nandMaxBbtSlots) })

theorem writePage_others {F : Part} {page p : ℕ} {dbuf : Mem} (h : p ≠ page) :
    (F.writePage chip f page dbuf).2.page p = F.page p :=
  (writePage_agreeOn chip f F page dbuf).page p h

theorem writeSlot_spec {s : Driver} {F : Part} {slot : ℕ} (hchanged : s.bbtChanged = true)
    (hheader : s.reloc.header = validHeader) (hbase : SlotBase chip s F slot) :
    Finalized chip f s (writeSlot chip f { s with part := F, bbtSlot := slot }) := by
  unfold writeSlot
  dsimp only
  by_cases hok : (F.writePage chip f slot s.reloc).1 = 0
  · rw [if_neg (not_not.mpr hok)]
    exact .written hchanged hheader hbase (writePage_page hok) fun p hp => writePage_others hp
  · rw [if_pos hok]
    have hfail : f.programFails slot (F.programs slot) = true := by
      rw [writePage_fst] at hok
      simpa using hok
    have hstatus : (F.writePage chip f slot s.reloc).1 = -1 := by simp [writePage_fst, hfail]
    rw [hstatus]
    apply Finalized.torn (n := F.programs slot) hchanged hbase
    · simp [Part.writePage, hfail]
    · exact fun p hp => writePage_others hp

theorem nandFinalize_spec (s : Driver) : Finalized chip f s (nandFinalize chip f s) := by
  unfold nandFinalize coreWriteBbt
  by_cases hchanged : s.bbtChanged = false
  · rw [if_pos hchanged]
    exact .unchanged hchanged
  rw [if_neg hchanged]
  have hchanged' : s.bbtChanged = true := by simpa using hchanged
  by_cases hheader : s.reloc.header = validHeader
  · rw [if_neg (not_not.mpr hheader)]
    cases hfull : s.bbtFull with
    | false => exact writeSlot_spec hchanged' hheader (.inl ⟨hfull, .refl _, rfl⟩)
    | true =>
      obtain ⟨hblank, hafter⟩ := @renewBlock0_slots chip f s.part
      simp only [if_true]
      split
      · have h := Finalized.notRenewed hchanged' hfull hafter
        rw [← hfull]
        exact h
      · rename_i hok
        have hblank' := hblank (by simpa using hok)
        have h := writeSlot_spec (f := f) hchanged' hheader
          (.inr ⟨hfull, hblank', rfl⟩ : SlotBase chip s _ _)
        rw [← hfull]
        exact h
  · rw [if_pos hheader]
    exact .refused hheader

end Finalize

section Load
variable {chip : NandChip} {f : Faults}

/-- The walk down from the last page stops at `q`: the slots above carry tables, and slot
`q`, if it is one, does not. -/
structure StopsAt (chip : NandChip) (F : Part) (q : ℕ) : Prop where
  low : slotMin chip ≤ q + 1
  high : q < slotMax chip
  tables : ∀ j, q < j → j ≤ slotMax chip → RelocTable.header (F.page j) = validHeader
  stop : slotMin chip ≤ q → RelocTable.header (F.page q) ≠ validHeader

theorem StopsAt.present {F : Part} {q : ℕ} (h : StopsAt chip F q) : TablePresent chip F :=
  h.tables _ h.high le_rfl

/-- The walk stops at one place only. -/
theorem StopsAt.unique {F : Part} {q q' : ℕ} (h : StopsAt chip F q) (h' : StopsAt chip F q') :
    q = q' := by
  have hlow := h.low
  have hlow' := h'.low
  rcases Nat.lt_trichotomy q q' with hlt | heq | hlt
  · exact absurd (h.tables q' hlt h'.high.le) (h'.stop (by omega))
  · exact heq
  · exact absurd (h'.tables q hlt h.high.le) (h.stop (by omega))

/-- The table that a walk stopping at `q` leaves in memory. -/
def loadedTable (chip : NandChip) (F : Part) (q : ℕ) : RelocTable :=
  overlay (F.page (slotMax chip)) 0 4 (F.page (q + 1))

section LoadedTable
variable (F : Part) (q : ℕ)

@[simp] theorem header_loadedTable :
    (loadedTable chip F q).header = RelocTable.header (F.page (q + 1)) := by
  apply fetch_congr
  intro i hi
  exact overlay_of_mem _ _ (Nat.zero_le _) (by omega)

@[simp] theorem total_loadedTable :
    (loadedTable chip F q).total = RelocTable.total (F.page (q + 1)) := by
  apply fetch_congr
  intro i hi
  exact overlay_of_mem _ _ (Nat.zero_le _) (by omega)

theorem fetch_loadedTable {off k : ℕ} (h : 4 ≤ off) :
    fetch (loadedTable chip F q) off k = fetch (F.page (slotMax chip)) off k := by
  apply fetch_congr
  intro i hi
  exact overlay_of_not_mem _ _ (by omega)

@[simp] theorem itemFrom_loadedTable (i : ℕ) :
    (loadedTable chip F q).itemFrom i = RelocTable.itemFrom (F.page (slotMax chip)) i :=
  fetch_loadedTable F q (by omega)

@[simp] theorem itemTo_loadedTable (i : ℕ) :
    (loadedTable chip F q).itemTo i = RelocTable.itemTo (F.page (slotMax chip)) i :=
  fetch_loadedTable F q (by omega)

end LoadedTable

theorem overlay_overlay (m a b : Mem) (off len : ℕ) :
    overlay (overlay m off len a) off len b = overlay m off len b := by
  funext i
  simp only [overlay]
  split <;> rfl

theorem overlay_self (m : Mem) (len : ℕ) : overlay m 0 len m = m := by
  funext i
  simp [overlay]

theorem readPage_status (F : Part) (page : ℕ) :
    ¬ ((F.readPage f page).1 ≠ 0 ∧ (F.readPage f page).1 ≠ nandEccErr) := by
  unfold Part.readPage
  dsimp only
  split <;> simp

/-- The loop of `__nand_core_load_bbt` below slot `n`. -/
theorem loadSlots_spec (n : ℕ) (hn : slotMin chip ≤ n) (s : Driver) :
    ∃ q F, loadSlots chip f n s = (0, q, { s with
        part := F
        reloc := if q + 1 < n then overlay s.reloc 0 4 (s.part.page (q + 1)) else s.reloc }) ∧
      F.page = s.part.page ∧ slotMin chip ≤ q + 1 ∧ q < n ∧
      (∀ j, q < j → j < n → RelocTable.header (s.part.page j) = validHeader) ∧
      (slotMin chip ≤ q → RelocTable.header (s.part.page q) ≠ validHeader) := by
  induction n generalizing s with
  | zero =>
    have := (slotMin_le chip).1
    omega
  | succ n ih =>
    rw [loadSlots]
    by_cases hslot : slotMin chip ≤ n
    · rw [if_pos hslot]
      dsimp only
      rw [if_neg (readPage_status s.part n)]
      by_cases hheader : RelocTable.header (s.part.page n) = validHeader
      · have hread : ¬ RelocTable.header (s.part.readPage f n).2.1 ≠ validHeader :=
          not_not.mpr hheader
        rw [if_neg hread]
        obtain ⟨q, F, heq, hpage, hlow, hhigh, htables, hstop⟩ := ih hslot { s with
          part := (s.part.readPage f n).2.2
          reloc := overlay s.reloc 0 4 (s.part.readPage f n).2.1 }
        refine ⟨q, F, ?_, hpage, hlow, by omega, ?_, hstop⟩
        · have hreloc : (if q + 1 < n then
              overlay (overlay s.reloc 0 4 (s.part.page n)) 0 4 (s.part.page (q + 1))
              else overlay s.reloc 0 4 (s.part.page n)) =
              overlay s.reloc 0 4 (s.part.page (q + 1)) := by
            split
            · exact overlay_overlay _ _ _ _ _
            · rw [show q + 1 = n by omega]
          rw [heq, if_pos (by omega : q + 1 < n + 1), ← hreloc]
          rfl
        · intro j hj hlt
          rcases Nat.lt_succ_iff_lt_or_eq.mp hlt with hlt | rfl
          · exact htables j hj hlt
          · exact hheader
      · have hread : RelocTable.header (s.part.readPage f n).2.1 ≠ validHeader := hheader
        rw [if_pos hread]
        exact ⟨n, (s.part.readPage f n).2.2, by rw [if_neg (by omega)], rfl, by omega, by omega,
          fun j hj hlt => by omega, fun _ => hheader⟩
    · rw [if_neg hslot]
      exact ⟨n, s.part, by rw [if_neg (by omega)], rfl, by omega, by omega,
        fun j hj hlt => by omega, fun h => absurd h hslot⟩

/-- The driver after a walk over the slots that stops at `q`. -/
def loadedDriver (chip : NandChip) (F F' : Part) (q : ℕ) : Driver where
  part := F'
  reloc := loadedTable chip F q
  bbtChanged := decide (q < slotMin chip)
  bbtSlot := if q < slotMin chip then slotMax chip else q
  bbtFull := decide (q < slotMin chip)
  gmaxRelocEntry := relocEntry chip

/-- `nand_init` on a part whose last page of block 0 carries a table. -/
theorem nandInit_of_table {s : Driver} (h : TablePresent chip s.part) :
    ∃ q F, StopsAt chip s.part q ∧ F.page = s.part.page ∧
      nandInit chip f s = (0, loadedDriver chip s.part F q) := by
  unfold nandInit coreLoadBbt
  dsimp only
  rw [if_neg (readPage_status s.part (slotMax chip)),
    if_pos (show RelocTable.header (s.part.readPage f (slotMax chip)).2.1 = validHeader from h)]
  obtain ⟨q, F, heq, hpage, hlow, hhigh, htables, hstop⟩ :=
    loadSlots_spec (f := f) (slotMax chip) (slotMin_le chip).2
      (⟨(s.part.readPage f (slotMax chip)).2.2, (s.part.readPage f (slotMax chip)).2.1, false, 0,
        false, s.gmaxRelocEntry⟩ : Driver)
  have hstops : StopsAt chip s.part q := by
    refine ⟨hlow, hhigh, ?_, hstop⟩
    intro j hj hle
    rcases Nat.lt_or_eq_of_le hle with hlt | rfl
    · exact htables j hj hlt
    · exact h
  refine ⟨q, F, hstops, hpage, ?_⟩
  have htable : (if q + 1 < slotMax chip then
      overlay (s.part.readPage f (slotMax chip)).2.1 0 4 (s.part.page (q + 1))
      else (s.part.readPage f (slotMax chip)).2.1) = loadedTable chip s.part q := by
    split
    · rfl
    · rw [loadedTable, show q + 1 = slotMax chip by omega, overlay_self]
      rfl
  rw [heq]
  dsimp only
  by_cases hq : slotMin chip ≤ q
  · simp [hq, coreCalcRelocEntry, loadedDriver, show ¬ q < slotMin chip by omega, ← htable]
    rfl
  · simp [hq, coreCalcRelocEntry, loadedDriver, show q < slotMin chip by omega, ← htable]
    rfl

/-- `nand_init` on a part without a table scans the blocks. -/
theorem nandInit_of_no_table {s : Driver} (h : ¬ TablePresent chip s.part) :
    ∃ s₁ : Driver, s₁.gmaxRelocEntry = s.gmaxRelocEntry ∧ AgreeOn chip Set.univ s.part s₁.part ∧
      nandInit chip f s = (0, coreCalcRelocEntry chip (coreCreateBbt chip f s₁).2) := by
  unfold nandInit coreLoadBbt
  dsimp only
  rw [if_neg (readPage_status s.part (slotMax chip)),
    if_neg (show ¬ RelocTable.header (s.part.readPage f (slotMax chip)).2.1 = validHeader from h)]
  have hread := readPage_agreeOn chip f s.part (slotMax chip)
  exact ⟨⟨(s.part.readPage f (slotMax chip)).2.2, (s.part.readPage f (slotMax chip)).2.1, false, 0,
    false, s.gmaxRelocEntry⟩, rfl, hread, rfl⟩

end Load
end UBoot.Nand
