import UBoot.Nand.RelocationMap

/-!
# The table across a power cycle

A successful `nand_finalize` leaves the slots above the next free one filled, and the
newest of them holds the table in memory, if each was erased when its table was written: a
slot that a failed program left half written is programmed again. `__nand_core_load_bbt`
takes the header and the number of items from that slot, but the items themselves from the
last page of block 0: the table comes back exactly when that page lists the same items.
-/
namespace UBoot.Nand
open ByteStore

section Persisted
variable (chip : NandChip) (f : Faults)

/-- A power cycle brings back the table in memory, and with it every real block. -/
structure Persisted (s : Driver) : Prop where
  status : (reboot chip f s).1 = 0
  header : (reboot chip f s).2.reloc.header = s.reloc.header
  items : SameItems s.reloc (reboot chip f s).2.reloc
  realBlocks : ∀ b, findRealBlock (reboot chip f s).2.reloc b = findRealBlock s.reloc b

/-- The last page of block 0, which is the next to be written in an erased block 0. -/
def oldestPage (s : Driver) : Mem :=
  if s.bbtChanged = true ∧ (s.bbtFull = true ∨ s.bbtSlot = slotMax chip) then
    cut chip.pageSize s.reloc
  else s.part.page (slotMax chip)

/-- The last page of block 0 lists every item of the table in memory, or it is where the
table goes now. -/
def OldestListsAll (s : Driver) : Prop :=
  ∀ i < s.reloc.total,
    RelocTable.itemFrom (oldestPage chip s) i = s.reloc.itemFrom i ∧
    RelocTable.itemTo (oldestPage chip s) i = s.reloc.itemTo i

/-- The slot below the one that holds the table, or will hold it, carries no table, as one
that an erase of block 0 failed to remove. -/
def NextSlotFree (s : Driver) : Prop :=
  s.bbtChanged = true ∧ s.bbtFull = true ∨
    ∀ q, q = (if s.bbtChanged then s.bbtSlot - 1 else s.bbtSlot) → slotMin chip ≤ q →
      RelocTable.header (s.part.page q) ≠ validHeader

/-- A table that a call writes finds its slot erased; one that is loaded sends no block to
block 0. -/
def TablesWhole (b : Board) : Action → Prop
  | .call _ => FindsBlank b.driver b.driver.bbtSlot
  | .reboot => ∀ q, StopsAt chip b.driver.part q →
      ∀ i < RelocTable.total (b.driver.part.page (q + 1)),
        RelocTable.itemTo (b.driver.part.page (slotMax chip)) i ≠ 0

/-- The slots above the next free one carry tables, the newest of them the number of items
in memory. -/
structure SlotsOk (s : Driver) : Prop where
  safe : Safe chip s
  low : slotMin chip ≤ s.bbtSlot + 1
  high : s.bbtSlot ≤ slotMax chip
  room : s.bbtFull = false → slotMin chip ≤ s.bbtSlot
  tables : s.bbtChanged = false ∨ s.bbtFull = false → ∀ j, s.bbtSlot < j → j ≤ slotMax chip →
    RelocTable.header (s.part.page j) = validHeader
  newest : s.bbtChanged = false → s.bbtSlot < slotMax chip ∧ s.reloc.header = validHeader ∧
    RelocTable.total (s.part.page (s.bbtSlot + 1)) = s.reloc.total

end Persisted

section Invariant
variable {chip : NandChip} {f : Faults}

theorem findLoop_congr {t t' : RelocTable} (h : SameItems t t') (fuel i block : ℕ) :
    findLoop t' fuel i block = findLoop t fuel i block := by
  induction fuel generalizing i block with
  | zero => rfl
  | succ fuel ih =>
    rw [findLoop, findLoop, h.total]
    by_cases hi : i < t.total
    · rw [if_pos hi, if_pos hi, h.itemFrom i hi, h.itemTo i hi, ih, ih]
    · rw [if_neg hi, if_neg hi]

theorem findRealBlock_congr {t t' : RelocTable} (h : SameItems t t') (block : ℕ) :
    findRealBlock t' block = findRealBlock t block := by
  rw [findRealBlock, findRealBlock, findFuel, findFuel, h.total, findLoop_congr h]

theorem slot_mem {s : Driver} (h : SlotsOk chip s) {j : ℕ} (hj : s.bbtSlot < j)
    (hle : j ≤ slotMax chip) : j ∈ slots chip := by
  have := h.low
  exact (mem_slots chip).mpr ⟨by omega, hle⟩

theorem SlotsOk.step {sure : Prop} {s s' : Driver} (h : SlotsOk chip s)
    (hstep : Step chip f sure s s') : SlotsOk chip s' := by
  have hsafe := hstep.safe h.safe
  cases hstep with
  | @quiet F hsame =>
    refine ⟨hsafe, h.low, h.high, h.room, ?_, ?_⟩
    · intro hor j hj hle
      show RelocTable.header (F.page j) = validHeader
      rw [hsame j (slot_mem h hj hle)]
      exact h.tables hor j hj hle
    · intro hchanged
      obtain ⟨hlt, hheader, htotal⟩ := h.newest hchanged
      refine ⟨hlt, hheader, ?_⟩
      show RelocTable.total (F.page (s.bbtSlot + 1)) = s.reloc.total
      rw [hsame _ (slot_mem h (Nat.lt_succ_self _) hlt)]
      exact htotal
  | @item F block b hsame _ _ _ =>
    refine ⟨hsafe, h.low, h.high, h.room, ?_, fun hchanged => absurd hchanged (by simp)⟩
    intro hor j hj hle
    show RelocTable.header (F.page j) = validHeader
    rw [hsame j (slot_mem h hj hle)]
    exact h.tables (.inr (hor.resolve_left (by simp))) j hj hle
  | erase0 =>
    refine ⟨hsafe, ?_, le_rfl, fun _ => (slotMin_le chip).2, ?_,
      fun hchanged => absurd hchanged (by simp)⟩
    · exact (slotMin_le chip).2.trans (Nat.le_succ _)
    · intro _ j hj hle
      exact absurd (show slotMax chip < j from hj) (by omega)

/-- Where the table is written: within the slots, with tables above. -/
theorem SlotsOk.base {s : Driver} (h : SlotsOk chip s) {F : Part} {slot : ℕ}
    (hbase : SlotBase chip s F slot) : slotMin chip ≤ slot ∧ slot ≤ slotMax chip ∧
      ∀ j, slot < j → j ≤ slotMax chip → RelocTable.header (F.page j) = validHeader := by
  rcases hbase with ⟨hfull, hsame, rfl⟩ | ⟨hfull, -, rfl⟩
  · refine ⟨h.room hfull, h.high, ?_⟩
    intro j hj hle
    rw [hsame j (slot_mem h hj hle)]
    exact h.tables (.inr hfull) j hj hle
  · exact ⟨(slotMin_le chip).2, le_rfl, fun j hj hle => by omega⟩

theorem header_cut (t : RelocTable) :
    RelocTable.header (cut chip.pageSize t) = t.header := by
  have := chip.table_le
  exact fetch_cut t (by omega)

theorem total_cut (t : RelocTable) : RelocTable.total (cut chip.pageSize t) = t.total := by
  have := chip.table_le
  exact fetch_cut t (by omega)

theorem SlotsOk.finalize {s : Driver} (h : SlotsOk chip s)
    (hblank : s.bbtChanged = true → ∀ slot ∈ slots chip, FindsBlank s slot) :
    SlotsOk chip (nandFinalize chip f s).2 := by
  have hspec : Finalized chip f s (nandFinalize chip f s) := nandFinalize_spec s
  generalize nandFinalize chip f s = r at hspec
  cases hspec with
  | unchanged _ => exact h
  | refused _ => exact h
  | notRenewed hchanged hfull _ =>
    refine ⟨⟨h.safe.noZero, h.safe.gmax_lt⟩, h.low, h.high, h.room, ?_, ?_⟩
    · intro hor
      simp [hchanged, hfull] at hor
    · intro hun
      simp [hchanged] at hun
  | @torn F F' slot n hchanged hbase hslot hothers =>
    obtain ⟨hlow, hhigh, htables⟩ := h.base hbase
    refine ⟨⟨h.safe.noZero, h.safe.gmax_lt⟩, ?_, hhigh, fun _ => hlow, ?_, ?_⟩
    · exact hlow.trans (Nat.le_succ _)
    · intro _ j hj hle
      show RelocTable.header (F'.page j) = validHeader
      rw [hothers j (show slot < j from hj).ne']
      exact htables j hj hle
    · intro hun
      simp [hchanged] at hun
  | @written F F' slot hchanged hheader hbase hslot hothers =>
    obtain ⟨hlow, hhigh, htables⟩ := h.base hbase
    have hmem : slot ∈ slots chip := (mem_slots chip).mpr ⟨hlow, hhigh⟩
    rw [hbase.blank hmem (hblank hchanged slot hmem), programmed_blank] at hslot
    have hpos := (slotMin_le chip).1
    have hnext : slot - 1 + 1 = slot := by omega
    refine ⟨⟨h.safe.noZero, h.safe.gmax_lt⟩, ?_, ?_, ?_, ?_, ?_⟩
    · show slotMin chip ≤ slot - 1 + 1
      omega
    · show slot - 1 ≤ slotMax chip
      omega
    · intro hroom
      have hroom' : ¬ slot - 1 < chip.maxPages - nandMaxBbtSlots := by simpa using hroom
      rw [slotMin_eq]
      exact Nat.le_of_not_lt hroom'
    · intro _ j hj hle
      have hj' : slot - 1 < j := hj
      show RelocTable.header (F'.page j) = validHeader
      by_cases heq : j = slot
      · rw [heq, hslot, header_cut]
        exact hheader
      · rw [hothers j heq]
        exact htables j (by omega) hle
    · intro _
      refine ⟨show slot - 1 < slotMax chip by omega, hheader, ?_⟩
      show RelocTable.total (F'.page (slot - 1 + 1)) = s.reloc.total
      rw [hnext, hslot, total_cut]

theorem SlotsOk.call (c : Call) {s : Driver} (h : SlotsOk chip s)
    (hblank : FindsBlank s s.bbtSlot) : SlotsOk chip (call chip f c s).2.2 := by
  refine call_rule (fun _ h => h.safe) (fun _ _ _ h hstep => h.step hstep) c ?_ h
  intro s₁ hpath hs₁
  exact hs₁.finalize fun _ slot hslot => hblank.all.path hslot hpath

theorem relocEntry_lt (chip : NandChip) : relocEntry chip < chip.maxBlocks :=
  (relocEntry_le chip).trans_lt chip.reserve_lt

/-- `nand_init` establishes the invariant, whether it loads a table or makes one. -/
theorem slotsOk_reboot {s : Driver} (hsafe : ∀ q, StopsAt chip s.part q →
    ∀ i < RelocTable.total (s.part.page (q + 1)),
      RelocTable.itemTo (s.part.page (slotMax chip)) i ≠ 0) :
    SlotsOk chip (reboot chip f s).2 := by
  by_cases hpresent : TablePresent chip s.part
  · obtain ⟨q, F, hstops, hpage, heq⟩ := nandInit_of_table (f := f)
      (s := { s with gmaxRelocEntry := nandMaxRelocEntry }) hpresent
    rw [reboot, heq]
    have hlow := hstops.low
    have hhigh := hstops.high
    refine ⟨⟨?_, relocEntry_lt chip⟩, ?_, ?_, ?_, ?_, ?_⟩
    · intro i hi
      show (loadedTable chip s.part q).itemTo i ≠ 0
      rw [itemTo_loadedTable]
      apply hsafe q hstops i
      rwa [← total_loadedTable]
    · unfold loadedDriver
      dsimp only
      split <;> omega
    · unfold loadedDriver
      dsimp only
      split <;> omega
    · unfold loadedDriver
      dsimp only
      intro hroom
      have : ¬ q < slotMin chip := by simpa using hroom
      rw [if_neg this]
      omega
    · intro hor j hj hle
      have hq : ¬ q < slotMin chip := by simpa [loadedDriver] using hor
      have hslot : (loadedDriver chip s.part F q).bbtSlot = q := if_neg hq
      show RelocTable.header (F.page j) = validHeader
      rw [hpage]
      exact hstops.tables j (hslot ▸ hj) hle
    · intro hun
      have hq : ¬ q < slotMin chip := by simpa [loadedDriver] using hun
      have hslot : (loadedDriver chip s.part F q).bbtSlot = q := if_neg hq
      rw [hslot]
      refine ⟨hhigh, ?_, ?_⟩
      · show (loadedTable chip s.part q).header = validHeader
        rw [header_loadedTable]
        exact hstops.tables _ (Nat.lt_succ_self q) hhigh
      · show RelocTable.total (F.page (q + 1)) = (loadedTable chip s.part q).total
        rw [hpage, total_loadedTable]
  · obtain ⟨s₁, hgmax, -, heq⟩ := nandInit_of_no_table (f := f)
      (s := { s with gmaxRelocEntry := nandMaxRelocEntry }) hpresent
    rw [reboot, heq]
    have hreserve := chip.reserve_lt
    have hstart : SlotsOk chip { s₁ with
        reloc := emptyTable, bbtChanged := true, bbtSlot := slotMax chip, bbtFull := false } := by
      refine ⟨⟨?_, ?_⟩, ?_, le_rfl, fun _ => (slotMin_le chip).2, ?_, ?_⟩
      · intro i hi
        exact absurd hi (by simp)
      · show s₁.gmaxRelocEntry < chip.maxBlocks
        rw [hgmax]
        exact hreserve
      · exact (slotMin_le chip).2.trans (Nat.le_succ _)
      · intro _ j hj hle
        exact absurd (show slotMax chip < j from hj) (by omega)
      · intro hun
        simp at hun
    have hpath : Path chip f False _ _ :=
      scanBlocks_path (chip.maxBlocks - s₁.gmaxRelocEntry - 1) 1 hstart.safe
    have hscanned : SlotsOk chip (coreCreateBbt chip f s₁).2 :=
      hpath.invariant (fun _ _ h hstep => h.step hstep) hstart
    exact ⟨⟨hscanned.safe.noZero, relocEntry_lt chip⟩, hscanned.low, hscanned.high, hscanned.room,
      hscanned.tables, hscanned.newest⟩

/-- The invariant holds from the first `nand_init` on. -/
theorem slotsOk_of_run {F : Part} {actions : List Action}
    (hok : (board chip f).Guarded (TablesWhole chip) (powerOff F) (.reboot :: actions)) :
    SlotsOk chip (afterBoot chip f F actions).driver := by
  obtain ⟨hfirst, hrest⟩ := hok
  have hstep : ∀ b a, SlotsOk chip b.driver → TablesWhole chip b a →
      SlotsOk chip ((board chip f).step b a).2.driver := by
    intro b a h hok
    cases a with
    | call c => exact h.call c hok
    | reboot => exact slotsOk_reboot hok
  have hboot : SlotsOk chip ((board chip f).step (powerOff F) .reboot).2.driver :=
    slotsOk_reboot hfirst
  exact @Machine.run_invariant _ _ _ (board chip f) _ (fun b => SlotsOk chip b.driver) hstep
    _ hboot _ hrest

/-- What a successful `nand_finalize` leaves for the next power-on. -/
structure Finished (chip : NandChip) (s s' : Driver) : Prop where
  unchanged : s'.bbtChanged = false
  reloc : s'.reloc = s.reloc
  oldest : s'.part.page (slotMax chip) = oldestPage chip s
  next : slotMin chip ≤ s'.bbtSlot → RelocTable.header (s'.part.page s'.bbtSlot) ≠ validHeader

theorem nandFinalize_ok {s : Driver} (h : SlotsOk chip s)
    (hblank : s.bbtChanged = true → FindsBlank s s.bbtSlot)
    (hfree : NextSlotFree chip s) (hok : (nandFinalize chip f s).1 = 0) :
    Finished chip s (nandFinalize chip f s).2 := by
  have hspec : Finalized chip f s (nandFinalize chip f s) := nandFinalize_spec s
  generalize nandFinalize chip f s = r at hspec hok
  cases hspec with
  | refused _ => simp at hok
  | notRenewed _ _ _ => simp at hok
  | torn _ _ _ _ => simp at hok
  | unchanged hun =>
    refine ⟨hun, rfl, ?_, ?_⟩
    · simp [oldestPage, hun]
    · rcases hfree with ⟨hchanged, -⟩ | hfree
      · simp [hun] at hchanged
      · exact hfree s.bbtSlot (by simp [hun])
  | @written F F' slot hchanged hheader hbase hslot hothers =>
    obtain ⟨hlow, hhigh, -⟩ := h.base hbase
    have hmem : slot ∈ slots chip := (mem_slots chip).mpr ⟨hlow, hhigh⟩
    rw [hbase.blank hmem (hblank hchanged).all, programmed_blank] at hslot
    have hpos := (slotMin_le chip).1
    have hne : slot - 1 ≠ slot := by omega
    refine ⟨rfl, rfl, ?_, ?_⟩
    · show F'.page (slotMax chip) = oldestPage chip s
      rcases hbase with ⟨hfull, hsame, rfl⟩ | ⟨hfull, -, rfl⟩
      · by_cases hmax : s.bbtSlot = slotMax chip
        · rw [oldestPage, if_pos ⟨hchanged, .inr hmax⟩, ← hmax, hslot]
        · rw [oldestPage, if_neg (by simp [hfull, hmax]), hothers _ (Ne.symm hmax)]
          exact hsame _ (slotMax_mem chip)
      · rw [oldestPage, if_pos ⟨hchanged, .inl hfull⟩, hslot]
    · intro hmin
      have hmin' : slotMin chip ≤ slot - 1 := hmin
      have hnext : slot - 1 ∈ slots chip := (mem_slots chip).mpr ⟨hmin', by omega⟩
      show RelocTable.header (F'.page (slot - 1)) ≠ validHeader
      rw [hothers _ hne]
      rcases hbase with ⟨hfull, hsame, rfl⟩ | ⟨-, hall, -⟩
      · rcases hfree with ⟨-, hfull'⟩ | hfree
        · simp [hfull] at hfull'
        · rw [hsame _ hnext]
          exact hfree _ (by simp [hchanged]) hmin'
      · rw [hall _ hnext]
        exact header_blank

/-- With the table written and no other below it, the items come back from the last page. -/
theorem SlotsOk.reboot_reloc {s : Driver} (h : SlotsOk chip s) (hun : s.bbtChanged = false)
    (hfree : slotMin chip ≤ s.bbtSlot → RelocTable.header (s.part.page s.bbtSlot) ≠ validHeader) :
    (reboot chip f s).1 = 0 ∧ (reboot chip f s).2.reloc = loadedTable chip s.part s.bbtSlot := by
  obtain ⟨hlt, -, -⟩ := h.newest hun
  have hstops : StopsAt chip s.part s.bbtSlot := ⟨h.low, hlt, h.tables (.inl hun), hfree⟩
  obtain ⟨q, F, hstops', -, heq⟩ := nandInit_of_table (f := f)
    (s := { s with gmaxRelocEntry := nandMaxRelocEntry }) hstops.present
  have hq : q = s.bbtSlot := hstops'.unique hstops
  rw [reboot, heq, hq]
  exact ⟨rfl, rfl⟩

/-- After a run whose tables find erased slots and that ends in a successful `nand_finalize`,
a power cycle brings the table back exactly if the last page of block 0 lists its items. -/
theorem persisted_iff_oldestListsAll (chip : NandChip) (f : Faults) (F : Part)
    (actions : List Action)
    (hok : (board chip f).Guarded (TablesWhole chip) (powerOff F) (.reboot :: actions))
    (hblank : (afterBoot chip f F actions).driver.bbtChanged = true →
      FindsBlank (afterBoot chip f F actions).driver
        (afterBoot chip f F actions).driver.bbtSlot)
    (hfree : NextSlotFree chip (afterBoot chip f F actions).driver)
    (hdone : (nandFinalize chip f (afterBoot chip f F actions).driver).1 = 0) :
    Persisted chip f (nandFinalize chip f (afterBoot chip f F actions).driver).2 ↔
      OldestListsAll chip (afterBoot chip f F actions).driver := by
  have hrun := slotsOk_of_run hok
  generalize (afterBoot chip f F actions).driver = s at *
  have hend := nandFinalize_ok hrun hblank hfree hdone
  have h : SlotsOk chip (nandFinalize chip f s).2 := 
    hrun.finalize fun hchanged slot _ => (hblank hchanged).all
  unfold OldestListsAll
  rw [← hend.reloc, ← hend.oldest]
  have hun := hend.unchanged
  have hnext := hend.next
  generalize (nandFinalize chip f s).2 = s' at *
  obtain ⟨hstatus, hreloc⟩ := h.reboot_reloc (f := f) hun hnext
  obtain ⟨hlt, hheader, htotal⟩ := h.newest hun
  constructor
  · intro hp i hi
    have hfrom := hp.items.itemFrom i hi
    have hto := hp.items.itemTo i hi
    rw [hreloc] at hfrom hto
    exact ⟨by rw [← hfrom, itemFrom_loadedTable], by rw [← hto, itemTo_loadedTable]⟩
  · intro hlists
    have hsame : SameItems s'.reloc (reboot chip f s').2.reloc := by
      rw [hreloc]
      refine ⟨by rw [total_loadedTable, htotal], ?_, ?_⟩
      · exact fun k hk => by rw [itemFrom_loadedTable, (hlists k hk).1]
      · exact fun k hk => by rw [itemTo_loadedTable, (hlists k hk).2]
    refine ⟨hstatus, ?_, hsame, findRealBlock_congr hsame⟩
    rw [hreloc, header_loadedTable, hheader]
    exact h.tables (.inl hun) _ (Nat.lt_succ_self _) hlt

/-- The board through an erase that fails on block 2: its item is in the first table, and
comes back. -/
theorem persisted_iff_oldestListsAll_wornFaults :
    (afterBoot micron4GbX16 wornFaults freshPart [eraseBlock 2]).driver.reloc.total = 1 ∧
    Persisted micron4GbX16 wornFaults
      (nandFinalize micron4GbX16 wornFaults
        (afterBoot micron4GbX16 wornFaults freshPart [eraseBlock 2]).driver).2 := by
  have hfresh : FewBad micron4GbX16 wornFaults (powerOff freshPart).driver.part := by
    decide +kernel
  have hslot : (reboot micron4GbX16 wornFaults (powerOff freshPart).driver).2.bbtSlot = 63 := by
    decide +kernel
  have hblank : FindsBlank (reboot micron4GbX16 wornFaults (powerOff freshPart).driver).2
      (reboot micron4GbX16 wornFaults (powerOff freshPart).driver).2.bbtSlot := by
    rw [hslot]
    exact findsBlank_reboot (by decide) hfresh (slotMax_mem micron4GbX16) rfl
  have hrun : (board micron4GbX16 wornFaults).Guarded (TablesWhole micron4GbX16)
      (powerOff freshPart) [.reboot, eraseBlock 2] := by
    refine ⟨fun q hstops => ?_, hblank, trivial⟩
    exact absurd hstops.present (by decide)
  have hdone : (afterBoot micron4GbX16 wornFaults freshPart
      [eraseBlock 2]).driver.bbtChanged = false := by decide +kernel
  refine ⟨by decide +kernel, ?_⟩
  refine (persisted_iff_oldestListsAll micron4GbX16 wornFaults freshPart [eraseBlock 2] hrun
    (fun h => absurd (hdone.symm.trans h) (by decide)) (.inr ?_) (by decide +kernel)).mpr ?_
  · intro q hq _
    rw [hq]
    decide +kernel
  · unfold OldestListsAll
    decide +kernel

/-- An item added after the first table was written is lost with the next power cycle. -/
theorem not_persisted_after_second_table :
    (nandFinalize micron4GbX16 wornFaults (afterBoot micron4GbX16 wornFaults freshPart
      [eraseBlock 1, eraseBlock 1]).driver).1 = 0 ∧
    ¬ Persisted micron4GbX16 wornFaults (nandFinalize micron4GbX16 wornFaults
      (afterBoot micron4GbX16 wornFaults freshPart [eraseBlock 1, eraseBlock 1]).driver).2 := by
  constructor
  · decide +kernel
  · intro h
    have hreal := h.realBlocks 1
    have hne : findRealBlock (reboot micron4GbX16 wornFaults (nandFinalize micron4GbX16 wornFaults
          (afterBoot micron4GbX16 wornFaults freshPart
            [eraseBlock 1, eraseBlock 1]).driver).2).2.reloc 1 ≠
        findRealBlock (nandFinalize micron4GbX16 wornFaults
          (afterBoot micron4GbX16 wornFaults freshPart
            [eraseBlock 1, eraseBlock 1]).driver).2.reloc 1 := by decide +kernel
    exact hne hreal

end Invariant
end UBoot.Nand
