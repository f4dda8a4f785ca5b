import UBoot.Nand.Scan

/-!
# The relocation map over whole runs

Once the table was made by a scan, every call keeps its targets descending within the
reserve and its items where they are. A power cycle keeps them if the slots of block 0
agree on the number of items: `__nand_core_load_bbt` takes that number from the newest
slot and the items from the oldest one. The items are all there if the oldest slot was
erased when its table was written.
-/
namespace UBoot.Nand
open ByteStore

section Map
variable (chip : NandChip) (f : Faults)

/-- The relocation map of a driver, for the part as it was at the last scan. User blocks
are those from 1 up to the reserve, and the scan looks at those below `scanLimit`. -/
structure RelocationMap (F₀ : Part) (s : Driver) : Prop where
  returns : ∀ b, 1 ≤ b → b < chip.maxBlocks - s.gmaxRelocEntry →
    (findLoop s.reloc (findFuel s.reloc) 0 b).isSome
  injective : ∀ b c, 1 ≤ b → b < chip.maxBlocks - s.gmaxRelocEntry → 1 ≤ c →
    c < chip.maxBlocks - s.gmaxRelocEntry →
    findRealBlock s.reloc b = findRealBlock s.reloc c → b = c
  distinct : ∀ i < s.reloc.total, ∀ j < s.reloc.total,
    s.reloc.itemTo i = s.reloc.itemTo j → i = j
  inReserve : ∀ i < s.reloc.total,
    chip.maxBlocks - s.gmaxRelocEntry ≤ s.reloc.itemTo i ∧ s.reloc.itemTo i < chip.maxBlocks
  relocated : ∀ b, 1 ≤ b → b < scanLimit chip → F₀.check chip b ≠ 0 →
    (∃ k < s.reloc.total, s.reloc.itemFrom k = b ∧ F₀.check chip (s.reloc.itemTo k) = 0) ∧
    chip.maxBlocks - s.gmaxRelocEntry ≤ findRealBlock s.reloc b
  total_le : s.reloc.total ≤ s.gmaxRelocEntry

/-- The bad blocks fit the reserve. -/
def FewBad (F : Part) : Prop := (badBlocks chip f F).card ≤ relocEntry chip

/-- Every slot that carries a table lists as many relocations as the last page. -/
def SlotsAgree (F : Part) : Prop :=
  ∀ p ∈ slots chip, RelocTable.header (F.page p) = validHeader →
    RelocTable.total (F.page p) = RelocTable.total (F.page (slotMax chip))

instance (F : Part) : Decidable (FewBad chip f F) := inferInstanceAs (Decidable (_ ≤ _))

instance (F : Part) : Decidable (SlotsAgree chip F) :=
  decidable_of_iff (∀ p < chip.maxPages, chip.maxPages - nandMaxBbtSlots ≤ p →
      RelocTable.header (F.page p) = validHeader →
      RelocTable.total (F.page p) = RelocTable.total (F.page (slotMax chip)))
    ⟨fun h p hp => h p hp.2 hp.1, fun h p hlt hle => h p ⟨hle, hlt⟩⟩

/-- A failed program or erase leaves in the last page of block 0 what was there or what was
being written, or bytes that do not pass for a table. -/
structure NoForgery : Prop where
  program : ∀ n old new, RelocTable.header (f.torn (slotMax chip) n old new) = validHeader →
    f.torn (slotMax chip) n old new = old ∨ f.torn (slotMax chip) n old new = new
  erase : ∀ n old, RelocTable.header (f.halfErased (slotMax chip) n old) = validHeader →
    f.halfErased (slotMax chip) n old = old

/-- A table that a call writes to the last page finds it erased; a power cycle finds slots
that agree, or no table and few bad blocks. -/
def SlotsKept (b : Board) : Action → Prop
  | .call _ => FindsBlank b.driver (slotMax chip)
  | .reboot => (TablePresent chip b.driver.part → SlotsAgree chip b.driver.part) ∧
      (¬ TablePresent chip b.driver.part → FewBad chip f b.driver.part)

end Map

section Tables
variable {chip : NandChip} {f : Faults} {F₀ : Part}

theorem Grown.tosOk {limit : ℕ} {t t' : RelocTable} (hg : Grown t t') (h : t'.TosOk chip limit) :
    t.TosOk chip limit where
  limit_le i hi := by
    have := hg.total_le
    rw [← hg.itemTo i hi]
    exact h.limit_le i (by omega)
  lt_blocks i hi := by
    have := hg.total_le
    rw [← hg.itemTo i hi]
    exact h.lt_blocks i (by omega)
  desc i j hij hj := by
    have := hg.total_le
    rw [← hg.itemTo i (by omega), ← hg.itemTo j hj]
    exact h.desc i j hij (by omega)

/-- A table as the driver makes them, after a scan of `F₀`. -/
structure GoodTable (chip : NandChip) (F₀ : Part) (t : RelocTable) : Prop where
  tos : t.TosOk chip (reserveStart chip)
  relocated : Relocated chip F₀ (scanLimit chip) t

/-- Two tables with the same items. -/
structure SameItems (t t' : RelocTable) : Prop where
  total : t'.total = t.total
  itemFrom : ∀ k < t.total, t'.itemFrom k = t.itemFrom k
  itemTo : ∀ k < t.total, t'.itemTo k = t.itemTo k

theorem SameItems.grown {t t' : RelocTable} (h : SameItems t t') : Grown t t' :=
  ⟨h.total.ge, h.itemFrom, h.itemTo⟩

theorem SameItems.symm {t t' : RelocTable} (h : SameItems t t') : SameItems t' t where
  total := h.total.symm
  itemFrom k hk := (h.itemFrom k (h.total ▸ hk)).symm
  itemTo k hk := (h.itemTo k (h.total ▸ hk)).symm

theorem GoodTable.congr {t t' : RelocTable} (h : GoodTable chip F₀ t) (hs : SameItems t t') :
    GoodTable chip F₀ t' where
  tos := hs.symm.grown.tosOk h.tos
  relocated := h.relocated.grown hs.grown

theorem GoodTable.total_le {t : RelocTable} (h : GoodTable chip F₀ t) :
    t.total ≤ relocEntry chip := by
  have := h.tos.total_le
  have := relocEntry_le chip
  have := chip.reserve_lt
  unfold reserveStart at *
  omega

/-- A page has room for the header and for as many items as a reserve can have. -/
theorem sameItems_cut {t : RelocTable} (h : t.total ≤ nandMaxRelocEntry) :
    SameItems t (cut chip.pageSize t) := by
  have hpage := chip.table_le
  have hmax : nandMaxRelocEntry = 127 := rfl
  constructor
  · exact fetch_cut t (by omega)
  · exact fun k hk => fetch_cut t (by omega)
  · exact fun k hk => fetch_cut t (by omega)

theorem GoodTable.cut {t : RelocTable} (h : GoodTable chip F₀ t) :
    GoodTable chip F₀ (Nand.cut chip.pageSize t) :=
  h.congr (sameItems_cut (h.total_le.trans (relocEntry_le chip)))

theorem header_blank : RelocTable.header blank ≠ validHeader := by decide

/-- The driver's table is good, and so is the one in the last page if there is one. -/
structure MapInv (chip : NandChip) (F₀ : Part) (s : Driver) : Prop where
  gmax : s.gmaxRelocEntry = relocEntry chip
  table : GoodTable chip F₀ s.reloc
  oldest : TablePresent chip s.part → GoodTable chip F₀ (s.part.page (slotMax chip))

theorem MapInv.safe {s : Driver} (h : MapInv chip F₀ s) : Safe chip s := by
  have := relocEntry_le chip
  have := chip.reserve_lt
  refine ⟨?_, ?_⟩
  · intro i hi
    have := h.table.tos.limit_le i hi
    unfold reserveStart at *
    omega
  · rw [h.gmax]
    omega

/-- The table in the last page may be replaced by good ones and by what is no table. -/
theorem MapInv.of_oldest {s s' : Driver} (h : MapInv chip F₀ s)
    (hgmax : s'.gmaxRelocEntry = s.gmaxRelocEntry) (htable : GoodTable chip F₀ s'.reloc)
    (hpage : TablePresent chip s'.part → s'.part.page (slotMax chip) = s.part.page (slotMax chip) ∨
      GoodTable chip F₀ (s'.part.page (slotMax chip))) : MapInv chip F₀ s' where
  gmax := hgmax.trans h.gmax
  table := htable
  oldest hpresent := by
    rcases hpage hpresent with heq | hgood
    · rw [heq]
      apply h.oldest
      rw [TablePresent, ← heq]
      exact hpresent
    · exact hgood

/-- Erasing block 0, successfully or not, leaves the old table or none in the last page. -/
theorem SlotsAfterErase.oldest (hforge : NoForgery chip f) {F F' : Part}
    (h : SlotsAfterErase chip f F F') (hpresent : TablePresent chip F') :
    F'.page (slotMax chip) = F.page (slotMax chip) := by
  unfold TablePresent at hpresent
  rcases h (slotMax chip) (slotMax_mem chip) with heq | hblank | ⟨n, hhalf⟩
  · exact heq
  · rw [hblank] at hpresent
    exact absurd hpresent header_blank
  · rw [hhalf] at hpresent ⊢
    exact hforge.erase n _ hpresent

theorem MapInv.step (hforge : NoForgery chip f) {sure : Prop} {s s' : Driver}
    (h : MapInv chip F₀ s) (hstep : Step chip f sure s s') : MapInv chip F₀ s' := by
  cases hstep with
  | quiet hsame => exact h.of_oldest rfl h.table fun _ => .inl (hsame _ (slotMax_mem chip))
  | @item F block b hsame hblock hlimit hlt =>
    have hmax := lastLeftOff_le chip s.reloc s.reloc.total
    have hlimit' : reserveStart chip ≤ b := by rwa [h.gmax] at hlimit
    have htable : GoodTable chip F₀ (s.reloc.addItem block b) :=
      ⟨h.table.tos.addItem hlimit' hlt,
        h.table.relocated.grown (h.table.tos.grown hblock (by omega))⟩
    exact h.of_oldest rfl htable fun _ => .inl (hsame _ (slotMax_mem chip))
  | erase0 =>
    refine h.of_oldest rfl (show GoodTable chip F₀ s.reloc from h.table) ?_
    intro hpresent
    exact .inl ((erase_slots s.part).oldest hforge hpresent)

/-- What the last page holds where the table is written. -/
theorem SlotBase.oldest {s : Driver} {F : Part} {slot : ℕ} (h : SlotBase chip s F slot)
    (hpresent : TablePresent chip F) : F.page (slotMax chip) = s.part.page (slotMax chip) := by
  rcases h with ⟨-, hsame, -⟩ | ⟨-, hblank, -⟩
  · exact hsame _ (slotMax_mem chip)
  · unfold TablePresent at hpresent
    rw [hblank _ (slotMax_mem chip)] at hpresent
    exact absurd hpresent header_blank

theorem MapInv.finalize (hforge : NoForgery chip f) {s : Driver} (h : MapInv chip F₀ s)
    (hblank : FindsBlank s (slotMax chip)) :
    MapInv chip F₀ (nandFinalize chip f s).2 := by
  have hspec : Finalized chip f s (nandFinalize chip f s) := nandFinalize_spec s
  generalize nandFinalize chip f s = r at hspec
  cases hspec with
  | unchanged _ => exact h
  | refused _ => exact h
  | notRenewed _ _ hafter =>
    exact h.of_oldest rfl h.table fun hpresent => .inl (hafter.oldest hforge hpresent)
  | @torn F F' slot n _ hbase hslot hothers =>
    refine h.of_oldest rfl (show GoodTable chip F₀ s.reloc from h.table) ?_
    intro hpresent
    unfold TablePresent at hpresent
    dsimp only at hpresent ⊢
    by_cases hmax : slotMax chip = slot
    · subst hmax
      rw [hslot] at hpresent ⊢
      rcases hforge.program n _ _ hpresent with hold | hnew
      · rw [hold] at hpresent ⊢
        exact .inl (hbase.oldest hpresent)
      · rw [hnew]
        exact .inr h.table.cut
    · rw [hothers _ hmax] at hpresent ⊢
      exact .inl (hbase.oldest hpresent)
  | @written F F' slot _ _ hbase hslot hothers =>
    refine h.of_oldest rfl (show GoodTable chip F₀ s.reloc from h.table) ?_
    intro hpresent
    unfold TablePresent at hpresent
    dsimp only at hpresent ⊢
    by_cases hmax : slotMax chip = slot
    · subst hmax
      rw [hslot, hbase.blank (slotMax_mem chip) hblank, programmed_blank]
      exact .inr h.table.cut
    · rw [hothers _ hmax] at hpresent ⊢
      exact .inl (hbase.oldest hpresent)

theorem MapInv.call (hforge : NoForgery chip f) (c : Call) {s : Driver} (h : MapInv chip F₀ s)
    (hblank : FindsBlank s (slotMax chip)) : MapInv chip F₀ (call chip f c s).2.2 :=
  call_rule (fun _ h => h.safe) (fun _ _ _ h hstep => h.step hforge hstep) c
    (fun _ hpath h => h.finalize hforge (hblank.path (slotMax_mem chip) hpath)) h

/-- Loading a table from slots that agree gives the items of the last page. -/
theorem MapInv.load {s : Driver} (h : MapInv chip F₀ s) (hpresent : TablePresent chip s.part)
    (hagree : SlotsAgree chip s.part) : MapInv chip F₀ (reboot chip f s).2 := by
  obtain ⟨q, F, hstops, hpage, heq⟩ := nandInit_of_table (f := f)
    (s := { s with gmaxRelocEntry := nandMaxRelocEntry }) hpresent
  have hhigh := hstops.high
  have hmem : q + 1 ∈ slots chip := (mem_slots chip).mpr ⟨hstops.low, hhigh⟩
  have htotal := hagree (q + 1) hmem (hstops.tables _ (Nat.lt_succ_self q) hhigh)
  have hsame : SameItems (s.part.page (slotMax chip)) (loadedTable chip s.part q) :=
    ⟨by rw [total_loadedTable, htotal], fun k _ => by simp, fun k _ => by simp⟩
  rw [reboot, heq]
  constructor
  · rfl
  · exact (h.oldest hpresent).congr hsame
  · intro _
    show GoodTable chip F₀ (F.page (slotMax chip))
    rw [hpage]
    exact h.oldest hpresent

/-- A power cycle without a table in the part is a scan of the part as it is. -/
theorem reboot_scan {s : Driver} (hpresent : ¬ TablePresent chip s.part)
    (hfew : FewBad chip f s.part) :
    ∃ s₁ : Driver, AgreeOn chip Set.univ s.part s₁.part ∧
      reboot chip f s = (0, coreCalcRelocEntry chip (coreCreateBbt chip f s₁).2) ∧
      ScanInv chip f s₁.part (scanLimit chip) (coreCreateBbt chip f s₁).2 ∧
      reserveStart chip ≤ lastLeftOff chip (coreCreateBbt chip f s₁).2.reloc
        (coreCreateBbt chip f s₁).2.reloc.total := by
  obtain ⟨s₁, hgmax, hagree, heq⟩ := nandInit_of_no_table (f := f)
    (s := { s with gmaxRelocEntry := nandMaxRelocEntry }) hpresent
  have hbad : badBlocks chip f s₁.part = badBlocks chip f s.part := by
    ext b
    have hcheck := hagree.check (Set.mem_univ (b * chip.maxPages))
      (Set.mem_univ (b * chip.maxPages + 1))
    simp only [mem_badBlocks, Rejected, hcheck, hagree.erases b (Set.mem_univ _)]
  obtain ⟨hscan, hlast⟩ := coreCreateBbt_inv (f := f) hgmax (by rw [hbad]; exact hfew)
  exact ⟨s₁, hagree, heq, hscan, hlast⟩

/-- A scan of few bad blocks keeps out of block 0. -/
theorem reboot_sameSlots {s : Driver} (hpresent : ¬ TablePresent chip s.part)
    (hfew : FewBad chip f s.part) : SameSlots chip s.part (reboot chip f s).2.part := by
  obtain ⟨s₁, hagree, heq, hscan, -⟩ := reboot_scan hpresent hfew
  rw [heq]
  have habove := hscan.above
  have hreserve := chip.reserve_lt
  apply (hagree.sameSlots (Set.subset_univ _)).trans
  apply hscan.agree.sameSlots
  apply slots_subset_outside
  simp only [Set.mem_ofPred_eq]
  unfold scanLimit at habove
  omega

theorem findsBlank_reboot {s : Driver} (hpresent : ¬ TablePresent chip s.part)
    (hfew : FewBad chip f s.part) {slot : ℕ} (hslot : slot ∈ slots chip)
    (hblank : s.part.page slot = blank) : FindsBlank (reboot chip f s).2 slot :=
  fun _ _ => (reboot_sameSlots hpresent hfew slot hslot).trans hblank

/-- A scan of few bad blocks makes a good table. -/
theorem mapInv_create {s : Driver} (hpresent : ¬ TablePresent chip s.part)
    (hfew : FewBad chip f s.part) : MapInv chip s.part (reboot chip f s).2 := by
  obtain ⟨s₁, hagree, heq, hscan, hlast⟩ := reboot_scan hpresent hfew
  have hcheck : ∀ b, s₁.part.check chip b = s.part.check chip b :=
    fun b => hagree.check (Set.mem_univ _) (Set.mem_univ _)
  have hsame := @reboot_sameSlots chip f s hpresent hfew
  rw [heq] at hsame ⊢
  constructor
  · rfl
  · refine ⟨hscan.tos.raise hlast, ?_⟩
    intro b hb hlt hbadb
    rw [← hcheck] at hbadb
    obtain ⟨k, hk, hfrom, hgood⟩ := hscan.relocated b hb hlt hbadb
    exact ⟨k, hk, hfrom, by rw [← hcheck]; exact hgood⟩
  · intro hp
    have hpage := hsame _ (slotMax_mem chip)
    unfold TablePresent at hp hpresent
    exact absurd (hpage ▸ hp) hpresent

/-- What a good table means for the map. -/
theorem MapInv.relocationMap {s : Driver} (h : MapInv chip F₀ s) : RelocationMap chip F₀ s := by
  have hlimit : chip.maxBlocks - s.gmaxRelocEntry = reserveStart chip := by
    rw [h.gmax, reserveStart]
  have htos := h.table.tos
  constructor
  · intro b _ hb
    rw [hlimit] at hb
    have := (RelocTable.findRealBlock_spec htos.dstInjective (htos.not_target hb)).1
    rw [this]
    rfl
  · intro b c _ hb _ hc heq
    rw [hlimit] at hb hc
    exact RelocTable.findRealBlock_injective htos hb hc heq
  · exact htos.dstInjective
  · intro i hi
    rw [hlimit]
    exact ⟨htos.limit_le i hi, htos.lt_blocks i hi⟩
  · intro b hb hlt hbad
    obtain ⟨k, hk, hfrom, hgood⟩ := h.table.relocated b hb hlt hbad
    refine ⟨⟨k, hk, hfrom, hgood⟩, ?_⟩
    rw [hlimit]
    have hle : scanLimit chip ≤ reserveStart chip := by
      have := relocEntry_le chip
      unfold scanLimit reserveStart
      omega
    obtain ⟨i, hi, hto⟩ := RelocTable.findRealBlock_target htos.dstInjective
      (htos.not_target (hlt.trans_le hle)) ⟨k, hk, hfrom⟩
    have := htos.limit_le i hi
    rw [← hto]
    exact this
  · rw [h.gmax]
    exact h.table.total_le

end Tables

section Runs
variable {chip : NandChip} {f : Faults}

theorem MapInv.boardStep (hforge : NoForgery chip f) {b : Board} {a : Action}
    (h : MapInv chip b.lastScan b.driver) (hok : SlotsKept chip f b a) :
    MapInv chip ((board chip f).step b a).2.lastScan ((board chip f).step b a).2.driver := by
  cases a with
  | call c => exact h.call hforge c hok
  | reboot =>
    show MapInv chip (if TablePresent chip b.driver.part then b.lastScan else b.driver.part) _
    split
    · rename_i hpresent
      exact h.load hpresent (hok.1 hpresent)
    · rename_i hpresent
      exact mapInv_create hpresent (hok.2 hpresent)

/-- On every run from a part without a table that finds the last page erased when a table
goes there, and slots that agree at its power cycles, the relocation map stays as it should
be. -/
theorem relocationMap_of_run (chip : NandChip) (f : Faults) (F : Part) (actions : List Action)
    (hforge : NoForgery chip f) (hfresh : ¬ TablePresent chip F)
    (hok : (board chip f).Guarded (SlotsKept chip f) (powerOff F) (.reboot :: actions)) :
    RelocationMap chip (afterBoot chip f F actions).lastScan
      (afterBoot chip f F actions).driver := by
  obtain ⟨hfirst, hrest⟩ := hok
  have hboot : MapInv chip ((board chip f).step (powerOff F) .reboot).2.lastScan
      ((board chip f).step (powerOff F) .reboot).2.driver := by
    have hscan : (if TablePresent chip F then F else F) = F := ite_self F
    have h := mapInv_create (f := f) (s := (powerOff F).driver) hfresh (hfirst.2 hfresh)
    show MapInv chip (if TablePresent chip F then F else F) _
    rw [hscan]
    exact h
  have hstep : ∀ b a, MapInv chip b.lastScan b.driver → SlotsKept chip f b a →
      MapInv chip ((board chip f).step b a).2.lastScan ((board chip f).step b a).2.driver :=
    fun b a h hok => h.boardStep hforge hok
  have hinv : MapInv chip (afterBoot chip f F actions).lastScan
      (afterBoot chip f F actions).driver :=
    @Machine.run_invariant _ _ _ (board chip f) _ (fun b => MapInv chip b.lastScan b.driver) hstep
      _ hboot _ hrest
  exact hinv.relocationMap

/-- A part as delivered, with no bad block. -/
def freshPart : Part := ⟨fun _ => blank, fun _ => 0xFF, fun _ => 0, fun _ => 0, fun _ => 0⟩

/-- The second erase of block 1 and the first of block 2 fail and change nothing. -/
def wornFaults : Faults where
  programFails _ _ := false
  torn _ _ old _ := old
  tornMarker _ _ := 0xFF
  eraseFails b n := (b == 1 && n == 1) || (b == 2 && n == 0)
  halfErased _ _ old := old
  halfErasedMarker _ _ := 0xFF
  eccError _ _ := false

/-- Erase one block of the Micron part. -/
def eraseBlock (b : ℕ) : Action := .call (.erase (b * (64 * 4096)) (64 * 4096))

theorem noForgery_wornFaults (chip : NandChip) : NoForgery chip wornFaults where
  program _ _ _ _ := .inl rfl
  erase _ _ _ := rfl

/-- The board through an erase that fails on block 2 and a power cycle. -/
theorem relocationMap_of_run_wornFaults :
    RelocationMap micron4GbX16
      (afterBoot micron4GbX16 wornFaults freshPart [eraseBlock 2, .reboot]).lastScan
      (afterBoot micron4GbX16 wornFaults freshPart [eraseBlock 2, .reboot]).driver := by
  apply relocationMap_of_run micron4GbX16 wornFaults freshPart [eraseBlock 2, .reboot]
    (noForgery_wornFaults _) (by decide)
  have hboot : FewBad micron4GbX16 wornFaults freshPart := by decide +kernel
  have hslots : SlotsAgree micron4GbX16 (afterBoot micron4GbX16 wornFaults freshPart
      [eraseBlock 2]).driver.part := by decide +kernel
  have hpresent : TablePresent micron4GbX16 (afterBoot micron4GbX16 wornFaults freshPart
      [eraseBlock 2]).driver.part := by decide +kernel
  have hfresh : FewBad micron4GbX16 wornFaults (powerOff freshPart).driver.part := hboot
  have hblank := findsBlank_reboot (by decide) hfresh (slotMax_mem micron4GbX16) rfl
  exact ⟨⟨fun h => absurd h (by decide), fun _ => hboot⟩, hblank,
    ⟨fun _ => hslots, fun h => absurd hpresent h⟩, trivial⟩

/-- A table written twice with an item added in between is read back without that item: no
block is bad, yet after the power cycle an item of the table leads out of the reserve. -/
theorem not_relocationMap_after_second_table :
    FewBad micron4GbX16 wornFaults freshPart ∧ ¬ RelocationMap micron4GbX16
      (afterBoot micron4GbX16 wornFaults freshPart
        [eraseBlock 1, eraseBlock 1, eraseBlock 2, .reboot]).lastScan
      (afterBoot micron4GbX16 wornFaults freshPart
        [eraseBlock 1, eraseBlock 1, eraseBlock 2, .reboot]).driver := by
  constructor
  · decide +kernel
  · intro h
    have hitem : 0 < (afterBoot micron4GbX16 wornFaults freshPart
          [eraseBlock 1, eraseBlock 1, eraseBlock 2, .reboot]).driver.reloc.total ∧
        ¬ (afterBoot micron4GbX16 wornFaults freshPart
          [eraseBlock 1, eraseBlock 1, eraseBlock 2, .reboot]).driver.reloc.itemTo 0 <
          micron4GbX16.maxBlocks := by decide +kernel
    exact hitem.2 (h.inReserve 0 hitem.1).2

end Runs
end UBoot.Nand
