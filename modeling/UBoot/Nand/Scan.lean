import UBoot.Nand.Slots

/-!
# The scan for factory bad blocks

`__nand_core_create_bbt` runs with the reserve of 127 blocks that is in force at power-on
and looks at the blocks below it. If no more blocks are bad than the smaller reserve
computed afterwards has room for, the targets it hands out lie in that smaller reserve:
every block it passes on its way down is a bad one.
-/
namespace UBoot.Nand
open ByteStore

section EmptyTable

@[simp] theorem header_emptyTable : emptyTable.header = validHeader := by
  rw [RelocTable.header, emptyTable, fetch_store16_of_disjoint _ (by omega), fetch_store16]
  rfl

@[simp] theorem total_emptyTable : emptyTable.total = 0 := by
  rw [RelocTable.total, emptyTable, fetch_store16]

end EmptyTable

theorem relocEntry_le (chip : NandChip) : relocEntry chip ≤ nandMaxRelocEntry :=
  Nat.min_le_right _ _

section Scan
variable {chip : NandChip} {f : Faults}

theorem scanBlocks_path {sure : Prop} (n i : ℕ) {s : Driver} (hs : Safe chip s) :
    Path chip f sure s (scanBlocks chip f n i s).2 := by
  induction n generalizing i s with
  | zero => exact .refl
  | succ n ih =>
    rw [scanBlocks]
    split
    · exact ih _ hs
    · have hmove : Path chip f sure _ _ := (coreRelocateBlock_path i hs).1
      dsimp only
      split
      · exact hmove
      · exact hmove.trans (ih _ (hmove.safe hs))

/-- The first block of the reserve in force at power-on. -/
def scanLimit (chip : NandChip) : ℕ := chip.maxBlocks - nandMaxRelocEntry

/-- The first block of the reserve in force afterwards. -/
def reserveStart (chip : NandChip) : ℕ := chip.maxBlocks - relocEntry chip

/-- The bad blocks of a part before a scan: those that carry a mark, and those of the
power-on reserve that the driver cannot erase. -/
def badBlocks (chip : NandChip) (f : Faults) (F : Part) : Finset ℕ :=
  (Finset.range chip.maxBlocks).filter fun b =>
    1 ≤ b ∧ (F.check chip b ≠ 0 ∨ scanLimit chip ≤ b ∧ Rejected chip f F b)

/-- Each block below `i` found bad has an item that sends it to a block found good. -/
def Relocated (chip : NandChip) (F : Part) (i : ℕ) (t : RelocTable) : Prop :=
  ∀ b, 1 ≤ b → b < i → F.check chip b ≠ 0 →
    ∃ k < t.total, t.itemFrom k = b ∧ F.check chip (t.itemTo k) = 0

/-- Items are only appended. -/
structure Grown (t t' : RelocTable) : Prop where
  total_le : t.total ≤ t'.total
  itemFrom : ∀ k < t.total, t'.itemFrom k = t.itemFrom k
  itemTo : ∀ k < t.total, t'.itemTo k = t.itemTo k

theorem Grown.refl (t : RelocTable) : Grown t t := ⟨le_rfl, fun _ _ => rfl, fun _ _ => rfl⟩

theorem Relocated.grown {F : Part} {i : ℕ} {t t' : RelocTable} (h : Relocated chip F i t)
    (hg : Grown t t') : Relocated chip F i t' := by
  intro b hb hi hbad
  obtain ⟨k, hk, hfrom, hgood⟩ := h b hb hi hbad
  have hk' : k < t'.total := by
    have := hg.total_le
    omega
  exact ⟨k, hk', by rw [hg.itemFrom k hk, hfrom], by rw [hg.itemTo k hk, hgood]⟩

theorem RelocTable.TosOk.grown {limit r b : ℕ} {t : RelocTable} (h : TosOk chip limit t)
    (hr : r < chip.maxBlocks) (hb : b < chip.maxBlocks) : Grown t (t.addItem r b) := by
  have hext := RelocTable.log_extends h hr hb
  refine ⟨?_, hext.src_old, hext.dst_old⟩
  have : (t.addItem r b).total = t.total + 1 := hext.size
  omega

/-- The scan before block `i`: what is left of `F₀`, and how far down it has come. -/
structure ScanInv (chip : NandChip) (f : Faults) (F₀ : Part) (i : ℕ) (s : Driver) : Prop where
  header : s.reloc.header = validHeader
  gmax : s.gmaxRelocEntry = nandMaxRelocEntry
  tos : s.reloc.TosOk chip (scanLimit chip)
  froms : s.reloc.FromsOk (scanLimit chip)
  from_lt : ∀ k < s.reloc.total, s.reloc.itemFrom k < i
  agree : AgreeOn chip (outside chip {b | lastLeftOff chip s.reloc s.reloc.total ≤ b}) F₀ s.part
  above : scanLimit chip ≤ lastLeftOff chip s.reloc s.reloc.total
  room : chip.maxBlocks ≤ lastLeftOff chip s.reloc s.reloc.total +
    (((badBlocks chip f F₀).filter (· < i)).card +
      ((badBlocks chip f F₀).filter (lastLeftOff chip s.reloc s.reloc.total ≤ ·)).card)
  relocated : Relocated chip F₀ i s.reloc

section Step
variable {F₀ : Part} {i : ℕ} {s : Driver}

theorem mem_badBlocks {b : ℕ} : b ∈ badBlocks chip f F₀ ↔ b < chip.maxBlocks ∧ 1 ≤ b ∧
    (F₀.check chip b ≠ 0 ∨ scanLimit chip ≤ b ∧ Rejected chip f F₀ b) := by
  simp [badBlocks]

/-- The blocks below the last target are as they were. -/
theorem ScanInv.check (h : ScanInv chip f F₀ i s) {b : ℕ}
    (hb : b < lastLeftOff chip s.reloc s.reloc.total) :
    s.part.check chip b = F₀.check chip b := by
  have hnot : b ∉ {b | lastLeftOff chip s.reloc s.reloc.total ≤ b} := by
    simpa using hb
  exact h.agree.check (first_mem_outside hnot) (second_mem_outside hnot)

theorem ScanInv.rejected (h : ScanInv chip f F₀ i s) {b : ℕ}
    (hb : b < lastLeftOff chip s.reloc s.reloc.total) :
    Rejected chip f s.part b ↔ Rejected chip f F₀ b := by
  apply h.agree.rejected_iff
  simpa using hb

/-- Blocks passed by the search are bad ones, all below the last target. -/
theorem ScanInv.passed_card (h : ScanInv chip f F₀ i s) {lo : ℕ} (hlo : scanLimit chip ≤ lo)
    (hle : lo ≤ lastLeftOff chip s.reloc s.reloc.total)
    (hrej : ∀ c, lo ≤ c → c < lastLeftOff chip s.reloc s.reloc.total →
      Rejected chip f s.part c) :
    (lastLeftOff chip s.reloc s.reloc.total - lo) +
      ((badBlocks chip f F₀).filter (lastLeftOff chip s.reloc s.reloc.total ≤ ·)).card ≤
      ((badBlocks chip f F₀).filter (lo ≤ ·)).card := by
  set last := lastLeftOff chip s.reloc s.reloc.total with hlast
  have hmax : last ≤ chip.maxBlocks := lastLeftOff_le chip s.reloc s.reloc.total
  have hreserve := chip.reserve_lt
  have hpos : 1 ≤ scanLimit chip := by
    unfold scanLimit
    omega
  have hdisj : Disjoint (Finset.Ico lo last) ((badBlocks chip f F₀).filter (last ≤ ·)) := by
    rw [Finset.disjoint_left]
    intro c hc hc'
    have := (Finset.mem_Ico.mp hc).2
    have := (Finset.mem_filter.mp hc').2
    omega
  have hsub : Finset.Ico lo last ∪ (badBlocks chip f F₀).filter (last ≤ ·) ⊆
      (badBlocks chip f F₀).filter (lo ≤ ·) := by
    intro c hc
    rw [Finset.mem_filter]
    rcases Finset.mem_union.mp hc with hc | hc
    · obtain ⟨hlow, hhigh⟩ := Finset.mem_Ico.mp hc
      have hrej' : Rejected chip f F₀ c := (h.rejected hhigh).mp (hrej c hlow hhigh)
      exact ⟨mem_badBlocks.mpr ⟨by omega, by omega, .inr ⟨by omega, hrej'⟩⟩, hlow⟩
    · obtain ⟨hmem, hge⟩ := Finset.mem_filter.mp hc
      exact ⟨hmem, by omega⟩
  have hcard := Finset.card_le_card hsub
  rwa [Finset.card_union_of_disjoint hdisj, Nat.card_Ico] at hcard

/-- A good block is passed over. -/
theorem ScanInv.skip (h : ScanInv chip f F₀ i s) (hi : i < scanLimit chip)
    (hgood : s.part.check chip i = 0) : ScanInv chip f F₀ (i + 1) s where
  header := h.header
  gmax := h.gmax
  tos := h.tos
  froms := h.froms
  from_lt k hk := (h.from_lt k hk).trans (Nat.lt_succ_self i)
  agree := h.agree
  above := h.above
  room := by
    have hsub : (badBlocks chip f F₀).filter (· < i) ⊆
        (badBlocks chip f F₀).filter (· < i + 1) := by
      intro c hc
      rw [Finset.mem_filter] at hc ⊢
      exact ⟨hc.1, by omega⟩
    have := Finset.card_le_card hsub
    have := h.room
    omega
  relocated b hb hlt hbad := by
    rcases Nat.lt_succ_iff_lt_or_eq.mp hlt with hlt | rfl
    · exact h.relocated b hb hlt hbad
    · have habove := h.above
      rw [h.check (by omega)] at hgood
      exact absurd hgood hbad

/-- The bad block `i` is one more than those below it. -/
theorem card_filter_lt_succ (hi : i ∈ badBlocks chip f F₀) :
    ((badBlocks chip f F₀).filter (· < i + 1)).card =
      ((badBlocks chip f F₀).filter (· < i)).card + 1 := by
  have hset : (badBlocks chip f F₀).filter (· < i + 1) =
      insert i ((badBlocks chip f F₀).filter (· < i)) := by
    ext c
    simp only [Finset.mem_filter, Finset.mem_insert]
    constructor
    · intro ⟨hc, hlt⟩
      rcases Nat.lt_succ_iff_lt_or_eq.mp hlt with hlt | rfl
      · exact .inr ⟨hc, hlt⟩
      · exact .inl rfl
    · intro hc
      rcases hc with rfl | ⟨hc, hlt⟩
      · exact ⟨hi, Nat.lt_succ_self _⟩
      · exact ⟨hc, by omega⟩
  rw [hset, Finset.card_insert_of_notMem]
  simp

theorem ScanInv.bad_mem (h : ScanInv chip f F₀ i s) (hi : i < scanLimit chip) (hpos : 1 ≤ i)
    (hbad : s.part.check chip i ≠ 0) : i ∈ badBlocks chip f F₀ := by
  have habove := h.above
  rw [h.check (by omega)] at hbad
  apply mem_badBlocks.mpr
  refine ⟨?_, hpos, .inl hbad⟩
  unfold scanLimit at hi
  omega

/-- A bad block is sent to a good one. -/
theorem ScanInv.move (h : ScanInv chip f F₀ i s) (hi : i < scanLimit chip) (hpos : 1 ≤ i)
    (hbad : s.part.check chip i ≠ 0) {b : ℕ} {F : Part}
    (hfound : SearchFound chip f (chip.maxBlocks - s.gmaxRelocEntry)
      (lastLeftOff chip s.reloc s.reloc.total) s.part F b) :
    ScanInv chip f F₀ (i + 1)
      { s with part := F, bbtChanged := true, reloc := s.reloc.addItem i b } := by
  have hlimit : scanLimit chip ≤ b := by
    have := hfound.limit_le
    rwa [h.gmax] at this
  have hlt := hfound.lt_start
  have hmax := lastLeftOff_le chip s.reloc s.reloc.total
  have hib : i < chip.maxBlocks := by omega
  have hext := RelocTable.log_extends h.tos hib (b := b) (by omega)
  have htotal : (s.reloc.addItem i b).total = s.reloc.total + 1 := hext.size
  have hlast : lastLeftOff chip (s.reloc.addItem i b) (s.reloc.addItem i b).total = b :=
    lastLeftOff_addItem h.tos.total_lt (by omega)
  have hgrown := h.tos.grown hib (b := b) (by omega)
  have hnotMoved : ¬ s.reloc.log.Moved i := by
    intro ⟨k, hk, hfrom⟩
    have := h.from_lt k hk
    have : s.reloc.itemFrom k = i := hfrom
    omega
  have hpassed := h.passed_card (show scanLimit chip ≤ b + 1 by omega) (by omega) hfound.passed
  constructor
  · simpa using h.header
  · exact h.gmax
  · exact h.tos.addItem hlimit hlt
  · exact h.froms.addItem h.tos hib (by omega) (.inl hi) hnotMoved
  · intro k hk
    have hk' : k < s.reloc.total + 1 := htotal ▸ hk
    show (s.reloc.addItem i b).itemFrom k < i + 1
    rcases Nat.lt_succ_iff_lt_or_eq.mp hk' with hk' | rfl
    · rw [hgrown.itemFrom k hk']
      exact (h.from_lt k hk').trans (Nat.lt_succ_self i)
    · rw [show (s.reloc.addItem i b).itemFrom s.reloc.total = i from hext.src_new]
      exact Nat.lt_succ_self i
  · show AgreeOn chip (outside chip {c | lastLeftOff chip (s.reloc.addItem i b)
      (s.reloc.addItem i b).total ≤ c}) F₀ F
    rw [hlast]
    apply (h.agree.mono _).trans (hfound.agree.mono _)
    · apply outside_mono
      intro c hc
      simp only [Set.mem_ofPred_eq] at hc ⊢
      omega
    · apply outside_mono
      intro c hc
      exact hc.1
  · show scanLimit chip ≤ lastLeftOff chip (s.reloc.addItem i b) (s.reloc.addItem i b).total
    rw [hlast]
    exact hlimit
  · show chip.maxBlocks ≤ lastLeftOff chip (s.reloc.addItem i b) (s.reloc.addItem i b).total + _
    rw [hlast, card_filter_lt_succ (h.bad_mem hi hpos hbad)]
    have hsub : (badBlocks chip f F₀).filter (b + 1 ≤ ·) ⊆
        (badBlocks chip f F₀).filter (b ≤ ·) := by
      intro c hc
      rw [Finset.mem_filter] at hc ⊢
      exact ⟨hc.1, by omega⟩
    have := Finset.card_le_card hsub
    have := h.room
    omega
  · intro c hc hclt hcbad
    rcases Nat.lt_succ_iff_lt_or_eq.mp hclt with hclt | rfl
    · exact h.relocated.grown hgrown c hc hclt hcbad
    · refine ⟨s.reloc.total, ?_, hext.src_new, ?_⟩
      · show s.reloc.total < (s.reloc.addItem c b).total
        omega
      · rw [show (s.reloc.addItem c b).itemTo s.reloc.total = b from hext.dst_new,
          ← h.check hlt]
        exact hfound.good

/-- The power-on reserve is not used up while fewer blocks than it has are bad. -/
theorem ScanInv.not_failed (h : ScanInv chip f F₀ i s) (hi : i < scanLimit chip) (hpos : 1 ≤ i)
    (hbad : s.part.check chip i ≠ 0) (hfew : (badBlocks chip f F₀).card ≤ relocEntry chip)
    {F : Part} (hfailed : SearchFailed chip f (chip.maxBlocks - s.gmaxRelocEntry)
      (lastLeftOff chip s.reloc s.reloc.total) s.part F) : False := by
  have hrejected := hfailed.rejected
  rw [h.gmax] at hrejected
  have hpassed := h.passed_card le_rfl h.above hrejected
  have hsub : (badBlocks chip f F₀).filter (· < i + 1) ∪
      (badBlocks chip f F₀).filter (scanLimit chip ≤ ·) ⊆ badBlocks chip f F₀ :=
    Finset.union_subset (Finset.filter_subset _ _) (Finset.filter_subset _ _)
  have hdisj : Disjoint ((badBlocks chip f F₀).filter (· < i + 1))
      ((badBlocks chip f F₀).filter (scanLimit chip ≤ ·)) := by
    rw [Finset.disjoint_left]
    intro c hc hc'
    have := (Finset.mem_filter.mp hc).2
    have := (Finset.mem_filter.mp hc').2
    omega
  have hcard := Finset.card_le_card hsub
  rw [Finset.card_union_of_disjoint hdisj, card_filter_lt_succ (h.bad_mem hi hpos hbad)] at hcard
  have hroom := h.room
  have habove := h.above
  have hentry := relocEntry_le chip
  have hreserve := chip.reserve_lt
  unfold scanLimit at *
  omega

/-- The scan keeps its invariant up to the power-on reserve. -/
theorem scanBlocks_inv (hfew : (badBlocks chip f F₀).card ≤ relocEntry chip) (n : ℕ)
    (h : ScanInv chip f F₀ i s) (hpos : 1 ≤ i) (hn : i + n ≤ scanLimit chip) :
    ScanInv chip f F₀ (i + n) (scanBlocks chip f n i s).2 := by
  induction n generalizing i s with
  | zero => exact h
  | succ n ih =>
    have hi : i < scanLimit chip := by omega
    rw [scanBlocks, ← Nat.add_assoc, Nat.add_right_comm]
    by_cases hgood : s.part.check chip i = 0
    · rw [if_pos hgood]
      exact ih (h.skip hi hgood) (by omega) (by omega)
    · rw [if_neg hgood]
      have hib : i < chip.maxBlocks := by
        unfold scanLimit at hi
        omega
      have hlast : lastLeftOff chip s.reloc s.reloc.total ≠ 0 := by
        have := h.above
        omega
      rcases coreRelocateBlock_cases (f := f) i hlast with
        ⟨b, F, heq, -, hfound⟩ | ⟨F, heq, hfailed, -⟩
      · rw [heq]
        exact ih (h.move hi hpos hgood hfound) (by omega) (by omega)
      · exact (h.not_failed hi hpos hgood hfew (hfailed hib)).elim

end Step

/-- The table made by the scan lies in the reserve computed afterwards. -/
theorem coreCreateBbt_inv {s : Driver} (hgmax : s.gmaxRelocEntry = nandMaxRelocEntry)
    (hfew : (badBlocks chip f s.part).card ≤ relocEntry chip) :
    ScanInv chip f s.part (scanLimit chip) (coreCreateBbt chip f s).2 ∧
      reserveStart chip ≤ lastLeftOff chip (coreCreateBbt chip f s).2.reloc
        (coreCreateBbt chip f s).2.reloc.total := by
  have hreserve := chip.reserve_lt
  have hlimit : 1 ≤ scanLimit chip ∧ scanLimit chip ≤ chip.maxBlocks := by
    unfold scanLimit
    omega
  have hstart : ScanInv chip f s.part 1 { s with
      reloc := emptyTable, bbtChanged := true, bbtSlot := slotMax chip, bbtFull := false } := by
    have hnone : ∀ {k : ℕ}, ¬ k < emptyTable.total := by simp
    constructor
    · exact header_emptyTable
    · exact hgmax
    · exact ⟨fun k hk => absurd hk hnone, fun k hk => absurd hk hnone,
        fun j k _ hk => absurd hk hnone⟩
    · exact ⟨fun k hk => absurd hk hnone, fun k hk => absurd hk hnone⟩
    · exact fun k hk => absurd hk hnone
    · exact .refl _ _
    · simpa [lastLeftOff] using hlimit.2
    · simp [lastLeftOff]
    · intro b hb hlt
      omega
  have hend := scanBlocks_inv hfew (chip.maxBlocks - s.gmaxRelocEntry - 1) hstart le_rfl (by
    rw [hgmax]
    unfold scanLimit at *
    omega)
  have hcount : 1 + (chip.maxBlocks - s.gmaxRelocEntry - 1) = scanLimit chip := by
    rw [hgmax]
    unfold scanLimit at *
    omega
  rw [hcount] at hend
  refine ⟨hend, ?_⟩
  have hroom := hend.room
  have habove := hend.above
  have hdisj : Disjoint ((badBlocks chip f s.part).filter (· < scanLimit chip))
      ((badBlocks chip f s.part).filter
        (lastLeftOff chip (coreCreateBbt chip f s).2.reloc
          (coreCreateBbt chip f s).2.reloc.total ≤ ·)) := by
    rw [Finset.disjoint_left]
    intro c hc hc'
    have hlow := (Finset.mem_filter.mp hc).2
    have hhigh := (Finset.mem_filter.mp hc').2
    have hle := habove.trans hhigh
    omega
  have hcard := Finset.card_le_card (Finset.union_subset
    (Finset.filter_subset (· < scanLimit chip) (badBlocks chip f s.part))
    (Finset.filter_subset (lastLeftOff chip (coreCreateBbt chip f s).2.reloc
      (coreCreateBbt chip f s).2.reloc.total ≤ ·) (badBlocks chip f s.part)))
  rw [Finset.card_union_of_disjoint hdisj] at hcard
  unfold coreCreateBbt at *
  unfold reserveStart
  omega

/-- Targets that do not go below a bound lie above it. -/
theorem RelocTable.TosOk.raise {limit limit' : ℕ} {t : RelocTable} (h : t.TosOk chip limit)
    (hlast : limit' ≤ Nand.lastLeftOff chip t t.total) : t.TosOk chip limit' where
  limit_le k hk := by
    obtain ⟨n, hn⟩ : ∃ n, t.total = n + 1 := ⟨t.total - 1, by omega⟩
    rw [hn, h.lastLeftOff (by omega)] at hlast
    rcases Nat.lt_succ_iff_lt_or_eq.mp (hn ▸ hk : k < n + 1) with hlt | rfl
    · exact hlast.trans (h.desc k n hlt (by omega)).le
    · exact hlast
  lt_blocks := h.lt_blocks
  desc := h.desc

theorem RelocTable.FromsOk.mono {limit limit' : ℕ} {t : RelocTable} (h : t.FromsOk limit)
    (hle : limit ≤ limit') : t.FromsOk limit' where
  origin i hi := (h.origin i hi).imp (fun hlt => hlt.trans_le hle) id
  inj := h.inj

end Scan
end UBoot.Nand
