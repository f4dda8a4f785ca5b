import UBoot.Library.Redirect
import UBoot.Nand.Chip

/-!
# Relocating bad blocks

The relocation table is a page-size buffer: a header, the number `total` of items, and
the items, all `ushort` fields. `__nand_core_relocate_block` appends an item that sends a
block to a reserve block below the last one used; `__nand_core_find_real_block` follows
the items from the start again after each match.
-/
namespace UBoot.Nand
open ByteStore

def validHeader : ℕ := 0x524E

/-- Store a `ushort`. -/
def store16 (m : Mem) (off v : ℕ) : Mem := overlay m off 2 (digits v)

theorem fetch_store16 (m : Mem) (off v : ℕ) : fetch (store16 m off v) off 2 = v % 65536 := by
  apply fetch_digits
  intro i hi
  exact overlay_add m _ hi

theorem fetch_store16_of_disjoint (m : Mem) {off off' k v : ℕ}
    (h : off + 2 ≤ off' ∨ off' + k ≤ off) : fetch (store16 m off v) off' k = fetch m off' k := by
  apply fetch_congr
  intro i hi
  exact overlay_of_not_mem m _ (by omega)

/-- `struct reloc_table`. -/
abbrev RelocTable := Mem

namespace RelocTable

def header (t : RelocTable) : ℕ := fetch t 0 2
def total (t : RelocTable) : ℕ := fetch t 2 2
def itemFrom (t : RelocTable) (i : ℕ) : ℕ := fetch t (4 + 4 * i) 2
def itemTo (t : RelocTable) (i : ℕ) : ℕ := fetch t (6 + 4 * i) 2

/-- The assignments at the end of `__nand_core_relocate_block`, in their order. -/
def addItem (t : RelocTable) (fromBlock toBlock : ℕ) : RelocTable :=
  let t₁ := store16 t (6 + 4 * total t) toBlock
  let t₂ := store16 t₁ (4 + 4 * total t) fromBlock
  store16 t₂ 2 (total t + 1)

theorem total_lt (t : RelocTable) : t.total < 65536 := fetch_lt t 2 2

section AddItem
variable (t : RelocTable) (fromBlock toBlock : ℕ)

@[simp] theorem header_addItem : (t.addItem fromBlock toBlock).header = t.header := by
  rw [header, addItem, fetch_store16_of_disjoint _ (by omega),
    fetch_store16_of_disjoint _ (by omega), fetch_store16_of_disjoint _ (by omega), header]

theorem total_addItem : (t.addItem fromBlock toBlock).total = (t.total + 1) % 65536 := by
  rw [total, addItem, fetch_store16]

theorem itemFrom_addItem (i : ℕ) : (t.addItem fromBlock toBlock).itemFrom i =
    if i = t.total then fromBlock % 65536 else t.itemFrom i := by
  rw [itemFrom, addItem, fetch_store16_of_disjoint _ (by omega)]
  split
  · rename_i hi
    rw [hi, fetch_store16]
  · rw [fetch_store16_of_disjoint _ (by omega), fetch_store16_of_disjoint _ (by omega), itemFrom]

theorem itemTo_addItem (i : ℕ) : (t.addItem fromBlock toBlock).itemTo i =
    if i = t.total then toBlock % 65536 else t.itemTo i := by
  rw [itemTo, addItem, fetch_store16_of_disjoint _ (by omega),
    fetch_store16_of_disjoint _ (by omega)]
  split
  · rename_i hi
    rw [hi, fetch_store16]
  · rw [fetch_store16_of_disjoint _ (by omega), itemTo]

end AddItem
end RelocTable

/-- The part, and the driver's variables: the table `reloc` of `struct nand_bbt`, whether
it changed since it was last written, the page the next table goes to, whether block 0
must be erased first, and the size of the reserve. -/
structure Driver where
  part : Part
  reloc : RelocTable
  bbtChanged : Bool
  bbtSlot : ℕ
  bbtFull : Bool
  gmaxRelocEntry : ℕ

section Functions
variable (chip : NandChip) (f : Faults)

/-- Where the last relocation left off; the argument is `reloc_num`. -/
def lastLeftOff (t : RelocTable) : ℕ → ℕ
  | 0 => chip.maxBlocks
  | n + 1 => if t.itemTo n > chip.maxBlocks then lastLeftOff t n else t.itemTo n

/-- The loop that looks for a good reserve block below `reloc_block` and not below `limit`,
which is not 0. -/
def searchDown (limit : ℕ) : ℕ → Part → Option ℕ × Part
  | 0, F => (none, F)
  | block + 1, F =>
    if block < limit then (none, F)
    else if F.check chip block ≠ 0 then searchDown limit block F
    else
      let r := F.erase chip f block
      if r.1 = 0 then (some block, r.2) else searchDown limit block r.2

/-- The search from `reloc_block` down; `reloc_block--` takes block 0 to the last `ulong`. -/
def searchReserve (limit start : ℕ) (F : Part) : Option ℕ × Part :=
  searchDown chip f limit (if start = 0 then 2 ^ 32 else start) F

/-- `__nand_core_relocate_block`: the status, the block and the state after it. -/
def coreRelocateBlock (block : ℕ) (s : Driver) : ℤ × ℕ × Driver :=
  if block ≥ chip.maxBlocks then (-1, block, s)
  else
    let start := lastLeftOff chip s.reloc s.reloc.total
    match searchReserve chip f (chip.maxBlocks - s.gmaxRelocEntry) start s.part with
    | (none, F) => (-1, block, { s with part := F })
    | (some relocBlock, F) =>
      (0, relocBlock, { s with
        part := F
        bbtChanged := true
        reloc := s.reloc.addItem block relocBlock })

/-- The loop of `__nand_core_find_real_block` from item `i` on; `none` if it does not end
within the given number of steps. -/
def findLoop (t : RelocTable) : ℕ → ℕ → ℕ → Option ℕ
  | 0, _, _ => none
  | fuel + 1, i, block =>
    if i < t.total then
      if t.itemFrom i = block then findLoop t fuel 1 (t.itemTo i)
      else findLoop t fuel (i + 1) block
    else some block

/-- Steps after which the loop has been in every state it can be in. -/
def findFuel (t : RelocTable) : ℕ := (t.total + 1) * (t.total + 1)

/-- `__nand_core_find_real_block`, for a table on which its loop ends. -/
def findRealBlock (t : RelocTable) (block : ℕ) : ℕ :=
  (findLoop t (findFuel t) 0 block).getD block

/-- Attempt an operation on a block; while it fails, mark the block bad and go on with a
reserve block. If the last item does not lead to block 0, a relocation goes below the last,
so there are at most `maxBlocks`. -/
def retryRelocating (attempt : ℕ → Part → ℤ × Part) : ℕ → ℕ → Driver → ℤ × Driver
  | 0, _, s => (-1, s)
  | fuel + 1, block, s =>
    let r := attempt block s.part
    if r.1 = 0 then (0, { s with part := r.2 })
    else
      let q := coreRelocateBlock chip f block { s with part := r.2.markBad chip f block }
      if q.1 ≠ 0 then (q.1, q.2.2) else retryRelocating attempt fuel q.2.1 q.2.2

/-- `__nand_core_erase`. -/
def coreErase (block : ℕ) (s : Driver) : ℤ × Driver :=
  retryRelocating chip f (fun b F => F.erase chip f b) (chip.maxBlocks + 1)
    (findRealBlock s.reloc block) s

end Functions

section Search
variable {chip : NandChip} {f : Faults}

/-- The search passes over the block: it is marked bad, or its next erase fails. -/
def Rejected (chip : NandChip) (f : Faults) (F : Part) (block : ℕ) : Prop :=
  F.check chip block ≠ 0 ∨ f.eraseFails block (F.erases block) = true

instance (F : Part) (block : ℕ) : Decidable (Rejected chip f F block) :=
  inferInstanceAs (Decidable (_ ∨ _))

theorem first_mem_outside {B : Set ℕ} {b : ℕ} (h : b ∉ B) :
    b * chip.maxPages ∈ outside chip B := by
  simpa [outside] using h

theorem second_mem_outside {B : Set ℕ} {b : ℕ} (h : b ∉ B) :
    b * chip.maxPages + 1 ∈ outside chip B := by
  have hone : 1 < chip.maxPages := by
    have := chip.pages_ge
    omega
  simpa [outside, chip.page_div hone] using h

/-- Blocks left alone are judged as before. -/
theorem AgreeOn.rejected_iff {B : Set ℕ} {F F' : Part} (h : AgreeOn chip (outside chip B) F F')
    {b : ℕ} (hb : b ∉ B) : Rejected chip f F' b ↔ Rejected chip f F b := by
  rw [Rejected, Rejected, h.check (first_mem_outside hb) (second_mem_outside hb),
    h.erases b (first_mem_outside hb)]

/-- The outcome of a search down from `start`, told of the part before it. -/
structure SearchFound (chip : NandChip) (f : Faults) (limit start : ℕ) (F F' : Part)
    (block : ℕ) : Prop where
  limit_le : limit ≤ block
  lt_start : block < start
  good : F.check chip block = 0
  passed : ∀ c, block < c → c < start → Rejected chip f F c
  agree : AgreeOn chip (outside chip {b | block ≤ b ∧ b < start}) F F'
  erased : ∀ p, p / chip.maxPages = block → F'.page p = blank

structure SearchFailed (chip : NandChip) (f : Faults) (limit start : ℕ) (F F' : Part) : Prop where
  rejected : ∀ c, limit ≤ c → c < start → Rejected chip f F c
  agree : AgreeOn chip (outside chip {b | limit ≤ b ∧ b < start}) F F'

/-- One more rejected block above a search. -/
theorem SearchFound.above {limit start : ℕ} {F F₁ F' : Part} {block : ℕ}
    (hrej : Rejected chip f F start) (hag : AgreeOn chip (outside chip {start}) F F₁)
    (h : SearchFound chip f limit start F₁ F' block) :
    SearchFound chip f limit (start + 1) F F' block where
  limit_le := h.limit_le
  lt_start := by have := h.lt_start; omega
  good := by
    have hne : block ∉ ({start} : Set ℕ) := by simpa using h.lt_start.ne
    rw [← h.good, hag.check (first_mem_outside hne) (second_mem_outside hne)]
  passed c hc hlt := by
    rcases Nat.lt_succ_iff_lt_or_eq.mp hlt with hlt | rfl
    · exact (hag.rejected_iff (by simpa using hlt.ne)).mp (h.passed c hc hlt)
    · exact hrej
  agree := by
    apply (hag.mono _).trans (h.agree.mono _)
    · apply outside_mono
      have := h.lt_start
      simp only [Set.singleton_subset_iff, Set.mem_ofPred_eq]
      omega
    · apply outside_mono
      intro b hb
      simp only [Set.mem_ofPred_eq] at hb ⊢
      omega
  erased := h.erased

theorem SearchFailed.above {limit start : ℕ} {F F₁ F' : Part} (hl : limit ≤ start)
    (hrej : Rejected chip f F start) (hag : AgreeOn chip (outside chip {start}) F F₁)
    (h : SearchFailed chip f limit start F₁ F') :
    SearchFailed chip f limit (start + 1) F F' where
  rejected c hc hlt := by
    rcases Nat.lt_succ_iff_lt_or_eq.mp hlt with hlt | rfl
    · exact (hag.rejected_iff (by simpa using hlt.ne)).mp (h.rejected c hc hlt)
    · exact hrej
  agree := by
    apply (hag.mono _).trans (h.agree.mono _)
    · apply outside_mono
      simp only [Set.singleton_subset_iff, Set.mem_ofPred_eq]
      omega
    · apply outside_mono
      intro b hb
      simp only [Set.mem_ofPred_eq] at hb ⊢
      omega

theorem searchDown_spec (limit start : ℕ) (F : Part) :
    match searchDown chip f limit start F with
    | (some block, F') => SearchFound chip f limit start F F' block
    | (none, F') => SearchFailed chip f limit start F F' := by
  induction start generalizing F with
  | zero => exact ⟨fun c _ hc => absurd hc (Nat.not_lt_zero c), .refl _ F⟩
  | succ start ih =>
    rw [searchDown]
    by_cases hlimit : start < limit
    · rw [if_pos hlimit]
      exact ⟨fun c hc hlt => by omega, .refl _ F⟩
    by_cases hcheck : F.check chip start ≠ 0
    · rw [if_neg hlimit, if_pos hcheck]
      have h := ih F
      split at h
      · exact h.above (.inl hcheck) (.refl _ F)
      · exact h.above (by omega) (.inl hcheck) (.refl _ F)
    rw [if_neg hlimit, if_neg hcheck]
    dsimp only
    have hag := erase_agreeOn chip f F start
    by_cases herase : (F.erase chip f start).1 = 0
    · rw [if_pos herase]
      refine ⟨by omega, by omega, by simpa using hcheck, fun c hc hlt => by omega, ?_, ?_⟩
      · apply hag.mono
        apply outside_mono
        simp
      · exact fun p hp => erase_page herase hp
    · rw [if_neg herase]
      have hfail : f.eraseFails start (F.erases start) = true := by
        rw [erase_fst] at herase
        simpa using herase
      have h := ih (F.erase chip f start).2
      split at h
      · exact h.above (.inr hfail) hag
      · exact h.above (by omega) (.inr hfail) hag

theorem searchReserve_spec (limit : ℕ) {start : ℕ} (hstart : start ≠ 0) (F : Part) :
    match searchReserve chip f limit start F with
    | (some block, F') => SearchFound chip f limit start F F' block
    | (none, F') => SearchFailed chip f limit start F F' := by
  rw [searchReserve, if_neg hstart]
  exact searchDown_spec limit start F

end Search

namespace RelocTable
variable {chip : NandChip} {limit : ℕ} {t : RelocTable}

/-- The items of the table, oldest first. -/
def log (t : RelocTable) : RedirectLog ℕ := ⟨t.total, t.itemFrom, t.itemTo⟩

/-- The items use reserve blocks from `limit` on, each below the one before. -/
structure TosOk (chip : NandChip) (limit : ℕ) (t : RelocTable) : Prop where
  limit_le : ∀ i < t.total, limit ≤ t.itemTo i
  lt_blocks : ∀ i < t.total, t.itemTo i < chip.maxBlocks
  desc : ∀ i j, i < j → j < t.total → t.itemTo j < t.itemTo i

/-- Each item moves a block below the reserve or an earlier target, and none twice. -/
structure FromsOk (limit : ℕ) (t : RelocTable) : Prop where
  origin : ∀ i < t.total, t.itemFrom i < limit ∨ ∃ j < i, t.itemTo j = t.itemFrom i
  inj : t.log.SrcInjective

theorem TosOk.dstInjective (h : TosOk chip limit t) : t.log.DstInjective := by
  intro i hi j hj hij
  rcases Nat.lt_trichotomy i j with hlt | heq | hlt
  · exact absurd hij (h.desc i j hlt hj).ne'
  · exact heq
  · exact absurd hij (h.desc j i hlt hi).ne

theorem TosOk.not_target (h : TosOk chip limit t) {b : ℕ} (hb : b < limit) : ¬ t.log.Target b := by
  intro ⟨i, hi, hto⟩
  have := h.limit_le i hi
  have : t.itemTo i = b := hto
  omega

/-- Descending targets leave room for at most as many items as there are reserve blocks. -/
theorem TosOk.to_add_lt (h : TosOk chip limit t) {i : ℕ} (hi : i < t.total) :
    t.itemTo i + i < chip.maxBlocks := by
  induction i with
  | zero => exact h.lt_blocks 0 hi
  | succ i ih =>
    have := ih (by omega)
    have := h.desc i (i + 1) (Nat.lt_succ_self i) hi
    omega

theorem TosOk.total_le (h : TosOk chip limit t) : t.total ≤ chip.maxBlocks - limit := by
  rcases Nat.eq_zero_or_pos t.total with h0 | hpos
  · omega
  · have hlast : t.total - 1 < t.total := by omega
    have := h.to_add_lt hlast
    have := h.limit_le _ hlast
    omega

/-- The last target, or the end of the chip: where the next search starts. -/
theorem TosOk.lastLeftOff (h : TosOk chip limit t) {n : ℕ} (hn : n < t.total) :
    lastLeftOff chip t (n + 1) = t.itemTo n := by
  have := h.lt_blocks n hn
  rw [Nand.lastLeftOff, if_neg (by omega)]

end RelocTable

theorem lastLeftOff_le (chip : NandChip) (t : RelocTable) (n : ℕ) :
    lastLeftOff chip t n ≤ chip.maxBlocks := by
  induction n with
  | zero => exact le_rfl
  | succ n ih =>
    rw [lastLeftOff]
    split
    · exact ih
    · omega

/-- Where no item leads to block 0, the next search starts above it. -/
theorem lastLeftOff_ne_zero (chip : NandChip) {t : RelocTable} {n : ℕ}
    (h : ∀ i < n, t.itemTo i ≠ 0) : lastLeftOff chip t n ≠ 0 := by
  induction n with
  | zero => exact ((Nat.zero_le _).trans_lt chip.reserve_lt).ne'
  | succ n ih =>
    rw [lastLeftOff]
    split
    · exact ih fun i hi => h i (by omega)
    · exact h n (Nat.lt_succ_self n)

theorem RelocTable.TosOk.last_ne_zero {chip : NandChip} {limit : ℕ} {t : RelocTable}
    (h : t.TosOk chip limit) (hlimit : limit ≠ 0) : Nand.lastLeftOff chip t t.total ≠ 0 := by
  apply lastLeftOff_ne_zero
  intro i hi
  have := h.limit_le i hi
  omega

theorem lastLeftOff_addItem {chip : NandChip} {t : RelocTable} {r b : ℕ}
    (ht : t.total + 1 < 65536) (hb : b ≤ chip.maxBlocks) :
    lastLeftOff chip (t.addItem r b) (t.addItem r b).total = b := by
  have hblocks := chip.blocks_lt
  rw [RelocTable.total_addItem, Nat.mod_eq_of_lt ht, lastLeftOff, RelocTable.itemTo_addItem,
    if_pos rfl, Nat.mod_eq_of_lt (by omega), if_neg (by omega)]

section Relocate
variable {chip : NandChip} {f : Faults}

/-- A relocation appends an item for the block found, or stops with the table unchanged. -/
theorem coreRelocateBlock_cases (block : ℕ) {s : Driver}
    (hlast : lastLeftOff chip s.reloc s.reloc.total ≠ 0) :
    (∃ b F, coreRelocateBlock chip f block s = (0, b, { s with
        part := F, bbtChanged := true, reloc := s.reloc.addItem block b }) ∧
      block < chip.maxBlocks ∧
      SearchFound chip f (chip.maxBlocks - s.gmaxRelocEntry)
        (lastLeftOff chip s.reloc s.reloc.total) s.part F b) ∨
    (∃ F, coreRelocateBlock chip f block s = (-1, block, { s with part := F }) ∧
      (block < chip.maxBlocks → SearchFailed chip f (chip.maxBlocks - s.gmaxRelocEntry)
        (lastLeftOff chip s.reloc s.reloc.total) s.part F) ∧
      (chip.maxBlocks ≤ block → F = s.part)) := by
  unfold coreRelocateBlock
  by_cases hblock : block ≥ chip.maxBlocks
  · rw [if_pos hblock]
    exact .inr ⟨s.part, rfl, fun h => absurd h (by omega), fun _ => rfl⟩
  · rw [if_neg hblock]
    have h := @searchReserve_spec chip f (chip.maxBlocks - s.gmaxRelocEntry)
      (lastLeftOff chip s.reloc s.reloc.total) hlast s.part
    dsimp only
    split at h
    · rename_i b F heq
      rw [heq]
      exact .inl ⟨b, F, rfl, by omega, h⟩
    · rename_i F heq
      rw [heq]
      exact .inr ⟨F, rfl, fun _ => h, fun h' => absurd h' hblock⟩

variable {attempt : ℕ → Part → ℤ × Part}

/-- The rule for the retry loops: `I` holds of the block and the state before each attempt,
`J` of the status and the state at the end. -/
theorem retryRelocating_rule {I : ℕ → Driver → Prop} {J : ℤ → Driver → Prop}
    (hdone : ∀ b s, I b s → (attempt b s.part).1 = 0 → J 0 { s with part := (attempt b s.part).2 })
    (hmove : ∀ b s, I b s → (attempt b s.part).1 ≠ 0 → ∀ b' s',
      coreRelocateBlock chip f b { s with part := (attempt b s.part).2.markBad chip f b } =
        (0, b', s') → I b' s')
    (hstop : ∀ b s, I b s → (attempt b s.part).1 ≠ 0 → ∀ st b' s', st ≠ 0 →
      coreRelocateBlock chip f b { s with part := (attempt b s.part).2.markBad chip f b } =
        (st, b', s') → J st s')
    (hfuel : ∀ b s, I b s → J (-1) s) (fuel : ℕ) {b : ℕ} {s : Driver} (h : I b s) :
    J (retryRelocating chip f attempt fuel b s).1 (retryRelocating chip f attempt fuel b s).2 := by
  induction fuel generalizing b s with
  | zero => exact hfuel b s h
  | succ fuel ih =>
    rw [retryRelocating]
    dsimp only
    by_cases hok : (attempt b s.part).1 = 0
    · rw [if_pos hok]
      exact hdone b s h hok
    · rw [if_neg hok]
      by_cases hmoved : (coreRelocateBlock chip f b
          { s with part := (attempt b s.part).2.markBad chip f b }).1 = 0
      · rw [if_neg (not_not.mpr hmoved)]
        exact ih (hmove b s h hok _ _ (by rw [← hmoved]))
      · rw [if_pos hmoved]
        exact hstop b s h hok _ _ _ hmoved rfl

/-- Each relocation goes below the last one: more fuel than that changes nothing. -/
theorem retryRelocating_fuel {fuel b : ℕ} {s : Driver}
    (hgmax : s.gmaxRelocEntry < chip.maxBlocks)
    (hlast : lastLeftOff chip s.reloc s.reloc.total ≠ 0)
    (hfuel : lastLeftOff chip s.reloc s.reloc.total < fuel)
    (htotal : s.reloc.total + lastLeftOff chip s.reloc s.reloc.total < 65535) :
    retryRelocating chip f attempt (fuel + 1) b s = retryRelocating chip f attempt fuel b s := by
  induction fuel generalizing b s with
  | zero => omega
  | succ fuel ih =>
    rw [retryRelocating, retryRelocating]
    dsimp only
    rcases coreRelocateBlock_cases (f := f) (s := { s with
        part := (attempt b s.part).2.markBad chip f b }) b hlast with
      ⟨b', F, heq, -, hfound⟩ | ⟨F, heq, -⟩
    · rw [heq]
      dsimp only at hfound ⊢
      have hlt := hfound.lt_start
      have hlimit := hfound.limit_le
      have hmax := lastLeftOff_le chip s.reloc s.reloc.total
      have hnew : (s.reloc.addItem b b').total = s.reloc.total + 1 := by
        rw [RelocTable.total_addItem, Nat.mod_eq_of_lt (by omega)]
      have hnext : lastLeftOff chip (s.reloc.addItem b b') (s.reloc.addItem b b').total = b' :=
        lastLeftOff_addItem (by omega) (by omega)
      rw [ih (by exact hgmax) (by dsimp only; omega) (by dsimp only; omega) (by dsimp only; omega)]
    · rw [heq]
      simp

end Relocate
end UBoot.Nand
