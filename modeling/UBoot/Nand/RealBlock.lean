import UBoot.Nand.Relocation

/-!
# Following the relocation table

`__nand_core_find_real_block` starts over at item 1 after each match. On a table whose
targets descend it ends for every block below the reserve, at the end of the chain of
redirections, and different blocks end in different places. Appending an item below the
last target keeps all of this, and redirects exactly the block that is moved.
-/
namespace UBoot.Nand
open ByteStore

namespace RelocTable
variable {chip : NandChip} {limit : ℕ} {t : RelocTable}

theorem TosOk.lt_to (h : TosOk chip limit t) {b : ℕ}
    (hb : b < Nand.lastLeftOff chip t t.total) {i : ℕ} (hi : i < t.total) : b < t.itemTo i := by
  obtain ⟨n, hn⟩ : ∃ n, t.total = n + 1 := ⟨t.total - 1, by omega⟩
  rw [hn, h.lastLeftOff (by omega)] at hb
  rcases Nat.lt_succ_iff_lt_or_eq.mp (hn ▸ hi : i < n + 1) with hlt | rfl
  · exact hb.trans (h.desc i n hlt (by omega))
  · exact hb

theorem TosOk.total_lt (h : TosOk chip limit t) : t.total + 1 < 65536 := by
  have := h.total_le
  have := chip.blocks_lt
  omega

section AddItem
variable {r b : ℕ}

theorem log_extends (h : TosOk chip limit t) (hr : r < chip.maxBlocks) (hb : b < chip.maxBlocks) :
    t.log.Extends (t.addItem r b).log r b := by
  have hlt := h.total_lt
  have hblocks := chip.blocks_lt
  constructor
  · show (t.addItem r b).total = t.total + 1
    rw [total_addItem, Nat.mod_eq_of_lt hlt]
  · intro i hi
    have hi' : i < t.total := hi
    show (t.addItem r b).itemFrom i = t.itemFrom i
    rw [itemFrom_addItem, if_neg (by omega)]
  · intro i hi
    have hi' : i < t.total := hi
    show (t.addItem r b).itemTo i = t.itemTo i
    rw [itemTo_addItem, if_neg (by omega)]
  · show (t.addItem r b).itemFrom t.total = r
    rw [itemFrom_addItem, if_pos rfl, Nat.mod_eq_of_lt (by omega)]
  · show (t.addItem r b).itemTo t.total = b
    rw [itemTo_addItem, if_pos rfl, Nat.mod_eq_of_lt (by omega)]

theorem TosOk.addItem (h : TosOk chip limit t) (hlimit : limit ≤ b)
    (hb : b < Nand.lastLeftOff chip t t.total) : TosOk chip limit (t.addItem r b) := by
  have hbm : b < chip.maxBlocks := hb.trans_le (lastLeftOff_le chip t t.total)
  have hblocks := chip.blocks_lt
  have htotal : (t.addItem r b).total = t.total + 1 := by
    rw [total_addItem, Nat.mod_eq_of_lt h.total_lt]
  have hto : ∀ i, (t.addItem r b).itemTo i = if i = t.total then b else t.itemTo i := by
    intro i
    rw [itemTo_addItem, Nat.mod_eq_of_lt (by omega)]
  constructor
  · intro i hi
    rw [hto]
    split
    · exact hlimit
    · exact h.limit_le i (by omega)
  · intro i hi
    rw [hto]
    split
    · exact hbm
    · exact h.lt_blocks i (by omega)
  · intro i j hij hj
    rw [hto, hto, if_neg (by omega : i ≠ t.total)]
    split
    · exact h.lt_to hb (by omega)
    · exact h.desc i j hij (by omega)

theorem FromsOk.addItem (h : FromsOk limit t) (ht : TosOk chip limit t)
    (hr : r < chip.maxBlocks) (hb : b < chip.maxBlocks) (horigin : r < limit ∨ t.log.Target r)
    (hmoved : ¬ t.log.Moved r) : FromsOk limit (t.addItem r b) := by
  have hext := log_extends ht hr hb
  refine ⟨?_, hext.srcInjective h.inj hmoved⟩
  intro i hi
  have hsize : i < t.total + 1 := hext.size ▸ hi
  have hto : ∀ j < t.total, (t.addItem r b).itemTo j = t.itemTo j := hext.dst_old
  rcases Nat.lt_succ_iff_lt_or_eq.mp hsize with hlt | rfl
  · have hfrom : (t.addItem r b).itemFrom i = t.itemFrom i := hext.src_old i hlt
    rw [hfrom]
    apply (h.origin i hlt).imp id
    intro ⟨j, hj, hto'⟩
    exact ⟨j, hj, by rw [hto j (by omega), hto']⟩
  · have hfrom : (t.addItem r b).itemFrom t.total = r := hext.src_new
    rw [hfrom]
    apply horigin.imp id
    intro ⟨j, hj, hto'⟩
    exact ⟨j, hj, by rw [hto j hj]; exact hto'⟩

end AddItem

theorem FromsOk.moved_lt (h : FromsOk limit t) {b : ℕ} (hb : t.log.Moved b) :
    b < limit ∨ t.log.Target b := by
  obtain ⟨i, hi, rfl⟩ := hb
  apply (h.origin i hi).imp id
  intro ⟨j, hj, hto⟩
  have hi' : i < t.total := hi
  exact ⟨j, show j < t.total by omega, hto⟩

/-- What each round keeps holds of the block where the loop ends. -/
theorem findLoop_invariant {P : ℕ → ℕ → Prop}
    (hmatch : ∀ i < t.total, P i (t.itemFrom i) → P 1 (t.itemTo i))
    (hnext : ∀ i block, t.itemFrom i ≠ block → P i block → P (i + 1) block)
    {fuel i block e : ℕ} (h : findLoop t fuel i block = some e) (hP : P i block) :
    ∃ j, t.total ≤ j ∧ P j e := by
  induction fuel generalizing i block with
  | zero => simp [findLoop] at h
  | succ fuel ih =>
    rw [findLoop] at h
    split at h
    · rename_i hi
      split at h
      · rename_i hfrom
        subst hfrom
        exact ih h (hmatch i hi hP)
      · rename_i hfrom
        exact ih h (hnext i block hfrom hP)
    · rename_i hi
      rw [← Option.some.inj h]
      exact ⟨i, Nat.le_of_not_lt hi, hP⟩

theorem findLoop_walk {fuel i block m a e : ℕ} (h : findLoop t fuel i block = some e)
    (hw : t.log.Walk m a block) : ∃ n, t.log.Walk n a e := by
  obtain ⟨-, -, hend⟩ := findLoop_invariant (P := fun _ block => ∃ n, t.log.Walk n a block)
    (fun i hi ⟨n, hn⟩ => ⟨n + 1, hn.snoc ⟨i, hi, rfl, rfl⟩⟩) (fun _ _ _ hn => hn) h ⟨m, hw⟩
  exact hend

/-- The loop ends at a block that no item moves, if item 0 does not move a target. -/
theorem findLoop_not_moved {fuel i block e : ℕ} (h : findLoop t fuel i block = some e)
    (h0 : ¬ t.log.Target (t.itemFrom 0)) (hscan : ∀ j < i, t.itemFrom j ≠ block) :
    ¬ t.log.Moved e := by
  obtain ⟨k, hk, hend⟩ := findLoop_invariant (P := fun i block => ∀ j < i, t.itemFrom j ≠ block)
    (fun i hi _ j hj he => by
      obtain rfl : j = 0 := by omega
      exact h0 ⟨i, hi, he.symm⟩)
    (fun i block hfrom hscan j hj => by
      rcases Nat.lt_succ_iff_lt_or_eq.mp hj with hlt | rfl
      · exact hscan j hlt
      · exact hfrom) h hscan
  intro ⟨j, hj, he⟩
  have hj' : j < t.total := hj
  exact hend j (by omega) he

/-- From a start outside the targets every match uses a new item, so the loop ends. -/
theorem findLoop_isSome (hd : t.log.DstInjective) {fuel i block m a : ℕ}
    (ha : ¬ t.log.Target a) (hw : t.log.Walk m a block) (hi : i ≤ t.total)
    (hfuel : (t.total - m) * (t.total + 1) + (t.total - i) < fuel) :
    (findLoop t fuel i block).isSome := by
  induction fuel generalizing i block m with
  | zero => omega
  | succ fuel ih =>
    rw [findLoop]
    split
    · rename_i hlt
      split
      · rename_i hfrom
        have hw' := hw.snoc ⟨i, hlt, hfrom, rfl⟩
        have hm : m + 1 ≤ t.total := hw'.length_le hd ha
        apply ih hw' (by omega)
        obtain ⟨k, hk⟩ : ∃ k, t.total - m = k + 1 := ⟨t.total - m - 1, by omega⟩
        have hk' : t.total - (m + 1) = k := by omega
        rw [hk, Nat.add_mul] at hfuel
        rw [hk']
        omega
      · exact ih hw (by omega) (by omega)
    · rfl

/-- The search ends for a block that a walk from outside the targets comes to. -/
theorem findRealBlock_of_walk (hd : t.log.DstInjective) {m a b : ℕ} (ha : ¬ t.log.Target a)
    (hw : t.log.Walk m a b) : findLoop t (findFuel t) 0 b = some (findRealBlock t b) := by
  have hsome : (findLoop t (findFuel t) 0 b).isSome := by
    apply findLoop_isSome hd ha hw (Nat.zero_le _)
    have hle : (t.total - m) * (t.total + 1) ≤ t.total * (t.total + 1) :=
      Nat.mul_le_mul_right _ (Nat.sub_le _ _)
    have hfuel : findFuel t = t.total * (t.total + 1) + (t.total + 1) := by
      rw [findFuel, Nat.add_mul, Nat.one_mul]
    omega
  obtain ⟨e, he⟩ := Option.isSome_iff_exists.mp hsome
  rw [findRealBlock, he, Option.getD_some]

/-- The search for the real block of a block that is no target ends. -/
theorem findRealBlock_spec (hd : t.log.DstInjective) {b : ℕ} (hb : ¬ t.log.Target b) :
    findLoop t (findFuel t) 0 b = some (findRealBlock t b) ∧
      ∃ n, t.log.Walk n b (findRealBlock t b) := by
  have he := findRealBlock_of_walk hd hb (.nil b)
  exact ⟨he, findLoop_walk he (.nil b)⟩

/-- Every target is reached from a block below the reserve: its item moves such a block, or
the target of an item before it. -/
theorem target_reached (ht : TosOk chip limit t) (hf : FromsOk limit t) {i : ℕ}
    (hi : i < t.total) : ∃ a m, ¬ t.log.Target a ∧ t.log.Walk m a (t.itemTo i) := by
  induction i using Nat.strong_induction_on with
  | _ i ih =>
    have hstep : t.log.Step (t.itemFrom i) (t.itemTo i) := ⟨i, hi, rfl, rfl⟩
    rcases hf.origin i hi with hlow | ⟨j, hj, hto⟩
    · exact ⟨t.itemFrom i, 1, ht.not_target hlow, (RedirectLog.Walk.nil _).snoc hstep⟩
    · obtain ⟨a, m, ha, hw⟩ := ih j hj (by omega)
      rw [hto] at hw
      exact ⟨a, m + 1, ha, hw.snoc hstep⟩

/-- The search ends for every block: a target lies on a walk from a block that is none. -/
theorem findRealBlock_total (ht : TosOk chip limit t) (hf : FromsOk limit t) (b : ℕ) :
    findLoop t (findFuel t) 0 b = some (findRealBlock t b) := by
  by_cases hb : t.log.Target b
  · obtain ⟨i, hi, hto⟩ := hb
    obtain ⟨a, m, ha, hw⟩ := target_reached ht hf hi
    have hto' : t.itemTo i = b := hto
    rw [hto'] at hw
    exact findRealBlock_of_walk ht.dstInjective ha hw
  · exact (findRealBlock_spec ht.dstInjective hb).1

/-- What `__nand_core_find_real_block` returns: the end of the redirections. -/
theorem findRealBlock_ends (ht : TosOk chip limit t) (hf : FromsOk limit t) (b : ℕ) :
    t.log.Ends b (findRealBlock t b) := by
  have he := findRealBlock_total ht hf b
  refine ⟨findLoop_walk he (.nil b), ?_⟩
  rcases Nat.eq_zero_or_pos t.total with h0 | hpos
  · intro hm
    obtain ⟨i, hi, -⟩ := hm
    have : i < t.total := hi
    omega
  · apply findLoop_not_moved he
    · apply ht.not_target
      apply (hf.origin 0 hpos).resolve_right
      exact fun hj => absurd hj.choose_spec.1 (Nat.not_lt_zero _)
    · exact fun j hj => absurd hj (Nat.not_lt_zero j)

/-- Different blocks below the reserve have different real blocks. -/
theorem findRealBlock_injective (ht : TosOk chip limit t) {b c : ℕ} (hb : b < limit)
    (hc : c < limit) (h : findRealBlock t b = findRealBlock t c) : b = c := by
  obtain ⟨-, m, hm⟩ := findRealBlock_spec ht.dstInjective (ht.not_target hb)
  obtain ⟨-, n, hn⟩ := findRealBlock_spec ht.dstInjective (ht.not_target hc)
  rw [h] at hm
  exact (hm.start_unique ht.dstInjective hn (ht.not_target hb) (ht.not_target hc)).1

/-- From an item that moves the block on, the loop ends at a target. -/
theorem findLoop_target {fuel i block e : ℕ} (h : findLoop t fuel i block = some e)
    (hj : t.log.Target block ∨ ∃ j < t.total, i ≤ j ∧ t.itemFrom j = block) :
    t.log.Target e := by
  obtain ⟨k, hk, hend⟩ := findLoop_invariant
    (P := fun i block => t.log.Target block ∨ ∃ j < t.total, i ≤ j ∧ t.itemFrom j = block)
    (fun i hi _ => .inl ⟨i, hi, rfl⟩)
    (fun i block hfrom hj => hj.imp id fun ⟨j, hlt, hij, heq⟩ => by
      rcases Nat.eq_or_lt_of_le hij with rfl | hij
      · exact absurd heq hfrom
      · exact ⟨j, hlt, hij, heq⟩) h hj
  rcases hend with htarget | ⟨j, hlt, hij, -⟩
  · exact htarget
  · omega

/-- A block that some item moves has a target for its real block. -/
theorem findRealBlock_target (hd : t.log.DstInjective) {b : ℕ} (hb : ¬ t.log.Target b)
    (hmoved : t.log.Moved b) : t.log.Target (findRealBlock t b) := by
  obtain ⟨j, hj, hfrom⟩ := hmoved
  exact findLoop_target (findRealBlock_spec hd hb).1 (.inr ⟨j, hj, Nat.zero_le j, hfrom⟩)

/-- A real block is the block itself or the target of an item. -/
theorem findRealBlock_eq_or_target (ht : TosOk chip limit t) {b : ℕ} (hb : b < limit) :
    findRealBlock t b = b ∨ t.log.Target (findRealBlock t b) := by
  obtain ⟨-, n, hn⟩ := findRealBlock_spec ht.dstInjective (ht.not_target hb)
  cases n with
  | zero =>
    left
    generalize findRealBlock t b = e at hn
    cases hn
    rfl
  | succ n => exact .inr hn.target_of_pos

/-- Moving the real block `r` to a fresh reserve block moves what ended there. -/
theorem findRealBlock_addItem (ht : TosOk chip limit t) (hf : FromsOk limit t) {r b c : ℕ}
    (hr : r < chip.maxBlocks) (hlimit : limit ≤ b)
    (hb : b < Nand.lastLeftOff chip t t.total) (horigin : r < limit ∨ t.log.Target r)
    (hmoved : ¬ t.log.Moved r) :
    findRealBlock (t.addItem r b) c = if findRealBlock t c = r then b else findRealBlock t c := by
  have hbm : b < chip.maxBlocks := hb.trans_le (lastLeftOff_le chip t t.total)
  have hext := log_extends ht hr hbm
  have ht' : TosOk chip limit (t.addItem r b) := ht.addItem hlimit hb
  have hf' : FromsOk limit (t.addItem r b) := hf.addItem ht hr hbm horigin hmoved
  have hfresh : ¬ t.log.Target b := by
    intro ⟨i, hi, hto⟩
    have := ht.lt_to hb hi
    have : t.itemTo i = b := hto
    omega
  have hbr : b ≠ r := by
    rcases horigin with h | h
    · omega
    · exact fun he => hfresh (he ▸ h)
  have hbmoved : ¬ t.log.Moved b := by
    intro h
    rcases hf.moved_lt h with h | h
    · omega
    · exact hfresh h
  have hends := hext.ends hbmoved hbr (findRealBlock_ends ht hf c)
  exact (findRealBlock_ends ht' hf' c).unique hf'.inj hends

end RelocTable
end UBoot.Nand
