import UBoot.Nand.Oob
import UBoot.Word

/-!
# The layout of the spare bytes

`__nand_info_init` selects one of two layouts for a code of 1 bit and builds one in memory for
the stronger codes, where the positions of a long code run into the list of free areas that
stands behind them. `__nand_core_yaffs2oob` and `__nand_core_oob2yaffs` go through that list
until they have moved all bytes, without looking where it ends.
-/
namespace UBoot.Nand
open ByteStore

/-- `struct nand_ecclayout` as the words it consists of: `eccbytes`, 448 words `eccpos` and 32
pairs `oobfree`. -/
abbrev EccLayout := ℕ → ℕ

namespace EccLayout
variable (l : EccLayout)

def eccbytes : ℕ := l 0
def eccpos (i : ℕ) : ℕ := l (1 + i)
def oobfree (i : ℕ) : ℕ × ℕ := (l (449 + 2 * i), l (450 + 2 * i))

/-- The entries of `oobfree`. -/
def areas : List (ℕ × ℕ) := (List.range 32).map (oobfree l)

/-- An initializer; the words it leaves out are 0. -/
def ofLists (eccbytes : ℕ) (eccpos : List ℕ) (oobfree : List (ℕ × ℕ)) : EccLayout := fun w =>
  if w = 0 then eccbytes
  else if w < 449 then eccpos.getD (w - 1) 0
  else if (w - 449) % 2 = 0 then (oobfree.getD ((w - 449) / 2) (0, 0)).1
  else (oobfree.getD ((w - 449) / 2) (0, 0)).2

end EccLayout

def comip1BitEccLbNandOob : EccLayout :=
  EccLayout.ofLists 12 [8, 9, 10, 24, 25, 26, 40, 41, 42, 56, 57, 58]
    [(11, 13), (27, 13), (43, 13), (59, 5), (2, 6)]

def comip1BitEccSbNandOob : EccLayout :=
  EccLayout.ofLists 6 [8, 9, 10, 11, 12, 13] [(2, 6)]

def nandEcc1Bit : UInt8 := 0
def nandEcc4Bit : UInt8 := 1
def nandEcc8Bit : UInt8 := 2

/-- `eccpos[i] = geccbitstart + i`, wherever that word stands. -/
def setEccpos (l : EccLayout) (geccbitstart geccbitsize : ℕ) : EccLayout :=
  (List.range geccbitsize).foldl (fun l i => Function.update l (1 + i) (geccbitstart + i)) l

/-- The layout for a code of `geccbitsize` bytes. -/
def builtLayout (geccbitstart geccbitsize : ℕ) (sparesize : UInt32) : EccLayout :=
  let l : EccLayout := fun _ => 0
  let l := Function.update l 0 geccbitsize
  let l := Function.update l 449 (geccbitstart + geccbitsize)
  let l := Function.update l 450 (u32 (sparesize.toNat + 2 ^ 32 - (geccbitstart + geccbitsize)))
  setEccpos l geccbitstart geccbitsize

/-- `__nand_info_init`, as far as it decides about the layout; `none` is the division by zero
that ends in `hang`. -/
def nandInfoInit (pagesize sparesize : UInt32) (eccbit : UInt8) : Option (ℤ × EccLayout) :=
  let gsectornum := pagesize.toNat / 512
  if gsectornum = 0 then none
  else if eccbit = nandEcc1Bit then
    if sparesize.toNat > 16 then some (0, comip1BitEccLbNandOob)
    else some (0, comip1BitEccSbNandOob)
  else if eccbit = nandEcc4Bit then
    some (0, builtLayout nand4BitEccSpareStart (nand4BitEccSpareSize * gsectornum) sparesize)
  else if eccbit = nandEcc8Bit then
    some (0, builtLayout nand8BitEccSpareStart (nand8BitEccSpareSize * gsectornum) sparesize)
  else some (-1, fun _ => 0)

/-- The loop of `__nand_core_yaffs2oob`; `none` if it goes beyond the list. -/
def yaffs2oobLoop (yaffsBuf : Mem) (len : ℕ) : List (ℕ × ℕ) → ℕ → Mem → Option Mem
  | areas, totalLen, oobBuf =>
    if totalLen < len then
      match areas with
      | [] => none
      | oobfree :: areas =>
        let copyLen := if len - totalLen > oobfree.2 then oobfree.2 else len - totalLen
        yaffs2oobLoop yaffsBuf len areas (totalLen + copyLen)
          (overlay oobBuf oobfree.1 copyLen (advance yaffsBuf totalLen))
    else some oobBuf

/-- The loop of `__nand_core_oob2yaffs`. -/
def oob2yaffsLoop (oobBuf : Mem) (len : ℕ) : List (ℕ × ℕ) → ℕ → Mem → Option Mem
  | areas, totalLen, yaffsBuf =>
    if totalLen < len then
      match areas with
      | [] => none
      | oobfree :: areas =>
        let copyLen := if len - totalLen > oobfree.2 then oobfree.2 else len - totalLen
        oob2yaffsLoop oobBuf len areas (totalLen + copyLen)
          (overlay yaffsBuf totalLen copyLen (advance oobBuf oobfree.1))
    else some yaffsBuf

/-- The bytes of yaffs come back, both loops end within the list, and nothing is written
outside the spare area, to a position of the code or to the two marker bytes. -/
structure LayoutRight (sparesize : ℕ) (l : EccLayout) (yaffsBuf oobBuf dst : Mem) : Prop where
  roundTrip : ∃ oob yaffs, yaffs2oobLoop yaffsBuf yaffs2SpareSize l.areas 0 oobBuf = some oob ∧
    oob2yaffsLoop oob yaffs2SpareSize l.areas 0 dst = some yaffs ∧
    ∀ j < yaffs2SpareSize, yaffs j = yaffsBuf j
  confined : ∀ oob, yaffs2oobLoop yaffsBuf yaffs2SpareSize l.areas 0 oobBuf = some oob →
    ∀ a, sparesize ≤ a ∨ (∃ i < l.eccbytes, l.eccpos i = a) ∨ a < 2 → oob a = oobBuf a

/-- When the layout is right: the code leaves 28 bytes of the spare area free, and its
positions fit their table. -/
def InfoFits (pagesize sparesize : UInt32) (eccbit : UInt8) : Prop :=
  if eccbit = nandEcc1Bit then 45 ≤ sparesize.toNat
  else if eccbit = nandEcc4Bit then nand4BitEccSpareSize * (pagesize.toNat / 512) ≤ 448 ∧
    nand4BitEccSpareStart + nand4BitEccSpareSize * (pagesize.toNat / 512) + yaffs2SpareSize ≤
      sparesize.toNat
  else nand8BitEccSpareSize * (pagesize.toNat / 512) ≤ 448 ∧
    nand8BitEccSpareStart + nand8BitEccSpareSize * (pagesize.toNat / 512) + yaffs2SpareSize ≤
      sparesize.toNat

instance (pagesize sparesize : UInt32) (eccbit : UInt8) :
    Decidable (InfoFits pagesize sparesize eccbit) :=
  inferInstanceAs (Decidable (ite _ _ (ite _ _ _)))

section Loops
variable {src dst : Mem} {areas : List (ℕ × ℕ)} {total len : ℕ}

/-- The loop lays the bytes out if the list has room for them. -/
theorem yaffs2oobLoop_eq (h : total ≤ len) :
    yaffs2oobLoop src len areas total dst =
      if len ≤ total + room areas then some (scatter src areas total len dst) else none := by
  induction areas generalizing total dst with
  | nil =>
    have hroom : room [] = 0 := rfl
    rw [yaffs2oobLoop, scatter, hroom]
    by_cases hlt : total < len
    · rw [if_pos hlt, if_neg (by omega)]
    · rw [if_neg hlt, if_pos (by omega)]
  | cons area areas ih =>
    have hroom : room (area :: areas) = area.2 + room areas := by
      rw [room, List.map_cons, List.sum_cons, room]
    have hmin : (if len - total > area.2 then area.2 else len - total) =
        min area.2 (len - total) := by
      split <;> omega
    rw [yaffs2oobLoop, scatter, hroom]
    by_cases hlt : total < len
    · rw [if_pos hlt, if_pos hlt]
      dsimp only
      rw [hmin, ih (by omega)]
      refine ite_congr (propext ?_) (fun _ => rfl) fun _ => rfl
      omega
    · rw [if_neg hlt, if_neg hlt, if_pos (by omega)]

theorem yaffs2oobLoop_done (h : len ≤ total) :
    yaffs2oobLoop src len areas total dst = some dst := by
  cases areas <;> rw [yaffs2oobLoop, if_neg (not_lt.mpr h)]

theorem oob2yaffsLoop_done (h : len ≤ total) :
    oob2yaffsLoop src len areas total dst = some dst := by
  cases areas <;> rw [oob2yaffsLoop, if_neg (not_lt.mpr h)]

/-- An area with room for all takes all. -/
theorem yaffs2oobLoop_first {off n : ℕ} (h : len ≤ n) (src dst : Mem) (areas : List (ℕ × ℕ)) :
    yaffs2oobLoop src len ((off, n) :: areas) 0 dst = some (overlay dst off len src) := by
  rcases Nat.eq_zero_or_pos len with rfl | hpos
  · rw [yaffs2oobLoop, if_neg (by omega), overlay_zero]
  · rw [yaffs2oobLoop, if_pos hpos]
    dsimp only
    rw [if_neg (by omega), Nat.sub_zero, Nat.zero_add, yaffs2oobLoop_done le_rfl, advance_zero]

theorem oob2yaffsLoop_first {off n : ℕ} (h : len ≤ n) (src dst : Mem) (areas : List (ℕ × ℕ)) :
    oob2yaffsLoop src len ((off, n) :: areas) 0 dst =
      some (overlay dst 0 len (advance src off)) := by
  rcases Nat.eq_zero_or_pos len with rfl | hpos
  · rw [oob2yaffsLoop, if_neg (by omega), overlay_zero]
  · rw [oob2yaffsLoop, if_pos hpos]
    dsimp only
    rw [if_neg (by omega), Nat.sub_zero, Nat.zero_add, oob2yaffsLoop_done le_rfl]

end Loops

section Layouts
variable {l : EccLayout} {yaffsBuf oobBuf dst : Mem}

theorem EccLayout.areas_cons (l : EccLayout) :
    l.areas = l.oobfree 0 :: (List.range 31).map fun i => l.oobfree (i + 1) := by
  rw [areas, List.range_succ_eq_map, List.map_cons, List.map_map]
  rfl

theorem setEccpos_apply (l : EccLayout) (start n w : ℕ) :
    setEccpos l start n w = if 1 ≤ w ∧ w < 1 + n then start + (w - 1) else l w := by
  induction n with
  | zero =>
    rw [if_neg (by omega)]
    rfl
  | succ n ih =>
    rw [setEccpos, List.range_succ, List.foldl_append, List.foldl_cons, List.foldl_nil,
      ← setEccpos]
    by_cases hw : w = 1 + n
    · rw [hw, Function.update_self, if_pos (by omega), Nat.add_sub_cancel_left]
    · rw [Function.update_of_ne hw, ih]
      exact ite_congr (propext (by omega)) (fun _ => rfl) fun _ => rfl

theorem built_eccbytes (start n : ℕ) (sparesize : UInt32) :
    (builtLayout start n sparesize).eccbytes = n := by
  rw [EccLayout.eccbytes, builtLayout, setEccpos_apply, if_neg (by omega),
    Function.update_of_ne (by decide), Function.update_of_ne (by decide), Function.update_self]

theorem built_eccpos {start n i : ℕ} (h : i < n) (sparesize : UInt32) :
    (builtLayout start n sparesize).eccpos i = start + i := by
  rw [EccLayout.eccpos, builtLayout, setEccpos_apply, if_pos (by omega), Nat.add_sub_cancel_left]

/-- The free area, while the positions fit their table. -/
theorem built_oobfree {n : ℕ} (start : ℕ) (h : n ≤ 448) (sparesize : UInt32) :
    (builtLayout start n sparesize).oobfree 0 =
      (start + n, u32 (sparesize.toNat + 2 ^ 32 - (start + n))) := by
  rw [EccLayout.oobfree, builtLayout, setEccpos_apply, setEccpos_apply, if_neg (by omega),
    if_neg (by omega), Function.update_of_ne (by decide), Function.update_self,
    Function.update_self]

/-- Positions that do not fit stand in place of the free area. -/
theorem built_oobfree_overrun {n : ℕ} (start : ℕ) (h : 450 ≤ n) (sparesize : UInt32) :
    (builtLayout start n sparesize).oobfree 0 = (start + 448, start + 449) := by
  rw [EccLayout.oobfree, builtLayout, setEccpos_apply, setEccpos_apply, if_pos (by omega),
    if_pos (by omega)]

theorem built_rest {n : ℕ} (start : ℕ) (h : n ≤ 448) (sparesize : UInt32) (i : ℕ) :
    (builtLayout start n sparesize).oobfree (i + 1) = (0, 0) := by
  have hzero : ∀ w, 451 ≤ w → builtLayout start n sparesize w = 0 := by
    intro w hw
    rw [builtLayout, setEccpos_apply, if_neg (by omega), Function.update_of_ne (by omega),
      Function.update_of_ne (by omega), Function.update_of_ne (by omega)]
  rw [EccLayout.oobfree, hzero _ (by omega), hzero _ (by omega)]

theorem room_of_rest {off n : ℕ} (hfirst : l.oobfree 0 = (off, n))
    (hrest : ∀ i, l.oobfree (i + 1) = (0, 0)) : room l.areas = n := by
  have hzero : ((List.range 31).map fun i => l.oobfree (i + 1)) = List.replicate 31 (0, 0) := by
    rw [List.map_congr_left fun i _ => hrest i, List.map_const', List.length_range]
  rw [EccLayout.areas_cons, hfirst, hzero, room, List.map_cons, List.sum_cons,
    List.map_replicate, List.sum_replicate, smul_zero, Nat.add_zero]

theorem built_room {n : ℕ} (start : ℕ) (h : n ≤ 448) (sparesize : UInt32) :
    room (builtLayout start n sparesize).areas =
      u32 (sparesize.toNat + 2 ^ 32 - (start + n)) :=
  room_of_rest (built_oobfree start h sparesize) (built_rest start h sparesize)

/-- A first area with room takes the bytes, which may hit what must not be written. -/
theorem not_right_of_first {off n a sparesize : ℕ} (hfirst : l.oobfree 0 = (off, n))
    (hroom : yaffs2SpareSize ≤ n) (hlow : off ≤ a) (hhigh : a < off + yaffs2SpareSize)
    (hbad : sparesize ≤ a ∨ (∃ i < l.eccbytes, l.eccpos i = a) ∨ a < 2) :
    ¬ ∀ yaffsBuf oobBuf dst, LayoutRight sparesize l yaffsBuf oobBuf dst := by
  intro h
  have hright := (h (fun _ => 1) (fun _ => 0) fun _ => 0).confined _
    (by rw [EccLayout.areas_cons, hfirst, yaffs2oobLoop_first hroom]) a hbad
  rw [overlay_of_mem _ _ hlow hhigh] at hright
  exact absurd hright (by decide)

theorem not_right_of_room {sparesize : ℕ} (hroom : room l.areas < yaffs2SpareSize) :
    ¬ ∀ yaffsBuf oobBuf dst, LayoutRight sparesize l yaffsBuf oobBuf dst := by
  intro h
  obtain ⟨oob, yaffs, hlaid, -⟩ := (h (fun _ => 0) (fun _ => 0) fun _ => 0).roundTrip
  rw [yaffs2oobLoop_eq (Nat.zero_le _), if_neg (by omega)] at hlaid
  exact absurd hlaid (by simp)

/-- A layout built for a code behind the two marker bytes. -/
theorem built_right_iff {n : ℕ} (hn : n ≠ 449) (sparesize : UInt32) :
    (∀ yaffsBuf oobBuf dst,
        LayoutRight sparesize.toNat (builtLayout 2 n sparesize) yaffsBuf oobBuf dst) ↔
      n ≤ 448 ∧ 2 + n + yaffs2SpareSize ≤ sparesize.toNat := by
  have hsize : yaffs2SpareSize = 28 := rfl
  have hspare := sparesize.toNat_lt
  rcases Nat.lt_or_ge 448 n with hover | hfits
  · refine iff_of_false ?_ (by omega)
    refine not_right_of_first (a := 450) (built_oobfree_overrun 2 (by omega) sparesize) (by omega)
      le_rfl (by omega) (.inr (.inl ⟨448, ?_, ?_⟩))
    · rw [built_eccbytes]
      exact hover
    · rw [built_eccpos hover]
  have hfirst := built_oobfree 2 hfits sparesize
  rcases Nat.lt_or_ge sparesize.toNat (2 + n) with hsmall | hlarge
  · -- the length of the free area wraps around
    refine iff_of_false ?_ (by omega)
    have hlen : u32 (sparesize.toNat + 2 ^ 32 - (2 + n)) = sparesize.toNat + 2 ^ 32 - (2 + n) :=
      u32_of_lt (by omega)
    rw [hlen] at hfirst
    exact not_right_of_first hfirst (by omega) le_rfl (by omega) (.inl hsmall.le)
  have hlen : u32 (sparesize.toNat + 2 ^ 32 - (2 + n)) = sparesize.toNat - (2 + n) := by
    unfold u32
    omega
  rw [hlen] at hfirst
  rcases Nat.lt_or_ge (sparesize.toNat - (2 + n)) yaffs2SpareSize with hshort | hroom
  · refine iff_of_false (not_right_of_room ?_) (by omega)
    rw [built_room 2 hfits, hlen]
    exact hshort
  · refine iff_of_true (fun yaffsBuf oobBuf dst => ?_) ⟨hfits, by omega⟩
    have hlaid : yaffs2oobLoop yaffsBuf yaffs2SpareSize (builtLayout 2 n sparesize).areas 0 oobBuf =
        some (overlay oobBuf (2 + n) yaffs2SpareSize yaffsBuf) := by
      rw [EccLayout.areas_cons, hfirst, yaffs2oobLoop_first hroom]
    have hback : ∀ oob, oob2yaffsLoop oob yaffs2SpareSize (builtLayout 2 n sparesize).areas 0 dst =
        some (overlay dst 0 yaffs2SpareSize (advance oob (2 + n))) := fun oob => by
      rw [EccLayout.areas_cons, hfirst, oob2yaffsLoop_first hroom]
    refine ⟨⟨_, _, hlaid, hback _, fun j hj => ?_⟩, fun oob hoob a ha => ?_⟩
    · rw [overlay_of_mem _ _ (Nat.zero_le j) (by omega), Nat.sub_zero, advance_apply,
        overlay_add _ _ hj]
    · obtain rfl := Option.some.inj (hlaid.symm.trans hoob)
      refine overlay_of_not_mem _ _ ?_
      rcases ha with ha | ⟨i, hi, rfl⟩ | ha
      · omega
      · rw [built_eccbytes] at hi
        rw [built_eccpos hi]
        omega
      · omega

/-- The bytes that the large layout uses. -/
def LbWritten (a : ℕ) : Prop := 11 ≤ a ∧ a < 24 ∨ 27 ≤ a ∧ a < 40 ∨ 43 ≤ a ∧ a < 45

instance : DecidablePred LbWritten := fun _ => inferInstanceAs (Decidable (_ ∨ _))

theorem lb_areas : ∃ rest, comip1BitEccLbNandOob.areas = (11, 13) :: (27, 13) :: (43, 13) :: rest :=
  ⟨_, rfl⟩

/-- The third area is not used up. -/
theorem lb_laid (yaffsBuf oobBuf : Mem) :
    yaffs2oobLoop yaffsBuf yaffs2SpareSize comip1BitEccLbNandOob.areas 0 oobBuf =
      some (overlay (overlay (overlay oobBuf 11 13 yaffsBuf) 27 13 (advance yaffsBuf 13)) 43 2
        (advance yaffsBuf 26)) := by
  obtain ⟨rest, hareas⟩ := lb_areas
  rw [hareas, yaffs2oobLoop, yaffs2oobLoop, yaffs2oobLoop]
  simp [yaffs2SpareSize, yaffs2oobLoop_done]

theorem lb_collected (oobBuf dst : Mem) :
    oob2yaffsLoop oobBuf yaffs2SpareSize comip1BitEccLbNandOob.areas 0 dst =
      some (overlay (overlay (overlay dst 0 13 (advance oobBuf 11)) 13 13 (advance oobBuf 27)) 26 2
        (advance oobBuf 43)) := by
  obtain ⟨rest, hareas⟩ := lb_areas
  rw [hareas, oob2yaffsLoop, oob2yaffsLoop, oob2yaffsLoop]
  simp [yaffs2SpareSize, oob2yaffsLoop_done]

theorem lb_outside {a : ℕ} (h : ¬ LbWritten a) (yaffsBuf oobBuf : Mem) :
    overlay (overlay (overlay oobBuf 11 13 yaffsBuf) 27 13 (advance yaffsBuf 13)) 43 2
      (advance yaffsBuf 26) a = oobBuf a := by
  unfold LbWritten at h
  rw [overlay_of_not_mem _ _ (by omega), overlay_of_not_mem _ _ (by omega),
    overlay_of_not_mem _ _ (by omega)]

theorem lb_eccpos : ∀ i < comip1BitEccLbNandOob.eccbytes,
    ¬ LbWritten (comip1BitEccLbNandOob.eccpos i) := by
  have hbytes : comip1BitEccLbNandOob.eccbytes = 12 := rfl
  rw [hbytes]
  decide

theorem lb_right_iff (sparesize : ℕ) :
    (∀ yaffsBuf oobBuf dst, LayoutRight sparesize comip1BitEccLbNandOob yaffsBuf oobBuf dst) ↔
      45 ≤ sparesize := by
  constructor
  · intro h
    by_contra hsmall
    have hlast := (h (fun _ => 1) (fun _ => 0) fun _ => 0).confined _ (lb_laid _ _) 44
      (.inl (by omega))
    rw [overlay_of_mem _ _ (by omega) (by omega)] at hlast
    exact absurd hlast (by decide)
  · intro hlarge yaffsBuf oobBuf dst
    refine ⟨⟨_, _, lb_laid _ _, lb_collected _ _, fun j hj => ?_⟩, fun oob hoob a ha => ?_⟩
    · have hsize : yaffs2SpareSize = 28 := rfl
      simp only [overlay, advance]
      split_ifs <;> first | omega | (congr 1; omega)
    · obtain rfl := Option.some.inj ((lb_laid _ _).symm.trans hoob)
      refine lb_outside ?_ _ _
      rcases ha with ha | ⟨i, hi, rfl⟩ | ha
      · unfold LbWritten
        omega
      · exact lb_eccpos i hi
      · unfold LbWritten
        omega

/-- Six free bytes are not enough. -/
theorem sb_room : room comip1BitEccSbNandOob.areas = 6 := by decide +kernel

/-- `ecc_bit` as the table of chips has it. -/
def EccBit.code : EccBit → UInt8
  | .ecc1Bit => nandEcc1Bit
  | .ecc4Bit => nandEcc4Bit
  | .ecc8Bit => nandEcc8Bit

theorem scatter_single {off n len : ℕ} (hpos : 0 < len) (h : len ≤ n) (src dst : Mem) :
    scatter src [(off, n)] 0 len dst = overlay dst off len src := by
  rw [scatter, if_pos hpos]
  dsimp only
  rw [Nat.sub_zero, min_eq_right h, scatter, advance_zero]

theorem gather_single {off n len : ℕ} (hpos : 0 < len) (h : len ≤ n) (src dst : Mem) :
    gather src [(off, n)] 0 len dst = overlay dst 0 len (advance src off) := by
  rw [gather, if_pos hpos]
  dsimp only
  rw [Nat.sub_zero, min_eq_right h, gather]

theorem NandChip.sizes_lt (chip : NandChip) :
    chip.pageSize < 2 ^ 32 ∧ chip.spareSize < 2 ^ 32 := by
  have hblocks : 0 < chip.maxBlocks := (Nat.zero_le _).trans_lt chip.reserve_lt
  have hmax := chip.maxPages_pos
  have hle := Nat.le_mul_of_pos_left (chip.pageSize + chip.spareSize) (Nat.mul_pos hblocks hmax)
  have hlt := chip.bytes_lt
  omega

/-- The one area of a built layout. -/
theorem built_loops {n sparesize : ℕ} (hspare : sparesize < 2 ^ 32) (hn : n ≤ 448)
    (hroom : 2 + n + yaffs2SpareSize ≤ sparesize) (src dst : Mem) :
    yaffs2oobLoop src yaffs2SpareSize (builtLayout 2 n (UInt32.ofNat sparesize)).areas 0 dst =
        some (scatter src [(2 + n, sparesize - (2 + n))] 0 yaffs2SpareSize dst) ∧
      oob2yaffsLoop src yaffs2SpareSize (builtLayout 2 n (UInt32.ofNat sparesize)).areas 0 dst =
        some (gather src [(2 + n, sparesize - (2 + n))] 0 yaffs2SpareSize dst) := by
  have hpos : 0 < yaffs2SpareSize := by decide
  have hfirst := built_oobfree 2 hn (UInt32.ofNat sparesize)
  have hlen : u32 ((UInt32.ofNat sparesize).toNat + 2 ^ 32 - (2 + n)) = sparesize - (2 + n) := by
    rw [UInt32.toNat_ofNat_of_lt' hspare, u32]
    omega
  rw [hlen] at hfirst
  rw [EccLayout.areas_cons, hfirst, yaffs2oobLoop_first (by omega), oob2yaffsLoop_first (by omega),
    scatter_single hpos (by omega), gather_single hpos (by omega)]
  exact ⟨rfl, rfl⟩

/-- Where the layout fits, the loops do what `yaffs2oob` and `oob2yaffs` say. -/
theorem loops_eq {chip : NandChip} {l : EccLayout}
    (hinit : nandInfoInit (UInt32.ofNat chip.pageSize) (UInt32.ofNat chip.spareSize)
      chip.eccBit.code = some (0, l))
    (hfits : InfoFits (UInt32.ofNat chip.pageSize) (UInt32.ofNat chip.spareSize) chip.eccBit.code)
    (src dst : Mem) :
    yaffs2oobLoop src yaffs2SpareSize l.areas 0 dst =
        some (yaffs2oob chip src dst yaffs2SpareSize) ∧
      oob2yaffsLoop src yaffs2SpareSize l.areas 0 dst =
        some (oob2yaffs chip dst src yaffs2SpareSize) := by
  obtain ⟨hpage, hspare⟩ := chip.sizes_lt
  simp only [nandInfoInit, UInt32.toNat_ofNat_of_lt' hpage, UInt32.toNat_ofNat_of_lt' hspare]
    at hinit
  simp only [InfoFits, UInt32.toNat_ofNat_of_lt' hpage, UInt32.toNat_ofNat_of_lt' hspare] at hfits
  rw [if_neg (by have := chip.table_le; omega)] at hinit
  rw [yaffs2oob, oob2yaffs, oobFree]
  cases hecc : chip.eccBit with
  | ecc1Bit =>
    rw [hecc, EccBit.code, if_pos rfl] at hinit hfits
    rw [if_pos (by omega)] at hinit
    obtain rfl : comip1BitEccLbNandOob = l := by simpa using hinit
    rw [lb_laid, lb_collected]
    dsimp only
    rw [if_pos (by omega)]
    simp [scatter, gather, yaffs2SpareSize]
  | ecc4Bit =>
    rw [hecc, EccBit.code, if_neg (by decide), if_pos rfl] at hinit hfits
    obtain rfl : builtLayout _ _ _ = l := by simpa using hinit
    exact built_loops hspare hfits.1 hfits.2 src dst
  | ecc8Bit =>
    rw [hecc, EccBit.code, if_neg (by decide), if_neg (by decide)] at hinit hfits
    rw [if_pos rfl] at hinit
    obtain rfl : builtLayout _ _ _ = l := by simpa using hinit
    exact built_loops hspare hfits.1 hfits.2 src dst

end Layouts

/-- With the layout that `__nand_info_init` leaves, the 28 bytes of yaffs come back and nothing
else is touched if and only if the spare area has room for them. -/
theorem layoutRight_iff {pagesize sparesize : UInt32} {eccbit : UInt8} {l : EccLayout}
    (hinit : nandInfoInit pagesize sparesize eccbit = some (0, l)) :
    (∀ yaffsBuf oobBuf dst, LayoutRight sparesize.toNat l yaffsBuf oobBuf dst) ↔
      InfoFits pagesize sparesize eccbit := by
  simp only [nandInfoInit] at hinit
  unfold InfoFits
  split at hinit
  · exact absurd hinit (by simp)
  split at hinit
  · next hecc =>
    rw [if_pos hecc]
    split at hinit
    · obtain rfl : comip1BitEccLbNandOob = l := by simpa using hinit
      exact lb_right_iff _
    · obtain rfl : comip1BitEccSbNandOob = l := by simpa using hinit
      exact iff_of_false (not_right_of_room (sb_room ▸ by decide)) (by omega)
  split at hinit
  · next hecc hecc4 =>
    obtain rfl : builtLayout _ _ _ = l := by simpa using hinit
    rw [if_neg hecc, if_pos hecc4]
    exact built_right_iff (by rw [nand4BitEccSpareSize]; omega) sparesize
  split at hinit
  · next hecc hecc4 _ =>
    obtain rfl : builtLayout _ _ _ = l := by simpa using hinit
    rw [if_neg hecc, if_neg hecc4]
    exact built_right_iff (by rw [nand8BitEccSpareSize]; omega) sparesize
  · exact absurd hinit (by simp)

/-- The larger of the two chips in the table. -/
theorem micron_layout_right :
    nandInfoInit 4096 224 nandEcc8Bit = some (0, builtLayout 2 104 224) ∧
      ∀ yaffsBuf oobBuf dst, LayoutRight 224 (builtLayout 2 104 224) yaffsBuf oobBuf dst :=
  ⟨rfl, (@layoutRight_iff 4096 224 nandEcc8Bit (builtLayout 2 104 224) rfl).mpr (by decide)⟩

/-- A chip with small pages: the list of the layout has six bytes. -/
theorem small_page_has_no_room : ¬ ∀ (pagesize sparesize : UInt32) (eccbit : UInt8)
    (l : EccLayout), nandInfoInit pagesize sparesize eccbit = some (0, l) →
    ∀ yaffsBuf oobBuf dst, LayoutRight sparesize.toNat l yaffsBuf oobBuf dst := fun hall =>
  not_right_of_room (sb_room ▸ by decide) (hall 512 16 nandEcc1Bit comip1BitEccSbNandOob rfl)

end UBoot.Nand
