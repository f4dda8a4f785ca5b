import UBoot.Mmc.Flashex
import UBoot.Mmc.ReadAfterWrite

/-!
# The blocks an erase wipes

`flashex_erase` splits a range at the end of the boot partition, but its second
phase starts at the block number of the first. What a successful erase wipes is
compared with the blocks that `mmc_bwrite` reaches when the same range is written
block by block.
-/
namespace UBoot.Mmc
open ByteStore

/-- A block of a hardware partition lies in the range an erase command named. -/
def Event.Erases (p : PartNum × ℕ) : Event → Prop
  | .erase _ access first last => p.1 = access ∧ first ≤ p.2 ∧ p.2 ≤ last
  | .transfer .. => False

/-- A block of a hardware partition lies in the range of a data transfer. -/
def Event.Transfers (p : PartNum × ℕ) : Event → Prop
  | .transfer _ access blk cnt => p.1 = access ∧ blk ≤ p.2 ∧ p.2 < blk + cnt
  | .erase .. => False

def erasedBlocks (log : List Event) : Set (PartNum × ℕ) := {p | ∃ e ∈ log, e.Erases p}

def transferredBlocks (log : List Event) : Set (PartNum × ℕ) := {p | ∃ e ∈ log, e.Transfers p}

/-- The blocks that hold a byte of `[start, start + len)`. -/
def coveringBlocks (info : Info) (start len : ℕ) : Set ℕ :=
  {b | start < (b + 1) * info.writeBlLen ∧ b * info.writeBlLen < start + len}

/-- What `flashex_erase` erases from the state `w` on. -/
def erasedBy (ans : Answers) (info : Info) (start len : ℕ) (w : World) : Set (PartNum × ℕ) :=
  erasedBlocks (flashexErase ans info start len { w with log := [] }).2.log

/-- What `mmc_bwrite` addresses when block `b` is written on its own and no command fails. -/
def writtenAlone (info : Info) (b : ℕ) (src : Mem) (w : World) : Set (PartNum × ℕ) :=
  transferredBlocks (mmcBwrite (fun _ _ => true) info b 1 src { w with log := [] }).2.log

/-- The blocks `[lo, hi)` of one partition. -/
def blockRange (p : PartNum) (lo hi : ℕ) : Set (PartNum × ℕ) := {q | q.1 = p ∧ lo ≤ q.2 ∧ q.2 < hi}

/-- The blocks `[lo, hi)`, each in its home partition. -/
def homeRange (info : Info) (lo hi : ℕ) : Set (PartNum × ℕ) :=
  {q | q.1 = info.home q.2 ∧ lo ≤ q.2 ∧ q.2 < hi}

/-- The erases that keep to the partitions of the writes: above the boot partition; all
of it inside the first boot partition, when that one is enabled; or from block 0 on a
card that has no boot partition, if the second switch succeeds. -/
def ErasesAsWritten (ans : Answers) (info : Info) (start len : ℕ) (w : World) : Prop :=
  start ≠ 0 ∧ info.bootBlkcnt ≤ start / info.writeBlLen ∨
  start = 0 ∧ blocksUp len info.writeBlLen ≤ info.bootBlkcnt ∧ w.enabledBoot = partBoot1 ∨
  start = 0 ∧ info.bootPartSize = 0 ∧ ans (w.clock + 1) .switch = true

section Phases
variable {ans : Answers} {info : Info}

theorem erasedBlocks_cons (e : Event) (log : List Event) :
    erasedBlocks (e :: log) = {p | e.Erases p} ∪ erasedBlocks log := by
  ext p
  simp [erasedBlocks]

/-- An erase command that succeeds has named its blocks, and nothing else was erased. -/
theorem mmcEraseT_erases {start cnt : ℕ} (w : World) (hc : 0 < cnt)
    (h : start + cnt ≤ info.lba) (hr : (mmcEraseT ans info start cnt w).1 = true) :
    erasedBlocks (mmcEraseT ans info start cnt w).2.log =
      erasedBlocks w.log ∪ blockRange w.access start (start + cnt) := by
  have hfirst := info.argBlock_blockArg (show start < info.lba by omega)
  have hlast := info.argBlock_blockArg (show start + cnt - 1 < info.lba by omega)
  cases h₁ : ans w.clock .eraseGroupStart
  · simp [mmcEraseT, mmcSendCmd, h₁] at hr
  cases h₂ : ans (w.clock + 1) .eraseGroupEnd
  · simp [mmcEraseT, mmcSendCmd, h₁, h₂] at hr
  cases h₃ : ans (w.clock + 1 + 1) .erase
  · simp [mmcEraseT, mmcSendCmd, h₁, h₂, h₃, World.noteErase] at hr
  simp only [mmcEraseT, mmcSendCmd, h₁, h₂, h₃, if_true, World.putBytes, World.noteErase,
    erasedBlocks_cons, Event.Erases, hfirst, hlast]
  rw [Set.union_comm]
  congr 1
  ext p
  simp only [blockRange, Set.mem_ofPred_eq]
  constructor <;> rintro ⟨hp, h₁, h₂⟩ <;> exact ⟨hp, by omega, by omega⟩

theorem blockRange_append (p : PartNum) {lo mid hi : ℕ} (h₁ : lo ≤ mid) (h₂ : mid ≤ hi) :
    blockRange p lo mid ∪ blockRange p mid hi = blockRange p lo hi := by
  ext q
  simp only [blockRange, Set.mem_union, Set.mem_ofPred_eq]
  constructor
  · rintro (h | h) <;> exact ⟨h.1, by omega, by omega⟩
  · intro h
    by_cases hq : q.2 < mid
    · exact .inl ⟨h.1, h.2.1, hq⟩
    · exact .inr ⟨h.1, by omega, h.2.2⟩

theorem blockRange_self (p : PartNum) (lo : ℕ) : blockRange p lo lo = ∅ := by
  ext q
  simp only [blockRange, Set.mem_ofPred_eq, Set.mem_empty_iff_false, iff_false]
  omega

/-- The loop of `mmc_berase`, when it reports its count, has erased the rest of its range. -/
theorem mmcEraseLoop_erases {start cnt : ℕ} (h : start + cnt ≤ info.lba) (fuel : ℕ) {blk : ℕ}
    (hb : blk ≤ cnt) (hf : cnt - blk < fuel) (w : World)
    (hr : (mmcEraseLoop ans info start cnt fuel blk w).1 = cnt) :
    erasedBlocks (mmcEraseLoop ans info start cnt fuel blk w).2.log =
      erasedBlocks w.log ∪ blockRange w.access (start + blk) (start + cnt) := by
  induction fuel generalizing blk w with
  | zero => omega
  | succ fuel ih =>
    have hl := info.lba_lt
    rw [mmcEraseLoop] at hr ⊢
    split at hr
    · next hlt =>
      rw [if_pos hlt]
      have hle := piece_le info.eraseGrpSize (cnt - blk)
      have hpos := piece_pos info.eraseGrpSize_pos (show 0 < cnt - blk by omega)
      set cur := piece info.eraseGrpSize (cnt - blk)
      rw [u32_of_lt (show start + blk < 2 ^ 32 by omega)] at hr ⊢
      dsimp only at hr ⊢
      split at hr
      · next hok =>
        rw [if_pos hok]
        have hissue := mmcEraseT_issues ans info (start + blk) cur w
        rw [ih (by omega) (by omega) _ hr, hissue.access,
          mmcEraseT_erases w hpos (by omega) hok, Set.union_assoc, Nat.add_assoc start blk cur,
          blockRange_append _ (by omega) (by omega)]
      · omega
    · next hge =>
      have hdone : blk = cnt := by omega
      rw [if_neg hge, hdone, blockRange_self, Set.union_empty]

theorem mmcBerase_erases {start cnt : ℕ} (h : start + cnt ≤ info.lba) (w : World)
    (hr : (mmcBerase ans info start cnt w).1 = cnt) :
    erasedBlocks (mmcBerase ans info start cnt w).2.log =
      erasedBlocks w.log ∪ blockRange w.access start (start + cnt) := by
  unfold mmcBerase at hr ⊢
  rw [mmcEraseLoop_erases h (cnt + 1) (Nat.zero_le cnt) (by omega) w hr, Nat.add_zero]

/-- One phase of `flashex_erase` on a range inside the device. -/
theorem flashexErasePhase_erases (ans : Answers) {start len : ℕ} (w : World)
    (h : start / info.writeBlLen + blocksUp len info.writeBlLen ≤ info.lba)
    (hr : (flashexErasePhase ans info start len w).1 = true) :
    erasedBlocks (flashexErasePhase ans info start len w).2.log =
      erasedBlocks w.log ∪ blockRange w.access (start / info.writeBlLen)
        (start / info.writeBlLen + blocksUp len info.writeBlLen) := by
  have hl := info.lba_lt
  have hs : start / info.writeBlLen < 2 ^ 32 := by
    have := Nat.le_add_right (start / info.writeBlLen) (blocksUp len info.writeBlLen)
    omega
  have hc : blocksUp len info.writeBlLen < 2 ^ 32 := by
    have := Nat.le_add_left (blocksUp len info.writeBlLen) (start / info.writeBlLen)
    omega
  simp only [flashexErasePhase, decide_eq_true_eq, u32_of_lt hs, u32_of_lt hc] at hr ⊢
  exact mmcBerase_erases h w hr

end Phases

section Comparison
variable {ans : Answers} {info : Info}

theorem coveringBlocks_eq (info : Info) {start : ℕ} (len : ℕ)
    (h : start % info.writeBlLen = 0) :
    coveringBlocks info start len = {b | start / info.writeBlLen ≤ b ∧
      b < start / info.writeBlLen + blocksUp len info.writeBlLen} := by
  have hbl := info.blLen_pos
  have hstart : start = start / info.writeBlLen * info.writeBlLen :=
    (Nat.div_mul_cancel (Nat.dvd_of_mod_eq_zero h)).symm
  ext b
  simp only [coveringBlocks, Set.mem_ofPred_eq]
  generalize start / info.writeBlLen = s at hstart
  subst hstart
  have hlow : s * info.writeBlLen < (b + 1) * info.writeBlLen ↔ s ≤ b := by
    rw [Nat.mul_lt_mul_right hbl, Nat.lt_succ_iff]
  rw [hlow]
  refine and_congr_right fun hsb => ?_
  obtain ⟨k, rfl⟩ := Nat.exists_eq_add_of_le hsb
  rw [Nat.add_mul, Nat.add_lt_add_iff_left, Nat.add_lt_add_iff_left, lt_blocksUp_iff _ _ hbl]

/-- A block written on its own goes to its home partition, under its own number. -/
theorem writtenAlone_eq {w : World} (hw : Ready info w) (src : Mem) {b : ℕ} (hb : b < info.lba) :
    writtenAlone info b src w = {(info.home b, b)} := by
  have hl := info.lba_lt
  have hsum : u32 (b + 1) = b + 1 := u32_of_lt (by omega)
  have hpiece : piece info.bMax 1 = 1 := by
    have := info.bMax_pos
    unfold piece
    split <;> omega
  have hw₀ : Ready info { w with log := [] } := ⟨hw.coherent, hw.part, hw.config⟩
  obtain ⟨-, hacc⟩ := @mmcRoute_of_ok (fun _ _ => true) info (fun _ _ _ => rfl) b 1 _ hw₀
  have hlog := (mmcRoute_sameCard (fun _ _ => true) info b 1 { w with log := [] }).log
  rw [hsum] at hacc
  have hhome := hacc (Nat.succ_pos b)
  simp only [Nat.succ_le_iff] at hhome
  unfold writtenAlone mmcBwrite
  generalize mmcRoute (fun _ _ => true) info b 1 { w with log := [] } = w₁ at hlog hhome
  have hcmd : (mmcWriteRange (fun _ _ => true) info b 1 src w₁).2.log =
      [.transfer w₁.partNum w₁.access b 1] := by
    simp [mmcWriteRange, mmcSetBlocklen, retry, mmcSendCmd, mmcWriteLoop, hpiece, mmcWriteBlocks,
      mmcStop, hsum, hb.not_ge, World.putBytes, World.noteTransfer,
      info.argBlock_blockArg hb, hlog]
  rw [hcmd]
  ext p
  simp only [transferredBlocks, Event.Transfers, List.mem_singleton, exists_eq_left,
    Set.mem_ofPred_eq, Set.mem_singleton_iff, Prod.ext_iff, hhome, Info.home]
  refine and_congr_right fun _ => ?_
  omega

/-- The pairs reached by writing the covering blocks one at a time. -/
theorem written_eq {w : World} (hw : Ready info w) (src : Mem) {start len : ℕ}
    (halign : start % info.writeBlLen = 0)
    (hcap : start / info.writeBlLen + blocksUp len info.writeBlLen ≤ info.lba) :
    (⋃ b ∈ coveringBlocks info start len, writtenAlone info b src w) =
      homeRange info (start / info.writeBlLen)
        (start / info.writeBlLen + blocksUp len info.writeBlLen) := by
  ext p
  rw [coveringBlocks_eq info len halign]
  simp only [homeRange, Set.mem_iUnion, Set.mem_ofPred_eq, exists_prop]
  constructor
  · rintro ⟨b, ⟨h₁, h₂⟩, hp⟩
    rw [writtenAlone_eq hw src (by omega)] at hp
    obtain rfl : p = (info.home b, b) := hp
    exact ⟨rfl, h₁, h₂⟩
  · rintro ⟨hp, h₁, h₂⟩
    refine ⟨p.2, ⟨h₁, h₂⟩, ?_⟩
    rw [writtenAlone_eq hw src (by omega)]
    exact Prod.ext hp rfl

theorem flashexErasePhase_log_zero (ans : Answers) (info : Info) (start : ℕ) (w : World) :
    flashexErasePhase ans info start 0 w = (true, w) := by
  simp [flashexErasePhase, mmcBerase, mmcEraseLoop, u32]

theorem flashexErasePhase_access (ans : Answers) (info : Info) (start len : ℕ) (w : World) :
    (flashexErasePhase ans info start len w).2.access = w.access :=
  (mmcBerase_issues ..).access

/-- Both phases of a successful erase: the second one starts where the first one did, in
the user area or, if its switch failed, in the partition of the first. -/
theorem flashexErase_erases {start len l rest : ℕ} {p : PartNum} {w : World}
    (hplan : flashexErasePlan info start len w = some (p, l, rest)) (hlog : w.log = [])
    (hl : start / info.writeBlLen + blocksUp l info.writeBlLen ≤ info.lba)
    (hrest : start / info.writeBlLen + blocksUp rest info.writeBlLen ≤ info.lba)
    (hr : (flashexErase ans info start len w).1 = true) :
    ∃ q, (q = p ∨ q = partUser) ∧
      (l = 0 → q = if ans (w.clock + 1) .switch then partUser else p) ∧
      erasedBlocks (flashexErase ans info start len w).2.log =
        blockRange p (start / info.writeBlLen)
            (start / info.writeBlLen + blocksUp l info.writeBlLen) ∪
          blockRange q (start / info.writeBlLen)
            (start / info.writeBlLen + blocksUp rest info.writeBlLen) := by
  obtain ⟨-, hclock, hcard, -, htrue, -⟩ :=
    mmcSwitchPart_spec ans p (flashexErasePlan_isPart hplan) w
  have hempty : erasedBlocks (mmcSwitchPart ans p w).2.log = ∅ := by
    rw [hcard.log, hlog]
    simp [erasedBlocks]
  simp only [flashexErase, hplan] at hr ⊢
  split at hr
  · next hsw =>
    rw [if_pos hsw]
    have hacc := htrue hsw
    have hfirst := flashexErasePhase_erases ans
      (mmcSwitchPart ans p w).2 hl
    have hkeep := flashexErasePhase_access ans info start l
      (mmcSwitchPart ans p w).2
    split at hr
    · next hok =>
      rw [if_pos hok]
      rw [hempty, Set.empty_union, hacc] at hfirst
      split at hr
      · next hmore =>
        rw [if_pos hmore]
        obtain ⟨hok₂, -, hcard₂, -, htrue₂, hfalse₂⟩ := mmcSwitchPart_spec ans partUser
          partUser_isPart (flashexErasePhase ans info start l (mmcSwitchPart ans p w).2).2
        refine ⟨_, ?_, fun h0 => ?_, (flashexErasePhase_erases ans _ hrest hr).trans
          (congrArg (· ∪ _) ?_)⟩
        · cases hs : (mmcSwitchPart ans partUser
            (flashexErasePhase ans info start l (mmcSwitchPart ans p w).2).2).1
          · exact .inl ((hfalse₂ hs).1.trans (hkeep.trans hacc))
          · exact .inr (htrue₂ hs)
        · subst h0
          rw [flashexErasePhase_log_zero] at *
          rw [hclock] at hok₂
          cases hs : ans (w.clock + 1) .switch
          · simpa [hacc] using (hfalse₂ (hok₂.trans hs)).1
          · simpa using htrue₂ (hok₂.trans hs)
        · rw [hcard₂.log, hfirst hok]
      · next hdone =>
        have h0 : rest = 0 := by omega
        subst h0
        rw [if_neg hdone]
        refine ⟨if ans (w.clock + 1) .switch then partUser else p, ?_, fun _ => rfl, ?_⟩
        · split
          · exact .inr rfl
          · exact .inl rfl
        · simp only [blocksUp_zero, Nat.add_zero, blockRange_self, Set.union_empty]
          exact hfirst hok
    · cases hr
  · cases hr

theorem blockRange_eq_homeRange_iff {p : PartNum} {lo hi : ℕ} :
    blockRange p lo hi = homeRange info lo hi ↔ ∀ b, lo ≤ b → b < hi → info.home b = p := by
  constructor
  · intro h b h₁ h₂
    have hb : (p, b) ∈ homeRange info lo hi := h ▸ ⟨rfl, h₁, h₂⟩
    exact hb.1.symm
  · intro h
    ext q
    constructor
    · rintro ⟨hq, h₁, h₂⟩
      exact ⟨hq.trans (h _ h₁ h₂).symm, h₁, h₂⟩
    · rintro ⟨hq, h₁, h₂⟩
      exact ⟨hq.trans (h _ h₁ h₂), h₁, h₂⟩

theorem home_eq_user_iff (info : Info) (b : ℕ) :
    info.home b = partUser ↔ info.bootBlkcnt ≤ b := by
  unfold Info.home
  split
  · exact iff_of_false (by decide) (by omega)
  · exact iff_of_true rfl (by omega)

theorem home_eq_boot_iff (info : Info) (b : ℕ) {p : PartNum} (hp : p ≠ partUser) :
    info.home b = p ↔ b < info.bootBlkcnt ∧ p = partBoot1 := by
  unfold Info.home
  split
  · next h => exact ⟨fun hb => ⟨h, hb.symm⟩, fun hb => hb.2.symm⟩
  · next h => exact iff_of_false (Ne.symm hp) (by tauto)

/-- A range in the user area. -/
theorem userRange_iff (info : Info) (s : ℕ) {n : ℕ} (hn : 0 < n) :
    blockRange partUser s (s + n) = homeRange info s (s + n) ↔ info.bootBlkcnt ≤ s := by
  simp only [blockRange_eq_homeRange_iff, home_eq_user_iff]
  exact ⟨fun h => h s le_rfl (by omega), fun h b h₁ _ => h.trans h₁⟩

/-- A range from block 0 on in a boot partition. -/
theorem bootRange_iff {p : PartNum} (hp : p ≠ partUser) {n : ℕ} (hn : 0 < n) :
    blockRange p 0 n = homeRange info 0 n ↔ n ≤ info.bootBlkcnt ∧ p = partBoot1 := by
  simp only [blockRange_eq_homeRange_iff, home_eq_boot_iff info _ hp]
  constructor
  · intro h
    have hlast := h (n - 1) (Nat.zero_le _) (by omega)
    exact ⟨by omega, hlast.2⟩
  · rintro ⟨h, hb⟩ b - hbn
    exact ⟨hbn.trans_le h, hb⟩

/-- Two phases that both start at block 0 never match the writes when there is a boot
partition: either block 0 of the user area is wiped, or the user area is not reached, or
a boot partition without a whole block is wiped. -/
theorem twoPhases_ne {p q : PartNum} (hp : p ≠ partUser) (hq : q = p ∨ q = partUser)
    {m r n : ℕ} (hm : 0 < m) (hr : 0 < r) (hn : info.bootBlkcnt < n) :
    blockRange p 0 m ∪ blockRange q 0 r ≠ homeRange info 0 n := by
  intro h
  rcases hq with rfl | rfl
  · have huser : (partUser, info.bootBlkcnt) ∈ homeRange info 0 n :=
      ⟨((home_eq_user_iff info _).mpr le_rfl).symm, Nat.zero_le _, hn⟩
    rw [← h] at huser
    rcases huser with hx | hx <;> exact hp hx.1.symm
  · have h₀ : (partUser, 0) ∈ homeRange info 0 n := h ▸ .inr ⟨rfl, le_rfl, hr⟩
    have h₁ : (p, 0) ∈ homeRange info 0 n := h ▸ .inl ⟨rfl, le_rfl, hm⟩
    exact hp (h₁.1.trans h₀.1.symm)

theorem enabledBoot_ne_user {w : World}
    (h : ¬ (partBoot1 ≠ w.enabledBoot ∧ partBoot2 ≠ w.enabledBoot)) :
    w.enabledBoot ≠ partUser := by
  intro h0
  rw [h0] at h
  exact h (by decide)

/-- The bytes of the device and its blocks. -/
theorem blocks_le_lba (info : Info) {start len : ℕ} (halign : start % info.writeBlLen = 0)
    (hcap : start + len ≤ info.capacity) :
    start / info.writeBlLen + blocksUp len info.writeBlLen ≤ info.lba := by
  have hbl := info.blLen_pos
  have hstart := Nat.div_mul_cancel (Nat.dvd_of_mod_eq_zero halign)
  rw [info.capacity_eq] at hcap
  generalize start / info.writeBlLen = s at *
  have hs : s ≤ info.lba := Nat.le_of_mul_le_mul_right (by omega) hbl
  have hcnt : blocksUp len info.writeBlLen ≤ info.lba - s := by
    rw [blocksUp_le_iff _ _ hbl, Nat.sub_mul]
    omega
  omega

/-- What the head of `flashex_erase` decides on a range inside the device. -/
theorem flashexErasePlan_cases {start len l rest : ℕ} {p : PartNum} {w : World}
    (hcap : start + len ≤ info.capacity)
    (hplan : flashexErasePlan info start len w = some (p, l, rest)) :
    len ≠ 0 ∧ (start ≠ 0 ∧ p = partUser ∧ l = len ∧ rest = 0 ∨
      start = 0 ∧ ¬ (partBoot1 ≠ w.enabledBoot ∧ partBoot2 ≠ w.enabledBoot) ∧
        p = w.enabledBoot ∧
        (len ≤ info.bootPartSize ∧ l = len ∧ rest = 0 ∨
          info.bootPartSize < len ∧ l = info.bootPartSize ∧ rest = len - info.bootPartSize)) := by
  simp only [flashexErasePlan, if_neg (show ¬ len > info.capacity by omega)] at hplan
  split_ifs at hplan with hlen hs hboot hl <;>
    simp only [Option.some.injEq, Prod.mk.injEq] at hplan <;> obtain ⟨rfl, rfl, rfl⟩ := hplan <;>
    refine ⟨fun h => hlen (.inl h), ?_⟩
  · exact .inr ⟨hs, hboot, rfl, .inr ⟨hl, rfl, rfl⟩⟩
  · exact .inr ⟨hs, hboot, rfl, .inl ⟨not_lt.mp hl, rfl, rfl⟩⟩
  · exact .inl ⟨hs, rfl, rfl, rfl⟩

/-- What a successful erase wipes is the range block by block in its home partitions if
and only if it keeps to them. -/
theorem flashexErase_erases_homeRange_iff {w : World} (hlog : w.log = []) {start len : ℕ}
    (halign : start % info.writeBlLen = 0) (hcap : start + len ≤ info.capacity)
    (hret : (flashexErase ans info start len w).1 = true) :
    erasedBlocks (flashexErase ans info start len w).2.log =
        homeRange info (start / info.writeBlLen)
          (start / info.writeBlLen + blocksUp len info.writeBlLen) ↔
      ErasesAsWritten ans info start len w := by
  have hcap' := blocks_le_lba info halign hcap
  obtain ⟨p, l, rest, hplan⟩ : ∃ p l rest,
      flashexErasePlan info start len w = some (p, l, rest) := by
    cases h : flashexErasePlan info start len w with
    | none => simp [flashexErase, h] at hret
    | some plan => exact ⟨_, _, _, rfl⟩
  obtain ⟨hlen, hplan'⟩ := flashexErasePlan_cases hcap hplan
  have hn : 0 < blocksUp len info.writeBlLen := by
    rw [lt_blocksUp_iff _ _ info.blLen_pos]
    omega
  have hle : ∀ k ≤ len, start / info.writeBlLen + blocksUp k info.writeBlLen ≤ info.lba :=
    fun k hk => (Nat.add_le_add_left (blocksUp_mono info.blLen_pos hk) _).trans hcap'
  rcases hplan' with ⟨hs, rfl, rfl, rfl⟩ | ⟨rfl, hboot, rfl, hplan'⟩
  · -- one phase, in the user area
    obtain ⟨q, -, -, he⟩ := flashexErase_erases hplan hlog (hle _ le_rfl) (hle _ (by omega)) hret
    rw [blocksUp_zero, Nat.add_zero, blockRange_self, Set.union_empty] at he
    unfold ErasesAsWritten
    rw [he, userRange_iff info _ hn]
    tauto
  · have hboot' : w.enabledBoot ≠ partUser := enabledBoot_ne_user hboot
    rcases hplan' with ⟨hl, rfl, rfl⟩ | ⟨hl, rfl, rfl⟩
    · -- one phase, in the enabled boot partition
      obtain ⟨q, -, -, he⟩ := flashexErase_erases hplan hlog (hle _ le_rfl) (hle _ (by omega)) hret
      simp only [Nat.zero_div, Nat.zero_add, blocksUp_zero, blockRange_self, Set.union_empty] at he
      unfold ErasesAsWritten
      rw [he, Nat.zero_div, Nat.zero_add, bootRange_iff hboot' hn]
      have hsize : info.bootPartSize ≠ 0 := by omega
      tauto
    · -- two phases
      obtain ⟨q, hq, hq', he⟩ := flashexErase_erases hplan hlog (hle _ (by omega))
        (hle _ (by omega)) hret
      simp only [Nat.zero_div, Nat.zero_add] at he
      have hbeyond : info.bootBlkcnt < blocksUp len info.writeBlLen := by
        rw [lt_blocksUp_iff _ _ info.blLen_pos]
        exact (Nat.div_mul_le_self _ _).trans_lt hl
      have hr : 0 < blocksUp (len - info.bootPartSize) info.writeBlLen := by
        rw [lt_blocksUp_iff _ _ info.blLen_pos]
        omega
      unfold ErasesAsWritten
      rw [he, Nat.zero_div, Nat.zero_add]
      rcases Nat.eq_zero_or_pos info.bootPartSize with h0 | hpos
      · have hb0 : info.bootBlkcnt = 0 := by simp [Info.bootBlkcnt, h0]
        rw [h0, blocksUp_zero, blockRange_self, Set.empty_union, Nat.sub_zero, hq' h0]
        cases hok : ans (w.clock + 1) .switch
        · simp only [Bool.false_eq_true, if_false, bootRange_iff hboot' hn]
          refine iff_of_false (fun h => by rw [hb0] at h; omega) ?_
          rintro (⟨h, -⟩ | ⟨-, h, -⟩ | ⟨-, -, h⟩)
          · exact h rfl
          · rw [hb0] at h
            omega
          · cases h
        · have huser := userRange_iff info 0 hn
          rw [Nat.zero_add] at huser
          simp [huser, hb0]
      · have hm : 0 < blocksUp info.bootPartSize info.writeBlLen := by
          rw [lt_blocksUp_iff _ _ info.blLen_pos]
          omega
        refine iff_of_false (twoPhases_ne hboot' hq hm hr hbeyond) ?_
        rintro (⟨h, -⟩ | ⟨-, h, -⟩ | ⟨-, h, -⟩) <;> omega

end Comparison

/-- A successful erase wipes exactly the blocks that `mmc_bwrite` reaches block by block
if and only if its range keeps to the partitions of the writes. -/
theorem flashexErase_erases_written_blocks (ans : Answers) (info : Info) (w w' : World)
    (hw' : Ready info w') (start len : ℕ) (src : Mem) (halign : start % info.writeBlLen = 0)
    (hcap : start + len ≤ info.capacity)
    (hret : (flashexErase ans info start len { w with log := [] }).1 = true) :
    erasedBy ans info start len w =
        (⋃ b ∈ coveringBlocks info start len, writtenAlone info b src w') ↔
      ErasesAsWritten ans info start len w := by
  rw [written_eq hw' src halign (blocks_le_lba info halign hcap)]
  exact flashexErase_erases_homeRange_iff rfl halign hcap hret

/-- One mebibyte above the boot partition. -/
theorem flashexErase_erases_written_blocks_user :
    erasedBy (fun _ _ => true) emmc 0x80000 0x100000 afterInit =
      ⋃ b ∈ coveringBlocks emmc 0x80000 0x100000, writtenAlone emmc b (fun _ => 0) afterInit :=
  (flashexErase_erases_written_blocks _ emmc afterInit afterInit (afterInit_ready emmc) 0x80000
    0x100000 _ (by decide) (by decide) (by decide +kernel)).mpr (.inl ⟨by decide, by decide⟩)

/-- An erase of the boot partition and one block more wipes block 0 of the user area,
which the writes never touch. -/
theorem erase_past_boot_wipes_user_block_zero :
    0 + (131072 + 512) ≤ emmc.capacity ∧
      (flashexErase (fun _ _ => true) emmc 0 (131072 + 512) { afterInit with log := [] }).1 = true ∧
      (partUser, 0) ∈ erasedBy (fun _ _ => true) emmc 0 (131072 + 512) afterInit ∧
      (partUser, 0) ∉ ⋃ b ∈ coveringBlocks emmc 0 (131072 + 512),
        writtenAlone emmc b (fun _ => 0) afterInit := by
  refine ⟨by decide, by decide +kernel,
    ⟨.erase partUser partUser 0 0, by decide +kernel, rfl, le_rfl, le_rfl⟩, ?_⟩
  rw [written_eq (afterInit_ready emmc) _ (by decide) (by decide +kernel)]
  rintro ⟨h, -⟩
  exact absurd h (by decide)

end UBoot.Mmc
