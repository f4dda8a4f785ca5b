import UBoot.Mmc.Effects

/-!
# Transfers that succeed

When transfers and switches succeed, the piece loops move the whole range between
the buffer and the partition that was selected on entry, whatever `b_max` is.
-/
namespace UBoot.Mmc
open ByteStore

/-- Every command but `SET_BLOCKLEN` succeeds: switches and transfers do. -/
def SwitchesAndTransfersSucceed (ans : Answers) : Prop :=
  ∀ n c, c ≠ .setBlocklen → ans n c = true

variable {ans : Answers} {info : Info}

theorem Info.argByte_blockArg (info : Info) {blk : ℕ} (h : blk < info.lba) :
    info.argByte (info.blockArg blk) = blk * info.writeBlLen := by
  have hl := info.lba_lt
  cases hc : info.highCapacity
  · have hb := info.byteAddressed hc
    have hlt : blk * info.writeBlLen < 2 ^ 32 :=
      (Nat.mul_lt_mul_of_pos_right h info.blLen_pos).trans_le hb
    simp [Info.argByte, Info.blockArg, hc, u32_of_lt hlt]
  · simp [Info.argByte, Info.blockArg, hc, u32_of_lt (h.trans hl), info.sector hc]

theorem Info.argBlock_blockArg (info : Info) {blk : ℕ} (h : blk < info.lba) :
    info.argBlock (info.blockArg blk) = blk := by
  have hl := info.lba_lt
  cases hc : info.highCapacity
  · have hb := info.byteAddressed hc
    have hlt : blk * info.writeBlLen < 2 ^ 32 :=
      (Nat.mul_lt_mul_of_pos_right h info.blLen_pos).trans_le hb
    simp [Info.argBlock, Info.blockArg, hc, u32_of_lt hlt, Nat.mul_div_cancel _ info.blLen_pos]
  · simp [Info.argBlock, Info.blockArg, hc, u32_of_lt (h.trans hl)]

theorem piece_le (limit left : ℕ) : piece limit left ≤ left := by
  unfold piece
  split <;> omega

theorem piece_pos {limit left : ℕ} (hl : 0 < limit) (h : 0 < left) : 0 < piece limit left := by
  unfold piece
  split <;> omega

theorem mmcSendCmd_of_ok {idx : CmdIdx} (effect : World → World) (w : World)
    (h : ans w.clock idx = true) :
    mmcSendCmd ans idx effect w = (true, { effect w with clock := w.clock + 1 }) := by
  simp [mmcSendCmd, h]

/-- A retried command that changes nothing but the count when it fails: the retries succeed
exactly if one of the attempts does, and all of them are made if none does. -/
theorem retry_spec {attempt : World → Bool × World} {idx : CmdIdx}
    (hok : ∀ w, (attempt w).1 = ans w.clock idx)
    (hfail : ∀ w, ans w.clock idx = false → (attempt w).2 = { w with clock := w.clock + 1 })
    (n : ℕ) (w : World) :
    ((retry attempt n w).1 = true ↔ ∃ i ≤ n, ans (w.clock + i) idx = true) ∧
      ((retry attempt n w).1 = false →
        (retry attempt n w).2 = { w with clock := w.clock + (n + 1) }) := by
  induction n generalizing w with
  | zero =>
    refine ⟨?_, fun h => hfail w ((hok w).symm.trans h)⟩
    rw [retry, hok]
    constructor
    · exact fun h => ⟨0, le_rfl, h⟩
    · rintro ⟨i, hi, h⟩
      rwa [Nat.le_zero.mp hi] at h
  | succ n ih =>
    cases h0 : ans w.clock idx with
    | true =>
      have h1 : (attempt w).1 = true := (hok w).trans h0
      simp only [retry, h1, if_true, true_iff]
      exact ⟨⟨0, Nat.zero_le _, h0⟩, fun h => absurd h (by decide)⟩
    | false =>
      have h1 : (attempt w).1 = false := (hok w).trans h0
      obtain ⟨hiff, hstate⟩ := ih (attempt w).2
      simp only [retry, h1, Bool.false_eq_true, if_false]
      rw [hfail w h0] at hiff hstate ⊢
      refine ⟨hiff.trans ⟨?_, ?_⟩, fun h => ?_⟩
      · rintro ⟨i, hi, h⟩
        refine ⟨i + 1, by omega, ?_⟩
        rwa [show w.clock + (i + 1) = w.clock + 1 + i by omega]
      · rintro ⟨i, hi, h⟩
        have hpos : i ≠ 0 := by
          rintro rfl
          rw [Nat.add_zero, h0] at h
          cases h
        refine ⟨i - 1, by omega, ?_⟩
        rwa [show w.clock + 1 + (i - 1) = w.clock + i by omega]
      · rw [hstate h, show w.clock + 1 + (n + 1) = w.clock + (n + 1 + 1) by omega]

/-- `mmc_set_blocklen` succeeds exactly if one of eleven commands in a row is accepted. -/
theorem mmcSetBlocklen_eq_true_iff (ans : Answers) (w : World) :
    (mmcSetBlocklen ans w).1 = true ↔ ∃ i ≤ 10, ans (w.clock + i) .setBlocklen = true := by
  refine (retry_spec (fun w => ?_) (fun w h => ?_) 10 w).1
  · unfold mmcSendCmd
    split
    · next h => exact h.symm
    · next h => exact (Bool.eq_false_iff.mpr h).symm
  · rw [mmcSendCmd, if_neg (by rw [h]; decide)]

theorem retry_setBlocklen_store (ans : Answers) (n : ℕ) (w : World) :
    (retry (mmcSendCmd ans .setBlocklen id) n w).2.store = w.store := by
  have h1 : ∀ w, (mmcSendCmd ans .setBlocklen id w).2.store = w.store := by
    intro w
    unfold mmcSendCmd
    split <;> rfl
  induction n generalizing w with
  | zero => exact h1 w
  | succ n ih =>
    simp only [retry]
    split
    · exact h1 w
    · rw [ih, h1]

theorem mmcStop_of_ok (hans : SwitchesAndTransfersSucceed ans) (cnt : ℕ) (w : World) :
    (mmcStop ans cnt w).1 = cnt ∧ (mmcStop ans cnt w).2.store = w.store := by
  unfold mmcStop
  split
  · rw [mmcSendCmd_of_ok _ _ (hans _ _ (by simp))]
    exact ⟨rfl, rfl⟩
  · exact ⟨rfl, rfl⟩

/-- Byte ranges named by blocks inside the device; an empty range has no address. -/
theorem overlay_blockArg (info : Info) (base src : Mem) {start cnt : ℕ}
    (h : start + cnt ≤ info.lba) :
    overlay base (info.argByte (info.blockArg start)) (cnt * info.writeBlLen) src =
      overlay base (start * info.writeBlLen) (cnt * info.writeBlLen) src := by
  rcases Nat.eq_zero_or_pos cnt with rfl | hc
  · simp
  · rw [info.argByte_blockArg (by omega)]

theorem mmcWriteBlocks_of_ok (hans : SwitchesAndTransfersSucceed ans) {start cnt : ℕ} (src : Mem)
    (w : World) (h : start + cnt ≤ info.lba) :
    let r := mmcWriteBlocks ans info start cnt src w
    r.1 = cnt ∧ r.2.store = Function.update w.store w.access
      (overlay (w.store w.access) (start * info.writeBlLen) (cnt * info.writeBlLen) src) := by
  have hl := info.lba_lt
  unfold mmcWriteBlocks
  rw [u32_of_lt (by omega), if_neg (by omega)]
  dsimp only
  rw [mmcSendCmd_of_ok _ _ (hans _ _ (by simp))]
  obtain ⟨h1, h2⟩ := mmcStop_of_ok hans cnt
    { (w.noteTransfer (info.argBlock (info.blockArg start)) cnt).putBytes
        (info.argByte (info.blockArg start)) (cnt * info.writeBlLen) src with
      clock := w.clock + 1 }
  rw [← overlay_blockArg info _ _ h]
  exact ⟨h1, h2⟩

theorem mmcReadBlocks_of_ok (hans : SwitchesAndTransfersSucceed ans) (dst : Mem) {start cnt : ℕ}
    (w : World) (hc : 0 < cnt) (h : start + cnt ≤ info.lba) :
    let r := mmcReadBlocks ans info dst start cnt w
    r.1 = cnt ∧ r.2.2.store = w.store ∧ r.2.1 = overlay dst 0 (cnt * info.readBlLen)
      (advance (w.store w.access) (start * info.readBlLen)) := by
  unfold mmcReadBlocks
  dsimp only
  rw [mmcSendCmd_of_ok _ _ (hans _ _ (by simp)), info.argByte_blockArg (by omega), info.blLen_eq]
  obtain ⟨h1, h2⟩ := mmcStop_of_ok hans cnt
    { id (w.noteTransfer (info.argBlock (info.blockArg start)) cnt) with clock := w.clock + 1 }
  exact ⟨h1, h2, rfl⟩

/-- The writing loop stores the whole range in the partition selected on entry. -/
theorem mmcWriteLoop_of_ok (hans : SwitchesAndTransfersSucceed ans) (fuel start todo : ℕ)
    (src : Mem) (w : World) (hf : todo < fuel) (h : start + todo ≤ info.lba) :
    let r := mmcWriteLoop ans info fuel start todo src w
    r.1 = true ∧ r.2.store = Function.update w.store w.access
      (overlay (w.store w.access) (start * info.writeBlLen) (todo * info.writeBlLen) src) := by
  induction fuel generalizing start todo src w with
  | zero => omega
  | succ fuel ih =>
    have hl := info.lba_lt
    have hle := piece_le info.bMax todo
    obtain ⟨hr, hst⟩ := mmcWriteBlocks_of_ok hans src w
      (show start + piece info.bMax todo ≤ info.lba by omega)
    have ha := (mmcWriteBlocks_issues ans info start (piece info.bMax todo) src w).access
    simp only [mmcWriteLoop, hr, ne_eq, not_true_eq_false, if_false]
    split
    · next hmore =>
      have hpos := piece_pos info.bMax_pos (show 0 < todo by omega)
      rw [u32_of_lt (by omega)]
      obtain ⟨h1, h2⟩ := ih (start + piece info.bMax todo) (todo - piece info.bMax todo)
        (advance src (piece info.bMax todo * info.writeBlLen))
        (mmcWriteBlocks ans info start (piece info.bMax todo) src w).2 (by omega) (by omega)
      refine ⟨h1, ?_⟩
      rw [h2, ha, hst, Function.update_self, Function.update_idem, Nat.add_mul, overlay_append,
        ← Nat.add_mul, Nat.add_sub_cancel' hle]
    · next hdone =>
      have : piece info.bMax todo = todo := by omega
      exact ⟨rfl, by rw [hst, this]⟩

/-- The reading loop fills the buffer from the partition selected on entry. -/
theorem mmcReadLoop_of_ok (hans : SwitchesAndTransfersSucceed ans) (fuel start todo off : ℕ)
    (dst : Mem) (w : World) (hf : todo < fuel) (hpos : 0 < todo)
    (h : start + todo ≤ info.lba) :
    let r := mmcReadLoop ans info fuel start todo off dst w
    r.1 = true ∧ r.2.2.store = w.store ∧ r.2.1 = overlay dst off (todo * info.readBlLen)
      (advance (w.store w.access) (start * info.readBlLen)) := by
  induction fuel generalizing start todo off dst w with
  | zero => omega
  | succ fuel ih =>
    have hl := info.lba_lt
    have hle := piece_le info.bMax todo
    have hp := piece_pos info.bMax_pos hpos
    obtain ⟨hr, hst, hd⟩ := mmcReadBlocks_of_ok hans (advance dst off) w hp
      (show start + piece info.bMax todo ≤ info.lba by omega)
    have ha := (mmcReadBlocks_issues ans info (advance dst off) start (piece info.bMax todo)
      w).access
    have hcopy : ∀ data : Mem, overlay dst off (piece info.bMax todo * info.readBlLen)
        (overlay (advance dst off) 0 (piece info.bMax todo * info.readBlLen) data) =
          overlay dst off (piece info.bMax todo * info.readBlLen) data := by
      intro data
      funext a
      simp only [overlay]
      split
      · rw [if_pos (by omega), Nat.sub_zero]
      · rfl
    simp only [mmcReadLoop, hr, ne_eq, not_true_eq_false, if_false, hd, hcopy]
    split
    · next hmore =>
      rw [u32_of_lt (by omega)]
      obtain ⟨h1, h2, h3⟩ := ih (start + piece info.bMax todo) (todo - piece info.bMax todo)
        (off + piece info.bMax todo * info.readBlLen)
        (overlay dst off (piece info.bMax todo * info.readBlLen)
          (advance (w.store w.access) (start * info.readBlLen)))
        (mmcReadBlocks ans info (advance dst off) start (piece info.bMax todo) w).2.2
        (by omega) (by omega) (by omega)
      refine ⟨h1, h2.trans hst, ?_⟩
      rw [h3, ha, hst, Nat.add_mul start, ← advance_advance, overlay_append, ← Nat.add_mul,
        Nat.add_sub_cancel' hle]
    · next hdone =>
      have : piece info.bMax todo = todo := by omega
      exact ⟨rfl, hst, by rw [this]⟩

/-- The registers between two calls: the cache is right, the user area or the first
boot partition is selected, and a card without partitions has no boot blocks. -/
structure Ready (info : Info) (w : World) : Prop where
  coherent : Coherent w
  part : w.partNum = partUser ∨ w.partNum = partBoot1
  config : w.partConfig ≠ mmcpartNoavailable ∨ info.bootBlkcnt = 0 ∧ w.partNum = partUser

theorem config_ne_of_access {cfg : BitVec 8} {p : PartNum} (hp : IsPart p)
    (h : cfg &&& partAccessMask = p) : cfg ≠ mmcpartNoavailable := by
  rintro rfl
  rcases hp with rfl | rfl | rfl <;> exact absurd h (by decide)

theorem mmcSwitchPartition_of_ok (hans : SwitchesAndTransfersSucceed ans) {p : PartNum}
    (hp : IsPart p) {w : World} (hw : Coherent w) (hc : w.partConfig ≠ mmcpartNoavailable) :
    let r := mmcSwitchPartition ans p w
    r.1 = true ∧ r.2.partNum = p ∧ Coherent r.2 ∧ r.2.partConfig ≠ mmcpartNoavailable := by
  have hr : (mmcSwitchPartition ans p w).1 = true := by
    obtain ⟨h1, -⟩ := mmcSwitchPart_spec ans p hp w
    rw [hans _ _ (by simp)] at h1
    unfold mmcSwitchPartition
    rw [if_neg hc]
    split
    · simp [retry, h1]
    · rfl
  obtain ⟨-, hn, ha, hf⟩ := mmcSwitchPartition_spec ans p hp w
  refine ⟨hr, hn hr, mmcSwitchPartition_coherent ans p hp hw, ?_⟩
  by_cases heq : w.partNum = p
  · rw [(hf (.inr heq)).2.2]
    exact hc
  · exact config_ne_of_access hp (ha hr heq).2

/-- A request ends up in the partition its range names, and leaves the registers
ready for the next one. -/
theorem mmcRoute_of_ok (hans : SwitchesAndTransfersSucceed ans) (start cnt : ℕ) {w : World}
    (hw : Ready info w) :
    let w' := mmcRoute ans info start cnt w
    Ready info w' ∧ (0 < u32 (start + cnt) →
      w'.access = if u32 (start + cnt) ≤ info.bootBlkcnt then partBoot1 else partUser) := by
  obtain ⟨hco, hpart, hcfg⟩ := hw
  unfold mmcRoute
  by_cases hb : u32 (start + cnt) ≤ info.bootBlkcnt
  · by_cases hu : w.partNum = partUser
    · by_cases hc : w.partConfig = mmcpartNoavailable
      · have h0 : info.bootBlkcnt = 0 := (hcfg.resolve_left (not_not.mpr hc)).1
        have hs : ∀ p, mmcSwitchPartition ans p w = (false, w) := fun p => by
          simp [mmcSwitchPartition, hc]
        simp only [hb, hu, if_true, hs, Bool.false_eq_true, if_false]
        exact ⟨⟨hco, hpart, hcfg⟩, fun h => by omega⟩
      · obtain ⟨h1, h2, h3, h4⟩ := mmcSwitchPartition_of_ok hans partBoot1_isPart hco hc
        simp only [hb, hu, if_true, h1]
        exact ⟨⟨h3, .inr h2, .inl h4⟩, fun _ => h3.symm.trans h2⟩
    · have hp : w.partNum = partBoot1 := hpart.resolve_left hu
      simp only [hb, hu, if_true, if_false]
      exact ⟨⟨hco, hpart, hcfg⟩, fun _ => hco.symm.trans hp⟩
  · by_cases hu : w.partNum = partUser
    · simp only [hb, hu, if_false, ne_eq, not_true_eq_false]
      exact ⟨⟨hco, hpart, hcfg⟩, fun _ => hco.symm.trans hu⟩
    · simp only [hb, hu, if_false, ne_eq, not_false_eq_true, if_true]
      have hc : w.partConfig ≠ mmcpartNoavailable := hcfg.resolve_right fun h => hu h.2
      obtain ⟨h1, h2, h3, h4⟩ := mmcSwitchPartition_of_ok hans partUser_isPart hco hc
      exact ⟨⟨h3, .inl h2, .inl h4⟩, fun _ => h3.symm.trans h2⟩

end UBoot.Mmc
