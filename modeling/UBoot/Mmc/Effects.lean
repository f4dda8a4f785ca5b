import UBoot.Mmc.Block

/-!
# What the driver routines do to the world

The partition registers change only in the switch routines. Everything else
issues transfer and erase commands under the registers it was entered with, and
this is all that most results need to know about it.
-/
namespace UBoot.Mmc
open ByteStore

/-- The three partitions the driver ever selects. -/
def IsPart (p : PartNum) : Prop := p = partUser ∨ p = partBoot1 ∨ p = partBoot2

/-- From `w` to `w'` the partition registers stayed and every new command was
issued under them. -/
structure Issues (w w' : World) : Prop where
  partNum : w'.partNum = w.partNum
  access : w'.access = w.access
  partConfig : w'.partConfig = w.partConfig
  log : ∀ e ∈ w'.log, e ∈ w.log ∨ e.partNum = w.partNum ∧ e.access = w.access

theorem Issues.refl (w : World) : Issues w w := ⟨rfl, rfl, rfl, fun _ h => .inl h⟩

theorem Issues.trans {w₁ w₂ w₃ : World} (h : Issues w₁ w₂) (h' : Issues w₂ w₃) :
    Issues w₁ w₃ := by
  refine ⟨h'.partNum.trans h.partNum, h'.access.trans h.access,
    h'.partConfig.trans h.partConfig, fun e he => ?_⟩
  rcases h'.log e he with hl | ⟨hp, ha⟩
  · exact h.log e hl
  · exact .inr ⟨hp.trans h.partNum, ha.trans h.access⟩

theorem Issues.noteTransfer (w : World) (blk cnt : ℕ) : Issues w (w.noteTransfer blk cnt) := by
  refine ⟨rfl, rfl, rfl, fun e he => ?_⟩
  rcases List.mem_cons.mp he with rfl | he
  · exact .inr ⟨rfl, rfl⟩
  · exact .inl he

theorem Issues.noteErase (w : World) (first last : ℕ) : Issues w (w.noteErase first last) := by
  refine ⟨rfl, rfl, rfl, fun e he => ?_⟩
  rcases List.mem_cons.mp he with rfl | he
  · exact .inr ⟨rfl, rfl⟩
  · exact .inl he

/-- A command whose effect spares the registers and the log. -/
theorem Issues.sendCmd (ans : Answers) (idx : CmdIdx) {effect : World → World} (w : World)
    (h : Issues w (effect w)) : Issues w (mmcSendCmd ans idx effect w).2 := by
  unfold mmcSendCmd
  split
  · exact ⟨h.partNum, h.access, h.partConfig, h.log⟩
  · exact ⟨rfl, rfl, rfl, fun _ h => .inl h⟩

theorem Issues.retry {attempt : World → Bool × World} (h : ∀ w, Issues w (attempt w).2) (n : ℕ)
    (w : World) : Issues w (retry attempt n w).2 := by
  induction n generalizing w with
  | zero => exact h w
  | succ n ih =>
    simp only [Mmc.retry]
    split
    · exact h w
    · exact (h w).trans (ih _)

theorem mmcSetBlocklen_issues (ans : Answers) (w : World) : Issues w (mmcSetBlocklen ans w).2 :=
  Issues.retry (fun w => Issues.sendCmd ans _ w (Issues.refl w)) 10 w

theorem mmcStop_issues (ans : Answers) (cnt : ℕ) (w : World) : Issues w (mmcStop ans cnt w).2 := by
  unfold mmcStop
  split
  · dsimp only
    split <;> exact Issues.sendCmd ans _ w (Issues.refl w)
  · exact Issues.refl w

theorem Issues.putBytes (w : World) (addr len : ℕ) (src : Mem) :
    Issues w (w.putBytes addr len src) := ⟨rfl, rfl, rfl, fun _ h => .inl h⟩

theorem mmcWriteBlocks_issues (ans : Answers) (info : Info) (start cnt : ℕ) (src : Mem)
    (w : World) : Issues w (mmcWriteBlocks ans info start cnt src w).2 := by
  unfold mmcWriteBlocks
  split
  · exact Issues.refl w
  · have hs : ∀ blk arg, Issues w (mmcSendCmd ans .writeBlock
        (·.putBytes arg (cnt * info.writeBlLen) src) (w.noteTransfer blk cnt)).2 := fun _ _ =>
      (Issues.noteTransfer w _ _).trans (Issues.sendCmd ans _ _ (Issues.putBytes _ _ _ _))
    dsimp only
    split
    · exact (hs _ _).trans (mmcStop_issues ans cnt _)
    · exact hs _ _

theorem mmcReadBlocks_issues (ans : Answers) (info : Info) (dst : Mem) (start cnt : ℕ)
    (w : World) : Issues w (mmcReadBlocks ans info dst start cnt w).2.2 := by
  have hs : ∀ blk, Issues w (mmcSendCmd ans .readBlock id (w.noteTransfer blk cnt)).2 := fun _ =>
    (Issues.noteTransfer w _ _).trans (Issues.sendCmd ans _ _ (Issues.refl _))
  unfold mmcReadBlocks
  dsimp only
  split
  · exact (hs _).trans (mmcStop_issues ans cnt _)
  · exact hs _

theorem mmcEraseT_issues (ans : Answers) (info : Info) (start cnt : ℕ) (w : World) :
    Issues w (mmcEraseT ans info start cnt w).2 := by
  have h₁ : Issues w (mmcSendCmd ans .eraseGroupStart
      (fun w => { w with eraseStart := info.blockArg start }) w).2 :=
    Issues.sendCmd ans _ w ⟨rfl, rfl, rfl, fun _ h => .inl h⟩
  have h₂ : ∀ w', Issues w' (mmcSendCmd ans .eraseGroupEnd
      (fun w => { w with eraseEnd := info.blockArg (start + cnt - 1) }) w').2 := fun w' =>
    Issues.sendCmd ans _ w' ⟨rfl, rfl, rfl, fun _ h => .inl h⟩
  unfold mmcEraseT
  dsimp only
  split
  · split
    · exact (h₁.trans (h₂ _)).trans ((Issues.noteErase _ _ _).trans
        (Issues.sendCmd ans _ _ (Issues.putBytes _ _ _ _)))
    · exact h₁.trans (h₂ _)
  · exact h₁

theorem mmcWriteLoop_issues (ans : Answers) (info : Info) (fuel start todo : ℕ) (src : Mem)
    (w : World) : Issues w (mmcWriteLoop ans info fuel start todo src w).2 := by
  induction fuel generalizing start todo src w with
  | zero => exact Issues.refl w
  | succ fuel ih =>
    have hb := mmcWriteBlocks_issues ans info start (piece info.bMax todo) src w
    simp only [mmcWriteLoop]
    split
    · exact hb
    · split
      · exact hb.trans (ih _ _ _ _)
      · exact hb

theorem mmcReadLoop_issues (ans : Answers) (info : Info) (fuel start todo off : ℕ) (dst : Mem)
    (w : World) : Issues w (mmcReadLoop ans info fuel start todo off dst w).2.2 := by
  induction fuel generalizing start todo off dst w with
  | zero => exact Issues.refl w
  | succ fuel ih =>
    have hb := mmcReadBlocks_issues ans info (advance dst off) start (piece info.bMax todo) w
    simp only [mmcReadLoop]
    split
    · exact hb
    · split
      · exact hb.trans (ih _ _ _ _ _)
      · exact hb

theorem mmcWriteRange_issues (ans : Answers) (info : Info) (start cnt : ℕ) (src : Mem)
    (w : World) : Issues w (mmcWriteRange ans info start cnt src w).2 := by
  have hb := mmcSetBlocklen_issues ans w
  unfold mmcWriteRange
  dsimp only
  split
  · exact hb.trans (mmcWriteLoop_issues ans info _ _ _ _ _)
  · exact hb

theorem mmcReadRange_issues (ans : Answers) (info : Info) (start cnt : ℕ) (dst : Mem)
    (w : World) : Issues w (mmcReadRange ans info start cnt dst w).2.2 := by
  have hb := mmcSetBlocklen_issues ans w
  unfold mmcReadRange
  dsimp only
  split
  · exact hb.trans (mmcReadLoop_issues ans info _ _ _ _ _ _)
  · exact hb

theorem mmcEraseLoop_issues (ans : Answers) (info : Info) (start cnt fuel blk : ℕ) (w : World) :
    Issues w (mmcEraseLoop ans info start cnt fuel blk w).2 := by
  induction fuel generalizing blk w with
  | zero => exact Issues.refl w
  | succ fuel ih =>
    simp only [mmcEraseLoop]
    split
    · have hb := mmcEraseT_issues ans info (u32 (start + blk))
        (piece info.eraseGrpSize (cnt - blk)) w
      split
      · exact hb.trans (ih _ _)
      · exact hb
    · exact Issues.refl w

theorem mmcBerase_issues (ans : Answers) (info : Info) (start cnt : ℕ) (w : World) :
    Issues w (mmcBerase ans info start cnt w).2 :=
  mmcEraseLoop_issues ans info start cnt _ _ w

/-- From `w` to `w'` only the registers may have changed. -/
structure SameCard (w w' : World) : Prop where
  store : w'.store = w.store
  log : w'.log = w.log

theorem SameCard.refl (w : World) : SameCard w w := ⟨rfl, rfl⟩

theorem SameCard.trans {w₁ w₂ w₃ : World} (h : SameCard w₁ w₂) (h' : SameCard w₂ w₃) :
    SameCard w₁ w₃ := ⟨h'.store.trans h.store, h'.log.trans h.log⟩

/-- The configuration byte sent for a boot partition selects that partition. -/
theorem bootConf_access (cfg : BitVec 8) (p : PartNum) (hp : p = partBoot1 ∨ p = partBoot2) :
    ((cfg &&& ~~~(partAccessMask ||| partBootEnableMask)) ||| (p &&& partAccessMask) |||
      ((p <<< 3) &&& partBootEnableMask)) &&& partAccessMask = p := by
  revert cfg
  rcases hp with rfl | rfl <;> decide +kernel

/-- Rewriting the access bits selects the partition. -/
theorem accessConf_access (cfg : BitVec 8) (p : PartNum) (hp : IsPart p) :
    ((cfg &&& ~~~partAccessMask) ||| (p &&& partAccessMask)) &&& partAccessMask = p := by
  revert cfg
  rcases hp with rfl | rfl | rfl <;> decide +kernel

/-- One attempt of the low-level switch: it succeeds or fails with its command,
never touches the cache, and leaves everything alone when it fails. -/
theorem mmcSwitchPart_spec (ans : Answers) (p : PartNum) (hp : IsPart p) (w : World) :
    let r := mmcSwitchPart ans p w
    r.1 = ans w.clock .switch ∧ r.2.clock = w.clock + 1 ∧ SameCard w r.2 ∧
      r.2.partNum = w.partNum ∧ (r.1 = true → r.2.access = p) ∧
      (r.1 = false → r.2.access = w.access ∧ r.2.partConfig = w.partConfig) := by
  unfold mmcSwitchPart mmcSwitch mmcSendCmd
  by_cases hb : p = partBoot1 ∨ p = partBoot2
  · cases ha : ans w.clock .switch
    · simp [hb]
      exact ⟨rfl, rfl⟩
    · simp [hb, World.setPartConf, bootConf_access _ p hb]
      exact ⟨rfl, rfl⟩
  · cases ha : ans w.clock .switch
    · simp [hb]
      exact ⟨rfl, rfl⟩
    · simp [hb, World.setPartConf, accessConf_access _ p hp]
      exact ⟨rfl, rfl⟩

/-- A retried switch behaves like its last attempt. -/
theorem retry_switchPart_spec (ans : Answers) (p : PartNum) (hp : IsPart p) (n : ℕ) (w : World) :
    let r := retry (mmcSwitchPart ans p) n w
    SameCard w r.2 ∧ r.2.partNum = w.partNum ∧ (r.1 = true → r.2.access = p) ∧
      (r.1 = false → r.2.access = w.access ∧ r.2.partConfig = w.partConfig) := by
  induction n generalizing w with
  | zero =>
    obtain ⟨-, -, h⟩ := mmcSwitchPart_spec ans p hp w
    exact h
  | succ n ih =>
    obtain ⟨-, -, hc, hn, ht, hf⟩ := mmcSwitchPart_spec ans p hp w
    simp only [retry]
    split
    · exact ⟨hc, hn, ht, hf⟩
    · next h =>
      obtain ⟨hc', hn', ht', hf'⟩ := ih (mmcSwitchPart ans p w).2
      obtain ⟨ha, hp'⟩ := hf (by simpa using h)
      exact ⟨hc.trans hc', hn'.trans hn, ht', fun h0 => ⟨(hf' h0).1.trans ha,
        (hf' h0).2.trans hp'⟩⟩

/-- The cached switch: on success the cache, the card and the access bits agree on
the partition asked for; on failure nothing has moved. -/
theorem mmcSwitchPartition_spec (ans : Answers) (p : PartNum) (hp : IsPart p) (w : World) :
    let r := mmcSwitchPartition ans p w
    SameCard w r.2 ∧ (r.1 = true → r.2.partNum = p) ∧
      (r.1 = true → w.partNum ≠ p → r.2.access = p ∧ r.2.partConfig &&& partAccessMask = p) ∧
      (r.1 = false ∨ w.partNum = p → r.2.partNum = w.partNum ∧ r.2.access = w.access ∧
        r.2.partConfig = w.partConfig) := by
  unfold mmcSwitchPartition
  by_cases hna : w.partConfig = mmcpartNoavailable
  · simp [hna, SameCard.refl]
  · by_cases heq : p = w.partNum
    · simp [hna, heq, SameCard.refl]
    · obtain ⟨hc, hn, ht, hf⟩ := retry_switchPart_spec ans p hp 10 w
      simp only [hna, if_false, ne_eq, heq, not_false_eq_true, if_true]
      cases hr : (retry (mmcSwitchPart ans p) 10 w).1
      · simp [hc, hn, hf hr, Ne.symm heq]
      · simp [ht hr, Ne.symm heq, accessConf_access _ p hp]
        exact ⟨hc.store, hc.log⟩

/-- The cache agrees with the card. -/
def Coherent (w : World) : Prop := w.partNum = w.access

theorem mmcSwitchPartition_coherent (ans : Answers) (p : PartNum) (hp : IsPart p) {w : World}
    (hw : Coherent w) : Coherent (mmcSwitchPartition ans p w).2 := by
  obtain ⟨-, hn, ha, hf⟩ := mmcSwitchPartition_spec ans p hp w
  unfold Coherent at *
  by_cases h : (mmcSwitchPartition ans p w).1 = false ∨ w.partNum = p
  · rw [(hf h).1, (hf h).2.1, hw]
  · simp only [not_or, Bool.not_eq_false] at h
    rw [hn h.1, (ha h.1 h.2).1]

theorem partUser_isPart : IsPart partUser := .inl rfl
theorem partBoot1_isPart : IsPart partBoot1 := .inr (.inl rfl)
theorem partBoot2_isPart : IsPart partBoot2 := .inr (.inr rfl)

theorem mmcRoute_sameCard (ans : Answers) (info : Info) (start cnt : ℕ) (w : World) :
    SameCard w (mmcRoute ans info start cnt w) := by
  have hs := fun p (hp : IsPart p) w => (mmcSwitchPartition_spec ans p hp w).1
  unfold mmcRoute
  split
  · split
    · dsimp only
      split
      · exact hs _ partBoot1_isPart w
      · exact (hs _ partBoot1_isPart w).trans (hs _ partBoot2_isPart _)
    · exact SameCard.refl w
  · split
    · exact hs _ partUser_isPart w
    · exact SameCard.refl w

theorem mmcRouteGpt_sameCard (ans : Answers) (w : World) : SameCard w (mmcRouteGpt ans w) := by
  unfold mmcRouteGpt
  split
  · exact (mmcSwitchPartition_spec ans _ partUser_isPart w).1
  · exact SameCard.refl w

theorem mmcRoute_coherent (ans : Answers) (info : Info) (start cnt : ℕ) {w : World}
    (hw : Coherent w) : Coherent (mmcRoute ans info start cnt w) := by
  have hs := fun p (hp : IsPart p) {w} (hw : Coherent w) => mmcSwitchPartition_coherent ans p hp hw
  unfold mmcRoute
  split
  · split
    · dsimp only
      split
      · exact hs _ partBoot1_isPart hw
      · exact hs _ partBoot2_isPart (hs _ partBoot1_isPart hw)
    · exact hw
  · split
    · exact hs _ partUser_isPart hw
    · exact hw

theorem mmcRouteGpt_coherent (ans : Answers) {w : World} (hw : Coherent w) :
    Coherent (mmcRouteGpt ans w) := by
  unfold mmcRouteGpt
  split
  · exact mmcSwitchPartition_coherent ans _ partUser_isPart hw
  · exact hw

end UBoot.Mmc
