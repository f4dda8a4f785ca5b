import UBoot.Mmc.Transfer

/-!
# Requests that should be refused

A write beyond the end of the device, and a transfer whose partition switch has failed. The
range is checked piece by piece, and the results of the switches are dropped.
-/
namespace UBoot.Mmc
open ByteStore

variable {ans : Answers} {info : Info} {start cnt : ℕ} {src : Mem} {w : World}

/-- The first piece of a write is checked before a command is issued. -/
theorem mmcWriteRange_of_past (hcnt : 0 < cnt)
    (hpast : info.lba < u32 (start + piece info.bMax cnt)) :
    mmcWriteRange ans info start cnt src w = (0, (mmcSetBlocklen ans w).2) := by
  have hcur := piece_pos info.bMax_pos hcnt
  have hloop : mmcWriteLoop ans info (cnt + 1) start cnt src (mmcSetBlocklen ans w).2 =
      (false, (mmcSetBlocklen ans w).2) := by
    rw [mmcWriteLoop, mmcWriteBlocks, if_pos hpast, if_pos hcur.ne]
  unfold mmcWriteRange
  dsimp only
  rw [hloop]
  split
  · rfl
  · rfl

theorem mmcSetBlocklen_store (ans : Answers) (w : World) :
    (mmcSetBlocklen ans w).2.store = w.store := retry_setBlocklen_store ans 10 w

/-- Nothing is written, and the caller is told so. -/
def WriteRefused (info : Info) (start cnt : ℕ) : Prop :=
  ∀ ans src w, (mmcBwrite ans info start cnt src w).1 = 0 ∧
    (mmcBwrite ans info start cnt src w).2.store = w.store

theorem writeRefused_of_past (hcnt : 0 < cnt)
    (hpast : info.lba < u32 (start + piece info.bMax cnt)) : WriteRefused info start cnt := by
  intro ans src w
  rw [mmcBwrite, mmcWriteRange_of_past hcnt hpast]
  exact ⟨rfl, (mmcSetBlocklen_store ans _).trans (mmcRoute_sameCard ans info start cnt w).store⟩

/-- The byte that the test pattern below puts everywhere. -/
def ones : Mem := fun _ => 1

theorem putBytes_ones {p : PartNum} {a : ℕ} (h : w.store p a = 1) (addr len : ℕ) :
    (w.putBytes addr len ones).store p a = 1 := by
  unfold World.putBytes
  dsimp only
  by_cases hp : p = w.access
  · rw [hp, Function.update_self]
    unfold overlay
    split
    · rfl
    · rw [← hp]
      exact h
  · rw [Function.update_of_ne hp]
    exact h

theorem mmcSendCmd_ones {p : PartNum} {a : ℕ} {idx : CmdIdx} {effect : World → World}
    (h : w.store p a = 1) (heffect : (effect w).store p a = 1) :
    (mmcSendCmd ans idx effect w).2.store p a = 1 := by
  unfold mmcSendCmd
  split
  · exact heffect
  · exact h

theorem mmcStop_store (ans : Answers) (cnt : ℕ) (w : World) :
    (mmcStop ans cnt w).2.store = w.store := by
  unfold mmcStop mmcSendCmd
  dsimp only
  split_ifs <;> rfl

theorem mmcWriteBlocks_ones {p : PartNum} {a : ℕ} (h : w.store p a = 1) :
    (mmcWriteBlocks ans info start cnt ones w).2.store p a = 1 := by
  have hsend := @mmcSendCmd_ones ans (w.noteTransfer (info.argBlock (info.blockArg start)) cnt) _ _
    .writeBlock (·.putBytes (info.argByte (info.blockArg start)) (cnt * info.writeBlLen) ones) h
    (putBytes_ones h _ _)
  unfold mmcWriteBlocks
  split
  · exact h
  · dsimp only
    split
    · rw [mmcStop_store]
      exact hsend
    · exact hsend

/-- A piece that passes the check is stored by a card on which everything succeeds. -/
theorem mmcWriteBlocks_stores (hcnt : 0 < cnt) (hin : ¬ u32 (start + cnt) > info.lba) :
    (mmcWriteBlocks (fun _ _ => true) info start cnt ones w).2.store w.access
      (info.argByte (info.blockArg start)) = 1 := by
  have hlen : 0 < cnt * info.writeBlLen := Nat.mul_pos hcnt info.blLen_pos
  unfold mmcWriteBlocks
  rw [if_neg hin]
  dsimp only
  rw [mmcSendCmd_of_ok _ _ rfl, if_pos rfl, mmcStop_store]
  dsimp only [World.putBytes, World.noteTransfer]
  rw [Function.update_self, overlay_of_mem _ _ le_rfl (by omega)]
  rfl

theorem mmcWriteLoop_ones {p : PartNum} {a : ℕ} (fuel todo : ℕ) (h : w.store p a = 1) :
    (mmcWriteLoop ans info fuel start todo ones w).2.store p a = 1 := by
  induction fuel generalizing start todo w with
  | zero => exact h
  | succ fuel ih =>
    have hblocks := @mmcWriteBlocks_ones ans info start (piece info.bMax todo) _ _ _ h
    have hones : ∀ k, advance ones k = ones := fun _ => rfl
    simp only [mmcWriteLoop, hones]
    split_ifs
    · exact hblocks
    · exact ih _ hblocks
    · exact hblocks

/-- If the first piece passes, a card on which everything succeeds stores it. -/
theorem past_of_writeRefused (hcnt : 0 < cnt) (h : WriteRefused info start cnt) :
    info.lba < u32 (start + piece info.bMax cnt) := by
  by_contra hpast
  have hcur := piece_pos info.bMax_pos hcnt
  let blank : World := ⟨0, 0, 0, fun _ _ => 0, 0, 0, 0, []⟩
  have hstore := (h (fun _ _ => true) ones blank).2
  generalize hw : (mmcSetBlocklen (fun _ _ => true)
    (mmcRoute (fun _ _ => true) info start cnt blank)).2 = w
  have hfirst := mmcWriteBlocks_stores (w := w) hcur hpast
  have hmark : (mmcWriteLoop (fun _ _ => true) info (cnt + 1) start cnt ones w).2.store w.access
      (info.argByte (info.blockArg start)) = 1 := by
    have hones : ∀ k, advance ones k = ones := fun _ => rfl
    simp only [mmcWriteLoop, hones]
    split_ifs
    · exact hfirst
    · exact mmcWriteLoop_ones _ _ hfirst
    · exact hfirst
  have hset : (mmcSetBlocklen (fun _ _ => true)
      (mmcRoute (fun _ _ => true) info start cnt blank)).1 = true := rfl
  rw [mmcBwrite, mmcWriteRange, hset, hw] at hstore
  have hzero := congrFun (congrFun hstore w.access) (info.argByte (info.blockArg start))
  have hne : (1 : UInt8) ≠ 0 := by decide
  exact hne (hmark.symm.trans hzero)

/-- A write is refused as a whole exactly if its first piece leaves the device, in the 32 bits
in which the driver adds. -/
theorem writeRefused_iff (info : Info) (start cnt : ℕ) (hcnt : 0 < cnt) :
    WriteRefused info start cnt ↔ info.lba < u32 (start + piece info.bMax cnt) :=
  ⟨past_of_writeRefused hcnt, writeRefused_of_past hcnt⟩

theorem write_past_the_end_is_refused : WriteRefused emmc emmc.lba 1 :=
  (writeRefused_iff emmc emmc.lba 1 (by decide)).mpr (by decide)

/-- A write that is longer than the device by one block: all pieces but the last are stored. -/
theorem long_write_is_not_refused :
    emmc.lba < 0 + (emmc.lba + 1) ∧ ¬ WriteRefused emmc 0 (emmc.lba + 1) :=
  ⟨by decide, fun h => absurd (past_of_writeRefused (by decide) h) (by decide)⟩

/-- The partition that the driver believes in is one that the request needs. -/
def KindReached (info : Info) (start cnt : ℕ) (w : World) : Prop :=
  if u32 (start + cnt) ≤ info.bootBlkcnt then w.partNum ≠ partUser else w.partNum = partUser

instance (info : Info) (start cnt : ℕ) (w : World) : Decidable (KindReached info start cnt w) := by
  unfold KindReached
  infer_instance

theorem mmcSendCmd_log {idx : CmdIdx} {effect : World → World}
    (h : (effect w).log = w.log) : (mmcSendCmd ans idx effect w).2.log = w.log := by
  unfold mmcSendCmd
  split
  · exact h
  · rfl

theorem mmcSetBlocklen_log (ans : Answers) (w : World) : (mmcSetBlocklen ans w).2.log = w.log := by
  have hretry : ∀ n w, (retry (mmcSendCmd ans .setBlocklen id) n w).2.log = w.log := by
    intro n
    induction n with
    | zero => exact fun w => mmcSendCmd_log rfl
    | succ n ih =>
      intro w
      simp only [retry]
      split
      · exact mmcSendCmd_log rfl
      · exact (ih _).trans (mmcSendCmd_log rfl)
  exact hretry 10 w

theorem mmcStop_log (ans : Answers) (cnt : ℕ) (w : World) : (mmcStop ans cnt w).2.log = w.log := by
  unfold mmcStop
  split
  · dsimp only
    split
    · exact mmcSendCmd_log rfl
    · exact mmcSendCmd_log rfl
  · rfl

/-- A piece that passes the check is noted as a transfer. -/
theorem mmcWriteBlocks_log (hin : ¬ u32 (start + cnt) > info.lba) :
    (mmcWriteBlocks ans info start cnt src w).2.log.length = w.log.length + 1 := by
  have hsend : (mmcSendCmd ans .writeBlock
      (·.putBytes (info.argByte (info.blockArg start)) (cnt * info.writeBlLen) src)
      (w.noteTransfer (info.argBlock (info.blockArg start)) cnt)).2.log.length =
      w.log.length + 1 := congrArg List.length (mmcSendCmd_log rfl)
  unfold mmcWriteBlocks
  rw [if_neg hin]
  dsimp only
  split
  · rw [mmcStop_log]
    exact hsend
  · exact hsend

theorem mmcWriteBlocks_log_le :
    w.log.length ≤ (mmcWriteBlocks ans info start cnt src w).2.log.length := by
  by_cases hin : u32 (start + cnt) > info.lba
  · rw [mmcWriteBlocks, if_pos hin]
  · rw [mmcWriteBlocks_log hin]
    omega

theorem mmcWriteLoop_log_le (fuel todo : ℕ) :
    w.log.length ≤ (mmcWriteLoop ans info fuel start todo src w).2.log.length := by
  induction fuel generalizing start todo src w with
  | zero => exact le_rfl
  | succ fuel ih =>
    have hblocks := @mmcWriteBlocks_log_le ans info start (piece info.bMax todo) src w
    simp only [mmcWriteLoop]
    split_ifs
    · exact hblocks
    · exact hblocks.trans (ih _)
    · exact hblocks

theorem mmcReadBlocks_log (dst : Mem) :
    (mmcReadBlocks ans info dst start cnt w).2.2.log.length = w.log.length + 1 := by
  have hsend : (mmcSendCmd ans .readBlock id
      (w.noteTransfer (info.argBlock (info.blockArg start)) cnt)).2.log.length =
      w.log.length + 1 := congrArg List.length (mmcSendCmd_log rfl)
  unfold mmcReadBlocks
  dsimp only
  split
  · dsimp only
    rw [mmcStop_log]
    exact hsend
  · exact hsend

theorem mmcReadLoop_log_le (fuel todo off : ℕ) (dst : Mem) :
    w.log.length ≤ (mmcReadLoop ans info fuel start todo off dst w).2.2.log.length := by
  induction fuel generalizing start todo off dst w with
  | zero => exact le_rfl
  | succ fuel ih =>
    have hblocks := @mmcReadBlocks_log ans info start (piece info.bMax todo) w (advance dst off)
    simp only [mmcReadLoop]
    split_ifs
    · exact (Nat.le_succ _).trans hblocks.ge
    · exact ((Nat.le_succ _).trans hblocks.ge).trans (ih _ _ _)
    · exact (Nat.le_succ _).trans hblocks.ge

/-- A piece that passes the check leaves its trace, whatever comes behind it. -/
theorem mmcWriteLoop_log_lt (fuel : ℕ)
    (hin : ¬ u32 (start + piece info.bMax cnt) > info.lba) :
    w.log.length < (mmcWriteLoop ans info (fuel + 1) start cnt src w).2.log.length := by
  have hblocks := @mmcWriteBlocks_log ans _ _ _ src w hin
  simp only [mmcWriteLoop]
  split_ifs
  · exact hblocks.ge
  · exact lt_of_lt_of_le hblocks.ge (mmcWriteLoop_log_le _ _)
  · exact hblocks.ge

theorem mmcReadLoop_log_lt (fuel off : ℕ) (dst : Mem) :
    w.log.length < (mmcReadLoop ans info (fuel + 1) start cnt off dst w).2.2.log.length := by
  have hblocks := @mmcReadBlocks_log ans info start (piece info.bMax cnt) w (advance dst off)
  simp only [mmcReadLoop]
  split_ifs
  · exact hblocks.ge
  · exact lt_of_lt_of_le hblocks.ge (mmcReadLoop_log_le _ _ _ _)
  · exact hblocks.ge

/-- An empty write whose start is past the end issues nothing either. -/
theorem mmcWriteLoop_of_past (hpast : info.lba < u32 (start + piece info.bMax cnt)) :
    (if (mmcWriteLoop ans info (cnt + 1) start cnt src w).1 then cnt else 0) = 0 ∧
      (mmcWriteLoop ans info (cnt + 1) start cnt src w).2 = w := by
  have hblocks : mmcWriteBlocks ans info start (piece info.bMax cnt) src w = (0, w) := by
    rw [mmcWriteBlocks, if_pos hpast]
  rcases Nat.eq_zero_or_pos cnt with rfl | hcnt
  · have hpiece : piece info.bMax 0 = 0 := by
      unfold piece
      split <;> omega
    rw [hpiece] at hblocks
    simp [mmcWriteLoop, hblocks, hpiece]
  · have hcur := piece_pos info.bMax_pos hcnt
    simp [mmcWriteLoop, hblocks, hcur.ne]

/-- A write issues nothing exactly if the block length is refused or the first piece is. -/
theorem mmcWriteRange_silent_iff (ans : Answers) (info : Info) (start cnt : ℕ) (src : Mem)
    (w : World) : (mmcWriteRange ans info start cnt src w).1 = 0 ∧
      (mmcWriteRange ans info start cnt src w).2.log = w.log ↔
    (mmcSetBlocklen ans w).1 = false ∨ info.lba < u32 (start + piece info.bMax cnt) := by
  have hlog := mmcSetBlocklen_log ans w
  unfold mmcWriteRange
  dsimp only
  cases hset : (mmcSetBlocklen ans w).1 with
  | false =>
    rw [if_neg (by decide)]
    exact ⟨fun _ => .inl rfl, fun _ => ⟨rfl, hlog⟩⟩
  | true =>
    rw [if_pos rfl]
    by_cases hpast : info.lba < u32 (start + piece info.bMax cnt)
    · obtain ⟨hret, hsame⟩ := @mmcWriteLoop_of_past ans _ _ _ src ((mmcSetBlocklen ans w).2) hpast
      rw [hsame]
      exact ⟨fun _ => .inr hpast, fun _ => ⟨hret, hlog⟩⟩
    · have hgrow := @mmcWriteLoop_log_lt ans _ _ _ src ((mmcSetBlocklen ans w).2) cnt hpast
      refine ⟨fun h => ?_, fun h => ?_⟩
      · rw [h.2, hlog] at hgrow
        exact absurd hgrow (lt_irrefl _)
      · rcases h with h | h
        · cases h
        · exact absurd h hpast

theorem mmcReadRange_silent_iff (ans : Answers) (info : Info) (start cnt : ℕ) (dst : Mem)
    (w : World) : (mmcReadRange ans info start cnt dst w).1 = 0 ∧
      (mmcReadRange ans info start cnt dst w).2.2.log = w.log ↔
    (mmcSetBlocklen ans w).1 = false := by
  have hlog := mmcSetBlocklen_log ans w
  unfold mmcReadRange
  dsimp only
  cases hset : (mmcSetBlocklen ans w).1 with
  | false =>
    rw [if_neg (by decide)]
    exact ⟨fun _ => rfl, fun _ => ⟨rfl, hlog⟩⟩
  | true =>
    rw [if_pos rfl]
    have hgrow := @mmcReadLoop_log_lt ans info start cnt ((mmcSetBlocklen ans w).2) cnt 0 dst
    refine ⟨fun h => ?_, fun h => by cases h⟩
    rw [h.2, hlog] at hgrow
    exact absurd hgrow (lt_irrefl _)

/-- A request that stops with nothing transferred, whatever the buffers hold. -/
structure Stops (ans : Answers) (info : Info) (start cnt : ℕ) (w : World) : Prop where
  bwrite : ∀ src, (mmcBwrite ans info start cnt src w).1 = 0 ∧
    (mmcBwrite ans info start cnt src w).2.log = w.log
  bread : ∀ dst, (mmcBread ans info start cnt dst w).1 = 0 ∧
    (mmcBread ans info start cnt dst w).2.2.log = w.log

/-- What stops a request: the card takes no block length, or the range is past the end, in
which case a read is over before the switch. -/
theorem stops_iff (ans : Answers) (info : Info) (start cnt : ℕ) (w : World) :
    Stops ans info start cnt w ↔
      (mmcSetBlocklen ans (mmcRoute ans info start cnt w)).1 = false ∨
        info.lba < u32 (start + piece info.bMax cnt) ∧ (cnt = 0 ∨ info.lba < u32 (start + cnt)) :=
          by
  have hlog := (mmcRoute_sameCard ans info start cnt w).log
  have hwrite := fun src =>
    mmcWriteRange_silent_iff ans info start cnt src (mmcRoute ans info start cnt w)
  have hread := fun dst =>
    mmcReadRange_silent_iff ans info start cnt dst (mmcRoute ans info start cnt w)
  rw [hlog] at hwrite hread
  constructor
  · intro h
    rcases (hwrite (fun _ => 0)).mp (h.bwrite _) with hset | hpast
    · exact .inl hset
    · by_cases hrange : cnt = 0 ∨ info.lba < u32 (start + cnt)
      · exact .inr ⟨hpast, hrange⟩
      · obtain ⟨hcnt, hin⟩ := not_or.mp hrange
        have hbread := h.bread (fun _ => 0)
        rw [mmcBread, if_neg hcnt, if_neg hin] at hbread
        exact .inl ((hread _).mp hbread)
  · intro h
    refine ⟨fun src => (hwrite src).mpr ?_, fun dst => ?_⟩
    · rcases h with hset | ⟨hpast, -⟩
      · exact .inl hset
      · exact .inr hpast
    · unfold mmcBread
      split_ifs with hcnt hin
      · exact ⟨rfl, rfl⟩
      · exact ⟨rfl, rfl⟩
      · refine (hread dst).mpr ?_
        rcases h with hset | ⟨-, hcnt' | hin'⟩
        · exact hset
        · exact absurd hcnt' hcnt
        · exact absurd hin' hin

/-- The `SWITCH` commands sent while none of them succeeds: eleven for the user area, eleven
for each boot partition, and none for a card without partitions. -/
def switchesSent (info : Info) (start cnt : ℕ) (w : World) : ℕ :=
  if w.partConfig = mmcpartNoavailable then 0
  else if u32 (start + cnt) ≤ info.bootBlkcnt then 22 else 11

theorem mmcSwitchPart_of_refused {p : PartNum} (h : ans w.clock .switch = false) :
    (mmcSwitchPart ans p w).2 = { w with clock := w.clock + 1 } := by
  unfold mmcSwitchPart mmcSwitch mmcSendCmd
  dsimp only
  rw [h]
  split <;> rfl

/-- Either one of eleven `SWITCH` commands is accepted, and the partition is selected, or the
driver and the card are as they were. -/
theorem mmcSwitchPartition_cases (ans : Answers) {p : PartNum} (hp : IsPart p)
    (hne : p ≠ w.partNum) (hc : w.partConfig ≠ mmcpartNoavailable) :
    ((∃ i < 11, ans (w.clock + i) .switch = true) ∧ (mmcSwitchPartition ans p w).1 = true ∧
      (mmcSwitchPartition ans p w).2.partNum = p) ∨
    ((∀ i < 11, ans (w.clock + i) .switch = false) ∧
      mmcSwitchPartition ans p w = (false, { w with clock := w.clock + 11 })) := by
  obtain ⟨hiff, hstay⟩ := retry_spec (fun w => (mmcSwitchPart_spec ans p hp w).1)
    (fun w h => mmcSwitchPart_of_refused h) 10 w
  rw [mmcSwitchPartition, if_neg hc, if_pos hne]
  cases hretry : (retry (mmcSwitchPart ans p) 10 w).1 with
  | true =>
    obtain ⟨i, hi, ha⟩ := hiff.mp hretry
    exact .inl ⟨⟨i, by omega, ha⟩, by simp [hretry], by simp [hretry]⟩
  | false =>
    refine .inr ⟨fun i hi => ?_, by simp [hretry, hstay hretry]⟩
    by_contra ha
    rw [hiff.mpr ⟨i, by omega, Bool.eq_true_of_not_eq_false ha⟩] at hretry
    cases hretry

theorem mmcRoute_of_kindReached (ans : Answers) (h : KindReached info start cnt w) :
    mmcRoute ans info start cnt w = w := by
  unfold KindReached at h
  unfold mmcRoute
  split at h
  · next hb => rw [if_pos hb, if_neg h]
  · next hb => rw [if_neg hb, if_neg (not_not.mpr h)]

/-- The whole partition choice on the answers: either a `SWITCH` is accepted and the request
is where it should be, or the commands sent are all that has happened. -/
theorem mmcRoute_cases (ans : Answers) (info : Info) (start cnt : ℕ) (w : World)
    (hneed : ¬ KindReached info start cnt w) :
    ((∃ i < switchesSent info start cnt w, ans (w.clock + i) .switch = true) ∧
      KindReached info start cnt (mmcRoute ans info start cnt w)) ∨
    ((∀ i < switchesSent info start cnt w, ans (w.clock + i) .switch = false) ∧
      mmcRoute ans info start cnt w =
        { w with clock := w.clock + switchesSent info start cnt w }) := by
  by_cases hc : w.partConfig = mmcpartNoavailable
  · -- no switch is sent
    have hsw : ∀ p, mmcSwitchPartition ans p w = (false, w) := fun p => by
      rw [mmcSwitchPartition, if_pos hc]
    rw [switchesSent, if_pos hc, mmcRoute]
    simp only [hsw, Bool.false_eq_true, ite_self]
    exact .inr ⟨fun i hi => absurd hi (Nat.not_lt_zero i), rfl⟩
  by_cases hb : u32 (start + cnt) ≤ info.bootBlkcnt
  · simp only [KindReached, if_pos hb, not_not] at hneed
    simp only [KindReached, mmcRoute, switchesSent, if_pos hb, if_pos hneed, if_neg hc]
    rcases mmcSwitchPartition_cases ans partBoot1_isPart (by rw [hneed]; decide) hc with
      ⟨⟨i, hi, ha⟩, htrue, hnum⟩ | ⟨hfirst, heq⟩
    · rw [if_pos htrue, hnum]
      exact .inl ⟨⟨i, by omega, ha⟩, by decide⟩
    · rw [heq, if_neg Bool.false_ne_true]
      let w' : World := { w with clock := w.clock + 11 }
      have hne : partBoot2 ≠ w'.partNum := by
        rw [show w'.partNum = partUser from hneed]
        decide
      rcases mmcSwitchPartition_cases ans partBoot2_isPart hne hc with
        ⟨⟨i, hi, ha⟩, -, hnum⟩ | ⟨hsecond, heq⟩
      · rw [hnum]
        rw [show w'.clock + i = w.clock + (11 + i) from Nat.add_assoc ..] at ha
        exact .inl ⟨⟨11 + i, by omega, ha⟩, by decide⟩
      · rw [heq]
        refine .inr ⟨fun i hi => ?_, rfl⟩
        by_cases hlt : i < 11
        · exact hfirst i hlt
        · have hlater := hsecond (i - 11) (by omega)
          rwa [show w'.clock + (i - 11) = w.clock + i by simp only [w']; omega] at hlater
  · simp only [KindReached, if_neg hb] at hneed
    simp only [KindReached, mmcRoute, switchesSent, if_neg hb, if_neg hc, ne_eq, hneed,
      not_false_eq_true, if_true]
    rcases mmcSwitchPartition_cases ans partUser_isPart (fun h => hneed h.symm) hc with
      ⟨hsw, -, hnum⟩ | ⟨hall, heq⟩
    · exact .inl ⟨hsw, hnum⟩
    · exact .inr ⟨hall, by rw [heq]⟩

/-- A switch that reached no partition of the right kind is no reason to stop. What the
request needs not to go wrong: the partition cached at the start is right, or one of the
`SWITCH` commands is accepted, or the card then refuses eleven `SET_BLOCKLEN` commands, or
the range is past the end. -/
theorem failed_switch_stops_iff (ans : Answers) (info : Info) (start cnt : ℕ) (w : World) :
    (¬ KindReached info start cnt (mmcRoute ans info start cnt w) → Stops ans info start cnt w) ↔
      KindReached info start cnt w ∨
        (∃ i < switchesSent info start cnt w, ans (w.clock + i) .switch = true) ∨
        (∀ i ≤ 10, ans (w.clock + switchesSent info start cnt w + i) .setBlocklen = false) ∨
        info.lba < u32 (start + piece info.bMax cnt) ∧ (cnt = 0 ∨ info.lba < u32 (start + cnt)) :=
          by
  by_cases hneed : KindReached info start cnt w
  · rw [mmcRoute_of_kindReached ans hneed]
    exact ⟨fun _ => .inl hneed, fun _ h => absurd hneed h⟩
  rcases mmcRoute_cases ans info start cnt w hneed with ⟨hsw, hreached⟩ | ⟨hall, hroute⟩
  · exact ⟨fun _ => .inr (.inl hsw), fun _ h => absurd hreached h⟩
  have hsw : ¬ ∃ i < switchesSent info start cnt w, ans (w.clock + i) .switch = true := by
    rintro ⟨i, hi, ha⟩
    rw [hall i hi] at ha
    cases ha
  have hmissed : ¬ KindReached info start cnt (mmcRoute ans info start cnt w) := by
    rw [hroute]
    exact hneed
  have hset := mmcSetBlocklen_eq_true_iff ans (mmcRoute ans info start cnt w)
  have hrefused : (mmcSetBlocklen ans (mmcRoute ans info start cnt w)).1 = false ↔
      ∀ i ≤ 10, ans (w.clock + switchesSent info start cnt w + i) .setBlocklen = false := by
    rw [← Bool.not_eq_true, hset, hroute]
    simp only [not_exists, not_and, Bool.not_eq_true]
  rw [stops_iff, hrefused]
  exact ⟨fun h => .inr (.inr (h hmissed)),
    fun h _ => (h.resolve_left hneed).resolve_left hsw⟩

/-- Block 0 is written to the user area when no switch to a boot partition succeeds. -/
theorem write_after_failed_switch :
    ¬ KindReached emmc 0 1 (mmcRoute (fun _ c => c ≠ .switch) emmc 0 1 afterInit) ∧
      ¬ Stops (fun _ c => c ≠ .switch) emmc 0 1 afterInit :=
  ⟨by decide +kernel, fun h => absurd (h.bwrite fun _ => 0).1 (by decide +kernel)⟩

end UBoot.Mmc
