import UBoot.Mmc.Transfer
import UBoot.Library.Machine

/-!
# Reading back what was written through the block layer

The block layer shows one flat array of blocks over two hardware partitions. A
block written as part of a range that straddles the end of the boot partition
goes to the user area, and is looked for in the boot partition when it is read as
part of a range below that end. For ranges on one side of the boundary the layer
is a flat array: every read returns the latest write of each block.
-/
namespace UBoot.Mmc
open ByteStore

/-- The range crosses the end of the boot partition. -/
def Straddles (info : Info) (start cnt : ℕ) : Prop :=
  start < info.bootBlkcnt ∧ info.bootBlkcnt < start + cnt

instance (info : Info) (start cnt : ℕ) : Decidable (Straddles info start cnt) :=
  inferInstanceAs (Decidable (_ ∧ _))

/-- The partition in which a single-block request looks for block `b`. -/
def Info.home (info : Info) (b : ℕ) : PartNum :=
  if b < info.bootBlkcnt then partBoot1 else partUser

/-- Byte `j` of block `b` as a single-block request sees it. -/
def content (info : Info) (w : World) (b j : ℕ) : UInt8 :=
  w.store (info.home b) (b * info.writeBlLen + j)

/-- One `mmc_bwrite` call that returned its block count. -/
structure BlockWrite where
  start : ℕ
  cnt : ℕ
  src : Mem

/-- The byte put in block `b` by the newest write that covered it, or the initial one. -/
def lastWritten (bl : ℕ) (init : ℕ → ℕ → UInt8) : List BlockWrite → ℕ → ℕ → UInt8
  | [], b, j => init b j
  | h :: hs, b, j =>
    if h.start ≤ b ∧ b < h.start + h.cnt then h.src ((b - h.start) * bl + j)
    else lastWritten bl init hs b j

inductive BlockOp where
  | bwrite (start cnt : ℕ) (src : Mem)
  | bread (start cnt : ℕ) (dst : Mem)

def BlockOp.start : BlockOp → ℕ
  | .bwrite s _ _ => s
  | .bread s _ _ => s

def BlockOp.cnt : BlockOp → ℕ
  | .bwrite _ c _ => c
  | .bread _ c _ => c

/-- The write a call asks for. -/
def BlockOp.asWrite : BlockOp → Option BlockWrite
  | .bwrite s c src => some ⟨s, c, src⟩
  | .bread _ _ _ => none

/-- The block layer together with the history of its successful writes. -/
def blockLayer (ans : Answers) (info : Info) :
    Machine (World × List BlockWrite) BlockOp (ℕ × Mem) where
  step s op :=
    match op with
    | .bwrite start cnt src =>
      let r := mmcBwrite ans info start cnt src s.1
      ((r.1, src), r.2, if r.1 = cnt then ⟨start, cnt, src⟩ :: s.2 else s.2)
    | .bread start cnt dst =>
      let r := mmcBread ans info start cnt dst s.1
      ((r.1, r.2.1), r.2.2, s.2)

/-- Of any eleven `SET_BLOCKLEN` commands in a row the card accepts one, so that
`mmc_set_blocklen` succeeds within its retries. -/
def BlocklenAccepted (ans : Answers) : Prop :=
  ∀ n, ∃ i ≤ 10, ans (n + i) .setBlocklen = true

/-- After the calls `ops`, a read of `cnt` blocks from `start` on: where the card accepts
the block length every write of the run is in the history and the read reports its block
count; and a read that reports it returns the newest write of each block. -/
structure ReadsBack (ans : Answers) (info : Info) (w₀ : World) (ops : List BlockOp)
    (start cnt : ℕ) (dst : Mem) : Prop where
  recorded : BlocklenAccepted ans →
    ((blockLayer ans info).run (w₀, []) ops).2 = (ops.filterMap BlockOp.asWrite).reverse
  complete : BlocklenAccepted ans →
    (mmcBread ans info start cnt dst ((blockLayer ans info).run (w₀, []) ops).1).1 = cnt
  bytes :
    let s := (blockLayer ans info).run (w₀, []) ops
    let r := mmcBread ans info start cnt dst s.1
    r.1 = cnt → ∀ k < cnt, ∀ j < info.readBlLen,
      r.2.1 (k * info.readBlLen + j) =
        lastWritten info.writeBlLen (content info w₀) s.2 (start + k) j

section FlatArray
variable {ans : Answers} {info : Info}

/-- Between two calls every block of the device, in the partition that is its home,
holds the newest write of the history. -/
structure Flat (info : Info) (w₀ : World) (s : World × List BlockWrite) : Prop where
  ready : Ready info s.1
  holds : ∀ b < info.lba, ∀ j < info.writeBlLen,
    content info s.1 b j = lastWritten info.writeBlLen (content info w₀) s.2 b j

theorem Flat.initial {w₀ : World} (h : Ready info w₀) : Flat info w₀ (w₀, []) :=
  ⟨h, fun _ _ _ _ => rfl⟩

/-- A range on one side of the boundary has one home, the partition it is sent to. -/
theorem home_of_range {start cnt b : ℕ} (hs : ¬ Straddles info start cnt) (h₁ : start ≤ b)
    (h₂ : b < start + cnt) :
    info.home b = if start + cnt ≤ info.bootBlkcnt then partBoot1 else partUser := by
  unfold Straddles at hs
  unfold Info.home
  split <;> split <;> first | rfl | omega

theorem mul_add_lt_mul {b m bl j : ℕ} (hb : b < m) (hj : j < bl) : b * bl + j < m * bl := by
  have h := Nat.mul_le_mul_right bl (Nat.succ_le_of_lt hb)
  rw [Nat.succ_mul] at h
  omega

/-- What a range store does to the blocks of the flat array. -/
theorem content_update {w w' : World} {p : PartNum} {start cnt : ℕ} {src : Mem}
    (hst : w'.store = Function.update w.store p
      (overlay (w.store p) (start * info.writeBlLen) (cnt * info.writeBlLen) src))
    (hp : ∀ b, start ≤ b → b < start + cnt → info.home b = p) (b : ℕ) {j : ℕ}
    (hj : j < info.writeBlLen) :
    content info w' b j =
      if start ≤ b ∧ b < start + cnt then src ((b - start) * info.writeBlLen + j)
      else content info w b j := by
  have hsum : start * info.writeBlLen + cnt * info.writeBlLen =
      (start + cnt) * info.writeBlLen := (Nat.add_mul ..).symm
  unfold content
  rw [hst]
  split
  · next h =>
    have h1 : start * info.writeBlLen ≤ b * info.writeBlLen := Nat.mul_le_mul_right _ h.1
    have h2 := mul_add_lt_mul h.2 hj
    rw [hp b h.1 h.2, Function.update_self, overlay_of_mem _ _ (by omega) (by omega), Nat.sub_mul]
    congr 1
    omega
  · next h =>
    by_cases hb : info.home b = p
    · rw [hb, Function.update_self, overlay_of_not_mem]
      rintro ⟨h1, h2⟩
      rw [hsum] at h2
      apply h
      constructor
      · by_contra hlt
        have := mul_add_lt_mul (Nat.lt_of_not_le hlt) hj
        omega
      · by_contra hge
        have := Nat.mul_le_mul_right info.writeBlLen (Nat.le_of_not_lt hge)
        omega
    · rw [Function.update_of_ne hb]

/-- A write on one side of the boundary updates the flat array. -/
theorem Flat.bwrite {w₀ : World} {s : World × List BlockWrite}
    (hans : SwitchesAndTransfersSucceed ans) (h : Flat info w₀ s) {start cnt : ℕ} (src : Mem)
    (hr : start + cnt ≤ info.lba) (hs : ¬ Straddles info start cnt) :
    Flat info w₀ ((blockLayer ans info).step s (.bwrite start cnt src)).2 := by
  have hl := info.lba_lt
  have hsum : u32 (start + cnt) = start + cnt := u32_of_lt (by omega)
  obtain ⟨hready, hacc⟩ := mmcRoute_of_ok hans start cnt h.ready
  have hcard := mmcRoute_sameCard ans info start cnt s.1
  rw [hsum] at hacc
  set w := mmcRoute ans info start cnt s.1 with hw
  have hiss := mmcWriteRange_issues ans info start cnt src w
  have hready' : Ready info (mmcWriteRange ans info start cnt src w).2 := by
    obtain ⟨hc, hp, hcfg⟩ := hready
    refine ⟨?_, ?_, ?_⟩
    · unfold Coherent at *
      rw [hiss.partNum, hiss.access, hc]
    · rwa [hiss.partNum]
    · rwa [hiss.partConfig, hiss.partNum]
  have hcontent : ∀ b j, content info w b j = content info s.1 b j := fun b j => by
    unfold content
    rw [hcard.store]
  show Flat info w₀ ((mmcWriteRange ans info start cnt src w).2,
    if (mmcWriteRange ans info start cnt src w).1 = cnt then ⟨start, cnt, src⟩ :: s.2 else s.2)
  refine ⟨hready', fun b hb j hj => ?_⟩
  have hb' := retry_setBlocklen_store ans 10 w
  change (mmcSetBlocklen ans w).2.store = w.store at hb'
  simp only [mmcWriteRange]
  cases hset : (mmcSetBlocklen ans w).1
  · -- the block length was refused: nothing is transferred
    have hsame : content info (mmcSetBlocklen ans w).2 b j = content info s.1 b j := by
      rw [← hcontent]
      unfold content
      rw [hb']
    simp only [Bool.false_eq_true, if_false, hsame]
    split
    · next h0 =>
      rw [lastWritten, if_neg (by simp only at h0 ⊢; omega)]
      exact h.holds b hb j hj
    · exact h.holds b hb j hj
  · obtain ⟨h1, h2⟩ := mmcWriteLoop_of_ok hans (cnt + 1) start cnt src (mmcSetBlocklen ans w).2
      (Nat.lt_succ_self cnt) hr
    have hacc' := (mmcSetBlocklen_issues ans w).access
    rw [hb', hacc'] at h2
    simp only [if_true, h1, lastWritten]
    rw [content_update h2 ?_ b hj]
    · split
      · rfl
      · rw [hcontent]
        exact h.holds b hb j hj
    · intro b h₁ h₂
      rw [home_of_range hs h₁ h₂, hacc (by omega)]

/-- A read leaves the stores and the registers ready, and if it reports its block
count it returns the bytes of its range. -/
theorem mmcBread_of_ok (hans : SwitchesAndTransfersSucceed ans) {w : World}
    (hw : Ready info w) {start cnt : ℕ} (dst : Mem) (hr : start + cnt ≤ info.lba)
    (hs : ¬ Straddles info start cnt) :
    let r := mmcBread ans info start cnt dst w
    Ready info r.2.2 ∧ r.2.2.store = w.store ∧ (r.1 = cnt → ∀ k < cnt, ∀ j < info.readBlLen,
      r.2.1 (k * info.readBlLen + j) = content info w (start + k) j) := by
  have hl := info.lba_lt
  have hsum : u32 (start + cnt) = start + cnt := u32_of_lt (by omega)
  unfold mmcBread
  split
  · exact ⟨hw, rfl, fun _ k hk => by omega⟩
  rw [hsum, if_neg (by omega)]
  obtain ⟨hready, hacc⟩ := mmcRoute_of_ok hans start cnt hw
  have hcard := mmcRoute_sameCard ans info start cnt w
  rw [hsum] at hacc
  set w' := mmcRoute ans info start cnt w
  have hiss := mmcReadRange_issues ans info start cnt dst w'
  have hb' := retry_setBlocklen_store ans 10 w'
  change (mmcSetBlocklen ans w').2.store = w'.store at hb'
  refine ⟨⟨?_, ?_, ?_⟩, ?_⟩
  · have hc := hready.coherent
    unfold Coherent at *
    rw [hiss.partNum, hiss.access, hc]
  · rw [hiss.partNum]
    exact hready.part
  · rw [hiss.partConfig, hiss.partNum]
    exact hready.config
  simp only [mmcReadRange]
  cases hset : (mmcSetBlocklen ans w').1
  · simp only [Bool.false_eq_true, if_false]
    exact ⟨hb'.trans hcard.store, fun h0 => by omega⟩
  · obtain ⟨h1, h2, h3⟩ := mmcReadLoop_of_ok hans (cnt + 1) start cnt 0 dst
      (mmcSetBlocklen ans w').2 (Nat.lt_succ_self cnt) (by omega) hr
    have hacc' := (mmcSetBlocklen_issues ans w').access
    simp only [if_true, h1, h2, h3]
    refine ⟨hb'.trans hcard.store, fun _ k hk j hj => ?_⟩
    have hlt := mul_add_lt_mul hk hj
    rw [overlay_of_mem _ _ (Nat.zero_le _) (by omega), hb', hacc', hcard.store, hacc (by omega),
      advance_apply, content, home_of_range hs (Nat.le_add_right start k) (by omega),
      info.blLen_eq, Nat.add_mul, Nat.sub_zero, Nat.add_assoc]

/-- A read leaves the flat array alone. -/
theorem Flat.bread {w₀ : World} {s : World × List BlockWrite}
    (hans : SwitchesAndTransfersSucceed ans) (h : Flat info w₀ s) {start cnt : ℕ} (dst : Mem)
    (hr : start + cnt ≤ info.lba) (hs : ¬ Straddles info start cnt) :
    Flat info w₀ ((blockLayer ans info).step s (.bread start cnt dst)).2 := by
  obtain ⟨hready, hst, -⟩ := mmcBread_of_ok hans h.ready dst hr hs
  refine ⟨hready, fun b hb j hj => Eq.trans ?_ (h.holds b hb j hj)⟩
  exact congrFun (congrFun hst _) _

/-- Where the block length is accepted, a write inside the device reports its block count. -/
theorem mmcBwrite_complete (hans : SwitchesAndTransfersSucceed ans) (hbl : BlocklenAccepted ans)
    {start cnt : ℕ} (src : Mem) (w : World) (hr : start + cnt ≤ info.lba) :
    (mmcBwrite ans info start cnt src w).1 = cnt := by
  set w' := mmcRoute ans info start cnt w
  have hset : (mmcSetBlocklen ans w').1 = true :=
    (mmcSetBlocklen_eq_true_iff ans w').mpr (hbl _)
  have hloop := (mmcWriteLoop_of_ok hans (cnt + 1) start cnt src (mmcSetBlocklen ans w').2
    (Nat.lt_succ_self cnt) hr).1
  simp only [mmcBwrite, mmcWriteRange]
  rw [if_pos hset, if_pos hloop]

/-- Where the block length is accepted, a read inside the device reports its block count. -/
theorem mmcBread_complete (hans : SwitchesAndTransfersSucceed ans) (hbl : BlocklenAccepted ans)
    {start cnt : ℕ} (dst : Mem) (w : World) (hr : start + cnt ≤ info.lba) :
    (mmcBread ans info start cnt dst w).1 = cnt := by
  have hl := info.lba_lt
  unfold mmcBread
  split
  · next h0 => exact h0.symm
  · next h0 =>
    rw [u32_of_lt (by omega), if_neg (by omega)]
    set w' := mmcRoute ans info start cnt w
    have hset : (mmcSetBlocklen ans w').1 = true :=
      (mmcSetBlocklen_eq_true_iff ans w').mpr (hbl _)
    have hloop := (mmcReadLoop_of_ok hans (cnt + 1) start cnt 0 dst (mmcSetBlocklen ans w').2
      (Nat.lt_succ_self cnt) (by omega) hr).1
    simp only [mmcReadRange]
    rw [if_pos hset, if_pos hloop]

/-- Where the block length is accepted, the history of a run is the list of its writes. -/
theorem run_history (hans : SwitchesAndTransfersSucceed ans) (hbl : BlocklenAccepted ans)
    (s : World × List BlockWrite) (ops : List BlockOp)
    (hops : ∀ op ∈ ops, op.start + op.cnt ≤ info.lba) :
    ((blockLayer ans info).run s ops).2 = (ops.filterMap BlockOp.asWrite).reverse ++ s.2 := by
  induction ops generalizing s with
  | nil => rfl
  | cons op ops ih =>
    have hop := hops op (List.mem_cons_self ..)
    rw [Machine.run_cons, ih _ fun op' h => hops op' (List.mem_cons_of_mem _ h)]
    cases op with
    | bwrite start cnt src =>
      have hret : (mmcBwrite ans info start cnt src s.1).1 = cnt :=
        mmcBwrite_complete hans hbl src s.1 hop
      simp [blockLayer, BlockOp.asWrite, hret]
    | bread start cnt dst => simp [blockLayer, BlockOp.asWrite, List.filterMap_cons]

/-- A call whose range lies inside the device, on one side of the boundary. -/
def BlockOp.OneSided (info : Info) (op : BlockOp) : Prop :=
  op.start + op.cnt ≤ info.lba ∧ ¬ Straddles info op.start op.cnt

theorem Flat.step {w₀ : World} {s : World × List BlockWrite}
    (hans : SwitchesAndTransfersSucceed ans) (op : BlockOp) (h : Flat info w₀ s)
    (hop : op.OneSided info) : Flat info w₀ ((blockLayer ans info).step s op).2 := by
  cases op with
  | bwrite start cnt src => exact h.bwrite hans src hop.1 hop.2
  | bread start cnt dst => exact h.bread hans dst hop.1 hop.2

/-- Read after write: in every run of calls on one side of the boundary each, a read
on one side of it returns the newest write of every block, however the ranges of the
writes and of the read overlap. -/
theorem mmcBread_returns_last_write (hans : SwitchesAndTransfersSucceed ans) (w₀ : World)
    (hw : Ready info w₀) (ops : List BlockOp) (hops : ∀ op ∈ ops, op.OneSided info)
    (start cnt : ℕ) (dst : Mem) (hr : start + cnt ≤ info.lba)
    (hs : ¬ Straddles info start cnt) : ReadsBack ans info w₀ ops start cnt dst := by
  have hflat : Flat info w₀ ((blockLayer ans info).run (w₀, []) ops) :=
    (blockLayer ans info).run_invariant (fun _ op h hop => Flat.step hans op h hop)
      (Flat.initial hw) ((blockLayer ans info).guarded_of_forall _ ops hops)
  refine ⟨fun hbl => ?_, fun hbl => mmcBread_complete hans hbl dst _ hr, ?_⟩
  · rw [run_history hans hbl _ ops fun op hop => (hops op hop).1, List.append_nil]
  · intro s r hret k hk j hj
    obtain ⟨-, -, hread⟩ := mmcBread_of_ok hans hflat.ready dst hr hs
    rw [hread hret k hk j hj]
    exact hflat.holds _ (by omega) j (by rwa [← info.blLen_eq])

end FlatArray

theorem afterInit_ready (info : Info) : Ready info afterInit :=
  ⟨rfl, .inl rfl, .inl (by decide)⟩

theorem blocklenAccepted_of_forall {ans : Answers} (h : ∀ n, ans n .setBlocklen = true) :
    BlocklenAccepted ans := fun _ => ⟨0, Nat.zero_le _, h _⟩

/-- Writes on both sides of the boundary, one of them longer than `b_max`, and a read
that overlaps the first of them: all six blocks come back, each with the bytes of the
write that covered it. -/
theorem mmcBread_returns_last_write_emmc :
    let ops := [.bwrite 200 56 (fun i => UInt8.ofNat i), .bread 0 256 (fun _ => 0),
      .bwrite 256 70000 (fun _ => 7)]
    let s := (blockLayer (fun _ _ => true) emmc).run (afterInit, []) ops
    let r := mmcBread (fun _ _ => true) emmc 250 6 (fun _ => 0) s.1
    s.2.map (fun h => (h.start, h.cnt)) = [(256, 70000), (200, 56)] ∧ r.1 = 6 ∧
      ∀ k < 6, ∀ j < 512, r.2.1 (k * 512 + j) = UInt8.ofNat ((50 + k) * 512 + j) := by
  have h := mmcBread_returns_last_write
    (fun _ _ _ => rfl : SwitchesAndTransfersSucceed fun _ _ => true) afterInit
    (afterInit_ready emmc)
    [.bwrite 200 56 (fun i => UInt8.ofNat i), .bread 0 256 (fun _ => 0),
      .bwrite 256 70000 (fun _ => 7)]
    (by simp [BlockOp.OneSided, BlockOp.start, BlockOp.cnt, Straddles, Info.bootBlkcnt, emmc])
    250 6 (fun _ => 0) (by decide) (by decide)
  have hbl : BlocklenAccepted fun _ _ => true := blocklenAccepted_of_forall fun _ => rfl
  have hs := h.recorded hbl
  refine ⟨by rw [hs]; rfl, h.complete hbl, fun k hk j hj => ?_⟩
  refine (h.bytes (h.complete hbl) k hk j hj).trans ?_
  rw [hs]
  simp only [BlockOp.asWrite, List.filterMap_cons, List.filterMap_nil, List.reverse_cons,
    List.reverse_nil, List.nil_append, List.cons_append, lastWritten]
  rw [if_neg (by omega), if_pos (by omega)]
  show UInt8.ofNat ((250 + k - 200) * 512 + j) = _
  rw [show 250 + k - 200 = 50 + k by omega]

/-- A write of blocks 255 and 256 puts both in the user area; block 255 read on its own
comes from the boot partition. -/
theorem straddling_write_is_lost :
    SwitchesAndTransfersSucceed (fun _ _ => true) ∧ Ready emmc afterInit ∧
      255 + 2 ≤ emmc.lba ∧
      ¬ ReadsBack (fun _ _ => true) emmc afterInit [.bwrite 255 2 (fun _ => 0xA5)] 255 1
        (fun _ => 0) :=
  ⟨fun _ _ _ => rfl, afterInit_ready emmc, by decide, fun h =>
    absurd (h.bytes (by decide +kernel) 0 (by decide) 0 (by decide)) (by decide +kernel)⟩

end UBoot.Mmc
