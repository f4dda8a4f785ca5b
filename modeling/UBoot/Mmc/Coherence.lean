import UBoot.Mmc.Flashex
import UBoot.Mmc.Transfer
import UBoot.Library.Machine

/-!
# Coherence of the partition cache

`mmc_switch_partition` records the partition it selects in `mmc->part_num`; the
target loader's own switch does not. The cache is right at every transfer and erase
of a run as long as the loader only switches to the partition already cached.
-/
namespace UBoot.Mmc
open ByteStore

/-- The calls of the two drivers, with their arguments. -/
inductive FlashOp where
  | bread (start cnt : ℕ) (dst : Mem)
  | bwrite (start cnt : ℕ) (src : Mem)
  | breadGpt (start cnt : ℕ) (dst : Mem)
  | bwriteGpt (start cnt : ℕ) (src : Mem)
  | erase (start len : ℕ)
  | checkSwitch (start : ℕ)
  | write (start : ℕ) (buf : Mem) (len : ℕ)

/-- The drivers as a machine over the world; the answers play no part here. -/
def flashLayer (ans : Answers) (info : Info) : Machine World FlashOp Unit where
  step w op :=
    match op with
    | .bread start cnt dst => ((), (mmcBread ans info start cnt dst w).2.2)
    | .bwrite start cnt src => ((), (mmcBwrite ans info start cnt src w).2)
    | .breadGpt start cnt dst => ((), (mmcBreadGpt ans info start cnt dst w).2.2)
    | .bwriteGpt start cnt src => ((), (mmcBwriteGpt ans info start cnt src w).2)
    | .erase start len => ((), (flashexErase ans info start len w).2)
    | .checkSwitch start => ((), (flashexPartitionCheckSwitch ans start w).2)
    | .write start buf len => ((), (flashexWrite ans info start buf len w).2)

/-- The partition `flashex_partition_check_switch` switches to. -/
def checkSwitchTarget (start : ℕ) (w : World) : PartNum :=
  if start = 0 then
    if partBoot1 ≠ w.enabledBoot ∧ partBoot2 ≠ w.enabledBoot then partBoot1 else w.enabledBoot
  else partUser

/-- A direct switch is harmless if it fails or selects the cached partition; an erase
must also end in the partition it starts in. -/
def CacheSafe (ans : Answers) (info : Info) (w : World) : FlashOp → Prop
  | .erase start len => ∀ p l rest, flashexErasePlan info start len w = some (p, l, rest) →
      ans w.clock .switch = false ∨ p = w.partNum ∧ rest = 0
  | .checkSwitch start =>
      ans w.clock .switch = false ∨ checkSwitchTarget start w = w.partNum
  | _ => True

/-- The cache is right now, and was at every command issued so far. -/
structure CacheRight (w : World) : Prop where
  now : Coherent w
  issued : ∀ e ∈ w.log, e.partNum = e.access

section Steps
variable {ans : Answers} {info : Info} {w w' : World}

theorem CacheRight.of_issues (h : CacheRight w) (hi : Issues w w') : CacheRight w' := by
  have hn := h.now
  refine ⟨?_, fun e he => ?_⟩
  · unfold Coherent at *
    rw [hi.partNum, hi.access, hn]
  · rcases hi.log e he with hl | ⟨hp, ha⟩
    · exact h.issued e hl
    · rw [hp, ha, hn]

theorem CacheRight.of_sameCard (h : CacheRight w) (hs : SameCard w w') (hc : Coherent w') :
    CacheRight w' := ⟨hc, by rw [hs.log]; exact h.issued⟩

theorem CacheRight.route (h : CacheRight w) (start cnt : ℕ) :
    CacheRight (mmcRoute ans info start cnt w) :=
  h.of_sameCard (mmcRoute_sameCard ..) (mmcRoute_coherent ans info start cnt h.now)

theorem CacheRight.routeGpt (h : CacheRight w) : CacheRight (mmcRouteGpt ans w) :=
  h.of_sameCard (mmcRouteGpt_sameCard ..) (mmcRouteGpt_coherent ans h.now)

theorem CacheRight.bwrite (h : CacheRight w) (start cnt : ℕ) (src : Mem) :
    CacheRight (mmcBwrite ans info start cnt src w).2 :=
  (h.route start cnt).of_issues (mmcWriteRange_issues ..)

theorem CacheRight.bread (h : CacheRight w) (start cnt : ℕ) (dst : Mem) :
    CacheRight (mmcBread ans info start cnt dst w).2.2 := by
  unfold mmcBread
  split
  · exact h
  · split
    · exact h
    · exact (h.route start cnt).of_issues (mmcReadRange_issues ..)

theorem CacheRight.breadGpt (h : CacheRight w) (start cnt : ℕ) (dst : Mem) :
    CacheRight (mmcBreadGpt ans info start cnt dst w).2.2 := by
  unfold mmcBreadGpt
  split
  · exact h
  · dsimp only
    split
    · exact h.routeGpt
    · exact h.routeGpt.of_issues (mmcReadRange_issues ..)

/-- A direct switch to the cached partition keeps the cache right. -/
theorem CacheRight.switchPart (h : CacheRight w) {p : PartNum} (hp : IsPart p)
    (hs : ans w.clock .switch = false ∨ p = w.partNum) :
    CacheRight (mmcSwitchPart ans p w).2 := by
  obtain ⟨hr, -, hc, hn, ht, hf⟩ := mmcSwitchPart_spec ans p hp w
  refine h.of_sameCard hc ?_
  unfold Coherent
  cases ha : ans w.clock .switch
  · rw [hn, (hf (hr.trans ha)).1, h.now]
  · rcases hs with hs | hs
    · rw [ha] at hs
      cases hs
    · rw [hn, ht (hr.trans ha), hs]

theorem checkSwitchTarget_isPart (start : ℕ) (w : World) : IsPart (checkSwitchTarget start w) := by
  unfold checkSwitchTarget IsPart
  grind

theorem flashexPartitionCheckSwitch_eq (start : ℕ) :
    flashexPartitionCheckSwitch ans start w = mmcSwitchPart ans (checkSwitchTarget start w) w := by
  by_cases h : start = 0 <;>
    simp [flashexPartitionCheckSwitch, flashexBootPartitionSwitch, checkSwitchTarget, h]

theorem CacheRight.erase (h : CacheRight w) (start len : ℕ)
    (hs : CacheSafe ans info w (.erase start len)) :
    CacheRight (flashexErase ans info start len w).2 := by
  unfold flashexErase
  cases hp : flashexErasePlan info start len w with
  | none => exact h
  | some plan =>
    obtain ⟨p, l, rest⟩ := plan
    have hpart := flashexErasePlan_isPart hp
    have hsw := h.switchPart hpart ((hs p l rest hp).imp_right And.left)
    dsimp only
    split
    · next hok =>
      have hrest : rest = 0 := by
        rcases hs p l rest hp with hf | ⟨-, h0⟩
        · rw [(mmcSwitchPart_spec ans p hpart w).1, hf] at hok
          cases hok
        · exact h0
      have hph := hsw.of_issues (mmcBerase_issues ans info (u32 (start / info.writeBlLen))
        (u32 (blocksUp l info.writeBlLen)) _)
      rw [hrest]
      split <;> exact hph
    · exact hsw

/-- Every step of the two drivers that does not switch away from the cache keeps it. -/
theorem CacheRight.step (op : FlashOp) (h : CacheRight w) (hs : CacheSafe ans info w op) :
    CacheRight ((flashLayer ans info).step w op).2 := by
  cases op with
  | bread start cnt dst => exact h.bread start cnt dst
  | bwrite start cnt src => exact h.bwrite start cnt src
  | breadGpt start cnt dst => exact h.breadGpt start cnt dst
  | bwriteGpt start cnt src => exact h.routeGpt.of_issues (mmcWriteRange_issues ..)
  | erase start len => exact h.erase start len hs
  | checkSwitch start =>
    show CacheRight (flashexPartitionCheckSwitch ans start w).2
    rw [flashexPartitionCheckSwitch_eq]
    exact h.switchPart (checkSwitchTarget_isPart start w) hs
  | write start buf len =>
    show CacheRight (flashexWrite ans info start buf len w).2
    unfold flashexWrite
    split
    · exact h
    · exact h.bwrite _ _ _

end Steps

/-- Every transfer and erase command so far was issued with the cache equal to the
partition the card had selected. -/
def CachedAtCommands (w : World) : Prop := ∀ e ∈ w.log, e.partNum = e.access

/-- In every run whose direct switches keep to the cached partition, whatever switches
fail, each transfer and erase command is issued with the cache equal to the partition
the card has selected. -/
theorem partNum_eq_access_at_commands (ans : Answers) (info : Info) (w₀ : World)
    (hw : Coherent w₀) (hlog : w₀.log = []) (ops : List FlashOp)
    (hops : (flashLayer ans info).Guarded (CacheSafe ans info) w₀ ops) :
    CachedAtCommands ((flashLayer ans info).run w₀ ops) :=
  ((flashLayer ans info).run_invariant (fun _ op h hs => CacheRight.step op h hs)
    ⟨hw, by simp [hlog]⟩ hops).issued

/-- A loader session in the user area, with a boot block written in between. -/
theorem partNum_eq_access_at_commands_session :
    CachedAtCommands ((flashLayer (fun n _ => n % 3 ≠ 1) emmc).run afterInit
      [.checkSwitch 0x80000, .write 0x80000 (fun _ => 1) 1024, .bwrite 0 1 (fun _ => 2),
        .bread 4096 3 (fun _ => 0), .erase 0x80000 512]) :=
  partNum_eq_access_at_commands _ emmc afterInit rfl rfl _
    ⟨.inr (by decide +kernel), trivial, trivial, trivial, fun p l rest h => by
      have h' : flashexErasePlan emmc 0x80000 512
          ((flashLayer (fun n _ => n % 3 ≠ 1) emmc).run afterInit
            [.checkSwitch 0x80000, .write 0x80000 (fun _ => 1) 1024, .bwrite 0 1 (fun _ => 2),
              .bread 4096 3 (fun _ => 0)]) = some (partUser, 512, 0) := by decide +kernel
      obtain ⟨rfl, rfl, rfl⟩ : partUser = p ∧ 512 = l ∧ 0 = rest := by
        simpa using h'.symm.trans h
      exact .inr ⟨by decide +kernel, rfl⟩, trivial⟩

/-- A download to address 0 that is longer than the boot partition: after the loader's
switch the cache still says user area, so the write is not switched back. -/
theorem loader_switch_leaves_cache_stale :
    Coherent afterInit ∧ ¬ CachedAtCommands ((flashLayer (fun _ _ => true) emmc).run afterInit
      [.checkSwitch 0, .write 0 (fun _ => 0xA5) 0x40000]) :=
  ⟨rfl, fun h => absurd (h (.transfer partUser partBoot1 0 512) (by decide +kernel)) (by decide)⟩

end UBoot.Mmc
