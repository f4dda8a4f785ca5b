import UBoot.Mmc.Effects

/-!
# The flash access of the target loader

`flashex_erase` and `flashex_partition_check_switch` select the hardware partition
with `mmc_switch_part` directly. The partition size check of
`flashex_partition_check_switch` is under `CONFIG_TL_PTSZ_CHECK`, which no board
configuration defines, and is left out.
-/
namespace UBoot.Mmc
open ByteStore

/-- The boot partition enabled in the configuration byte. -/
def World.enabledBoot (w : World) : PartNum := (w.partConfig &&& partBootEnableMask) >>> 3

/-- `flashex_boot_partition_switch`; `false` is `-EINVAL`. -/
def flashexBootPartitionSwitch (ans : Answers) (flag : Bool) (w : World) : Bool × World :=
  let partNum :=
    if flag then
      if partBoot1 ≠ w.enabledBoot ∧ partBoot2 ≠ w.enabledBoot then partBoot1 else w.enabledBoot
    else partUser
  mmcSwitchPart ans partNum w

/-- `flashex_partition_check_switch`; only `start` decides. -/
def flashexPartitionCheckSwitch (ans : Answers) (start : ℕ) (w : World) : Bool × World :=
  flashexBootPartitionSwitch ans (start = 0) w

/-- The checks at the head of `flashex_erase`: the partition to switch to, the bytes to
erase in it, and the bytes left for a second phase in the user area. -/
def flashexErasePlan (info : Info) (start len : ℕ) (w : World) : Option (PartNum × ℕ × ℕ) :=
  if len = 0 ∨ start % info.writeBlLen ≠ 0 then none
  else
    let len := if len > info.capacity then info.capacity else len
    if start = 0 then
      if partBoot1 ≠ w.enabledBoot ∧ partBoot2 ≠ w.enabledBoot then none
      else if len > info.bootPartSize then
        some (w.enabledBoot, info.bootPartSize, len - info.bootPartSize)
      else some (w.enabledBoot, len, 0)
    else some (partUser, len, 0)

theorem flashexErasePlan_isPart {info : Info} {w : World} {start len : ℕ} {p : PartNum}
    {l rest : ℕ} (h : flashexErasePlan info start len w = some (p, l, rest)) : IsPart p := by
  unfold flashexErasePlan at h
  unfold IsPart
  grind

/-- One pass through the label `erase_rest`. -/
def flashexErasePhase (ans : Answers) (info : Info) (start len : ℕ) (w : World) : Bool × World :=
  let cnt := u32 (blocksUp len info.writeBlLen)
  let r := mmcBerase ans info (u32 (start / info.writeBlLen)) cnt w
  (r.1 = cnt, r.2)

/-- `flashex_erase`; `false` is `-EIO`. The second phase starts at the same block number
as the first, and the result of the switch before it is not looked at. -/
def flashexErase (ans : Answers) (info : Info) (start len : ℕ) (w : World) : Bool × World :=
  match flashexErasePlan info start len w with
  | none => (false, w)
  | some (partNum, len, rest) =>
    let s := mmcSwitchPart ans partNum w
    if s.1 then
      let r := flashexErasePhase ans info start len s.2
      if r.1 then
        if rest ≠ 0 then flashexErasePhase ans info start rest (mmcSwitchPart ans partUser r.2).2
        else (true, r.2)
      else (false, r.2)
    else (false, s.2)

/-- `flashex_write`; `false` is `-EIO`. -/
def flashexWrite (ans : Answers) (info : Info) (start : ℕ) (buf : Mem) (len : ℕ) (w : World) :
    Bool × World :=
  if len = 0 then (true, w)
  else
    let cnt := u32 (blocksUp len info.writeBlLen)
    let r := mmcBwrite ans info (u32 (start / info.writeBlLen)) cnt buf w
    (r.1 = cnt, r.2)

end UBoot.Mmc
