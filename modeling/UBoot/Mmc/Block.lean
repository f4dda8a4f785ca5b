import UBoot.Mmc.Device

/-!
# The block interface of the eMMC driver

`mmc_bread`, `mmc_bwrite`, their `_gpt` variants and `mmc_berase`. Each request
picks a hardware partition once, from its whole range, and is then cut into
pieces of at most `b_max` blocks. The piece loops take fuel; one more than the
block count is always enough, because every piece moves at least one block.
-/
namespace UBoot.Mmc
open ByteStore

/-- The partition choice at the head of `mmc_bwrite` and `mmc_bread`: only a
request that ends at or below the boot partition goes there. The results of the
switches are not looked at. -/
def mmcRoute (ans : Answers) (info : Info) (start cnt : ℕ) (w : World) : World :=
  if u32 (start + cnt) ≤ info.bootBlkcnt then
    if w.partNum = partUser then
      let r := mmcSwitchPartition ans partBoot1 w
      if r.1 then r.2 else (mmcSwitchPartition ans partBoot2 r.2).2
    else w
  else if w.partNum ≠ partUser then (mmcSwitchPartition ans partUser w).2
  else w

/-- The partition choice of the `_gpt` variants: always the user area. -/
def mmcRouteGpt (ans : Answers) (w : World) : World :=
  if w.partNum ≠ partUser then (mmcSwitchPartition ans partUser w).2 else w

/-- The size of the next piece: what is left, or the limit. -/
def piece (limit left : ℕ) : ℕ := if left > limit then limit else left

/-- The `do … while (blocks_todo > 0)` loop of the writers. -/
def mmcWriteLoop (ans : Answers) (info : Info) : ℕ → ℕ → ℕ → Mem → World → Bool × World
  | 0, _, _, _, w => (false, w)
  | fuel + 1, start, todo, src, w =>
    let cur := piece info.bMax todo
    let r := mmcWriteBlocks ans info start cur src w
    if r.1 ≠ cur then (false, r.2)
    else if todo - cur > 0 then
      mmcWriteLoop ans info fuel (u32 (start + cur)) (todo - cur)
        (advance src (cur * info.writeBlLen)) r.2
    else (true, r.2)

/-- The loop of the readers; `off` is how far `dst` has been advanced. -/
def mmcReadLoop (ans : Answers) (info : Info) : ℕ → ℕ → ℕ → ℕ → Mem → World →
    Bool × Mem × World
  | 0, _, _, _, dst, w => (false, dst, w)
  | fuel + 1, start, todo, off, dst, w =>
    let cur := piece info.bMax todo
    let r := mmcReadBlocks ans info (advance dst off) start cur w
    let dst := overlay dst off (cur * info.readBlLen) r.2.1
    if r.1 ≠ cur then (false, dst, r.2.2)
    else if todo - cur > 0 then
      mmcReadLoop ans info fuel (u32 (start + cur)) (todo - cur) (off + cur * info.readBlLen)
        dst r.2.2
    else (true, dst, r.2.2)

/-- The part of a write after the partition choice. -/
def mmcWriteRange (ans : Answers) (info : Info) (start cnt : ℕ) (src : Mem) (w : World) :
    ℕ × World :=
  let b := mmcSetBlocklen ans w
  if b.1 then
    let r := mmcWriteLoop ans info (cnt + 1) start cnt src b.2
    (if r.1 then cnt else 0, r.2)
  else (0, b.2)

/-- The part of a read after the partition choice. -/
def mmcReadRange (ans : Answers) (info : Info) (start cnt : ℕ) (dst : Mem) (w : World) :
    ℕ × Mem × World :=
  let b := mmcSetBlocklen ans w
  if b.1 then
    let r := mmcReadLoop ans info (cnt + 1) start cnt 0 dst b.2
    (if r.1 then cnt else 0, r.2.1, r.2.2)
  else (0, dst, b.2)

def mmcBwrite (ans : Answers) (info : Info) (start cnt : ℕ) (src : Mem) (w : World) : ℕ × World :=
  mmcWriteRange ans info start cnt src (mmcRoute ans info start cnt w)

def mmcBwriteGpt (ans : Answers) (info : Info) (start cnt : ℕ) (src : Mem) (w : World) :
    ℕ × World :=
  mmcWriteRange ans info start cnt src (mmcRouteGpt ans w)

def mmcBread (ans : Answers) (info : Info) (start cnt : ℕ) (dst : Mem) (w : World) :
    ℕ × Mem × World :=
  if cnt = 0 then (0, dst, w)
  else if u32 (start + cnt) > info.lba then (0, dst, w)
  else mmcReadRange ans info start cnt dst (mmcRoute ans info start cnt w)

/-- Unlike `mmc_bread` this variant switches before it checks the range. -/
def mmcBreadGpt (ans : Answers) (info : Info) (start cnt : ℕ) (dst : Mem) (w : World) :
    ℕ × Mem × World :=
  if cnt = 0 then (0, dst, w)
  else
    let w := mmcRouteGpt ans w
    if u32 (start + cnt) > info.lba then (0, dst, w)
    else mmcReadRange ans info start cnt dst w

/-- The loop of `mmc_berase`, one erase group at a time; returns the blocks erased. -/
def mmcEraseLoop (ans : Answers) (info : Info) (start cnt : ℕ) : ℕ → ℕ → World → ℕ × World
  | 0, blk, w => (blk, w)
  | fuel + 1, blk, w =>
    if blk < cnt then
      let cur := piece info.eraseGrpSize (cnt - blk)
      let r := mmcEraseT ans info (u32 (start + blk)) cur w
      if r.1 then mmcEraseLoop ans info start cnt fuel (blk + cur) r.2 else (blk, r.2)
    else (blk, w)

def mmcBerase (ans : Answers) (info : Info) (start cnt : ℕ) (w : World) : ℕ × World :=
  mmcEraseLoop ans info start cnt (cnt + 1) 0 w

end UBoot.Mmc
