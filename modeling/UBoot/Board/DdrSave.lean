import Mathlib.Data.Nat.Bitwise
import UBoot.Board.DdrOnFlash
import UBoot.Flash.Ranges

/-!
# Saving the memory configuration

`ddr_save_config_data` lays out the save area for the controllers in use and writes the tables
and then the header. `ddr_need_training` and `ddr_restore_config_data` follow the places in the
header. The table of the second controller is placed behind that of the first, or, without a
first one, behind nothing at all.
-/
namespace UBoot.Board
open ByteStore UBoot.Flash

/-- `ROUND` -/
def round (a b : ℕ) : ℕ := Nat.ldiff (u32 (a + b - 1)) (b - 1)

section Functions
variable {δ : Type} (dev : BlockDev δ) (board : Memctl)

/-- The header of `ddr_save_config_data`; `gd` is the global data from its place on. -/
def savedHeader (blksz : ℕ) (checksum : UInt32) (gd : Mem) : Mem :=
  let dqsLen := board.dqsLength.toNat
  let initLen := board.initDatasLength.toNat
  let len0 := if board.dramSize then dqsLen else 0
  let len1 := if board.memctl1Size then dqsLen else 0
  let total := u32 (initLen + len0 + len1 + sizeofDdrOnFlash.toNat)
  let initData := round sizeofDdrOnFlash.toNat blksz
  let trnData0 := if board.dramSize then round (initData + initLen) blksz else 0
  let trnData1 := if board.memctl1Size then round (trnData0 + dqsLen) blksz else 0
  let h := overlay gd 0 sizeofDdrOnFlash.toNat fun _ => 0
  let h := DdrOnFlash.version.put (DdrOnFlash.magic.put h ddronflashMagic) ddronflashVersion
  let h := DdrOnFlash.ddr1TrnDataLen.put (DdrOnFlash.ddr0TrnDataLen.put h len0) len1
  let h := DdrOnFlash.total.put (DdrOnFlash.initDataLen.put h initLen) total
  let h := DdrOnFlash.checksum.put (DdrOnFlash.initData.put h initData) checksum.toNat
  DdrOnFlash.ddr1TrnData.put (DdrOnFlash.ddr0TrnData.put h trnData0) trnData1

def Memctl.flashBlockWrite (buffer : Mem) (offstart size : UInt32) (s : Session δ) :
    ℤ × Session δ :=
  Flash.flashBlockWrite dev board.partitions board.partitionDdr buffer offstart size s

/-- `ddr_save_config_data` -/
def ddrSaveConfigData (blksz : ℕ) (checksum : UInt32) (gd : Mem) (t : Tables) (s : Session δ) :
    ℤ × Session δ :=
  let ddrOnFlash := savedHeader board blksz checksum gd
  let initData := UInt32.ofNat (DdrOnFlash.initData.get ddrOnFlash)
  let ddr0TrnData := UInt32.ofNat (DdrOnFlash.ddr0TrnData.get ddrOnFlash)
  let ddr1TrnData := UInt32.ofNat (DdrOnFlash.ddr1TrnData.get ddrOnFlash)
  let r := board.flashBlockWrite dev t.initDatas initData board.initDatasLength s
  if r.1 ≠ 0 then r
  else
    let r := if ddr0TrnData ≠ 0 then
        board.flashBlockWrite dev t.dqs0 ddr0TrnData board.dqsLength r.2 else (0, r.2)
    if r.1 ≠ 0 then r
    else
      let r := if ddr1TrnData ≠ 0 then
          board.flashBlockWrite dev t.dqs1 ddr1TrnData board.dqsLength r.2 else (0, r.2)
      if r.1 ≠ 0 then r
      else board.flashBlockWrite dev ddrOnFlash 0 sizeofDdrOnFlash r.2

end Functions

/-- A card that keeps what is written. -/
def keeping (bl : ℕ) (hpos : 0 < bl) (hlt : bl < 2 ^ 32) : BlockDev Mem where
  blLen := bl
  blLen_pos := hpos
  blLen_lt := hlt
  blockWrite blk cnt src disk := (cnt, overlay disk (blk * bl) (cnt * bl) src)

/-- A board with its save area. Block lengths are powers of two up to 512. The partition starts
on a block and lies below 4 GiB, and the three tables lie in one 32-bit memory, next to the code
that handles them. -/
structure DdrBoard extends Memctl where
  blBits : ℕ
  blBits_le : blBits ≤ 9
  pt : Partition
  found : partitionFindByName partitions partitionDdr = some pt
  aligned : 2 ^ blBits ∣ pt.firstByte
  below : pt.firstByte + pt.bytes < 2 ^ 32
  tables_fit : initDatasLength.toNat + 2 * dqsLength.toNat + 4096 ≤ 2 ^ 32

namespace DdrBoard
variable (b : DdrBoard)

def bl : ℕ := 2 ^ b.blBits

theorem bl_dvd : b.bl ∣ b.pt.firstByte := b.aligned

theorem bl_pos : 0 < b.bl := Nat.two_pow_pos _

theorem bl_le : b.bl ≤ 512 :=
  (Nat.pow_le_pow_right (by decide) b.blBits_le).trans_eq (by norm_num)

theorem bl_lt : b.bl < 2 ^ 32 := b.bl_le.trans_lt (by norm_num)

/-- The bytes of the blocks that hold `n` bytes. -/
def whole (n : ℕ) : ℕ := blocksUp n b.bl * b.bl

/-- The card as it is written, and as it is read when it holds `disk`. -/
def writing : BlockDev Mem := keeping b.bl b.bl_pos (b.bl_le.trans_lt (by norm_num))

def reading (disk : Mem) : ReadDev Unit := plain b.bl b.bl_pos b.bl_le disk

theorem le_whole (n : ℕ) : n ≤ b.whole n := le_blocksUp_mul n b.bl_pos

theorem whole_lt (n : ℕ) : b.whole n < n + b.bl := blocksUp_mul_lt n b.bl_pos

theorem dvd_whole (n : ℕ) : b.bl ∣ b.whole n := Dvd.intro_left _ rfl

theorem whole_add (n : ℕ) {m : ℕ} (h : b.bl ∣ m) : b.whole (m + n) = m + b.whole n := by
  obtain ⟨k, rfl⟩ := h
  rw [whole, blocksUp_mul_add b.bl_pos, Nat.add_mul, Nat.mul_comm k, whole]

/-- The blocks for `n` bytes at a place of the save area. -/
def request (p n : ℕ) : Request := ⟨(b.pt.firstByte + p) / b.bl, blocksUp n b.bl⟩

theorem ldiff_two_pow (n k : ℕ) : Nat.ldiff n (2 ^ k - 1) = n / 2 ^ k * 2 ^ k := by
  apply Nat.eq_of_testBit_eq
  intro i
  rw [Nat.testBit_ldiff, Nat.testBit_two_pow_sub_one, Nat.testBit_mul_two_pow]
  rcases Nat.lt_or_ge i k with hlt | hge
  · simp [hlt, not_le.2 hlt]
  · simp [hge, not_lt.2 hge, Nat.testBit_div_two_pow]

theorem round_eq {n : ℕ} (h : n + 512 ≤ 2 ^ 32) : round n b.bl = b.whole n := by
  have hle := b.bl_le
  have hpos := b.bl_pos
  rw [round, u32_of_lt (by omega), bl, ldiff_two_pow, ← bl, whole]
  refine congrArg (· * b.bl) (Nat.le_antisymm ?_ ?_)
  · rw [← Nat.lt_succ_iff, Nat.div_lt_iff_lt_mul hpos]
    have := b.le_whole n
    rw [whole] at this
    rw [Nat.succ_mul]
    omega
  · rw [blocksUp_le_iff _ _ hpos]
    have := Nat.lt_div_mul_add (a := n + b.bl - 1) hpos
    omega

end DdrBoard

section Access
/-- A write into the save area is refused, or asks the device for the blocks of its place. -/
theorem flashBlockWrite_request {δ : Type} (b : DdrBoard) (dev : BlockDev δ)
    (hdev : dev.blLen = b.bl) (buffer : Mem) (off size : UInt32) (hoff : b.bl ∣ off.toNat)
    (hsum : off.toNat + size.toNat < 2 ^ 32) (s : Session δ) :
    let r := b.flashBlockWrite dev buffer off size s
    let q := b.request off.toNat size.toNat
    (r.1 ≠ 0 ∧ r.2.dev = s.dev ∧ b.pt.bytes < off.toNat + size.toNat) ∨
      (off.toNat + size.toNat ≤ b.pt.bytes ∧ q.blk * b.bl = b.pt.firstByte + off.toNat ∧
        r.1 = (if (dev.blockWrite q.blk q.cnt buffer s.dev).1 > 0 then 0 else eIo) ∧
        r.2.dev = (dev.blockWrite q.blk q.cnt buffer s.dev).2 ∧
        r.2.requests = q :: s.requests) := by
  have hbelow := b.below
  have hpos := b.bl_pos
  have hfirst : u32 b.pt.firstByte = b.pt.firstByte := u32_of_lt (by omega)
  have hbytes : u32 b.pt.bytes = b.pt.bytes := u32_of_lt (by omega)
  by_cases hrange : off.toNat + size.toNat ≤ b.pt.bytes
  · have hrange' : u32 (off.toNat + size.toNat) ≤ u32 b.pt.bytes := by
      rw [u32_of_lt hsum, hbytes]
      exact hrange
    have hcnt : u32 (blocksUp size.toNat b.bl) = blocksUp size.toNat b.bl :=
      u32_of_lt ((blocksUp_le_self _ hpos).trans_lt size.toNat_lt)
    have hblk : u32 ((b.pt.firstByte + off.toNat) / b.bl) = (b.pt.firstByte + off.toNat) / b.bl :=
      u32_of_lt ((Nat.div_le_self _ _).trans_lt (by omega))
    right
    rw [Memctl.flashBlockWrite, flashBlockWrite_accepted b.found hrange' s, hfirst, hdev]
    simp only [flashBlocks, Session.blockWrite, hcnt, hblk, DdrBoard.request]
    exact ⟨hrange, Nat.div_mul_cancel (Nat.dvd_add b.bl_dvd hoff), rfl, trivial, trivial⟩
  · have hrefused : u32 (off.toNat + size.toNat) > u32 b.pt.bytes := by
      rw [u32_of_lt hsum, hbytes]
      omega
    left
    rw [Partition.bytes] at hrefused
    simp only [Memctl.flashBlockWrite, Flash.flashBlockWrite, b.found]
    rw [if_pos hrefused]
    exact ⟨show eInval ≠ 0 by decide, rfl, by omega⟩

/-- A write into the save area fails without having written, or lays the blocks over the disk. -/
theorem flashBlockWrite_cases (b : DdrBoard) (buffer : Mem) (off size : UInt32)
    (hoff : b.bl ∣ off.toNat) (hsum : off.toNat + size.toNat < 2 ^ 32) (s : Session Mem) :
    ((b.flashBlockWrite b.writing buffer off size s).1 ≠ 0 ∧
        (size.toNat = 0 ∨ b.pt.bytes < off.toNat + size.toNat)) ∨
      ((b.flashBlockWrite b.writing buffer off size s).1 = 0 ∧ 0 < size.toNat ∧
        off.toNat + size.toNat ≤ b.pt.bytes ∧
        (b.flashBlockWrite b.writing buffer off size s).2.dev =
          overlay s.dev (b.pt.firstByte + off.toNat) (b.whole size.toNat) buffer ∧
        (b.flashBlockWrite b.writing buffer off size s).2.requests =
          b.request off.toNat size.toNat :: s.requests) := by
  rcases flashBlockWrite_request b b.writing rfl buffer off size hoff hsum s with
    ⟨hret, -, hwhy⟩ | ⟨hrange, hplace, hret, hdev, hreq⟩
  · exact .inl ⟨hret, .inr hwhy⟩
  · rw [hret, hdev, hreq]
    simp only [DdrBoard.writing, keeping, hplace]
    rcases Nat.eq_zero_or_pos size.toNat with hzero | hsize
    · refine .inl ⟨?_, .inl hzero⟩
      simp [DdrBoard.request, hzero, eIo]
    · have hblocks : 0 < blocksUp size.toNat b.bl := (lt_blocksUp_iff _ _ b.bl_pos).2 (by omega)
      refine .inr ⟨?_, hsize, hrange, rfl, trivial⟩
      simp [DdrBoard.request, hblocks]

/-- A read of the save area that fits brings its bytes. -/
theorem flashBlockRead_fits (b : DdrBoard) (disk dst : Mem) (off size : UInt32)
    (hoff : b.bl ∣ off.toNat) (hfit : off.toNat + size.toNat ≤ b.pt.bytes)
    (s : ReadSession Unit) :
    (b.flashBlockRead (b.reading disk) dst off size s).ret = 0 ∧
      ∀ i < size.toNat, (b.flashBlockRead (b.reading disk) dst off size s).dst i =
        disk (b.pt.firstByte + off.toNat + i) := by
  have hbelow := b.below
  have hpos := b.bl_pos
  have hle := b.bl_le
  have hfirst : u32 b.pt.firstByte = b.pt.firstByte := u32_of_lt (by omega)
  have hbytes : u32 b.pt.bytes = b.pt.bytes := u32_of_lt (by omega)
  have hrange : ¬ u32 (off.toNat + size.toNat) > u32 b.pt.bytes := by
    rw [u32_of_lt (by omega), hbytes]
    omega
  have hdvd : b.bl ∣ b.pt.firstByte + off.toNat := Nat.dvd_add b.bl_dvd hoff
  have hread : ∀ (blk cnt : ℕ) (dst : Mem) (s : ReadSession Unit), 0 < cnt → cnt < 2 ^ 32 →
      blk < 2 ^ 32 → (s.blockRead (b.reading disk) blk cnt dst).1 = cnt ∧
        (s.blockRead (b.reading disk) blk cnt dst).2.1 =
          overlay dst 0 (cnt * b.bl) (advance disk (blk * b.bl)) := by
    intro blk cnt dst s hcnt hlt hblk
    rw [ReadSession.blockRead, u32_of_lt hlt, u32_of_lt hblk, if_neg hcnt.ne']
    exact ⟨rfl, rfl⟩
  rw [Partition.bytes] at hrange
  simp only [Memctl.flashBlockRead, Flash.flashBlockRead, b.found]
  rw [if_neg hrange, if_neg (by simp [DdrBoard.reading, plain, Nat.mod_eq_zero_of_dvd hoff]),
    show b.pt.sectorSize * b.pt.start = b.pt.firstByte from rfl, hfirst,
    show (b.reading disk).readBlLen = b.bl from rfl]
  have hsplit := Nat.div_add_mod size.toNat b.bl
  have hmod := Nat.mod_lt size.toNat hpos
  rw [Nat.mul_comm] at hsplit
  have hsize := size.toNat_lt
  have hcntLe := Nat.div_le_self size.toNat b.bl
  have hblkLe := Nat.div_le_self (b.pt.firstByte + off.toNat) b.bl
  have htailLe := Nat.div_le_self (b.pt.firstByte + off.toNat + size.toNat) b.bl
  -- the whole blocks
  generalize hwhole : (if size.toNat / b.bl ≠ 0 then _ else _ : ReadResult Unit) = whole
  have hblocks : whole.ret = 0 ∧ ∀ i < size.toNat / b.bl * b.bl,
      whole.dst i = disk (b.pt.firstByte + off.toNat + i) := by
    rw [← hwhole]
    split
    · next hne =>
      obtain ⟨hret, hdst⟩ := hread ((b.pt.firstByte + off.toNat) / b.bl) (size.toNat / b.bl) dst s
        (Nat.pos_of_ne_zero hne) (by omega) (by omega)
      dsimp only
      rw [hret, hdst, if_pos (Nat.pos_of_ne_zero hne)]
      refine ⟨rfl, fun i hi => ?_⟩
      rw [overlay_of_mem _ _ (Nat.zero_le i) (by omega), Nat.sub_zero, advance_apply,
        Nat.div_mul_cancel hdvd]
    · next hzero => exact ⟨rfl, fun i hi => absurd hi (by rw [not_not.1 hzero]; omega)⟩
  by_cases htail : size.toNat % b.bl = 0
  · rw [if_neg (fun h => h.1 htail)]
    exact ⟨hblocks.1, fun i hi => hblocks.2 i (by omega)⟩
  · obtain ⟨hret, hdst⟩ := hread ((b.pt.firstByte + off.toNat + size.toNat) / b.bl) 1 b.tmp
      whole.session (by decide) (by decide) (by omega)
    rw [if_pos ⟨htail, hblocks.1⟩]
    dsimp only
    rw [hret, hdst, if_pos (by decide)]
    refine ⟨rfl, fun i hi => ?_⟩
    by_cases hin : i < size.toNat / b.bl * b.bl
    · rw [overlay_of_not_mem _ _ (by omega)]
      exact hblocks.2 i hin
    · have hstart : (b.pt.firstByte + off.toNat + size.toNat) / b.bl * b.bl =
          b.pt.firstByte + off.toNat + size.toNat / b.bl * b.bl := by
        rw [Nat.add_div_of_dvd_right hdvd, Nat.add_mul, Nat.div_mul_cancel hdvd]
      rw [overlay_of_mem _ _ (by omega) (by omega), overlay_of_mem _ _ (by omega) (by omega),
        Nat.sub_zero, advance_apply, hstart]
      congr 1
      omega

end Access

namespace DdrBoard
variable (b : DdrBoard)

def initLen : ℕ := b.initDatasLength.toNat

def dqsLen : ℕ := b.dqsLength.toNat

/-- The places of the training tables, 0 for a controller without memory. -/
def place0 : ℕ := if b.dramSize then b.whole 40 + b.whole b.initLen else 0

def place1 : ℕ := if b.memctl1Size then b.place0 + b.whole b.dqsLen else 0

theorem place0_dvd : b.bl ∣ b.place0 := by
  rw [place0]
  split
  · exact Nat.dvd_add (b.dvd_whole _) (b.dvd_whole _)
  · exact Nat.dvd_zero _

theorem place1_dvd : b.bl ∣ b.place1 := by
  rw [place1]
  split
  · exact Nat.dvd_add b.place0_dvd (b.dvd_whole _)
  · exact Nat.dvd_zero _

/-- Nothing in the layout wraps. -/
theorem places_lt : b.whole 40 + b.initLen < 2 ^ 32 ∧ b.place0 + b.dqsLen < 2 ^ 32 ∧
    b.place1 + b.dqsLen < 2 ^ 32 := by
  have h40 := b.whole_lt 40
  have hinit := b.whole_lt b.initLen
  have hdqs := b.whole_lt b.dqsLen
  have hle := b.bl_le
  have hfit : b.initLen + 2 * b.dqsLen + 4096 ≤ 2 ^ 32 := b.tables_fit
  have hplace0 : b.place0 ≤ b.whole 40 + b.whole b.initLen := by
    rw [place0]
    split <;> omega
  have hplace1 : b.place1 ≤ b.place0 + b.whole b.dqsLen := by
    rw [place1]
    split <;> omega
  omega

/-- A place is the same as a 32-bit word. -/
theorem toNat_ofNat_place {p n : ℕ} (h : p + n < 2 ^ 32) : (UInt32.ofNat p).toNat = p :=
  UInt32.toNat_ofNat_of_lt' ((Nat.le_add_right p n).trans_lt h)

theorem ofNat_place_ne_zero {p n : ℕ} (h : p + n < 2 ^ 32) : UInt32.ofNat p ≠ 0 ↔ p ≠ 0 := by
  rw [Ne, ← UInt32.toNat_inj, toNat_ofNat_place h]
  rfl

/-- What stands in the header of a save. -/
structure Header (checksum : UInt32) (h : Mem) : Prop where
  magic : DdrOnFlash.magic.get h = ddronflashMagic
  version : DdrOnFlash.version.get h = ddronflashVersion
  checksum : DdrOnFlash.checksum.get h = checksum.toNat
  initData : DdrOnFlash.initData.get h = b.whole 40
  initDataLen : DdrOnFlash.initDataLen.get h = b.initLen
  ddr0TrnData : DdrOnFlash.ddr0TrnData.get h = b.place0
  ddr0TrnDataLen : DdrOnFlash.ddr0TrnDataLen.get h = if b.dramSize then b.dqsLen else 0
  ddr1TrnData : DdrOnFlash.ddr1TrnData.get h = b.place1
  ddr1TrnDataLen : DdrOnFlash.ddr1TrnDataLen.get h = if b.memctl1Size then b.dqsLen else 0
  total : DdrOnFlash.total.get h = u32 (DdrOnFlash.initDataLen.get h +
    DdrOnFlash.ddr0TrnDataLen.get h + DdrOnFlash.ddr1TrnDataLen.get h + sizeofDdrOnFlash.toNat)

/-- The places as the code rounds them. -/
theorem round_places : round 40 b.bl = b.whole 40 ∧
    (if b.dramSize then round (b.whole 40 + b.initLen) b.bl else 0) = b.place0 ∧
    (if b.memctl1Size then round (b.place0 + b.dqsLen) b.bl else 0) = b.place1 := by
  have hle := b.bl_le
  have h40 := b.whole_lt 40
  have hinit := b.whole_lt b.initLen
  have hfit : b.initLen + 2 * b.dqsLen + 4096 ≤ 2 ^ 32 := b.tables_fit
  have hplace0 : b.place0 ≤ b.whole 40 + b.whole b.initLen := by
    rw [place0]
    split <;> omega
  refine ⟨b.round_eq (by decide), ?_, ?_⟩
  · rw [b.round_eq (by omega), b.whole_add _ (b.dvd_whole 40), place0]
  · rw [b.round_eq (by omega), b.whole_add _ b.place0_dvd, place1]

theorem savedHeader_header (checksum : UInt32) (gd : Mem) :
    b.Header checksum (savedHeader b.toMemctl b.bl checksum gd) := by
  obtain ⟨h40, hplace0, hplace1⟩ := b.round_places
  obtain ⟨hlt40, hlt0, hlt1⟩ := b.places_lt
  have hinit : b.initDatasLength.toNat < 2 ^ 32 := b.initDatasLength.toNat_lt
  have hdqs : b.dqsLength.toNat < 2 ^ 32 := b.dqsLength.toNat_lt
  have hsum := checksum.toNat_lt
  have hsize : sizeofDdrOnFlash.toNat = 40 := rfl
  rw [initLen] at hplace0 hlt40
  rw [dqsLen] at hplace1 hlt0 hlt1
  have hlen : ∀ c : Bool, (if c then b.dqsLength.toNat else 0) < 2 ^ 32 := by
    intro c
    split <;> omega
  have hword : ∀ {f : ByteStore.Field} {v : ℕ}, f.len = 4 → v < 2 ^ 32 → v % 256 ^ f.len = v :=
    fun hf hv => Nat.mod_eq_of_lt (by rw [hf]; omega)
  simp only [savedHeader, hsize, h40, hplace0, hplace1]
  constructor
  all_goals
    simp (disch := decide) only [ByteStore.Field.get_put_of_apart, ByteStore.Field.get_put]
  case magic | version => rfl
  case checksum => exact hword rfl hsum
  case initData => exact hword rfl (by omega)
  case initDataLen => exact hword rfl hinit
  case ddr0TrnData => exact hword rfl (by omega)
  case ddr1TrnData => exact hword rfl (by omega)
  case ddr0TrnDataLen | ddr1TrnDataLen => exact hword rfl (hlen _)
  case total =>
    rw [hword rfl hinit, hword rfl (hlen _), hword rfl (hlen _)]
    exact hword rfl (u32_lt _)

/-- The save area has room for the tables, none of which is empty. -/
def Room : Prop :=
  0 < b.initLen ∧ b.whole 40 + b.initLen ≤ b.pt.bytes ∧
    (b.place0 ≠ 0 → 0 < b.dqsLen ∧ b.place0 + b.dqsLen ≤ b.pt.bytes) ∧
    (b.place1 ≠ 0 → 0 < b.dqsLen ∧ b.place1 + b.dqsLen ≤ b.pt.bytes)

instance : Decidable b.Room :=
  inferInstanceAs (Decidable (_ ∧ _ ∧ (_ → _ ∧ _) ∧ (_ → _ ∧ _)))

/-- The disk with the blocks of `n` bytes written to a place of the save area. -/
def lay (p n : ℕ) (src disk : Mem) : Mem := overlay disk (b.pt.firstByte + p) (b.whole n) src

/-- The disk behind a save. -/
def saved (header : Mem) (t : Tables) (disk : Mem) : Mem :=
  let disk := b.lay (b.whole 40) b.initLen t.initDatas disk
  let disk := if b.place0 ≠ 0 then b.lay b.place0 b.dqsLen t.dqs0 disk else disk
  let disk := if b.place1 ≠ 0 then b.lay b.place1 b.dqsLen t.dqs1 disk else disk
  b.lay 0 40 header disk

/-- The writes of a save, the last one first. -/
def used : List Request :=
  b.request 0 40 :: ((if b.place1 ≠ 0 then [b.request b.place1 b.dqsLen] else []) ++
    ((if b.place0 ≠ 0 then [b.request b.place0 b.dqsLen] else []) ++
      [b.request (b.whole 40) b.initLen]))

/-- The write of a training table, which is left out without a place. -/
theorem optional_write_cases {p : ℕ} (hp : b.bl ∣ p) (hlt : p + b.dqsLen < 2 ^ 32) (buffer : Mem)
    (s : Session Mem) :
    let r := if UInt32.ofNat p ≠ 0 then
        b.flashBlockWrite b.writing buffer (UInt32.ofNat p) b.dqsLength s else (0, s)
    (r.1 ≠ 0 ∧ ¬ (p ≠ 0 → 0 < b.dqsLen ∧ p + b.dqsLen ≤ b.pt.bytes)) ∨
      (r.1 = 0 ∧ (p ≠ 0 → 0 < b.dqsLen ∧ p + b.dqsLen ≤ b.pt.bytes) ∧
        r.2.dev = (if p ≠ 0 then b.lay p b.dqsLen buffer s.dev else s.dev) ∧
        r.2.requests = (if p ≠ 0 then [b.request p b.dqsLen] else []) ++ s.requests) := by
  have hword : (UInt32.ofNat p).toNat = p := toNat_ofNat_place hlt
  simp only [ofNat_place_ne_zero hlt]
  by_cases hne : p ≠ 0
  · simp only [if_pos hne]
    rcases flashBlockWrite_cases b buffer (UInt32.ofNat p) b.dqsLength (by rwa [hword])
      (by rwa [hword]) s with ⟨hret, hwhy⟩ | ⟨hret, hsize, hfits, hdev, hreq⟩
    · refine .inl ⟨hret, fun h => ?_⟩
      have := h hne
      rw [hword] at hwhy
      rw [dqsLen] at this
      omega
    · rw [hword] at hfits hdev hreq
      exact .inr ⟨hret, fun _ => ⟨hsize, hfits⟩, hdev, hreq⟩
  · simp only [if_neg hne]
    exact .inr ⟨trivial, fun h => absurd h hne, trivial, rfl⟩

/-- A save succeeds exactly when there is room, and then has laid out everything. -/
theorem save_cases (checksum : UInt32) (gd : Mem) (t : Tables) (disk : Mem) :
    let r := ddrSaveConfigData b.writing b.toMemctl b.bl checksum gd t (Session.initial disk)
    (r.1 ≠ 0 ∧ ¬ b.Room) ∨
      (r.1 = 0 ∧ b.Room ∧
        r.2.dev = b.saved (savedHeader b.toMemctl b.bl checksum gd) t disk ∧
        r.2.requests = b.used) := by
  have hheader := b.savedHeader_header checksum gd
  obtain ⟨hlt40, hlt0, hlt1⟩ := b.places_lt
  have hword : (UInt32.ofNat (b.whole 40)).toNat = b.whole 40 := toNat_ofNat_place hlt40
  simp only [ddrSaveConfigData, hheader.initData, hheader.ddr0TrnData, hheader.ddr1TrnData]
  rcases flashBlockWrite_cases b t.initDatas (UInt32.ofNat (b.whole 40)) b.initDatasLength
    (by rw [hword]; exact b.dvd_whole 40) (by rw [hword]; exact hlt40)
    (Session.initial disk) with ⟨hret, hwhy⟩ | ⟨hret, hinit, hfits, hdev, hreq⟩
  · rw [if_pos hret]
    refine .inl ⟨hret, fun hroom => ?_⟩
    obtain ⟨hinit, hfits, -⟩ := hroom
    rw [hword] at hwhy
    rw [initLen] at hinit hfits
    omega
  rw [hword] at hfits hdev hreq
  rw [if_neg (not_not.2 hret)]
  generalize b.flashBlockWrite b.writing t.initDatas (UInt32.ofNat (b.whole 40))
    b.initDatasLength (Session.initial disk) = r at hdev hreq ⊢
  have hopt0 := b.optional_write_cases b.place0_dvd hlt0 t.dqs0 r.2
  dsimp only at hopt0
  generalize (if UInt32.ofNat b.place0 ≠ 0 then
    b.flashBlockWrite b.writing t.dqs0 (UInt32.ofNat b.place0) b.dqsLength r.2
    else (0, r.2)) = r0 at hopt0 ⊢
  rcases hopt0 with ⟨hret0, hwhy0⟩ | ⟨hret0, hroom0, hdev0, hreq0⟩
  · rw [if_pos hret0]
    exact .inl ⟨hret0, fun hroom => hwhy0 hroom.2.2.1⟩
  rw [if_neg (not_not.2 hret0)]
  have hopt1 := b.optional_write_cases b.place1_dvd hlt1 t.dqs1 r0.2
  dsimp only at hopt1
  generalize (if UInt32.ofNat b.place1 ≠ 0 then
    b.flashBlockWrite b.writing t.dqs1 (UInt32.ofNat b.place1) b.dqsLength r0.2
    else (0, r0.2)) = r1 at hopt1 ⊢
  rcases hopt1 with ⟨hret1, hwhy1⟩ | ⟨hret1, hroom1, hdev1, hreq1⟩
  · rw [if_pos hret1]
    exact .inl ⟨hret1, fun hroom => hwhy1 hroom.2.2.2⟩
  rw [if_neg (not_not.2 hret1)]
  have hsize : sizeofDdrOnFlash.toNat = 40 := rfl
  have h40 := b.le_whole 40
  rcases flashBlockWrite_cases b (savedHeader b.toMemctl b.bl checksum gd) 0 sizeofDdrOnFlash
    (Nat.dvd_zero _) (by decide) r1.2 with ⟨-, hwhy⟩ | ⟨hretH, -, -, hdevH, hreqH⟩
  · rw [hsize] at hwhy
    have hzero : (0 : UInt32).toNat = 0 := rfl
    omega
  · refine .inr ⟨hretH, ⟨hinit, hfits, hroom0, hroom1⟩, ?_⟩
    rw [hdevH, hdev1, hdev0, hdev, hreqH, hreq1, hreq0, hreq]
    exact ⟨rfl, rfl⟩

end DdrBoard

/-- Two writes share no block. -/
def RequestsApart (r r' : Request) : Prop := r.blk + r.cnt ≤ r'.blk ∨ r'.blk + r'.cnt ≤ r.blk

/-- At a boot that finds this disk no training is needed, and the tables of the controllers in
use are restored. -/
structure Restores (b : DdrBoard) (checksum : UInt32) (t : Tables) (disk : Mem) : Prop where
  accepted : ∀ gd, (ddrNeedTraining (b.reading disk) b.toMemctl checksum.toNat gd
    (ReadSession.initial ())).1 = false
  tables : ∀ gd old,
    let need := ddrNeedTraining (b.reading disk) b.toMemctl checksum.toNat gd
      (ReadSession.initial ())
    let r := ddrRestoreConfigData (b.reading disk) b.toMemctl need.2.1 old need.2.2
    r.1 = 0 ∧ (∀ i < b.initLen, r.2.1.initDatas i = t.initDatas i) ∧
      (b.dramSize = true → ∀ i < b.dqsLen, r.2.1.dqs0 i = t.dqs0 i) ∧
      (b.memctl1Size = true → ∀ i < b.dqsLen, r.2.1.dqs1 i = t.dqs1 i)

/-- A save that succeeds is restored, and its writes share no block. -/
def SavesRight (b : DdrBoard) : Prop :=
  ∀ (checksum : UInt32) (gd : Mem) (t : Tables) (disk : Mem),
    let r := ddrSaveConfigData b.writing b.toMemctl b.bl checksum gd t (Session.initial disk)
    r.1 = 0 → Restores b checksum t r.2.dev ∧ r.2.requests.Pairwise RequestsApart

/-- The first controller is in use or the second is not, its table is empty, there is no room for
a save, or the training table is as long as header and init table, all in whole blocks. -/
def TablesApart (b : DdrBoard) : Prop :=
  b.dramSize = true ∨ b.memctl1Size = false ∨ b.dqsLen = 0 ∨ ¬ b.Room ∨
    b.whole 40 + b.whole b.initLen ≤ b.whole b.dqsLen

namespace DdrBoard
variable {b : DdrBoard} {checksum : UInt32} {h h' : Mem} {t : Tables} {disk : Mem}

/-- The header is in its first 40 bytes. -/
theorem Header.congr (hh : b.Header checksum h) (heq : ∀ i < 40, h' i = h i) :
    b.Header checksum h' := by
  have hget : ∀ f : ByteStore.Field, f.off + f.len ≤ 40 → f.get h' = f.get h := fun f hf =>
    f.get_congr fun i _ hi => heq i (by omega)
  constructor
  case total =>
    simp only [hget _ (show DdrOnFlash.total.off + DdrOnFlash.total.len ≤ 40 by decide),
      hget _ (show DdrOnFlash.initDataLen.off + DdrOnFlash.initDataLen.len ≤ 40 by decide),
      hget _ (show DdrOnFlash.ddr0TrnDataLen.off + DdrOnFlash.ddr0TrnDataLen.len ≤ 40 by decide),
      hget _ (show DdrOnFlash.ddr1TrnDataLen.off + DdrOnFlash.ddr1TrnDataLen.len ≤ 40 by decide)]
    exact hh.total
  all_goals rw [hget _ (by decide)]
  case magic => exact hh.magic
  case version => exact hh.version
  case checksum => exact hh.checksum
  case initData => exact hh.initData
  case initDataLen => exact hh.initDataLen
  case ddr0TrnData => exact hh.ddr0TrnData
  case ddr0TrnDataLen => exact hh.ddr0TrnDataLen
  case ddr1TrnData => exact hh.ddr1TrnData
  case ddr1TrnDataLen => exact hh.ddr1TrnDataLen

/-- A disk with the header of a save at the start of the area is accepted. -/
theorem needTraining_of_header (hh : b.Header checksum h)
    (hdisk : ∀ i < 40, disk (b.pt.firstByte + i) = h i) (hroom : 40 ≤ b.pt.bytes) (gd : Mem) :
    let need := ddrNeedTraining (b.reading disk) b.toMemctl checksum.toNat gd
      (ReadSession.initial ())
    need.1 = false ∧ b.Header checksum need.2.1 := by
  obtain ⟨hret, hbytes⟩ := flashBlockRead_fits b disk gd 0 sizeofDdrOnFlash (Nat.dvd_zero _)
    (by show 0 + 40 ≤ _; omega) (ReadSession.initial ())
  have hdst : b.Header checksum
      (b.flashBlockRead (b.reading disk) gd 0 sizeofDdrOnFlash (ReadSession.initial ())).dst :=
    hh.congr fun i hi => (hbytes i hi).trans (hdisk i hi)
  refine ⟨?_, hdst⟩
  have hinit := hdst.initDataLen
  have hblk : ∀ p, b.bl ∣ p → p % (b.reading disk).readBlLen = 0 := fun p hp =>
    Nat.mod_eq_zero_of_dvd hp
  simp only [ddrNeedTraining, decide_eq_false_iff_not, not_or, not_and, not_not]
  refine ⟨hret, hdst.magic, hdst.version, hdst.checksum, ?_, ?_, ?_, hdst.total, ?_, ?_, ?_⟩
  · rw [hdst.initData]
    exact hblk _ (b.dvd_whole 40)
  · rw [hdst.ddr0TrnData]
    exact hblk _ b.place0_dvd
  · rw [hdst.ddr1TrnData]
    exact hblk _ b.place1_dvd
  · exact hinit.symm
  · intro huse
    rw [hdst.ddr0TrnDataLen, if_pos huse]
    rfl
  · intro huse
    rw [hdst.ddr1TrnDataLen, if_pos huse]
    rfl

theorem lay_inside (b : DdrBoard) (src disk : Mem) (p : ℕ) {n i : ℕ} (hi : i < n) :
    b.lay p n src disk (b.pt.firstByte + (p + i)) = src i := by
  have := b.le_whole n
  rw [lay, ← Nat.add_assoc, overlay_add _ _ (by omega)]

theorem lay_outside (b : DdrBoard) (src disk : Mem) {p n x : ℕ} (hx : x < p ∨ p + b.whole n ≤ x) :
    b.lay p n src disk (b.pt.firstByte + x) = disk (b.pt.firstByte + x) :=
  overlay_of_not_mem _ _ (by omega)

theorem place0_eq (b : DdrBoard) (h : b.place0 ≠ 0) :
    b.place0 = b.whole 40 + b.whole b.initLen := by
  rw [place0] at h ⊢
  split
  · rfl
  · next hno => exact absurd (if_neg hno) h

theorem place1_eq (b : DdrBoard) (h : b.place1 ≠ 0) :
    b.place1 = b.place0 + b.whole b.dqsLen := by
  rw [place1] at h ⊢
  split
  · rfl
  · next hno => exact absurd (if_neg hno) h

/-- What a save leaves, with the second training table behind the init table. -/
theorem saved_spec (b : DdrBoard) (header : Mem) (t : Tables) (disk : Mem)
    (hapart : b.place1 ≠ 0 → b.whole 40 + b.whole b.initLen ≤ b.place1) :
    (∀ i < 40, b.saved header t disk (b.pt.firstByte + i) = header i) ∧
      (∀ i < b.initLen, b.saved header t disk (b.pt.firstByte + (b.whole 40 + i)) =
        t.initDatas i) ∧
      (b.place0 ≠ 0 → ∀ i < b.dqsLen,
        b.saved header t disk (b.pt.firstByte + (b.place0 + i)) = t.dqs0 i) ∧
      (b.place1 ≠ 0 → ∀ i < b.dqsLen,
        b.saved header t disk (b.pt.firstByte + (b.place1 + i)) = t.dqs1 i) := by
  have hinit := b.le_whole b.initLen
  have hdqs := b.le_whole b.dqsLen
  have hplace0 := b.place0_eq
  have hplace1 := b.place1_eq
  refine ⟨fun i hi => ?_, fun i hi => ?_, fun hne i hi => ?_, fun hne i hi => ?_⟩
  · have hin := fun d => b.lay_inside header d 0 hi
    simp only [Nat.zero_add] at hin
    exact hin _
  · rw [saved, b.lay_outside _ _ (by omega)]
    have hskip1 : ∀ d : Mem, (if b.place1 ≠ 0 then b.lay b.place1 b.dqsLen t.dqs1 d else d)
        (b.pt.firstByte + (b.whole 40 + i)) = d (b.pt.firstByte + (b.whole 40 + i)) := by
      intro d
      split
      · next hne => exact b.lay_outside _ _ (by have := hapart hne; omega)
      · rfl
    have hskip0 : ∀ d : Mem, (if b.place0 ≠ 0 then b.lay b.place0 b.dqsLen t.dqs0 d else d)
        (b.pt.firstByte + (b.whole 40 + i)) = d (b.pt.firstByte + (b.whole 40 + i)) := by
      intro d
      split
      · next hne => exact b.lay_outside _ _ (by have := hplace0 hne; omega)
      · rfl
    rw [hskip1, hskip0, b.lay_inside _ _ _ hi]
  · have hskip1 : ∀ d : Mem, (if b.place1 ≠ 0 then b.lay b.place1 b.dqsLen t.dqs1 d else d)
        (b.pt.firstByte + (b.place0 + i)) = d (b.pt.firstByte + (b.place0 + i)) := by
      intro d
      split
      · next hne1 => exact b.lay_outside _ _ (by have := hplace1 hne1; omega)
      · rfl
    rw [saved, b.lay_outside _ _ (by have := hplace0 hne; omega), hskip1, if_pos hne,
      b.lay_inside _ _ _ hi]
  · rw [saved, b.lay_outside _ _ (by have := hapart hne; omega), if_pos hne,
      b.lay_inside _ _ _ hi]

/-- A training table is read if it has a place. -/
theorem optional_read (b : DdrBoard) (disk dst src : Mem) {p : ℕ} (hp : b.bl ∣ p)
    (hlt : p + b.dqsLen < 2 ^ 32) (hroom : p ≠ 0 → p + b.dqsLen ≤ b.pt.bytes)
    (hdisk : p ≠ 0 → ∀ i < b.dqsLen, disk (b.pt.firstByte + (p + i)) = src i)
    (s : ReadSession Unit) :
    let r : ReadResult Unit := if UInt32.ofNat p ≠ 0 then
        b.flashBlockRead (b.reading disk) dst (UInt32.ofNat p) b.dqsLength s else ⟨0, dst, s⟩
    r.ret = 0 ∧ (p ≠ 0 → ∀ i < b.dqsLen, r.dst i = src i) := by
  have hword : (UInt32.ofNat p).toNat = p := toNat_ofNat_place hlt
  simp only [ofNat_place_ne_zero hlt]
  by_cases hne : p ≠ 0
  · obtain ⟨hret, hbytes⟩ := flashBlockRead_fits b disk dst (UInt32.ofNat p) b.dqsLength
      (by rwa [hword]) (by rw [hword]; exact hroom hne) s
    simp only [if_pos hne]
    refine ⟨hret, fun _ i hi => ?_⟩
    rw [hbytes i hi, hword, Nat.add_assoc, hdisk hne i hi]
  · simp only [if_neg hne]
    exact ⟨trivial, fun h => absurd h hne⟩

theorem place0_ne (b : DdrBoard) (h : b.dramSize = true) : b.place0 ≠ 0 := by
  have := b.le_whole 40
  rw [place0, if_pos h]
  omega

theorem place1_ne (b : DdrBoard) (h : b.memctl1Size = true) (hdqs : 0 < b.dqsLen) :
    b.place1 ≠ 0 := by
  have := b.le_whole b.dqsLen
  rw [place1, if_pos h]
  omega

/-- A disk with a header and behind it the tables it tells of is restored. -/
theorem restores_of_spec (b : DdrBoard) {checksum : UInt32} {h : Mem} {t : Tables} {disk : Mem}
    (hheader : b.Header checksum h) (hroom : b.Room)
    (hat : ∀ i < 40, disk (b.pt.firstByte + i) = h i)
    (hinit : ∀ i < b.initLen, disk (b.pt.firstByte + (b.whole 40 + i)) = t.initDatas i)
    (hdqs0 : b.place0 ≠ 0 → ∀ i < b.dqsLen,
      disk (b.pt.firstByte + (b.place0 + i)) = t.dqs0 i)
    (hdqs1 : b.place1 ≠ 0 → ∀ i < b.dqsLen,
      disk (b.pt.firstByte + (b.place1 + i)) = t.dqs1 i) :
    Restores b checksum t disk := by
  obtain ⟨-, hfits, hroom0, hroom1⟩ := hroom
  obtain ⟨hlt40, hlt0, hlt1⟩ := b.places_lt
  have h40 := b.le_whole 40
  refine ⟨fun gd' => (needTraining_of_header hheader hat (by omega) gd').1, fun gd' old => ?_⟩
  obtain ⟨-, hread⟩ := needTraining_of_header hheader hat (by omega) gd'
  have hword : (UInt32.ofNat (b.whole 40)).toNat = b.whole 40 := toNat_ofNat_place hlt40
  dsimp only
  generalize ddrNeedTraining (b.reading disk) b.toMemctl checksum.toNat gd'
    (ReadSession.initial ()) = need at hread ⊢
  simp only [ddrRestoreConfigData, hread.initData, hread.ddr0TrnData, hread.ddr1TrnData]
  obtain ⟨hret, hbytes⟩ := flashBlockRead_fits b disk old.initDatas (UInt32.ofNat (b.whole 40))
    b.initDatasLength (by rw [hword]; exact b.dvd_whole 40) (by rw [hword]; exact hfits) need.2.2
  rw [if_neg (not_not.2 hret)]
  generalize b.flashBlockRead (b.reading disk) old.initDatas (UInt32.ofNat (b.whole 40))
    b.initDatasLength need.2.2 = r at hbytes ⊢
  have hopt0 := b.optional_read disk old.dqs0 t.dqs0 b.place0_dvd hlt0 (fun h => (hroom0 h).2)
    hdqs0 r.session
  dsimp only at hopt0
  generalize (if UInt32.ofNat b.place0 ≠ 0 then b.flashBlockRead (b.reading disk) old.dqs0
    (UInt32.ofNat b.place0) b.dqsLength r.session else ⟨0, old.dqs0, r.session⟩) = r0 at hopt0 ⊢
  rw [if_neg (not_not.2 hopt0.1)]
  have hopt1 := b.optional_read disk old.dqs1 t.dqs1 b.place1_dvd hlt1 (fun h => (hroom1 h).2)
    hdqs1 r0.session
  dsimp only at hopt1
  generalize (if UInt32.ofNat b.place1 ≠ 0 then b.flashBlockRead (b.reading disk) old.dqs1
    (UInt32.ofNat b.place1) b.dqsLength r0.session else ⟨0, old.dqs1, r0.session⟩) = r1 at hopt1 ⊢
  refine ⟨hopt1.1, fun i hi => ?_, fun huse i hi => hopt0.2 (b.place0_ne huse) i hi,
    fun huse i hi => hopt1.2 (b.place1_ne huse (by omega)) i hi⟩
  dsimp only
  rw [hbytes i hi, hword, Nat.add_assoc, hinit i hi]

/-- A save with its tables apart is restored. -/
theorem saved_restores (b : DdrBoard) (checksum : UInt32) (gd : Mem) (t : Tables) (disk : Mem)
    (hroom : b.Room) (hapart : b.place1 ≠ 0 → b.whole 40 + b.whole b.initLen ≤ b.place1) :
    Restores b checksum t (b.saved (savedHeader b.toMemctl b.bl checksum gd) t disk) := by
  obtain ⟨hat, hinit, hdqs0, hdqs1⟩ := b.saved_spec
    (savedHeader b.toMemctl b.bl checksum gd) t disk hapart
  exact b.restores_of_spec (b.savedHeader_header checksum gd) hroom hat hinit hdqs0 hdqs1

/-- Writes at places of the area share no block if their places do not. -/
theorem requestsApart_iff (b : DdrBoard) {p q m n : ℕ} (hp : b.bl ∣ p) (hq : b.bl ∣ q) :
    RequestsApart (b.request p m) (b.request q n) ↔
      p + b.whole m ≤ q ∨ q + b.whole n ≤ p := by
  have hle : ∀ {p q : ℕ} (m : ℕ), b.bl ∣ p → b.bl ∣ q →
      ((b.pt.firstByte + p) / b.bl + blocksUp m b.bl ≤ (b.pt.firstByte + q) / b.bl ↔
        p + b.whole m ≤ q) := by
    intro p q m hp hq
    rw [← Nat.mul_le_mul_right_iff b.bl_pos, Nat.add_mul,
      Nat.div_mul_cancel (Nat.dvd_add b.bl_dvd hp), Nat.div_mul_cancel (Nat.dvd_add b.bl_dvd hq),
      whole]
    omega
  exact or_congr (hle m hp hq) (hle n hq hp)

/-- The layout is disjoint exactly when the second training table lies behind the init table. -/
theorem used_apart_iff (b : DdrBoard) :
    b.used.Pairwise RequestsApart ↔
      (b.place1 ≠ 0 → b.whole 40 + b.whole b.initLen ≤ b.place1) := by
  have h0 := Nat.dvd_zero b.bl
  have h40 := b.dvd_whole 40
  have hlt := b.le_whole 40
  have hdqs := b.le_whole b.dqsLen
  have hplace0 := b.place0_eq
  have hplace1 := b.place1_eq
  have hH0 := b.requestsApart_iff (m := 40) (n := b.dqsLen) h0 b.place0_dvd
  have hH1 := b.requestsApart_iff (m := 40) (n := b.dqsLen) h0 b.place1_dvd
  have hHI := b.requestsApart_iff (m := 40) (n := b.initLen) h0 h40
  have h10 := b.requestsApart_iff (m := b.dqsLen) (n := b.dqsLen) b.place1_dvd b.place0_dvd
  have h1I := b.requestsApart_iff (m := b.dqsLen) (n := b.initLen) b.place1_dvd h40
  have h0I := b.requestsApart_iff (m := b.dqsLen) (n := b.initLen) b.place0_dvd h40
  rw [used]
  by_cases hne0 : b.place0 ≠ 0
  · rw [if_pos hne0]
    have heq0 := hplace0 hne0
    by_cases hne1 : b.place1 ≠ 0
    · rw [if_pos hne1]
      have heq1 := hplace1 hne1
      simp [hH0, hH1, hHI, h10, h1I, h0I]
      omega
    · rw [if_neg hne1]
      simp [hH0, hHI, h0I]
      omega
  · rw [if_neg hne0]
    by_cases hne1 : b.place1 ≠ 0
    · rw [if_pos hne1]
      simp [hH1, hHI, h1I]
      omega
    · rw [if_neg hne1]
      simp [hHI]
      omega

end DdrBoard

/-- The same about the places. -/
theorem tablesApart_iff (b : DdrBoard) : TablesApart b ↔
    (b.Room → b.place1 ≠ 0 → b.whole 40 + b.whole b.initLen ≤ b.place1) := by
  have h40 := b.le_whole 40
  have hdqs := b.le_whole b.dqsLen
  have hdqs' := b.whole_lt b.dqsLen
  rw [TablesApart]
  cases hdram : b.dramSize with
  | true =>
    refine iff_of_true (.inl rfl) fun _ hne => ?_
    have heq0 := b.place0_eq (b.place0_ne hdram)
    have heq1 := b.place1_eq hne
    omega
  | false =>
    have hplace0 : b.place0 = 0 := by rw [DdrBoard.place0, hdram]; rfl
    cases huse : b.memctl1Size with
    | false =>
      refine iff_of_true (.inr (.inl rfl)) fun _ hne => absurd ?_ hne
      rw [DdrBoard.place1, huse]
      rfl
    | true =>
      have hplace1 : b.place1 = b.whole b.dqsLen := by
        rw [DdrBoard.place1, if_pos huse, hplace0, Nat.zero_add]
      have hzero : b.dqsLen = 0 ↔ b.whole b.dqsLen = 0 := by
        refine ⟨fun h => ?_, fun h => by omega⟩
        rw [h, DdrBoard.whole, blocksUp]
        simp
      rw [hplace1, hzero]
      simp only [reduceCtorEq, false_or]
      tauto

theorem savesRight_iff_places (b : DdrBoard) : SavesRight b ↔
    (b.Room → b.place1 ≠ 0 → b.whole 40 + b.whole b.initLen ≤ b.place1) := by
  constructor
  · intro h hroom
    let t : Tables := ⟨fun _ => 0, fun _ => 0, fun _ => 0⟩
    rcases b.save_cases 0 (fun _ => 0) t (fun _ => 0) with ⟨-, hnot⟩ | ⟨hret, -, -, hreq⟩
    · exact absurd hroom hnot
    · have hpairwise := (h 0 (fun _ => 0) t (fun _ => 0) hret).2
      rw [hreq] at hpairwise
      exact b.used_apart_iff.1 hpairwise
  · intro h checksum gd t disk r hret
    rcases b.save_cases checksum gd t disk with ⟨hfail, -⟩ | ⟨-, hroom, hdev, hreq⟩
    · exact absurd hret hfail
    · refine ⟨?_, ?_⟩
      · rw [show r.2.dev = _ from hdev]
        exact b.saved_restores checksum gd t disk hroom (h hroom)
      · rw [show r.2.requests = _ from hreq]
        exact b.used_apart_iff.2 (h hroom)

/-- Saves that succeed are restored, from blocks that are apart, if and only if the tables are
apart. -/
theorem savesRight_iff (b : DdrBoard) : SavesRight b ↔ TablesApart b :=
  (savesRight_iff_places b).trans (tablesApart_iff b).symm

/-- Only the second controller has memory, and the init table is of two blocks. -/
def secondOnly : DdrBoard where
  partitions := [.ofWords 512 2048 16 "ddr"]
  partitionDdr := some "ddr"
  initDatasLength := 1024
  dqsLength := 512
  dramSize := false
  memctl1Size := true
  tmp := fun _ => 0
  blBits := 9
  blBits_le := le_rfl
  pt := .ofWords 512 2048 16 "ddr"
  found := rfl
  aligned := by decide
  below := by decide
  tables_fit := by decide

/-- Its training table is written over the first block of the init table. -/
theorem second_table_overwrites_init : ¬ ∀ b : DdrBoard, SavesRight b := by
  intro h
  have hplaces := (savesRight_iff_places secondOnly).1 (h secondOnly)
  exact absurd (hplaces (by decide) (by decide)) (by decide)

end UBoot.Board
