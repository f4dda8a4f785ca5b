import UBoot.Board.DdrSave

/-!
# Power lost during a save

`ddr_save_config_data` writes the tables where those of the save before lie, and the header
last. A save that is cut short leaves the header that was there. If a boot would train with it,
it still does; if not, the header stands in front of tables some of which are new.
-/
namespace UBoot.Board
open ByteStore UBoot.Flash

/-- A card that takes so many blocks and then no more. The write that comes to the end fails. -/
def losingPower (bl : ℕ) (hpos : 0 < bl) (hlt : bl < 2 ^ 32) : BlockDev (Mem × ℕ) where
  blLen := bl
  blLen_pos := hpos
  blLen_lt := hlt
  blockWrite blk cnt src s :=
    (if cnt ≤ s.2 then cnt else 0,
      overlay s.1 (blk * bl) (min cnt s.2 * bl) src, s.2 - cnt)

namespace DdrBoard
variable (b : DdrBoard)

def losing : BlockDev (Mem × ℕ) := losingPower b.bl b.bl_pos b.bl_lt

/-- The disk a save leaves that loses power after `n` blocks. -/
def interrupted (checksum : UInt32) (gd : Mem) (t : Tables) (disk : Mem) (n : ℕ) : Mem :=
  (ddrSaveConfigData b.losing b.toMemctl b.bl checksum gd t (Session.initial (disk, n))).2.dev.1

/-- A boot that finds this disk: whether it trains, and the tables it has. -/
def boot (checksum : UInt32) (gd : Mem) (live : Tables) (disk : Mem) : Bool × Tables :=
  memctlLoad (b.reading disk) b.toMemctl checksum.toNat gd live (ReadSession.initial ())

/-- The init tables, and the training tables of the controllers in use, are the same. -/
structure SameTables (t t' : Tables) : Prop where
  initDatas : ∀ i < b.initLen, t.initDatas i = t'.initDatas i
  dqs0 : b.dramSize = true → ∀ i < b.dqsLen, t.dqs0 i = t'.dqs0 i
  dqs1 : b.memctl1Size = true → ∀ i < b.dqsLen, t.dqs1 i = t'.dqs1 i

/-- Writing the tables does not change the disk. -/
structure Unchanged (t : Tables) (disk : Mem) : Prop where
  initDatas : b.lay (b.whole 40) b.initLen t.initDatas disk = disk
  dqs0 : b.place0 ≠ 0 → b.lay b.place0 b.dqsLen t.dqs0 disk = disk
  dqs1 : b.place1 ≠ 0 → b.lay b.place1 b.dqsLen t.dqs1 disk = disk

/-- Wherever the save is cut short, the next boot trains, or has all tables of the save, or all
that a boot had before it. -/
def SaveAtomic (checksum : UInt32) (gd : Mem) (t : Tables) (disk : Mem) : Prop :=
  ∀ n gd' live,
    let r := b.boot checksum gd' live (b.interrupted checksum gd t disk n)
    r.1 = true ∨ b.SameTables r.2 t ∨
      (b.boot checksum gd' live disk).1 = false ∧
        b.SameTables r.2 (b.boot checksum gd' live disk).2

/-- The header is in one block, the second training table lies behind the init table, and a boot
before the save trains or the save writes what is there. -/
def SafeSave (checksum : UInt32) (t : Tables) (disk : Mem) : Prop :=
  40 ≤ b.bl ∧ TablesApart b ∧
    ((∀ gd live, (b.boot checksum gd live disk).1 = true) ∨ b.Unchanged t disk)

end DdrBoard

/-- A write into the save area stops in front of some block, and says why, or lays all its
blocks. -/
theorem losing_write_cases (b : DdrBoard) (buffer : Mem) (off size : UInt32)
    (hoff : b.bl ∣ off.toNat) (hsum : off.toNat + size.toNat < 2 ^ 32) (s : Session (Mem × ℕ)) :
    let r := b.flashBlockWrite b.losing buffer off size s
    (r.1 ≠ 0 ∧ (size.toNat = 0 ∨ b.pt.bytes < off.toNat + size.toNat ∨
        s.dev.2 < blocksUp size.toNat b.bl) ∧
      ∃ k ≤ s.dev.2, (k = 0 ∨ k < blocksUp size.toNat b.bl) ∧
        r.2.dev.1 = overlay s.dev.1 (b.pt.firstByte + off.toNat) (k * b.bl) buffer) ∨
    (r.1 = 0 ∧ 0 < size.toNat ∧ off.toNat + size.toNat ≤ b.pt.bytes ∧
      blocksUp size.toNat b.bl ≤ s.dev.2 ∧
      r.2.dev = (b.lay off.toNat size.toNat buffer s.dev.1,
        s.dev.2 - blocksUp size.toNat b.bl)) := by
  dsimp only
  rcases flashBlockWrite_request b b.losing rfl buffer off size hoff hsum s with
    ⟨hret, hdev, hwhy⟩ | ⟨hrange, hplace, hret, hdev, -⟩
  · refine .inl ⟨hret, .inr (.inl hwhy), 0, Nat.zero_le _, .inl rfl, ?_⟩
    rw [hdev, Nat.zero_mul, overlay_zero]
  · rw [hret, hdev]
    simp only [DdrBoard.losing, losingPower, hplace]
    by_cases hfuel : (b.request off.toNat size.toNat).cnt ≤ s.dev.2
    · rw [if_pos hfuel, Nat.min_eq_left hfuel]
      rcases Nat.eq_zero_or_pos size.toNat with hzero | hsize
      · refine .inl ⟨?_, .inl hzero, 0, Nat.zero_le _, .inl rfl, ?_⟩
        · simp [DdrBoard.request, hzero, eIo]
        · simp [DdrBoard.request, hzero]
      · have hblocks : 0 < blocksUp size.toNat b.bl := (lt_blocksUp_iff _ _ b.bl_pos).2 (by omega)
        refine .inr ⟨?_, hsize, hrange, hfuel, rfl⟩
        simp [DdrBoard.request, hblocks]
    · have hless : s.dev.2 < (b.request off.toNat size.toNat).cnt := not_le.mp hfuel
      rw [if_neg hfuel, Nat.min_eq_right hless.le]
      exact .inl ⟨show eIo ≠ 0 by decide, .inr (.inr hless), s.dev.2, le_rfl, .inr hless, rfl⟩

namespace DdrBoard
variable {b : DdrBoard} {checksum : UInt32} {t : Tables} {disk d : Mem}

/-- The header stands as it did, and so does all else if the tables are there already. -/
structure Kept (b : DdrBoard) (t : Tables) (disk d : Mem) : Prop where
  header : ∀ i < 40, d (b.pt.firstByte + i) = disk (b.pt.firstByte + i)
  same : b.Unchanged t disk → d = disk

theorem Kept.refl (b : DdrBoard) (t : Tables) (disk : Mem) : Kept b t disk disk :=
  ⟨fun _ _ => rfl, fun _ => rfl⟩

/-- A table written behind the header, completely or in part, keeps the header. -/
theorem Kept.overlay (h : Kept b t disk d) {p n len : ℕ} {src : Mem} (hp : len = 0 ∨ 40 ≤ p)
    (hlen : len ≤ b.whole n) (hsame : b.Unchanged t disk → b.lay p n src disk = disk) :
    Kept b t disk (ByteStore.overlay d (b.pt.firstByte + p) len src) := by
  constructor
  · intro i hi
    rw [overlay_of_not_mem _ _ (by omega), h.header i hi]
  · intro hun
    rw [h.same hun]
    funext a
    by_cases ha : b.pt.firstByte + p ≤ a ∧ a < b.pt.firstByte + p + len
    · rw [overlay_of_mem _ _ ha.1 ha.2]
      have hat := congrFun (hsame hun) a
      rw [lay, overlay_of_mem _ _ ha.1 (by omega)] at hat
      exact hat
    · rw [overlay_of_not_mem _ _ ha]

theorem mul_le_whole {k n : ℕ} (h : k = 0 ∨ k < blocksUp n b.bl) : k * b.bl ≤ b.whole n :=
  Nat.mul_le_mul_right _ (by omega)

/-- The write of a training table, which is left out without a place. -/
theorem losing_optional_cases {p : ℕ} (h40 : 40 ≤ b.bl) (hp : b.bl ∣ p)
    (hlt : p + b.dqsLen < 2 ^ 32) (buffer : Mem) {s : Session (Mem × ℕ)}
    (hkept : Kept b t disk s.dev.1)
    (hsame : p ≠ 0 → b.Unchanged t disk → b.lay p b.dqsLen buffer disk = disk) :
    let r := if UInt32.ofNat p ≠ 0 then
        b.flashBlockWrite b.losing buffer (UInt32.ofNat p) b.dqsLength s else (0, s)
    Kept b t disk r.2.dev.1 ∧ (r.1 ≠ 0 ∨
      r.1 = 0 ∧ (p ≠ 0 → 0 < b.dqsLen ∧ p + b.dqsLen ≤ b.pt.bytes) ∧
        r.2.dev.1 = if p ≠ 0 then b.lay p b.dqsLen buffer s.dev.1 else s.dev.1) := by
  have hword : (UInt32.ofNat p).toNat = p := toNat_ofNat_place hlt
  simp only [ofNat_place_ne_zero hlt]
  by_cases hne : p ≠ 0
  · have hfar : 40 ≤ p := h40.trans (Nat.le_of_dvd (Nat.pos_of_ne_zero hne) hp)
    simp only [if_pos hne]
    rcases losing_write_cases b buffer (UInt32.ofNat p) b.dqsLength (by rwa [hword])
      (by rwa [hword]) s with ⟨hret, -, k, -, hk, hdev⟩ | ⟨hret, hsize, hfits, -, hdev⟩
    · rw [hword] at hdev
      rw [hdev]
      exact ⟨hkept.overlay (.inr hfar) (mul_le_whole hk) (hsame hne), .inl hret⟩
    · rw [hword] at hfits hdev
      rw [hdev]
      exact ⟨hkept.overlay (.inr hfar) le_rfl (hsame hne),
        .inr ⟨hret, fun _ => ⟨hsize, hfits⟩, rfl⟩⟩
  · simp only [if_neg hne]
    exact ⟨hkept, .inr ⟨trivial, fun h => absurd h hne, trivial⟩⟩

/-- A save that is cut short keeps the header, or it is complete. -/
theorem interrupted_cases (b : DdrBoard) (checksum : UInt32) (gd : Mem) (t : Tables) (disk : Mem)
    (n : ℕ) (h40 : 40 ≤ b.bl) :
    Kept b t disk (b.interrupted checksum gd t disk n) ∨ (b.Room ∧
      b.interrupted checksum gd t disk n =
        b.saved (savedHeader b.toMemctl b.bl checksum gd) t disk) := by
  have hheader := b.savedHeader_header checksum gd
  obtain ⟨hlt40, hlt0, hlt1⟩ := b.places_lt
  have hword : (UInt32.ofNat (b.whole 40)).toNat = b.whole 40 := toNat_ofNat_place hlt40
  have hfar := b.le_whole 40
  rw [interrupted]
  simp only [ddrSaveConfigData, hheader.initData, hheader.ddr0TrnData, hheader.ddr1TrnData]
  have hinit := losing_write_cases b t.initDatas (UInt32.ofNat (b.whole 40)) b.initDatasLength
    (by rw [hword]; exact b.dvd_whole 40) (by rw [hword]; exact hlt40)
    (Session.initial (disk, n))
  dsimp only at hinit
  rw [hword] at hinit
  generalize b.flashBlockWrite b.losing t.initDatas (UInt32.ofNat (b.whole 40))
    b.initDatasLength (Session.initial (disk, n)) = r at hinit ⊢
  rcases hinit with ⟨hret, -, k, -, hk, hdev⟩ | ⟨hret, hinit, hfits, -, hdev⟩
  · rw [if_pos hret, hdev]
    exact .inl ((Kept.refl b t disk).overlay (.inr hfar) (mul_le_whole hk) (·.initDatas))
  have hkept : Kept b t disk r.2.dev.1 := by
    rw [hdev]
    exact (Kept.refl b t disk).overlay (.inr hfar) le_rfl (·.initDatas)
  rw [if_neg (not_not.2 hret)]
  obtain ⟨hkept0, hdone0⟩ := losing_optional_cases h40 b.place0_dvd hlt0 t.dqs0 hkept
    (fun hne hun => hun.dqs0 hne)
  generalize (if UInt32.ofNat b.place0 ≠ 0 then
    b.flashBlockWrite b.losing t.dqs0 (UInt32.ofNat b.place0) b.dqsLength r.2
    else (0, r.2)) = r0 at hkept0 hdone0 ⊢
  rcases hdone0 with hret0 | ⟨hret0, hroom0, hdev0⟩
  · rw [if_pos hret0]
    exact .inl hkept0
  rw [if_neg (not_not.2 hret0)]
  obtain ⟨hkept1, hdone1⟩ := losing_optional_cases h40 b.place1_dvd hlt1 t.dqs1 hkept0
    (fun hne hun => hun.dqs1 hne)
  generalize (if UInt32.ofNat b.place1 ≠ 0 then
    b.flashBlockWrite b.losing t.dqs1 (UInt32.ofNat b.place1) b.dqsLength r0.2
    else (0, r0.2)) = r1 at hkept1 hdone1 ⊢
  rcases hdone1 with hret1 | ⟨hret1, hroom1, hdev1⟩
  · rw [if_pos hret1]
    exact .inl hkept1
  rw [if_neg (not_not.2 hret1)]
  rcases losing_write_cases b (savedHeader b.toMemctl b.bl checksum gd) 0 sizeofDdrOnFlash
    (Nat.dvd_zero _) (by decide) r1.2 with ⟨-, -, k, -, hk, hdevH⟩ | ⟨-, -, -, -, hdevH⟩
  · -- the header is in one block: a write of it that fails has not begun
    have hone : blocksUp sizeofDdrOnFlash.toNat b.bl ≤ 1 := by
      rw [blocksUp_le_iff _ _ b.bl_pos, Nat.one_mul]
      exact h40
    have hnone : k = 0 := by omega
    rw [hdevH, hnone, Nat.zero_mul, overlay_zero]
    exact .inl hkept1
  · rw [hdevH, hdev1, hdev0, hdev]
    exact .inr ⟨⟨hinit, hfits, hroom0, hroom1⟩, rfl⟩

/-- Whether a read succeeds does not depend on what is read. -/
theorem flashBlockRead_ret_congr (b : DdrBoard) (d d' dst dst' : Mem) (off size : UInt32)
    (s s' : ReadSession Unit) : (b.flashBlockRead (b.reading d) dst off size s).ret =
      (b.flashBlockRead (b.reading d') dst' off size s').ret := by
  have hcount : ∀ (d dst : Mem) (blk cnt : ℕ) (s : ReadSession Unit),
      (s.blockRead (b.reading d) blk cnt dst).1 = u32 cnt := by
    intro d dst blk cnt s
    rw [ReadSession.blockRead]
    split
    · rename_i hzero
      exact hzero.symm
    · rfl
  have hlen : ∀ d, (b.reading d).readBlLen = b.bl := fun _ => rfl
  simp only [Memctl.flashBlockRead, Flash.flashBlockRead, b.found, hlen]
  split
  · rfl
  split
  · rfl
  generalize hw : (if size.toNat / b.bl ≠ 0 then _ else _ : ReadResult Unit) = w
  generalize hw' : (if size.toNat / b.bl ≠ 0 then _ else _ : ReadResult Unit) = w'
  have hret : w.ret = w'.ret := by
    rw [← hw, ← hw']
    split
    · simp only [hcount]
    · rfl
  rw [hret]
  split
  · simp only [hcount]
  · exact hret

/-- A restore with the same header fails or not, whatever it reads. -/
theorem restore_ret_congr (b : DdrBoard) (d d' : Mem) {h h' : Mem} (heq : ∀ i < 40, h i = h' i)
    (live live' : Tables) (s s' : ReadSession Unit) :
    (ddrRestoreConfigData (b.reading d) b.toMemctl h live s).1 =
      (ddrRestoreConfigData (b.reading d') b.toMemctl h' live' s').1 := by
  have hget : ∀ f : ByteStore.Field, f.off + f.len ≤ 40 → f.get h = f.get h' := fun f hf =>
    f.get_congr fun i _ hi => heq i (by omega)
  have hoptional : ∀ (p : UInt32) (dst dst' : Mem) (s s' : ReadSession Unit),
      (if p ≠ 0 then b.flashBlockRead (b.reading d) dst p b.dqsLength s
        else ⟨0, dst, s⟩ : ReadResult Unit).ret =
      (if p ≠ 0 then b.flashBlockRead (b.reading d') dst' p b.dqsLength s'
        else ⟨0, dst', s'⟩ : ReadResult Unit).ret := by
    intro p dst dst' s s'
    split
    · exact flashBlockRead_ret_congr ..
    · rfl
  simp only [ddrRestoreConfigData, hget DdrOnFlash.initData (by decide),
    hget DdrOnFlash.ddr0TrnData (by decide), hget DdrOnFlash.ddr1TrnData (by decide)]
  generalize UInt32.ofNat (DdrOnFlash.initData.get h') = p
  generalize UInt32.ofNat (DdrOnFlash.ddr0TrnData.get h') = p0
  generalize UInt32.ofNat (DdrOnFlash.ddr1TrnData.get h') = p1
  have hret := flashBlockRead_ret_congr b d d' live.initDatas live'.initDatas p
    b.initDatasLength s s'
  generalize b.flashBlockRead (b.reading d) live.initDatas p b.initDatasLength s = r at hret ⊢
  generalize b.flashBlockRead (b.reading d') live'.initDatas p b.initDatasLength s' = r' at hret ⊢
  rw [hret]
  by_cases hfail : r'.ret ≠ 0
  · rw [if_pos hfail, if_pos hfail]
  rw [if_neg hfail, if_neg hfail]
  have hret0 := hoptional p0 live.dqs0 live'.dqs0 r.session r'.session
  generalize (if p0 ≠ 0 then b.flashBlockRead (b.reading d) live.dqs0 p0 b.dqsLength r.session
    else ⟨0, live.dqs0, r.session⟩ : ReadResult Unit) = r0 at hret0 ⊢
  generalize (if p0 ≠ 0 then b.flashBlockRead (b.reading d') live'.dqs0 p0 b.dqsLength r'.session
    else ⟨0, live'.dqs0, r'.session⟩ : ReadResult Unit) = r0' at hret0 ⊢
  rw [hret0]
  by_cases hfail0 : r0'.ret ≠ 0
  · rw [if_pos hfail0, if_pos hfail0]
  rw [if_neg hfail0, if_neg hfail0]
  exact hoptional p1 live.dqs1 live'.dqs1 r0.session r0'.session

/-- The same header is read from both disks, or from neither. -/
theorem header_read_congr (hheader : ∀ i < 40, d (b.pt.firstByte + i) =
    disk (b.pt.firstByte + i)) (gd : Mem) :
    let r := b.flashBlockRead (b.reading d) gd 0 sizeofDdrOnFlash (ReadSession.initial ())
    let r' := b.flashBlockRead (b.reading disk) gd 0 sizeofDdrOnFlash (ReadSession.initial ())
    r.ret = r'.ret ∧ (r'.ret = 0 → ∀ i < 40, r.dst i = r'.dst i) := by
  refine ⟨flashBlockRead_ret_congr .., fun hret i hi => ?_⟩
  by_cases hroom : 40 ≤ b.pt.bytes
  · have hfit : (0 : UInt32).toNat + sizeofDdrOnFlash.toNat ≤ b.pt.bytes := by
      show 0 + 40 ≤ _
      omega
    obtain ⟨-, hbytes⟩ := flashBlockRead_fits b d gd 0 sizeofDdrOnFlash (Nat.dvd_zero _) hfit
      (ReadSession.initial ())
    obtain ⟨-, hbytes'⟩ := flashBlockRead_fits b disk gd 0 sizeofDdrOnFlash (Nat.dvd_zero _) hfit
      (ReadSession.initial ())
    rw [hbytes i hi, hbytes' i hi]
    exact hheader i hi
  · -- the header does not fit, and the read is refused
    have hbelow := b.below
    have hrange : u32 ((0 : UInt32).toNat + sizeofDdrOnFlash.toNat) > u32 b.pt.bytes := by
      rw [u32_of_lt (by omega : b.pt.bytes < 2 ^ 32)]
      show u32 40 > _
      rw [u32_of_lt (by norm_num)]
      omega
    rw [Partition.bytes] at hrange
    simp only [Memctl.flashBlockRead, Flash.flashBlockRead, b.found] at hret
    rw [if_pos hrange] at hret
    exact absurd hret (show eInval ≠ 0 by decide)

/-- A boot that trains with a header trains with it whatever stands behind it. -/
theorem boot_trains_of_header (hheader : ∀ i < 40, d (b.pt.firstByte + i) =
    disk (b.pt.firstByte + i)) {gd : Mem} {live : Tables}
    (h : (b.boot checksum gd live disk).1 = true) : (b.boot checksum gd live d).1 = true := by
  obtain ⟨hret, hbytes⟩ := header_read_congr hheader gd
  have hlen : ∀ d, (b.reading d).readBlLen = b.bl := fun _ => rfl
  simp only [boot, memctlLoad, ddrNeedTraining, hlen] at h ⊢
  rw [hret]
  generalize b.flashBlockRead (b.reading disk) gd 0 sizeofDdrOnFlash (ReadSession.initial ()) = r'
    at hret hbytes h ⊢
  generalize b.flashBlockRead (b.reading d) gd 0 sizeofDdrOnFlash (ReadSession.initial ()) = r
    at hret hbytes ⊢
  by_cases hfail : r'.ret ≠ 0
  · rw [if_pos (decide_eq_true (.inl hfail))]
  have heq := hbytes (not_not.1 hfail)
  have hget : ∀ f : ByteStore.Field, f.off + f.len ≤ 40 → f.get r.dst = f.get r'.dst :=
    fun f hf => f.get_congr fun i _ hi => heq i (by omega)
  simp only [hget DdrOnFlash.magic (by decide), hget DdrOnFlash.version (by decide),
    hget DdrOnFlash.checksum (by decide), hget DdrOnFlash.total (by decide),
    hget DdrOnFlash.initData (by decide), hget DdrOnFlash.initDataLen (by decide),
    hget DdrOnFlash.ddr0TrnData (by decide), hget DdrOnFlash.ddr0TrnDataLen (by decide),
    hget DdrOnFlash.ddr1TrnData (by decide), hget DdrOnFlash.ddr1TrnDataLen (by decide)]
  split at h
  · rename_i hneed
    rw [if_pos hneed]
  · rename_i hneed
    rw [if_neg hneed]
    rw [restore_ret_congr b d disk heq live live r.session r'.session]
    exact h

/-- A boot that finds the tables has them. -/
theorem boot_of_restores (h : Restores b checksum t d) (gd : Mem) (live : Tables) :
    (b.boot checksum gd live d).1 = false ∧ b.SameTables (b.boot checksum gd live d).2 t := by
  obtain ⟨hret, hinit, hdqs0, hdqs1⟩ := h.tables gd live
  have hload : b.boot checksum gd live d =
      (decide ((ddrRestoreConfigData (b.reading d) b.toMemctl
        (ddrNeedTraining (b.reading d) b.toMemctl checksum.toNat gd (ReadSession.initial ())).2.1
        live (ddrNeedTraining (b.reading d) b.toMemctl checksum.toNat gd
          (ReadSession.initial ())).2.2).1 ≠ 0), _) :=
    if_neg (by rw [h.accepted gd]; exact Bool.false_ne_true)
  rw [hload]
  exact ⟨decide_eq_false (not_not.2 hret), hinit, hdqs0, hdqs1⟩

/-- A save over a header that is not accepted, or over its own tables, is atomic. -/
theorem saveAtomic_of_safeSave (b : DdrBoard) (checksum : UInt32) (gd : Mem) (t : Tables)
    (disk : Mem) (h : b.SafeSave checksum t disk) : b.SaveAtomic checksum gd t disk := by
  obtain ⟨h40, hapart, hold⟩ := h
  intro n gd' live
  rcases interrupted_cases b checksum gd t disk n h40 with hkept | ⟨hroom, hsaved⟩
  · rcases hold with htrains | hsame
    · exact .inl (boot_trains_of_header hkept.header (htrains gd' live))
    · rw [hkept.same hsame]
      by_cases htrain : (b.boot checksum gd' live disk).1 = true
      · exact .inl htrain
      · exact .inr (.inr ⟨Bool.eq_false_iff.2 htrain, ⟨fun _ _ => rfl, fun _ _ _ => rfl,
          fun _ _ _ => rfl⟩⟩)
  · rw [hsaved]
    have hrestores := b.saved_restores checksum gd t disk hroom ((tablesApart_iff b).1 hapart hroom)
    exact .inr (.inl (boot_of_restores hrestores gd' live).2)

/-- A boot that finds no magic number trains. -/
theorem boot_trains_of_magic (hroom : 40 ≤ b.pt.bytes)
    (hmagic : DdrOnFlash.magic.get (fun i => disk (b.pt.firstByte + i)) ≠ ddronflashMagic)
    (gd : Mem) (live : Tables) : (b.boot checksum gd live disk).1 = true := by
  obtain ⟨-, hbytes⟩ := flashBlockRead_fits b disk gd 0 sizeofDdrOnFlash (Nat.dvd_zero _)
    (by show 0 + 40 ≤ _; omega) (ReadSession.initial ())
  have hget : DdrOnFlash.magic.get (b.flashBlockRead (b.reading disk) gd 0 sizeofDdrOnFlash
      (ReadSession.initial ())).dst ≠ ddronflashMagic := by
    rw [DdrOnFlash.magic.get_congr fun i _ hi => hbytes i (hi.trans (by decide))]
    exact hmagic
  simp only [boot, memctlLoad, ddrNeedTraining]
  refine congrArg Prod.fst (if_pos ?_)
  exact decide_eq_true (.inr (.inl hget))

/-- Power is lost when the init table has been written. -/
theorem interrupted_after_init (b : DdrBoard) (checksum : UInt32) (gd : Mem) (t : Tables)
    (disk : Mem) (hroom : b.Room) (huse : b.dramSize = true) :
    b.interrupted checksum gd t disk (blocksUp b.initLen b.bl) =
      b.lay (b.whole 40) b.initLen t.initDatas disk := by
  have hheader := b.savedHeader_header checksum gd
  obtain ⟨hinit, hfits, hroom0, -⟩ := hroom
  obtain ⟨hlt40, hlt0, -⟩ := b.places_lt
  have hdqs := (hroom0 (b.place0_ne huse)).1
  have hword : (UInt32.ofNat (b.whole 40)).toNat = b.whole 40 := toNat_ofNat_place hlt40
  have hword0 : (UInt32.ofNat b.place0).toNat = b.place0 := toNat_ofNat_place hlt0
  have hne : UInt32.ofNat b.place0 ≠ 0 := (ofNat_place_ne_zero hlt0).2 (b.place0_ne huse)
  rw [interrupted]
  simp only [ddrSaveConfigData, hheader.initData, hheader.ddr0TrnData, if_pos hne]
  have hwrite := losing_write_cases b t.initDatas (UInt32.ofNat (b.whole 40)) b.initDatasLength
    (by rw [hword]; exact b.dvd_whole 40) (by rw [hword]; exact hlt40)
    (Session.initial (disk, blocksUp b.initLen b.bl))
  dsimp only at hwrite
  rw [hword, show (Session.initial (disk, blocksUp b.initLen b.bl)).dev =
    (disk, blocksUp b.initLen b.bl) from rfl] at hwrite
  generalize b.flashBlockWrite b.losing t.initDatas (UInt32.ofNat (b.whole 40))
    b.initDatasLength (Session.initial (disk, blocksUp b.initLen b.bl)) = r at hwrite ⊢
  rcases hwrite with ⟨-, hwhy, -⟩ | ⟨hret, -, -, -, hdev⟩
  · rw [initLen] at hinit hfits hwhy
    omega
  rw [if_neg (not_not.2 hret)]
  have hleft : r.2.dev.2 = 0 := by
    rw [hdev]
    exact Nat.sub_self _
  rcases losing_write_cases b t.dqs0 (UInt32.ofNat b.place0) b.dqsLength
    (by rw [hword0]; exact b.place0_dvd) (by rw [hword0]; exact hlt0) r.2 with
    ⟨hlost, -, k, hk, -, hdev0⟩ | ⟨-, hsize, -, hblocks, -⟩
  · rw [if_pos hlost, hdev0, Nat.le_zero.1 (hk.trans_eq hleft), Nat.zero_mul, overlay_zero, hdev]
    rfl
  · have hpos : 0 < blocksUp b.dqsLength.toNat b.bl := (lt_blocksUp_iff _ _ b.bl_pos).2 (by omega)
    omega

/-- A save over an older one with other tables is not atomic: behind the init table power can be
lost with the old header in front of it. -/
theorem not_saveAtomic_of_resave (b : DdrBoard) (checksum : UInt32) (gd gd₀ disk₀ : Mem)
    {t t₀ : Tables} (hroom : b.Room) (huse : b.dramSize = true)
    (hinit : ∃ i < b.initLen, t.initDatas i ≠ t₀.initDatas i)
    (hdqs : ∃ i < b.dqsLen, t.dqs0 i ≠ t₀.dqs0 i) :
    ¬ b.SaveAtomic checksum gd t
      (b.saved (savedHeader b.toMemctl b.bl checksum gd₀) t₀ disk₀) := by
  intro h
  have hapart := (tablesApart_iff b).1 (.inl huse) hroom
  have hold := b.saved_restores checksum gd₀ t₀ disk₀ hroom hapart
  obtain ⟨hat, -, hdqs0, hdqs1⟩ := b.saved_spec
    (savedHeader b.toMemctl b.bl checksum gd₀) t₀ disk₀ hapart
  generalize b.saved (savedHeader b.toMemctl b.bl checksum gd₀) t₀ disk₀ = disk
    at h hold hat hdqs0 hdqs1
  have hplace0 := b.place0_eq (b.place0_ne huse)
  have h40 := b.le_whole 40
  have hmixed : Restores b checksum { t₀ with initDatas := t.initDatas }
      (b.lay (b.whole 40) b.initLen t.initDatas disk) := by
    refine b.restores_of_spec (b.savedHeader_header checksum gd₀) hroom ?_ ?_ ?_ ?_
    · intro i hi
      rw [b.lay_outside _ _ (by omega)]
      exact hat i hi
    · exact fun i hi => b.lay_inside _ _ _ hi
    · intro hne i hi
      rw [b.lay_outside _ _ (by omega)]
      exact hdqs0 hne i hi
    · intro hne i hi
      have hbehind := hapart hne
      rw [b.lay_outside _ _ (by omega)]
      exact hdqs1 hne i hi
  obtain ⟨haccepted, hboot⟩ := boot_of_restores hmixed (fun _ => 0) t₀
  obtain ⟨-, hbefore⟩ := boot_of_restores hold (fun _ => 0) t₀
  have hcut := h (blocksUp b.initLen b.bl) (fun _ => 0) t₀
  rw [b.interrupted_after_init checksum gd t disk hroom huse] at hcut
  obtain ⟨i, hi, hinit⟩ := hinit
  obtain ⟨j, hj, hdqs⟩ := hdqs
  rcases hcut with htrain | hnew | ⟨-, hsame⟩
  · exact absurd (haccepted.symm.trans htrain) Bool.false_ne_true
  · exact hdqs ((hnew.dqs0 huse j hj).symm.trans (hboot.dqs0 huse j hj))
  · exact hinit ((hboot.initDatas i hi).symm.trans
      ((hsame.initDatas i hi).trans (hbefore.initDatas i hi)))

end DdrBoard

/-- Tables of one byte all over. -/
def evenTables (v : UInt8) : Tables := ⟨fun _ => v, fun _ => v, fun _ => v⟩

/-- Only the first controller has memory. -/
def firstOnly : DdrBoard where
  toMemctl := saveArea
  blBits := 9
  blBits_le := secondOnly.blBits_le
  pt := secondOnly.pt
  found := rfl
  aligned := secondOnly.aligned
  below := secondOnly.below
  tables_fit := by decide

/-- The first save on a blank disk. -/
theorem saveAtomic_of_safeSave_blank :
    firstOnly.SaveAtomic 0 (fun _ => 0) (evenTables 1) fun _ => 0 :=
  firstOnly.saveAtomic_of_safeSave 0 (fun _ => 0) (evenTables 1) (fun _ => 0)
    ⟨by decide, .inl rfl, .inl (DdrBoard.boot_trains_of_magic (by decide) (by decide))⟩

/-- The second save, with other tables. -/
theorem resave_mixes_tables : ¬ firstOnly.SaveAtomic 0 (fun _ => 0) (evenTables 1)
    (firstOnly.saved (savedHeader firstOnly.toMemctl firstOnly.bl 0 fun _ => 0) (evenTables 0)
      fun _ => 0) :=
  firstOnly.not_saveAtomic_of_resave 0 _ _ _ (by decide) rfl ⟨0, by decide, by decide⟩
    ⟨0, by decide, by decide⟩

end UBoot.Board
