import UBoot.Flash.PartitionReads
import UBoot.Library.PackedField

/-!
# The memory configuration kept on the flash

`ddr_restore_config_data` reads the init table and the training tables of both controllers from
the save area straight over the live ones, and returns at the first read that fails. What the
reads before it brought, and what the failing one left behind, stays in the tables that
`memctl_init` then trains from.
-/
namespace UBoot.Board
open ByteStore UBoot.Flash

namespace DdrOnFlash

def magic : ByteStore.Field := ⟨0, 4⟩
def version : ByteStore.Field := ⟨4, 4⟩
def checksum : ByteStore.Field := ⟨8, 4⟩
def total : ByteStore.Field := ⟨12, 4⟩
def initData : ByteStore.Field := ⟨16, 4⟩
def initDataLen : ByteStore.Field := ⟨20, 4⟩
def ddr0TrnData : ByteStore.Field := ⟨24, 4⟩
def ddr0TrnDataLen : ByteStore.Field := ⟨28, 4⟩
def ddr1TrnData : ByteStore.Field := ⟨32, 4⟩
def ddr1TrnDataLen : ByteStore.Field := ⟨36, 4⟩

end DdrOnFlash

def sizeofDdrOnFlash : UInt32 := 40
def ddronflashMagic : ℕ := 0xc8c46b5c
def ddronflashVersion : ℕ := 15

/-- The tables at `memctl_init_datas`, `memctl0_dqs` and `memctl1_dqs`. -/
structure Tables where
  initDatas : Mem
  dqs0 : Mem
  dqs1 : Mem

/-- What the functions take from the board: the name of the save area, the lengths of the
tables, and which controllers have memory. `tmp` is what stands in the bounce buffers. -/
structure Memctl where
  partitions : List Partition
  partitionDdr : Option String
  initDatasLength : UInt32
  dqsLength : UInt32
  dramSize : Bool
  memctl1Size : Bool
  tmp : Mem

section Functions
variable {δ : Type} (dev : ReadDev δ) (board : Memctl)

def Memctl.flashBlockRead (dst : Mem) (offstart size : UInt32) (s : ReadSession δ) :
    ReadResult δ :=
  Flash.flashBlockRead dev board.partitions board.partitionDdr false dst board.tmp offstart size s

/-- `ddr_need_training`; `ddrOnFlash` is the header in the global data, which it reads anew. -/
def ddrNeedTraining (checksum : ℕ) (ddrOnFlash : Mem) (s : ReadSession δ) :
    Bool × Mem × ReadSession δ :=
  let r := board.flashBlockRead dev ddrOnFlash 0 sizeofDdrOnFlash s
  let get (f : ByteStore.Field) : ℕ := f.get r.dst
  let blksz := dev.readBlLen
  let need := r.ret ≠ 0 ∨ get DdrOnFlash.magic ≠ ddronflashMagic ∨
    get DdrOnFlash.version ≠ ddronflashVersion ∨ get DdrOnFlash.checksum ≠ checksum ∨
    get DdrOnFlash.initData % blksz ≠ 0 ∨ get DdrOnFlash.ddr0TrnData % blksz ≠ 0 ∨
    get DdrOnFlash.ddr1TrnData % blksz ≠ 0 ∨
    get DdrOnFlash.total ≠ u32 (get DdrOnFlash.initDataLen + get DdrOnFlash.ddr0TrnDataLen +
      get DdrOnFlash.ddr1TrnDataLen + sizeofDdrOnFlash.toNat) ∨
    board.initDatasLength.toNat ≠ get DdrOnFlash.initDataLen ∨
    (board.dramSize = true ∧ get DdrOnFlash.ddr0TrnDataLen ≠ board.dqsLength.toNat) ∨
    (board.memctl1Size = true ∧ get DdrOnFlash.ddr1TrnDataLen ≠ board.dqsLength.toNat)
  (decide need, r.dst, r.session)

/-- `ddr_restore_config_data`. -/
def ddrRestoreConfigData (ddrOnFlash : Mem) (t : Tables) (s : ReadSession δ) :
    ℤ × Tables × ReadSession δ :=
  let initData := UInt32.ofNat (DdrOnFlash.initData.get ddrOnFlash)
  let ddr0TrnData := UInt32.ofNat (DdrOnFlash.ddr0TrnData.get ddrOnFlash)
  let ddr1TrnData := UInt32.ofNat (DdrOnFlash.ddr1TrnData.get ddrOnFlash)
  let r := board.flashBlockRead dev t.initDatas initData board.initDatasLength s
  let t := { t with initDatas := r.dst }
  if r.ret ≠ 0 then (r.ret, t, r.session)
  else
    let r0 : ReadResult δ :=
      if ddr0TrnData ≠ 0 then
        board.flashBlockRead dev t.dqs0 ddr0TrnData board.dqsLength r.session
      else ⟨0, t.dqs0, r.session⟩
    let t := { t with dqs0 := r0.dst }
    if r0.ret ≠ 0 then (r0.ret, t, r0.session)
    else
      let r1 : ReadResult δ :=
        if ddr1TrnData ≠ 0 then
          board.flashBlockRead dev t.dqs1 ddr1TrnData board.dqsLength r0.session
        else ⟨0, t.dqs1, r0.session⟩
      (r1.ret, { t with dqs1 := r1.dst }, r1.session)

/-- The part of `memctl_init` that decides about the training: whether it is needed, and the
tables it starts from. -/
def memctlLoad (checksum : ℕ) (ddrOnFlash : Mem) (t : Tables) (s : ReadSession δ) :
    Bool × Tables :=
  let need := ddrNeedTraining dev board checksum ddrOnFlash s
  if need.1 then (true, t)
  else
    let r := ddrRestoreConfigData dev board need.2.1 t need.2.2
    (decide (r.1 ≠ 0), r.2.1)

end Functions

/-- A table to be loaded over what stands in it. -/
structure Load where
  table : Mem
  offstart : UInt32
  size : UInt32

/-- The loads of a restore: a training table without a place on the flash is left out. -/
def restoreLoads (board : Memctl) (ddrOnFlash : Mem) (t : Tables) : List Load :=
  let initData := UInt32.ofNat (DdrOnFlash.initData.get ddrOnFlash)
  let ddr0TrnData := UInt32.ofNat (DdrOnFlash.ddr0TrnData.get ddrOnFlash)
  let ddr1TrnData := UInt32.ofNat (DdrOnFlash.ddr1TrnData.get ddrOnFlash)
  [⟨t.initDatas, initData, board.initDatasLength⟩] ++
    (if ddr0TrnData ≠ 0 then [⟨t.dqs0, ddr0TrnData, board.dqsLength⟩] else []) ++
    (if ddr1TrnData ≠ 0 then [⟨t.dqs1, ddr1TrnData, board.dqsLength⟩] else [])

namespace Load
variable {δ : Type} (dev : ReadDev δ) (board : Memctl) (l : Load)

/-- The byte of the disk at which the load starts, if the checks on the partition, the range and
the offset let it. -/
def place : Option ℕ :=
  (partitionFindByName board.partitions board.partitionDdr).bind fun pt =>
    if u32 (l.offstart.toNat + l.size.toNat) > u32 pt.bytes ∨
      l.offstart.toNat % dev.readBlLen ≠ 0 then none
    else some (u32 pt.firstByte + l.offstart.toNat)

/-- The bytes of the whole blocks, and those behind them. -/
def blocks : ℕ := l.size.toNat / dev.readBlLen

def rest : ℕ := l.size.toNat % dev.readBlLen

/-- The device's answer to the read of the whole blocks: what a read that fails leaves behind. -/
def blocksAnswer (p : ℕ) (d : δ) : Option Mem × δ :=
  if l.blocks dev = 0 then (none, d)
  else dev.answer (u32 (p / dev.readBlLen)) (l.blocks dev) d

/-- Its answer to the read of the block with the rest, which is made if the first one is good. -/
def restAnswer (p : ℕ) (d : δ) : Option Mem × δ :=
  let r := l.blocksAnswer dev p d
  if l.rest dev = 0 ∨ r.1.isSome then (none, r.2)
  else dev.answer (u32 ((p + l.size.toNat) / dev.readBlLen)) 1 r.2

/-- The load is refused, or the device fails to read its whole blocks. -/
def Fails (d : δ) : Prop :=
  ∀ p, l.place dev board = some p → (l.blocksAnswer dev p d).1.isSome = true

/-- The bytes of a block of the disk on, or what a failing read leaves instead of them. -/
def answered (answer : Option Mem) (blk : ℕ) : Mem :=
  answer.getD (advance dev.disk (u32 blk * dev.readBlLen))

/-- The table behind the load, as the disk and the answers of the device have it. -/
def arrived (d : δ) : Mem :=
  (l.place dev board).elim l.table fun p =>
    let whole := l.blocks dev * dev.readBlLen
    let r := l.blocksAnswer dev p d
    overlay
      (overlay l.table 0 whole (answered dev r.1 (p / dev.readBlLen)))
      whole (if r.1.isSome then 0 else l.rest dev)
      (answered dev (l.restAnswer dev p d).1 ((p + l.size.toNat) / dev.readBlLen))

/-- What arrives is what stands in the table. -/
def Same (d : δ) : Prop := ∀ i < l.size.toNat, l.arrived dev board d i = l.table i

/-- The device behind the load. -/
def next (d : δ) : δ := (l.place dev board).elim d fun p => (l.restAnswer dev p d).2

/-- The load as `ddr_restore_config_data` makes it. -/
def run (s : ReadSession δ) : ReadResult δ :=
  board.flashBlockRead dev l.table l.offstart l.size s

end Load

section Loads
variable {δ : Type} (dev : ReadDev δ) (board : Memctl)

/-- No load fails. -/
def NoneFails : List Load → δ → Prop
  | [], _ => True
  | l :: ls, d => ¬ l.Fails dev board d ∧ NoneFails ls (l.next dev board d)

/-- A load fails, and up to it each brings what stands in its table. -/
def SameUntilFailure : List Load → δ → Prop
  | [], _ => False
  | l :: ls, d => l.Same dev board d ∧
      (l.Fails dev board d ∨ SameUntilFailure ls (l.next dev board d))

/-- No load of a restore fails, or those made bring nothing new. -/
def Keeps (ddrOnFlash : Mem) (t : Tables) (d : δ) : Prop :=
  NoneFails dev board (restoreLoads board ddrOnFlash t) d ∨
    SameUntilFailure dev board (restoreLoads board ddrOnFlash t) d

/-- A header with which the tables are not loaded: a wrong word, a place that is not on a block,
or lengths that are not those of the board. -/
def HeaderRejected (checksum : ℕ) (h : Mem) : Prop :=
  let get (f : ByteStore.Field) : ℕ := f.get h
  get DdrOnFlash.magic ≠ ddronflashMagic ∨
    get DdrOnFlash.version ≠ ddronflashVersion ∨ get DdrOnFlash.checksum ≠ checksum ∨
    get DdrOnFlash.initData % dev.readBlLen ≠ 0 ∨
    get DdrOnFlash.ddr0TrnData % dev.readBlLen ≠ 0 ∨
    get DdrOnFlash.ddr1TrnData % dev.readBlLen ≠ 0 ∨
    get DdrOnFlash.total ≠ u32 (get DdrOnFlash.initDataLen + get DdrOnFlash.ddr0TrnDataLen +
      get DdrOnFlash.ddr1TrnDataLen + sizeofDdrOnFlash.toNat) ∨
    board.initDatasLength.toNat ≠ get DdrOnFlash.initDataLen ∨
    (board.dramSize = true ∧ get DdrOnFlash.ddr0TrnDataLen ≠ board.dqsLength.toNat) ∨
    (board.memctl1Size = true ∧ get DdrOnFlash.ddr1TrnDataLen ≠ board.dqsLength.toNat)

/-- The load of the header over the one in the global data. -/
def headerLoad (ddrOnFlash : Mem) : Load := ⟨ddrOnFlash, 0, sizeofDdrOnFlash⟩

end Loads

/-- A restore that fails leaves the tables as they were. -/
def RestoreAtomic (t : Tables) {δ : Type} (r : ℤ × Tables × ReadSession δ) : Prop :=
  r.1 ≠ 0 → r.2.1 = t

/-- A training starts from the tables as they were. -/
def TrainsFromDefaults (t : Tables) (r : Bool × Tables) : Prop := r.1 = true → r.2 = t

section Restore
variable {δ : Type} {dev : ReadDev δ} {board : Memctl} {ddrOnFlash : Mem} {t : Tables}
  {s : ReadSession δ}

/-- A read of some blocks, on the device's answer. -/
theorem blockRead_answer (blk : ℕ) {cnt : ℕ} (hcnt : cnt ≠ 0) (hlt : cnt < 2 ^ 32) (dst : Mem)
    (s : ReadSession δ) :
    let a := dev.answer (u32 blk) cnt s.dev
    let r := s.blockRead dev blk cnt dst
    (0 < r.1 ↔ a.1.isSome = false) ∧
      r.2.1 = overlay dst 0 (cnt * dev.readBlLen) (Load.answered dev a.1 blk) ∧
      r.2.2.dev = a.2 := by
  simp only [ReadSession.blockRead, u32_of_lt hlt, if_neg hcnt]
  cases (dev.answer (u32 blk) cnt s.dev).1 with
  | none => exact ⟨iff_of_true (Nat.pos_of_ne_zero hcnt) rfl, rfl, rfl⟩
  | some junk => exact ⟨iff_of_false (lt_irrefl 0) (by simp), rfl, rfl⟩

theorem Load.refused_spec {l : Load} (hplace : l.place dev board = none) {r : ReadResult δ}
    (hret : r.ret ≠ 0) (hdst : r.dst = l.table) (hdev : r.session.dev = s.dev) :
    (r.ret ≠ 0 ↔ l.Fails dev board s.dev) ∧ r.dst = l.arrived dev board s.dev ∧
      r.session.dev = l.next dev board s.dev := by
  unfold Load.Fails Load.arrived Load.next
  rw [hplace]
  exact ⟨iff_of_true hret (fun _ h => by cases h), hdst, hdev⟩

/-- The read of the rest of the last block into the bounce buffer, behind whole blocks that were
read. -/
theorem Load.rest_spec (l : Load) (p : ℕ) (table tmp : Mem)
    (s : ReadSession δ) :
    let blk := (p + l.size.toNat) / dev.readBlLen
    let r := s.blockRead dev blk 1 tmp
    let whole := l.blocks dev * dev.readBlLen
    overlay table (l.size.toNat - l.rest dev) (l.rest dev) r.2.1 =
        overlay table whole (l.rest dev)
          (Load.answered dev (dev.answer (u32 blk) 1 s.dev).1 blk) ∧
      r.2.2.dev = (dev.answer (u32 blk) 1 s.dev).2 := by
  obtain ⟨-, hbytes, hdev⟩ := @blockRead_answer δ dev ((p + l.size.toNat) / dev.readBlLen) 1
    (by decide) (by decide) tmp s
  have hsplit := Nat.div_add_mod l.size.toNat dev.readBlLen
  have hlt := Nat.mod_lt l.size.toNat dev.readBlLen_pos
  rw [Nat.mul_comm] at hsplit
  have hwhole : l.size.toNat - l.rest dev = l.blocks dev * dev.readBlLen := by
    unfold Load.rest Load.blocks
    omega
  refine ⟨?_, hdev⟩
  rw [hbytes, hwhole]
  refine overlay_congr _ fun i hi => ?_
  unfold Load.rest at hi
  rw [overlay_of_mem _ _ (Nat.zero_le i) (by omega), Nat.sub_zero]

/-- The read of the whole blocks. -/
theorem Load.whole_spec (l : Load) (p : ℕ) (s : ReadSession δ) {r : ReadResult δ}
    (hr : (if l.blocks dev ≠ 0 then
      let r := s.blockRead dev (p / dev.readBlLen) (l.blocks dev) l.table
      ⟨if r.1 > 0 then 0 else eIo, r.2.1, r.2.2⟩
    else ⟨0, l.table, s⟩) = r) :
    (r.ret = 0 ↔ (l.blocksAnswer dev p s.dev).1.isSome = false) ∧
      r.dst = overlay l.table 0 (l.blocks dev * dev.readBlLen)
        (Load.answered dev (l.blocksAnswer dev p s.dev).1 (p / dev.readBlLen)) ∧
      r.session.dev = (l.blocksAnswer dev p s.dev).2 := by
  unfold Load.blocksAnswer
  by_cases hcnt : l.blocks dev = 0
  · rw [← hr, if_neg (not_not.2 hcnt), if_pos hcnt, hcnt, Nat.zero_mul, overlay_zero]
    exact ⟨iff_of_true rfl rfl, rfl, rfl⟩
  · obtain ⟨hret, hbytes, hdev⟩ := @blockRead_answer δ dev (p / dev.readBlLen) (l.blocks dev)
      hcnt ((Nat.div_le_self _ _).trans_lt l.size.toNat_lt) l.table s
    rw [← hr, if_pos hcnt, if_neg hcnt]
    refine ⟨?_, hbytes, hdev⟩
    rw [← hret]
    dsimp only
    split
    · next h => exact iff_of_true rfl h
    · next h => exact iff_of_false (show eIo ≠ 0 by decide) h

/-- What a load does, on the disk and the answers of the device. -/
theorem Load.run_spec (l : Load) (s : ReadSession δ) :
    ((l.run dev board s).ret ≠ 0 ↔ l.Fails dev board s.dev) ∧
      (l.run dev board s).dst = l.arrived dev board s.dev ∧
      (l.run dev board s).session.dev = l.next dev board s.dev := by
  cases hfind : partitionFindByName board.partitions board.partitionDdr with
  | none =>
    have hplace : l.place dev board = none := by rw [Load.place, hfind]; rfl
    simp only [Load.run, Memctl.flashBlockRead, Flash.flashBlockRead, hfind]
    exact Load.refused_spec (r := ⟨eInval, l.table, s.putError "40001"⟩) hplace
      (show eInval ≠ 0 by decide) rfl rfl
  | some pt =>
    have hplace : l.place dev board =
        if u32 (l.offstart.toNat + l.size.toNat) > u32 pt.bytes ∨
          l.offstart.toNat % dev.readBlLen ≠ 0 then none
        else some (u32 pt.firstByte + l.offstart.toNat) := by rw [Load.place, hfind]; rfl
    simp only [Load.run, Memctl.flashBlockRead, Flash.flashBlockRead, hfind]
    rw [show u32 (pt.sectorSize * pt.length) = u32 pt.bytes from rfl,
      show u32 (pt.sectorSize * pt.start) = u32 pt.firstByte from rfl]
    by_cases hrange : u32 (l.offstart.toNat + l.size.toNat) > u32 pt.bytes
    · rw [if_pos hrange]
      exact Load.refused_spec (hplace.trans (if_pos (.inl hrange)))
        (show eInval ≠ 0 by decide) rfl rfl
    by_cases hoff : l.offstart.toNat % dev.readBlLen ≠ 0
    · rw [if_neg hrange, if_pos (.inr hoff)]
      exact Load.refused_spec (hplace.trans (if_pos (.inr hoff)))
        (show eInval ≠ 0 by decide) rfl rfl
    rw [if_neg hrange, if_neg (by simp [hoff])]
    rw [if_neg (by tauto)] at hplace
    unfold Load.Fails Load.arrived Load.next
    simp only [hplace, Option.some.injEq, Option.elim_some, forall_eq']
    generalize u32 pt.firstByte + l.offstart.toNat = p
    -- the whole blocks
    rw [show l.size.toNat / dev.readBlLen = l.blocks dev from rfl,
      show l.size.toNat % dev.readBlLen = l.rest dev from rfl]
    generalize hr : (if l.blocks dev ≠ 0 then _ else _ : ReadResult δ) = r
    obtain ⟨hret, hdst, hdev⟩ := l.whole_spec p s hr
    unfold Load.restAnswer
    dsimp only
    cases hans : (l.blocksAnswer dev p s.dev).1.isSome with
    | true =>
      have hfail : r.ret ≠ 0 := fun h => by simp [hans] at hret; exact hret h
      rw [if_neg (fun h => hfail h.2)]
      simp only [or_true, if_true, overlay_zero]
      exact ⟨iff_of_true hfail trivial, hdst, hdev⟩
    | false =>
      have hok : r.ret = 0 := hret.2 hans
      simp only [Bool.false_eq_true, or_false, if_false]
      by_cases hrest : l.rest dev = 0
      · rw [if_neg (fun h => h.1 hrest), if_pos hrest, hrest, overlay_zero]
        exact ⟨iff_of_false (not_not.2 hok) not_false, hdst, hdev⟩
      · obtain ⟨hbytes, hdev'⟩ := l.rest_spec p r.dst board.tmp r.session
        rw [if_pos ⟨hrest, hok⟩, if_neg hrest, ← hdev, ← hdst]
        refine ⟨iff_of_false (not_not.2 ?_) not_false, hbytes, hdev'⟩
        dsimp only
        rw [hok, ite_self]

/-- Beyond its size a load leaves the table alone, so what arrives is the table exactly if it
is over that size. -/
theorem Load.arrived_eq_iff (l : Load) (d : δ) :
    l.arrived dev board d = l.table ↔ l.Same dev board d := by
  refine ⟨fun h i _ => congrFun h i, fun h => funext fun i => ?_⟩
  by_cases hi : i < l.size.toNat
  · exact h i hi
  · have hsplit := Nat.div_add_mod l.size.toNat dev.readBlLen
    rw [Nat.mul_comm] at hsplit
    unfold Load.arrived
    cases l.place dev board with
    | none => rfl
    | some p =>
      have hrest : (if (l.blocksAnswer dev p d).1.isSome then 0 else l.rest dev) ≤ l.rest dev := by
        split <;> omega
      simp only [Option.elim_some]
      unfold Load.rest Load.blocks at *
      rw [overlay_of_not_mem _ _ (by omega), overlay_of_not_mem _ _ (by omega)]

/-- A restore that fails leaves the tables as they were if and only if no load fails, or none of
the loads made brings anything new. -/
theorem restoreAtomic_iff (dev : ReadDev δ) (board : Memctl) (ddrOnFlash : Mem) (t : Tables)
    (s : ReadSession δ) :
    RestoreAtomic t (ddrRestoreConfigData dev board ddrOnFlash t s) ↔
      Keeps dev board ddrOnFlash t s.dev := by
  obtain ⟨initDatas, dqs0, dqs1⟩ := t
  unfold RestoreAtomic ddrRestoreConfigData Keeps restoreLoads
  dsimp only
  generalize UInt32.ofNat (DdrOnFlash.initData.get ddrOnFlash) = initData
  generalize UInt32.ofNat (DdrOnFlash.ddr0TrnData.get ddrOnFlash) = ddr0TrnData
  generalize UInt32.ofNat (DdrOnFlash.ddr1TrnData.get ddrOnFlash) = ddr1TrnData
  by_cases h0 : ddr0TrnData = 0 <;> by_cases h1 : ddr1TrnData = 0
  all_goals
    simp only [h0, h1, ne_eq, not_true_eq_false, not_false_eq_true, if_true, if_false,
      List.append_nil, List.nil_append, List.cons_append, NoneFails, SameUntilFailure,
      ← Load.arrived_eq_iff, ← (Load.run_spec _ _).1, ← (Load.run_spec _ _).2.1,
      ← (Load.run_spec _ _).2.2, Load.run]
  · -- the init table only
    split <;> simp_all
  · split <;> simp_all
    tauto
  · split <;> simp_all
    split <;> simp_all
  · split <;> simp_all
    split <;> simp_all
    tauto

/-- Training is needed where the header cannot be loaded or is rejected. -/
theorem ddrNeedTraining_spec (checksum : ℕ) (s : ReadSession δ) :
    let l := headerLoad ddrOnFlash
    let need := ddrNeedTraining dev board checksum ddrOnFlash s
    (need.1 = true ↔ l.Fails dev board s.dev ∨
        HeaderRejected dev board checksum (l.arrived dev board s.dev)) ∧
      need.2.1 = l.arrived dev board s.dev ∧ need.2.2.dev = l.next dev board s.dev := by
  obtain ⟨hret, hdst, hdev⟩ :=
    @Load.run_spec δ dev board (headerLoad ddrOnFlash) s
  refine ⟨?_, hdst, hdev⟩
  rw [← hret, ← hdst]
  exact decide_eq_true_iff

end Restore

/-- A restore that fails leaves the tables as they were, and a training starts from them, if and
only if no load fails or none of the loads made brings other bytes than those in its table; the
training also where the header keeps the tables from being loaded. -/
theorem trainsFromDefaults_iff {δ : Type} (dev : ReadDev δ) (board : Memctl) (checksum : ℕ)
    (ddrOnFlash : Mem) (t : Tables) (s : ReadSession δ) :
    (RestoreAtomic t (ddrRestoreConfigData dev board ddrOnFlash t s) ↔
        Keeps dev board ddrOnFlash t s.dev) ∧
      (TrainsFromDefaults t (memctlLoad dev board checksum ddrOnFlash t s) ↔
        let l := headerLoad ddrOnFlash
        (l.Fails dev board s.dev ∨
            HeaderRejected dev board checksum (l.arrived dev board s.dev)) ∨
          Keeps dev board (l.arrived dev board s.dev) t (l.next dev board s.dev)) := by
  refine ⟨restoreAtomic_iff dev board ddrOnFlash t s, ?_⟩
  obtain ⟨hneed, hheader, hdev⟩ := @ddrNeedTraining_spec δ dev board ddrOnFlash checksum s
  dsimp only
  rw [← hneed, ← hheader, ← hdev, ← restoreAtomic_iff, TrainsFromDefaults, RestoreAtomic,
    memctlLoad]
  cases (ddrNeedTraining dev board checksum ddrOnFlash s).1 with
  | true => simp
  | false => simp

/-- A save area with an init table of zeros, and a header that places it and the table of the
first controller. -/
def saveArea : Memctl where
  partitions := [.ofWords 512 2048 16 "ddr"]
  partitionDdr := some "ddr"
  initDatasLength := 512
  dqsLength := 512
  dramSize := true
  memctl1Size := false
  tmp := fun _ => 0

def savedPlaces : Mem :=
  DdrOnFlash.ddr0TrnData.put (DdrOnFlash.initData.put (fun _ => 0) 512) 1024

/-- The second read fails, and the init table is no longer the compiled-in one. -/
theorem second_read_fails_leaves_mixture : ¬ ∀ (δ : Type) (dev : ReadDev δ) (board : Memctl)
    (ddrOnFlash : Mem) (t : Tables) (s : ReadSession δ),
    RestoreAtomic t (ddrRestoreConfigData dev board ddrOnFlash t s) := by
  intro h
  have hatomic := h ℕ (tiring 512 (by decide) (by decide)) saveArea savedPlaces
    ⟨fun _ => 1, fun _ => 1, fun _ => 1⟩ (ReadSession.initial 1) (by decide +kernel)
  have hbyte := congrFun (congrArg Tables.initDatas hatomic) 0
  exact absurd hbyte (by decide +kernel)

end UBoot.Board
