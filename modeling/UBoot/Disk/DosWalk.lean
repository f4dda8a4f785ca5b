import UBoot.Disk.Dos
import UBoot.Library.Links

/-!
# The walks over the extended boot records

The records that the listing and the lookup go on to are links between places on the disk. A
record that leads back to itself keeps the recursion going for ever; where none does, the number
of blocks of the disk bounds the depth, since a record is read at one of its blocks and links
count from another one.
-/
namespace UBoot.Disk
open ByteStore Links Relation

section Records
variable (d : DosDev)

/-- A record that the listing accepts. -/
def listedRecord (l : DosLink) : Option Mem :=
  (d.readBlock l.extPartSector).filter fun buffer => testBlockType buffer = dosMbr

/-- A record that the lookup accepts. -/
def foundRecord (l : DosLink) : Option Mem :=
  (d.readBlock l.extPartSector).filter hasMagic

/-- The records that the listing goes on to. -/
def printNext (l : DosLink) : List DosLink :=
  (listedRecord d l).elim [] fun buffer => extendedLinks buffer l

/-- The record that the lookup goes on to, if the partition is not in this one. -/
def getNext (l : DosLink) : List DosLink :=
  (foundRecord d l).elim [] fun buffer => (extendedLinks buffer l).head?.toList

end Records

section Lines

/-- A partition that is listed or found. -/
structure DosEntry where
  partNum : ℕ
  start : ℕ
  size : ℕ
  deriving DecidableEq

/-- The partition of a line, unless it is an extended one. -/
def DosLine.entry : DosLine → Option DosEntry
  | .part partNum start size _ sysInd _ =>
    if isExtended sysInd then none else some ⟨partNum, start, size⟩
  | .cannotRead _ _ => none
  | .badSignature _ _ => none

end Lines

section Print
variable {d : DosDev} {l : DosLink} {buffer : Mem} {fuel partNum disksig : ℕ}

theorem printPartitionExtended_refused (h : listedRecord d l = none) :
    ∃ line : DosLine, line.entry = none ∧
      printPartitionExtended d (fuel + 1) l partNum disksig = some (1, [line]) := by
  unfold listedRecord at h
  unfold printPartitionExtended
  cases hread : d.readBlock l.extPartSector with
  | none => exact ⟨_, rfl, rfl⟩
  | some buffer =>
    have hmbr : testBlockType buffer ≠ dosMbr := by simpa [hread, Option.filter] using h
    exact ⟨_, rfl, if_pos hmbr⟩

theorem printPartitionExtended_record (h : listedRecord d l = some buffer) :
    printPartitionExtended d (fuel + 1) l partNum disksig =
      (let disksig := if l.extPartSector = 0 then dosPartDisksig.get buffer else disksig
       let r := printSlots buffer l.extPartSector disksig (List.range 4) partNum
       (collect ((extendedLinks buffer l).map fun l' =>
          printPartitionExtended d fuel l' r.2 disksig)).map fun below =>
            (1 + below.1, r.1 ++ below.2)) := by
  obtain ⟨hread, hmbr⟩ := Option.filter_eq_some_iff.1 h
  have hmbr : testBlockType buffer = dosMbr := by simpa using hmbr
  rw [printPartitionExtended, hread]
  exact if_neg (not_not.2 hmbr)

theorem collect_isSome {rs : List (Option (ℕ × List DosLine))} :
    (collect rs).isSome ↔ ∀ r ∈ rs, r.isSome := by
  induction rs with
  | nil => simp [collect]
  | cons r rs ih =>
    cases r with
    | none => simp [collect]
    | some r => simp [collect, ih]

/-- The listing ends with the walk along its links. -/
theorem printPartitionExtended_isSome :
    (printPartitionExtended d fuel l partNum disksig).isSome ↔
      Finished (printNext d) fuel l := by
  induction fuel generalizing l partNum disksig with
  | zero => simp [printPartitionExtended, Finished]
  | succ fuel ih =>
    rw [Finished, printNext]
    cases h : listedRecord d l with
    | none =>
      obtain ⟨line, -, hprint⟩ := @printPartitionExtended_refused d l fuel partNum disksig h
      simp [hprint]
    | some buffer =>
      rw [printPartitionExtended_record h]
      simp [collect_isSome, ih]

theorem collect_calls {rs : List (Option (ℕ × List DosLine))} (bound : ℕ) {calls : ℕ}
    {lines : List DosLine} (hbound : ∀ r ∈ rs, ∀ c ls, r = some (c, ls) → c ≤ bound)
    (h : collect rs = some (calls, lines)) : calls ≤ rs.length * bound := by
  induction rs generalizing calls lines with
  | nil =>
    simp only [collect, Option.some.injEq, Prod.mk.injEq] at h
    omega
  | cons r rs ih =>
    cases r with
    | none => simp [collect] at h
    | some r =>
      obtain ⟨⟨c, ls⟩, hrest, heq⟩ := Option.map_eq_some_iff.1 h
      simp only [Prod.mk.injEq] at heq
      have hfirst := hbound _ List.mem_cons_self r.1 r.2 rfl
      have hlater := ih (fun r hr => hbound r (List.mem_cons_of_mem _ hr)) hrest
      rw [List.length_cons, Nat.add_mul]
      omega

theorem length_extendedLinks_le (buffer : Mem) (l : DosLink) :
    (extendedLinks buffer l).length ≤ 4 := by
  rw [extendedLinks, List.length_map]
  exact (List.length_filter_le _ _).trans (by simp)

theorem printPartitionExtended_calls {calls : ℕ} {lines : List DosLine}
    (h : printPartitionExtended d fuel l partNum disksig = some (calls, lines)) :
    calls + 1 ≤ 4 ^ fuel := by
  induction fuel generalizing l partNum disksig calls lines with
  | zero => simp [printPartitionExtended] at h
  | succ fuel ih =>
    have hpos : 1 ≤ 4 ^ fuel := Nat.one_le_pow _ _ (by decide)
    rw [Nat.pow_succ]
    cases hrecord : listedRecord d l with
    | none =>
      obtain ⟨line, -, hprint⟩ := @printPartitionExtended_refused d l fuel partNum disksig hrecord
      rw [hprint] at h
      simp only [Option.some.injEq, Prod.mk.injEq] at h
      omega
    | some buffer =>
      rw [printPartitionExtended_record hrecord] at h
      obtain ⟨⟨c, ls⟩, hbelow, heq⟩ := Option.map_eq_some_iff.1 h
      simp only [Prod.mk.injEq] at heq
      have hcalls := collect_calls (4 ^ fuel - 1) (by
        intro r hr c ls hcls
        obtain ⟨l', -, rfl⟩ := List.mem_map.1 hr
        have := ih hcls
        omega) hbelow
      have hlinks := length_extendedLinks_le buffer l
      have hmul := Nat.mul_le_mul_right (4 ^ fuel - 1) hlinks
      rw [List.length_map] at hcalls
      omega

end Print

section Get
variable {d : DosDev} {l : DosLink} {buffer : Mem} {whichPart : ℤ} {fuel partNum disksig : ℕ}

theorem getPartitionInfoExtended_refused (h : foundRecord d l = none) :
    getPartitionInfoExtended d whichPart (fuel + 1) l partNum disksig = some (1, none) := by
  unfold foundRecord at h
  unfold getPartitionInfoExtended
  cases hread : d.readBlock l.extPartSector with
  | none => rfl
  | some buffer =>
    have hmagic : hasMagic buffer = false := by simpa [hread, Option.filter] using h
    exact if_pos hmagic

/-- The lookup in a record that does not hold the partition. -/
theorem getPartitionInfoExtended_below (h : foundRecord d l = some buffer)
    (hslot : (findSlot buffer l.extPartSector whichPart (List.range 4) partNum).1 = none) :
    getPartitionInfoExtended d whichPart (fuel + 1) l partNum disksig =
      (let disksig := if l.extPartSector = 0 then dosPartDisksig.get buffer else disksig
       let partNum := (findSlot buffer l.extPartSector whichPart (List.range 4) partNum).2
       (extendedLinks buffer l).head?.elim (some (1, none)) fun l' =>
         (getPartitionInfoExtended d whichPart fuel l' partNum disksig).map fun below =>
           (1 + below.1, below.2)) := by
  obtain ⟨hread, hmagic⟩ := Option.filter_eq_some_iff.1 h
  rw [getPartitionInfoExtended, hread]
  simp only [hmagic, Bool.true_eq_false, if_false, hslot]
  cases (extendedLinks buffer l).head? <;> simp

/-- The lookup in the record that holds the partition. -/
theorem getPartitionInfoExtended_here {pt : Mem} (h : foundRecord d l = some buffer)
    (hslot : (findSlot buffer l.extPartSector whichPart (List.range 4) partNum).1 = some pt) :
    ∃ info : PartitionInfo, info.start = u32 (l.extPartSector + DosPartition.start4.get pt) ∧
      info.size = DosPartition.size4.get pt ∧
      getPartitionInfoExtended d whichPart (fuel + 1) l partNum disksig = some (1, some info) := by
  obtain ⟨hread, hmagic⟩ := Option.filter_eq_some_iff.1 h
  rw [getPartitionInfoExtended, hread]
  simp only [hmagic, Bool.true_eq_false, if_false, hslot]
  exact ⟨_, rfl, rfl, rfl⟩

/-- The lookup ends at the latest with the walk along its links. -/
theorem getPartitionInfoExtended_isSome (h : Finished (getNext d) fuel l) :
    (getPartitionInfoExtended d whichPart fuel l partNum disksig).isSome := by
  induction fuel generalizing l partNum disksig with
  | zero => exact absurd h id
  | succ fuel ih =>
    cases hrecord : foundRecord d l with
    | none => rw [getPartitionInfoExtended_refused hrecord, Option.isSome_some]
    | some buffer =>
      cases hslot : (findSlot buffer l.extPartSector whichPart (List.range 4) partNum).1 with
      | some pt =>
        obtain ⟨info, -, -, hget⟩ := @getPartitionInfoExtended_here d l buffer whichPart fuel
          partNum disksig pt hrecord hslot
        rw [hget, Option.isSome_some]
      | none =>
        rw [getPartitionInfoExtended_below hrecord hslot]
        cases hlink : (extendedLinks buffer l).head? with
        | none => rfl
        | some l' =>
          have hnext : l' ∈ getNext d l := by simp [getNext, hrecord, hlink]
          simpa using ih (h l' hnext)

theorem findSlot_ge {slots : List ℕ} {extPartSector : ℕ} :
    partNum ≤ (findSlot buffer extPartSector whichPart slots partNum).2 := by
  induction slots generalizing partNum with
  | nil => exact le_rfl
  | cons i slots ih =>
    rw [findSlot]
    split
    · exact le_rfl
    · refine le_trans ?_ ih
      unfold nextPartNum
      split <;> omega

/-- There is no partition 0. -/
theorem findSlot_zero {slots : List ℕ} {extPartSector : ℕ} (h : 1 ≤ partNum) :
    (findSlot buffer extPartSector 0 slots partNum).1 = none := by
  induction slots generalizing partNum with
  | nil => rfl
  | cons i slots ih =>
    rw [findSlot, if_neg (by omega)]
    refine ih (le_trans h ?_)
    unfold nextPartNum
    split <;> omega

/-- The lookup of partition 0 goes along all of its links. -/
theorem finished_of_get_zero (hnum : 1 ≤ partNum)
    (h : (getPartitionInfoExtended d 0 fuel l partNum disksig).isSome) :
    Finished (getNext d) fuel l := by
  induction fuel generalizing l partNum disksig with
  | zero => simp [getPartitionInfoExtended] at h
  | succ fuel ih =>
    intro l' hnext
    cases hrecord : foundRecord d l with
    | none => simp [getNext, hrecord] at hnext
    | some buffer =>
      have hlink : (extendedLinks buffer l).head? = some l' := by
        simpa [getNext, hrecord] using hnext
      rw [getPartitionInfoExtended_below hrecord (findSlot_zero hnum)] at h
      simp only [hlink, Option.elim_some, Option.isSome_map] at h
      exact ih (hnum.trans findSlot_ge) h

theorem getPartitionInfoExtended_calls {calls : ℕ} {r : Option PartitionInfo}
    (h : getPartitionInfoExtended d whichPart fuel l partNum disksig = some (calls, r)) :
    calls ≤ fuel := by
  induction fuel generalizing l partNum disksig calls r with
  | zero => simp [getPartitionInfoExtended] at h
  | succ fuel ih =>
    cases hrecord : foundRecord d l with
    | none =>
      rw [getPartitionInfoExtended_refused hrecord] at h
      simp only [Option.some.injEq, Prod.mk.injEq] at h
      omega
    | some buffer =>
      cases hslot : (findSlot buffer l.extPartSector whichPart (List.range 4) partNum).1 with
      | some pt =>
        obtain ⟨info, -, -, hget⟩ := @getPartitionInfoExtended_here d l buffer whichPart fuel
          partNum disksig pt hrecord hslot
        rw [hget] at h
        simp only [Option.some.injEq, Prod.mk.injEq] at h
        omega
      | none =>
        rw [getPartitionInfoExtended_below hrecord hslot] at h
        cases hlink : (extendedLinks buffer l).head? with
        | none =>
          simp only [hlink, Option.elim_none, Option.some.injEq, Prod.mk.injEq] at h
          omega
        | some l' =>
          simp only [hlink, Option.elim_some] at h
          obtain ⟨⟨c, r'⟩, hbelow, heq⟩ := Option.map_eq_some_iff.1 h
          simp only [Prod.mk.injEq] at heq
          have := ih hbelow
          omega

end Get

/-- The places on the disk where a record can be read, with what its links count from. -/
def livePlaces (d : DosDev) : Finset DosLink :=
  ((Finset.range d.lba) ×ˢ (Finset.range d.lba)).image fun p => ⟨p.1, p.2⟩

theorem card_livePlaces (d : DosDev) : (livePlaces d).card ≤ d.lba ^ 2 := by
  refine Finset.card_image_le.trans ?_
  rw [Finset.card_product, Finset.card_range, Nat.pow_two]

section Reach
variable {d : DosDev} {l l' : DosLink} {next : DosLink → List DosLink}

theorem readBlock_lt {buffer : Mem} (h : d.readBlock l.extPartSector = some buffer) :
    l.extPartSector < d.lba := by
  unfold DosDev.readBlock at h
  split at h
  · exact d.reads_inside _ 1 ‹_›
  · exact absurd h (by simp)

theorem mem_printNext (h : l' ∈ printNext d l) :
    l.extPartSector < d.lba ∧ ∃ buffer, l' ∈ extendedLinks buffer l := by
  unfold printNext at h
  cases hrecord : listedRecord d l with
  | none => simp [hrecord] at h
  | some buffer =>
    simp only [hrecord, Option.elim_some] at h
    exact ⟨readBlock_lt (Option.filter_eq_some_iff.1 hrecord).1, buffer, h⟩

theorem mem_getNext (h : l' ∈ getNext d l) :
    l.extPartSector < d.lba ∧ ∃ buffer, l' ∈ extendedLinks buffer l := by
  unfold getNext at h
  cases hrecord : foundRecord d l with
  | none => simp [hrecord] at h
  | some buffer =>
    simp only [hrecord, Option.elim_some, Option.mem_toList] at h
    exact ⟨readBlock_lt (Option.filter_eq_some_iff.1 hrecord).1, buffer, List.mem_of_mem_head? h⟩

/-- Links count from the sector of a record, or from where those of the last one did. -/
theorem relative_of_mem {buffer : Mem} (h : l' ∈ extendedLinks buffer l) :
    l'.relative = l'.extPartSector ∨ l'.relative = l.relative := by
  obtain ⟨pt, -, rfl⟩ := List.mem_map.1 h
  unfold DosLink.follow
  dsimp only
  split
  · exact .inl rfl
  · exact .inr rfl

/-- A walk from the MBR reads records at the live places only. -/
theorem mem_livePlaces (hnext : ∀ l l', l' ∈ next l → l.extPartSector < d.lba ∧
      ∃ buffer, l' ∈ extendedLinks buffer l)
    (hreach : ReflTransGen (Link next) ⟨0, 0⟩ l) (hlink : Link next l l') : l ∈ livePlaces d := by
  have hrelative : l.relative = l.extPartSector ∨ l.relative < d.lba := by
    induction hreach generalizing l' with
    | refl => exact .inl rfl
    | @tail l₁ l₂ _ hstep ih =>
      obtain ⟨hin, buffer, hmem⟩ := hnext l₁ l₂ hstep
      rcases relative_of_mem hmem with hsame | hkept
      · exact .inl hsame
      · have := ih hstep
        right
        omega
  have hin := (hnext l l' hlink).1
  refine Finset.mem_image.2 ⟨(l.extPartSector, l.relative), ?_, rfl⟩
  rw [Finset.mem_product, Finset.mem_range, Finset.mem_range]
  exact ⟨hin, by dsimp only; omega⟩

theorem finished_of_noReturn (hnext : ∀ l l', l' ∈ next l → l.extPartSector < d.lba ∧
      ∃ buffer, l' ∈ extendedLinks buffer l) (h : NoReturn next ⟨0, 0⟩) :
    Finished next (d.lba ^ 2 + 1) ⟨0, 0⟩ :=
  (h.finished (livePlaces d) fun _ _ hreach hlink => mem_livePlaces hnext hreach hlink).mono
    (Nat.succ_le_succ (card_livePlaces d))

end Reach

/-- The listing ends, and so does the lookup of every partition, each within a number of calls
that depends on the size of the disk. -/
def WalksEnd (bound : ℕ → ℕ) (d : DosDev) : Prop :=
  (∃ fuel calls lines, printPartDos d fuel = some (calls, lines) ∧ calls ≤ bound d.lba) ∧
    ∀ part : ℤ, ∃ fuel calls r, getPartitionInfoDos d fuel part = some (calls, r) ∧
      calls ≤ bound d.lba

theorem WalksEnd.noReturn {bound : ℕ → ℕ} {d : DosDev} (h : WalksEnd bound d) :
    NoReturn (printNext d) ⟨0, 0⟩ ∧ NoReturn (getNext d) ⟨0, 0⟩ := by
  obtain ⟨⟨fuel, calls, lines, hprint, -⟩, hget⟩ := h
  obtain ⟨fuel', calls', r, hzero, -⟩ := hget 0
  constructor
  · have hsome : (printPartDos d fuel).isSome := by rw [hprint, Option.isSome_some]
    exact (printPartitionExtended_isSome.1 hsome).noReturn
  · have hsome : (getPartitionInfoDos d fuel' 0).isSome := by rw [hzero, Option.isSome_some]
    exact (finished_of_get_zero le_rfl hsome).noReturn

/-- Both walks end, within numbers of calls bounded by the size of the disk, if and only if no
record that one of them reaches from the MBR leads back to itself. -/
theorem walksEnd_iff (d : DosDev) :
    WalksEnd (fun lba => 4 ^ (lba ^ 2 + 1)) d ↔
      NoReturn (printNext d) ⟨0, 0⟩ ∧ NoReturn (getNext d) ⟨0, 0⟩ := by
  refine ⟨fun h => h.noReturn, fun ⟨hprint, hget⟩ => ⟨?_, fun part => ?_⟩⟩
  · have hfinished := finished_of_noReturn (fun _ _ h => mem_printNext h) hprint
    obtain ⟨⟨calls, lines⟩, hwalk⟩ := Option.isSome_iff_exists.1
      ((@printPartitionExtended_isSome d ⟨0, 0⟩ (d.lba ^ 2 + 1) 1 0).2 hfinished)
    exact ⟨_, calls, lines, hwalk, Nat.le_of_succ_le (printPartitionExtended_calls hwalk)⟩
  · have hfinished := finished_of_noReturn (fun _ _ h => mem_getNext h) hget
    obtain ⟨⟨calls, r⟩, hwalk⟩ := Option.isSome_iff_exists.1
      (@getPartitionInfoExtended_isSome d ⟨0, 0⟩ part (d.lba ^ 2 + 1) 1 0 hfinished)
    have hcalls := getPartitionInfoExtended_calls hwalk
    exact ⟨_, calls, r, hwalk, hcalls.trans (Nat.lt_pow_self (show 1 < 4 by decide)).le⟩

/-- A disk of two sectors, with the bytes given and zeros elsewhere. -/
def twoSectors (bytes : List (ℕ × UInt8)) : DosDev where
  blksz := 512
  lba := 2
  bytes := fun a => (bytes.lookup a).getD 0
  reads := fun start cnt => decide (start + cnt ≤ 2)
  writes := fun _ _ => false
  blksz_ge := by decide
  blksz_lt := by decide
  lba_lt := by decide
  writes_inside := fun _ _ h => absurd h (by decide)
  dev := 0
  ifType := 6
  reads_inside := fun _ _ h => of_decide_eq_true h

/-- An MBR whose extended entry leads to sector 1, and a record there that leads to itself. -/
def selfLinked : DosDev :=
  twoSectors [(450, 5), (454, 1), (510, 0x55), (511, 0xaa), (962, 5), (1022, 0x55), (1023, 0xaa)]

/-- The listing of this disk never ends. -/
theorem selfLinked_walk_does_not_end : ¬ ∃ bound : ℕ → ℕ, ∀ d : DosDev, WalksEnd bound d := by
  rintro ⟨bound, h⟩
  have hfirst : Link (printNext selfLinked) ⟨0, 0⟩ ⟨1, 1⟩ :=
    show (⟨1, 1⟩ : DosLink) ∈ printNext selfLinked ⟨0, 0⟩ by decide +kernel
  have hself : Link (printNext selfLinked) ⟨1, 1⟩ ⟨1, 1⟩ :=
    show (⟨1, 1⟩ : DosLink) ∈ printNext selfLinked ⟨1, 1⟩ by decide +kernel
  exact (h selfLinked).noReturn.1 ⟨1, 1⟩ (.single hfirst) (.single hself)

end UBoot.Disk
