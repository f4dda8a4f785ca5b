import UBoot.Disk.DosWalk

/-!
# The listing and the lookup of DOS partitions

Each of the two recursions goes through a sequence of entries. The listing takes every used entry
of the records that `test_block_type` accepts, and follows all extended entries; the lookup takes
the entries with a sound boot indicator of the records with the signature, and follows the first
extended entry only. Along the chain of those first entries both read the same records for as long
as `test_block_type` accepts them; what is left to compare is the records that further extended
entries lead to and those of the chain that `test_block_type` refuses.
-/
namespace UBoot.Disk
open ByteStore Links DosPartition

/-- A used entry that is not extended, and whether the lookup accepts its boot indicator. -/
structure UsedSlot where
  entry : DosEntry
  bootOk : Bool

/-- The used entries of a record, numbered as both functions do. -/
def usedSlots (buffer : Mem) (extPartSector : ℕ) : List ℕ → ℕ → List UsedSlot
  | [], _ => []
  | i :: slots, partNum =>
    let pt := partition buffer i
    let rest := usedSlots buffer extPartSector slots (nextPartNum extPartSector pt partNum)
    if sysInd pt ≠ 0 ∧ isExtended (sysInd pt) = false then
      ⟨⟨partNum, u32 (extPartSector + start4.get pt), size4.get pt⟩,
        bootInd pt &&& ~~~0x80 == 0⟩ :: rest
    else rest

/-- `part_num` behind the slots. -/
def numAfter (buffer : Mem) (extPartSector : ℕ) (slots : List ℕ) (partNum : ℕ) : ℕ :=
  slots.foldl (fun partNum i => nextPartNum extPartSector (partition buffer i) partNum) partNum

section Slots
variable {buffer : Mem} {extPartSector : ℕ} {slots : List ℕ} {partNum : ℕ}

theorem nextPartNum_used {pt : Mem} (h : sysInd pt ≠ 0 ∧ isExtended (sysInd pt) = false) :
    nextPartNum extPartSector pt partNum = partNum + 1 := if_pos (.inr h)

theorem le_nextPartNum (pt : Mem) : partNum ≤ nextPartNum extPartSector pt partNum := by
  unfold nextPartNum
  split <;> omega

theorem le_numAfter : partNum ≤ numAfter buffer extPartSector slots partNum := by
  induction slots generalizing partNum with
  | nil => exact le_rfl
  | cons i slots ih => exact (le_nextPartNum _).trans ih

/-- The numbers lie between those before and behind the record. -/
theorem usedSlots_bounds {s : UsedSlot} (h : s ∈ usedSlots buffer extPartSector slots partNum) :
    partNum ≤ s.entry.partNum ∧
      s.entry.partNum < numAfter buffer extPartSector slots partNum := by
  induction slots generalizing partNum with
  | nil => simp [usedSlots] at h
  | cons i slots ih =>
    have hstep := @le_nextPartNum extPartSector partNum (partition buffer i)
    simp only [usedSlots] at h
    rw [numAfter, List.foldl_cons, ← numAfter]
    split at h
    · next hused =>
      have hnext := @nextPartNum_used extPartSector partNum _ hused
      have hafter := @le_numAfter buffer extPartSector slots
        (nextPartNum extPartSector (partition buffer i) partNum)
      rcases List.mem_cons.1 h with rfl | hmem
      · dsimp only
        omega
      · have := ih hmem
        omega
    · have := ih h
      omega

/-- The numbers grow along the slots. -/
theorem usedSlots_pairwise : (usedSlots buffer extPartSector slots partNum).Pairwise
    fun s t => s.entry.partNum < t.entry.partNum := by
  induction slots generalizing partNum with
  | nil => exact .nil
  | cons i slots ih =>
    simp only [usedSlots]
    split
    · next hused =>
      refine .cons (fun t ht => ?_) ih
      have hnext := @nextPartNum_used extPartSector partNum _ hused
      have := usedSlots_bounds ht
      dsimp only
      omega
    · exact ih

theorem printSlots_entries (disksig : ℕ) :
    (printSlots buffer extPartSector disksig slots partNum).1.filterMap DosLine.entry =
      (usedSlots buffer extPartSector slots partNum).map UsedSlot.entry := by
  induction slots generalizing partNum with
  | nil => rfl
  | cons i slots ih =>
    simp only [printSlots, usedSlots, List.filterMap_append, ih]
    by_cases hempty : sysInd (partition buffer i) = 0
    · simp [hempty]
    · cases hext : isExtended (sysInd (partition buffer i)) with
      | false => simp [hempty, printOnePart, DosLine.entry, hext]
      | true => by_cases hmbr : extPartSector = 0 <;>
          simp [hempty, printOnePart, DosLine.entry, hext, hmbr]

theorem printSlots_num (disksig : ℕ) :
    (printSlots buffer extPartSector disksig slots partNum).2 =
      numAfter buffer extPartSector slots partNum := by
  induction slots generalizing partNum with
  | nil => rfl
  | cons i slots ih => exact ih

/-- The slot that the lookup stops at is the one with the number among those it accepts. -/
theorem findSlot_entry (whichPart : ℤ) :
    (findSlot buffer extPartSector whichPart slots partNum).1.map
        (fun pt => (u32 (extPartSector + start4.get pt), size4.get pt)) =
      ((((usedSlots buffer extPartSector slots partNum).filter UsedSlot.bootOk).map
        UsedSlot.entry).find? fun e => (e.partNum : ℤ) = whichPart).map
          fun e => (e.start, e.size) := by
  induction slots generalizing partNum with
  | nil => rfl
  | cons i slots ih =>
    simp only [findSlot, usedSlots]
    by_cases hused : sysInd (partition buffer i) ≠ 0 ∧
        isExtended (sysInd (partition buffer i)) = false
    · rw [if_pos hused]
      by_cases hboot : bootInd (partition buffer i) &&& ~~~0x80 = 0
      · by_cases hnum : (partNum : ℤ) = whichPart
        · simp [hused, hboot, hnum]
        · simp [hused, hboot, hnum, ih]
      · simp [hboot, ih]
    · rw [if_neg hused, if_neg (by tauto), ih]

/-- The used slots of a row, each with the number that those before it leave. -/
theorem mem_usedSlots {s : UsedSlot} {first count : ℕ} :
    s ∈ usedSlots buffer extPartSector (List.range' first count) partNum ↔
      ∃ j < count, (sysInd (partition buffer (first + j)) ≠ 0 ∧
          isExtended (sysInd (partition buffer (first + j))) = false) ∧
        s = ⟨⟨numAfter buffer extPartSector (List.range' first j) partNum,
            u32 (extPartSector + start4.get (partition buffer (first + j))),
            size4.get (partition buffer (first + j))⟩,
          bootInd (partition buffer (first + j)) &&& ~~~0x80 == 0⟩ := by
  induction count generalizing first partNum with
  | zero => simp [usedSlots]
  | succ count ih =>
    rw [List.range'_succ, Nat.exists_lt_succ_left]
    simp only [usedSlots]
    have hlater := @ih (nextPartNum extPartSector (partition buffer first) partNum) (first + 1)
    simp only [Nat.add_right_comm first 1, Nat.add_assoc first] at hlater
    split
    · next hused =>
      rw [List.mem_cons, hlater]
      simp [hused, numAfter, List.range'_succ]
    · next hused =>
      rw [hlater]
      simp only [Nat.add_zero, hused, false_and, false_or]
      simp [numAfter, List.range'_succ]

theorem findSlot_num {whichPart : ℤ}
    (h : (findSlot buffer extPartSector whichPart slots partNum).1 = none) :
    (findSlot buffer extPartSector whichPart slots partNum).2 =
      numAfter buffer extPartSector slots partNum := by
  induction slots generalizing partNum with
  | nil => rfl
  | cons i slots ih =>
    simp only [findSlot] at h ⊢
    split at h
    · simp at h
    · next hnot =>
      rw [if_neg hnot]
      exact ih h

end Slots

/-- The entries of a record, and the number behind it. -/
def recordSlots (buffer : Mem) (l : DosLink) (partNum : ℕ) : List UsedSlot :=
  usedSlots buffer l.extPartSector (List.range 4) partNum

def recordNum (buffer : Mem) (l : DosLink) (partNum : ℕ) : ℕ :=
  numAfter buffer l.extPartSector (List.range 4) partNum

/-- A boot record where it is met: its bytes, the arguments of the call that reads it, and
`part_num` before its first slot. -/
structure BootRecord where
  buffer : Mem
  link : DosLink
  partNum : ℕ

namespace BootRecord

/-- Slot `i` holds a partition that is not extended. -/
def Used (r : BootRecord) (i : ℕ) : Prop :=
  sysInd (partition r.buffer i) ≠ 0 ∧ isExtended (sysInd (partition r.buffer i)) = false

/-- The boot indicator of slot `i` is 0 or 0x80. -/
def Sound (r : BootRecord) (i : ℕ) : Prop := bootInd (partition r.buffer i) &&& ~~~0x80 = 0

instance (r : BootRecord) (i : ℕ) : Decidable (r.Used i) := inferInstanceAs (Decidable (_ ∧ _))

instance (r : BootRecord) (i : ℕ) : Decidable (r.Sound i) := inferInstanceAs (Decidable (_ = _))

/-- The partition in slot `i`, with the number that the slots before it leave. -/
def entry (r : BootRecord) (i : ℕ) : DosEntry :=
  ⟨numAfter r.buffer r.link.extPartSector (List.range i) r.partNum,
    u32 (r.link.extPartSector + start4.get (partition r.buffer i)),
    size4.get (partition r.buffer i)⟩

def slots (r : BootRecord) : List UsedSlot := recordSlots r.buffer r.link r.partNum

end BootRecord

section Records
variable (d : DosDev)

/-- The records that `test_block_type` accepts, from `l` on over all extended entries. -/
def recordsBelow : ℕ → DosLink → ℕ → List BootRecord
  | 0, _, _ => []
  | fuel + 1, l, partNum =>
    (listedRecord d l).elim [] fun buffer => ⟨buffer, l, partNum⟩ ::
      (extendedLinks buffer l).flatMap fun l' => recordsBelow fuel l' (recordNum buffer l partNum)

/-- The records with the signature, from `l` on over the first extended entry of each. -/
def recordsAlong : ℕ → DosLink → ℕ → List BootRecord
  | 0, _, _ => []
  | fuel + 1, l, partNum =>
    (foundRecord d l).elim [] fun buffer => ⟨buffer, l, partNum⟩ ::
      (extendedLinks buffer l).head?.elim [] fun l' =>
        recordsAlong fuel l' (recordNum buffer l partNum)

/-- The chain: records that `test_block_type` accepts, over the first extended entry of each. -/
def chainRecords : ℕ → DosLink → ℕ → List BootRecord
  | 0, _, _ => []
  | fuel + 1, l, partNum =>
    (listedRecord d l).elim [] fun buffer => ⟨buffer, l, partNum⟩ ::
      (extendedLinks buffer l).head?.elim [] fun l' =>
        chainRecords fuel l' (recordNum buffer l partNum)

/-- The records below the second and further extended entries of the chain. -/
def sideRecords : ℕ → DosLink → ℕ → List BootRecord
  | 0, _, _ => []
  | fuel + 1, l, partNum =>
    (listedRecord d l).elim [] fun buffer =>
      ((extendedLinks buffer l).tail.flatMap fun l' =>
          recordsBelow d fuel l' (recordNum buffer l partNum)) ++
        (extendedLinks buffer l).head?.elim [] fun l' =>
          sideRecords fuel l' (recordNum buffer l partNum)

/-- The records with the signature from the one on at which the chain ends because
`test_block_type` refuses it. -/
def tailRecords : ℕ → DosLink → ℕ → List BootRecord
  | 0, _, _ => []
  | fuel + 1, l, partNum =>
    (listedRecord d l).elim (recordsAlong d (fuel + 1) l partNum) fun buffer =>
      (extendedLinks buffer l).head?.elim [] fun l' =>
        tailRecords fuel l' (recordNum buffer l partNum)

end Records

section Sequences
variable (d : DosDev)

/-- What the listing goes through. -/
def listed : ℕ → DosLink → ℕ → List DosEntry
  | 0, _, _ => []
  | fuel + 1, l, partNum =>
    (listedRecord d l).elim [] fun buffer =>
      (recordSlots buffer l partNum).map UsedSlot.entry ++
        (extendedLinks buffer l).flatMap fun l' => listed fuel l' (recordNum buffer l partNum)

/-- What the lookup goes through. -/
def found : ℕ → DosLink → ℕ → List DosEntry
  | 0, _, _ => []
  | fuel + 1, l, partNum =>
    (foundRecord d l).elim [] fun buffer =>
      ((recordSlots buffer l partNum).filter UsedSlot.bootOk).map UsedSlot.entry ++
        (extendedLinks buffer l).head?.elim [] fun l' => found fuel l' (recordNum buffer l partNum)

end Sequences

section Walks
variable {d : DosDev} {l : DosLink} {fuel partNum disksig calls : ℕ}

theorem collect_entries {ls : List DosLink} {walk : DosLink → Option (ℕ × List DosLine)}
    {entries : DosLink → List DosEntry} {lines : List DosLine}
    (hwalk : ∀ l ∈ ls, ∀ c lines, walk l = some (c, lines) →
      lines.filterMap DosLine.entry = entries l)
    (h : collect (ls.map walk) = some (calls, lines)) :
    lines.filterMap DosLine.entry = ls.flatMap entries := by
  induction ls generalizing calls lines with
  | nil =>
    simp only [List.map_nil, collect, Option.some.injEq, Prod.mk.injEq] at h
    rw [← h.2]
    rfl
  | cons l ls ih =>
    rw [List.map_cons] at h
    cases hfirst : walk l with
    | none => simp [hfirst, collect] at h
    | some r =>
      rw [hfirst] at h
      obtain ⟨⟨c, rest⟩, hrest, heq⟩ := Option.map_eq_some_iff.1 h
      simp only [Prod.mk.injEq] at heq
      rw [← heq.2, List.filterMap_append, hwalk l List.mem_cons_self r.1 r.2 hfirst,
        ih (fun l hl => hwalk l (List.mem_cons_of_mem _ hl)) hrest, List.flatMap_cons]

/-- The lines of a listing that ends are those of its sequence. -/
theorem printPartitionExtended_entries {lines : List DosLine}
    (h : printPartitionExtended d fuel l partNum disksig = some (calls, lines)) :
    lines.filterMap DosLine.entry = listed d fuel l partNum := by
  induction fuel generalizing l partNum disksig calls lines with
  | zero => simp [printPartitionExtended] at h
  | succ fuel ih =>
    rw [listed]
    cases hrecord : listedRecord d l with
    | none =>
      obtain ⟨line, hline, hprint⟩ :=
        @printPartitionExtended_refused d l fuel partNum disksig hrecord
      rw [hprint] at h
      simp only [Option.some.injEq, Prod.mk.injEq] at h
      simp [← h.2, hline]
    | some buffer =>
      rw [printPartitionExtended_record hrecord] at h
      obtain ⟨⟨c, below⟩, hbelow, heq⟩ := Option.map_eq_some_iff.1 h
      simp only [Prod.mk.injEq] at heq
      rw [← heq.2, List.filterMap_append, printSlots_entries]
      rw [printSlots_num] at hbelow
      rw [collect_entries (fun l' _ c lines hl' => ih hl') hbelow]
      rfl

/-- A lookup that ends returns the entry of its sequence that has the number. -/
theorem getPartitionInfoExtended_entry {whichPart : ℤ} {r : Option PartitionInfo}
    (h : getPartitionInfoExtended d whichPart fuel l partNum disksig = some (calls, r)) :
    r.map (fun info => (info.start, info.size)) =
      ((found d fuel l partNum).find? fun e => (e.partNum : ℤ) = whichPart).map
        fun e => (e.start, e.size) := by
  induction fuel generalizing l partNum disksig calls r with
  | zero => simp [getPartitionInfoExtended] at h
  | succ fuel ih =>
    rw [found]
    cases hrecord : foundRecord d l with
    | none =>
      rw [getPartitionInfoExtended_refused hrecord] at h
      simp only [Option.some.injEq, Prod.mk.injEq] at h
      simp [← h.2]
    | some buffer =>
      have hentry := @findSlot_entry buffer l.extPartSector (List.range 4) partNum whichPart
      simp only [Option.elim_some, List.find?_append, recordSlots]
      cases hslot : (findSlot buffer l.extPartSector whichPart (List.range 4) partNum).1 with
      | some pt =>
        obtain ⟨info, hstart, hsize, hget⟩ := @getPartitionInfoExtended_here d l buffer whichPart
          fuel partNum disksig pt hrecord hslot
        rw [hget] at h
        simp only [Option.some.injEq, Prod.mk.injEq] at h
        rw [hslot, Option.map_some] at hentry
        obtain ⟨e, he, hpair⟩ := Option.map_eq_some_iff.1 hentry.symm
        rw [← h.2, he, Option.some_or, Option.map_some, Option.map_some, hpair, hstart, hsize]
      | none =>
        rw [hslot, Option.map_none, eq_comm, Option.map_eq_none_iff] at hentry
        rw [hentry, Option.none_or]
        rw [getPartitionInfoExtended_below hrecord hslot] at h
        dsimp only at h
        rw [findSlot_num hslot] at h
        cases hlink : (extendedLinks buffer l).head? with
        | none =>
          simp only [hlink, Option.elim_none, Option.some.injEq, Prod.mk.injEq] at h
          simp [← h.2]
        | some l' =>
          simp only [hlink, Option.elim_some] at h
          obtain ⟨⟨c, r'⟩, hbelow, heq⟩ := Option.map_eq_some_iff.1 h
          simp only [Prod.mk.injEq] at heq
          rw [← heq.2]
          exact ih hbelow

end Walks

section Comparison
variable {d : DosDev} {l : DosLink} {buffer : Mem} {fuel partNum : ℕ}

/-- Every record that the listing accepts is accepted by the lookup. -/
theorem foundRecord_of_listed (h : listedRecord d l = some buffer) :
    foundRecord d l = some buffer := by
  obtain ⟨hread, hmbr⟩ := Option.filter_eq_some_iff.1 h
  refine Option.filter_eq_some_iff.2 ⟨hread, ?_⟩
  by_contra hmagic
  have hrefused : testBlockType buffer = -1 := if_pos (by simpa using hmagic)
  rw [hrefused] at hmbr
  exact absurd hmbr (by decide)

theorem recordSlots_bounds {s : UsedSlot} (h : s ∈ recordSlots buffer l partNum) :
    partNum ≤ s.entry.partNum ∧ s.entry.partNum < recordNum buffer l partNum :=
  usedSlots_bounds h

/-- Within a record an entry belongs to one slot. -/
theorem recordSlots_injective {s t : UsedSlot} (hs : s ∈ recordSlots buffer l partNum)
    (ht : t ∈ recordSlots buffer l partNum) (h : s.entry = t.entry) : s = t := by
  have hnodup : ((recordSlots buffer l partNum).map fun s => s.entry.partNum).Nodup := by
    rw [List.nodup_iff_pairwise_ne, List.pairwise_map]
    exact usedSlots_pairwise.imp fun hlt => hlt.ne
  exact List.inj_on_of_nodup_map hnodup hs ht (congrArg DosEntry.partNum h)

/-- The numbers of the lookup's sequence start where it does. -/
theorem le_of_mem_found {e : DosEntry} (h : e ∈ found d fuel l partNum) :
    partNum ≤ e.partNum := by
  induction fuel generalizing l partNum with
  | zero => simp [found] at h
  | succ fuel ih =>
    rw [found] at h
    cases hrecord : foundRecord d l with
    | none => simp [hrecord] at h
    | some buffer =>
      rw [hrecord, Option.elim_some] at h
      rcases List.mem_append.1 h with hhere | hbelow
      · obtain ⟨s, hs, rfl⟩ := List.mem_map.1 hhere
        exact (recordSlots_bounds (List.mem_of_mem_filter hs)).1
      · cases hlink : (extendedLinks buffer l).head? with
        | none => simp [hlink] at hbelow
        | some l' =>
          rw [hlink, Option.elim_some] at hbelow
          exact le_numAfter.trans (ih hbelow)

/-- No two entries of the lookup's sequence share a number. -/
theorem found_nodup : ((found d fuel l partNum).map DosEntry.partNum).Nodup := by
  rw [List.nodup_iff_pairwise_ne]
  suffices hlt : ((found d fuel l partNum).map DosEntry.partNum).Pairwise (· < ·) from
    hlt.imp fun h => h.ne
  rw [List.pairwise_map]
  induction fuel generalizing l partNum with
  | zero => exact .nil
  | succ fuel ih =>
    rw [found]
    cases hrecord : foundRecord d l with
    | none => exact .nil
    | some buffer =>
      rw [Option.elim_some, List.pairwise_append]
      refine ⟨?_, ?_, ?_⟩
      · rw [List.pairwise_map]
        exact usedSlots_pairwise.filter _
      · cases (extendedLinks buffer l).head? with
        | none => exact .nil
        | some l' => exact ih
      · intro e he e' he'
        obtain ⟨s, hs, rfl⟩ := List.mem_map.1 he
        have hbound := (recordSlots_bounds (List.mem_of_mem_filter hs)).2
        cases hlink : (extendedLinks buffer l).head? with
        | none => simp [hlink] at he'
        | some l' =>
          rw [hlink, Option.elim_some] at he'
          exact hbound.trans_le (le_of_mem_found he')

/-- Where a record is accepted by both, its entries agree exactly when all of its boot indicators
are sound, and can then be left out. -/
theorem record_perm_iff {others below : List DosEntry}
    (hbelow : ∀ e ∈ below, recordNum buffer l partNum ≤ e.partNum) :
    ((recordSlots buffer l partNum).map UsedSlot.entry ++ others).Perm
        (((recordSlots buffer l partNum).filter UsedSlot.bootOk).map UsedSlot.entry ++ below) ↔
      (recordSlots buffer l partNum).all UsedSlot.bootOk = true ∧ others.Perm below := by
  constructor
  · intro h
    have hall : ∀ s ∈ recordSlots buffer l partNum, s.bootOk = true := by
      intro s hs
      have hmem := h.subset (List.mem_append_left _ (List.mem_map_of_mem hs))
      rcases List.mem_append.1 hmem with hhere | hlater
      · obtain ⟨t, ht, heq⟩ := List.mem_map.1 hhere
        rw [← recordSlots_injective (List.mem_of_mem_filter ht) hs heq]
        exact List.of_mem_filter ht
      · have hbound := recordSlots_bounds hs
        have := hbelow _ hlater
        omega
    refine ⟨List.all_eq_true.2 hall, ?_⟩
    rw [List.filter_eq_self.2 hall] at h
    exact (List.perm_append_left_iff _).1 h
  · rintro ⟨hall, hperm⟩
    rw [List.filter_eq_self.2 (List.all_eq_true.1 hall)]
    exact hperm.append_left _

theorem listed_eq_flatMap :
    listed d fuel l partNum =
      (recordsBelow d fuel l partNum).flatMap fun r => r.slots.map UsedSlot.entry := by
  induction fuel generalizing l partNum with
  | zero => rfl
  | succ fuel ih =>
    rw [listed, recordsBelow]
    cases listedRecord d l with
    | none => rfl
    | some buffer =>
      simp only [Option.elim_some, List.flatMap_cons, List.flatMap_assoc, ih]
      rfl

theorem found_eq_flatMap :
    found d fuel l partNum =
      (recordsAlong d fuel l partNum).flatMap fun r =>
        (r.slots.filter UsedSlot.bootOk).map UsedSlot.entry := by
  induction fuel generalizing l partNum with
  | zero => rfl
  | succ fuel ih =>
    rw [found, recordsAlong]
    cases foundRecord d l with
    | none => rfl
    | some buffer =>
      simp only [Option.elim_some, List.flatMap_cons]
      cases (extendedLinks buffer l).head? with
      | none => rfl
      | some l' =>
        simp only [Option.elim_some, ih]
        rfl

/-- The entries below the further extended entries of the chain. -/
def sideEntries (d : DosDev) (fuel : ℕ) (l : DosLink) (partNum : ℕ) : List DosEntry :=
  (sideRecords d fuel l partNum).flatMap fun r => r.slots.map UsedSlot.entry

/-- The entries with a sound boot indicator of the chain's refused end. -/
def tailEntries (d : DosDev) (fuel : ℕ) (l : DosLink) (partNum : ℕ) : List DosEntry :=
  (tailRecords d fuel l partNum).flatMap fun r =>
    (r.slots.filter UsedSlot.bootOk).map UsedSlot.entry

/-- The comparison goes along the chain, and takes with it what is listed besides. -/
theorem listed_perm_found_iff (rest : List DosEntry) :
    (listed d fuel l partNum ++ rest).Perm (found d fuel l partNum) ↔
      (∀ r ∈ chainRecords d fuel l partNum, r.slots.all UsedSlot.bootOk = true) ∧
        (sideEntries d fuel l partNum ++ rest).Perm (tailEntries d fuel l partNum) := by
  unfold sideEntries tailEntries
  induction fuel generalizing l partNum rest with
  | zero => simp [listed, found, chainRecords, sideRecords, tailRecords]
  | succ fuel ih =>
    rw [listed, chainRecords, sideRecords, tailRecords]
    cases hrecord : listedRecord d l with
    | none => simp [found_eq_flatMap]
    | some buffer =>
      rw [found, foundRecord_of_listed hrecord]
      simp only [Option.elim_some, List.append_assoc, List.forall_mem_cons]
      cases hlinks : extendedLinks buffer l with
      | nil =>
        rw [record_perm_iff (by simp)]
        simp [BootRecord.slots]
      | cons l' links =>
        simp only [List.flatMap_cons, List.head?_cons, List.tail_cons, Option.elim_some,
          List.append_assoc, List.flatMap_append, List.flatMap_assoc, ← listed_eq_flatMap]
        rw [record_perm_iff (fun e he => le_of_mem_found he), ih, and_assoc]
        refine and_congr_right fun _ => and_congr_right fun _ => ?_
        exact (List.perm_append_comm_assoc _ _ _).congr_left _

/-- No two entries of the refused end share a number. -/
theorem tailEntries_nodup : ((tailEntries d fuel l partNum).map DosEntry.partNum).Nodup := by
  unfold tailEntries
  induction fuel generalizing l partNum with
  | zero => exact .nil
  | succ fuel ih =>
    rw [tailRecords]
    cases listedRecord d l with
    | none =>
      rw [Option.elim_none, ← found_eq_flatMap]
      exact found_nodup
    | some buffer =>
      rw [Option.elim_some]
      cases (extendedLinks buffer l).head? with
      | none => exact .nil
      | some l' => exact ih

theorem mem_slots {r : BootRecord} {s : UsedSlot} :
    s ∈ r.slots ↔ ∃ i < 4, r.Used i ∧
      s = ⟨r.entry i, bootInd (partition r.buffer i) &&& ~~~0x80 == 0⟩ := by
  have h := @mem_usedSlots r.buffer r.link.extPartSector r.partNum s 0 4
  simp only [← List.range_eq_range', Nat.zero_add] at h
  exact h

theorem mem_entries {r : BootRecord} {e : DosEntry} :
    e ∈ r.slots.map UsedSlot.entry ↔ ∃ i < 4, r.Used i ∧ r.entry i = e := by
  simp only [List.mem_map, mem_slots]
  constructor
  · rintro ⟨s, ⟨i, hi, hused, rfl⟩, rfl⟩
    exact ⟨i, hi, hused, rfl⟩
  · rintro ⟨i, hi, hused, rfl⟩
    exact ⟨_, ⟨i, hi, hused, rfl⟩, rfl⟩

theorem mem_soundEntries {r : BootRecord} {e : DosEntry} :
    e ∈ (r.slots.filter UsedSlot.bootOk).map UsedSlot.entry ↔
      ∃ i < 4, r.Used i ∧ r.Sound i ∧ r.entry i = e := by
  simp only [List.mem_map, List.mem_filter, mem_slots]
  constructor
  · rintro ⟨s, ⟨⟨i, hi, hused, rfl⟩, hok⟩, rfl⟩
    exact ⟨i, hi, hused, of_decide_eq_true hok, rfl⟩
  · rintro ⟨i, hi, hused, hok, rfl⟩
    exact ⟨_, ⟨⟨i, hi, hused, rfl⟩, beq_iff_eq.2 hok⟩, rfl⟩

theorem slots_all_iff {r : BootRecord} :
    r.slots.all UsedSlot.bootOk = true ↔ ∀ i < 4, r.Used i → r.Sound i := by
  rw [List.all_eq_true]
  constructor
  · intro h i hi hused
    exact beq_iff_eq.1 (h _ (mem_slots.2 ⟨i, hi, hused, rfl⟩))
  · intro h s hs
    obtain ⟨i, hi, hused, rfl⟩ := mem_slots.1 hs
    exact beq_iff_eq.2 (h i hi hused)

/-- What the listing reads besides the chain is what the lookup finds behind it, slot by slot. -/
theorem sideEntries_perm_iff :
    (sideEntries d fuel l partNum).Perm (tailEntries d fuel l partNum) ↔
      (∀ r ∈ sideRecords d fuel l partNum, ∀ i < 4, r.Used i →
        ∃ r' ∈ tailRecords d fuel l partNum, ∃ j < 4, r'.Used j ∧ r'.Sound j ∧
          r'.entry j = r.entry i) ∧
      (∀ r' ∈ tailRecords d fuel l partNum, ∀ j < 4, r'.Used j → r'.Sound j →
        ∃ r ∈ sideRecords d fuel l partNum, ∃ i < 4, r.Used i ∧ r.entry i = r'.entry j) ∧
      (sideRecords d fuel l partNum).Pairwise fun r r' => ∀ i < 4, ∀ j < 4, r.Used i →
        r'.Used j → r.entry i ≠ r'.entry j := by
  have hside : ∀ e, e ∈ sideEntries d fuel l partNum ↔
      ∃ r ∈ sideRecords d fuel l partNum, ∃ i < 4, r.Used i ∧ r.entry i = e := fun e => by
    simp only [sideEntries, List.mem_flatMap, mem_entries]
  have htail : ∀ e, e ∈ tailEntries d fuel l partNum ↔
      ∃ r ∈ tailRecords d fuel l partNum, ∃ i < 4, r.Used i ∧ r.Sound i ∧ r.entry i = e :=
    fun e => by simp only [tailEntries, List.mem_flatMap, mem_soundEntries]
  have hnodup : (sideEntries d fuel l partNum).Nodup ↔
      (sideRecords d fuel l partNum).Pairwise fun r r' => ∀ i < 4, ∀ j < 4, r.Used i →
        r'.Used j → r.entry i ≠ r'.entry j := by
    have hrecord : ∀ r ∈ sideRecords d fuel l partNum, (r.slots.map UsedSlot.entry).Nodup :=
      fun r _ => List.Nodup.map_on (fun s hs t ht h => recordSlots_injective hs ht h)
        ((usedSlots_pairwise.imp fun hlt heq => hlt.ne (by rw [heq])))
    rw [sideEntries, List.nodup_flatMap, and_iff_right hrecord]
    refine iff_of_eq (congrArg (List.Pairwise · _) ?_)
    funext r r'
    refine propext ⟨fun h i hi j hj hused hused' heq => ?_, fun h e he he' => ?_⟩
    · exact h (mem_entries.2 ⟨i, hi, hused, rfl⟩) (mem_entries.2 ⟨j, hj, hused', heq.symm⟩)
    · obtain ⟨i, hi, hused, rfl⟩ := mem_entries.1 he
      obtain ⟨j, hj, hused', heq⟩ := mem_entries.1 he'
      exact h i hi j hj hused hused' heq.symm
  rw [← hnodup]
  constructor
  · intro h
    refine ⟨fun r hr i hi hused => ?_, fun r hr j hj hused hok => ?_, ?_⟩
    · exact (htail _).1 (h.mem_iff.1 ((hside _).2 ⟨r, hr, i, hi, hused, rfl⟩))
    · exact (hside _).1 (h.mem_iff.2 ((htail _).2 ⟨r, hr, j, hj, hused, hok, rfl⟩))
    · exact h.nodup_iff.2 (List.Nodup.of_map _ tailEntries_nodup)
  · rintro ⟨hsub, hsup, hdistinct⟩
    refine (List.perm_ext_iff_of_nodup hdistinct (List.Nodup.of_map _ tailEntries_nodup)).2
      fun e => ⟨fun he => ?_, fun he => ?_⟩
    · obtain ⟨r, hr, i, hi, hused, rfl⟩ := (hside e).1 he
      exact (htail _).2 (hsub r hr i hi hused)
    · obtain ⟨r, hr, j, hj, hused, hok, rfl⟩ := (htail e).1 he
      exact (hside _).2 (hsup r hr j hj hused hok)

end Comparison

/-- The listing and the lookup tell the same partitions, and the listing no two of one number. -/
structure WalksAgree (d : DosDev) (fuel : ℕ) : Prop where
  agree : ∀ calls lines, printPartDos d fuel = some (calls, lines) → ∀ (part : ℤ) (start size : ℕ),
    (∃ e ∈ lines.filterMap DosLine.entry, (e.partNum : ℤ) = part ∧ e.start = start ∧
        e.size = size) ↔
      ∃ calls' info, getPartitionInfoDos d fuel part = some (calls', some info) ∧
        info.start = start ∧ info.size = size
  accepted : ∀ l buffer, listedRecord d l = some buffer → foundRecord d l = some buffer
  distinct : ∀ calls lines, printPartDos d fuel = some (calls, lines) →
    ((lines.filterMap DosLine.entry).map DosEntry.partNum).Nodup

section Agreement
variable {d : DosDev} {fuel : ℕ}

/-- A lookup that ends succeeds with the entries of its sequence. -/
theorem getPartitionInfoDos_iff (hget : ∀ part : ℤ, (getPartitionInfoDos d fuel part).isSome)
    (part : ℤ) (start size : ℕ) :
    (∃ calls info, getPartitionInfoDos d fuel part = some (calls, some info) ∧
        info.start = start ∧ info.size = size) ↔
      ∃ e ∈ found d fuel ⟨0, 0⟩ 1, (e.partNum : ℤ) = part ∧ e.start = start ∧ e.size = size := by
  obtain ⟨⟨calls, r⟩, hr⟩ := Option.isSome_iff_exists.1 (hget part)
  have hentry := getPartitionInfoExtended_entry hr
  constructor
  · rintro ⟨calls', info, hinfo, rfl, rfl⟩
    simp only [hr, Option.some.injEq, Prod.mk.injEq] at hinfo
    rw [hinfo.2, Option.map_some] at hentry
    obtain ⟨e, he, hpair⟩ := Option.map_eq_some_iff.1 hentry.symm
    simp only [Prod.mk.injEq] at hpair
    exact ⟨e, List.mem_of_find?_eq_some he, by simpa using List.find?_some he, hpair.1, hpair.2⟩
  · rintro ⟨e, he, hnum, rfl, rfl⟩
    have hfind : (found d fuel ⟨0, 0⟩ 1).find? (fun e => (e.partNum : ℤ) = part) = some e := by
      cases hfind : (found d fuel ⟨0, 0⟩ 1).find? fun e => (e.partNum : ℤ) = part with
      | none =>
        have hnone := List.find?_eq_none.1 hfind e he
        simp [hnum] at hnone
      | some e' =>
        have hnum' : (e'.partNum : ℤ) = part := by simpa using List.find?_some hfind
        have hsame : e'.partNum = e.partNum := by omega
        rw [List.inj_on_of_nodup_map found_nodup (List.mem_of_find?_eq_some hfind) he hsame]
    rw [hfind, Option.map_some] at hentry
    obtain ⟨info, rfl, hpair⟩ := Option.map_eq_some_iff.1 hentry
    simp only [Prod.mk.injEq] at hpair
    exact ⟨calls, info, hr, hpair.1, hpair.2⟩

/-- Walks that end agree when the one sequence is the other in another order. -/
theorem walksAgree_iff_perm (hprint : (printPartDos d fuel).isSome)
    (hget : ∀ part : ℤ, (getPartitionInfoDos d fuel part).isSome) :
    WalksAgree d fuel ↔ (listed d fuel ⟨0, 0⟩ 1).Perm (found d fuel ⟨0, 0⟩ 1) := by
  have hlines : ∀ calls lines, printPartDos d fuel = some (calls, lines) →
      lines.filterMap DosLine.entry = listed d fuel ⟨0, 0⟩ 1 := fun _ _ h =>
    printPartitionExtended_entries h
  constructor
  · intro h
    obtain ⟨⟨calls, lines⟩, hwalk⟩ := Option.isSome_iff_exists.1 hprint
    have hagree := h.agree calls lines hwalk
    have hdistinct := h.distinct calls lines hwalk
    rw [hlines calls lines hwalk] at hagree hdistinct
    refine (List.perm_ext_iff_of_nodup (List.Nodup.of_map _ hdistinct)
      (List.Nodup.of_map _ found_nodup)).2 fun e => ?_
    have hboth := (hagree e.partNum e.start e.size).trans (getPartitionInfoDos_iff hget _ _ _)
    constructor
    · intro he
      obtain ⟨⟨n, s, z⟩, he', hnum, hstart, hsize⟩ := hboth.1 ⟨e, he, rfl, rfl, rfl⟩
      obtain rfl : n = e.partNum := by exact_mod_cast hnum
      subst hstart hsize
      exact he'
    · intro he
      obtain ⟨⟨n, s, z⟩, he', hnum, hstart, hsize⟩ := hboth.2 ⟨e, he, rfl, rfl, rfl⟩
      obtain rfl : n = e.partNum := by exact_mod_cast hnum
      subst hstart hsize
      exact he'
  · intro hperm
    refine ⟨fun calls lines hwalk part start size => ?_, fun _ _ h => foundRecord_of_listed h,
      fun calls lines hwalk => ?_⟩
    · rw [getPartitionInfoDos_iff hget, hlines calls lines hwalk]
      simp only [hperm.mem_iff]
    · rw [hlines calls lines hwalk]
      exact (hperm.map _).nodup_iff.2 found_nodup

end Agreement

/-- What the records must hold. A disk whose chain has one extended entry in a record and
ends in a record without signature or without extended entry has no side and no tail. -/
structure RecordsMatch (d : DosDev) (fuel : ℕ) : Prop where
  /-- Along the chain every used entry has a boot indicator of 0 or 0x80. -/
  chain : ∀ r ∈ chainRecords d fuel ⟨0, 0⟩ 1, ∀ i < 4, r.Used i → r.Sound i
  /-- A used entry at the side of the chain stands in its refused tail as well. -/
  side : ∀ r ∈ sideRecords d fuel ⟨0, 0⟩ 1, ∀ i < 4, r.Used i →
    ∃ r' ∈ tailRecords d fuel ⟨0, 0⟩ 1, ∃ j < 4, r'.Used j ∧ r'.Sound j ∧ r'.entry j = r.entry i
  /-- A used entry of the tail with a sound boot indicator stands at the side as well. -/
  tail : ∀ r' ∈ tailRecords d fuel ⟨0, 0⟩ 1, ∀ j < 4, r'.Used j → r'.Sound j →
    ∃ r ∈ sideRecords d fuel ⟨0, 0⟩ 1, ∃ i < 4, r.Used i ∧ r.entry i = r'.entry j
  /-- No entry stands at the side twice. -/
  once : (sideRecords d fuel ⟨0, 0⟩ 1).Pairwise fun r r' => ∀ i < 4, ∀ j < 4, r.Used i →
    r'.Used j → r.entry i ≠ r'.entry j

/-- On a disk where both walks end, they agree if and only if the records match: the boot
indicators along the chain are sound, no record at its side holds an entry, and no record of
its refused tail a sound one, unless the ones hold what the others do. -/
theorem walksAgree_iff (d : DosDev) (fuel : ℕ) (hprint : (printPartDos d fuel).isSome)
    (hget : ∀ part : ℤ, (getPartitionInfoDos d fuel part).isSome) :
    WalksAgree d fuel ↔ RecordsMatch d fuel := by
  have hcompare := @listed_perm_found_iff d ⟨0, 0⟩ fuel 1 []
  rw [List.append_nil, List.append_nil, sideEntries_perm_iff] at hcompare
  simp only [slots_all_iff] at hcompare
  rw [walksAgree_iff_perm hprint hget, hcompare]
  exact ⟨fun ⟨hchain, hside, htail, honce⟩ => ⟨hchain, hside, htail, honce⟩,
    fun h => ⟨h.chain, h.side, h.tail, h.once⟩⟩

/-- A primary partition, and a logical one in a record at sector 1. -/
def primaryAndLogical : DosDev :=
  twoSectors [(446, 0x80), (450, 0x83), (454, 10), (458, 5), (466, 5), (470, 1), (510, 0x55),
    (511, 0xaa), (962, 0x83), (966, 2), (970, 3), (1022, 0x55), (1023, 0xaa)]

theorem primaryAndLogical_finished : Finished (getNext primaryAndLogical) 2 ⟨0, 0⟩ := by
  have hfirst : getNext primaryAndLogical ⟨0, 0⟩ = [⟨1, 1⟩] := by decide +kernel
  have hlast : getNext primaryAndLogical ⟨1, 1⟩ = [] := by decide +kernel
  simp [Finished, hfirst, hlast]

theorem primaryAndLogical_agree : WalksAgree primaryAndLogical 2 :=
  (walksAgree_iff primaryAndLogical 2 (by decide +kernel)
    fun _ => getPartitionInfoExtended_isSome primaryAndLogical_finished).2
      ⟨by decide +kernel, by decide +kernel, by decide +kernel, by decide +kernel⟩

/-- An MBR with two partitions; only the boot indicator of the first is tested by the listing. -/
def badSecondIndicator : DosDev :=
  twoSectors [(450, 0x83), (454, 1), (458, 1), (462, 1), (466, 0x83), (470, 2), (474, 1),
    (510, 0x55), (511, 0xaa)]

/-- Partition 2 is listed and not found. -/
theorem bad_second_indicator_disagrees : ¬ ∀ (d : DosDev) (fuel : ℕ), (printPartDos d fuel).isSome →
    (∀ part : ℤ, (getPartitionInfoDos d fuel part).isSome) → WalksAgree d fuel := by
  intro h
  have hnone : getNext badSecondIndicator ⟨0, 0⟩ = [] := by decide +kernel
  have hprint : (printPartDos badSecondIndicator 1).isSome := by decide +kernel
  have hget (part : ℤ) : (getPartitionInfoDos badSecondIndicator 1 part).isSome :=
    getPartitionInfoExtended_isSome (by simp [Finished, hnone])
  have hperm := (walksAgree_iff_perm hprint hget).1 (h badSecondIndicator 1 hprint hget)
  exact absurd hperm (by decide +kernel)

end UBoot.Disk
