import UBoot.Disk.Bounds
import UBoot.Flash.Partition
import UBoot.Library.Machine

/-!
# Looking a partition up by name

With `CONFIG_EFI_PARTITION`, `partition_find_by_name` and `flash_partition_start_find`
ask `gpt_find_part_by_name`, which returns 1 for a hit, 0 for a miss and -1 if there is
no valid table, and both take every value other than 0 for a hit. The record they then
hand out is static: it holds what an earlier lookup left there.
-/
namespace UBoot.Disk
open ByteStore Flash

/-- The `static struct partition part` of the two functions. -/
structure Statics where
  byName : PartRecord
  startFind : PartRecord

/-- The records at power-on. -/
def Statics.initial : Statics := ⟨⟨0, 0, 0⟩, ⟨0, 0, 0⟩⟩

section Functions
variable (env : Surroundings) (d : BlockDevDesc)

/-- `partition_find_by_name`. -/
def partitionFindByNameEfi (name : Option (List UInt8)) (st : Statics) :
    Option PartRecord × Statics :=
  match name with
  | none => (none, st)
  | some name =>
    let r := (gptFindPartByName env d (some name) st.byName).1
    (if r.1 ≠ 0 then some r.2 else none, { st with byName := r.2 })

/-- `flash_partition_start_find`, its `int` as a 32-bit word; 1 is its "not found". -/
def flashPartitionStartFind (name : Option (List UInt8)) (st : Statics) : ℕ × Statics :=
  let r := (gptFindPartByName env d name st.startFind).1
  (if r.1 ≠ 0 then r.2.start else 1, { st with startFind := r.2 })

/-- `CONFIG_PARTITION_USERDATA`. -/
def partitionUserdata : List UInt8 := "userdata".toUTF8.toList

/-- `flash_partition_fixup`: it changes the length through the pointer to the record. -/
def flashPartitionFixup (capacity : ℕ) (st : Statics) : Statics :=
  let r := partitionFindByNameEfi env d (some partitionUserdata) st
  match r.1 with
  | none => r.2
  | some pt =>
    let mb := capacity / 1024 / 1024
    { r.2 with byName := { pt with length := u32 (mb * 1024 * 2 + 2 ^ 32 - pt.start) } }

end Functions

/-- The start of `flash_partition_*` and `flash_block_*`: without a partition they put an
error code and return, with one they go on. -/
def withPartition {α δ : Type} (found : Option α) (body : α → Session δ → ℤ × Session δ)
    (s : Session δ) : ℤ × Session δ :=
  match found with
  | none => (eInval, s.putError "40001")
  | some pt => body pt s

/-- A lookup, or the correction made at start-up. -/
inductive LookupCall where
  | findByName (env : Surroundings) (d : BlockDevDesc) (name : Option (List UInt8))
  | startFind (env : Surroundings) (d : BlockDevDesc) (name : Option (List UInt8))
  | fixup (env : Surroundings) (d : BlockDevDesc) (capacity : ℕ)

/-- The static records over a history of lookups, each on a device of its own. -/
def lookups : Machine Statics LookupCall Unit where
  step st call :=
    ((), match call with
      | .findByName env d name => (partitionFindByNameEfi env d name st).2
      | .startFind env d name => (flashPartitionStartFind env d name st).2
      | .fixup env d capacity => flashPartitionFixup env d capacity st)

/-- `e` is the first in-use entry of that name in the table that is accepted. -/
def NamedEntry (env : Surroundings) (d : BlockDevDesc) (name : Option (List UInt8)) (e : Mem) :
    Prop :=
  ∃ n g i, name = some n ∧ (isGptValid env d gptPrimaryPartitionTableLba).1 = some g ∧
    IsFirst (fun e => isPteValid e = true ∧ printEfiname e = n) g.pte g.num i ∧
    e = element g.pte i

/-- The blocks of an entry, both ends included, as a `ulong`. -/
def entryLength (e : Mem) : ℕ := u32 (Entry.endingLba.get e + 1 + 2 ^ 32 - Entry.startingLba.get e)

/-- The operations leave the device alone. -/
def NothingWritten (found : Option PartRecord) : Prop :=
  ∀ (δ : Type) (body : PartRecord → Session δ → ℤ × Session δ) (s : Session δ),
    (withPartition found body s).2.dev = s.dev ∧
      (withPartition found body s).2.requests = s.requests

/-- `partition_find_by_name` finds the entry of that name, and nothing if there is none. -/
structure FindLaw (env : Surroundings) (d : BlockDevDesc) (name : Option (List UInt8))
    (st : Statics) : Prop where
  found : ∀ e, NamedEntry env d name e → ∃ pt, (partitionFindByNameEfi env d name st).1 = some pt ∧
    pt.start = Entry.startingLba.get e ∧ pt.length = entryLength e
  notFound : (∀ e, ¬ NamedEntry env d name e) → (partitionFindByNameEfi env d name st).1 = none ∧
    NothingWritten (partitionFindByNameEfi env d name st).1

/-- The same of `flash_partition_start_find`. -/
structure StartLaw (env : Surroundings) (d : BlockDevDesc) (name : Option (List UInt8))
    (st : Statics) : Prop where
  found : ∀ e, NamedEntry env d name e →
    (flashPartitionStartFind env d name st).1 = Entry.startingLba.get e ∧
      (flashPartitionStartFind env d name st).1 ≠ 1
  notFound : (∀ e, ¬ NamedEntry env d name e) → (flashPartitionStartFind env d name st).1 = 1

/-- The table is accepted, and `p` holds of the first entry that bears the name, in use
or not. -/
def FirstBearer (env : Surroundings) (d : BlockDevDesc) (n : List UInt8) (p : Mem → Prop) : Prop :=
  ∃ g, (isGptValid env d gptPrimaryPartitionTableLba).1 = some g ∧
    ∀ i, IsFirst (printEfiname · = n) g.pte g.num i → p (element g.pte i)

/-- When `partition_find_by_name` is right: no name was given, or there is a valid table
whose first entry of the name is in use (or has the extent of one that is). -/
def FindSafe (env : Surroundings) (d : BlockDevDesc) (name : Option (List UInt8)) : Prop :=
  ∀ n, name = some n → FirstBearer env d n fun e => isPteValid e = true ∨
    ∃ e', NamedEntry env d name e' ∧ Entry.startingLba.get e' = Entry.startingLba.get e ∧
      entryLength e' = entryLength e

/-- When `flash_partition_start_find` is right: the same of the start, which must not be
the "not found" value; or that value is what the unused entry or the record holds. -/
def StartSafe (env : Surroundings) (d : BlockDevDesc) (name : Option (List UInt8))
    (st : Statics) : Prop :=
  (∃ n, name = some n ∧ FirstBearer env d n fun e =>
    ((isPteValid e = true ∨
      ∃ e', NamedEntry env d name e' ∧ Entry.startingLba.get e' = Entry.startingLba.get e) ∧
        Entry.startingLba.get e ≠ 1) ∨
    ((∀ e', ¬ NamedEntry env d name e') ∧ Entry.startingLba.get e = 1)) ∨
  ((name = none ∨ (isGptValid env d gptPrimaryPartitionTableLba).1 = none) ∧
    st.startFind.start = 1)

/-- Every LBA in the entries of an accepted table is below 2^32. -/
def LbasBelow (env : Surroundings) (d : BlockDevDesc) : Prop :=
  ∀ g, (isGptValid env d gptPrimaryPartitionTableLba).1 = some g → ∀ i < g.num,
    Entry.startingLba.get (element g.pte i) < 2 ^ 32 ∧
      Entry.endingLba.get (element g.pte i) < 2 ^ 32

variable {env : Surroundings} {d : BlockDevDesc} {n : List UInt8}

theorem NothingWritten.none : NothingWritten none := by
  intro δ body s
  exact ⟨rfl, rfl⟩

theorem NamedEntry.unique {name : Option (List UInt8)} {e e' : Mem} (h : NamedEntry env d name e)
    (h' : NamedEntry env d name e') : e = e' := by
  obtain ⟨n, g, i, rfl, hg, hi, rfl⟩ := h
  obtain ⟨m, g', j, hm, hg', hj, rfl⟩ := h'
  obtain rfl : n = m := by simpa using hm
  obtain rfl : g = g' := by simpa [hg] using hg'
  rw [hi.unique hj]

/-- The start and the length that are read off an entry are its own. -/
theorem partRecord_eq (d : BlockDevDesc) {e : Mem} (hstart : Entry.startingLba.get e < 2 ^ 32)
    (hend : Entry.endingLba.get e < 2 ^ 32) :
    partRecord d e = ⟨d.blksz, Entry.startingLba.get e, entryLength e⟩ := by
  have hu : u32 (Entry.startingLba.get e) = Entry.startingLba.get e := u32_of_lt hstart
  unfold partRecord sizeField entryLength
  simp only [hu, PartRecord.mk.injEq, true_and]
  unfold u32 u64
  omega

/-- The three outcomes of `gpt_find_part_by_name`. -/
theorem gptFindPartByName_cases (env : Surroundings) (d : BlockDevDesc) (n : List UInt8)
    (part : PartRecord) :
    ((isGptValid env d gptPrimaryPartitionTableLba).1 = none ∧
      (gptFindPartByName env d (some n) part).1 = (-1, part)) ∨
    ∃ g, (isGptValid env d gptPrimaryPartitionTableLba).1 = some g ∧
      ((∃ i, IsFirst (printEfiname · = n) g.pte g.num i ∧
          (gptFindPartByName env d (some n) part).1 = (1, partRecord d (element g.pte i))) ∨
        ((∀ i < g.num, printEfiname (element g.pte i) ≠ n) ∧
          (gptFindPartByName env d (some n) part).1 = (0, part))) := by
  unfold gptFindPartByName
  rcases isGptValid env d gptPrimaryPartitionTableLba with ⟨_ | g, log⟩
  · exact .inl ⟨rfl, rfl⟩
  · have hspec := findLoop_spec n g.pte g.num 0 (by simp)
    refine .inr ⟨g, rfl, ?_⟩
    dsimp only
    cases hfind : (findLoop n g.pte g.num 0).1 with
    | some i =>
      rw [hfind] at hspec
      exact .inl ⟨i, by simpa using hspec, rfl⟩
    | none =>
      rw [hfind] at hspec
      exact .inr ⟨by simpa using hspec, rfl⟩

theorem not_namedEntry_of_rejected
    (h : (isGptValid env d gptPrimaryPartitionTableLba).1 = none) (name : Option (List UInt8))
    (e : Mem) : ¬ NamedEntry env d name e := by
  rintro ⟨-, g, -, -, hg, -, -⟩
  simp [h] at hg

theorem not_namedEntry_of_no_bearer {g : Gpt}
    (hg : (isGptValid env d gptPrimaryPartitionTableLba).1 = some g)
    (h : ∀ i < g.num, printEfiname (element g.pte i) ≠ n) (e : Mem) :
    ¬ NamedEntry env d (some n) e := by
  rintro ⟨m, g', i, hm, hg', hi, -⟩
  obtain rfl : n = m := by simpa using hm
  obtain rfl : g = g' := by simpa [hg] using hg'
  exact h i hi.1 hi.2.1.2

/-- The first entry of the name is the one to be found if it is in use. -/
theorem namedEntry_of_valid {g : Gpt} {i : ℕ}
    (hg : (isGptValid env d gptPrimaryPartitionTableLba).1 = some g)
    (hi : IsFirst (printEfiname · = n) g.pte g.num i)
    (hvalid : isPteValid (element g.pte i) = true) :
    NamedEntry env d (some n) (element g.pte i) :=
  ⟨n, g, i, rfl, hg, ⟨hi.1, ⟨hvalid, hi.2.1⟩, fun j hj h => hi.2.2 j hj h.2⟩, rfl⟩

/-- An accepted table determines what `FirstBearer` is about. -/
theorem firstBearer_iff {g : Gpt} {i : ℕ} {p : Mem → Prop}
    (hg : (isGptValid env d gptPrimaryPartitionTableLba).1 = some g)
    (hi : IsFirst (printEfiname · = n) g.pte g.num i) :
    FirstBearer env d n p ↔ p (element g.pte i) := by
  constructor
  · rintro ⟨g', hg', h⟩
    obtain rfl : g = g' := by simpa [hg] using hg'
    exact h i hi
  · intro h
    refine ⟨g, hg, fun j hj => ?_⟩
    rwa [hj.unique hi]

theorem findLaw_none (st : Statics) : FindLaw env d none st := by
  constructor
  · rintro e ⟨n, g, i, hn, -⟩
    simp at hn
  · intro _
    exact ⟨rfl, NothingWritten.none⟩

theorem findLaw_iff (hlba : LbasBelow env d) (name : Option (List UInt8)) (st : Statics) :
    FindLaw env d name st ↔ FindSafe env d name := by
  cases name with
  | none => exact iff_of_true (findLaw_none st) (by simp [FindSafe])
  | some n =>
    have hsafe : FindSafe env d (some n) ↔ FirstBearer env d n fun e => isPteValid e = true ∨
        ∃ e', NamedEntry env d (some n) e' ∧
          Entry.startingLba.get e' = Entry.startingLba.get e ∧
          entryLength e' = entryLength e := by
      simp [FindSafe]
    rw [hsafe]
    rcases gptFindPartByName_cases env d n st.byName with ⟨hrej, hres⟩ | ⟨g, hg, h⟩
    · -- no valid table: the static record is handed out
      have hfind : (partitionFindByNameEfi env d (some n) st).1 = some st.byName := by
        simp [partitionFindByNameEfi, hres]
      refine iff_of_false (fun h => ?_) ?_
      · have := (h.notFound (not_namedEntry_of_rejected hrej _)).1
        simp [hfind] at this
      · rintro ⟨g, hg, -⟩
        simp [hrej] at hg
    rcases h with ⟨i, hi, hres⟩ | ⟨hmiss, hres⟩
    · obtain ⟨hstart, hend⟩ := hlba g hg i hi.1
      have hfind : (partitionFindByNameEfi env d (some n) st).1 =
          some ⟨d.blksz, Entry.startingLba.get (element g.pte i),
            entryLength (element g.pte i)⟩ := by
        simp [partitionFindByNameEfi, hres, partRecord_eq d hstart hend]
      rw [firstBearer_iff hg hi]
      constructor
      · intro h
        by_cases hvalid : isPteValid (element g.pte i) = true
        · exact .inl hvalid
        right
        by_contra hnone
        have hno : ∀ e, ¬ NamedEntry env d (some n) e := by
          intro e he
          obtain ⟨pt, hpt, hs, hl⟩ := h.found e he
          obtain rfl : _ = pt := by simpa [hfind] using hpt
          exact hnone ⟨e, he, hs.symm, hl.symm⟩
        have := (h.notFound hno).1
        simp [hfind] at this
      · intro h
        obtain ⟨e', he', hs', hl'⟩ : ∃ e', NamedEntry env d (some n) e' ∧
            Entry.startingLba.get e' = Entry.startingLba.get (element g.pte i) ∧
            entryLength e' = entryLength (element g.pte i) := by
          rcases h with hvalid | h
          · exact ⟨_, namedEntry_of_valid hg hi hvalid, rfl, rfl⟩
          · exact h
        constructor
        · intro e he
          obtain rfl := he.unique he'
          exact ⟨_, hfind, hs'.symm, hl'.symm⟩
        · intro hno
          exact absurd he' (hno e')
    · have hfind : (partitionFindByNameEfi env d (some n) st).1 = none := by
        simp [partitionFindByNameEfi, hres]
      refine iff_of_true ⟨fun e he => ?_, fun _ => ?_⟩ ⟨g, hg, fun i hi => ?_⟩
      · exact absurd he (not_namedEntry_of_no_bearer hg hmiss e)
      · rw [hfind]
        exact ⟨rfl, NothingWritten.none⟩
      · exact absurd hi.2.1 (hmiss i hi.1)

/-- Without a valid table, or without a name, the start left in the record is returned. -/
theorem flashPartitionStartFind_of_failure {name : Option (List UInt8)} (st : Statics)
    (h : name = none ∨ (isGptValid env d gptPrimaryPartitionTableLba).1 = none) :
    (flashPartitionStartFind env d name st).1 = st.startFind.start ∧
      ∀ e, ¬ NamedEntry env d name e := by
  cases name with
  | none =>
    refine ⟨by simp [flashPartitionStartFind, gptFindPartByName], ?_⟩
    rintro e ⟨n, g, i, hn, -⟩
    simp at hn
  | some n =>
    have hrej : (isGptValid env d gptPrimaryPartitionTableLba).1 = none := by simpa using h
    refine ⟨?_, not_namedEntry_of_rejected hrej _⟩
    rcases gptFindPartByName_cases env d n st.startFind with ⟨-, hres⟩ | ⟨g, hg, -⟩
    · simp [flashPartitionStartFind, hres]
    · simp [hrej] at hg

/-- `StartSafe` where there is a table. -/
theorem startSafe_iff_firstBearer {g : Gpt} (st : Statics)
    (hg : (isGptValid env d gptPrimaryPartitionTableLba).1 = some g) :
    StartSafe env d (some n) st ↔ FirstBearer env d n fun e =>
      ((isPteValid e = true ∨
        ∃ e', NamedEntry env d (some n) e' ∧
          Entry.startingLba.get e' = Entry.startingLba.get e) ∧ Entry.startingLba.get e ≠ 1) ∨
      ((∀ e', ¬ NamedEntry env d (some n) e') ∧ Entry.startingLba.get e = 1) := by
  simp [StartSafe, hg]

theorem startLaw_iff (hlba : LbasBelow env d) (name : Option (List UInt8)) (st : Statics) :
    StartLaw env d name st ↔ StartSafe env d name st := by
  by_cases hfail : name = none ∨ (isGptValid env d gptPrimaryPartitionTableLba).1 = none
  · obtain ⟨hret, hno⟩ := flashPartitionStartFind_of_failure st hfail
    constructor
    · intro h
      exact .inr ⟨hfail, by rw [← hret]; exact h.notFound hno⟩
    · rintro (⟨n, rfl, g, hg, -⟩ | ⟨-, hone⟩)
      · simp [hg] at hfail
      · exact ⟨fun e he => absurd he (hno e), fun _ => by rw [hret, hone]⟩
  obtain ⟨n, rfl⟩ : ∃ n, name = some n := by
    cases name with
    | none => simp at hfail
    | some n => exact ⟨n, rfl⟩
  rcases gptFindPartByName_cases env d n st.startFind with ⟨hrej, -⟩ | ⟨g, hg, h⟩
  · simp [hrej] at hfail
  rw [startSafe_iff_firstBearer st hg]
  rcases h with ⟨i, hi, hres⟩ | ⟨hmiss, hres⟩
  · obtain ⟨hstart, hend⟩ := hlba g hg i hi.1
    have hret : (flashPartitionStartFind env d (some n) st).1 =
        Entry.startingLba.get (element g.pte i) := by
      simp [flashPartitionStartFind, hres, partRecord_eq d hstart hend]
    rw [firstBearer_iff hg hi]
    by_cases hnamed : ∃ e, NamedEntry env d (some n) e
    · obtain ⟨e, he⟩ := hnamed
      have hiff : StartLaw env d (some n) st ↔ Entry.startingLba.get e =
          Entry.startingLba.get (element g.pte i) ∧
            Entry.startingLba.get (element g.pte i) ≠ 1 := by
        constructor
        · intro h
          obtain ⟨h₁, h₂⟩ := h.found e he
          rw [hret] at h₁ h₂
          exact ⟨h₁.symm, h₂⟩
        · rintro ⟨h₁, h₂⟩
          refine ⟨fun e' he' => ?_, fun hno => absurd he (hno e)⟩
          rw [he'.unique he, hret]
          exact ⟨h₁.symm, h₂⟩
      rw [hiff]
      constructor
      · rintro ⟨h₁, h₂⟩
        exact .inl ⟨.inr ⟨e, he, h₁⟩, h₂⟩
      · rintro (⟨hvalid | ⟨e', he', h₁⟩, h₂⟩ | ⟨hno, -⟩)
        · rw [he.unique (namedEntry_of_valid hg hi hvalid)]
          exact ⟨rfl, h₂⟩
        · rw [he.unique he']
          exact ⟨h₁, h₂⟩
        · exact absurd he (hno e)
    · have hno : ∀ e, ¬ NamedEntry env d (some n) e := fun e he => hnamed ⟨e, he⟩
      constructor
      · intro h
        exact .inr ⟨hno, by rw [← hret]; exact h.notFound hno⟩
      · rintro (⟨hvalid | ⟨e', he', -⟩, -⟩ | ⟨-, hone⟩)
        · exact absurd (namedEntry_of_valid hg hi hvalid) (hno _)
        · exact absurd he' (hno e')
        · exact ⟨fun e he => absurd he (hno e), fun _ => by rw [hret, hone]⟩
  · have hret : (flashPartitionStartFind env d (some n) st).1 = 1 := by
      simp [flashPartitionStartFind, hres]
    refine iff_of_true ⟨fun e he => ?_, fun _ => hret⟩ ⟨g, hg, fun i hi => ?_⟩
    · exact absurd he (not_namedEntry_of_no_bearer hg hmiss e)
    · exact absurd hi.2.1 (hmiss i hi.1)

/-- After every history of lookups, each of the two functions does what its name says if
and only if the table, the name and (for the second) the record are safe for it. -/
theorem lookup_lawful_iff (history : List LookupCall) (env : Surroundings) (d : BlockDevDesc)
    (name : Option (List UInt8)) (hlba : LbasBelow env d) :
    (FindLaw env d name (lookups.run Statics.initial history) ↔ FindSafe env d name) ∧
      (StartLaw env d name (lookups.run Statics.initial history) ↔
        StartSafe env d name (lookups.run Statics.initial history)) :=
  ⟨findLaw_iff hlba name _, startLaw_iff hlba name _⟩

/-- An entry of the basic data type named "boot", blocks 34 to 43. -/
def bootEntry : Mem :=
  let e := overlay (fun _ => 0) Entry.partitionTypeGuid 16
    (ofList [0xA2, 0xA0, 0xD0, 0xEB, 0xE5, 0xB9, 0x33, 0x44, 0x87, 0xC0, 0x68, 0xB6, 0xB7, 0x26,
      0x99, 0xC7])
  let e := Entry.startingLba.put e 34
  let e := Entry.endingLba.put e 43
  overlay e (Entry.partitionName 0).off 8 (ofList [98, 0, 111, 0, 111, 0, 116, 0])

/-- A disk whose table has that entry. -/
def bootDisk : BlockDevDesc :=
  let d := blankDisk (blankHeader 1 128 0x30251d08 0x872e68a1)
  { d with bytes := overlay d.bytes 1024 sizeofGptEntry bootEntry }

/-- The same disk when its header block cannot be read. -/
def unreadableDisk : BlockDevDesc := { bootDisk with reads := fun start _ => start ≠ 1 }

def bootName : List UInt8 := [98, 111, 111, 116]

set_option maxRecDepth 10000 in
theorem bootDisk_entry_computed : (isGptValid calm bootDisk 1).1.any (fun g => g.num = 1 ∧
    isPteValid (element g.pte 0) = true ∧ Entry.startingLba.get (element g.pte 0) = 34 ∧
    Entry.endingLba.get (element g.pte 0) = 43) = true := by
  decide +kernel

/-- The table of the disk has one entry, in use, of blocks 34 to 43. -/
theorem bootDisk_entry : ∃ g, (isGptValid calm bootDisk 1).1 = some g ∧ g.num = 1 ∧
    isPteValid (element g.pte 0) = true ∧ Entry.startingLba.get (element g.pte 0) = 34 ∧
    Entry.endingLba.get (element g.pte 0) = 43 := by
  obtain ⟨g, hg, hentry⟩ := (Option.any_eq_true _ _).mp bootDisk_entry_computed
  exact ⟨g, hg, of_decide_eq_true hentry⟩

theorem bootDisk_lbasBelow : LbasBelow calm bootDisk := by
  intro g hg i hi
  obtain ⟨g', hg', hnum, -, hstart, hend⟩ := bootDisk_entry
  obtain rfl : g' = g := Option.some.inj (hg'.symm.trans hg)
  obtain rfl : i = 0 := by omega
  omega

/-- The entry is in use and does not start at block 1, so both lookups are right. -/
theorem lookup_lawful_iff_bootDisk : FindLaw calm bootDisk (some bootName) Statics.initial ∧
    StartLaw calm bootDisk (some bootName) Statics.initial := by
  obtain ⟨g, hg, hnum, hvalid, hstart, -⟩ := bootDisk_entry
  have hzero (i : ℕ) (hi : i < g.num) : i = 0 := by omega
  obtain ⟨hfind, hstartFind⟩ :=
    lookup_lawful_iff [] calm bootDisk (some bootName) bootDisk_lbasBelow
  refine ⟨hfind.mpr fun n _ => ⟨g, hg, fun i hi => .inl ?_⟩,
    hstartFind.mpr (.inl ⟨bootName, rfl, g, hg, fun i hi => .inl ⟨.inl ?_, ?_⟩⟩)⟩
  · rw [hzero i hi.1, hvalid]
  · rw [hzero i hi.1, hvalid]
  · rw [hzero i hi.1, hstart]
    decide

/-- The records after "boot" was found once. -/
def afterBoot : Statics := lookups.run Statics.initial [.findByName calm bootDisk (some bootName)]

set_option maxRecDepth 10000 in
theorem afterBoot_byName : afterBoot.byName = ⟨512, 34, 10⟩ := by
  decide +kernel

/-- When the header can no longer be read, the partition found before is found again. -/
theorem stale_partition_is_found :
    (partitionFindByNameEfi calm unreadableDisk (some bootName) afterBoot).1 =
        some ⟨512, 34, 10⟩ ∧
      ¬ FindLaw calm unreadableDisk (some bootName) afterBoot := by
  have hvalid : isGptValid calm unreadableDisk gptPrimaryPartitionTableLba = (none, []) := rfl
  have hfind : (partitionFindByNameEfi calm unreadableDisk (some bootName) afterBoot).1 =
      some ⟨512, 34, 10⟩ := by
    simp [partitionFindByNameEfi, gptFindPartByName, hvalid, afterBoot_byName]
  refine ⟨hfind, fun h => ?_⟩
  have hnone := (h.notFound (not_namedEntry_of_rejected (by rw [hvalid]) _)).1
  simp [hfind] at hnone

end UBoot.Disk
