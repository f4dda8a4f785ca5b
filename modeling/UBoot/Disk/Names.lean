import UBoot.Disk.Entries

/-!
# The names of the partitions

A name has 36 units in an entry and 32 bytes in a `disk_partition_t`. Both directions go by the
36: `sprintf` writes as many characters as there are, and the loop of `gpt_fill_pte` reads as
many bytes as there are units.
-/
namespace UBoot.Disk
open ByteStore

/-- The array `name` of `disk_partition_t` and its size. -/
def diskPartitionName : ℕ := 12
def sizeofName : ℕ := 32

/-- `sprintf(str, "%s", s)`, with the addresses it writes. -/
def sprintfString (m : Mem) (str : ℕ) (s : List UInt8) : Mem × List ℕ :=
  (overlay m str (s.length + 1) (ofList (s ++ [0])), (List.range (s.length + 1)).map (str + ·))

/-- `get_partition_info_efi`, the copy of the name of an entry. -/
def copyName (info e : Mem) : Mem × List ℕ :=
  sprintfString info diskPartitionName (printEfiname e)

/-- One step of the loop that fills the name of an entry, with the index read. -/
def convertStep (name : Mem) (s : Mem × List ℕ) (k : ℕ) : Mem × List ℕ :=
  ((Entry.partitionName k).put s.1 (name k).toNat, s.2 ++ [k])

/-- `gpt_fill_pte`, the conversion of the name of a partition. -/
def convertName (name e : Mem) : Mem × List ℕ :=
  (List.range partnameSz).foldl (convertStep name) (e, [])

/-- The two uses of a name. -/
inductive NameUse where
  | copy (info e : Mem)
  | convert (p : DiskPartition) (e : Mem)

/-- A copy writes at most the array of the name, a conversion reads nothing but that array and
fills the 36 units of the entry and nothing else. -/
def NameUse.Inside : NameUse → Prop
  | copy info e => ∀ a ∈ (copyName info e).2,
      diskPartitionName ≤ a ∧ a < diskPartitionName + sizeofName
  | convert p e => (∀ k ∈ (convertName p.name e).2, k < sizeofName) ∧
      (∀ k < partnameSz, (Entry.partitionName k).get (convertName p.name e).1 =
        (p.name k).toNat) ∧
      ∀ a, a < 56 ∨ sizeofGptEntry ≤ a → (convertName p.name e).1 a = e a

/-- One of the first 32 units is 0 in its low byte. -/
def EndsIn32 (e : Mem) : Prop := ∃ k < sizeofName, (Entry.partitionName k).get e % 256 = 0

/-- When the bounds are kept: a copy of a short name, and no conversion. -/
def NameUse.Fits : NameUse → Prop
  | copy _ e => EndsIn32 e
  | convert _ _ => False

theorem length_takeWhile_lt_iff {α : Type*} {p : α → Bool} {l : List α} {n : ℕ}
    (hn : n ≤ l.length) :
    (l.takeWhile p).length < n ↔ ∃ k < n, ∃ x, l[k]? = some x ∧ p x = false := by
  induction l generalizing n with
  | nil =>
    obtain rfl : n = 0 := Nat.le_zero.mp hn
    simp
  | cons x l ih =>
    cases n with
    | zero => simp
    | succ n =>
      rw [List.takeWhile_cons]
      cases hx : p x with
      | false => simpa using ⟨0, by simp, x, rfl, hx⟩
      | true =>
        rw [if_pos rfl, List.length_cons, Nat.succ_lt_succ_iff, ih (Nat.succ_le_succ_iff.mp hn)]
        constructor
        · rintro ⟨k, hk, y, hy, hpy⟩
          exact ⟨k + 1, Nat.succ_lt_succ hk, y, hy, hpy⟩
        · rintro ⟨k, hk, y, hy, hpy⟩
          cases k with
          | zero =>
            obtain rfl : x = y := by simpa using hy
            rw [hx] at hpy
            exact absurd hpy (by decide)
          | succ k => exact ⟨k, Nat.succ_lt_succ_iff.mp hk, y, hy, hpy⟩

/-- `c = (c && !isprint(c)) ? '.' : c` is 0 for 0 only. -/
theorem dotted_eq_zero_iff (c : UInt8) :
    (if c ≠ 0 ∧ ¬ isprint c = true then (46 : UInt8) else c) = 0 ↔ c = 0 := by
  split
  · next h => exact iff_of_false (by decide) h.1
  · exact Iff.rfl

theorem copy_inside_iff (info e : Mem) : (NameUse.copy info e).Inside ↔ EndsIn32 e := by
  have hlen : (printEfiname e).length < sizeofName ↔ EndsIn32 e := by
    rw [printEfiname, length_takeWhile_lt_iff (by simp [sizeofName, partnameSz])]
    refine exists_congr fun k => and_congr_right fun hk => ?_
    have hk36 : k < partnameSz := hk.trans (by decide)
    have hunit : UInt8.ofNat ((Entry.partitionName k).get e % 256) = 0 ↔
        (Entry.partitionName k).get e % 256 = 0 := by
      rw [← UInt8.toNat_inj, UInt8.toNat_ofNat']
      simp
    rw [List.getElem?_map, List.getElem?_range hk36, ← hunit, ← dotted_eq_zero_iff]
    simp
  rw [← hlen]
  constructor
  · intro h
    have hlast := h (diskPartitionName + (printEfiname e).length)
      (List.mem_map_of_mem (List.mem_range.mpr (Nat.lt_succ_self _)))
    omega
  · intro h a ha
    obtain ⟨i, hi, rfl⟩ := List.mem_map.mp ha
    have := List.mem_range.mp hi
    omega

theorem foldl_convertStep (name e : Mem) (log : List ℕ) (ks : List ℕ) :
    ks.foldl (convertStep name) (e, log) =
      (ks.foldl (fun e k => (Entry.partitionName k).put e (name k).toNat) e, log ++ ks) := by
  induction ks generalizing e log with
  | nil => simp
  | cons k ks ih => simp [convertStep, ih]

/-- The conversion is the loop of `fillEntry`, and reads byte after byte. -/
theorem convertName_eq (name e : Mem) :
    convertName name e = (fillName name partnameSz e, List.range partnameSz) :=
  foldl_convertStep name e [] (List.range partnameSz)

theorem fillName_above {name e : Mem} {a : ℕ} {n : ℕ} (hn : n ≤ partnameSz)
    (ha : sizeofGptEntry ≤ a) : fillName name n e a = e a := by
  induction n with
  | zero => rfl
  | succ n ih =>
    unfold sizeofGptEntry at ha
    unfold partnameSz at hn
    rw [fillName_succ, Field.put, overlay_of_not_mem _ _ (by simp [Entry.partitionName]; omega)]
    exact ih (by unfold partnameSz; omega)

/-- A conversion fills the units and nothing else. -/
theorem convertName_units (name e : Mem) :
    (∀ k < partnameSz, (Entry.partitionName k).get (convertName name e).1 = (name k).toNat) ∧
      ∀ a, a < 56 ∨ sizeofGptEntry ≤ a → (convertName name e).1 a = e a := by
  rw [convertName_eq]
  refine ⟨fun k hk => get_fillName _ _ hk, fun a ha => ?_⟩
  rcases ha with ha | ha
  · exact fillName_apply _ _ _ ha
  · exact fillName_above le_rfl ha

theorem convert_outside (p : DiskPartition) (e : Mem) : ¬ (NameUse.convert p e).Inside := by
  intro h
  have hread := h.1 sizeofName (by rw [convertName_eq]; exact List.mem_range.mpr (by decide))
  exact lt_irrefl _ hread

/-- The bounds of the arrays are kept by a copy exactly when a low byte among the first 32 units
is 0, and by no conversion. -/
theorem nameUse_inside_iff (u : NameUse) : u.Inside ↔ u.Fits := by
  cases u with
  | copy info e => exact copy_inside_iff info e
  | convert p e => exact iff_of_false (convert_outside p e) id

/-- An entry with 36 letters. -/
def fullName : Mem := fun a => if a < 56 then 0 else if a % 2 = 0 then 97 else 0

/-- The copy of a name of 36 letters overruns the array. -/
theorem full_name_overruns : ¬ ∀ u : NameUse, u.Inside := by
  intro h
  have hshort := (copy_inside_iff zeroed fullName).mp (h (.copy zeroed fullName))
  exact absurd hshort (by unfold EndsIn32; decide)

end UBoot.Disk
