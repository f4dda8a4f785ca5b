import UBoot.Library.PackedField

/-!
# Refreshing the tables of the memory controller

`memctl_refresh_initdatas` and `memctl_refresh_dqsdatas` set the value of the entries for a
register. Their lengths are `sizeof` the tables, and the loops count entries up to them: they
walk eight times as far as the table goes, and set the value of whatever looks like an entry
for the register there.
-/
namespace UBoot.Board
open ByteStore

/-- `sizeof(struct memctl_data)`. -/
def memctlEntrySize : ℕ := 8

/-- The field `reg` of entry `i` of the table at `base`. -/
def entryReg (base i : ℕ) : ByteStore.Field := ⟨base + memctlEntrySize * i, 4⟩

/-- The field `val` of entry `i` of the table at `base`. -/
def entryVal (base i : ℕ) : ByteStore.Field := ⟨base + memctlEntrySize * i + 4, 4⟩

/-- The memory and the result of a refresh, and the addresses of the entries it looked at. -/
structure Refresh where
  mem : Mem
  ret : ℤ
  visited : List ℕ

section Functions
variable (reg val mask : BitVec 32)

/-- `val &= ~mask; val |= val` for one entry. -/
def refreshVal (f : ByteStore.Field) (mem : Mem) : Mem :=
  let mem := f.put mem (BitVec.ofNat 32 (f.get mem) &&& ~~~mask).toNat
  f.put mem (BitVec.ofNat 32 (f.get mem) ||| val).toNat

/-- The body of the loops. -/
def refreshEntry (base : ℕ) (r : Refresh) (i : ℕ) : Refresh :=
  let visited := r.visited ++ [base + memctlEntrySize * i]
  if reg.toNat = (entryReg base i).get r.mem then
    ⟨refreshVal val mask (entryVal base i) r.mem, 0, visited⟩
  else { r with visited := visited }

/-- `memctl_refresh_initdatas`, for the table at `memctl_init_datas`. -/
def memctlRefreshInitdatas (memctlInitDatas memctlInitDatasLength : ℕ) (mem : Mem) : Refresh :=
  (List.range memctlInitDatasLength).foldl (refreshEntry reg val mask memctlInitDatas)
    ⟨mem, -1, []⟩

/-- `memctl_refresh_dqsdatas`, for the tables at `memctl0_dqs` and `memctl1_dqs`. -/
def memctlRefreshDqsdatas (memctl0Dqs memctl1Dqs memctlDqsLength id : ℕ) (mem : Mem) : Refresh :=
  let dqsdata := if id ≠ 0 then memctl1Dqs else memctl0Dqs
  (List.range memctlDqsLength).reverse.foldl (refreshEntry reg val mask dqsdata) ⟨mem, -1, []⟩

end Functions

/-- An array of `struct memctl_data`. It lies far enough below the end of the address space
that the loops do not wrap, and their counter is an `int`. -/
structure MemctlTable where
  base : ℕ
  count : ℕ
  noWrap : base + memctlEntrySize * (memctlEntrySize * count) ≤ 2 ^ 32

/-- `sizeof` the array. -/
def MemctlTable.length (t : MemctlTable) : ℕ := memctlEntrySize * t.count

/-- The two training tables, which are of one length. -/
structure DqsTables where
  memctl0Dqs : ℕ
  memctl1Dqs : ℕ
  count : ℕ
  noWrap0 : memctl0Dqs + memctlEntrySize * (memctlEntrySize * count) ≤ 2 ^ 32
  noWrap1 : memctl1Dqs + memctlEntrySize * (memctlEntrySize * count) ≤ 2 ^ 32

/-- The table an id selects. -/
def DqsTables.table (d : DqsTables) (id : ℕ) : MemctlTable :=
  if id ≠ 0 then ⟨d.memctl1Dqs, d.count, d.noWrap1⟩ else ⟨d.memctl0Dqs, d.count, d.noWrap0⟩

/-- Byte `a` belongs to the value of entry `i`, which is for the register. -/
def Matches (base : ℕ) (reg : BitVec 32) (mem : Mem) (i a : ℕ) : Prop :=
  (entryReg base i).get mem = reg.toNat ∧
    (entryVal base i).off ≤ a ∧ a < (entryVal base i).off + (entryVal base i).len

instance (base : ℕ) (reg : BitVec 32) (mem : Mem) (i a : ℕ) :
    Decidable (Matches base reg mem i a) :=
  inferInstanceAs (Decidable (_ ∧ _))

/-- A refresh looks at entries of the table only, and changes no byte but those of the values
of its entries for the register. -/
structure StaysInTable (t : MemctlTable) (reg : BitVec 32) (mem : Mem) (r : Refresh) : Prop where
  visits : ∀ a ∈ r.visited, t.base ≤ a ∧ a + memctlEntrySize ≤ t.base + t.length
  kept : ∀ a, (∀ i < t.count, ¬ Matches t.base reg mem i a) → r.mem a = mem a

section Loop
variable {reg val mask : BitVec 32} {base : ℕ}

theorem refreshVal_of_not_mem (f : ByteStore.Field) (mem : Mem) {a : ℕ}
    (h : ¬ (f.off ≤ a ∧ a < f.off + f.len)) : refreshVal val mask f mem a = mem a := by
  rw [refreshVal]
  exact (overlay_of_not_mem _ _ h).trans (overlay_of_not_mem _ _ h)

/-- Setting a value leaves all registers. -/
theorem entryReg_refreshVal (mem : Mem) (i j : ℕ) :
    (entryReg base j).get (refreshVal val mask (entryVal base i) mem) =
      (entryReg base j).get mem := by
  apply ByteStore.Field.get_congr
  intro a hlow hhigh
  apply refreshVal_of_not_mem
  simp only [entryReg, entryVal, memctlEntrySize] at *
  omega

theorem visited_refreshEntry (r : Refresh) (i : ℕ) :
    (refreshEntry reg val mask base r i).visited = r.visited ++ [base + memctlEntrySize * i] := by
  rw [refreshEntry]
  split <;> rfl

theorem entryReg_refreshEntry (r : Refresh) (i j : ℕ) :
    (entryReg base j).get (refreshEntry reg val mask base r i).mem =
      (entryReg base j).get r.mem := by
  rw [refreshEntry]
  split
  · exact entryReg_refreshVal r.mem i j
  · rfl

theorem mem_refreshEntry (r : Refresh) (i : ℕ) {a : ℕ} (h : ¬ Matches base reg r.mem i a) :
    (refreshEntry reg val mask base r i).mem a = r.mem a := by
  rw [refreshEntry]
  split
  · rename_i hreg
    apply refreshVal_of_not_mem
    exact fun ha => h ⟨hreg.symm, ha⟩
  · rfl

theorem visited_foldl (is : List ℕ) (r : Refresh) :
    (is.foldl (refreshEntry reg val mask base) r).visited =
      r.visited ++ is.map fun i => base + memctlEntrySize * i := by
  induction is generalizing r with
  | nil => simp
  | cons i is ih => rw [List.foldl_cons, ih, visited_refreshEntry, List.map_cons, List.append_assoc,
      List.singleton_append]

/-- A byte changes only if one of the entries gone through is for the register and has it in
its value. -/
theorem mem_foldl {is : List ℕ} {r : Refresh} {a : ℕ}
    (h : ∀ i ∈ is, ¬ Matches base reg r.mem i a) :
    (is.foldl (refreshEntry reg val mask base) r).mem a = r.mem a := by
  induction is generalizing r with
  | nil => rfl
  | cons i is ih =>
    rw [List.foldl_cons, ih, mem_refreshEntry r i (h i (List.mem_cons_self ..))]
    intro j hj hmatch
    rw [Matches, entryReg_refreshEntry] at hmatch
    exact h j (List.mem_cons_of_mem _ hj) hmatch

/-- What a loop over as many entries as the table has bytes keeps: all memory, if no entry
behind the table is for the register. -/
theorem kept_of_no_match_behind {t : MemctlTable} {is : List ℕ} (his : ∀ i ∈ is, i < t.length)
    (mem : Mem) (hbehind : ∀ i, t.count ≤ i → i < t.length →
      (entryReg t.base i).get mem ≠ reg.toNat) {a : ℕ}
    (h : ∀ i < t.count, ¬ Matches t.base reg mem i a) :
    (is.foldl (refreshEntry reg val mask t.base) ⟨mem, -1, []⟩).mem a = mem a := by
  apply mem_foldl (r := ⟨mem, -1, []⟩)
  intro i hi hmatch
  rcases Nat.lt_or_ge i t.count with hlt | hge
  · exact h i hlt hmatch
  · exact hbehind i hge (his i hi) hmatch.1

/-- A loop over as many entries as the table has bytes leaves the table, unless it is empty. -/
theorem staysInTable_foldl_iff {t : MemctlTable} {is : List ℕ}
    (his : ∀ i, i ∈ is ↔ i < t.length) (mem : Mem) :
    StaysInTable t reg mem (is.foldl (refreshEntry reg val mask t.base) ⟨mem, -1, []⟩) ↔
      t.count = 0 := by
  constructor
  · intro h
    by_contra hne
    have hlength : t.length = 8 * t.count := rfl
    have hmem : t.count ∈ is := (his t.count).mpr (by omega)
    have hvisited : t.base + memctlEntrySize * t.count ∈
        (is.foldl (refreshEntry reg val mask t.base) ⟨mem, -1, []⟩).visited := by
      rw [visited_foldl]
      exact List.mem_append_right _ (List.mem_map.mpr ⟨t.count, hmem, rfl⟩)
    have hinside := (h.visits _ hvisited).2
    simp only [MemctlTable.length, memctlEntrySize] at hinside
    omega
  · intro hzero
    have hempty : is = [] := by
      rw [List.eq_nil_iff_forall_not_mem]
      intro i hi
      have hlt := (his i).mp hi
      rw [MemctlTable.length, hzero] at hlt
      omega
    rw [hempty]
    exact ⟨fun a ha => absurd ha List.not_mem_nil, fun a _ => rfl⟩

end Loop

/-- Neither function stays in the table it is given, unless that is empty. -/
theorem refresh_staysInTable_iff (reg val mask : BitVec 32) (mem : Mem) :
    (∀ t : MemctlTable,
      StaysInTable t reg mem (memctlRefreshInitdatas reg val mask t.base t.length mem) ↔
        t.count = 0) ∧
    ∀ (d : DqsTables) (id : ℕ),
      StaysInTable (d.table id) reg mem (memctlRefreshDqsdatas reg val mask d.memctl0Dqs
        d.memctl1Dqs (d.table id).length id mem) ↔ d.count = 0 := by
  constructor
  · intro t
    exact staysInTable_foldl_iff (fun i => List.mem_range) mem
  · intro d id
    have hcount : (d.table id).count = d.count := by
      rw [DqsTables.table]
      split <;> rfl
    have hbase : (if id ≠ 0 then d.memctl1Dqs else d.memctl0Dqs) = (d.table id).base := by
      rw [DqsTables.table]
      split <;> rfl
    rw [memctlRefreshDqsdatas, hbase, ← hcount]
    exact staysInTable_foldl_iff (fun i => by rw [List.mem_reverse, List.mem_range]) mem

/-- A table of one entry, for register 0x10, and behind it a pair of words like an entry for
register 0x20. -/
def oneEntry : MemctlTable := ⟨0x1000, 1, by decide⟩

def wordsBehind : Mem := (entryReg 0x1000 1).put ((entryReg 0x1000 0).put (fun _ => 0) 0x10) 0x20

/-- Refreshing register 0x20, which the table does not have, sets the word behind the table. -/
theorem refresh_sets_word_behind : ¬ StaysInTable oneEntry 0x20 wordsBehind
    (memctlRefreshInitdatas 0x20 0xff 0 oneEntry.base oneEntry.length wordsBehind) := by
  intro h
  have hkept := h.kept 0x100c (by decide +kernel)
  revert hkept
  decide +kernel

end UBoot.Board
