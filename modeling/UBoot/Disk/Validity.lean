import UBoot.Disk.Gpt

/-!
# What an accepted table is

`is_gpt_valid` inverted: everything that is known of a table it accepts, and that
nothing more is needed. The loops over the entries are described by the entries they
look at and the one they stop at.
-/
namespace UBoot.Disk
open ByteStore

theorem le_padCount_mul (s : ℕ) {pad : ℕ} (hpad : 0 < pad) : s ≤ padCount s pad * pad := by
  have hdiv := Nat.div_add_mod (s - 1) pad
  have hmod := Nat.mod_lt (s - 1) hpad
  have hcomm : pad * ((s - 1) / pad) = (s - 1) / pad * pad := Nat.mul_comm ..
  rw [padCount, Nat.add_mul]
  omega

theorem padCount_mul_lt {s pad : ℕ} (hs : 0 < s) : padCount s pad * pad < s + pad := by
  have hdiv := Nat.div_add_mod (s - 1) pad
  have hcomm : pad * ((s - 1) / pad) = (s - 1) / pad * pad := Nat.mul_comm ..
  rw [padCount, Nat.add_mul]
  omega

theorem BlockDevDesc.blksz_pos (d : BlockDevDesc) : 0 < d.blksz :=
  lt_of_lt_of_le (by norm_num) d.blksz_ge

theorem BlockDevDesc.blockReadGpt_eq_some {d : BlockDevDesc} {start cnt : ℕ} {dst m : Mem} :
    d.blockReadGpt start cnt dst = some m ↔ d.reads (u32 start) cnt = true ∧
      m = overlay dst 0 (cnt * d.blksz) (advance d.bytes (u32 start * d.blksz)) := by
  unfold blockReadGpt
  split
  · rename_i h
    simp [h, eq_comm]
  · rename_i h
    simp [h]

/-- The checks that `is_gpt_valid` makes of the table it returns. -/
structure Accepts (env : Surroundings) (d : BlockDevDesc) (lba : ℕ) (g : Gpt) : Prop where
  head : d.blockReadGpt lba 1 env.stack = some g.head
  signature : Header.signature.get g.head = gptHeaderSignature
  crc : (headerCrc g.head).toNat = Header.headerCrc32.get g.head
  placed : headerPlaced d lba g.head = true
  pte : allocReadGptEntries env d g.head = some g.pte
  entriesCrc : (efiCrc32 (slice g.pte 0 (entriesSize g.head))).toNat =
    Header.partitionEntryArrayCrc32.get g.head

/-- The uses of the buffers by a validation that succeeds. -/
def validationAccesses (head : Mem) : List Access :=
  [⟨.head, 0, Header.headerSize.get head⟩, ⟨.pte, 0, entriesSize head⟩]

theorem Accepts.isGptValid {env : Surroundings} {d : BlockDevDesc} {lba : ℕ} {g : Gpt}
    (h : Accepts env d lba g) :
    isGptValid env d lba = (some g, validationAccesses g.head) := by
  have hplaced : ¬ headerPlaced d lba g.head = false := by simp [h.placed]
  unfold UBoot.Disk.isGptValid
  simp only [h.head]
  rw [if_neg (not_not_intro h.signature), if_neg (not_not_intro h.crc), if_neg hplaced]
  simp only [h.pte]
  rw [if_neg (not_not_intro h.entriesCrc)]
  rfl

theorem accepts_of_isGptValid {env : Surroundings} {d : BlockDevDesc} {lba : ℕ} {g : Gpt}
    (h : (isGptValid env d lba).1 = some g) : Accepts env d lba g := by
  unfold isGptValid at h
  cases hhead : d.blockReadGpt lba 1 env.stack with
  | none => simp [hhead] at h
  | some head =>
    simp only [hhead] at h
    by_cases hsig : Header.signature.get head ≠ gptHeaderSignature
    · simp [hsig] at h
    by_cases hcrc : (headerCrc head).toNat ≠ Header.headerCrc32.get head
    · simp [hsig, hcrc] at h
    by_cases hplaced : headerPlaced d lba head = false
    · simp [hsig, hcrc, hplaced] at h
    rw [if_neg hsig, if_neg hcrc, if_neg hplaced] at h
    cases hpte : allocReadGptEntries env d head with
    | none => simp [hpte] at h
    | some pte =>
      simp only [hpte] at h
      by_cases hentries : (efiCrc32 (slice pte 0 (entriesSize head))).toNat ≠
          Header.partitionEntryArrayCrc32.get head
      · simp [hentries] at h
      rw [if_neg hentries] at h
      obtain rfl : (⟨head, pte⟩ : Gpt) = g := by simpa using h
      exact ⟨hhead, not_not.mp hsig, not_not.mp hcrc, by simpa using hplaced, hpte,
        not_not.mp hentries⟩

theorem isGptValid_eq_some_iff {env : Surroundings} {d : BlockDevDesc} {lba : ℕ} {g : Gpt} :
    (isGptValid env d lba).1 = some g ↔ Accepts env d lba g :=
  ⟨accepts_of_isGptValid, fun h => by rw [h.isGptValid]⟩

/-- What was read for the entries: an array that is not empty, from where the header says. -/
theorem allocReadGptEntries_eq_some {env : Surroundings} {d : BlockDevDesc} {head pte : Mem}
    (h : allocReadGptEntries env d head = some pte) :
    entriesSize head ≠ 0 ∧ env.callocs (d.padToBlocksize (entriesSize head)) = true ∧
      d.blockReadGpt (Header.partitionEntryLba.get head) (d.blockCnt (entriesSize head))
        (overlay env.heap 0 (d.padToBlocksize (entriesSize head)) fun _ => 0) = some pte := by
  unfold allocReadGptEntries at h
  dsimp only at h
  split at h
  · simp at h
  · rename_i hok
    simp only [not_or, Bool.not_eq_false] at hok
    exact ⟨hok.1, hok.2, h⟩

/-- The bytes of the entries are those on the device. -/
theorem Accepts.pte_apply {env : Surroundings} {d : BlockDevDesc} {lba : ℕ} {g : Gpt}
    (h : Accepts env d lba g) {i : ℕ} (hi : i < d.blockCnt (entriesSize g.head) * d.blksz) :
    g.pte i = d.bytes (u32 (Header.partitionEntryLba.get g.head) * d.blksz + i) := by
  obtain ⟨-, -, hread⟩ := allocReadGptEntries_eq_some h.pte
  obtain ⟨-, heq⟩ := BlockDevDesc.blockReadGpt_eq_some.mp hread
  rw [heq, overlay_of_mem _ _ (Nat.zero_le i) (by omega), Nat.sub_zero, advance_apply]

theorem Accepts.num_pos {env : Surroundings} {d : BlockDevDesc} {lba : ℕ} {g : Gpt}
    (h : Accepts env d lba g) : 0 < g.num := by
  obtain ⟨hsize, -, -⟩ := allocReadGptEntries_eq_some h.pte
  by_contra hnum
  apply hsize
  have hzero : Header.numPartitionEntries.get g.head = 0 := by
    unfold Gpt.num at hnum
    omega
  simp [entriesSize, hzero, u32]

theorem printLoop_accesses (pte : Mem) (n i : ℕ) :
    ∀ a ∈ (printLoop pte n i).2, ∃ j < i + n, a = elementAccess j := by
  induction n generalizing i with
  | zero => simp [printLoop]
  | succ n ih =>
    intro a ha
    rw [printLoop] at ha
    split at ha
    · rcases List.mem_cons.mp ha with rfl | ha
      · exact ⟨i, by omega, rfl⟩
      · obtain ⟨j, hj, rfl⟩ := ih (i + 1) a ha
        exact ⟨j, by omega, rfl⟩
    · exact ⟨i, by omega, by simpa using ha⟩

theorem findLoop_accesses (name : List UInt8) (pte : Mem) (n i : ℕ) :
    ∀ a ∈ (findLoop name pte n i).2, ∃ j < i + n, a = elementAccess j := by
  induction n generalizing i with
  | zero => simp [findLoop]
  | succ n ih =>
    intro a ha
    rw [findLoop] at ha
    split at ha
    · exact ⟨i, by omega, by simpa using ha⟩
    · rcases List.mem_cons.mp ha with rfl | ha
      · exact ⟨i, by omega, rfl⟩
      · obtain ⟨j, hj, rfl⟩ := ih (i + 1) a ha
        exact ⟨j, by omega, rfl⟩

/-- Entry `i` is the first of the first `n` that satisfies `p`. -/
def IsFirst (p : Mem → Prop) (pte : Mem) (n i : ℕ) : Prop :=
  i < n ∧ p (element pte i) ∧ ∀ j < i, ¬ p (element pte j)

theorem IsFirst.unique {p : Mem → Prop} {pte : Mem} {n i j : ℕ} (hi : IsFirst p pte n i)
    (hj : IsFirst p pte n j) : i = j := by
  by_contra hne
  rcases Nat.lt_or_gt_of_ne hne with h | h
  · exact hj.2.2 i h hi.2.1
  · exact hi.2.2 j h hj.2.1

/-- The search returns the first entry of the name, or there is none. -/
theorem findLoop_spec (name : List UInt8) (pte : Mem) (n i : ℕ)
    (hbefore : ∀ j < i, printEfiname (element pte j) ≠ name) :
    match (findLoop name pte n i).1 with
    | some k => IsFirst (printEfiname · = name) pte (i + n) k
    | none => ∀ j < i + n, printEfiname (element pte j) ≠ name := by
  induction n generalizing i with
  | zero => simpa [findLoop] using hbefore
  | succ n ih =>
    rw [findLoop]
    by_cases hname : printEfiname (element pte i) = name
    · rw [if_pos hname]
      exact ⟨by omega, hname, hbefore⟩
    · rw [if_neg hname]
      have hnext : ∀ j < i + 1, printEfiname (element pte j) ≠ name := by
        intro j hj
        rcases Nat.lt_succ_iff_lt_or_eq.mp hj with h | rfl
        · exact hbefore j h
        · exact hname
      have := ih (i + 1) hnext
      rwa [show i + (n + 1) = i + 1 + n by omega]

end UBoot.Disk
