import UBoot.Library.Faults

/-!
# The memory test

`memory_test` writes patterns over each bank and reads them back: patterns on the data lines
of one double word, a probe of each address line from the first and the last double word, and
seven passes over all words. It hangs at the first bank that fails and resets the board after
nine rounds without a failure.
-/
namespace UBoot.Board
open FaultyMemory

section
variable {κ : Type*} [DecidableEq κ] (m : Memory (BitVec 32) κ 32)

/-- `copy64` into memory: the low word first. -/
def copy64 (v : BitVec 64) (dest : BitVec 32) (s : κ → BitVec 32) : κ → BitVec 32 :=
  m.write (dest + 4) (v.extractLsb' 32 32) (m.write dest (v.setWidth 32) s)

/-- `copy64` out of memory. -/
def load64 (src : BitVec 32) (s : κ → BitVec 32) : BitVec 64 := m.read (src + 4) s ++ m.read src s

def testdata : List (BitVec 64) :=
  [0xaaaaaaaaaaaaaaaa, 0xcccccccccccccccc, 0xf0f0f0f0f0f0f0f0, 0xff00ff00ff00ff00,
    0xffff0000ffff0000, 0xffffffff00000000, 0x00000000ffffffff, 0x0000ffff0000ffff,
    0x00ff00ff00ff00ff, 0x0f0f0f0f0f0f0f0f, 0x3333333333333333, 0x5555555555555555]

def othertestdata : BitVec 64 := 0x0123456789abcdef

/-- The loop of `memory_test_dataline`: a pattern, another one in the next double word so that
the lines do not float, and the first read back. -/
def datalineLoop (pmem : BitVec 32) : List (BitVec 64) → (κ → BitVec 32) → ℤ × (κ → BitVec 32)
  | [], s => (0, s)
  | d :: ds, s =>
    let s := copy64 m othertestdata (pmem + 8) (copy64 m d pmem s)
    let r := datalineLoop pmem ds s
    (if load64 m pmem s ≠ d then -1 else r.1, r.2)

/-- `memory_test_dataline`. -/
def memoryTestDataline (pmem : BitVec 32) (s : κ → BitVec 32) : ℤ × (κ → BitVec 32) :=
  datalineLoop m pmem testdata s

/-- The loop of `memory_test_addrline`: `xor` is shifted until it is 0. -/
def addrlineLoop (testaddr base «end» : BitVec 32) :
    ℕ → BitVec 32 → (κ → BitVec 32) → ℤ × (κ → BitVec 32)
  | 0, _, s => (0, s)
  | fuel + 1, xor, s =>
    if xor = 0 then (0, s)
    else
      let target := testaddr ^^^ xor
      if base ≤ target ∧ target < «end» then
        let s := m.write testaddr (~~~m.read target s) s
        let readback := m.read target s
        let r := addrlineLoop testaddr base «end» fuel (xor <<< 1) s
        (if readback = m.read testaddr s then -1 else r.1, r.2)
      else addrlineLoop testaddr base «end» fuel (xor <<< 1) s

/-- `memory_test_addrline`. -/
def memoryTestAddrline (testaddr base : BitVec 32) (size : ℕ) (s : κ → BitVec 32) :
    ℤ × (κ → BitVec 32) :=
  addrlineLoop m testaddr base (base + BitVec.ofNat 32 size) 31 4 s

/-- `mem[i]`. -/
def wordAt (start : BitVec 32) (i : ℕ) : BitVec 32 := start + BitVec.ofNat 32 (4 * i)

/-- Writing a pattern to every word, and reading every word back. -/
def fillAndCheck (pattern : ℕ → BitVec 32) (start : BitVec 32) (size : ℕ) (s : κ → BitVec 32) :
    ℤ × (κ → BitVec 32) :=
  let s := m.fill (wordAt start) pattern (size / 4) s
  (if ∀ i < size / 4, m.read (wordAt start i) s = pattern i then 0 else -1, s)

/-- `memory_test_test1`. -/
def memoryTestTest1 (start : BitVec 32) (size : ℕ) (val : BitVec 32) :=
  fillAndCheck m (fun _ => val) start size

/-- `memory_test_test2`. -/
def memoryTestTest2 (start : BitVec 32) (size : ℕ) :=
  fillAndCheck m (fun i => 1#32 <<< (i % 32)) start size

/-- `memory_test_test3`. -/
def memoryTestTest3 (start : BitVec 32) (size : ℕ) :=
  fillAndCheck m (fun i => BitVec.ofNat 32 i) start size

/-- `memory_test_test4`. -/
def memoryTestTest4 (start : BitVec 32) (size : ℕ) :=
  fillAndCheck m (fun i => ~~~BitVec.ofNat 32 i) start size

/-- Tests one after the other, and the sum of what they return. -/
def runTests : List ((κ → BitVec 32) → ℤ × (κ → BitVec 32)) → (κ → BitVec 32) →
    ℤ × (κ → BitVec 32)
  | [], s => (0, s)
  | t :: ts, s => ((t s).1 + (runTests ts (t s).2).1, (runTests ts (t s).2).2)

/-- `memory_test_lines`. -/
def memoryTestLines (start : BitVec 32) (size : ℕ) : (κ → BitVec 32) → ℤ × (κ → BitVec 32) :=
  runTests [memoryTestDataline m start, memoryTestAddrline m start start size,
    memoryTestAddrline m (start + BitVec.ofNat 32 size - 8) start size]

/-- `memory_test_patterns`. -/
def memoryTestPatterns (start : BitVec 32) (size : ℕ) : (κ → BitVec 32) → ℤ × (κ → BitVec 32) :=
  runTests [memoryTestTest1 m start size 0x00000000, memoryTestTest1 m start size 0xffffffff,
    memoryTestTest1 m start size 0x55555555, memoryTestTest1 m start size 0xaaaaaaaa,
    memoryTestTest2 m start size, memoryTestTest3 m start size, memoryTestTest4 m start size]

/-- `memory_test_bank`: `none` where it hangs. -/
def memoryTestBank (start size : BitVec 32) (s : κ → BitVec 32) : Option (κ → BitVec 32) :=
  let r := memoryTestLines m start size.toNat s
  if r.1 ≠ 0 then none
  else
    let r := memoryTestPatterns m start size.toNat r.2
    if r.1 ≠ 0 then none else some r.2

/-- A bank of `gd`: its base and its size. -/
abbrev Bank := BitVec 64 × BitVec 64

/-- One round of `memory_test`: the banks that have a size, which `memory_test_bank` takes as
words. -/
def memoryTestRound : List Bank → (κ → BitVec 32) → Option (κ → BitVec 32)
  | [], s => some s
  | (start, size) :: banks, s =>
    if 0 < size then
      (memoryTestBank m (start.setWidth 32) (size.setWidth 32) s).bind (memoryTestRound banks)
    else memoryTestRound banks s

/-- The loop of `memory_test`. -/
def memoryTestRounds (banks : List Bank) :
    ℕ → (κ → BitVec 32) → Option (κ → BitVec 32)
  | 0, s => some s
  | n + 1, s => (memoryTestRound m banks s).bind (memoryTestRounds banks n)

/-- `memory_test`: it gets to the reset, or hangs. -/
def memoryTest (banks : List Bank) (s : κ → BitVec 32) : Bool :=
  (memoryTestRounds m banks 9 s).isSome

omit [DecidableEq κ] in
theorem runTests_nonpos {ts : List ((κ → BitVec 32) → ℤ × (κ → BitVec 32))}
    (h : ∀ t ∈ ts, ∀ s, (t s).1 ≤ 0) (s : κ → BitVec 32) : (runTests ts s).1 ≤ 0 := by
  induction ts generalizing s with
  | nil => exact le_rfl
  | cons t ts ih =>
    have ht := h t (List.mem_cons_self ..) s
    have hts := ih (fun t ht => h t (List.mem_cons_of_mem _ ht)) (t s).2
    rw [runTests]
    omega

omit [DecidableEq κ] in
/-- Since no test returns more than 0, a sum of 0 means that every test returned 0. -/
theorem passed_of_runTests {ts : List ((κ → BitVec 32) → ℤ × (κ → BitVec 32))}
    (h : ∀ t ∈ ts, ∀ s, (t s).1 ≤ 0) {s : κ → BitVec 32} (hsum : (runTests ts s).1 = 0) :
    ∀ t ∈ ts, ∃ s', (t s').1 = 0 := by
  induction ts generalizing s with
  | nil => exact fun t ht => absurd ht List.not_mem_nil
  | cons t ts ih =>
    have hrest := fun u hu => h u (List.mem_cons_of_mem t hu)
    have ht := h t (List.mem_cons_self ..) s
    have hts := runTests_nonpos hrest (t s).2
    rw [runTests] at hsum
    intro u hu
    rcases List.mem_cons.mp hu with rfl | hu
    · exact ⟨s, by omega⟩
    · exact ih hrest (show (runTests ts (t s).2).1 = 0 by omega) u hu

omit [DecidableEq κ] in
theorem runTests_of_all {ts : List ((κ → BitVec 32) → ℤ × (κ → BitVec 32))}
    (h : ∀ t ∈ ts, ∀ s, (t s).1 = 0) (s : κ → BitVec 32) : (runTests ts s).1 = 0 := by
  induction ts generalizing s with
  | nil => rfl
  | cons t ts ih =>
    rw [runTests, h t (List.mem_cons_self ..) s,
      ih (fun t ht => h t (List.mem_cons_of_mem _ ht)), add_zero]

theorem fillAndCheck_eq_zero_iff (pattern : ℕ → BitVec 32) (start : BitVec 32) (size : ℕ)
    (s : κ → BitVec 32) : (fillAndCheck m pattern start size s).1 = 0 ↔ ∀ i < size / 4,
      m.read (wordAt start i) (m.fill (wordAt start) pattern (size / 4) s) = pattern i := by
  unfold fillAndCheck
  by_cases h : ∀ i < size / 4,
      m.read (wordAt start i) (m.fill (wordAt start) pattern (size / 4) s) = pattern i
  · simp only [if_pos h]
    exact iff_of_true trivial h
  · simp only [if_neg h]
    exact iff_of_false (by norm_num) h

theorem fillAndCheck_nonpos (pattern : ℕ → BitVec 32) (start : BitVec 32) (size : ℕ)
    (s : κ → BitVec 32) : (fillAndCheck m pattern start size s).1 ≤ 0 := by
  unfold fillAndCheck
  simp only
  split_ifs
  · exact le_rfl
  · norm_num

/-- A memory whose cells have bits stuck at 0 and at 1. -/
def stuckMemory (decode : BitVec 32 → κ) (low high : κ → BitVec 32) : Memory (BitVec 32) κ 32 :=
  ⟨decode, fun c => stuck (low c) (high c)⟩

/-- No word of a range has a stuck bit, and no two words share a cell. -/
structure Sound (decode : BitVec 32 → κ) (low high : κ → BitVec 32) (start : BitVec 32)
    (size : ℕ) : Prop where
  free : ∀ i < size / 4, low (decode (wordAt start i)) = 0 ∧ high (decode (wordAt start i)) = 0
  distinct : (stuckMemory decode low high).Distinct (wordAt start) (size / 4)

section
variable {decode : BitVec 32 → κ} {low high : κ → BitVec 32} {start : BitVec 32} {size : ℕ}

theorem fillAndCheck_of_sound (h : Sound decode low high start size) (pattern : ℕ → BitVec 32)
    (s : κ → BitVec 32) :
    (fillAndCheck (stuckMemory decode low high) pattern start size s).1 = 0 := by
  rw [fillAndCheck_eq_zero_iff]
  intro i hi
  obtain ⟨hlow, hhigh⟩ := h.free i hi
  have hfill := fill_of_distinct _ h.distinct pattern s hi
  change stuck (low (decode (wordAt start i))) (high (decode (wordAt start i))) _ = _
  rw [hlow, hhigh, stuck_zero]
  exact hfill

/-- A constant pattern read back is what the stuck bits let through of it. -/
theorem stuck_of_constant {val : BitVec 32} {s : κ → BitVec 32}
    (h : (fillAndCheck (stuckMemory decode low high) (fun _ => val) start size s).1 = 0) {i : ℕ}
    (hi : i < size / 4) :
    stuck (low (decode (wordAt start i))) (high (decode (wordAt start i))) val = val := by
  have hread := (fillAndCheck_eq_zero_iff _ _ _ _ s).mp h i hi
  obtain ⟨j, -, -, -, hval⟩ :=
    fill_eq_last (stuckMemory decode low high) (wordAt start) (fun _ => val) s hi
  rw [Memory.read, hval] at hread
  exact hread

/-- The patterns of the passes, in their order. -/
def passPatterns : List (ℕ → BitVec 32) :=
  [fun _ => 0x00000000, fun _ => 0xffffffff, fun _ => 0x55555555, fun _ => 0xaaaaaaaa,
    fun i => 1#32 <<< (i % 32), fun i => BitVec.ofNat 32 i, fun i => ~~~BitVec.ofNat 32 i]

theorem memoryTestPatterns_eq (m : Memory (BitVec 32) κ 32) (start : BitVec 32) (size : ℕ) :
    memoryTestPatterns m start size =
      runTests (passPatterns.map fun p => fillAndCheck m p start size) := rfl

/-- The passes over all words return 0 exactly for a memory without stuck bits and without
words that share a cell. -/
theorem memoryTestPatterns_eq_zero_iff (hsize : size ≤ 2 ^ 32) (s : κ → BitVec 32) :
    (memoryTestPatterns (stuckMemory decode low high) start size s).1 = 0 ↔
      Sound decode low high start size := by
  rw [memoryTestPatterns_eq]
  constructor
  · intro h
    have hpassed (p : ℕ → BitVec 32) (hp : p ∈ passPatterns) :
        ∃ s, (fillAndCheck (stuckMemory decode low high) p start size s).1 = 0 := by
      refine passed_of_runTests (fun t ht s => ?_) h _ (List.mem_map.mpr ⟨p, hp, rfl⟩)
      obtain ⟨q, -, rfl⟩ := List.mem_map.mp ht
      exact fillAndCheck_nonpos _ q start size s
    -- all zeros and all ones show the stuck bits
    obtain ⟨s0, h0⟩ := hpassed _ (List.mem_cons_self ..)
    obtain ⟨s1, h1⟩ := hpassed _ (List.mem_cons_of_mem _ (List.mem_cons_self ..))
    have hfree : ∀ i < size / 4,
        low (decode (wordAt start i)) = 0 ∧ high (decode (wordAt start i)) = 0 := fun i hi =>
      stuck_bits (stuck_of_constant h0 hi) (stuck_of_constant h1 hi)
    -- the numbers of the words show which words share a cell
    obtain ⟨s3, h3⟩ := hpassed (fun i => BitVec.ofNat 32 i) (by simp [passPatterns])
    refine ⟨hfree, distinct_of_fill _ (v := fun i => BitVec.ofNat 32 i) ?_ s3 fun i hi => ?_⟩
    · intro i hi j hj hij
      have hval := congrArg BitVec.toNat hij
      simp only [BitVec.toNat_ofNat] at hval
      rwa [Nat.mod_eq_of_lt (by omega), Nat.mod_eq_of_lt (by omega)] at hval
    · have hread := (fillAndCheck_eq_zero_iff _ _ _ _ s3).mp h3 i hi
      obtain ⟨hlow, hhigh⟩ := hfree i hi
      change stuck (low (decode (wordAt start i))) (high (decode (wordAt start i))) _ = _ at hread
      rwa [hlow, hhigh, stuck_zero] at hread
  · intro h
    refine runTests_of_all (fun t ht s => ?_) s
    obtain ⟨p, -, rfl⟩ := List.mem_map.mp ht
    exact fillAndCheck_of_sound h p s

end

/-- A probe reads the same from both addresses only where they share a cell. -/
theorem addrline_probe {testaddr : BitVec 32} (hid : ∀ v, m.sense (m.decode testaddr) v = v)
    (target : BitVec 32) (s : κ → BitVec 32) :
    m.read target (m.write testaddr (~~~m.read target s) s) =
        m.read testaddr (m.write testaddr (~~~m.read target s) s) ↔
      m.decode target = m.decode testaddr := by
  by_cases h : m.decode target = m.decode testaddr
  · refine iff_of_true ?_ h
    change m.sense (m.decode target) _ = m.sense (m.decode testaddr) _
    rw [h]
  · refine iff_of_false ?_ h
    rw [read_write_of_ne m h, read_write_self, hid]
    intro hnot
    have hbit := congrArg (fun v : BitVec 32 => v[0]) hnot
    simp at hbit

/-- Some address line, when flipped in the test address, selects the same cell. -/
def LineFails (testaddr base «end» : BitVec 32) (k : ℕ) : Prop :=
  base ≤ testaddr ^^^ (1#32 <<< k) ∧ testaddr ^^^ (1#32 <<< k) < «end» ∧
    m.decode (testaddr ^^^ (1#32 <<< k)) = m.decode testaddr

theorem addrlineLoop_eq_zero_iff {testaddr base «end» : BitVec 32}
    (hid : ∀ v, m.sense (m.decode testaddr) v = v) {fuel k : ℕ} (hk : k + fuel = 33)
    (s : κ → BitVec 32) :
    (addrlineLoop m testaddr base «end» fuel (1#32 <<< k) s).1 = 0 ↔
      ∀ j, k ≤ j → j < 32 → ¬LineFails m testaddr base «end» j := by
  induction fuel generalizing k s with
  | zero => exact iff_of_true rfl fun j hkj hj => by omega
  | succ fuel ih =>
    have hshift : (1#32 <<< k) <<< 1 = 1#32 <<< (k + 1) := by rw [BitVec.shiftLeft_add]
    rw [addrlineLoop]
    by_cases hzero : 1#32 <<< k = 0
    · -- the bit has left the word
      have hk32 : 32 ≤ k := by
        by_contra hlt
        have hbit := congrArg (fun v : BitVec 32 => v.getLsbD k) hzero
        simp [show k < 32 by omega] at hbit
      rw [if_pos hzero]
      exact iff_of_true rfl fun j hkj hj => by omega
    · rw [if_neg hzero, hshift]
      have hrest := fun s => ih (show k + 1 + fuel = 33 by omega) s
      have hk32 : k < 32 := by
        by_contra hle
        exact hzero (BitVec.shiftLeft_eq_zero (by omega))
      have hsplit : (∀ j, k ≤ j → j < 32 → ¬LineFails m testaddr base «end» j) ↔
          ¬LineFails m testaddr base «end» k ∧
            ∀ j, k + 1 ≤ j → j < 32 → ¬LineFails m testaddr base «end» j := by
        constructor
        · exact fun h => ⟨h k le_rfl hk32, fun j hkj hj => h j (by omega) hj⟩
        · rintro ⟨hself, hnext⟩ j hkj hj
          rcases Nat.eq_or_lt_of_le hkj with rfl | hlt
          · exact hself
          · exact hnext j hlt hj
      rw [hsplit]
      by_cases hrange : base ≤ testaddr ^^^ (1#32 <<< k) ∧ testaddr ^^^ (1#32 <<< k) < «end»
      · simp only [if_pos hrange, addrline_probe m hid]
        by_cases hcell : m.decode (testaddr ^^^ (1#32 <<< k)) = m.decode testaddr
        · rw [if_pos hcell]
          exact iff_of_false (by norm_num) fun h => h.1 ⟨hrange.1, hrange.2, hcell⟩
        · rw [if_neg hcell, hrest]
          exact (and_iff_right fun h => hcell h.2.2).symm
      · rw [if_neg hrange, hrest]
        exact (and_iff_right fun h => hrange ⟨h.1, h.2.1⟩).symm

/-- The probe of the address lines returns 0 exactly if no line in the range selects the cell
of the test address when it is flipped. -/
theorem memoryTestAddrline_eq_zero_iff {testaddr base : BitVec 32} {size : ℕ}
    (hid : ∀ v, m.sense (m.decode testaddr) v = v) (s : κ → BitVec 32) :
    (memoryTestAddrline m testaddr base size s).1 = 0 ↔
      ∀ k, 2 ≤ k → k < 32 → ¬LineFails m testaddr base (base + BitVec.ofNat 32 size) k :=
  addrlineLoop_eq_zero_iff m hid (show 2 + 31 = 33 from rfl) s

/-- A memory that does not decode line 12. -/
def withoutLine12 : Memory (BitVec 32) (BitVec 32) 32 := ⟨fun a => a &&& ~~~0x1000, fun _ v => v⟩

/-- The line that is not decoded is found from the first word of a bank of 1 MiB. -/
theorem memoryTestAddrline_withoutLine12 :
    (memoryTestAddrline withoutLine12 0x40000000 0x40000000 0x100000 fun _ => 0).1 ≠ 0 := fun h =>
  (memoryTestAddrline_eq_zero_iff withoutLine12 (fun _ => rfl) fun _ => 0).mp h 12 (by norm_num)
    (by norm_num) ⟨by decide, by decide, by decide⟩

/-- The cells of two double words, the first of which is read back. -/
structure Apart (decode : BitVec 32 → κ) (pmem : BitVec 32) : Prop where
  halves : decode pmem ≠ decode (pmem + 4)
  low : ∀ k ∈ [8#32, 12#32], decode pmem ≠ decode (pmem + k)
  high : ∀ k ∈ [8#32, 12#32], decode (pmem + 4) ≠ decode (pmem + k)

theorem append_eq_iff (d : BitVec 64) (hi lo : BitVec 32) :
    hi ++ lo = d ↔ lo = d.setWidth 32 ∧ hi = d.extractLsb' 32 32 := by
  constructor
  · rintro rfl
    constructor
    · apply BitVec.eq_of_getLsbD_eq
      intro i h
      rw [BitVec.getLsbD_setWidth, BitVec.getLsbD_append, if_pos h]
      simp [h]
    · apply BitVec.eq_of_getLsbD_eq
      intro i h
      rw [BitVec.getLsbD_extractLsb', BitVec.getLsbD_append, if_neg (by omega)]
      simp [h]
  · rintro ⟨rfl, rfl⟩
    apply BitVec.eq_of_getLsbD_eq
    intro i h
    rw [BitVec.getLsbD_append]
    split_ifs with hlt
    · simp [hlt]
    · have hback : 32 + (i - 32) = i := by omega
      rw [BitVec.getLsbD_extractLsb', hback]
      simp
      omega

/-- A double word written and read back after the next one has been written. -/
theorem load64_copy64 {pmem : BitVec 32} (h : Apart m.decode pmem) (d : BitVec 64)
    (s : κ → BitVec 32) :
    load64 m pmem (copy64 m othertestdata (pmem + 8) (copy64 m d pmem s)) =
      m.sense (m.decode (pmem + 4)) (d.extractLsb' 32 32) ++
        m.sense (m.decode pmem) (d.setWidth 32) := by
  have hnext : pmem + 8 + 4 = pmem + 12 := by
    rw [BitVec.add_assoc]
    rfl
  have h8 := h.low 8 (List.mem_cons_self ..)
  have h12 := h.low 12 (List.mem_cons_of_mem _ (List.mem_cons_self ..))
  have h8' := h.high 8 (List.mem_cons_self ..)
  have h12' := h.high 12 (List.mem_cons_of_mem _ (List.mem_cons_self ..))
  simp only [load64, copy64, hnext]
  rw [read_write_of_ne m h12, read_write_of_ne m h8, read_write_of_ne m h.halves,
    read_write_self, read_write_of_ne m h12', read_write_of_ne m h8', read_write_self]

theorem datalineLoop_eq_zero_iff {pmem : BitVec 32} (h : Apart m.decode pmem)
    (ds : List (BitVec 64)) (s : κ → BitVec 32) :
    (datalineLoop m pmem ds s).1 = 0 ↔ ∀ d ∈ ds,
      m.sense (m.decode pmem) (d.setWidth 32) = d.setWidth 32 ∧
        m.sense (m.decode (pmem + 4)) (d.extractLsb' 32 32) = d.extractLsb' 32 32 := by
  induction ds generalizing s with
  | nil => exact iff_of_true rfl fun d hd => absurd hd List.not_mem_nil
  | cons d ds ih =>
    simp only [datalineLoop, load64_copy64 m h]
    rw [List.forall_mem_cons, ← append_eq_iff]
    by_cases hd : m.sense (m.decode (pmem + 4)) (d.extractLsb' 32 32) ++
        m.sense (m.decode pmem) (d.setWidth 32) = d
    · rw [if_neg (not_not.mpr hd), ih]
      exact (and_iff_right hd).symm
    · rw [if_pos hd]
      exact iff_of_false (by norm_num) fun hall => hd hall.1

theorem separating_low : Separating (testdata.map fun d => d.setWidth 32) :=
  separating_of_separates (by decide +kernel)

theorem separating_high : Separating (testdata.map fun d => d.extractLsb' 32 32) :=
  separating_of_separates (by decide +kernel)

/-- A memory whose cells are read over data lines. -/
def wiredMemory (decode : BitVec 32 → κ) (ls : κ → Fin 32 → Line 32) : Memory (BitVec 32) κ 32 :=
  ⟨decode, fun c => overLines (ls c)⟩

/-- The test of the data lines returns 0 exactly if every line carries its own bit: any line
stuck, crossed with another or bridged to others is found. -/
theorem memoryTestDataline_eq_zero_iff {decode : BitVec 32 → κ} {pmem : BitVec 32}
    (h : Apart decode pmem) (ls : κ → Fin 32 → Line 32) (s : κ → BitVec 32) :
    (memoryTestDataline (wiredMemory decode ls) pmem s).1 = 0 ↔
      OwnLines (ls (decode pmem)) ∧ OwnLines (ls (decode (pmem + 4))) := by
  rw [memoryTestDataline, datalineLoop_eq_zero_iff _ h, ← ownLines_iff separating_low,
    ← ownLines_iff separating_high, List.forall_mem_map, List.forall_mem_map]
  exact ⟨fun hall => ⟨fun d hd => (hall d hd).1, fun d hd => (hall d hd).2⟩,
    fun hall d hd => ⟨hall.1 d hd, hall.2 d hd⟩⟩

theorem apart_plain : Apart id (0x40000000 : BitVec 32) :=
  ⟨by decide, List.forall_mem_cons.mpr ⟨by decide, List.forall_mem_singleton.mpr (by decide)⟩,
    List.forall_mem_cons.mpr ⟨by decide, List.forall_mem_singleton.mpr (by decide)⟩⟩

/-- Each line by itself. -/
def ownLine (i : Fin 32) : Line 32 := ⟨true, {i}⟩

theorem ownLines_ownLine : OwnLines ownLine := fun _ => rfl

theorem memoryTestDataline_plain :
    (memoryTestDataline (wiredMemory id fun _ => ownLine) (0x40000000 : BitVec 32)
      (fun _ => 0)).1 = 0 :=
  (memoryTestDataline_eq_zero_iff apart_plain (fun _ => ownLine) fun _ => 0).mpr
    ⟨ownLines_ownLine, ownLines_ownLine⟩

/-- A bank of whole words, of two double words at least, in the address space and not all
of it. -/
structure BankFits (start size : ℕ) : Prop where
  aligned : start % 4 = 0
  words : size % 4 = 0
  least : 16 ≤ size
  inside : start + size ≤ 2 ^ 32
  short : size < 2 ^ 32

section
variable {decode : BitVec 32 → κ} {low high : κ → BitVec 32} {start : BitVec 32} {size : ℕ}

omit [DecidableEq κ] in
theorem sense_of_sound (h : Sound decode low high start size) {i : ℕ} (hi : i < size / 4)
    (v : BitVec 32) : (stuckMemory decode low high).sense (decode (wordAt start i)) v = v := by
  obtain ⟨hlow, hhigh⟩ := h.free i hi
  change stuck (low (decode (wordAt start i))) (high (decode (wordAt start i))) v = v
  rw [hlow, hhigh, stuck_zero]

theorem toNat_wordAt (hfit : BankFits start.toNat size) {i : ℕ} (hi : i < size / 4) :
    (wordAt start i).toNat = start.toNat + 4 * i := by
  have hinside := hfit.inside
  rw [wordAt, BitVec.toNat_add, BitVec.toNat_ofNat]
  omega

/-- An aligned address in a bank is one of its words. -/
theorem exists_wordAt (hfit : BankFits start.toNat size) {a : BitVec 32} (ha : a.toNat % 4 = 0)
    (hle : start.toNat ≤ a.toNat) (hlt : a.toNat < start.toNat + size) :
    ∃ i < size / 4, wordAt start i = a := by
  have haligned := hfit.aligned
  have hwords := hfit.words
  have hi : (a.toNat - start.toNat) / 4 < size / 4 := by omega
  refine ⟨(a.toNat - start.toNat) / 4, hi, BitVec.eq_of_toNat_eq ?_⟩
  rw [toNat_wordAt hfit hi]
  omega

/-- Flipping a line above the second leaves an address aligned. -/
theorem flip_aligned {a : BitVec 32} (ha : a.toNat % 4 = 0) {k : ℕ} (hk : 2 ≤ k) (hk' : k < 32) :
    (a ^^^ (1#32 <<< k)).toNat % 4 = 0 := by
  have hbit : (1#32 <<< k).toNat = 2 ^ k := by
    rw [BitVec.toNat_shiftLeft, BitVec.toNat_ofNat, Nat.shiftLeft_eq]
    have hlt : 2 ^ k < 2 ^ 32 := Nat.pow_lt_pow_right (by norm_num) hk'
    rw [Nat.mod_eq_of_lt (by norm_num : 1 < 2 ^ 32), one_mul, Nat.mod_eq_of_lt hlt]
  have hlow : 2 ^ k % 2 ^ 2 = 0 := Nat.mod_eq_zero_of_dvd (Nat.pow_dvd_pow 2 hk)
  rw [BitVec.toNat_xor, hbit, show 4 = 2 ^ 2 from rfl, Nat.xor_mod_two_pow, hlow,
    show a.toNat % 2 ^ 2 = 0 from ha]
  rfl

/-- In a sound bank no address line fails, from any of its words. -/
theorem addrline_of_sound (hfit : BankFits start.toNat size)
    (h : Sound decode low high start size)
    {i : ℕ} (hi : i < size / 4) (s : κ → BitVec 32) :
    (memoryTestAddrline (stuckMemory decode low high) (wordAt start i) start size s).1 = 0 := by
  refine (addrlineLoop_eq_zero_iff _ (sense_of_sound h hi) (show 2 + 31 = 33 from rfl) s).mpr ?_
  rintro k hk hk' ⟨hle, hlt, hcell⟩
  have hinside := hfit.inside
  have hword : (wordAt start i).toNat % 4 = 0 := by
    have haligned := hfit.aligned
    rw [toNat_wordAt hfit hi]
    omega
  have htop : (wordAt start i ^^^ 1#32 <<< k).toNat < start.toNat + size := by
    have hlt' := BitVec.lt_def.mp hlt
    rw [BitVec.toNat_add, BitVec.toNat_ofNat] at hlt'
    refine hlt'.trans_le ((Nat.mod_le _ _).trans ?_)
    have := Nat.mod_le size (2 ^ 32)
    omega
  obtain ⟨j, hj, hjword⟩ := exists_wordAt hfit (flip_aligned hword hk hk')
    (BitVec.le_def.mp hle) htop
  rw [← hjword] at hcell
  have hij := h.distinct j hj i hi hcell
  rw [hij] at hjword
  have hzero : 1#32 <<< k = 0 := by
    have := congrArg (fun v => wordAt start i ^^^ v) hjword
    simp only [BitVec.xor_self, ← BitVec.xor_assoc, BitVec.zero_xor] at this
    exact this.symm
  have hbit := congrArg (fun v : BitVec 32 => v.getLsbD k) hzero
  simp [hk'] at hbit

omit [DecidableEq κ] in
theorem wordAt_zero (start : BitVec 32) : wordAt start 0 = start := by
  simp [wordAt]

/-- In a sound bank every pattern comes back over the data lines. -/
theorem dataline_of_sound (hfit : BankFits start.toNat size)
    (h : Sound decode low high start size)
    (s : κ → BitVec 32) :
    (memoryTestDataline (stuckMemory decode low high) start s).1 = 0 := by
  have hleast := hfit.least
  have hword (i : ℕ) (hi : i < 4) : i < size / 4 := by omega
  have hne (i j : ℕ) (hi : i < 4) (hj : j < 4) (hij : i ≠ j) :
      decode (wordAt start i) ≠ decode (wordAt start j) := fun hcell =>
    hij (h.distinct i (hword i hi) j (hword j hj) hcell)
  have h0 := wordAt_zero start
  have hapart : Apart decode start := by
    refine ⟨?_, ?_, ?_⟩
    · have := hne 0 1 (by norm_num) (by norm_num) (by norm_num)
      rwa [h0] at this
    · have h8 := hne 0 2 (by norm_num) (by norm_num) (by norm_num)
      have h12 := hne 0 3 (by norm_num) (by norm_num) (by norm_num)
      rw [h0] at h8 h12
      exact List.forall_mem_cons.mpr ⟨h8, List.forall_mem_singleton.mpr h12⟩
    · exact List.forall_mem_cons.mpr ⟨hne 1 2 (by norm_num) (by norm_num) (by norm_num),
        List.forall_mem_singleton.mpr (hne 1 3 (by norm_num) (by norm_num) (by norm_num))⟩
  rw [memoryTestDataline, datalineLoop_eq_zero_iff _ hapart]
  intro d _
  refine ⟨?_, sense_of_sound h (hword 1 (by norm_num)) _⟩
  have hsense := sense_of_sound h (hword 0 (by norm_num)) (d.setWidth 32)
  rwa [h0] at hsense

/-- A bank passes exactly if it is sound. -/
theorem memoryTestBank_isSome_iff {size : BitVec 32} (hfit : BankFits start.toNat size.toNat)
    (s : κ → BitVec 32) : (memoryTestBank (stuckMemory decode low high) start size s).isSome ↔
      Sound decode low high start size.toNat := by
  have hsize : size.toNat ≤ 2 ^ 32 := hfit.short.le
  unfold memoryTestBank
  generalize size.toNat = size at *
  constructor
  · intro h
    simp only at h
    split_ifs at h with hlines hpatterns
    · exact absurd h Bool.false_ne_true
    · exact absurd h Bool.false_ne_true
    · exact (memoryTestPatterns_eq_zero_iff hsize _).mp (not_not.mp hpatterns)
  · intro h
    have hleast := hfit.least
    have hwords := hfit.words
    -- the last double word begins two words before the end
    have hlast : start + BitVec.ofNat 32 size - 8 = wordAt start (size / 4 - 2) := by
      have hinside := hfit.inside
      have h8 : (8 : BitVec 32).toNat = 8 := rfl
      apply BitVec.eq_of_toNat_eq
      rw [toNat_wordAt hfit (by omega), BitVec.toNat_sub, BitVec.toNat_add, BitVec.toNat_ofNat, h8]
      omega
    have hlines (s : κ → BitVec 32) :
        (memoryTestLines (stuckMemory decode low high) start size s).1 = 0 := by
      refine runTests_of_all (fun t ht s => ?_) s
      simp only [List.mem_cons, List.not_mem_nil, or_false] at ht
      rcases ht with rfl | rfl | rfl
      · exact dataline_of_sound hfit h s
      · have hfirst := addrline_of_sound hfit h (show 0 < size / 4 by omega) s
        rwa [wordAt_zero] at hfirst
      · rw [hlast]
        exact addrline_of_sound hfit h (by omega) s
    rw [if_neg (not_not.mpr (hlines s))]
    simp only
    rw [if_neg (not_not.mpr ((memoryTestPatterns_eq_zero_iff hsize _).mpr h))]
    rfl

end

section
variable {decode : BitVec 32 → κ} {low high : κ → BitVec 32}

/-- No bank with a size has a stuck bit or two words in one cell. -/
def AllSound (decode : BitVec 32 → κ) (low high : κ → BitVec 32) (banks : List Bank) : Prop :=
  ∀ b ∈ banks, 0 < b.2 → Sound decode low high (b.1.setWidth 32) b.2.toNat

theorem memoryTestRound_isSome_iff {banks : List Bank}
    (hfit : ∀ b ∈ banks, 0 < b.2 → BankFits b.1.toNat b.2.toNat) (s : κ → BitVec 32) :
    (memoryTestRound (stuckMemory decode low high) banks s).isSome ↔
      AllSound decode low high banks := by
  induction banks generalizing s with
  | nil => exact iff_of_true rfl fun b hb => absurd hb List.not_mem_nil
  | cons b banks ih =>
    obtain ⟨start, size⟩ := b
    have ih := fun s => ih (fun b hb => hfit b (List.mem_cons_of_mem _ hb)) s
    rw [memoryTestRound, AllSound, List.forall_mem_cons]
    by_cases hsize : 0 < size
    · have hfits : BankFits start.toNat size.toNat :=
        hfit (start, size) (List.mem_cons_self ..) hsize
      have hstart : (start.setWidth 32).toNat = start.toNat := by
        have := hfits.least
        have := hfits.inside
        rw [BitVec.toNat_setWidth, Nat.mod_eq_of_lt (by omega)]
      have hwords : (size.setWidth 32).toNat = size.toNat := by
        rw [BitVec.toNat_setWidth, Nat.mod_eq_of_lt hfits.short]
      have hbank := @memoryTestBank_isSome_iff κ _ decode low high (start.setWidth 32)
        (size.setWidth 32) (by rwa [hstart, hwords]) s
      rw [hwords] at hbank
      rw [if_pos hsize]
      cases hr : memoryTestBank (stuckMemory decode low high) (start.setWidth 32)
          (size.setWidth 32) s with
      | none =>
        rw [hr] at hbank
        exact iff_of_false Bool.false_ne_true fun h => Bool.false_ne_true (hbank.mpr (h.1 hsize))
      | some s' =>
        rw [hr] at hbank
        rw [Option.bind_some, ih]
        exact (and_iff_right fun _ => hbank.mp rfl).symm
    · rw [if_neg hsize, ih]
      exact (and_iff_right fun h => absurd h hsize).symm

/-- The board gets to the reset after nine rounds exactly if no bank has a stuck bit or two
words in one cell. -/
theorem memoryTest_iff {banks : List Bank}
    (hfit : ∀ b ∈ banks, 0 < b.2 → BankFits b.1.toNat b.2.toNat) (s : κ → BitVec 32) :
    memoryTest (stuckMemory decode low high) banks s = true ↔
      AllSound decode low high banks := by
  have hrounds (n : ℕ) (s : κ → BitVec 32) :
      (memoryTestRounds (stuckMemory decode low high) banks (n + 1) s).isSome ↔
        AllSound decode low high banks := by
    induction n generalizing s with
    | zero =>
      rw [← memoryTestRound_isSome_iff hfit s, memoryTestRounds]
      cases memoryTestRound (stuckMemory decode low high) banks s <;> rfl
    | succ n ih =>
      have hround : (memoryTestRound (stuckMemory decode low high) banks s).isSome ↔
          AllSound decode low high banks := memoryTestRound_isSome_iff hfit s
      rw [memoryTestRounds]
      cases hr : memoryTestRound (stuckMemory decode low high) banks s with
      | none =>
        rw [hr] at hround
        exact iff_of_false Bool.false_ne_true fun h => Bool.false_ne_true (hround.mpr h)
      | some s' => rw [Option.bind_some, ih]
  exact hrounds 8 s

/-- One bank of 64 bytes. -/
def smallBank : Bank := (0x40000000, 64)

theorem smallBank_fits : ∀ b ∈ [smallBank], 0 < b.2 → BankFits b.1.toNat b.2.toNat := by
  intro b hb _
  obtain rfl : b = smallBank := List.mem_singleton.mp hb
  exact ⟨by decide, by decide, by decide, by decide, by decide⟩

end

end

/-- In a memory with a cell for each address the words are apart. -/
theorem smallBank_sound : AllSound id (fun _ => 0) (fun _ => 0) [smallBank] := by
  intro b hb hsize
  obtain rfl : b = smallBank := List.mem_singleton.mp hb
  have hfit : BankFits (smallBank.1.setWidth 32).toNat smallBank.2.toNat :=
    smallBank_fits smallBank hb hsize
  refine ⟨fun _ _ => ⟨rfl, rfl⟩, fun i hi j hj hij => ?_⟩
  have hword := congrArg BitVec.toNat hij
  change (wordAt _ i).toNat = (wordAt _ j).toNat at hword
  rw [toNat_wordAt hfit hi, toNat_wordAt hfit hj] at hword
  omega

theorem memoryTest_plain :
    memoryTest (stuckMemory id (fun _ => 0) fun _ => 0) [smallBank] (fun _ : BitVec 32 => 0) =
      true :=
  (memoryTest_iff smallBank_fits fun _ => 0).mpr smallBank_sound

end UBoot.Board
