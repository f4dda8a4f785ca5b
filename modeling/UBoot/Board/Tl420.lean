import Mathlib.Tactic

/-!
# Where the tables for the TL420 go

`tl420_set_args` gives each table that the power management processor needs a place in its
data memory, one behind the other; `tl420_boot` then copies the tables. The DQS table of a
memory controller that is not used gets no place, but it is copied all the same.
-/
namespace UBoot.Board

def topRam1Base : UInt32 := 0xE0040000
def tl420RecoveryRam : UInt32 := topRam1Base + 0x00020000
def tl420CodeRam : UInt32 := tl420RecoveryRam
def tl420DataRam : UInt32 := tl420RecoveryRam + 0x0000C000
def tl420MemctlDataRam : UInt32 := tl420RecoveryRam + 0x0000E000
def tl420ArgsSize : UInt32 := 256
def tl420MemctlDataSize : UInt32 := 0x00002000 - tl420ArgsSize
def tl420ArgsRam : UInt32 := tl420RecoveryRam + 0x00010000 - tl420ArgsSize

def memctlCkeFix : UInt32 := (1 : UInt32) <<< 8
def memctlDqsEn : UInt32 := (1 : UInt32) <<< 16
def memctlLpEn : UInt32 := (1 : UInt32) <<< 17
def memctlPdEn : UInt32 := (1 : UInt32) <<< 18
def memctlUse0 : UInt32 := (1 : UInt32) <<< 24
def memctlUse1 : UInt32 := (1 : UInt32) <<< 31
def dumpEnable : UInt32 := (1 : UInt32) <<< 1
def printEnable : UInt32 := (1 : UInt32) <<< 4

/-- The sizes in the global data that say which memory controllers are used. -/
structure GlobalData where
  dramSize : UInt64
  memctl1Cs0Size : UInt64
  memctl1Cs1Size : UInt64

/-- The lengths of the tables in bytes. -/
structure Lengths where
  memctlInitDatas : UInt32
  memctl0LpDatas : UInt32
  memctl1LpDatas : UInt32
  memctlDqs : UInt32

/-- The fields of `struct tl420_args` that `tl420_set_args` fills in. -/
structure Tl420Args where
  flags : UInt32
  dumpType : UInt32
  debugGpio : Int32
  debugGpioDdr : Int32
  memctlParaSize : UInt32
  memctlParaAddr : UInt32
  memctl0LpSize : UInt32
  memctl0LpAddr : UInt32
  memctl1LpSize : UInt32
  memctl1LpAddr : UInt32
  memctl0DqsSize : UInt32
  memctl0DqsAddr : UInt32
  memctl1DqsSize : UInt32
  memctl1DqsAddr : UInt32

/-- `sizeof(struct memctl_data)` and `sizeof(struct tl420_args)`. -/
def memctlDataSize : UInt32 := 8
def tl420ArgsLen : UInt32 := 17 * 4

section Layout
variable (pdEnable : Bool) (gd : GlobalData) (len : Lengths)

def GlobalData.use0 : Bool := decide (gd.dramSize ≠ 0)
def GlobalData.use1 : Bool := decide (gd.memctl1Cs0Size ≠ 0 ∨ gd.memctl1Cs1Size ≠ 0)

/-- `tl420_set_args`, with `TL420_MEMCTL_PD_ENABLE` a parameter; `none` is its -1. -/
def tl420SetArgs : Option Tl420Args :=
  let flags := if pdEnable then memctlCkeFix ||| memctlLpEn ||| memctlPdEn else 0
  let flags := flags ||| memctlDqsEn ||| printEnable ||| dumpEnable
  let paraAddr := tl420MemctlDataRam
  let length := 0 + len.memctlInitDatas
  let lp0Addr := tl420MemctlDataRam + length
  let length := length + len.memctl0LpDatas
  let lp1Addr := tl420MemctlDataRam + length
  let length := length + len.memctl1LpDatas
  let dqs0Addr := if gd.use0 then tl420MemctlDataRam + length else 0
  let dqs0Size := if gd.use0 then len.memctlDqs / memctlDataSize else 0
  let flags := if gd.use0 then flags ||| memctlUse0 else flags
  let length := if gd.use0 then length + len.memctlDqs else length
  let dqs1Addr := if gd.use1 then tl420MemctlDataRam + length else 0
  let dqs1Size := if gd.use1 then len.memctlDqs / memctlDataSize else 0
  let flags := if gd.use1 then flags ||| memctlUse1 else flags
  let length := if gd.use1 then length + len.memctlDqs else length
  if tl420MemctlDataSize < length ∨ paraAddr % 8 ≠ 0 ∨ lp0Addr % 8 ≠ 0 ∨ lp1Addr % 8 ≠ 0 ∨
      dqs0Addr % 8 ≠ 0 ∨ dqs1Addr % 8 ≠ 0 ∨ tl420ArgsSize < tl420ArgsLen then none
  else some
    { flags := flags
      dumpType := 0
      debugGpio := -1
      debugGpioDdr := -1
      memctlParaSize := len.memctlInitDatas / memctlDataSize
      memctlParaAddr := paraAddr
      memctl0LpSize := len.memctl0LpDatas / memctlDataSize
      memctl0LpAddr := lp0Addr
      memctl1LpSize := len.memctl1LpDatas / memctlDataSize
      memctl1LpAddr := lp1Addr
      memctl0DqsSize := dqs0Size
      memctl0DqsAddr := dqs0Addr
      memctl1DqsSize := dqs1Size
      memctl1DqsAddr := dqs1Addr }

/-- A call of `memcpy`: where it writes, and how many bytes. -/
structure Copy where
  dst : UInt32
  len : UInt32

/-- The tables that `tl420_boot` copies. -/
def tableCopies (args : Tl420Args) : List Copy :=
  [⟨args.memctlParaAddr, len.memctlInitDatas⟩, ⟨args.memctl0LpAddr, len.memctl0LpDatas⟩,
    ⟨args.memctl1LpAddr, len.memctl1LpDatas⟩, ⟨args.memctl0DqsAddr, len.memctlDqs⟩,
    ⟨args.memctl1DqsAddr, len.memctlDqs⟩]

/-- All copies of `tl420_boot`, the code and data of the processor first. -/
def tl420Boot (codeLen dataLen : UInt32) : Option (List Copy) :=
  (tl420SetArgs pdEnable gd len).map fun args =>
    [⟨tl420CodeRam, codeLen⟩, ⟨tl420DataRam, dataLen⟩] ++ tableCopies len args ++
      [⟨tl420ArgsRam, tl420ArgsLen⟩]

/-- The copy writes the byte at this address. -/
def Copy.Writes (c : Copy) (x : ℕ) : Prop := c.dst.toNat ≤ x ∧ x < c.dst.toNat + c.len.toNat

/-- No byte is written by two tables, and each lies in the data memory, outside the
arguments. -/
def LayoutOk (tables : List Copy) : Prop :=
  tables.Pairwise (fun c d => ∀ x, c.Writes x → ¬ d.Writes x) ∧
  ∀ c ∈ tables, ∀ x, c.Writes x →
    tl420MemctlDataRam.toNat ≤ x ∧
    x < tl420MemctlDataRam.toNat + tl420MemctlDataSize.toNat ∧
    ¬ Copy.Writes ⟨tl420ArgsRam, tl420ArgsLen⟩ x

/-- The bytes of all tables that get a place. -/
def placedBytes : ℕ :=
  len.memctlInitDatas.toNat + len.memctl0LpDatas.toNat + len.memctl1LpDatas.toNat +
    (if gd.use0 then len.memctlDqs.toNat else 0) + (if gd.use1 then len.memctlDqs.toNat else 0)

end Layout

section Places
variable {pdEnable : Bool} {gd : GlobalData} {len : Lengths} {args : Tl420Args}

/-- What a copy into the data memory must satisfy. -/
def Copy.Inside (c : Copy) : Prop :=
  c.len = 0 ∨ tl420MemctlDataRam ≤ c.dst ∧
    c.dst.toNat + c.len.toNat ≤ tl420MemctlDataRam.toNat + tl420MemctlDataSize.toNat

theorem inside_iff (c : Copy) : c.Inside ↔ ∀ x, c.Writes x →
    tl420MemctlDataRam.toNat ≤ x ∧
    x < tl420MemctlDataRam.toNat + tl420MemctlDataSize.toNat ∧
    ¬ Copy.Writes ⟨tl420ArgsRam, tl420ArgsLen⟩ x := by
  have hargs : tl420ArgsRam.toNat = tl420MemctlDataRam.toNat + tl420MemctlDataSize.toNat := by
    decide
  rw [Copy.Inside, UInt32.le_iff_toNat_le]
  constructor
  · rintro (hzero | ⟨hlow, hhigh⟩) x ⟨hx, hx'⟩
    · rw [hzero, UInt32.toNat_zero] at hx'
      omega
    · refine ⟨hlow.trans hx, by omega, fun ⟨h, _⟩ => ?_⟩
      rw [show (Copy.mk tl420ArgsRam tl420ArgsLen).dst = tl420ArgsRam from rfl, hargs] at h
      omega
  · intro h
    by_cases hzero : c.len = 0
    · exact .inl hzero
    · have hpos : 0 < c.len.toNat := Nat.pos_of_ne_zero fun h0 => hzero (UInt32.toNat_inj.mp h0)
      obtain ⟨hlow, -⟩ := h c.dst.toNat ⟨le_rfl, by omega⟩
      obtain ⟨-, hhigh, -⟩ := h (c.dst.toNat + c.len.toNat - 1) ⟨by omega, by omega⟩
      exact .inr ⟨hlow, by omega⟩

/-- The addresses of the tables, and the check of the length, when all is said in words. -/
theorem tl420SetArgs_spec (h : tl420SetArgs pdEnable gd len = some args) :
    ¬ tl420MemctlDataSize < len.memctlInitDatas + len.memctl0LpDatas + len.memctl1LpDatas +
      (if gd.use0 then len.memctlDqs else 0) + (if gd.use1 then len.memctlDqs else 0) ∧
    args.memctlParaAddr = tl420MemctlDataRam ∧
    args.memctl0LpAddr = tl420MemctlDataRam + len.memctlInitDatas ∧
    args.memctl1LpAddr = tl420MemctlDataRam + (len.memctlInitDatas + len.memctl0LpDatas) ∧
    args.memctl0DqsAddr = (if gd.use0 then tl420MemctlDataRam +
      (len.memctlInitDatas + len.memctl0LpDatas + len.memctl1LpDatas) else 0) ∧
    args.memctl1DqsAddr = (if gd.use1 then tl420MemctlDataRam +
      (len.memctlInitDatas + len.memctl0LpDatas + len.memctl1LpDatas +
        (if gd.use0 then len.memctlDqs else 0)) else 0) := by
  simp only [tl420SetArgs, Option.ite_none_left_eq_some] at h
  obtain ⟨hcheck, h⟩ := h
  injection h with h
  subst h
  refine ⟨fun hlt => hcheck (.inl ?_), rfl, ?_, ?_, ?_, ?_⟩
  · cases hone : gd.use1 <;> cases hzero : gd.use0 <;> simpa [hone, hzero] using hlt
  all_goals cases gd.use0 <;> simp

theorem length_toNat (gd : GlobalData) (len : Lengths) :
    (len.memctlInitDatas + len.memctl0LpDatas + len.memctl1LpDatas +
      (if gd.use0 then len.memctlDqs else 0) + (if gd.use1 then len.memctlDqs else 0)).toNat =
    placedBytes gd len % 2 ^ 32 := by
  rw [placedBytes]
  cases gd.use0 <;> cases gd.use1 <;>
    simp only [if_true, if_false, Bool.false_eq_true, UInt32.toNat_add, UInt32.toNat_zero] <;>
    omega

/-- When the sum of the lengths does not wrap around, the tables that get a place stand one
behind the other in the data memory. -/
theorem places (h : tl420SetArgs pdEnable gd len = some args)
    (hsum : placedBytes gd len < 2 ^ 32) :
    placedBytes gd len ≤ tl420MemctlDataSize.toNat ∧
    args.memctlParaAddr.toNat = tl420MemctlDataRam.toNat ∧
    args.memctl0LpAddr.toNat = tl420MemctlDataRam.toNat + len.memctlInitDatas.toNat ∧
    args.memctl1LpAddr.toNat = tl420MemctlDataRam.toNat + len.memctlInitDatas.toNat +
      len.memctl0LpDatas.toNat ∧
    (gd.use0 = true → args.memctl0DqsAddr.toNat = tl420MemctlDataRam.toNat +
      len.memctlInitDatas.toNat + len.memctl0LpDatas.toNat + len.memctl1LpDatas.toNat) ∧
    (gd.use1 = true → args.memctl1DqsAddr.toNat = tl420MemctlDataRam.toNat +
      len.memctlInitDatas.toNat + len.memctl0LpDatas.toNat + len.memctl1LpDatas.toNat +
      (if gd.use0 then len.memctlDqs.toNat else 0)) := by
  obtain ⟨hcheck, hpara, hlp0, hlp1, hdqs0, hdqs1⟩ := tl420SetArgs_spec h
  have hram : tl420MemctlDataRam.toNat = 0xE006E000 := by decide
  have hsize : tl420MemctlDataSize.toNat = 7936 := by decide
  rw [UInt32.lt_iff_toNat_lt, length_toNat, Nat.mod_eq_of_lt hsum, hsize, not_lt] at hcheck
  refine ⟨hsize.symm ▸ hcheck, by rw [hpara], ?_⟩
  rw [placedBytes] at hcheck
  -- the offsets are at most the sum, so that no address wraps around
  have hsum0 : len.memctlInitDatas.toNat + len.memctl0LpDatas.toNat +
    len.memctl1LpDatas.toNat ≤ 7936 := by omega
  rw [hlp0, hlp1, hdqs0, hdqs1]
  simp only [UInt32.toNat_add, hram]
  refine ⟨by omega, by omega, fun huse => ?_, fun huse => ?_⟩
  · rw [if_pos huse]
    simp only [UInt32.toNat_add, hram]
    omega
  · rw [if_pos huse] at hcheck ⊢
    cases hzero : gd.use0 <;>
      simp only [hzero, if_true, if_false, Bool.false_eq_true, UInt32.toNat_add, hram,
        UInt32.toNat_zero] at hcheck ⊢ <;>
      omega

/-- A table that has no place is copied to address 0, so it must be empty. -/
theorem unused_empty (h : tl420SetArgs pdEnable gd len = some args)
    (hok : LayoutOk (tableCopies len args)) :
    len.memctlDqs = 0 ∨ gd.use0 = true ∧ gd.use1 = true := by
  obtain ⟨-, -, -, -, hdqs0, hdqs1⟩ := tl420SetArgs_spec h
  rcases (inside_iff ⟨args.memctl0DqsAddr, len.memctlDqs⟩).mpr
    (hok.2 _ (by simp [tableCopies])) with hzero | ⟨hlow0, -⟩
  · exact .inl hzero
  rcases (inside_iff ⟨args.memctl1DqsAddr, len.memctlDqs⟩).mpr
    (hok.2 _ (by simp [tableCopies])) with hzero | ⟨hlow1, -⟩
  · exact .inl hzero
  refine .inr ⟨?_, ?_⟩
  · by_contra huse
    rw [hdqs0, if_neg huse] at hlow0
    exact absurd (show tl420MemctlDataRam ≤ 0 from hlow0) (by decide)
  · by_contra huse
    rw [hdqs1, if_neg huse] at hlow1
    exact absurd (show tl420MemctlDataRam ≤ 0 from hlow1) (by decide)

/-- Tables inside the data memory have lengths whose sum does not wrap around. -/
theorem sum_small (h : tl420SetArgs pdEnable gd len = some args)
    (hok : LayoutOk (tableCopies len args)) : placedBytes gd len < 2 ^ 32 := by
  obtain ⟨-, hpara, hlp0, hlp1, hdqs0, hdqs1⟩ := tl420SetArgs_spec h
  have hram : tl420MemctlDataRam.toNat = 0xE006E000 := by decide
  have hsize : tl420MemctlDataSize.toNat = 7936 := by decide
  have hin : ∀ c ∈ tableCopies len args, c.Inside := fun c hc => (inside_iff c).mpr (hok.2 c hc)
  simp only [tableCopies, List.mem_cons, List.not_mem_nil, or_false, forall_eq_or_imp,
    forall_eq, Copy.Inside, UInt32.le_iff_toNat_le, ← UInt32.toNat_inj, UInt32.toNat_zero,
    hpara, hlp0, hlp1, hdqs0, hdqs1, hram, hsize] at hin
  obtain ⟨hin0, hin1, hin2, hin3, hin4⟩ := hin
  -- the end of each table bounds the offset of the next
  have hsum0 : len.memctlInitDatas.toNat ≤ 7936 := by omega
  have hsum1 : len.memctlInitDatas.toNat + len.memctl0LpDatas.toNat ≤ 7936 := by
    rw [UInt32.toNat_add, hram] at hin1
    omega
  have hsum2 : len.memctlInitDatas.toNat + len.memctl0LpDatas.toNat +
      len.memctl1LpDatas.toNat ≤ 7936 := by
    rw [UInt32.toNat_add, UInt32.toNat_add, hram] at hin2
    omega
  rw [placedBytes]
  cases hzero : gd.use0 <;> cases hone : gd.use1 <;>
    simp only [hzero, hone, if_true, if_false, Bool.false_eq_true, UInt32.toNat_add,
      UInt32.toNat_zero, hram] at * <;>
    omega

/-- A copy that ends where another begins, or before, shares no byte with it. -/
theorem apart_of_le {a b m n : UInt32} (h : a.toNat + m.toNat ≤ b.toNat) :
    ∀ x, Copy.Writes ⟨a, m⟩ x → ¬ Copy.Writes ⟨b, n⟩ x :=
  fun _ hc hd => absurd (hc.2.trans_le (h.trans hd.1)) (lt_irrefl _)

theorem apart_of_empty {c d : Copy} (h : d.len = 0) : ∀ x, c.Writes x → ¬ d.Writes x := by
  rintro x - ⟨hstart, hend⟩
  rw [h, UInt32.toNat_zero] at hend
  omega

theorem inside_of_le {a n : UInt32} (hlow : tl420MemctlDataRam.toNat ≤ a.toNat)
    (hhigh : a.toNat + n.toNat ≤ tl420MemctlDataRam.toNat + tl420MemctlDataSize.toNat) :
    Copy.Inside ⟨a, n⟩ :=
  .inr ⟨UInt32.le_iff_toNat_le.mpr hlow, hhigh⟩

theorem layoutOk_iff (h : tl420SetArgs pdEnable gd len = some args) :
    LayoutOk (tableCopies len args) ↔
    placedBytes gd len < 2 ^ 32 ∧ (len.memctlDqs = 0 ∨ gd.use0 = true ∧ gd.use1 = true) := by
  refine ⟨fun hok => ⟨sum_small h hok, unused_empty h hok⟩, ?_⟩
  rintro ⟨hsum, huse⟩
  obtain ⟨hle, hpara, hlp0, hlp1, hdqs0, hdqs1⟩ := places h hsum
  rw [placedBytes] at hle
  -- an empty table writes nothing, wherever it is copied to
  have hdqs : len.memctlDqs = 0 ∨ args.memctl0DqsAddr.toNat = tl420MemctlDataRam.toNat +
      len.memctlInitDatas.toNat + len.memctl0LpDatas.toNat + len.memctl1LpDatas.toNat ∧
      args.memctl1DqsAddr.toNat = tl420MemctlDataRam.toNat + len.memctlInitDatas.toNat +
        len.memctl0LpDatas.toNat + len.memctl1LpDatas.toNat + len.memctlDqs.toNat ∧
      args.memctl1DqsAddr.toNat + len.memctlDqs.toNat ≤
        tl420MemctlDataRam.toNat + tl420MemctlDataSize.toNat := by
    rcases huse with hempty | ⟨huse0, huse1⟩
    · exact .inl hempty
    · have hone := hdqs1 huse1
      rw [huse0, if_pos rfl] at hone
      rw [huse0, huse1, if_pos rfl] at hle
      exact .inr ⟨hdqs0 huse0, hone, by omega⟩
  constructor
  · simp only [tableCopies, List.pairwise_cons, List.mem_cons, List.not_mem_nil, or_false,
      forall_eq_or_imp, forall_eq, false_implies, implies_true, List.Pairwise.nil, and_true]
    rcases hdqs with hempty | ⟨hzero, hone, -⟩
    · exact ⟨⟨apart_of_le (by omega), apart_of_le (by omega), apart_of_empty hempty,
          apart_of_empty hempty⟩,
        ⟨apart_of_le (by omega), apart_of_empty hempty, apart_of_empty hempty⟩,
        ⟨apart_of_empty hempty, apart_of_empty hempty⟩, apart_of_empty hempty⟩
    · exact ⟨⟨apart_of_le (by omega), apart_of_le (by omega), apart_of_le (by omega),
          apart_of_le (by omega)⟩,
        ⟨apart_of_le (by omega), apart_of_le (by omega), apart_of_le (by omega)⟩,
        ⟨apart_of_le (by omega), apart_of_le (by omega)⟩, apart_of_le (by omega)⟩
  · intro c hc
    rw [← inside_iff]
    simp only [tableCopies, List.mem_cons, List.not_mem_nil, or_false] at hc
    rcases hc with rfl | rfl | rfl | rfl | rfl
    · exact inside_of_le (by omega) (by omega)
    · exact inside_of_le (by omega) (by omega)
    · exact inside_of_le (by omega) (by omega)
    · rcases hdqs with hempty | ⟨hzero, hone, hend⟩
      · exact .inl hempty
      · exact inside_of_le (by omega) (by omega)
    · rcases hdqs with hempty | ⟨hzero, hone, hend⟩
      · exact .inl hempty
      · exact inside_of_le (by omega) hend

end Places

/-- Both controllers in use, with small tables. -/
def bothUsed : GlobalData := ⟨0x40000000, 0x20000000, 0⟩
def smallTables : Lengths := ⟨64, 16, 16, 32⟩

theorem bothUsed_layoutOk : ∃ args, tl420SetArgs false bothUsed smallTables = some args ∧
    LayoutOk (tableCopies smallTables args) := by
  obtain ⟨args, h⟩ : ∃ args, tl420SetArgs false bothUsed smallTables = some args :=
    Option.isSome_iff_exists.mp (by decide)
  exact ⟨args, h, (layoutOk_iff h).mpr (by decide)⟩

def oneUsed : GlobalData := ⟨0x40000000, 0, 0⟩

/-- With one controller in use the DQS table of the other is copied to address 0. -/
theorem unused_table_is_copied_to_zero : ¬ ∀ (pdEnable : Bool) (gd : GlobalData)
    (len : Lengths) (args : Tl420Args), tl420SetArgs pdEnable gd len = some args →
    LayoutOk (tableCopies len args) := by
  intro hall
  obtain ⟨args, h⟩ : ∃ args, tl420SetArgs false oneUsed smallTables = some args :=
    Option.isSome_iff_exists.mp (by decide)
  exact absurd (unused_empty h (hall _ _ _ _ h)) (by decide)

end UBoot.Board
