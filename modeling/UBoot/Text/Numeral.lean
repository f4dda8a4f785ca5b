import Mathlib.Data.List.TakeWhile
import UBoot.Disk.Uuid
import UBoot.Text.Number

/-!
# Numbers in a text

`simple_strtoul` and `simple_strtoull` of `lib/vsprintf.c` read the digits at the head of a
string and say where they end; `strict_strtoul` wants nothing but a number, or a number and a
newline. They read back what `number` writes.
-/
namespace UBoot.Text
open Disk (isxdigit digitValue)

/-- The digits that the loops take. -/
def isDigitOf (base : ℕ) (c : UInt8) : Bool := isxdigit c && decide (digitValue c < base)

/-- The loop of both functions, with the width of their result. -/
def strtoulLoop (bits base : ℕ) : ℕ → List UInt8 → ℕ × List UInt8
  | result, [] => (result, [])
  | result, c :: cs =>
    if isDigitOf base c then strtoulLoop bits base ((result * base + digitValue c) % 2 ^ bits) cs
    else (result, c :: cs)

/-- The base, and the string after a prefix. -/
def skipPrefix (cp : List UInt8) (base : ℕ) : ℕ × List UInt8 :=
  if cp.head? = some 48 then
    let cp := cp.tail
    if cp.head? = some 120 ∧ cp.tail.head?.any isxdigit then (16, cp.tail)
    else (if base = 0 then 8 else base, cp)
  else (if base = 0 then 10 else base, cp)

/-- Both functions: the value and `*endp`. -/
def simpleStrto (bits : ℕ) (cp : List UInt8) (base : ℕ) : ℕ × List UInt8 :=
  strtoulLoop bits (skipPrefix cp base).1 0 (skipPrefix cp base).2

/-- `simple_strtoul`. -/
def simpleStrtoul (cp : List UInt8) (base : ℕ) : ℕ × List UInt8 := simpleStrto 32 cp base

/-- `simple_strtoull`. -/
def simpleStrtoull (cp : List UInt8) (base : ℕ) : ℕ × List UInt8 := simpleStrto 64 cp base

/-- `strict_strtoul`: `*res`, or `none` for `-EINVAL`. -/
def strictStrtoul (cp : List UInt8) (base : ℕ) : Option ℕ :=
  if cp.length = 0 then none
  else
    let val := (simpleStrtoul cp base).1
    let tail := (simpleStrtoul cp base).2
    if tail.length = cp.length then none
    else if tail = [] ∨ (cp.length = cp.length - tail.length + 1 ∧ tail.head? = some 10) then
      some val
    else none

/-- The number that digits stand for. -/
def valueOf (base : ℕ) (ds : List UInt8) : ℕ := ds.foldl (fun n c => n * base + digitValue c) 0

/-- What may follow a numeral. -/
def EndsNumeral (tail : List UInt8) : Prop := ∀ c ∈ tail.head?, isxdigit c = false ∧ c ≠ 120

/-- The strings that are one number, read with a base or with 0 for the base that the prefix
tells. -/
inductive Numeral : ℕ → List UInt8 → ℕ → Prop
  | hex (base : ℕ) {ds : List UInt8} : ds ≠ [] → (∀ c ∈ ds, isDigitOf 16 c = true) →
      Numeral base (48 :: 120 :: ds) (valueOf 16 ds)
  | octal {ds : List UInt8} : (∀ c ∈ ds, isDigitOf 8 c = true) →
      Numeral 0 (48 :: ds) (valueOf 8 ds)
  | decimal {ds : List UInt8} : ds ≠ [] → ds.head? ≠ some 48 →
      (∀ c ∈ ds, isDigitOf 10 c = true) → Numeral 0 ds (valueOf 10 ds)
  | based {base : ℕ} {ds : List UInt8} : base ≠ 0 → ds ≠ [] →
      (∀ c ∈ ds, isDigitOf base c = true) → Numeral base ds (valueOf base ds)

theorem valueOf_cons_zero (base : ℕ) (ds : List UInt8) :
    valueOf base (48 :: ds) = valueOf base ds := by
  have hzero : digitValue 48 = 0 := rfl
  simp [valueOf, hzero]

theorem valueOf_zeros (base k : ℕ) (ds : List UInt8) :
    valueOf base (List.replicate k 48 ++ ds) = valueOf base ds := by
  induction k with
  | zero => rfl
  | succ k ih => rw [List.replicate_succ, List.cons_append, valueOf_cons_zero, ih]

theorem isDigitOf_zero {base : ℕ} (h : base ≠ 0) : isDigitOf base 48 = true := by
  have hx : isxdigit 48 = true := rfl
  have hzero : digitValue 48 = 0 := rfl
  simp [isDigitOf, hx, hzero, Nat.pos_of_ne_zero h]

theorem isxdigit_of_isDigitOf {base : ℕ} {c : UInt8} (h : isDigitOf base c = true) :
    isxdigit c = true :=
  (Bool.and_eq_true_iff.mp h).1

theorem ne_x_of_isxdigit {c : UInt8} (h : isxdigit c = true) : c ≠ 120 := by
  rintro rfl
  exact absurd h (by decide)

/-- The loop takes the digits at the head; wrapping at each step is wrapping at the end. -/
theorem strtoulLoop_append {bits base : ℕ} {ds tail : List UInt8} (r : ℕ)
    (hds : ∀ c ∈ ds, isDigitOf base c = true) (htail : ∀ c ∈ tail.head?, isDigitOf base c = false) :
    strtoulLoop bits base (r % 2 ^ bits) (ds ++ tail) =
      (ds.foldl (fun n c => n * base + digitValue c) r % 2 ^ bits, tail) := by
  induction ds generalizing r with
  | nil =>
    cases tail with
    | nil => rfl
    | cons c tail =>
      have hc := htail c (by simp)
      rw [List.nil_append, strtoulLoop, hc]
      rfl
  | cons c ds ih =>
    have hstep : (r % 2 ^ bits * base + digitValue c) % 2 ^ bits =
        (r * base + digitValue c) % 2 ^ bits := by
      rw [Nat.add_mod, Nat.mod_mul_mod, ← Nat.add_mod]
    rw [List.cons_append, strtoulLoop, if_pos (hds c (List.mem_cons_self ..)), hstep,
      ih _ fun c hc => hds c (List.mem_cons_of_mem _ hc), List.foldl_cons]

theorem strtoulLoop_eq_valueOf {bits base : ℕ} {ds tail : List UInt8}
    (hds : ∀ c ∈ ds, isDigitOf base c = true) (htail : EndsNumeral tail) :
    strtoulLoop bits base 0 (ds ++ tail) = (valueOf base ds % 2 ^ bits, tail) := by
  have hzero : 0 = 0 % 2 ^ bits := (Nat.zero_mod _).symm
  conv_lhs => rw [hzero]
  refine strtoulLoop_append 0 hds fun c hc => ?_
  rw [isDigitOf, (htail c hc).1, Bool.false_and]

theorem skipPrefix_hex {c : UInt8} (h : isxdigit c = true) (cs : List UInt8) (base : ℕ) :
    skipPrefix (48 :: 120 :: c :: cs) base = (16, c :: cs) := by
  simp [skipPrefix, h]

theorem skipPrefix_zero {cs : List UInt8} (base : ℕ)
    (h : ∀ c ds, cs = 120 :: c :: ds → isxdigit c = false) :
    skipPrefix (48 :: cs) base = (if base = 0 then 8 else base, cs) := by
  have hnot : ¬(cs.head? = some 120 ∧ cs.tail.head?.any isxdigit = true) := by
    rintro ⟨hhead, hany⟩
    cases cs with
    | nil => simp at hhead
    | cons x cs =>
      cases cs with
      | nil => simp at hany
      | cons c ds =>
        have hc := h c ds (by rw [Option.some.inj hhead])
        simp [hc] at hany
  rw [skipPrefix, if_pos (List.head?_cons ..)]
  exact if_neg hnot

theorem skipPrefix_other {cp : List UInt8} (h : cp.head? ≠ some 48) (base : ℕ) :
    skipPrefix cp base = (if base = 0 then 10 else base, cp) := by
  simp [skipPrefix, h]

/-- Digits, and what may follow them, do not begin with an `x`. -/
theorem head_ne_x {base : ℕ} {cs tail : List UInt8} (hcs : ∀ c ∈ cs, isDigitOf base c = true)
    (htail : EndsNumeral tail) (c : UInt8) (ds : List UInt8) (h : cs ++ tail = 120 :: c :: ds) :
    isxdigit c = false := by
  exfalso
  cases cs with
  | nil => exact (htail 120 (by rw [← List.nil_append tail, h]; rfl)).2 rfl
  | cons x cs =>
    have hx : x = 120 := (List.cons.inj h).1
    exact ne_x_of_isxdigit (isxdigit_of_isDigitOf (hcs x (List.mem_cons_self ..))) hx

/-- Every numeral is read as its value, up to what follows it. -/
theorem simpleStrto_numeral (bits : ℕ) {base n : ℕ} {s tail : List UInt8} (h : Numeral base s n)
    (htail : EndsNumeral tail) : simpleStrto bits (s ++ tail) base = (n % 2 ^ bits, tail) := by
  cases h with
  | hex _ hne hds =>
    obtain ⟨c, cs, rfl⟩ := List.exists_cons_of_ne_nil hne
    have hc := isxdigit_of_isDigitOf (hds c (List.mem_cons_self ..))
    rw [simpleStrto, List.cons_append, List.cons_append, List.cons_append, skipPrefix_hex hc]
    exact strtoulLoop_eq_valueOf hds htail
  | octal hds =>
    rw [simpleStrto, List.cons_append, skipPrefix_zero 0 (head_ne_x hds htail), if_pos rfl]
    exact strtoulLoop_eq_valueOf hds htail
  | @decimal ds hne hhead hds =>
    have hhead' : (s ++ tail).head? ≠ some 48 := by
      rwa [List.head?_append_of_ne_nil s hne]
    rw [simpleStrto, skipPrefix_other hhead', if_pos rfl]
    exact strtoulLoop_eq_valueOf hds htail
  | based hbase hne hds =>
    obtain ⟨c, cs, rfl⟩ := List.exists_cons_of_ne_nil hne
    by_cases hc : c = 48
    · subst hc
      have hcs : ∀ c ∈ cs, isDigitOf base c = true := fun c hc => hds c (List.mem_cons_of_mem _ hc)
      rw [simpleStrto, List.cons_append, skipPrefix_zero base (head_ne_x hcs htail),
        if_neg hbase, valueOf_cons_zero]
      exact strtoulLoop_eq_valueOf hcs htail
    · rw [simpleStrto, skipPrefix_other (by simpa using hc), if_neg hbase]
      exact strtoulLoop_eq_valueOf hds htail

theorem Numeral.ne_nil {base n : ℕ} {s : List UInt8} (h : Numeral base s n) : s ≠ [] := by
  cases h with
  | hex _ _ _ => exact List.cons_ne_nil _ _
  | octal _ => exact List.cons_ne_nil _ _
  | decimal hne _ _ => exact hne
  | based _ hne _ => exact hne

theorem strtoulLoop_eq_disk (bits r : ℕ) (cs : List UInt8) :
    (strtoulLoop bits 16 (r % 2 ^ bits) cs).1 = Disk.strtoulLoop r cs % 2 ^ bits := by
  induction cs generalizing r with
  | nil => rfl
  | cons c cs ih =>
    have hstep : (r % 2 ^ bits * 16 + digitValue c) % 2 ^ bits =
        (r * 16 + digitValue c) % 2 ^ bits := by
      rw [Nat.add_mod, Nat.mod_mul_mod, ← Nat.add_mod]
    by_cases hc : isxdigit c = true ∧ digitValue c < 16
    · have hdigit : isDigitOf 16 c = true := by simpa [isDigitOf] using hc
      rw [strtoulLoop, if_pos hdigit, hstep, ih, Disk.strtoulLoop, if_pos hc]
    · have hdigit : ¬isDigitOf 16 c = true := by simpa [isDigitOf] using hc
      rw [strtoulLoop, if_neg hdigit, Disk.strtoulLoop, if_neg hc]

/-- The reading of the groups of a UUID string is the one of `simple_strtoul` with base 16. -/
theorem simpleStrto_eq_strtoul16 (bits : ℕ) (cp : List UInt8) :
    (simpleStrto bits cp 16).1 = Disk.strtoul16 cp % 2 ^ bits := by
  have hloop (cs : List UInt8) :
      (strtoulLoop bits 16 0 cs).1 = Disk.strtoulLoop 0 cs % 2 ^ bits := by
    rw [← strtoulLoop_eq_disk, Nat.zero_mod]
  rw [simpleStrto]
  unfold Disk.strtoul16
  split
  · rename_i c cs
    by_cases hc : isxdigit c = true
    · rw [skipPrefix_hex hc, if_pos hc, hloop]
    · have hskip : skipPrefix (48 :: 120 :: c :: cs) 16 = (16, 120 :: c :: cs) := by
        simp [skipPrefix, hc]
      rw [hskip, if_neg hc, hloop]
  · rename_i cs hcs
    have hskip := skipPrefix_zero 16 fun c ds h => (hcs c ds h).elim
    rw [hskip, if_neg (by norm_num), hloop]
  · rename_i hcs hzero
    have hhead : cp.head? ≠ some 48 := by
      cases cp with
      | nil => simp
      | cons c cs =>
        intro hc
        exact hzero cs (by rw [Option.some.inj hc])
    rw [skipPrefix_other hhead, if_neg (by norm_num), hloop]

theorem strtoulLoop_takeWhile (bits base : ℕ) (cs : List UInt8) :
    strtoulLoop bits base 0 cs =
      (valueOf base (cs.takeWhile (isDigitOf base)) % 2 ^ bits, cs.dropWhile (isDigitOf base)) := by
  have hzero : 0 = 0 % 2 ^ bits := (Nat.zero_mod _).symm
  conv_lhs => rw [hzero, ← List.takeWhile_append_dropWhile (p := isDigitOf base) (l := cs)]
  refine strtoulLoop_append 0 (fun c hc => List.mem_takeWhile_imp hc) fun c hc => ?_
  have hnot := List.head?_dropWhile_not (isDigitOf base) cs
  rw [Option.mem_def.mp hc] at hnot
  exact hnot

/-- Whatever is read, a numeral was at the head of the string or nothing is taken. -/
theorem simpleStrto_cases (bits : ℕ) (cp : List UInt8) (base : ℕ) :
    (simpleStrto bits cp base).2 = cp ∨ ∃ s n, Numeral base s n ∧
      cp = s ++ (simpleStrto bits cp base).2 ∧ (simpleStrto bits cp base).1 = n % 2 ^ bits := by
  have hall (b : ℕ) (cs : List UInt8) : ∀ c ∈ cs.takeWhile (isDigitOf b), isDigitOf b c = true :=
    fun c hc => List.mem_takeWhile_imp hc
  have hsplit (b : ℕ) (cs : List UInt8) :
      cs = cs.takeWhile (isDigitOf b) ++ cs.dropWhile (isDigitOf b) :=
    List.takeWhile_append_dropWhile.symm
  by_cases hzero : cp.head? = some 48
  · obtain ⟨cs, rfl⟩ : ∃ cs, cp = 48 :: cs := by
      cases cp with
      | nil => simp at hzero
      | cons c cs => exact ⟨cs, by simpa using hzero⟩
    right
    by_cases hx : ∃ c ds, cs = 120 :: c :: ds ∧ isxdigit c = true
    · -- after `0x` and a digit the base is 16 in any case
      obtain ⟨c, ds, rfl, hc⟩ := hx
      have hdigit : isDigitOf 16 c = true := by
        rw [isDigitOf, hc, decide_eq_true (Disk.digit_facts c hc).1, Bool.true_and]
      refine ⟨48 :: 120 :: (c :: ds).takeWhile (isDigitOf 16), _, .hex base ?_ (hall _ _), ?_, ?_⟩
      · simp [hdigit]
      · rw [simpleStrto, skipPrefix_hex hc, strtoulLoop_takeWhile]
        rw [List.cons_append, List.cons_append, ← hsplit]
      · rw [simpleStrto, skipPrefix_hex hc, strtoulLoop_takeWhile]
    · -- the zero is a digit of the number
      have hskip := skipPrefix_zero base fun c ds h => by
        by_contra hc
        exact hx ⟨c, ds, h, Bool.eq_true_of_not_eq_false hc⟩
      rw [simpleStrto, hskip, strtoulLoop_takeWhile]
      by_cases hbase : base = 0
      · subst hbase
        refine ⟨_, _, .octal (hall 8 cs), ?_, rfl⟩
        rw [if_pos rfl, List.cons_append, ← hsplit]
      · refine ⟨48 :: cs.takeWhile (isDigitOf base), _, .based hbase (List.cons_ne_nil _ _) ?_,
          ?_, ?_⟩
        · intro c hc
          rcases List.mem_cons.mp hc with rfl | hc
          · exact isDigitOf_zero hbase
          · exact hall _ _ c hc
        · rw [if_neg hbase, List.cons_append, ← hsplit]
        · rw [if_neg hbase, valueOf_cons_zero]
  · rw [simpleStrto, skipPrefix_other hzero, strtoulLoop_takeWhile]
    generalize hb : (if base = 0 then 10 else base) = b
    by_cases hnone : cp.takeWhile (isDigitOf b) = []
    · left
      have := hsplit b cp
      rw [hnone, List.nil_append] at this
      exact this.symm
    · right
      refine ⟨cp.takeWhile (isDigitOf b), _, ?_, hsplit b cp, rfl⟩
      by_cases hbase : base = 0
      · subst hbase
        obtain rfl : 10 = b := by simpa using hb
        refine .decimal hnone (fun hhead => hzero ?_) (hall 10 cp)
        rw [hsplit 10 cp, List.head?_append_of_ne_nil _ hnone, hhead]
      · rw [if_neg hbase] at hb
        subst hb
        exact .based hbase hnone (hall base cp)

/-- `strict_strtoul` takes a string exactly when it is one number, or one number and a
newline, and gives the number up to 32 bits. -/
theorem strictStrtoul_eq_some_iff (cp : List UInt8) (base v : ℕ) :
    strictStrtoul cp base = some v ↔
      ∃ s n, Numeral base s n ∧ (cp = s ∨ cp = s ++ [10]) ∧ v = u32 n := by
  constructor
  · intro h
    simp only [strictStrtoul] at h
    split_ifs at h with hlen hsame hend
    obtain rfl : (simpleStrtoul cp base).1 = v := Option.some.inj h
    rcases simpleStrto_cases 32 cp base with htail | ⟨s, n, hnum, hcp, hval⟩
    · exact absurd (congrArg List.length htail) hsame
    · refine ⟨s, n, hnum, ?_, hval⟩
      rcases hend with hnil | ⟨hone, hnewline⟩
      · left
        rw [hcp, show (simpleStrto 32 cp base).2 = [] from hnil, List.append_nil]
      · right
        have hlength : (simpleStrtoul cp base).2.length = 1 := by
          have hle : (simpleStrtoul cp base).2.length ≤ cp.length := by
            conv_rhs => rw [hcp]
            exact List.length_append ▸ Nat.le_add_left _ _
          omega
        obtain ⟨c, hc⟩ := List.length_eq_one_iff.mp hlength
        rw [hc] at hnewline
        rw [hcp, show (simpleStrto 32 cp base).2 = [c] from hc, Option.some.inj hnewline]
  · rintro ⟨s, n, hnum, hcp, rfl⟩
    have hne := List.length_pos_of_ne_nil hnum.ne_nil
    have hread (tail : List UInt8) (htail : EndsNumeral tail) (h : cp = s ++ tail) :
        simpleStrtoul cp base = (u32 n, tail) := h ▸ simpleStrto_numeral 32 hnum htail
    rcases hcp with rfl | rfl
    · have hread := hread [] (fun c hc => by simp at hc) (List.append_nil _).symm
      simp only [strictStrtoul, hread]
      rw [if_neg hne.ne', if_neg (by rw [List.length_nil]; exact hne.ne), if_pos (.inl trivial)]
    · have hread := hread [10] (fun c hc => by
        obtain rfl : c = 10 := by simpa using hc.symm
        exact ⟨rfl, by decide⟩) rfl
      simp only [strictStrtoul, hread, List.length_append, List.length_singleton]
      rw [if_neg (Nat.succ_ne_zero _), if_neg (by omega), if_pos (.inr ⟨by omega, rfl⟩)]

theorem digitValue_digitChar {locase : UInt8} (h : locase = 0 ∨ locase = 0x20) {d : ℕ}
    (hd : d < 16) :
    isxdigit (digitChar locase d) = true ∧ digitValue (digitChar locase d) = d := by
  rcases h with rfl | rfl
  · interval_cases d <;> decide
  · interval_cases d <;> decide

theorem numeral_digits {locase : UInt8} (h : locase = 0 ∨ locase = 0x20) {base : ℕ}
    (hbase : IsBase base) (n : ℕ) :
    (∀ c ∈ numeral locase base n, isDigitOf base c = true) ∧
      valueOf base (numeral locase base n) = n ∧ numeral locase base n ≠ [] := by
  have h2 : 2 ≤ base := by rcases hbase with rfl | rfl | rfl <;> norm_num
  have h16 : base ≤ 16 := by rcases hbase with rfl | rfl | rfl <;> norm_num
  unfold numeral
  by_cases h0 : n = 0
  · subst h0
    rw [if_pos rfl]
    refine ⟨fun c hc => ?_, valueOf_cons_zero base [], List.cons_ne_nil _ _⟩
    obtain rfl : c = 48 := by simpa using hc
    exact isDigitOf_zero (by omega)
  · rw [if_neg h0]
    have hlt : ∀ d ∈ Nat.digits base n, d < base := fun d hd => Nat.digits_lt_base h2 hd
    refine ⟨?_, ?_, ?_⟩
    · intro c hc
      obtain ⟨d, hd, rfl⟩ := List.mem_map.mp (List.mem_reverse.mp hc)
      obtain ⟨hx, hval⟩ := digitValue_digitChar h ((hlt d hd).trans_le h16)
      rw [isDigitOf, hx, hval, decide_eq_true (hlt d hd), Bool.true_and]
    · have hval (ds : List ℕ) (hds : ∀ d ∈ ds, d < base) :
          valueOf base (ds.map (digitChar locase)).reverse = Nat.ofDigits base ds := by
        induction ds with
        | nil => rfl
        | cons d ds ih =>
          have hd := (hds d (List.mem_cons_self ..)).trans_le h16
          rw [Nat.ofDigits_cons, ← ih fun d hd => hds d (List.mem_cons_of_mem _ hd), List.map_cons,
            List.reverse_cons, valueOf, List.foldl_append, List.foldl_cons, List.foldl_nil,
            (digitValue_digitChar h hd).2, ← valueOf]
          ring
      rw [hval _ hlt, Nat.ofDigits_digits]
    · rwa [ne_eq, List.reverse_eq_nil_iff, List.map_eq_nil_iff, Nat.digits_eq_nil_iff_eq_zero]

/-- A field that does not begin with spaces: head, zeros, digits, and spaces after them. -/
theorem field_shape {width : ℤ} {left zeropad : Bool} {precision : ℤ} {head digits : List UInt8}
    (hlead : left = true ∨ zeropad = true ∨
      width ≤ head.length + (atLeast precision digits).length) :
    ∃ zeros spaces, field width left zeropad head (atLeast precision digits) =
      head ++ (List.replicate zeros 48 ++ digits) ++ List.replicate spaces 32 := by
  generalize hfill : (width - head.length - (atLeast precision digits).length).toNat = fill
  unfold field
  rw [hfill]
  cases left with
  | true => exact ⟨_, fill, rfl⟩
  | false =>
    cases zeropad with
    | true =>
      refine ⟨fill + (precision - digits.length).toNat, 0, ?_⟩
      simp only [atLeast, Bool.false_eq_true, if_false, if_true, List.append_assoc,
        List.replicate_zero, List.append_nil, List.replicate_add]
    | false =>
      have hwidth : width ≤ head.length + (atLeast precision digits).length := by
        simpa using hlead
      obtain rfl : fill = 0 := by omega
      refine ⟨(precision - digits.length).toNat, 0, ?_⟩
      simp only [atLeast, Bool.false_eq_true, if_false, List.replicate_zero, List.nil_append,
        List.append_nil]

/-- With its prefix, the text of a number is a numeral of that number. -/
theorem numeral_prefixed (num zeros : ℕ) {base base' : ℕ} {type : Flags} (hbase : IsBase base)
    (hsmall : type.special = true → base = 16 → type.small = true)
    (hbase' : base' = base ∨ base' = 0 ∧ type.special = true ∧ base ≠ 10) :
    Numeral base'
      (prefixOf base type ++ (List.replicate zeros 48 ++ numeral type.locase base num)) num := by
  have hne : base ≠ 0 := by rcases hbase with rfl | rfl | rfl <;> norm_num
  obtain ⟨hall, hval, hnil⟩ := numeral_digits (locase_cases type) hbase num
  generalize hds : List.replicate zeros 48 ++ numeral type.locase base num = ds
  have hds_all : ∀ c ∈ ds, isDigitOf base c = true := by
    intro c hc
    rw [← hds] at hc
    rcases List.mem_append.mp hc with hc | hc
    · rw [List.eq_of_mem_replicate hc]
      exact isDigitOf_zero hne
    · exact hall c hc
  have hds_val : valueOf base ds = num := by rw [← hds, valueOf_zeros, hval]
  have hds_nil : ds ≠ [] := by simp [← hds, hnil]
  by_cases hprefix : type.special = true ∧ base ≠ 10
  · rcases hbase with rfl | rfl | rfl
    · have htext : prefixOf 8 type = [48] := by simp [prefixOf, hprefix.1]
      rw [htext, List.singleton_append, ← hds_val]
      rcases hbase' with rfl | ⟨rfl, -, -⟩
      · rw [← valueOf_cons_zero]
        refine .based (by norm_num) (List.cons_ne_nil _ _) fun c hc => ?_
        rcases List.mem_cons.mp hc with rfl | hc
        · exact isDigitOf_zero (by norm_num)
        · exact hds_all c hc
      · exact .octal hds_all
    · exact absurd rfl hprefix.2
    · have htext : prefixOf 16 type = [48, 120] := by
        have hx : (88 ||| 0x20 : UInt8) = 120 := by decide
        simp [prefixOf, hprefix.1, Flags.locase, hsmall hprefix.1 rfl, hx]
      rw [htext, ← hds_val]
      exact .hex base' hds_nil hds_all
  · have htext : prefixOf base type = [] := by
      rw [prefixOf, if_neg]
      simpa using hprefix
    have hsame : base' = base := hbase'.resolve_right fun h => hprefix h.2
    rw [htext, List.nil_append, hsame, ← hds_val]
    exact .based hne hds_nil hds_all

/-- An unsigned number is read back by `simple_strtoull` from every field that does not begin
with a blank: it fills the field, or is printed to the left or after zeros. The base is the one
it was written in, or none after a prefix. A capital `X` is no prefix to the reader. -/
theorem simpleStrtoull_number {num base base' : ℕ} {size precision : ℤ} {type : Flags}
    {rest : List UInt8} (hnum : num < 2 ^ 64) (hbase : IsBase base) (hsign : type.sign = false)
    (hsmall : type.special = true → base = 16 → type.small = true)
    (hlead : type.left = true ∨ type.zeropad = true ∨ size ≤ (prefixOf base type).length +
      (atLeast precision (numeral type.locase base num)).length)
    (hbase' : base' = base ∨ base' = 0 ∧ type.special = true ∧ base ≠ 10)
    (hrest : EndsNumeral rest) :
    ∃ spaces, simpleStrtoull (number num base size precision type ++ rest) base' =
      (num, List.replicate spaces 32 ++ rest) := by
  have hplain : signOf num type = [] := by simp [signOf, hsign]
  have hmag : magnitude num type = num := by simp [magnitude, hsign]
  obtain ⟨zeros, spaces, hshape⟩ := field_shape hlead
  have htail : EndsNumeral (List.replicate spaces 32 ++ rest) := by
    cases spaces with
    | zero => exact hrest
    | succ spaces =>
      intro c hc
      obtain rfl : 32 = c := by simpa [List.replicate_succ] using hc
      exact ⟨by decide, by decide⟩
  have hread := simpleStrto_numeral 64 (numeral_prefixed num zeros hbase hsmall hbase') htail
  refine ⟨spaces, ?_⟩
  rw [number_eq_field hbase hnum, hplain, hmag, List.nil_append, hshape, List.append_assoc]
  rw [simpleStrtoull, hread, Nat.mod_eq_of_lt hnum]

/-- The flags of `%#x`. -/
def hexFlags : Flags := { special := true, small := true }

/-- The address of an image fills the field of `%#10x`, and the reader takes it without a
base. -/
theorem simpleStrtoull_address : ∃ spaces,
    simpleStrtoull (number 0x80008000 16 10 (-1) hexFlags ++ [32]) 0 =
      (0x80008000, List.replicate spaces 32 ++ [32]) :=
  simpleStrtoull_number (by norm_num) (.inr (.inr rfl)) rfl (fun _ _ => rfl)
    (.inr (.inr (by decide +kernel))) (.inr ⟨rfl, rfl, by norm_num⟩) fun c hc => by
      obtain rfl : 32 = c := by simpa using hc
      exact ⟨by decide, by decide⟩

end UBoot.Text
