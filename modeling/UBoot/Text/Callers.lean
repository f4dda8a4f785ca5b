import UBoot.Board.PartitionString
import UBoot.Disk.Dos
import UBoot.Text.Directives
import UBoot.Usb.Fastboot

/-!
# The texts of the callers

The names, identifiers and answers that the rest of the program makes with `sprintf`, as the
interpreter writes them.
-/
namespace UBoot.Text

theorem numeral_eq_if (locase : UInt8) {b : ℕ} (hb : 2 ≤ b) (n : ℕ) :
    numeral locase b n =
      if n < b then [if n = 0 then 48 else digitChar locase n]
      else numeral locase b (n / b) ++ [digitChar locase (n % b)] := by
  unfold numeral
  by_cases h0 : n = 0
  · rw [if_pos h0, if_pos (by omega), if_pos h0]
  · rw [if_neg h0, if_neg h0, Nat.digits_def' (by omega) (Nat.pos_of_ne_zero h0), List.map_cons,
      List.reverse_cons]
    by_cases hlt : n < b
    · rw [if_pos hlt, Nat.div_eq_of_lt hlt, Nat.mod_eq_of_lt hlt, Nat.digits_zero]
      rfl
    · have hne : n / b ≠ 0 := (Nat.div_pos (by omega) (by omega)).ne'
      rw [if_neg hlt, if_neg hne]

theorem digitChar_zero {locase : UInt8} (h : locase = 0 ∨ locase = 0x20) :
    digitChar locase 0 = 48 := by
  rcases h with rfl | rfl <;> rfl

/-- The digits of the library, as characters. -/
theorem numeral_eq_toDigits {locase : UInt8} {b : ℕ}
    (h : locase = 0 ∧ b ≤ 10 ∨ locase = 0x20 ∧ b ≤ 16) (hb : 2 ≤ b) (n : ℕ) :
    numeral locase b n = (Nat.toDigits b n).map fun c => UInt8.ofNat c.toNat := by
  have hchar (d : ℕ) (hd : d < b) :
      UInt8.ofNat (Nat.digitChar d).toNat = digitChar locase d := by
    rcases h with ⟨rfl, hle⟩ | ⟨rfl, hle⟩
    · have : d < 10 := by omega
      interval_cases d <;> rfl
    · have : d < 16 := by omega
      interval_cases d <;> rfl
  have hzero : digitChar locase 0 = 48 := digitChar_zero (h.imp And.left And.left)
  induction n using Nat.strong_induction_on with
  | h n ih =>
    rw [numeral_eq_if locase hb, Nat.toDigits_eq_if (by omega)]
    by_cases hlt : n < b
    · rw [if_pos hlt, if_pos hlt, List.map_singleton, hchar n hlt]
      by_cases h0 : n = 0
      · rw [if_pos h0, h0, hzero]
      · rw [if_neg h0]
    · rw [if_neg hlt, if_neg hlt, List.map_append, List.map_singleton,
        ih (n / b) (Nat.div_lt_self (by omega) (by omega)), hchar _ (Nat.mod_lt _ (by omega))]

theorem vaInt_of_lt {w : ℕ} (h : w < 2 ^ 32) (args : List VaArg) :
    vaInt (.int w :: args) = some (w, args) := by
  rw [vaInt, Nat.mod_eq_of_lt h]

theorem numberText_of_word {d : Directive} (hd : d.qualifier = none ∨ d.qualifier = some .l)
    {w : ℕ} (h : w < 2 ^ 32) (base : ℕ) {flags : Flags} (hflags : flags.special = false)
    (hsign : flags.sign = true → flags.plus = false ∧ flags.space = false ∧ w < 2 ^ 31)
    (width precision : ℤ) (args : List VaArg) :
    d.numberText base flags width precision (.int w :: args) =
      some (field width flags.left flags.zeropad []
        (atLeast precision (numeral flags.locase base w)), [], args) := by
  have harg (sign : Bool) (hs : sign = true → w < 2 ^ 31) :
      d.argument sign (.int w :: args) = some (w, args) := by
    have hval : (if sign = true then signExtend 32 w else w) = w := by
      split_ifs with hs'
      · rw [signExtend, if_pos (hs hs')]
      · rfl
    rcases hd with hd | hd
    · simp [Directive.argument, hd, integerArg, vaInt_of_lt h, hval]
    · simp [Directive.argument, hd, integerArg, vaInt_of_lt h, hval, Qualifier.chars]
  have hsigned : signOf w flags = [] ∧ magnitude w flags = w := by
    cases hs : flags.sign with
    | false => simp [signOf, magnitude, hs]
    | true =>
      obtain ⟨hplus, hspace, hlt⟩ := hsign hs
      have hnot : ¬2 ^ 63 ≤ w := by omega
      constructor
      · rw [signOf, if_pos hs, if_neg hnot, hplus, hspace]
        rfl
      · rw [magnitude, if_neg]
        rw [decide_eq_false hnot, Bool.and_false]
        exact Bool.false_ne_true
  have hprefix : prefixOf base flags = [] := by simp [prefixOf, hflags]
  rw [Directive.numberText, harg flags.sign fun hs => (hsign hs).2.2]
  simp only [Option.bind_eq_bind, Option.bind_some, hsigned, hprefix, List.append_nil]

theorem atLeast_neg (digits : List UInt8) : atLeast (-1) digits = digits := by
  have hnone : ((-1 : ℤ) - digits.length).toNat = 0 := by omega
  rw [atLeast, hnone, List.replicate_zero, List.nil_append]

theorem field_neg (left zeropad : Bool) (head digits : List UInt8) :
    field (-1) left zeropad head digits = head ++ digits := by
  have hnone : ((-1 : ℤ) - head.length - digits.length).toNat = 0 := by omega
  cases left <;> cases zeropad <;> simp [field, hnone]

theorem field_zeros (n : ℕ) (digits : List UInt8) :
    field n false true [] digits = List.leftpad n 48 digits := by
  have hfill : ((n : ℤ) - ([] : List UInt8).length - digits.length).toNat = n - digits.length := by
    simp only [List.length_nil]
    omega
  simp [field, List.leftpad]

/-- `%lx`, `%d`, `%c` and `%s`. -/
def longHexDir : Directive := { qualifier := some .l, conversion := .x }
def decDir : Directive := { conversion := .d }
def charDir : Directive := { conversion := .c }
def strDir : Directive := { conversion := .s }

/-- `%02x`. -/
def twoDigits : Directive := { zeropad := true, width := .exactly 2, conversion := .x }

theorem text_padded {d : Directive} {n : ℕ}
    (hd : d = { zeropad := true, width := .exactly n, conversion := .x }) {w : ℕ} (h : w < 2 ^ 32)
    (written : ℕ) (args : List VaArg) :
    d.text written (.int w :: args) =
      some (List.leftpad n 48 (numeral 0x20 16 w), [], args) := by
  subst hd
  simp only [Directive.text, Count.value, Option.bind_eq_bind, Option.bind_some]
  rw [numberText_of_word (.inl rfl) h]
  · have hwidth : (Option.map abs (some (n : ℤ))).getD (-1) = n := by simp
    have hplain : (false || decide ((some (n : ℤ)).getD 0 < 0)) = false := by simp
    simp only [Option.map_none, Option.getD_none, atLeast_neg, hwidth, hplain]
    exact congrArg (fun t => some (t, [], args)) (field_zeros n _)
  · rfl
  · intro h; simp [Directive.flags] at h

theorem text_longHex {w : ℕ} (h : w < 2 ^ 32) (written : ℕ) (args : List VaArg) :
    longHexDir.text written (.int w :: args) = some (numeral 0x20 16 w, [], args) := by
  simp only [Directive.text, longHexDir, Count.value, Option.bind_eq_bind, Option.bind_some]
  rw [numberText_of_word (.inr rfl) h 16 rfl fun hsign => absurd hsign Bool.false_ne_true]
  simp only [Option.map_none, Option.getD_none, atLeast_neg, field_neg, List.nil_append]
  rfl

theorem text_dec {w : ℕ} (h : w < 2 ^ 31) (written : ℕ) (args : List VaArg) :
    decDir.text written (.int w :: args) = some (numeral 0 10 w, [], args) := by
  have hword : w < 2 ^ 32 := by omega
  simp only [Directive.text, decDir, Count.value, Option.bind_eq_bind, Option.bind_some]
  rw [numberText_of_word (.inl rfl) hword 10 rfl fun _ => ⟨rfl, rfl, h⟩]
  simp only [Option.map_none, Option.getD_none, atLeast_neg, field_neg, List.nil_append]
  rfl

theorem text_char {w : ℕ} (h : w < 2 ^ 32) (written : ℕ) (args : List VaArg) :
    charDir.text written (.int w :: args) = some ([UInt8.ofNat w], [], args) := by
  simp only [Directive.text, charDir, Count.value, Option.bind_eq_bind, Option.bind_some,
    vaInt_of_lt h, Option.map_none, Option.getD_none, field_neg, List.nil_append]

theorem text_str (s : Board.CString) (written : ℕ) (args : List VaArg) :
    strDir.text written (.str (some s) :: args) = some (s.chars, [], args) := by
  simp only [Directive.text, strDir, Count.value, Option.bind_eq_bind, Option.bind_some,
    Option.map_none, Option.getD_none, Option.getD_some, stringText, field_neg, List.nil_append]
  rfl

/-- Where no width and no precision is among the arguments, `sprintf` writes the text. -/
theorem sprintf_spell {ps : List Piece} (h : WellFormed ps) (hsmall : ps.all Piece.small = true)
    (args : List VaArg) : sprintf (spell ps) args = (render 0 ps args).map Prod.fst :=
  congrArg (Option.map Prod.fst) (vsprintf_eq_render h (countsFit_of_small hsmall 0 args))

/-- `hd%c%d`, with the letters of another bus in place of `hd`. -/
def nameFormat (bus : List UInt8) : List Piece := bus.map .lit ++ [.dir charDir, .dir decDir]

/-- `%08x-%02x`. -/
def diskUuidFormat : List Piece := [.dir eightDigits, .lit 45, .dir twoDigits]

/-- `%s:%lx:%lx:%lx`. -/
def rangeFormat : List Piece :=
  [.dir strDir, .lit 58, .dir longHexDir, .lit 58, .dir longHexDir, .lit 58, .dir longHexDir]

theorem wellFormed_rangeFormat : WellFormed rangeFormat :=
  ⟨by decide, by decide, by decide, by decide, by decide, by decide, by decide, by decide,
    by decide, by decide, by decide, trivial⟩

theorem wellFormed_diskUuidFormat : WellFormed diskUuidFormat :=
  ⟨by decide, by decide, by decide, by decide, by decide, trivial⟩

theorem wellFormed_twoDigits : WellFormed [.dir twoDigits] := ⟨by decide, by decide, trivial⟩

/-- The answer `DATA%08x` to a download command. -/
theorem sprintf_dataFormat (n : UInt32) :
    sprintf (spell dataFormat) [.int n.toNat] = some (Usb.ascii ("DATA" ++ Usb.hex8 n)) := by
  have hascii : Usb.ascii ("DATA" ++ Usb.hex8 n) =
      [68, 65, 84, 65] ++
        ((Nat.toDigits 16 n.toNat).leftpad 8 '0').map fun c => c.toNat.toUInt8 := by
    rw [Usb.ascii, String.toList_append, List.map_append, Usb.hex8, String.toList_ofList,
      String.toList_ofList]
    rfl
  have hpad : ((Nat.toDigits 16 n.toNat).leftpad 8 '0').map (fun c => c.toNat.toUInt8) =
      List.leftpad 8 48 (numeral 0x20 16 n.toNat) := by
    rw [numeral_eq_toDigits (.inr ⟨rfl, le_rfl⟩) (by norm_num), List.leftpad, List.leftpad,
      List.map_append, List.map_replicate, List.length_map]
    rfl
  rw [sprintf_spell wellFormed_dataFormat rfl]
  simp only [dataFormat, render, text_padded (d := eightDigits) rfl n.toNat_lt,
    Option.bind_eq_bind, Option.bind_some, Option.map_some, List.append_nil, hascii, hpad]
  rfl

/-- One byte of `uuid_string`, `%02x`. -/
theorem sprintf_twoDigits (b : UInt8) :
    sprintf (spell [.dir twoDigits]) [.int b.toNat] =
      some [Disk.hexDigit (b.toNat / 16), Disk.hexDigit (b.toNat % 16)] := by
  have hb : b.toNat < 2 ^ 32 := b.toNat_lt.trans (by norm_num)
  have hdigit (d : ℕ) (h : d < 16) : digitChar 0x20 d = Disk.hexDigit d := by
    interval_cases d <;> rfl
  have hlow := hdigit _ (Nat.mod_lt b.toNat (by norm_num : 0 < 16))
  have hpad : List.leftpad 2 48 (numeral 0x20 16 b.toNat) =
      [Disk.hexDigit (b.toNat / 16), Disk.hexDigit (b.toNat % 16)] := by
    have hlt := b.toNat_lt
    have hhigh := hdigit (b.toNat / 16) (by omega)
    have hzero : digitChar 0x20 0 = 48 := digitChar_zero (.inr rfl)
    rw [numeral_eq_if 0x20 (by norm_num), numeral_eq_if 0x20 (by norm_num) (b.toNat / 16),
      if_pos (show b.toNat / 16 < 16 by omega), ← hlow, ← hhigh]
    by_cases h16 : b.toNat < 16
    · rw [if_pos h16, Nat.div_eq_of_lt h16, Nat.mod_eq_of_lt h16, hzero]
      by_cases h0 : b.toNat = 0
      · rw [if_pos h0, h0, hzero]
        rfl
      · rw [if_neg h0]
        rfl
    · rw [if_neg h16, if_neg (show b.toNat / 16 ≠ 0 by omega)]
      rfl
  rw [sprintf_spell wellFormed_twoDigits rfl]
  simp only [render, text_padded (d := twoDigits) rfl hb, Option.bind_eq_bind, Option.bind_some,
    Option.map_some, List.append_nil, hpad]

/-- The name of a DOS partition, for every bus. -/
theorem sprintf_nameFormat {bus : List UInt8} (hbus : 37 ∉ bus) (hnul : 0 ∉ bus) {dev partNum : ℕ}
    (hdev : 97 + dev < 2 ^ 32) (hpart : partNum < 2 ^ 31) :
    sprintf (spell (nameFormat bus)) [.int (97 + dev), .int partNum] =
      some (bus ++ [UInt8.ofNat (97 + dev)] ++
        (Nat.toDigits 10 partNum).map fun c => UInt8.ofNat c.toNat) := by
  have hformed : WellFormed (nameFormat bus) := by
    unfold nameFormat
    induction bus with
    | nil => exact ⟨by decide, by decide, by decide, by decide, trivial⟩
    | cons c bus ih =>
      refine ⟨⟨fun hc => hbus (hc ▸ List.mem_cons_self ..),
        fun hc => hnul (hc ▸ List.mem_cons_self ..)⟩, ih (fun h => hbus ?_) fun h => hnul ?_⟩
      · exact List.mem_cons_of_mem _ h
      · exact List.mem_cons_of_mem _ h
  have hsmall : (nameFormat bus).all Piece.small = true := by
    simp [nameFormat, Piece.small, charDir, decDir, Count.small]
  have hrender (written : ℕ) : render written (nameFormat bus) [.int (97 + dev), .int partNum] =
      some (bus ++ (UInt8.ofNat (97 + dev) :: numeral 0 10 partNum), []) := by
    unfold nameFormat
    clear hformed hsmall
    induction bus generalizing written with
    | nil =>
      simp only [List.map_nil, List.nil_append, render, text_char hdev, text_dec hpart,
        Option.bind_eq_bind, Option.bind_some, List.append_nil]
      rfl
    | cons c bus ih =>
      rw [List.map_cons, List.cons_append, render,
        ih (fun h => hbus (List.mem_cons_of_mem _ h)) (fun h => hnul (List.mem_cons_of_mem _ h))
          (written + 1)]
      rfl
  rw [sprintf_spell hformed hsmall, hrender, Option.map_some,
    numeral_eq_toDigits (.inl ⟨rfl, le_rfl⟩) (by norm_num), List.append_assoc]
  rfl

/-- No letter of a bus is a `%` or a NUL. -/
theorem busName_plain (ifType : ℕ) : 37 ∉ Disk.busName ifType ∧ 0 ∉ Disk.busName ifType := by
  unfold Disk.busName
  split <;> exact ⟨by decide, by decide⟩

/-- The identifier of a DOS partition. -/
theorem sprintf_diskUuid {disksig partNum : ℕ} (h : disksig < 2 ^ 32) (h' : partNum < 2 ^ 32) :
    sprintf (spell diskUuidFormat) [.int disksig, .int partNum] =
      some (Disk.hexPadded 8 disksig ++ [45] ++ Disk.hexPadded 2 partNum) := by
  have hpad (width n : ℕ) :
      Disk.hexPadded width n = List.leftpad width 48 (numeral 0x20 16 n) := by
    rw [Disk.hexPadded, numeral_eq_toDigits (.inr ⟨rfl, le_rfl⟩) (by norm_num)]
  rw [sprintf_spell wellFormed_diskUuidFormat rfl]
  simp only [diskUuidFormat, render, text_padded (d := eightDigits) rfl h,
    text_padded (d := twoDigits) rfl h', Option.bind_eq_bind, Option.bind_some, Option.map_some,
    List.append_nil, hpad, List.append_assoc, List.singleton_append]

/-- The digits that the command line shows are those of the number. -/
theorem hexDigits_eq_numeral {fuel n : ℕ} (h : n < 16 ^ (fuel + 1)) :
    Board.hexDigits (fuel + 1) n = numeral 0x20 16 n := by
  have hchar (d : ℕ) (hd : d < 16) : Board.hexChar d = digitChar 0x20 d := by
    interval_cases d <;> rfl
  induction fuel generalizing n with
  | zero =>
    have hlt : n < 16 := by simpa using h
    rw [Board.hexDigits, if_pos hlt, numeral_eq_if 0x20 (by norm_num), if_pos hlt, hchar n hlt]
    by_cases h0 : n = 0
    · rw [if_pos h0, h0]
      rfl
    · rw [if_neg h0]
  | succ fuel ih =>
    rw [Board.hexDigits, numeral_eq_if 0x20 (by norm_num)]
    by_cases hlt : n < 16
    · rw [if_pos hlt, if_pos hlt, hchar n hlt]
      by_cases h0 : n = 0
      · rw [if_pos h0, h0]
        rfl
      · rw [if_neg h0]
    · have hquot : n / 16 < 16 ^ (fuel + 1) := by
        rw [pow_succ] at h
        exact Nat.div_lt_of_lt_mul (by rwa [mul_comm])
      rw [if_neg hlt, if_neg hlt, ih hquot, hchar _ (Nat.mod_lt n (by norm_num))]

/-- A partition on the command line. -/
theorem sprintf_rangeFormat (p : Board.NamedRange) :
    sprintf (spell rangeFormat) [.str (some p.name), .int p.start.toNat,
      .int p.length.toNat, .int p.sectorSize.toNat] = some p.text.chars := by
  have hhex (v : UInt32) : (Board.hex v).chars = numeral 0x20 16 v.toNat :=
    @hexDigits_eq_numeral 7 v.toNat (v.toNat_lt.trans_le (by norm_num))
  rw [sprintf_spell wellFormed_rangeFormat rfl]
  simp only [rangeFormat, render, text_str, text_longHex p.start.toNat_lt,
    text_longHex p.length.toNat_lt, text_longHex p.sectorSize.toNat_lt, Option.bind_eq_bind,
    Option.bind_some, Option.map_some, Board.NamedRange.text, Board.CString.chars_append, hhex,
    List.append_nil, List.append_assoc]
  rfl

/-- Wherever the program formats a number, a name or an identifier with `sprintf`, the
interpreter writes the text that the rest of the model works with. -/
theorem sprintf_callers :
    (∀ n : UInt32, sprintf (spell dataFormat) [.int n.toNat] =
      some (Usb.ascii ("DATA" ++ Usb.hex8 n))) ∧
    (∀ b : UInt8, sprintf (spell [.dir twoDigits]) [.int b.toNat] =
      some [Disk.hexDigit (b.toNat / 16), Disk.hexDigit (b.toNat % 16)]) ∧
    (∀ disksig < 2 ^ 32, ∀ partNum < 2 ^ 32,
      sprintf (spell diskUuidFormat) [.int disksig, .int partNum] =
        some (Disk.hexPadded 8 disksig ++ [45] ++ Disk.hexPadded 2 partNum)) ∧
    (∀ ifType dev partNum : ℕ, 97 + dev < 2 ^ 32 → partNum < 2 ^ 31 →
      sprintf (spell (nameFormat (Disk.busName ifType))) [.int (97 + dev), .int partNum] =
        some (Disk.dosPartitionName ifType dev partNum)) ∧
    ∀ p : Board.NamedRange, sprintf (spell rangeFormat) [.str (some p.name),
      .int p.start.toNat, .int p.length.toNat, .int p.sectorSize.toNat] = some p.text.chars :=
  ⟨sprintf_dataFormat, sprintf_twoDigits, fun _ h _ h' => sprintf_diskUuid h h',
    fun ifType _ _ => sprintf_nameFormat (busName_plain ifType).1 (busName_plain ifType).2,
    sprintf_rangeFormat⟩

end UBoot.Text
