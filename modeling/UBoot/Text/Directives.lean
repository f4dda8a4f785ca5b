import UBoot.Text.Format

/-!
# What a format means

A format is a list of pieces, literal characters and directives, and a directive says what a
field holds: a sign or prefix and digits, a character, or the head of a string. The
interpreter gives every list of pieces, spelled out, the text that the pieces stand for, as
long as its widths and precisions are nowhere near the end of an `int`.
-/
namespace UBoot.Text

/-- The qualifiers. -/
inductive Qualifier
  | h | l | ll | L | Z | z | t
  deriving DecidableEq

/-- The conversions. -/
inductive Conversion
  | c | s | p | n | percent | o | x | X | d | i | u
  deriving DecidableEq

/-- A width or a precision: none, a number, or the next argument. -/
inductive Count
  | none
  | exactly (n : ℕ)
  | star
  deriving DecidableEq

/-- A directive. -/
structure Directive where
  left : Bool := false
  plus : Bool := false
  space : Bool := false
  special : Bool := false
  zeropad : Bool := false
  width : Count := .none
  precision : Count := .none
  qualifier : Option Qualifier := none
  conversion : Conversion

/-- A piece of a format. -/
inductive Piece
  | lit (c : UInt8)
  | dir (d : Directive)

def Qualifier.chars : Qualifier → List UInt8
  | h => [104]
  | l => [108]
  | ll => [108, 108]
  | L => [76]
  | Z => [90]
  | z => [122]
  | t => [116]

def Conversion.char : Conversion → UInt8
  | c => 99
  | s => 115
  | p => 112
  | n => 110
  | percent => 37
  | o => 111
  | x => 120
  | X => 88
  | d => 100
  | i => 105
  | u => 117

def Count.chars : Count → List UInt8
  | none => []
  | exactly n => numeral 0 10 n
  | star => [42]

/-- The precision with its point. -/
def Count.afterPoint : Count → List UInt8
  | none => []
  | c => 46 :: c.chars

/-- The characters of a directive after its `%`. -/
def Directive.chars (d : Directive) : List UInt8 :=
  (if d.left then [45] else []) ++ (if d.plus then [43] else []) ++
    (if d.space then [32] else []) ++ (if d.special then [35] else []) ++
    (if d.zeropad then [48] else []) ++ (d.width.chars ++ (d.precision.afterPoint ++
    ((d.qualifier.elim [] Qualifier.chars) ++ [d.conversion.char])))

def Piece.chars : Piece → List UInt8
  | lit c => [c]
  | dir d => 37 :: d.chars

/-- The format of a list of pieces. -/
def spell (ps : List Piece) : List UInt8 := ps.flatMap Piece.chars

/-- Pieces that are spelled as one reads them: a literal is no `%` and no NUL, a width of 0
would be a flag, and the letters and digits after `%p` would belong to it. -/
def WellFormed : List Piece → Prop
  | [] => True
  | .lit c :: ps => (c ≠ 37 ∧ c ≠ 0) ∧ WellFormed ps
  | .dir d :: ps => d.width ≠ .exactly 0 ∧
      (d.conversion = .p → ∀ c ∈ (spell ps).head?, isalnum c = false) ∧ WellFormed ps

/-- A count, and the arguments after it. -/
def Count.value : Count → List VaArg → Option (Option ℤ × List VaArg)
  | none, args => some (Option.none, args)
  | exactly n, args => some (some (n : ℤ), args)
  | star, args => (vaInt args).map fun (w, args) => (some (toInt32 w), args)

/-- The flags that a directive writes out. -/
def Directive.flags (d : Directive) : Flags :=
  { left := d.left, plus := d.plus, space := d.space, special := d.special, zeropad := d.zeropad }

/-- The number a conversion takes from the arguments, by its qualifier: a word, or for `l` and
`L` a longer one, with its sign if the conversion is signed. -/
def Directive.argument (d : Directive) (signed : Bool) (args : List VaArg) :
    Option (ℕ × List VaArg) :=
  integerArg (d.qualifier.elim none fun q => if q = .ll then some 76 else q.chars.head?) signed args

/-- A number in its field. -/
def Directive.numberText (d : Directive) (base : ℕ) (flags : Flags) (width precision : ℤ)
    (args : List VaArg) : Option (List UInt8 × List (ℕ × ℕ) × List VaArg) := do
  let (num, args) ← d.argument flags.sign args
  some (field width flags.left flags.zeropad (signOf num flags ++ prefixOf base flags)
    (atLeast precision (numeral flags.locase base (magnitude num flags))), [], args)

/-- A string in its field: as many characters of it as the precision allows. -/
def stringText (s : Board.CString) (width precision : ℤ) (left : Bool) : List UInt8 :=
  field width left false [] (if precision < 0 then s.chars else s.chars.take precision.toNat)

/-- What a directive writes, what it stores, and the arguments it leaves, after `written`
characters. -/
def Directive.text (d : Directive) (written : ℕ) (args : List VaArg) :
    Option (List UInt8 × List (ℕ × ℕ) × List VaArg) := do
  let (w, args) ← d.width.value args
  let (p, args) ← d.precision.value args
  let flags := { d.flags with left := d.left || decide (w.getD 0 < 0) }
  let width := (w.map abs).getD (-1)
  let precision := (p.map (max · 0)).getD (-1)
  match d.conversion with
  | .c => do
    let (c, args) ← vaInt args
    some (field width flags.left false [] [UInt8.ofNat c], [], args)
  | .s =>
    match args with
    | .str s :: args =>
      some (stringText (s.getD nullString) width precision flags.left, [], args)
    | _ => none
  | .p =>
    match args with
    | .ptr p :: args =>
      some (if u32 p = 0 then stringText nullPointer width precision flags.left
        else field (w.elim 8 abs) flags.left (flags.zeropad || w.isNone)
          (if flags.special then [48, 120] else [])
          (atLeast precision (numeral 0x20 16 (u32 p))), [], args)
    | _ => none
  | .n =>
    match args with
    | .count dest :: args => some ([], [(dest, u32 written)], args)
    | _ => none
  | .percent => some ([37], [], args)
  | .o => d.numberText 8 flags width precision args
  | .x => d.numberText 16 { flags with small := true } width precision args
  | .X => d.numberText 16 flags width precision args
  | .d | .i => d.numberText 10 { flags with sign := true } width precision args
  | .u => d.numberText 10 flags width precision args

/-- The text of a list of pieces, after `written` characters, and what `%n` stores. -/
def render (written : ℕ) : List Piece → List VaArg → Option (List UInt8 × List (ℕ × ℕ))
  | [], _ => some ([], [])
  | .lit c :: ps, args => do
    let (out, stored) ← render (written + 1) ps args
    some (c :: out, stored)
  | .dir d :: ps, args => do
    let (text, kept, args) ← d.text written args
    let (out, stored) ← render (written + text.length) ps args
    some (text ++ out, kept ++ stored)

/-- A count well inside an `int`, so that what the sign, the prefix, the digits and the loops
take off a width is an `int` too. -/
def Count.Fits (c : Count) (args : List VaArg) : Prop :=
  ∀ r ∈ c.value args, ∀ v ∈ r.1, |v| < 2 ^ 30

def Directive.Fits (d : Directive) (args : List VaArg) : Prop :=
  d.width.Fits args ∧ ∀ r ∈ d.width.value args, d.precision.Fits r.2

/-- Every width and precision fits, those among the arguments included. -/
def CountsFit (written : ℕ) : List Piece → List VaArg → Prop
  | [], _ => True
  | .lit _ :: ps, args => CountsFit (written + 1) ps args
  | .dir d :: ps, args => d.Fits args ∧
      ∀ r ∈ d.text written args, CountsFit (written + r.1.length) ps r.2.2

/-- What follows the flags. -/
def EndsFlags (rest : List UInt8) : Prop :=
  ∀ c ∈ rest.head?, c ≠ 45 ∧ c ≠ 43 ∧ c ≠ 32 ∧ c ≠ 35 ∧ c ≠ 48

theorem parseFlags_of_ends {rest : List UInt8} (h : EndsFlags rest) (flags : Flags) :
    parseFlags flags rest = (flags, rest) := by
  cases rest with
  | nil => rfl
  | cons c rest =>
    obtain ⟨h1, h2, h3, h4, h5⟩ := h c (List.head?_cons ..)
    rw [parseFlags, if_neg h1, if_neg h2, if_neg h3, if_neg h4, if_neg h5]

/-- The flags are read in any order; here each comes at most once. -/
theorem parseFlags_spelled {rest : List UInt8} (h : EndsFlags rest) (d : Directive) :
    parseFlags {} ((if d.left then [45] else []) ++ (if d.plus then [43] else []) ++
      (if d.space then [32] else []) ++ (if d.special then [35] else []) ++
      (if d.zeropad then [48] else []) ++ rest) = (d.flags, rest) := by
  have hstep {b : Bool} {c : UInt8} {f g : Flags} {cs : List UInt8}
      (hc : b = true → parseFlags f (c :: cs) = parseFlags g cs) (hf : b = false → f = g) :
      parseFlags f ((if b then [c] else []) ++ cs) = parseFlags g cs := by
    cases b with
    | true => exact hc rfl
    | false => rw [hf rfl]; rfl
  simp only [List.append_assoc]
  rw [hstep (g := { left := d.left }) (fun hb => by rw [hb]; rfl) fun hb => by rw [hb],
    hstep (g := { left := d.left, plus := d.plus }) (fun hb => by rw [hb]; rfl)
      fun hb => by rw [hb],
    hstep (g := { left := d.left, plus := d.plus, space := d.space }) (fun hb => by rw [hb]; rfl)
      fun hb => by rw [hb],
    hstep (g := { left := d.left, plus := d.plus, space := d.space, special := d.special })
      (fun hb => by rw [hb]; rfl) fun hb => by rw [hb],
    hstep (g := d.flags) (fun hb => by rw [Directive.flags, hb]; rfl)
      fun hb => by rw [Directive.flags, hb],
    parseFlags_of_ends h]

theorem isDigit_digitChar {d : ℕ} (h : d < 10) :
    isDigit (digitChar 0 d) = true ∧ (digitChar 0 d).toNat - 48 = d := by
  interval_cases d <;> decide

theorem skipAtoi_append {ds : List ℕ} {rest : List UInt8} (i : ℕ) (hds : ∀ d ∈ ds, d < 10)
    (hrest : ∀ c ∈ rest.head?, isDigit c = false) :
    skipAtoi (u32 i) (ds.map (digitChar 0) ++ rest) =
      (u32 (ds.foldl (fun n d => n * 10 + d) i), rest) := by
  induction ds generalizing i with
  | nil =>
    cases rest with
    | nil => rfl
    | cons c rest =>
      rw [List.map_nil, List.nil_append, skipAtoi, hrest c (List.head?_cons ..)]
      rfl
  | cons d ds ih =>
    obtain ⟨hdigit, hval⟩ := isDigit_digitChar (hds d (List.mem_cons_self ..))
    have hword : u32 (u32 i * 10 + d) = u32 (i * 10 + d) := by
      unfold u32
      omega
    rw [List.map_cons, List.cons_append, skipAtoi, if_pos hdigit, hval, hword,
      ih _ fun d hd => hds d (List.mem_cons_of_mem _ hd), List.foldl_cons]

/-- A number, spelled, is read back as a word. -/
theorem skipAtoi_numeral (n : ℕ) (rest : List UInt8)
    (hrest : ∀ c ∈ rest.head?, isDigit c = false) :
    skipAtoi 0 (numeral 0 10 n ++ rest) = (u32 n, rest) := by
  have hstart : u32 0 = 0 := rfl
  unfold numeral
  by_cases h0 : n = 0
  · subst h0
    have hzero : skipAtoi (u32 0) ([0].map (digitChar 0) ++ rest) = (u32 0, rest) :=
      skipAtoi_append 0 (fun d hd => by rw [List.mem_singleton.mp hd]; norm_num) hrest
    exact hzero
  · have hlt : ∀ d ∈ (Nat.digits 10 n).reverse, d < 10 := fun d hd =>
      Nat.digits_lt_base (by norm_num) (List.mem_reverse.mp hd)
    have hval : (Nat.digits 10 n).reverse.foldl (fun n d => n * 10 + d) 0 = n := by
      rw [List.foldl_reverse]
      conv_rhs => rw [← Nat.ofDigits_digits 10 n, Nat.ofDigits_eq_foldr]
      congr 1
      funext d m
      simp [mul_comm, add_comm]
    rw [if_neg h0, ← List.map_reverse, ← hstart, skipAtoi_append 0 hlt hrest, hval]

/-- A number begins with a digit, and not with a zero unless it is zero. -/
theorem head_numeral (n : ℕ) : ∃ d < 10, (n ≠ 0 → d ≠ 0) ∧
    (numeral 0 10 n).head? = some (digitChar 0 d) := by
  unfold numeral
  by_cases h0 : n = 0
  · exact ⟨0, by norm_num, fun h => absurd h0 h, by rw [if_pos h0]; rfl⟩
  · have hne : Nat.digits 10 n ≠ [] := Nat.digits_ne_nil_iff_ne_zero.mpr h0
    refine ⟨(Nat.digits 10 n).getLast hne, ?_, fun _ => Nat.getLast_digit_ne_zero 10 h0, ?_⟩
    · exact Nat.digits_lt_base (by norm_num) (List.getLast_mem hne)
    · rw [if_neg h0, List.head?_reverse, List.getLast?_map, List.getLast?_eq_getLast_of_ne_nil hne]
      rfl

/-- The characters that a qualifier or a conversion begins with. -/
def plainHeads : List UInt8 :=
  [104, 108, 76, 90, 122, 116, 99, 115, 112, 110, 37, 111, 120, 88, 100, 105, 117]

/-- None of them is a digit, a flag, a star or a point. -/
theorem plainHeads_facts : ∀ c ∈ plainHeads, isDigit c = false ∧ c ≠ 42 ∧ c ≠ 46 ∧
    c ≠ 45 ∧ c ≠ 43 ∧ c ≠ 32 ∧ c ≠ 35 ∧ c ≠ 48 := by
  decide +kernel

/-- A qualifier and a conversion, with what follows them. -/
def conversionChars (d : Directive) (rest : List UInt8) : List UInt8 :=
  d.qualifier.elim [] Qualifier.chars ++ d.conversion.char :: rest

theorem head_conversionChars (d : Directive) (rest : List UInt8) :
    ∃ c ∈ plainHeads, (conversionChars d rest).head? = some c := by
  unfold conversionChars
  cases d.qualifier with
  | none => cases d.conversion <;> exact ⟨_, by decide, rfl⟩
  | some q => cases q <;> exact ⟨_, by decide, rfl⟩

/-- What follows a width: a point or a plain character. -/
theorem head_afterPoint (d : Directive) (rest : List UInt8) : ∃ c, (c = 46 ∨ c ∈ plainHeads) ∧
    (d.precision.afterPoint ++ conversionChars d rest).head? = some c := by
  cases d.precision with
  | none =>
    obtain ⟨c, hc, hhead⟩ := head_conversionChars d rest
    exact ⟨c, .inr hc, hhead⟩
  | exactly n => exact ⟨46, .inl rfl, rfl⟩
  | star => exact ⟨46, .inl rfl, rfl⟩

theorem vaInt_lt {args rest : List VaArg} {w : ℕ} (h : vaInt args = some (w, rest)) :
    w < 2 ^ 32 := by
  unfold vaInt at h
  split at h
  · obtain ⟨rfl, -⟩ := Prod.mk.inj (Option.some.inj h)
    exact Nat.mod_lt _ (by norm_num)
  · cases h

/-- A number that fits is the `int` of its word. -/
theorem toInt32_u32 {n : ℕ} (h : n < 2 ^ 30) : toInt32 (u32 n) = n := by
  rw [u32_of_lt (by omega), toInt32, if_pos (by omega)]

/-- Away from the least `int`, the sign of a negative one is turned. -/
theorem toInt32_neg {w : ℕ} (hw : w < 2 ^ 32) (hneg : toInt32 w < 0) (hfit : |toInt32 w| < 2 ^ 30) :
    toInt32 (u32 (2 ^ 32 - w)) = -toInt32 w := by
  rw [abs_of_neg hneg] at hfit
  unfold toInt32 u32 at *
  split_ifs at * <;> omega

/-- A count in digits is read up to the character behind it, and is the `int` it spells. -/
theorem exactly_spelled {rest : List UInt8} {c : UInt8} (hhead : rest.head? = some c)
    (hdigit : isDigit c = false) {n : ℕ} {args : List VaArg} (hfits : (Count.exactly n).Fits args) :
    (∃ d, (numeral 0 10 n ++ rest).head? = some d ∧ isDigit d = true) ∧
      skipAtoi 0 (numeral 0 10 n ++ rest) = (u32 n, rest) ∧ toInt32 (u32 n) = n := by
  obtain ⟨d, hd, -, hfirst⟩ := head_numeral n
  refine ⟨⟨digitChar 0 d, ?_, (isDigit_digitChar hd).1⟩, ?_, ?_⟩
  · rw [List.head?_append, hfirst]
    rfl
  · apply skipAtoi_numeral
    intro x hx
    obtain rfl : c = x := Option.some.inj (hhead.symm.trans hx)
    exact hdigit
  · exact toInt32_u32 (by simpa [Count.Fits, Count.value] using hfits)

theorem parseWidth_spelled {rest : List UInt8}
    (hrest : ∃ c, (c = 46 ∨ c ∈ plainHeads) ∧ rest.head? = some c) (flags : Flags) (w : Count)
    {args : List VaArg} (hfits : w.Fits args) :
    parseWidth flags (w.chars ++ rest) args = (w.value args).map fun r =>
      ({ flags with left := flags.left || decide (r.1.getD 0 < 0) }, (r.1.map abs).getD (-1), rest,
        r.2) := by
  obtain ⟨c, hc, hhead⟩ := hrest
  have hplain : isDigit c = false ∧ c ≠ 42 := by
    rcases hc with rfl | hc
    · exact ⟨by decide, by decide⟩
    · exact ⟨(plainHeads_facts c hc).1, (plainHeads_facts c hc).2.1⟩
  cases w with
  | none =>
    simp [parseWidth, Count.chars, Count.value, hhead, hplain]
  | exactly n =>
    obtain ⟨⟨d, hfirst, hd⟩, hread, hint⟩ := exactly_spelled hhead hplain.1 hfits
    have hnonneg : ¬((n : ℤ) < 0) := by omega
    simp [parseWidth, Count.chars, Count.value, hfirst, hd, hread, hnonneg, hint]
  | star =>
    have hstar : isDigit 42 = false := by decide
    cases hva : vaInt args with
    | none => simp [parseWidth, Count.chars, Count.value, hstar, hva]
    | some r =>
      have hsmall : |toInt32 r.1| < 2 ^ 30 := by simpa [Count.Fits, Count.value, hva] using hfits
      by_cases hneg : toInt32 r.1 < 0
      · have hturned := toInt32_neg (vaInt_lt hva) hneg hsmall
        simpa [parseWidth, Count.chars, Count.value, hstar, hva, hneg, abs_of_neg hneg]
          using hturned
      · simp [parseWidth, Count.chars, Count.value, hstar, hva, hneg,
          abs_of_nonneg (not_lt.mp hneg)]

theorem parsePrecision_spelled {rest : List UInt8}
    (hrest : ∃ c ∈ plainHeads, rest.head? = some c) (p : Count) {args : List VaArg}
    (hfits : p.Fits args) :
    parsePrecision (p.afterPoint ++ rest) args = (p.value args).map fun r =>
      ((r.1.map (max · 0)).getD (-1), rest, r.2) := by
  obtain ⟨c, hc, hhead⟩ := hrest
  obtain ⟨hdigit, -, hpoint, -⟩ := plainHeads_facts c hc
  cases p with
  | none => simp [parsePrecision, Count.afterPoint, Count.value, hhead, hpoint]
  | exactly n =>
    obtain ⟨⟨d, hfirst, hd⟩, hread, hint⟩ := exactly_spelled hhead hdigit hfits
    simp [parsePrecision, Count.afterPoint, Count.chars, Count.value, hfirst, hd, hread, hint]
  | star =>
    have hstar : isDigit 42 = false := by decide
    cases hva : vaInt args with
    | none => simp [parsePrecision, Count.afterPoint, Count.chars, Count.value, hstar, hva]
    | some r => simp [parsePrecision, Count.afterPoint, Count.chars, Count.value, hstar, hva]

theorem parseQualifier_spelled (d : Directive) (rest : List UInt8) :
    parseQualifier (conversionChars d rest) =
      (d.qualifier.elim none fun q => if q = .ll then some 76 else q.chars.head?,
        d.conversion.char :: rest) := by
  unfold conversionChars
  cases d.qualifier with
  | none => cases d.conversion <;> rfl
  | some q => cases q <;> cases d.conversion <;> rfl

/-- A spelled directive begins with no character that would be one more flag. -/
theorem endsFlags_spelled (d : Directive) (hwidth : d.width ≠ .exactly 0) (rest : List UInt8) :
    EndsFlags (d.width.chars ++ (d.precision.afterPoint ++ conversionChars d rest)) := by
  obtain ⟨c, hc, hhead⟩ := head_afterPoint d rest
  intro x hx
  cases hw : d.width with
  | none =>
    rw [hw] at hx
    obtain rfl : c = x := Option.some.inj (hhead.symm.trans hx)
    rcases hc with rfl | hc
    · decide
    · exact (plainHeads_facts c hc).2.2.2
  | exactly n =>
    rw [hw] at hx
    obtain ⟨d', hd, hne, hfirst⟩ := head_numeral n
    have hx' : digitChar 0 d' = x := by
      rw [Count.chars, List.head?_append, hfirst] at hx
      exact Option.some.inj hx
    have hpos : d' ≠ 0 := hne fun h => hwidth (by rw [hw, h])
    subst hx'
    interval_cases d' <;> first | exact absurd rfl hpos | decide
  | star =>
    rw [hw] at hx
    obtain rfl : 42 = x := Option.some.inj hx
    decide

theorem character_eq_field (c : UInt8) (width : ℤ) (flags : Flags) :
    character c width flags = field width flags.left false [] [c] := by
  have hspent (n : ℤ) : (min n 0 - 1).toNat = 0 := by omega
  cases hleft : flags.left
  · simp [character, field, pad_eq, hleft, hspent]
  · simp [character, field, pad_eq, hleft]

theorem string_eq_text (s : Option Board.CString) (width precision : ℤ) (flags : Flags) :
    string s width precision flags =
      stringText (s.getD nullString) width precision flags.left := by
  have hspent (n : ℤ) : (min n 0 - 1).toNat = 0 := by omega
  generalize hs : (s.getD nullString).chars = chars
  have htake : chars.take (if precision < 0 then chars.length
      else min chars.length precision.toNat) =
      if precision < 0 then chars else chars.take precision.toNat := by
    split_ifs
    · exact List.take_length
    · rw [Nat.min_comm, ← List.take_take, List.take_length]
  have hlen : ((if precision < 0 then chars else chars.take precision.toNat).length : ℤ) =
      ((if precision < 0 then chars.length else min chars.length precision.toNat : ℕ) : ℤ) := by
    split_ifs
    · rfl
    · rw [List.length_take, Nat.min_comm]
  simp only [string, stringText, field, hs, htake, hlen, pad_eq]
  cases hleft : flags.left
  · simp [hspent]
  · simp

theorem pointer_eq_text {ptr : ℕ} (hptr : ptr < 2 ^ 32) (w : Option ℤ) (precision : ℤ)
    (flags : Flags) (hsign : flags.sign = false) :
    pointer ptr ((w.map abs).getD (-1)) precision flags =
      if ptr = 0 then
        stringText nullPointer ((w.map abs).getD (-1)) precision flags.left
      else field (w.elim 8 abs) flags.left (flags.zeropad || w.isNone)
        (if flags.special then [48, 120] else []) (atLeast precision (numeral 0x20 16 ptr)) := by
  have hnum : ptr < 2 ^ 64 := by omega
  have hx : (88 ||| 0x20 : UInt8) = 120 := by decide
  unfold pointer
  by_cases h0 : ptr = 0
  · rw [if_pos h0, if_pos h0, string_eq_text]
    rfl
  · rw [if_neg h0, if_neg h0]
    cases w with
    | none =>
      rw [Option.map_none, Option.getD_none, if_pos rfl, number_eq_field (.inr (.inr rfl)) hnum]
      simp [signOf, prefixOf, magnitude, hsign, Flags.locase, hx]
    | some v =>
      have hne : |v| ≠ -1 := by have := abs_nonneg v; omega
      rw [Option.map_some, Option.getD_some, if_neg hne, number_eq_field (.inr (.inr rfl)) hnum]
      simp [signOf, prefixOf, magnitude, hsign, Flags.locase, hx]

theorem signExtend_lt {bits w : ℕ} (hbits : bits ≤ 64) (hw : w < 2 ^ bits) :
    signExtend bits w < 2 ^ 64 := by
  have hle : 2 ^ bits ≤ 2 ^ 64 := Nat.pow_le_pow_right (by norm_num) hbits
  unfold signExtend
  split_ifs <;> omega

/-- Every number that a conversion takes fits 64 bits. -/
theorem integerArg_lt {qualifier : Option UInt8} {sign : Bool} {args rest : List VaArg} {num : ℕ}
    (h : integerArg qualifier sign args = some (num, rest)) : num < 2 ^ 64 := by
  unfold integerArg at h
  split at h
  · split at h
    · obtain ⟨rfl, -⟩ := Prod.mk.inj (Option.some.inj h)
      exact u64_lt _
    · cases h
  · obtain ⟨⟨w, args'⟩, hr, h⟩ := Option.bind_eq_some_iff.mp h
    have hlt := vaInt_lt hr
    have hshort : w % 2 ^ 16 < 2 ^ 16 := Nat.mod_lt _ (by norm_num)
    simp only at h
    split_ifs at h <;> obtain ⟨rfl, -⟩ := Prod.mk.inj (Option.some.inj h)
    · omega
    · exact signExtend_lt (by norm_num) hlt
    · exact signExtend_lt (by norm_num) hshort
    · omega
    · exact signExtend_lt (by norm_num) hlt
    · omega

/-- A number conversion of the interpreter writes the number in its field. -/
theorem convert_number (d : Directive) {flags : Flags} {base : ℕ} (hbase : IsBase base)
    (width precision : ℤ) (rest : List UInt8) (args : List VaArg) :
    (integerArg (d.qualifier.elim none fun q => if q = .ll then some 76 else q.chars.head?)
      flags.sign args).bind (fun r =>
        some (⟨number r.1 base width precision flags, [], rest, r.2⟩ : Printed)) =
      (d.numberText base flags width precision args).map fun r => ⟨r.1, r.2.1, rest, r.2.2⟩ := by
  unfold Directive.numberText Directive.argument
  cases harg : integerArg (d.qualifier.elim none fun q => if q = .ll then some 76 else
      q.chars.head?) flags.sign args with
  | none => rfl
  | some r =>
    obtain ⟨num, args'⟩ := r
    rw [Option.bind_some, number_eq_field hbase (integerArg_lt harg)]
    rfl

/-- A directive, spelled, writes its text and leaves what follows it. -/
theorem directive_spelled (d : Directive) (hwidth : d.width ≠ .exactly 0) (written : ℕ)
    {rest : List UInt8} (hrest : d.conversion = .p → ∀ c ∈ rest.head?, isalnum c = false)
    {args : List VaArg} (hfits : d.Fits args) :
    directive written (d.chars ++ rest) args =
      (d.text written args).map fun r => ⟨r.1, r.2.1, rest, r.2.2⟩ := by
  have hchars : d.chars ++ rest = (if d.left then [45] else []) ++ (if d.plus then [43] else []) ++
      (if d.space then [32] else []) ++ (if d.special then [35] else []) ++
      (if d.zeropad then [48] else []) ++
      (d.width.chars ++ (d.precision.afterPoint ++ conversionChars d rest)) := by
    simp only [Directive.chars, conversionChars, List.append_assoc, List.singleton_append]
  rw [directive, hchars, parseFlags_spelled (endsFlags_spelled d hwidth rest)]
  simp only [parseWidth_spelled (head_afterPoint d rest) d.flags d.width hfits.1]
  unfold Directive.text
  cases hw : d.width.value args with
  | none => rfl
  | some r =>
    have hprec := hfits.2 r hw
    obtain ⟨w, args⟩ := r
    simp only [Option.map_some, Option.bind_eq_bind, Option.bind_some,
      parsePrecision_spelled (head_conversionChars d rest) d.precision hprec]
    cases hp : d.precision.value args with
    | none => rfl
    | some r =>
      obtain ⟨p, args⟩ := r
      simp only [Option.map_some, Option.bind_some, parseQualifier_spelled]
      have hsign : d.flags.sign = false := rfl
      have hleft : d.flags.left = d.left := rfl
      cases hconv : d.conversion with
      | c =>
        cases hva : vaInt args with
        | none => simp [convert, Conversion.char, hva]
        | some r => simp [convert, Conversion.char, hva, character_eq_field, hleft]
      | s =>
        cases args with
        | nil => rfl
        | cons a args => cases a <;> simp [convert, Conversion.char, string_eq_text, hleft]
      | p =>
        have hdrop : rest.dropWhile isalnum = rest := by
          cases rest with
          | nil => rfl
          | cons c rest => simp [hrest hconv c (List.head?_cons ..)]
        cases args with
        | nil => rfl
        | cons a args =>
          cases a with
          | ptr ptr =>
            simp [convert, Conversion.char, pointer_eq_text (u32_lt ptr), hsign, hleft, hdrop]
          | _ => rfl
      | n =>
        cases args with
        | nil => rfl
        | cons a args => cases a <;> rfl
      | percent => rfl
      | o => exact convert_number d (.inl rfl) _ _ rest args
      | x => exact convert_number d (.inr (.inr rfl)) _ _ rest args
      | X => exact convert_number d (.inr (.inr rfl)) _ _ rest args
      | d => exact convert_number d (.inr (.inl rfl)) _ _ rest args
      | i => exact convert_number d (.inr (.inl rfl)) _ _ rest args
      | u => exact convert_number d (.inr (.inl rfl)) _ _ rest args

theorem vsprintfLoop_spell {ps : List Piece} (h : WellFormed ps) {args : List VaArg}
    {fuel : ℕ} (written : ℕ) (hfits : CountsFit written ps args)
    (hfuel : (spell ps).length ≤ fuel) :
    vsprintfLoop fuel written (spell ps) args = render written ps args := by
  induction ps generalizing fuel written args with
  | nil => cases fuel <;> rfl
  | cons p ps ih =>
    cases p with
    | lit c =>
      obtain ⟨⟨hc, -⟩, hps⟩ := h
      have hspell : spell (.lit c :: ps) = c :: spell ps := rfl
      rw [hspell, List.length_cons] at hfuel
      obtain ⟨fuel, rfl⟩ : ∃ k, fuel = k + 1 := ⟨fuel - 1, by omega⟩
      rw [hspell, vsprintfLoop, if_pos hc, ih hps (written + 1) hfits (by omega), render]
    | dir d =>
      obtain ⟨hwidth, hp, hps⟩ := h
      obtain ⟨hd, hfits⟩ := hfits
      have hspell : spell (.dir d :: ps) = 37 :: (d.chars ++ spell ps) := rfl
      rw [hspell, List.length_cons, List.length_append] at hfuel
      obtain ⟨fuel, rfl⟩ : ∃ k, fuel = k + 1 := ⟨fuel - 1, by omega⟩
      have hpercent : ¬(37 : UInt8) ≠ 37 := by decide
      rw [hspell, vsprintfLoop, if_neg hpercent, directive_spelled d hwidth written hp hd, render]
      cases htext : d.text written args with
      | none => rfl
      | some r =>
        have hrest := hfits r htext
        obtain ⟨text, kept, args⟩ := r
        simp only [Option.map_some, Option.bind_eq_bind, Option.bind_some]
        rw [ih hps _ hrest (by omega)]

theorem zero_notMem_numeral (n : ℕ) : 0 ∉ numeral 0 10 n := by
  have hchar (d : ℕ) (hd : d < 10) : digitChar 0 d ≠ 0 := by
    interval_cases d <;> decide
  unfold numeral
  split_ifs
  · decide
  · intro hmem
    obtain ⟨d, hd, hzero⟩ := List.mem_map.mp (List.mem_reverse.mp hmem)
    exact hchar d (Nat.digits_lt_base (by norm_num) hd) hzero

theorem zero_notMem_chars (d : Directive) : 0 ∉ d.chars := by
  have hflag (b : Bool) {c : UInt8} (hc : c ≠ 0) : 0 ∉ (if b then [c] else []) := by
    cases b with
    | true => exact fun h => hc (List.mem_singleton.mp h).symm
    | false => exact List.not_mem_nil
  have hcount (c : Count) : 0 ∉ c.chars ∧ 0 ∉ c.afterPoint := by
    cases c with
    | none => exact ⟨List.not_mem_nil, List.not_mem_nil⟩
    | exactly n =>
      have hn := zero_notMem_numeral n
      exact ⟨hn, fun h => (List.mem_cons.mp h).elim (by decide) hn⟩
    | star => exact ⟨by decide, by decide⟩
  have hqualifier : 0 ∉ d.qualifier.elim [] Qualifier.chars := by
    cases d.qualifier with
    | none => exact List.not_mem_nil
    | some q => cases q <;> decide
  have hconversion : 0 ∉ [d.conversion.char] := by cases d.conversion <;> decide
  simp only [Directive.chars, List.mem_append, not_or]
  exact ⟨⟨⟨⟨⟨hflag _ (by decide), hflag _ (by decide)⟩, hflag _ (by decide)⟩,
    hflag _ (by decide)⟩, hflag _ (by decide)⟩, (hcount _).1, (hcount _).2, hqualifier,
    hconversion⟩

/-- The format of well-formed pieces ends where its characters do. -/
theorem zero_notMem_spell {ps : List Piece} (h : WellFormed ps) : 0 ∉ spell ps := by
  induction ps with
  | nil => exact List.not_mem_nil
  | cons p ps ih =>
    cases p with
    | lit c => exact fun hmem => (List.mem_cons.mp hmem).elim (fun h0 => h.1.2 h0.symm) (ih h.2)
    | dir d =>
      intro hmem
      rcases List.mem_append.mp hmem with hd | hps
      · exact (List.mem_cons.mp hd).elim (by decide) (zero_notMem_chars d)
      · exact ih h.2.2 hps

theorem vsprintf_eq_render {ps : List Piece} (h : WellFormed ps) {args : List VaArg}
    (hfits : CountsFit 0 ps args) : vsprintf (spell ps) args = render 0 ps args := by
  have hwhole : (spell ps).takeWhile (· != 0) = spell ps := by
    rw [List.takeWhile_eq_self_iff]
    intro c hc
    simpa using fun h0 : c = 0 => zero_notMem_spell h (h0 ▸ hc)
  rw [vsprintf, hwhole]
  exact vsprintfLoop_spell h 0 hfits le_rfl

/-- The interpreter gives every well-formed list of pieces, spelled out, the text that the
pieces stand for, with the arguments in their order and the counts that `%n` asks for. -/
theorem vsprintf_spell {ps : List Piece} (h : WellFormed ps) {args : List VaArg}
    (hfits : CountsFit 0 ps args) : vsprintf (spell ps) args = render 0 ps args :=
  vsprintf_eq_render h hfits

/-- A count that is written in the format and fits. -/
def Count.small : Count → Bool
  | none => true
  | exactly n => decide (n < 2 ^ 30)
  | star => false

def Piece.small : Piece → Bool
  | lit _ => true
  | dir d => d.width.small && d.precision.small

theorem Count.fits_of_small {c : Count} (h : c.small = true) (args : List VaArg) :
    c.Fits args := by
  cases c with
  | none => simp [Count.Fits, Count.value]
  | exactly n => simpa [Count.Fits, Count.value, Count.small] using h
  | star => cases h

/-- Where no count is among the arguments, the format alone says that they fit. -/
theorem countsFit_of_small {ps : List Piece} (h : ps.all Piece.small = true) (written : ℕ)
    (args : List VaArg) : CountsFit written ps args := by
  induction ps generalizing written args with
  | nil => trivial
  | cons p ps ih =>
    rw [List.all_cons, Bool.and_eq_true] at h
    cases p with
    | lit c => exact ih h.2 _ _
    | dir d =>
      obtain ⟨hwidth, hprec⟩ := (Bool.and_eq_true _ _).mp h.1
      exact ⟨⟨Count.fits_of_small hwidth args, fun r _ => Count.fits_of_small hprec r.2⟩,
        fun r _ => ih h.2 _ _⟩

/-- `%08x`. -/
def eightDigits : Directive := { zeropad := true, width := .exactly 8, conversion := .x }

/-- `DATA%08x`, the answer to a download command. -/
def dataFormat : List Piece := [.lit 68, .lit 65, .lit 84, .lit 65, .dir eightDigits]

theorem wellFormed_dataFormat : WellFormed dataFormat :=
  ⟨by decide, by decide, by decide, by decide, by decide, by decide, trivial⟩

/-- The format `%s%n` with a null string in a field of 8, cut at 4: the width and the precision
come first, and what was written before it is counted. -/
def cutFormat : List Piece :=
  [.dir { width := .star, precision := .star, conversion := .s }, .dir { conversion := .n }]

theorem vsprintf_cutFormat :
    vsprintf (spell cutFormat) [.int (2 ^ 32 - 8), .int 4, .str none, .count 0x100] =
      some ([60, 78, 85, 76, 32, 32, 32, 32], [(0x100, 8)]) := by
  rw [vsprintf_spell]
  · decide +kernel
  · exact ⟨by decide, by decide, by decide, by decide, trivial⟩
  · simp +decide [cutFormat, CountsFit, Directive.Fits, Count.Fits, Count.value, vaInt, toInt32]

end UBoot.Text
