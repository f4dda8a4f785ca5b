import UBoot.Board.Setup
import UBoot.Text.Numeral

/-!
# The format interpreter

`vsprintf` of `lib/vsprintf.c` reads a format character by character: flags, a width, a
precision and a qualifier come before each conversion, and the width and the precision may
take an argument first. An argument of another type than the conversion reads is not defined,
and neither is a missing one.
-/
namespace UBoot.Text
open Disk (isxdigit digitValue)

/-- An argument of the list: a word of 32 bits, one of 64, a string or a null one, a pointer,
and where `%n` puts its count. -/
inductive VaArg
  | int (w : ℕ)
  | quad (w : ℕ)
  | str (s : Option Board.CString)
  | ptr (p : ℕ)
  | count (dest : ℕ)
  deriving DecidableEq

/-- `va_arg(args, int)`: a word. -/
def vaInt : List VaArg → Option (ℕ × List VaArg)
  | .int w :: args => some (w % 2 ^ 32, args)
  | _ => none

/-- A word as an `int`. -/
def toInt32 (w : ℕ) : ℤ := if w < 2 ^ 31 then w else (w : ℤ) - 2 ^ 32

/-- A signed value of `bits` bits in a 64-bit variable. -/
def signExtend (bits w : ℕ) : ℕ := if w < 2 ^ (bits - 1) then w else w + (2 ^ 64 - 2 ^ bits)

/-- `is_digit`. -/
def isDigit (c : UInt8) : Bool := 48 ≤ c && c ≤ 57

/-- `isalnum` of `lib/ctype.c`, the letters above 191 included. -/
def isalnum (c : UInt8) : Bool :=
  isDigit c || (65 ≤ c && c ≤ 90) || (97 ≤ c && c ≤ 122) || (192 ≤ c && c != 215 && c != 247)

/-- The flags before a width. -/
def parseFlags (flags : Flags) : List UInt8 → Flags × List UInt8
  | [] => (flags, [])
  | c :: fmt =>
    if c = 45 then parseFlags { flags with left := true } fmt
    else if c = 43 then parseFlags { flags with plus := true } fmt
    else if c = 32 then parseFlags { flags with space := true } fmt
    else if c = 35 then parseFlags { flags with special := true } fmt
    else if c = 48 then parseFlags { flags with zeropad := true } fmt
    else (flags, c :: fmt)

/-- `skip_atoi`: `i` is the word of an `int`. -/
def skipAtoi : ℕ → List UInt8 → ℕ × List UInt8
  | i, [] => (i, [])
  | i, c :: s => if isDigit c then skipAtoi (u32 (i * 10 + (c.toNat - 48))) s else (i, c :: s)

/-- The field width; a negative argument justifies to the left, and its sign is turned in an
`int`. -/
def parseWidth (flags : Flags) (fmt : List UInt8) (args : List VaArg) :
    Option (Flags × ℤ × List UInt8 × List VaArg) :=
  if fmt.head?.any isDigit then
    some (flags, toInt32 (skipAtoi 0 fmt).1, (skipAtoi 0 fmt).2, args)
  else if fmt.head? = some 42 then do
    let (w, args) ← vaInt args
    if toInt32 w < 0 then
      some ({ flags with left := true }, toInt32 (u32 (2 ^ 32 - w)), fmt.tail, args)
    else some (flags, toInt32 w, fmt.tail, args)
  else some (flags, -1, fmt, args)

/-- The precision; a negative one is 0. -/
def parsePrecision (fmt : List UInt8) (args : List VaArg) :
    Option (ℤ × List UInt8 × List VaArg) :=
  if fmt.head? = some 46 then
    let fmt := fmt.tail
    if fmt.head?.any isDigit then
      some (max (toInt32 (skipAtoi 0 fmt).1) 0, (skipAtoi 0 fmt).2, args)
    else if fmt.head? = some 42 then do
      let (w, args) ← vaInt args
      some (max (toInt32 w) 0, fmt.tail, args)
    else some (0, fmt, args)
  else some (-1, fmt, args)

/-- The qualifier; `ll` is `L`. -/
def parseQualifier (fmt : List UInt8) : Option UInt8 × List UInt8 :=
  if fmt.head?.any fun c => c = 104 || c = 108 || c = 76 || c = 90 || c = 122 || c = 116 then
    if fmt.head? = some 108 ∧ fmt.tail.head? = some 108 then (some 76, fmt.tail.tail)
    else (fmt.head?, fmt.tail)
  else (none, fmt)

/-- The base and the flags of a number conversion. -/
def integerFormat (c : UInt8) (flags : Flags) : Option (ℕ × Flags) :=
  if c = 111 then some (8, flags)
  else if c = 120 then some (16, { flags with small := true })
  else if c = 88 then some (16, flags)
  else if c = 100 ∨ c = 105 then some (10, { flags with sign := true })
  else if c = 117 then some (10, flags)
  else none

/-- The number that a conversion takes, in 64 bits. -/
def integerArg (qualifier : Option UInt8) (sign : Bool) (args : List VaArg) :
    Option (ℕ × List VaArg) :=
  if qualifier = some 76 then
    match args with
    | .quad w :: args => some (u64 w, args)
    | _ => none
  else do
    let (w, args) ← vaInt args
    if qualifier = some 90 ∨ qualifier = some 122 then some (w, args)
    else if qualifier = some 116 then some (signExtend 32 w, args)
    else if qualifier = some 104 then
      some (if sign then signExtend 16 (w % 2 ^ 16) else w % 2 ^ 16, args)
    else some (if sign then signExtend 32 w else w, args)

/-- `<NULL>`. -/
def nullString : Board.CString := ⟨[60, 78, 85, 76, 76, 62], by decide⟩

/-- `(null)`. -/
def nullPointer : Board.CString := ⟨[40, 110, 117, 108, 108, 41], by decide⟩

/-- `string`: a null string is `<NULL>`. -/
def string (s : Option Board.CString) (fieldWidth precision : ℤ) (flags : Flags) : List UInt8 :=
  let s := (s.getD nullString).chars
  -- a precision of -1 is the largest `size_t`
  let len := if precision < 0 then s.length else min s.length precision.toNat
  let (lead, room) := if flags.left then ([], fieldWidth - len) else pad 32 (fieldWidth - len)
  lead ++ s.take len ++ (pad 32 room).1

/-- `pointer`: a null pointer is `(null)`, and another one is a number in base 16. -/
def pointer (ptr : ℕ) (fieldWidth precision : ℤ) (flags : Flags) : List UInt8 :=
  if ptr = 0 then string (some nullPointer) fieldWidth precision flags
  else
    let flags := { flags with small := true }
    if fieldWidth = -1 then number ptr 16 8 precision { flags with zeropad := true }
    else number ptr 16 fieldWidth precision flags

/-- `%c`; both loops run while `--field_width > 0`. -/
def character (c : UInt8) (fieldWidth : ℤ) (flags : Flags) : List UInt8 :=
  let (lead, room) := if flags.left then ([], fieldWidth - 1) else pad 32 (fieldWidth - 1)
  lead ++ [c] ++ (pad 32 room).1

/-- What a directive writes, what it stores for `%n`, and the format and the arguments after
it. -/
structure Printed where
  out : List UInt8
  stored : List (ℕ × ℕ)
  fmt : List UInt8
  args : List VaArg
  deriving DecidableEq

/-- The `switch` on the conversion, with `written` characters in the buffer. -/
def convert (written : ℕ) (flags : Flags) (fieldWidth precision : ℤ) (qualifier : Option UInt8)
    (fmt : List UInt8) (args : List VaArg) : Option Printed :=
  match fmt with
  | [] => some ⟨[37], [], [], args⟩
  | c :: fmt =>
    if c = 99 then do
      let (w, args) ← vaInt args
      some ⟨character (UInt8.ofNat w) fieldWidth flags, [], fmt, args⟩
    else if c = 115 then
      match args with
      | .str s :: args => some ⟨string s fieldWidth precision flags, [], fmt, args⟩
      | _ => none
    else if c = 112 then
      match args with
      | .ptr p :: args =>
        some ⟨pointer (u32 p) fieldWidth precision flags, [], fmt.dropWhile isalnum, args⟩
      | _ => none
    else if c = 110 then
      match args with
      | .count dest :: args => some ⟨[], [(dest, u32 written)], fmt, args⟩
      | _ => none
    else if c = 37 then some ⟨[37], [], fmt, args⟩
    else
      match integerFormat c flags with
      | some (base, flags) => do
        let (num, args) ← integerArg qualifier flags.sign args
        some ⟨number num base fieldWidth precision flags, [], fmt, args⟩
      | none => some ⟨[37, c], [], fmt, args⟩

/-- A directive, after its `%`. -/
def directive (written : ℕ) (fmt : List UInt8) (args : List VaArg) : Option Printed := do
  let (flags, fmt) := parseFlags {} fmt
  let (flags, fieldWidth, fmt, args) ← parseWidth flags fmt args
  let (precision, fmt, args) ← parsePrecision fmt args
  let (qualifier, fmt) := parseQualifier fmt
  convert written flags fieldWidth precision qualifier fmt args

/-- The loop of `vsprintf`: what is written, and what is stored for `%n`. -/
def vsprintfLoop : ℕ → ℕ → List UInt8 → List VaArg → Option (List UInt8 × List (ℕ × ℕ))
  | 0, _, _, _ => some ([], [])
  | _ + 1, _, [], _ => some ([], [])
  | fuel + 1, written, c :: fmt, args =>
    if c ≠ 37 then do
      let (out, stored) ← vsprintfLoop fuel (written + 1) fmt args
      some (c :: out, stored)
    else do
      let p ← directive written fmt args
      let (out, stored) ← vsprintfLoop fuel (written + p.out.length) p.fmt p.args
      some (p.out ++ out, p.stored ++ stored)

/-- `vsprintf`: the format ends at its first NUL, and every turn takes a character of it. -/
def vsprintf (fmt : List UInt8) (args : List VaArg) : Option (List UInt8 × List (ℕ × ℕ)) :=
  let fmt := fmt.takeWhile (· != 0)
  vsprintfLoop fmt.length 0 fmt args

/-- `sprintf`, for a format that stores nothing. -/
def sprintf (fmt : List UInt8) (args : List VaArg) : Option (List UInt8) :=
  (vsprintf fmt args).map Prod.fst

end UBoot.Text
