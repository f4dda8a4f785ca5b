import UBoot.Text.Decimal

/-!
# Numbers in a field

`number` of `lib/vsprintf.c` writes a 64-bit number in base 8, 10 or 16. The digits come out
lowest first into a buffer of their own; the field width is spent on the sign, the prefix and
the digits, and what is left of it on spaces or zeros, before or after.
-/
namespace UBoot.Text

/-- The flags of a conversion. -/
structure Flags where
  zeropad : Bool := false
  sign : Bool := false
  plus : Bool := false
  space : Bool := false
  left : Bool := false
  small : Bool := false
  special : Bool := false
  deriving DecidableEq

/-- `locase`: the bit that makes a letter a small one and leaves a digit as it is. -/
def Flags.locase (type : Flags) : UInt8 := if type.small then 0x20 else 0

/-- `digits[d] | locase`. -/
def digitChar (locase : UInt8) (d : ℕ) : UInt8 :=
  UInt8.ofNat (if d < 10 then d + 48 else d + 55) ||| locase

/-- The loop over the digits of base 8 and 16: `mask` takes one off and `shift` drops it. A
64-bit number has at most 22 of them. -/
def digitLoop (locase : UInt8) (mask shift : ℕ) : ℕ → ℕ → List UInt8
  | 0, _ => []
  | fuel + 1, num =>
    digitChar locase (num % 256 &&& mask) ::
      if num >>> shift ≠ 0 then digitLoop locase mask shift fuel (num >>> shift) else []

/-- The digits in `tmp`, in reverse order. -/
def reversedDigits (locase : UInt8) (base num : ℕ) : List UInt8 :=
  if num = 0 then [48]
  else if base ≠ 10 then digitLoop locase (base - 1) (if base = 16 then 4 else 3) 22 num
  else putDec num

/-- `while (--size >= 0) *buf++ = c`: what is written, and the size left. -/
def pad (c : UInt8) (size : ℤ) : List UInt8 × ℤ :=
  if 0 ≤ size - 1 then (c :: (pad c (size - 1)).1, (pad c (size - 1)).2) else ([], size - 1)
termination_by size.toNat

/-- The sign of `number`, if there is one. -/
def signOf (num : ℕ) (type : Flags) : List UInt8 :=
  if type.sign then
    if 2 ^ 63 ≤ num then [45] else if type.plus then [43] else if type.space then [32] else []
  else []

/-- The prefix of `number`, if there is one: `0`, and `x` or `X` after it for base 16. -/
def prefixOf (base : ℕ) (type : Flags) : List UInt8 :=
  if type.special && base ≠ 10 then if base = 16 then [48, 88 ||| type.locase] else [48] else []

/-- What is printed of the number: a negative one loses its sign. -/
def magnitude (num : ℕ) (type : Flags) : ℕ :=
  if type.sign && 2 ^ 63 ≤ num then u64 (2 ^ 64 - num) else num

/-- `number`: the characters written to the buffer. -/
def number (num base : ℕ) (size precision : ℤ) (type : Flags) : List UInt8 :=
  let zeropad := type.zeropad && !type.left
  let size := size - (signOf num type).length - (prefixOf base type).length
  let tmp := reversedDigits type.locase base (magnitude num type)
  let precision := if tmp.length > precision then (tmp.length : ℤ) else precision
  let size := size - precision
  let (lead, size) := if zeropad || type.left then ([], size) else pad 32 size
  let (fill, size) := if type.left then ([], size) else pad (if zeropad then 48 else 32) size
  let zeros := (pad 48 (precision - tmp.length)).1
  let (trail, _) := pad 32 size
  lead ++ signOf num type ++ prefixOf base type ++ fill ++ zeros ++ tmp.reverse ++ trail

/-- A number in base `b`, highest digit first; zero has one digit. -/
def numeral (locase : UInt8) (b n : ℕ) : List UInt8 :=
  if n = 0 then [48] else ((Nat.digits b n).map (digitChar locase)).reverse

/-- A sign or prefix and digits after it in a field: spaces before both, zeros between the two
or spaces after both, as many as the width asks for. -/
def field (width : ℤ) (left zeropad : Bool) (head digits : List UInt8) : List UInt8 :=
  let fill := (width - head.length - digits.length).toNat
  if left then head ++ digits ++ List.replicate fill 32
  else if zeropad then head ++ List.replicate fill 48 ++ digits
  else List.replicate fill 32 ++ head ++ digits

/-- Digits with zeros before them up to the precision. -/
def atLeast (precision : ℤ) (digits : List UInt8) : List UInt8 :=
  List.replicate (precision - digits.length).toNat 48 ++ digits

theorem length_atLeast (precision : ℤ) (digits : List UInt8) :
    ((atLeast precision digits).length : ℤ) = max precision digits.length := by
  rw [atLeast, List.length_append, List.length_replicate]
  omega

theorem pad_eq (c : UInt8) (size : ℤ) :
    pad c size = (List.replicate size.toNat c, min size 0 - 1) := by
  induction size using pad.induct with
  | case1 size h ih =>
    have hsucc : size.toNat = (size - 1).toNat + 1 := by omega
    have hmin : min (size - 1) 0 = min size 0 := by omega
    rw [pad, if_pos h, ih, hsucc, List.replicate_succ, hmin]
  | case2 size h =>
    have hzero : size.toNat = 0 := by omega
    have hmin : min size 0 = size := by omega
    rw [pad, if_neg h, hzero, List.replicate_zero, hmin]

/-- One step of the loop takes off the lowest digit. -/
theorem digitLoop_eq_digits (locase : UInt8) (shift : ℕ) (h1 : 0 < shift) (h8 : shift ≤ 8)
    {fuel num : ℕ} (hpos : 0 < num) (hfuel : num < (2 ^ shift) ^ fuel) :
    digitLoop locase (2 ^ shift - 1) shift fuel num =
      (Nat.digits (2 ^ shift) num).map (digitChar locase) := by
  have hbase : 1 < 2 ^ shift := Nat.one_lt_two_pow (by omega)
  have hlow (n : ℕ) : n % 256 &&& (2 ^ shift - 1) = n % 2 ^ shift := by
    rw [Nat.and_two_pow_sub_one_eq_mod]
    exact Nat.mod_mod_of_dvd n (Nat.pow_dvd_pow 2 h8)
  induction fuel generalizing num with
  | zero =>
    rw [pow_zero] at hfuel
    omega
  | succ fuel ih =>
    rw [digitLoop, hlow, Nat.digits_def' hbase hpos, List.map_cons, Nat.shiftRight_eq_div_pow]
    by_cases hrest : num / 2 ^ shift = 0
    · rw [hrest, Nat.digits_zero]
      rfl
    · have hquot : num / 2 ^ shift < (2 ^ shift) ^ fuel := by
        rw [pow_succ'] at hfuel
        exact Nat.div_lt_of_lt_mul hfuel
      rw [if_pos hrest, ih (Nat.pos_of_ne_zero hrest) hquot]

theorem decChar_eq_digitChar {locase : UInt8} (hlocase : locase = 0 ∨ locase = 0x20) {d : ℕ}
    (h : d < 10) : decChar d = digitChar locase d := by
  rcases hlocase with rfl | rfl
  · interval_cases d <;> rfl
  · interval_cases d <;> rfl

theorem locase_cases (type : Flags) : type.locase = 0 ∨ type.locase = 0x20 := by
  unfold Flags.locase
  split_ifs
  · exact .inr rfl
  · exact .inl rfl

/-- The bases that `vsprintf` asks for. -/
def IsBase (base : ℕ) : Prop := base = 8 ∨ base = 10 ∨ base = 16

/-- Each of the three ways to write the digits writes those of the number in its base. -/
theorem reversedDigits_eq {base num : ℕ} (hbase : IsBase base) (hnum : num < 2 ^ 64)
    (type : Flags) : (reversedDigits type.locase base num).reverse =
      numeral type.locase base num := by
  unfold reversedDigits numeral
  by_cases h0 : num = 0
  · rw [if_pos h0, if_pos h0]
    rfl
  · have hpos := Nat.pos_of_ne_zero h0
    rw [if_neg h0, if_neg h0]
    congr 1
    rcases hbase with rfl | rfl | rfl
    · exact digitLoop_eq_digits _ 3 (by norm_num) (by norm_num) hpos (hnum.trans (by norm_num))
    · rw [if_neg (by norm_num), putDec, putDecLoop_eq_digits hnum (by omega) hpos]
      apply List.map_congr_left
      intro d hd
      exact decChar_eq_digitChar (locase_cases type) (Nat.digits_lt_base (by norm_num) hd)
    · exact digitLoop_eq_digits _ 4 (by norm_num) (by norm_num) hpos (hnum.trans (by norm_num))

theorem magnitude_lt {num : ℕ} (hnum : num < 2 ^ 64) (type : Flags) :
    magnitude num type < 2 ^ 64 := by
  unfold magnitude
  split_ifs
  · exact u64_lt _
  · exact hnum

/-- `number` writes the sign and prefix and the digits in a field, whatever the flags, the
width and the precision. -/
theorem number_eq_field {num base : ℕ} (hbase : IsBase base) (hnum : num < 2 ^ 64)
    (size precision : ℤ) (type : Flags) :
    number num base size precision type =
      field size type.left type.zeropad (signOf num type ++ prefixOf base type)
        (atLeast precision (numeral type.locase base (magnitude num type))) := by
  have hrev := reversedDigits_eq hbase (magnitude_lt hnum type) type
  have hlen : (reversedDigits type.locase base (magnitude num type)).length =
      (numeral type.locase base (magnitude num type)).length := by
    rw [← hrev, List.length_reverse]
  have hatLeast := length_atLeast precision
    (numeral type.locase base (magnitude num type))
  simp only [number, field, pad_eq, hrev, hlen]
  generalize numeral type.locase base (magnitude num type) = digits at *
  rw [hatLeast, List.length_append, Nat.cast_add]
  have hzeros : ((if (digits.length : ℤ) > precision then (digits.length : ℤ) else precision) -
      digits.length).toNat = (precision - digits.length).toNat := by
    split_ifs <;> omega
  have hmax : (if (digits.length : ℤ) > precision then (digits.length : ℤ) else precision) =
      max precision digits.length := by
    split_ifs <;> omega
  rw [hzeros, hmax, atLeast, sub_sub size]
  -- once a loop has run, the size it leaves is negative and the later ones write nothing
  have hspent (n : ℤ) : (min n 0 - 1).toNat = 0 := by omega
  cases hleft : type.left
  · cases hzero : type.zeropad
    · simp [hspent]
    · simp [hspent, -List.replicate_append_replicate]
  · simp

end UBoot.Text
