import Mathlib.Data.List.TakeWhile
import UBoot.Library.PackedField

/-!
# String descriptors

`usb_gadget_get_string` of `drivers/usb/gadget/usbstring.c` answers a request for a string with
the UTF-16 units of a text that is kept in UTF-8. At most 126 of them fit behind the length
and the tag, and a character that needs two of them is refused.
-/
namespace UBoot.Usb
open ByteStore

/-- A unit before those that come after it. -/
def emit (uchar : ℕ) (r : List ℕ × Bool) : List ℕ × Bool := (uchar :: r.1, r.2)

/-- `utf8_to_utf16le`, with `s` behind its first `i` bytes: the units it puts, and whether it
returns their count. -/
def utf8ToUtf16le (s : Mem) : ℕ → ℕ → List ℕ × Bool
  | 0, _ => ([], true)
  | len + 1, i =>
    let c := s i
    if c = 0 then ([], true)
    else if c &&& 0x80 ≠ 0 then
      if c &&& 0xe0 = 0xc0 then
        if s (i + 1) &&& 0xc0 ≠ 0x80 then ([], false)
        else
          emit ((c.toNat &&& 0x1f) <<< 6 ||| (s (i + 1)).toNat &&& 0x3f)
            (utf8ToUtf16le s len (i + 2))
      else if c &&& 0xf0 = 0xe0 then
        if s (i + 1) &&& 0xc0 ≠ 0x80 then ([], false)
        else if s (i + 2) &&& 0xc0 ≠ 0x80 then ([], false)
        else
          let uchar := (c.toNat &&& 0x0f) <<< 12 ||| ((s (i + 1)).toNat &&& 0x3f) <<< 6 |||
            (s (i + 2)).toNat &&& 0x3f
          -- no bogus surrogates
          if 0xd800 ≤ uchar ∧ uchar ≤ 0xdfff then ([], false)
          else emit uchar (utf8ToUtf16le s len (i + 3))
      else ([], false)
    else emit c.toNat (utf8ToUtf16le s len (i + 1))

/-- A C string: the bytes from a pointer on, up to the first that is zero. -/
structure CStr where
  mem : Mem
  strlen : ℕ
  ne_zero : ∀ i < strlen, mem i ≠ 0
  ends : mem strlen = 0

/-- `struct usb_gadget_strings`, with the identifiers and texts up to the null one. -/
structure UsbGadgetStrings where
  language : ℕ
  strings : List (ℕ × CStr)

def usbDtString : ℕ := 3

/-- One byte stored. -/
def setByte (buf : Mem) (i v : ℕ) : Mem := Function.update buf i (UInt8.ofNat v)

/-- The units as they are put from `cp` on. -/
def utf16Bytes (units : List ℕ) : List UInt8 := units.flatMap (leBytes 2)

/-- `usb_gadget_get_string`: what it returns, `none` for an error, and the buffer. -/
def usbGadgetGetString (table : UsbGadgetStrings) (id : ℕ) (buf : Mem) : Option ℕ × Mem :=
  if id = 0 then
    let buf := setByte (setByte buf 0 4) 1 usbDtString
    (some 4, setByte (setByte buf 2 table.language) 3 (table.language >>> 8))
  else
    match table.strings.find? (·.1 = id) with
    | none => (none, buf)
    | some (_, s) =>
      let len := min 126 s.strlen
      let r := utf8ToUtf16le s.mem len 0
      let buf := overlay buf 2 (2 * len) fun _ => 0
      let buf := overlay buf 2 (2 * r.1.length) (ofList (utf16Bytes r.1))
      if r.2 then
        let n := (r.1.length + 1) * 2
        (some (n % 256), setByte (setByte buf 0 n) 1 usbDtString)
      else (none, buf)

/-- The bytes at `i` and after it. -/
def Holds (s : Mem) (i : ℕ) : List UInt8 → Prop
  | [] => True
  | b :: bs => s i = b ∧ Holds s (i + 1) bs

/-- A character that is one unit. -/
abbrev OneUnit (c : Char) : Prop := c.toNat < 0x10000

theorem lead_two : ∀ y < 0x20, UInt8.ofNat (y + 0xc0) ≠ 0 ∧ UInt8.ofNat (y + 0xc0) &&& 0x80 ≠ 0 ∧
    UInt8.ofNat (y + 0xc0) &&& 0xe0 = 0xc0 ∧ (UInt8.ofNat (y + 0xc0)).toNat &&& 0x1f = y := by
  decide

theorem lead_three : ∀ z < 0x10, UInt8.ofNat (z + 0xe0) ≠ 0 ∧ UInt8.ofNat (z + 0xe0) &&& 0x80 ≠ 0 ∧
    UInt8.ofNat (z + 0xe0) &&& 0xe0 ≠ 0xc0 ∧ UInt8.ofNat (z + 0xe0) &&& 0xf0 = 0xe0 ∧
    (UInt8.ofNat (z + 0xe0)).toNat &&& 0x0f = z := by
  decide

theorem lead_four : ∀ u < 0x08, UInt8.ofNat (u + 0xf0) ≠ 0 ∧ UInt8.ofNat (u + 0xf0) &&& 0x80 ≠ 0 ∧
    UInt8.ofNat (u + 0xf0) &&& 0xe0 ≠ 0xc0 ∧ UInt8.ofNat (u + 0xf0) &&& 0xf0 ≠ 0xe0 := by
  decide

theorem tail_byte : ∀ x < 0x40, UInt8.ofNat (x + 0x80) &&& 0xc0 = 0x80 ∧
    (UInt8.ofNat (x + 0x80)).toNat &&& 0x3f = x := by
  decide

theorem ascii_byte : ∀ v < 0x80, v ≠ 0 → UInt8.ofNat v ≠ 0 ∧ UInt8.ofNat v &&& 0x80 = 0 ∧
    (UInt8.ofNat v).toNat = v := by
  decide

theorem not_surrogate (c : Char) : ¬ (0xd800 ≤ c.toNat ∧ c.toNat ≤ 0xdfff) := by
  have h := c.valid
  have hval : c.val.toNat = c.toNat := rfl
  rcases h with h | h <;> simp only [hval] at h <;> omega

theorem two_bytes {v : ℕ} (h : v ≤ 0x7ff) : (v / 64 % 0x20) <<< 6 ||| v % 0x40 = v := by
  rw [← Nat.shiftLeft_add_eq_or_of_lt (by omega), Nat.shiftLeft_eq]
  omega

theorem three_bytes {v : ℕ} (h : v ≤ 0xffff) :
    (v / 4096 % 0x10) <<< 12 ||| (v / 64 % 0x40) <<< 6 ||| v % 0x40 = v := by
  have hlow : (v / 64 % 0x40) <<< 6 ||| v % 0x40 = v % 4096 := by
    rw [← Nat.shiftLeft_add_eq_or_of_lt (by omega), Nat.shiftLeft_eq]
    omega
  rw [Nat.or_assoc, hlow, ← Nat.shiftLeft_add_eq_or_of_lt (by omega), Nat.shiftLeft_eq]
  omega

/-- One turn of the loop takes off one character. -/
theorem utf8ToUtf16le_cons {s : Mem} {c : Char} {rest : List UInt8} {i : ℕ} (hc : c.toNat ≠ 0)
    (h : Holds s i (String.utf8EncodeChar c ++ rest)) (len : ℕ) :
    utf8ToUtf16le s (len + 1) i =
      if OneUnit c then emit c.toNat (utf8ToUtf16le s len (i + (String.utf8EncodeChar c).length))
      else ([], false) := by
  have hval : c.val.toNat = c.toNat := rfl
  have hchar := not_surrogate c
  unfold OneUnit
  rw [String.utf8EncodeChar] at h ⊢
  simp only [hval] at h ⊢
  generalize c.toNat = v at *
  rw [utf8ToUtf16le]
  by_cases h1 : v ≤ 0x7f
  · obtain ⟨hne, hlow, htoNat⟩ := ascii_byte v (by omega) hc
    rw [if_pos h1] at h ⊢
    obtain ⟨h0, -⟩ := h
    simp only [h0, if_neg hne, hlow, htoNat, List.length_singleton]
    rw [if_neg (by simp), if_pos (by omega)]
  rw [if_neg h1] at h ⊢
  by_cases h2 : v ≤ 0x7ff
  · obtain ⟨hne, hhigh, hlead, hy⟩ := lead_two (v / 64 % 0x20) (Nat.mod_lt _ (by norm_num))
    obtain ⟨htail, hx⟩ := tail_byte (v % 0x40) (Nat.mod_lt _ (by norm_num))
    rw [if_pos h2] at h ⊢
    obtain ⟨h0, h1, -⟩ := h
    simp only [h0, h1, if_neg hne, if_pos hhigh, if_pos hlead, htail, hx, hy, two_bytes h2]
    rw [if_neg (by simp), if_pos (by omega)]
    rfl
  rw [if_neg h2] at h ⊢
  by_cases h3 : v ≤ 0xffff
  · obtain ⟨hne, hhigh, hlead, hlead', hz⟩ :=
      lead_three (v / 4096 % 0x10) (Nat.mod_lt _ (by norm_num))
    obtain ⟨htail, hy⟩ := tail_byte (v / 64 % 0x40) (Nat.mod_lt _ (by norm_num))
    obtain ⟨htail', hx⟩ := tail_byte (v % 0x40) (Nat.mod_lt _ (by norm_num))
    rw [if_pos h3] at h ⊢
    obtain ⟨h0, h1, h2, -⟩ := h
    simp only [h0, h1, show s (i + 2) = _ from h2, if_neg hne, if_pos hhigh, if_neg hlead,
      if_pos hlead', htail, htail', hx, hy, hz, three_bytes h3]
    rw [if_neg (by simp), if_neg (by simp), if_neg hchar, if_pos (by omega)]
    rfl
  · obtain ⟨hne, hhigh, hlead, hlead'⟩ :=
      lead_four (v / 262144 % 0x08) (Nat.mod_lt _ (by norm_num))
    rw [if_neg h3] at h
    obtain ⟨h0, -⟩ := h
    simp only [h0, if_neg hne, if_pos hhigh, if_neg hlead, if_neg hlead']
    rw [if_neg (by omega)]

theorem Holds.append {s : Mem} {i : ℕ} {bs bs' : List UInt8} (h : Holds s i (bs ++ bs')) :
    Holds s (i + bs.length) bs' := by
  induction bs generalizing i with
  | nil => exact h
  | cons b bs ih =>
    have := ih h.2
    rwa [List.length_cons, Nat.add_comm bs.length, ← Nat.add_assoc]

/-- The units of a text: those of its first characters, up to one that needs two. -/
theorem utf8ToUtf16le_encoded {s : Mem} {cs : List Char} (hcs : ∀ c ∈ cs, c.toNat ≠ 0) (len i : ℕ)
    (h : Holds s i (cs.flatMap String.utf8EncodeChar ++ [0])) :
    utf8ToUtf16le s len i = (((cs.take len).takeWhile (OneUnit ·)).map Char.toNat,
      (cs.take len).all (OneUnit ·)) := by
  induction cs generalizing len i with
  | nil =>
    obtain ⟨h0, -⟩ : s i = 0 ∧ _ := h
    cases len with
    | zero => rfl
    | succ len => simp [utf8ToUtf16le, h0]
  | cons c cs ih =>
    cases len with
    | zero => rfl
    | succ len =>
      rw [List.flatMap_cons, List.append_assoc] at h
      rw [utf8ToUtf16le_cons (hcs c (List.mem_cons_self ..)) h,
        ih (fun c hc => hcs c (List.mem_cons_of_mem _ hc)) len _ h.append]
      by_cases hunit : OneUnit c
      · simp [hunit, emit]
      · simp [hunit]

theorem holds_iff {s : Mem} {i : ℕ} {bs : List UInt8} :
    Holds s i bs ↔ ∀ k, (h : k < bs.length) → s (i + k) = bs[k] := by
  induction bs generalizing i with
  | nil => exact iff_of_true trivial fun k h => absurd h (Nat.not_lt_zero k)
  | cons b bs ih =>
    rw [Holds, ih]
    constructor
    · rintro ⟨h0, hrest⟩ k hk
      cases k with
      | zero => exact h0
      | succ k =>
        have := hrest k (Nat.lt_of_succ_lt_succ hk)
        rwa [Nat.add_assoc, Nat.add_comm 1] at this
    · intro h
      refine ⟨h 0 (Nat.succ_pos _), fun k hk => ?_⟩
      rw [Nat.add_assoc, Nat.add_comm 1]
      exact h (k + 1) (Nat.succ_lt_succ hk)

/-- The text of some characters in UTF-8. -/
def CStr.Spells (t : CStr) (cs : List Char) : Prop :=
  slice t.mem 0 t.strlen = cs.flatMap String.utf8EncodeChar

section Text
variable {t : CStr} {cs : List Char}

theorem CStr.Spells.strlen_eq (h : t.Spells cs) :
    t.strlen = (cs.flatMap String.utf8EncodeChar).length := by
  rw [← h, length_slice]

theorem CStr.Spells.holds (h : t.Spells cs) :
    Holds t.mem 0 (cs.flatMap String.utf8EncodeChar ++ [0]) := by
  rw [holds_iff, ← h]
  intro k hk
  rw [List.length_append, length_slice, List.length_singleton] at hk
  rw [Nat.zero_add]
  by_cases hlt : k < t.strlen
  · rw [List.getElem_append_left (by rwa [length_slice]), getElem_slice, Nat.zero_add]
  · obtain rfl : k = t.strlen := by omega
    rw [List.getElem_append_right (by rw [length_slice]), t.ends]
    simp

/-- A C string has no character that is zero. -/
theorem CStr.Spells.ne_zero (h : t.Spells cs) : ∀ c ∈ cs, c.toNat ≠ 0 := by
  intro c hc hzero
  have hval : c.val.toNat = 0 := hzero
  have hmem : (0 : UInt8) ∈ slice t.mem 0 t.strlen := by
    rw [h, List.mem_flatMap]
    refine ⟨c, hc, ?_⟩
    simp [String.utf8EncodeChar, hval]
  obtain ⟨i, hi, heq⟩ := List.getElem_of_mem hmem
  rw [getElem_slice, Nat.zero_add] at heq
  exact t.ne_zero i (by rwa [length_slice] at hi) heq

theorem length_le_flatMap (cs : List Char) :
    cs.length ≤ (cs.flatMap String.utf8EncodeChar).length := by
  induction cs with
  | nil => exact le_rfl
  | cons c cs ih =>
    have hpos := List.length_pos_iff.mpr (String.utf8EncodeChar_ne_nil (c := c))
    rw [List.flatMap_cons, List.length_append, List.length_cons]
    omega

/-- As many bytes as there are, or 126: the same characters. -/
theorem CStr.Spells.take_eq (h : t.Spells cs) : cs.take (min 126 t.strlen) = cs.take 126 := by
  have hle := length_le_flatMap cs
  rw [← h.strlen_eq] at hle
  by_cases hlong : 126 ≤ t.strlen
  · rw [Nat.min_eq_left hlong]
  · rw [List.take_of_length_le (by omega), List.take_of_length_le (by omega)]

end Text

theorem length_utf16Bytes (units : List ℕ) : (utf16Bytes units).length = 2 * units.length := by
  induction units with
  | nil => rfl
  | cons u units ih =>
    have hlen : (leBytes 2 u).length = 2 := by simp [leBytes]
    rw [utf16Bytes, List.flatMap_cons, List.length_append, hlen, List.length_cons]
    rw [utf16Bytes] at ih
    omega

/-- The descriptor of some characters: length, tag and one unit for each. -/
def stringDescriptor (cs : List Char) : List UInt8 :=
  [UInt8.ofNat (2 * cs.length + 2), 3] ++ utf16Bytes (cs.map Char.toNat)

theorem length_stringDescriptor (cs : List Char) :
    (stringDescriptor cs).length = 2 * cs.length + 2 := by
  rw [stringDescriptor, List.length_append, length_utf16Bytes, List.length_map]
  simp only [List.length_cons, List.length_nil]
  omega

/-- The first 126 characters of the text are what is sent, if each is one unit; if one is
not, the request is refused. -/
theorem usbGadgetGetString_eq {table : UsbGadgetStrings} {id x : ℕ} {t : CStr} {cs : List Char}
    (hid : id ≠ 0) (hfind : table.strings.find? (·.1 = id) = some (x, t)) (ht : t.Spells cs)
    (buf : Mem) :
    ((usbGadgetGetString table id buf).1.map fun n =>
        slice (usbGadgetGetString table id buf).2 0 n) =
      if (cs.take 126).all (OneUnit ·) then some (stringDescriptor (cs.take 126)) else none := by
  have hunits := utf8ToUtf16le_encoded ht.ne_zero (min 126 t.strlen) 0 ht.holds
  rw [ht.take_eq] at hunits
  simp only [usbGadgetGetString, if_neg hid, hfind, hunits]
  by_cases htrue : (cs.take 126).all (OneUnit ·) = true
  · have hwhile : (cs.take 126).takeWhile (OneUnit ·) = cs.take 126 := by
      rw [List.takeWhile_eq_self_iff]
      simpa using htrue
    have hle : (cs.take 126).length ≤ 126 := by simp
    simp only [htrue, if_true, hwhile, List.length_map, Option.map_some]
    generalize cs.take 126 = cs at *
    have hcount : (cs.length + 1) * 2 % 256 = 2 + 2 * cs.length := by omega
    have hbytes := length_utf16Bytes (cs.map Char.toNat)
    rw [List.length_map] at hbytes
    rw [hcount, slice_add, stringDescriptor, ← hbytes]
    congr 2
    · rw [hbytes, show 2 * cs.length + 2 = (cs.length + 1) * 2 by omega]
      rfl
    · refine Eq.trans ?_ (slice_overlay (overlay buf 2 (2 * min 126 t.strlen) fun _ => 0) 2 _)
      apply slice_congr
      intro i _
      rw [setByte, setByte, Function.update_of_ne (by omega), Function.update_of_ne (by omega)]
  · rw [if_neg htrue]
    simp only [Bool.eq_false_iff.mpr htrue, Bool.false_eq_true, if_false, Option.map_none]

theorem ofList_ne_zero {bs : List UInt8} (h : 0 ∉ bs) : ∀ i < bs.length, ofList bs i ≠ 0 := by
  intro i hi
  have hget : ofList bs i = bs[i] := by simp [ofList, hi]
  rw [hget]
  exact fun hzero => h (hzero ▸ List.getElem_mem hi)

theorem ofList_length (bs : List UInt8) : ofList bs bs.length = 0 := by
  simp [ofList]

/-- Some bytes with the zero behind them. -/
def CStr.ofBytes (bs : List UInt8) (h : 0 ∉ bs) : CStr :=
  ⟨ofList bs, bs.length, ofList_ne_zero h, ofList_length bs⟩

theorem CStr.spells_ofBytes {bs : List UInt8} (h : 0 ∉ bs) {cs : List Char}
    (hcs : bs = cs.flatMap String.utf8EncodeChar) : (CStr.ofBytes bs h).Spells cs := by
  rw [CStr.Spells, ← hcs]
  exact slice_ofList bs

/-- `Fastboot` in UTF-8. -/
def productBytes : List UInt8 := [70, 97, 115, 116, 98, 111, 111, 116]

theorem zero_not_mem_productBytes : 0 ∉ productBytes := by decide

/-- The product as the only string. -/
def productTable : UsbGadgetStrings :=
  ⟨0x0409, [(2, CStr.ofBytes productBytes zero_not_mem_productBytes)]⟩

theorem usbGadgetGetString_product :
    ((usbGadgetGetString productTable 2 fun _ => 0).1.map fun n =>
        slice (usbGadgetGetString productTable 2 fun _ => 0).2 0 n) =
      some [18, 3, 70, 0, 97, 0, 115, 0, 116, 0, 98, 0, 111, 0, 111, 0, 116, 0] := by
  have hspells : (CStr.ofBytes productBytes zero_not_mem_productBytes).Spells
      "Fastboot".toList := CStr.spells_ofBytes zero_not_mem_productBytes (by decide)
  rw [usbGadgetGetString_eq (by decide) rfl hspells]
  decide

end UBoot.Usb
