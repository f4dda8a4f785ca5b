import UBoot.Disk.Gpt

/-!
# UUID strings

`string_uuid` turns the 36 characters of a UUID into the 16 bytes of an EFI GUID, whose
first three fields are little-endian, and `uuid_string` turns them back. The string that
comes back is the one that went in, in lower case.
-/
namespace UBoot.Disk
open ByteStore

/-- `isxdigit` of `lib/ctype.c`. -/
def isxdigit (c : UInt8) : Bool :=
  (48 ≤ c && c ≤ 57) || (65 ≤ c && c ≤ 70) || (97 ≤ c && c ≤ 102)

/-- The value that `simple_strtoul` gives a digit. -/
def digitValue (c : UInt8) : ℕ :=
  if 48 ≤ c ∧ c ≤ 57 then c.toNat - 48
  else (if 97 ≤ c then c.toNat - 32 else c.toNat) - 65 + 10

/-- The loop of `simple_strtoul` with base 16. -/
def strtoulLoop : ℕ → List UInt8 → ℕ
  | result, [] => result
  | result, c :: cs =>
    if isxdigit c ∧ digitValue c < 16 then strtoulLoop (result * 16 + digitValue c) cs else result

/-- `simple_strtoul` and `simple_strtoull` with base 16, up to the width of the result: a
leading zero is skipped, and an `x` after it if a digit follows. -/
def strtoul16 (cp : List UInt8) : ℕ :=
  match cp with
  | 48 :: 120 :: c :: cs => strtoulLoop 0 (if isxdigit c then c :: cs else 120 :: c :: cs)
  | 48 :: cs => strtoulLoop 0 cs
  | cs => strtoulLoop 0 cs

/-- Byte `k` of a number, as a `u8`. -/
def byteOf (n k : ℕ) : UInt8 := UInt8.ofNat (n / 256 ^ k)

/-- The places of the dashes. -/
def isDash (i : ℕ) : Bool := i == 8 || i == 13 || i == 18 || i == 23

/-- `string_uuid`: the bytes of the GUID; `none` is -1. -/
def stringUuid (uuid : List UInt8) : Option (List UInt8) :=
  if uuid.length ≠ 36 then none
  else if uuid.zipIdx.all (fun (c, i) => if isDash i then c == 45 else isxdigit c) = false then none
  else
    let a := u32 (strtoul16 uuid)
    let b := strtoul16 (uuid.drop 9) % 2 ^ 16
    let c := strtoul16 (uuid.drop 14) % 2 ^ 16
    let d := strtoul16 (uuid.drop 19) % 2 ^ 16
    let e := u64 (strtoul16 (uuid.drop 24))
    some [byteOf a 0, byteOf a 1, byteOf a 2, byteOf a 3, byteOf b 0, byteOf b 1, byteOf c 0,
      byteOf c 1, byteOf d 1, byteOf d 0, byteOf e 5, byteOf e 4, byteOf e 3, byteOf e 2,
      byteOf e 1, byteOf e 0]

/-- `tolower` of a hexadecimal digit. -/
def lowerDigit (c : UInt8) : UInt8 := if 65 ≤ c ∧ c ≤ 70 then c + 32 else c

/-- The number a group of digits stands for. -/
def groupValue (ds : List UInt8) : ℕ := ds.foldl (fun n c => n * 16 + digitValue c) 0

/-- The two digits of each byte. -/
def hexPairs (bytes : List UInt8) : List UInt8 :=
  bytes.flatMap fun b => [hexDigit (b.toNat / 16), hexDigit (b.toNat % 16)]

/-- The lowest `n` bytes of a number, highest first. -/
def beBytes (n v : ℕ) : List UInt8 := ((List.range n).map (byteOf v)).reverse

theorem digit_facts (c : UInt8) (h : isxdigit c = true) :
    digitValue c < 16 ∧ hexDigit (digitValue c) = lowerDigit c ∧ c ≠ 45 ∧ c ≠ 120 := by
  have hall : ∀ n : Fin 256, isxdigit (UInt8.ofNat n) = true →
      digitValue (UInt8.ofNat n) < 16 ∧
      hexDigit (digitValue (UInt8.ofNat n)) = lowerDigit (UInt8.ofNat n) ∧
      UInt8.ofNat n ≠ 45 ∧ UInt8.ofNat n ≠ 120 := by
    decide +kernel
  have hc : UInt8.ofNat (⟨c.toNat, c.toNat_lt⟩ : Fin 256) = c := by simp
  have := hall ⟨c.toNat, c.toNat_lt⟩
  rw [hc] at this
  exact this h

theorem groupValue_append_pair (ds : List UInt8) (c₁ c₂ : UInt8) :
    groupValue (ds ++ [c₁, c₂]) = groupValue ds * 256 + (digitValue c₁ * 16 + digitValue c₂) := by
  simp only [groupValue, List.foldl_append, List.foldl_cons, List.foldl_nil]
  ring

theorem groupValue_cons_zero (ds : List UInt8) : groupValue (48 :: ds) = groupValue ds := by
  have hzero : digitValue 48 = 0 := rfl
  simp [groupValue, hzero]

theorem groupValue_lt {ds : List UInt8} (h : ∀ c ∈ ds, isxdigit c = true) :
    groupValue ds < 16 ^ ds.length := by
  induction ds using List.reverseRecOn with
  | nil => simp [groupValue]
  | append_singleton ds c ih =>
    have hds := ih fun c hc => h c (List.mem_append_left _ hc)
    have hc := (digit_facts c (h c (by simp))).1
    have hstep : groupValue (ds ++ [c]) = groupValue ds * 16 + digitValue c := by
      simp [groupValue]
    rw [hstep, List.length_append, List.length_singleton, Nat.pow_succ]
    omega

theorem byteOf_succ (v r k : ℕ) (hr : r < 256) : byteOf (v * 256 + r) (k + 1) = byteOf v k := by
  have hdiv : (v * 256 + r) / 256 ^ (k + 1) = v / 256 ^ k := by
    rw [Nat.pow_succ', ← Nat.div_div_eq_div_mul]
    congr 1
    omega
  rw [byteOf, byteOf, hdiv]

theorem beBytes_append (n v r : ℕ) (hr : r < 256) :
    beBytes (n + 1) (v * 256 + r) = beBytes n v ++ [UInt8.ofNat r] := by
  have hlow : byteOf (v * 256 + r) 0 = UInt8.ofNat r := by
    apply UInt8.toNat_inj.mp
    simp [byteOf]
  have hhigh : (List.range n).map (fun k => byteOf (v * 256 + r) (k + 1)) =
      (List.range n).map (byteOf v) := List.map_congr_left fun k _ => byteOf_succ v r k hr
  simp only [beBytes, List.range_succ_eq_map, List.map_cons, List.map_map, Function.comp_def,
    List.reverse_cons, hlow, hhigh]

/-- The digits of a group are written back, in lower case. -/
theorem hexPairs_beBytes {n : ℕ} {ds : List UInt8} (hlen : ds.length = 2 * n)
    (h : ∀ c ∈ ds, isxdigit c = true) :
    hexPairs (beBytes n (groupValue ds)) = ds.map lowerDigit := by
  induction n generalizing ds with
  | zero =>
    obtain rfl : ds = [] := by simpa using hlen
    rfl
  | succ n ih =>
    obtain ⟨ds, c₁, c₂, rfl⟩ : ∃ ds' c₁ c₂, ds = ds' ++ [c₁, c₂] := by
      obtain ⟨c₁, c₂, hdrop⟩ := List.length_eq_two.mp
        (show (ds.drop (2 * n)).length = 2 by rw [List.length_drop]; omega)
      exact ⟨ds.take (2 * n), c₁, c₂, by rw [← hdrop, List.take_append_drop]⟩
    have hds : ∀ c ∈ ds, isxdigit c = true := fun c hc => h c (List.mem_append_left _ hc)
    obtain ⟨hlt₁, hhex₁, -, -⟩ := digit_facts c₁ (h c₁ (by simp))
    obtain ⟨hlt₂, hhex₂, -, -⟩ := digit_facts c₂ (h c₂ (by simp))
    have hpair : (UInt8.ofNat (digitValue c₁ * 16 + digitValue c₂)).toNat =
        digitValue c₁ * 16 + digitValue c₂ := by
      rw [UInt8.toNat_ofNat']
      omega
    have hlen' : ds.length = 2 * n := by
      simp only [List.length_append, List.length_cons, List.length_nil] at hlen
      omega
    rw [groupValue_append_pair, beBytes_append _ _ _ (by omega), hexPairs, List.flatMap_append,
      ← hexPairs, ih hlen' hds, List.map_append]
    simp only [List.flatMap_cons, List.flatMap_nil, List.append_nil, hpair, List.map_cons,
      List.map_nil]
    rw [show (digitValue c₁ * 16 + digitValue c₂) / 16 = digitValue c₁ by omega,
      show (digitValue c₁ * 16 + digitValue c₂) % 16 = digitValue c₂ by omega, hhex₁, hhex₂]

/-- What may follow a group: nothing, or a dash. -/
def EndsGroup (rest : List UInt8) : Prop := rest = [] ∨ ∃ cs, rest = 45 :: cs

theorem strtoulLoop_append {ds rest : List UInt8} (n : ℕ) (h : ∀ c ∈ ds, isxdigit c = true)
    (hrest : EndsGroup rest) :
    strtoulLoop n (ds ++ rest) = ds.foldl (fun n c => n * 16 + digitValue c) n := by
  induction ds generalizing n with
  | nil =>
    rcases hrest with rfl | ⟨cs, rfl⟩
    · rfl
    · rfl
  | cons c ds ih =>
    have hc := h c (List.mem_cons_self ..)
    rw [List.cons_append, strtoulLoop, if_pos ⟨hc, (digit_facts c hc).1⟩,
      ih _ fun c hc => h c (List.mem_cons_of_mem _ hc), List.foldl_cons]

/-- A group of at least two digits is read as its value. -/
theorem strtoul16_append {ds rest : List UInt8} (h : ∀ c ∈ ds, isxdigit c = true)
    (hrest : EndsGroup rest) : strtoul16 (ds ++ rest) = groupValue ds := by
  unfold strtoul16
  split
  · -- an `x` in second place is no digit, and it is no dash either
    rename_i c cs heq
    exfalso
    match ds, heq with
    | [], heq =>
      rcases hrest with rfl | ⟨cs, rfl⟩ <;> simp at heq
    | [_], heq =>
      rcases hrest with rfl | ⟨cs, rfl⟩ <;> simp at heq
    | _ :: x :: _, heq =>
      have hx : x = 120 := by
        simp only [List.cons_append, List.cons.injEq] at heq
        exact heq.2.1
      exact (digit_facts x (h x (by simp))).2.2.2 hx
  · rename_i cs _ heq
    match ds, heq with
    | [], heq =>
      rcases hrest with rfl | ⟨cs, rfl⟩ <;> simp at heq
    | c :: ds, heq =>
      obtain ⟨rfl, rfl⟩ : c = 48 ∧ ds ++ rest = cs := by simpa using heq
      rw [groupValue_cons_zero]
      exact strtoulLoop_append 0 (fun c hc => h c (List.mem_cons_of_mem _ hc)) hrest
  · exact strtoulLoop_append 0 h hrest

theorem drop_eq_take_append {α : Type*} (l : List α) {a n : ℕ} (h : a + n < l.length) :
    l.drop a = (l.drop a).take n ++ l[a + n] :: l.drop (a + n + 1) := by
  rw [← List.drop_eq_getElem_cons h, ← List.drop_drop, List.take_append_drop]

theorem mem_take_drop {α : Type*} {l : List α} {a n : ℕ} {c : α} (h : c ∈ (l.drop a).take n) :
    ∃ i, ∃ hi : i < l.length, a ≤ i ∧ i < a + n ∧ l[i] = c := by
  obtain ⟨j, hj, rfl⟩ := List.getElem_of_mem h
  simp only [List.length_take, List.length_drop] at hj
  exact ⟨a + j, by omega, by omega, by omega, by simp⟩

/-- A string that `string_uuid` takes is five groups of digits between dashes. -/
theorem groups_of_stringUuid {uuid guid : List UInt8} (h : stringUuid uuid = some guid) :
    ∃ g₁ g₂ g₃ g₄ g₅ : List UInt8,
      uuid = g₁ ++ 45 :: (g₂ ++ 45 :: (g₃ ++ 45 :: (g₄ ++ 45 :: g₅))) ∧
      g₁.length = 8 ∧ g₂.length = 4 ∧ g₃.length = 4 ∧ g₄.length = 4 ∧ g₅.length = 12 ∧
      ∀ c ∈ g₁ ++ g₂ ++ g₃ ++ g₄ ++ g₅, isxdigit c = true := by
  unfold stringUuid at h
  by_cases hlen : uuid.length ≠ 36
  · simp [hlen] at h
  rw [if_neg hlen] at h
  rw [not_not] at hlen
  split at h
  · simp at h
  rename_i hall
  have hchar : ∀ i (hi : i < uuid.length),
      if isDash i then uuid[i] = 45 else isxdigit uuid[i] = true := by
    intro i hi
    have hmem : (uuid[i], i) ∈ uuid.zipIdx := by
      rw [List.mem_zipIdx_iff_getElem?]
      exact List.getElem?_eq_getElem hi
    have := List.all_eq_true.mp (Bool.not_eq_false _ ▸ hall) _ hmem
    split <;> simp_all
  have hdash : ∀ i (hi : i < uuid.length), isDash i = true → uuid[i] = 45 := by
    intro i hi hd
    simpa [hd] using hchar i hi
  have hdigits : ∀ a n, (∀ i, a ≤ i → i < a + n → isDash i = false) →
      ∀ c ∈ (uuid.drop a).take n, isxdigit c = true := by
    intro a n hno c hc
    obtain ⟨i, hi, h₁, h₂, rfl⟩ := mem_take_drop hc
    simpa [hno i h₁ h₂] using hchar i hi
  refine ⟨(uuid.drop 0).take 8, (uuid.drop 9).take 4, (uuid.drop 14).take 4,
    (uuid.drop 19).take 4, (uuid.drop 24).take 12, ?_, by simp; omega, by simp; omega,
    by simp; omega, by simp; omega, by simp; omega, ?_⟩
  · have h₁ := drop_eq_take_append uuid (show 0 + 8 < uuid.length by omega)
    have h₂ := drop_eq_take_append uuid (show 9 + 4 < uuid.length by omega)
    have h₃ := drop_eq_take_append uuid (show 14 + 4 < uuid.length by omega)
    have h₄ := drop_eq_take_append uuid (show 19 + 4 < uuid.length by omega)
    have h₅ : (uuid.drop 24).take 12 = uuid.drop 24 := by
      apply List.take_of_length_le
      rw [List.length_drop]
      omega
    rw [hdash _ _ rfl] at h₁ h₂ h₃ h₄
    rw [h₅, ← h₄, ← h₃, ← h₂, ← h₁, List.drop_zero]
  · have hno : ∀ i, i ≠ 8 → i ≠ 13 → i ≠ 18 → i ≠ 23 → isDash i = false := by
      intro i h₁ h₂ h₃ h₄
      simp [isDash, h₁, h₂, h₃, h₄]
    intro c hc
    simp only [List.mem_append] at hc
    rcases hc with (((hc | hc) | hc) | hc) | hc
    · exact hdigits _ _ (fun i _ _ => hno i (by omega) (by omega) (by omega) (by omega)) c hc
    · exact hdigits _ _ (fun i _ _ => hno i (by omega) (by omega) (by omega) (by omega)) c hc
    · exact hdigits _ _ (fun i _ _ => hno i (by omega) (by omega) (by omega) (by omega)) c hc
    · exact hdigits _ _ (fun i _ _ => hno i (by omega) (by omega) (by omega) (by omega)) c hc
    · exact hdigits _ _ (fun i _ _ => hno i (by omega) (by omega) (by omega) (by omega)) c hc

theorem uuidString_eq (m : Mem) : uuidString m =
    hexPairs [m 3, m 2, m 1, m 0] ++ 45 :: (hexPairs [m 5, m 4] ++ 45 ::
      (hexPairs [m 7, m 6] ++ 45 :: (hexPairs [m 8, m 9] ++ 45 ::
        hexPairs [m 10, m 11, m 12, m 13, m 14, m 15]))) := by
  rfl

theorem stringUuid_eq {uuid guid : List UInt8} (h : stringUuid uuid = some guid) :
    guid =
      let a := u32 (strtoul16 uuid)
      let b := strtoul16 (uuid.drop 9) % 2 ^ 16
      let c := strtoul16 (uuid.drop 14) % 2 ^ 16
      let d := strtoul16 (uuid.drop 19) % 2 ^ 16
      let e := u64 (strtoul16 (uuid.drop 24))
      [byteOf a 0, byteOf a 1, byteOf a 2, byteOf a 3, byteOf b 0, byteOf b 1, byteOf c 0,
        byteOf c 1, byteOf d 1, byteOf d 0, byteOf e 5, byteOf e 4, byteOf e 3, byteOf e 2,
        byteOf e 1, byteOf e 0] := by
  unfold stringUuid at h
  split_ifs at h
  exact (Option.some.inj h).symm

theorem drop_group (g rest : List UInt8) (c : UInt8) {n : ℕ} (h : n = g.length + 1) :
    (g ++ c :: rest).drop n = rest := by
  subst h
  simp

/-- The string printed from a GUID is the string it was made from, in lower case. -/
theorem uuidString_stringUuid {uuid guid : List UInt8} (h : stringUuid uuid = some guid) {m : Mem}
    (hm : ∀ i < 16, m i = guid.getD i 0) : uuidString m = uuid.map lowerDigit := by
  have hguid := stringUuid_eq h
  obtain ⟨g₁, g₂, g₃, g₄, g₅, rfl, l₁, l₂, l₃, l₄, l₅, hdigits⟩ := groups_of_stringUuid h
  simp only [List.mem_append, or_assoc] at hdigits
  have d₁ : ∀ c ∈ g₁, isxdigit c = true := fun c hc => hdigits c (.inl hc)
  have d₂ : ∀ c ∈ g₂, isxdigit c = true := fun c hc => hdigits c (.inr (.inl hc))
  have d₃ : ∀ c ∈ g₃, isxdigit c = true := fun c hc => hdigits c (.inr (.inr (.inl hc)))
  have d₄ : ∀ c ∈ g₄, isxdigit c = true :=
    fun c hc => hdigits c (.inr (.inr (.inr (.inl hc))))
  have d₅ : ∀ c ∈ g₅, isxdigit c = true :=
    fun c hc => hdigits c (.inr (.inr (.inr (.inr hc))))
  have hdash : ∀ cs, EndsGroup (45 :: cs) := fun cs => .inr ⟨cs, rfl⟩
  -- what follows each dash
  have r₁ : (g₁ ++ 45 :: (g₂ ++ 45 :: (g₃ ++ 45 :: (g₄ ++ 45 :: g₅)))).drop 9 =
      g₂ ++ 45 :: (g₃ ++ 45 :: (g₄ ++ 45 :: g₅)) := drop_group _ _ _ (by omega)
  have r₂ : (g₁ ++ 45 :: (g₂ ++ 45 :: (g₃ ++ 45 :: (g₄ ++ 45 :: g₅)))).drop 14 =
      g₃ ++ 45 :: (g₄ ++ 45 :: g₅) := by
    rw [show 14 = 9 + 5 from rfl, ← List.drop_drop, r₁, drop_group _ _ _ (by omega)]
  have r₃ : (g₁ ++ 45 :: (g₂ ++ 45 :: (g₃ ++ 45 :: (g₄ ++ 45 :: g₅)))).drop 19 =
      g₄ ++ 45 :: g₅ := by
    rw [show 19 = 14 + 5 from rfl, ← List.drop_drop, r₂, drop_group _ _ _ (by omega)]
  have r₄ : (g₁ ++ 45 :: (g₂ ++ 45 :: (g₃ ++ 45 :: (g₄ ++ 45 :: g₅)))).drop 24 = g₅ := by
    rw [show 24 = 19 + 5 from rfl, ← List.drop_drop, r₃, drop_group _ _ _ (by omega)]
  -- the five numbers, which fit their variables
  have b₁ : u32 (groupValue g₁) = groupValue g₁ :=
    u32_of_lt (by simpa [l₁] using groupValue_lt d₁)
  have b₂ : groupValue g₂ % 2 ^ 16 = groupValue g₂ :=
    Nat.mod_eq_of_lt (by simpa [l₂] using groupValue_lt d₂)
  have b₃ : groupValue g₃ % 2 ^ 16 = groupValue g₃ :=
    Nat.mod_eq_of_lt (by simpa [l₃] using groupValue_lt d₃)
  have b₄ : groupValue g₄ % 2 ^ 16 = groupValue g₄ :=
    Nat.mod_eq_of_lt (by simpa [l₄] using groupValue_lt d₄)
  have b₅ : u64 (groupValue g₅) = groupValue g₅ :=
    u64_of_lt (lt_trans (by simpa [l₅] using groupValue_lt d₅) (by norm_num))
  have v₅ : strtoul16 g₅ = groupValue g₅ := by
    simpa using strtoul16_append d₅ (.inl rfl)
  simp only [r₁, r₂, r₃, r₄, strtoul16_append d₁ (hdash _), strtoul16_append d₂ (hdash _),
    strtoul16_append d₃ (hdash _), strtoul16_append d₄ (hdash _), v₅, b₁, b₂, b₃, b₄, b₅] at hguid
  have p₁ : [m 3, m 2, m 1, m 0] = beBytes 4 (groupValue g₁) := by
    simp [hm, hguid, beBytes, List.range_succ]
  have p₂ : [m 5, m 4] = beBytes 2 (groupValue g₂) := by
    simp [hm, hguid, beBytes, List.range_succ]
  have p₃ : [m 7, m 6] = beBytes 2 (groupValue g₃) := by
    simp [hm, hguid, beBytes, List.range_succ]
  have p₄ : [m 8, m 9] = beBytes 2 (groupValue g₄) := by
    simp [hm, hguid, beBytes, List.range_succ]
  have p₅ : [m 10, m 11, m 12, m 13, m 14, m 15] = beBytes 6 (groupValue g₅) := by
    simp [hm, hguid, beBytes, List.range_succ]
  have hlower : lowerDigit 45 = 45 := rfl
  rw [uuidString_eq, p₁, p₂, p₃, p₄, p₅, hexPairs_beBytes (by omega) d₁,
    hexPairs_beBytes (by omega) d₂, hexPairs_beBytes (by omega) d₃,
    hexPairs_beBytes (by omega) d₄, hexPairs_beBytes (by omega) d₅]
  simp only [List.map_append, List.map_cons, hlower]

/-- Five groups of hexadecimal digits, 8-4-4-4-12, between dashes. -/
def UuidForm (uuid : List UInt8) : Prop :=
  ∃ g₁ g₂ g₃ g₄ g₅ : List UInt8,
    uuid = g₁ ++ 45 :: (g₂ ++ 45 :: (g₃ ++ 45 :: (g₄ ++ 45 :: g₅))) ∧
    g₁.length = 8 ∧ g₂.length = 4 ∧ g₃.length = 4 ∧ g₄.length = 4 ∧ g₅.length = 12 ∧
    ∀ c ∈ g₁ ++ g₂ ++ g₃ ++ g₄ ++ g₅, isxdigit c = true

/-- The test of one character in the loop of `string_uuid`. -/
def uuidCharOk (ci : UInt8 × ℕ) : Bool := if isDash ci.2 then ci.1 == 45 else isxdigit ci.1

theorem all_digits {g : List UInt8} {k : ℕ} (hg : ∀ c ∈ g, isxdigit c = true)
    (hdash : ∀ i, k ≤ i → i < k + g.length → isDash i = false) :
    (g.zipIdx k).all uuidCharOk = true := by
  induction g generalizing k with
  | nil => rfl
  | cons c g ih =>
    rw [List.zipIdx_cons, List.all_cons, Bool.and_eq_true]
    rw [List.length_cons] at hdash
    refine ⟨?_, ih (fun c' hc => hg c' (List.mem_cons_of_mem _ hc))
      fun i hi hi' => hdash i (by omega) (by omega)⟩
    rw [uuidCharOk, hdash k le_rfl (by omega)]
    exact hg c List.mem_cons_self

theorem stringUuid_isSome_iff (uuid : List UInt8) :
    (stringUuid uuid).isSome = true ↔ UuidForm uuid := by
  constructor
  · intro h
    obtain ⟨guid, hguid⟩ := Option.isSome_iff_exists.mp h
    exact groups_of_stringUuid hguid
  · rintro ⟨g₁, g₂, g₃, g₄, g₅, rfl, l₁, l₂, l₃, l₄, l₅, hdigits⟩
    simp only [List.mem_append, or_assoc] at hdigits
    have hno : ∀ i, i ≠ 8 → i ≠ 13 → i ≠ 18 → i ≠ 23 → isDash i = false := by
      intro i h₁ h₂ h₃ h₄
      simp [isDash, h₁, h₂, h₃, h₄]
    have d₁ : (g₁.zipIdx 0).all uuidCharOk = true := all_digits (fun c hc => hdigits c (.inl hc))
      fun i _ _ => hno i (by omega) (by omega) (by omega) (by omega)
    have d₂ : (g₂.zipIdx 9).all uuidCharOk = true :=
      all_digits (fun c hc => hdigits c (.inr (.inl hc)))
        fun i _ _ => hno i (by omega) (by omega) (by omega) (by omega)
    have d₃ : (g₃.zipIdx 14).all uuidCharOk = true :=
      all_digits (fun c hc => hdigits c (.inr (.inr (.inl hc))))
        fun i _ _ => hno i (by omega) (by omega) (by omega) (by omega)
    have d₄ : (g₄.zipIdx 19).all uuidCharOk = true :=
      all_digits (fun c hc => hdigits c (.inr (.inr (.inr (.inl hc)))))
        fun i _ _ => hno i (by omega) (by omega) (by omega) (by omega)
    have d₅ : (g₅.zipIdx 24).all uuidCharOk = true :=
      all_digits (fun c hc => hdigits c (.inr (.inr (.inr (.inr hc)))))
        fun i _ _ => hno i (by omega) (by omega) (by omega) (by omega)
    have hall : ((g₁ ++ 45 :: (g₂ ++ 45 :: (g₃ ++ 45 :: (g₄ ++ 45 :: g₅)))).zipIdx).all
        uuidCharOk = true := by
      simp only [List.zipIdx_append, List.zipIdx_cons, List.all_append, List.all_cons, l₁, l₂, l₃,
        l₄, d₁, d₂, d₃, d₄, d₅, Nat.zero_add, Nat.reduceAdd, Bool.true_and, Bool.and_true]
      decide
    have hlen : (g₁ ++ 45 :: (g₂ ++ 45 :: (g₃ ++ 45 :: (g₄ ++ 45 :: g₅)))).length = 36 := by
      simp [l₁, l₂, l₃, l₄, l₅]
    have hok : ¬ ((g₁ ++ 45 :: (g₂ ++ 45 :: (g₃ ++ 45 :: (g₄ ++ 45 :: g₅)))).zipIdx.all
        (fun (c, i) => if isDash i then c == 45 else isxdigit c) = false) := by
      rw [Bool.not_eq_false]
      exact hall
    rw [stringUuid, if_neg (not_not.mpr hlen), if_neg hok]
    rfl

theorem hexDigit_facts {n : ℕ} (h : n < 16) :
    isxdigit (hexDigit n) = true ∧ lowerDigit (hexDigit n) = hexDigit n ∧
      digitValue (hexDigit n) = n := by
  interval_cases n <;> decide

theorem mem_hexPairs {bytes : List UInt8} {c : UInt8} (h : c ∈ hexPairs bytes) :
    ∃ n < 16, c = hexDigit n := by
  obtain ⟨b, -, hc⟩ := List.mem_flatMap.mp h
  have hb := b.toNat_lt
  simp only [List.mem_cons, List.not_mem_nil, or_false] at hc
  rcases hc with rfl | rfl
  · exact ⟨_, by omega, rfl⟩
  · exact ⟨_, by omega, rfl⟩

theorem length_hexPairs (bytes : List UInt8) : (hexPairs bytes).length = 2 * bytes.length := by
  induction bytes with
  | nil => rfl
  | cons b bytes ih =>
    rw [hexPairs, List.flatMap_cons, List.length_append, ← hexPairs, ih]
    simp
    omega

theorem hexPairs_inj {bytes bytes' : List UInt8} (h : hexPairs bytes = hexPairs bytes') :
    bytes = bytes' := by
  induction bytes generalizing bytes' with
  | nil =>
    cases bytes' with
    | nil => rfl
    | cons b' bytes' => simp [hexPairs] at h
  | cons b bytes ih =>
    cases bytes' with
    | nil => simp [hexPairs] at h
    | cons b' bytes' =>
      have hb := b.toNat_lt
      have hb' := b'.toNat_lt
      simp only [hexPairs, List.flatMap_cons, List.cons_append, List.nil_append,
        List.cons.injEq] at h
      obtain ⟨hhigh, hlow, hrest⟩ := h
      have h₁ := congrArg digitValue hhigh
      have h₂ := congrArg digitValue hlow
      rw [(hexDigit_facts (by omega)).2.2, (hexDigit_facts (by omega)).2.2] at h₁ h₂
      have hbyte : b = b' := UInt8.toNat_inj.mp (by omega)
      rw [hbyte, ih hrest]

theorem uuidForm_uuidString (m : Mem) : UuidForm (uuidString m) := by
  refine ⟨_, _, _, _, _, uuidString_eq m, rfl, rfl, rfl, rfl, rfl, fun c hc => ?_⟩
  simp only [List.mem_append, or_assoc] at hc
  obtain ⟨n, hn, rfl⟩ : ∃ n < 16, c = hexDigit n := by
    rcases hc with hc | hc | hc | hc | hc <;> exact mem_hexPairs hc
  exact (hexDigit_facts hn).1

theorem lower_hexPairs (bytes : List UInt8) :
    (hexPairs bytes).map lowerDigit = hexPairs bytes := by
  refine (List.map_congr_left fun c hc => ?_).trans (List.map_id _)
  obtain ⟨n, hn, rfl⟩ := mem_hexPairs hc
  exact (hexDigit_facts hn).2.1

/-- Different GUIDs have different strings. -/
theorem uuidString_inj {m m' : Mem} (h : uuidString m = uuidString m') :
    slice m 0 16 = slice m' 0 16 := by
  rw [uuidString_eq, uuidString_eq] at h
  have hlen : ∀ l l' : List UInt8, l.length = l'.length →
      (hexPairs l).length = (hexPairs l').length := fun l l' hl => by
    rw [length_hexPairs, length_hexPairs, hl]
  obtain ⟨h₁, h⟩ := List.append_inj h (hlen _ _ rfl)
  obtain ⟨h₂, h⟩ := List.append_inj (List.cons.inj h).2 (hlen _ _ rfl)
  obtain ⟨h₃, h⟩ := List.append_inj (List.cons.inj h).2 (hlen _ _ rfl)
  obtain ⟨h₄, h⟩ := List.append_inj (List.cons.inj h).2 (hlen _ _ rfl)
  have h₅ := hexPairs_inj (List.cons.inj h).2
  replace h₁ := hexPairs_inj h₁
  replace h₂ := hexPairs_inj h₂
  replace h₃ := hexPairs_inj h₃
  replace h₄ := hexPairs_inj h₄
  simp only [List.cons.injEq, and_true] at h₁ h₂ h₃ h₄ h₅
  simp [slice, List.range_succ, h₁, h₂, h₃, h₄, h₅]

/-- The string of a GUID is turned back into it; what is accepted is exactly the form
8-4-4-4-12, and printed again in lower case. -/
theorem uuid_codec :
    (∀ m : Mem, stringUuid (uuidString m) = some (slice m 0 16)) ∧
      ∀ uuid, ((stringUuid uuid).isSome = true ↔ UuidForm uuid) ∧
        ∀ guid, stringUuid uuid = some guid → uuidString (ofList guid) = uuid.map lowerDigit := by
  have hprint : ∀ uuid guid, stringUuid uuid = some guid →
      uuidString (ofList guid) = uuid.map lowerDigit :=
    fun uuid guid h => uuidString_stringUuid h fun i _ => rfl
  refine ⟨fun m => ?_, fun uuid => ⟨stringUuid_isSome_iff uuid, hprint uuid⟩⟩
  obtain ⟨guid, hguid⟩ :=
    Option.isSome_iff_exists.mp ((stringUuid_isSome_iff _).mpr (uuidForm_uuidString m))
  have hlower : (uuidString m).map lowerDigit = uuidString m := by
    rw [uuidString_eq]
    simp only [List.map_append, List.map_cons, lower_hexPairs]
    rfl
  have hlen : guid.length = 16 := by
    rw [stringUuid_eq hguid]
    rfl
  have hsame := uuidString_inj ((hprint _ _ hguid).trans hlower)
  have hlist := slice_ofList guid
  rw [hlen, hsame] at hlist
  rw [hguid, hlist]

end UBoot.Disk
