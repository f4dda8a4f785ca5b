import Mathlib.Data.List.GetD
import UBoot.Library.LittleEndian
import UBoot.Word

/-!
# The tag list for the kernel

`do_bootm_linux` lays out a list of tags: each starts with its size in words, so that the
next one is found behind it, and a tag with size 0 ends the list. The command line is the
only tag whose size depends on its contents.
-/
namespace UBoot.Board

open ByteStore

/-- A C string: its characters, without the terminating NUL. -/
structure CString where
  chars : List UInt8
  noNul : 0 ∉ chars
  deriving DecidableEq

def CString.strlen (s : CString) : ℕ := s.chars.length

def putBytes (m : Mem) (a : ℕ) (bytes : List UInt8) : Mem :=
  overlay m a bytes.length (ofList bytes)

def strcpy (m : Mem) (a : ℕ) (s : CString) : Mem := putBytes m a (s.chars ++ [0])

def memset (m : Mem) (a : ℕ) (c : UInt8) (n : ℕ) : Mem := overlay m a n fun _ => c

def setWord (m : Mem) (a v : ℕ) : Mem := putBytes m a (leBytes 4 v)

/-- The word at an address. -/
def word (m : Mem) (a : ℕ) : ℕ := fetch m a 4

def atagNone : ℕ := 0x00000000
def atagCore : ℕ := 0x54410001
def atagCmdline : ℕ := 0x54410009
def atagMemExt : ℕ := 0x54410100
def atagBuck2Voltage : ℕ := 0x54410101
def atagBootInfo : ℕ := 0x54410102
def atagBuck1Voltage : ℕ := 0x54410103
def atagChipId : ℕ := 0x54410104
def atagMmcTuningAddr : ℕ := 0x54410105

/-- `sizeof(struct tag_header)`: the size, then the tag. -/
def tagHeaderSize : ℕ := 8

def tagSize (bytes : ℕ) : ℕ := (tagHeaderSize + bytes) / 4

def tagNext (m : Mem) (params : ℕ) : ℕ := params + 4 * word m params

/-- A member of a structure: its offset and its bytes. -/
structure Field where
  off : ℕ
  bytes : List UInt8

def field (off width value : ℕ) : Field := ⟨off, leBytes width value⟩

def setFields (m : Mem) (a : ℕ) (fields : List Field) : Mem :=
  fields.foldl (fun m f => putBytes m (a + f.off) f.bytes) m

def bootModeRecovery : ℕ := 3
def puReasonUsbCharger : ℕ := 6

/-- What the global data, `pmic_info` and the configuration hold for the tags. -/
structure BootParams where
  bootMode : ℕ
  powerUpReason : ℕ
  recoveryBootargs : CString
  bootargsChargeOnly : CString
  bootargs : CString
  efiPartition : Bool
  partitions : CString
  dramBase : ℕ
  dramSize : ℕ
  dram2Base : ℕ
  dram2Size : ℕ
  on2Base : ℕ
  on2Size : ℕ
  fbBase : ℕ
  fbSize : ℕ
  fbNum : ℕ
  fbFix : ℕ
  on2Fix : ℕ
  buck2VoutSel : ℕ
  buck2Vout0 : ℕ
  buck2Vout1 : ℕ
  buck2Vout2 : ℕ
  buck2Vout3 : ℕ
  startupType : ℕ
  shutdownType : ℕ
  powerOnType : ℕ
  rebootType : ℕ
  buck1Vout0 : ℕ
  buck1Vout1 : ℕ
  chipId : ℕ
  romId : ℕ
  bbId : ℕ
  snId : ℕ
  kernelStart : ℕ

section Model
variable (gd : BootParams)

/-- The boot arguments that the boot mode and the reason of the power up select. -/
def BootParams.selected : CString :=
  if gd.bootMode = bootModeRecovery then gd.recoveryBootargs
  else if gd.powerUpReason = puReasonUsbCharger then gd.bootargsChargeOnly
  else gd.bootargs

/-- Writes the partition string and returns its length; the EFI build does nothing. -/
def flashPartitionString (m : Mem) (buffer : ℕ) : Mem × ℕ :=
  if gd.efiPartition then (m, 0) else (strcpy m buffer gd.partitions, gd.partitions.strlen)

def comipSetCmdlineParams (m : Mem) (params : ℕ) : Mem × ℕ :=
  let buf := params + tagHeaderSize
  let size := gd.selected.strlen
  let m := strcpy m buf gd.selected
  let r := flashPartitionString gd m (buf + size)
  let size := u32 (size + r.2)
  let m := setWord r.1 (params + 4) atagCmdline
  let m := setWord m params (u32 (size + 3 + tagHeaderSize) / 4)
  (m, tagNext m params)

/-- A tag of a fixed structure of `bytes` bytes: the header and the members. -/
def setTag (m : Mem) (params tag bytes : ℕ) (fields : List Field) : Mem × ℕ :=
  let m := setWord m (params + 4) tag
  let m := setWord m params (tagSize bytes)
  let m := setFields m (params + tagHeaderSize) fields
  (m, tagNext m params)

/-- The same with a `memset` of the structure before. -/
def clearTag (m : Mem) (params tag bytes : ℕ) (fields : List Field) : Mem × ℕ :=
  setTag (memset m (params + tagHeaderSize) 0 bytes) params tag bytes fields

def coreFields : List Field := [field 0 4 0, field 4 4 0, field 8 4 0]

/-- `sizeof(struct tag_mem_ext)` is 72: 67 bytes of members, aligned to 8. -/
def memExtFields : List Field :=
  [field 0 8 gd.dramBase, field 8 8 gd.dramSize, field 16 8 gd.dram2Base,
    field 24 8 gd.dram2Size, field 66 1 gd.on2Fix, field 40 8 gd.on2Size, field 32 8 gd.on2Base,
    field 65 1 gd.fbFix, field 56 8 gd.fbSize, field 48 8 gd.fbBase, field 64 1 gd.fbNum]

def buck2Fields : List Field :=
  [field 0 4 gd.buck2Vout0, field 4 4 gd.buck2Vout1, field 8 4 gd.buck2Vout2,
    field 12 4 (if gd.buck2VoutSel = 3 then gd.buck2Vout3 else 0)]

def bootInfoFields : List Field :=
  [field 0 4 gd.startupType, field 4 4 gd.shutdownType, field 8 4 gd.powerOnType,
    field 12 4 gd.rebootType, field 16 4 gd.bootMode]

def buck1Fields : List Field := [field 0 4 gd.buck1Vout0, field 4 4 gd.buck1Vout1]

def chipIdFields : List Field :=
  [field 0 4 gd.chipId, field 4 4 gd.romId, field 8 4 gd.bbId, field 12 4 gd.snId]

/-- The last tag is dropped when the kernel partition is not found. -/
def setTuningAddr (m : Mem) (params : ℕ) : Mem × ℕ :=
  let m := memset m (params + tagHeaderSize) 0 4
  let m := setFields m (params + tagHeaderSize) [field 0 4 gd.kernelStart]
  if u32 gd.kernelStart = 1 then (m, params)
  else
    let m := setWord m (params + 4) atagMmcTuningAddr
    let m := setWord m params (tagSize 4)
    (m, tagNext m params)

def comipSetBootParams (m : Mem) (params : ℕ) : Mem × ℕ :=
  let r := comipSetCmdlineParams gd m params
  let r := setTag r.1 r.2 atagMemExt 72 (memExtFields gd)
  let r := setTag r.1 r.2 atagBuck2Voltage 16 (buck2Fields gd)
  let r := clearTag r.1 r.2 atagBootInfo 32 (bootInfoFields gd)
  let r := clearTag r.1 r.2 atagBuck1Voltage 16 (buck1Fields gd)
  let r := clearTag r.1 r.2 atagChipId 20 (chipIdFields gd)
  setTuningAddr gd r.1 r.2

/-- The memory when the kernel starts. -/
def doBootmLinux (m : Mem) (biBootParams : ℕ) : Mem :=
  let r := setTag m biBootParams atagCore 12 coreFields
  let r := comipSetBootParams gd r.1 r.2
  setWord (setWord r.1 (r.2 + 4) atagNone) r.2 0

/-- The characters that the kernel is to find in its command line. -/
def BootParams.cmdline : List UInt8 :=
  gd.selected.chars ++ if gd.efiPartition then [] else gd.partitions.chars

/-- A tag as it was written: the size of its payload and what stands in it. -/
structure Tag where
  tag : ℕ
  payload : ℕ
  fields : List Field

/-- The tags that the three functions write, in order. -/
def writtenTags : List Tag :=
  [⟨atagCore, 12, coreFields⟩, ⟨atagCmdline, gd.cmdline.length + 1, [⟨0, gd.cmdline ++ [0]⟩]⟩,
    ⟨atagMemExt, 72, memExtFields gd⟩, ⟨atagBuck2Voltage, 16, buck2Fields gd⟩,
    ⟨atagBootInfo, 32, bootInfoFields gd⟩, ⟨atagBuck1Voltage, 16, buck1Fields gd⟩,
    ⟨atagChipId, 20, chipIdFields gd⟩] ++
  if u32 gd.kernelStart = 1 then []
  else [⟨atagMmcTuningAddr, 4, [field 0 4 gd.kernelStart]⟩]

/-- A member is in memory, in a structure at this address. -/
def Field.Holds (f : Field) (m : Mem) (a : ℕ) : Prop :=
  ∀ i < f.bytes.length, m (a + f.off + i) = f.bytes.getD i 0

/-- The tag at an address: its size covers the header, the payload and all members. -/
structure TagAt (m : Mem) (a : ℕ) (t : Tag) : Prop where
  tag : word m (a + 4) = t.tag
  payload : tagHeaderSize + t.payload ≤ 4 * word m a
  inside : ∀ f ∈ t.fields, f.off + f.bytes.length ≤ t.payload
  fields : ∀ f ∈ t.fields, f.Holds m (a + tagHeaderSize)

/-- Walking from `a` by the sizes in memory visits these tags and arrives at `b`. -/
def Walk (m : Mem) : ℕ → List Tag → ℕ → Prop
  | a, [], b => a = b
  | a, t :: ts, b => TagAt m a t ∧ Walk m (tagNext m a) ts b

/-- The walk visits these tags and ends at `ATAG_NONE`. -/
def WellFormed (m : Mem) (a : ℕ) (ts : List Tag) : Prop :=
  ∃ b, Walk m a ts b ∧ word m b = 0 ∧ word m (b + 4) = atagNone

end Model

section Bytes
variable {m m' : Mem} {a x : ℕ}

theorem putBytes_apart {bytes : List UInt8} (h : x < a ∨ a + bytes.length ≤ x) :
    putBytes m a bytes x = m x := overlay_of_not_mem _ _ (by omega)

theorem putBytes_add {bytes : List UInt8} {i : ℕ} (h : i < bytes.length) :
    putBytes m a bytes (a + i) = bytes.getD i 0 := overlay_add _ _ h

theorem memset_of_lt {c : UInt8} {n : ℕ} (h : x < a) : memset m a c n x = m x :=
  overlay_of_not_mem _ _ (by omega)

theorem setWord_apart {v : ℕ} (h : x < a ∨ a + 4 ≤ x) : setWord m a v x = m x :=
  putBytes_apart (by rwa [length_leBytes])

theorem word_congr (h : ∀ x, a ≤ x → x < a + 4 → m' x = m x) : word m' a = word m a :=
  fetch_congr fun i hi => h (a + i) (by omega) (by omega)

theorem word_setWord (m : Mem) (a v : ℕ) : word (setWord m a v) a = v % 2 ^ 32 := by
  have hbytes : ∀ i < 4, setWord m a v (a + i) = digits v i := by
    intro i hi
    rw [setWord, putBytes_add (by rwa [length_leBytes]), leBytes, List.getD_eq_getElem?_getD,
      List.getElem?_map, List.getElem?_range hi]
    rfl
  rw [word, fetch_digits hbytes]
  norm_num

theorem word_setWord_apart {b v : ℕ} (h : a + 4 ≤ b ∨ b + 4 ≤ a) :
    word (setWord m b v) a = word m a :=
  word_congr fun x _ _ => setWord_apart (by omega)

/-- Two members share no byte. -/
def Field.Apart (f g : Field) : Prop :=
  f.off + f.bytes.length ≤ g.off ∨ g.off + g.bytes.length ≤ f.off

instance (f g : Field) : Decidable (f.Apart g) := inferInstanceAs (Decidable (_ ∨ _))

theorem setFields_apart {fields : List Field}
    (h : ∀ f ∈ fields, x < a + f.off ∨ a + f.off + f.bytes.length ≤ x) :
    setFields m a fields x = m x := by
  induction fields generalizing m with
  | nil => rfl
  | cons f fields ih =>
    rw [setFields, List.foldl_cons, ← setFields, ih fun g hg => h g (List.mem_cons_of_mem f hg)]
    exact putBytes_apart (h f List.mem_cons_self)

/-- Members that do not overlap are all in memory after they were written. -/
theorem setFields_holds {fields : List Field} (h : fields.Pairwise Field.Apart) :
    ∀ f ∈ fields, f.Holds (setFields m a fields) a := by
  induction fields generalizing m with
  | nil => exact fun _ hf => absurd hf List.not_mem_nil
  | cons g fields ih =>
    obtain ⟨hg, hrest⟩ := List.pairwise_cons.mp h
    intro f hf
    rcases List.mem_cons.mp hf with rfl | hf
    · intro i hi
      rw [setFields, List.foldl_cons, ← setFields, setFields_apart, putBytes_add hi]
      intro f' hf'
      have := hg f' hf'
      rw [Field.Apart] at this
      omega
    · exact ih hrest f hf

/-- A tag depends on the bytes of its own size only. -/
theorem TagAt.congr {t : Tag} (h : TagAt m a t)
    (hsame : ∀ x, a ≤ x → x < tagNext m a → m' x = m x) : TagAt m' a t := by
  have hpay := h.payload
  have hnext : tagNext m a = a + 4 * word m a := rfl
  rw [tagHeaderSize] at hpay
  have hsize : word m' a = word m a :=
    word_congr fun x hx hx' => hsame x hx (by omega)
  refine ⟨?_, ?_, h.inside, ?_⟩
  · rw [word_congr fun x hx hx' => hsame x (by omega) (by omega)]
    exact h.tag
  · rw [hsize]
    exact h.payload
  · intro f hf i hi
    have hin := h.inside f hf
    rw [← h.fields f hf i hi]
    exact hsame _ (by omega) (by rw [tagHeaderSize]; omega)

theorem Walk.le {ts : List Tag} {b : ℕ} (h : Walk m a ts b) : a ≤ b := by
  induction ts generalizing a with
  | nil => exact Nat.le_of_eq h
  | cons t ts ih => exact le_trans (Nat.le_add_right _ _) (ih h.2)

theorem tagNext_congr {t : Tag} (h : TagAt m a t)
    (hsame : ∀ x, a ≤ x → x < tagNext m a → m' x = m x) : tagNext m' a = tagNext m a := by
  have hpay := h.payload
  have hnext : tagNext m a = a + 4 * word m a := rfl
  rw [tagHeaderSize] at hpay
  rw [tagNext, tagNext, word_congr fun x hx hx' => hsame x hx (by omega)]

theorem Walk.congr {ts : List Tag} {b : ℕ} (h : Walk m a ts b)
    (hsame : ∀ x, a ≤ x → x < b → m' x = m x) : Walk m' a ts b := by
  induction ts generalizing a with
  | nil => exact h
  | cons t ts ih =>
    obtain ⟨htag, hwalk⟩ := h
    have hle := hwalk.le
    have hown : ∀ x, a ≤ x → x < tagNext m a → m' x = m x :=
      fun x hx hx' => hsame x hx (by omega)
    refine ⟨htag.congr hown, ?_⟩
    rw [tagNext_congr htag hown]
    exact ih hwalk fun x hx => hsame x (le_trans (Nat.le_add_right _ _) hx)

theorem Walk.append {ts us : List Tag} {b c : ℕ} (h : Walk m a ts b) (h' : Walk m b us c) :
    Walk m a (ts ++ us) c := by
  induction ts generalizing a with
  | nil => exact (show a = b from h) ▸ h'
  | cons t ts ih => exact ⟨h.1, ih h.2⟩

end Bytes

/-- From one memory and pointer to another: nothing below the first pointer changes, and the
walk from the first pointer to the second visits these tags. -/
structure Segment (r r' : Mem × ℕ) (ts : List Tag) : Prop where
  below : ∀ x < r.2, r'.1 x = r.1 x
  walk : Walk r'.1 r.2 ts r'.2

theorem Segment.trans {r r' r'' : Mem × ℕ} {ts us : List Tag} (h : Segment r r' ts)
    (h' : Segment r' r'' us) : Segment r r'' (ts ++ us) where
  below x hx := (h'.below x (hx.trans_le h.walk.le)).trans (h.below x hx)
  walk := (h.walk.congr fun x _ hx => h'.below x hx).append h'.walk

section Steps
variable {m : Mem} {params tag bytes : ℕ} {fields : List Field}

theorem setFields_word {a x : ℕ} (h : x + 4 ≤ a) :
    word (setFields m a fields) x = word m x :=
  word_congr fun y _ hy => setFields_apart fun f _ => .inl (by omega)

/-- The structures of the tags: whole words, their members apart and inside. -/
structure Layout (tag bytes : ℕ) (fields : List Field) : Prop where
  tag : tag < 2 ^ 32
  words : 4 ∣ bytes
  small : bytes < 2 ^ 16
  apart : fields.Pairwise Field.Apart
  inside : ∀ f ∈ fields, f.off + f.bytes.length ≤ bytes

theorem tagSize_words (h : Layout tag bytes fields) :
    4 * (tagSize bytes % 2 ^ 32) = tagHeaderSize + bytes := by
  obtain ⟨n, hn⟩ := h.words
  have := h.small
  rw [tagSize, tagHeaderSize]
  omega

theorem setTag_segment (h : Layout tag bytes fields) :
    Segment (m, params) (setTag m params tag bytes fields) [⟨tag, bytes, fields⟩] := by
  have hsize : word (setTag m params tag bytes fields).1 params = tagSize bytes % 2 ^ 32 := by
    rw [setTag, setFields_word (by rw [tagHeaderSize]; omega), word_setWord]
  have htag : word (setTag m params tag bytes fields).1 (params + 4) = tag := by
    rw [setTag, setFields_word (by rw [tagHeaderSize]), word_setWord_apart (by omega),
      word_setWord, Nat.mod_eq_of_lt h.tag]
  refine ⟨fun x hx => ?_, ⟨htag, ?_, h.inside, setFields_holds h.apart⟩, rfl⟩
  · change x < params at hx
    dsimp only [setTag]
    rw [setFields_apart fun f _ => .inl (by rw [tagHeaderSize]; omega),
      setWord_apart (.inl hx), setWord_apart (.inl (by omega))]
  · rw [hsize, tagSize_words h]

theorem clearTag_segment (h : Layout tag bytes fields) :
    Segment (m, params) (clearTag m params tag bytes fields) [⟨tag, bytes, fields⟩] where
  below x hx := by
    change x < params at hx
    exact ((setTag_segment h).below x hx).trans (memset_of_lt (by omega))
  walk := (setTag_segment h).walk

theorem setTuningAddr_segment (gd : BootParams) : Segment (m, params) (setTuningAddr gd m params)
    (if u32 gd.kernelStart = 1 then []
      else [⟨atagMmcTuningAddr, 4, [field 0 4 gd.kernelStart]⟩]) := by
  have hbelow : ∀ x < params + tagHeaderSize,
      setFields (memset m (params + tagHeaderSize) 0 4) (params + tagHeaderSize)
        [field 0 4 gd.kernelStart] x = m x := by
    intro x hx
    rw [setFields_apart fun f _ => .inl (by omega), memset_of_lt hx]
  have hlt : ∀ x < params, x < params + tagHeaderSize := fun x hx => by
    rw [tagHeaderSize]; omega
  rw [setTuningAddr]
  by_cases hfound : u32 gd.kernelStart = 1
  · rw [if_pos hfound, if_pos hfound]
    exact ⟨fun x hx => hbelow x (hlt x hx), rfl⟩
  · rw [if_neg hfound, if_neg hfound]
    refine ⟨fun x hx => ?_, ⟨?_, ?_, ?_, ?_⟩, rfl⟩
    · change x < params at hx
      dsimp only
      rw [setWord_apart (.inl hx), setWord_apart (.inl (by omega)), hbelow x (hlt x hx)]
    · rw [word_setWord_apart (by omega), word_setWord]
      rfl
    · rw [word_setWord]
      exact (by decide : tagHeaderSize + 4 ≤ 4 * (tagSize 4 % 2 ^ 32))
    · exact List.forall_mem_singleton.mpr (by simp [field])
    · intro f hf i hi
      dsimp only
      have hheld := setFields_holds (m := memset m (params + tagHeaderSize) 0 4)
        (a := params + tagHeaderSize) (List.pairwise_singleton Field.Apart _) f hf i hi
      rw [setWord_apart (.inr (by rw [tagHeaderSize]; omega)),
        setWord_apart (.inr (by rw [tagHeaderSize]; omega))]
      exact hheld

variable (gd : BootParams)

theorem layout_core : Layout atagCore 12 coreFields :=
  ⟨by decide, by decide, by decide, by simp [coreFields, field, Field.Apart],
    by simp [coreFields, field]⟩

theorem layout_memExt : Layout atagMemExt 72 (memExtFields gd) :=
  ⟨by decide, by decide, by decide, by simp [memExtFields, field, Field.Apart],
    by simp [memExtFields, field]⟩

theorem layout_buck2 : Layout atagBuck2Voltage 16 (buck2Fields gd) :=
  ⟨by decide, by decide, by decide, by simp [buck2Fields, field, Field.Apart],
    by simp [buck2Fields, field]⟩

theorem layout_bootInfo : Layout atagBootInfo 32 (bootInfoFields gd) :=
  ⟨by decide, by decide, by decide, by simp [bootInfoFields, field, Field.Apart],
    by simp [bootInfoFields, field]⟩

theorem layout_buck1 : Layout atagBuck1Voltage 16 (buck1Fields gd) :=
  ⟨by decide, by decide, by decide, by simp [buck1Fields, field, Field.Apart],
    by simp [buck1Fields, field]⟩

theorem layout_chipId : Layout atagChipId 20 (chipIdFields gd) :=
  ⟨by decide, by decide, by decide, by simp [chipIdFields, field, Field.Apart],
    by simp [chipIdFields, field]⟩

/-- All tags behind the command line, whatever the command line is. -/
theorem comipSetBootParams_segment : Segment (comipSetCmdlineParams gd m params)
    (comipSetBootParams gd m params) ((writtenTags gd).drop 2) := by
  unfold comipSetBootParams
  extract_lets line memExt buck2 bootInfo buck1 chipId
  have h₁ : Segment line memExt _ := setTag_segment (layout_memExt gd)
  have h₂ : Segment memExt buck2 _ := setTag_segment (layout_buck2 gd)
  have h₃ : Segment buck2 bootInfo _ := clearTag_segment (layout_bootInfo gd)
  have h₄ : Segment bootInfo buck1 _ := clearTag_segment (layout_buck1 gd)
  have h₅ : Segment buck1 chipId _ := clearTag_segment (layout_chipId gd)
  have h₆ : Segment chipId _ _ := setTuningAddr_segment gd
  exact h₁.trans (h₂.trans (h₃.trans (h₄.trans (h₅.trans h₆))))

/-- The two strings make one, with one NUL at its end. -/
theorem strings_written (buf : ℕ) :
    let r := flashPartitionString gd (strcpy m buf gd.selected) (buf + gd.selected.strlen)
    gd.selected.strlen + r.2 = gd.cmdline.length ∧ (∀ x < buf, r.1 x = m x) ∧
    ∀ i < gd.cmdline.length + 1, r.1 (buf + i) = (gd.cmdline ++ [0]).getD i 0 := by
  intro r
  have hfirst : ∀ x < buf, strcpy m buf gd.selected x = m x := fun x hx =>
    putBytes_apart (.inl hx)
  cases hefi : gd.efiPartition
  · have hr : r = (strcpy (strcpy m buf gd.selected) (buf + gd.selected.strlen) gd.partitions,
        gd.partitions.strlen) := by simp [r, flashPartitionString, hefi]
    have hline : gd.cmdline = gd.selected.chars ++ gd.partitions.chars := by
      simp [BootParams.cmdline, hefi]
    rw [hr, hline]
    refine ⟨by simp [CString.strlen], fun x hx => ?_, fun i hi => ?_⟩
    · rw [← hfirst x hx]
      exact putBytes_apart (.inl (by omega))
    · rw [List.append_assoc]
      by_cases hlow : i < gd.selected.strlen
      · rw [List.getD_append _ _ _ _ hlow]
        refine (putBytes_apart (.inl (by omega))).trans ?_
        have hlen : i < (gd.selected.chars ++ [0]).length := by
          rw [List.length_append]
          exact Nat.lt_succ_of_lt hlow
        rw [strcpy, putBytes_add hlen, List.getD_append _ _ _ _ hlow]
      · have haddr : buf + i = buf + gd.selected.strlen + (i - gd.selected.strlen) := by omega
        have hlen : i - gd.selected.strlen < (gd.partitions.chars ++ [0]).length := by
          rw [List.length_append] at hi ⊢
          rw [List.length_singleton]
          change ¬ i < gd.selected.chars.length at hlow
          change i - gd.selected.chars.length < _
          omega
        rw [List.getD_append_right _ _ _ _ (not_lt.mp hlow), haddr]
        exact putBytes_add hlen
  · have hr : r = (strcpy m buf gd.selected, 0) := by simp [r, flashPartitionString, hefi]
    have hline : gd.cmdline = gd.selected.chars := by simp [BootParams.cmdline, hefi]
    rw [hr, hline]
    exact ⟨rfl, hfirst, fun i hi => putBytes_add (by rwa [List.length_append])⟩

/-- What the command line leaves: the header, the string and all memory below. -/
theorem comipSetCmdlineParams_spec (hfit : gd.cmdline.length + 3 + tagHeaderSize < 2 ^ 32) :
    (∀ x < params, (comipSetCmdlineParams gd m params).1 x = m x) ∧
    word (comipSetCmdlineParams gd m params).1 params = (gd.cmdline.length + 11) / 4 ∧
    word (comipSetCmdlineParams gd m params).1 (params + 4) = atagCmdline ∧
    (∀ i < gd.cmdline.length + 1, (comipSetCmdlineParams gd m params).1
      (params + tagHeaderSize + i) = (gd.cmdline ++ [0]).getD i 0) ∧
    (comipSetCmdlineParams gd m params).2 =
      tagNext (comipSetCmdlineParams gd m params).1 params := by
  obtain ⟨hlen, hbelow, hbytes⟩ := strings_written (m := m) gd (params + tagHeaderSize)
  rw [tagHeaderSize] at hfit
  have hsize : u32 (u32 (gd.selected.strlen + (flashPartitionString gd
      (strcpy m (params + tagHeaderSize) gd.selected)
      (params + tagHeaderSize + gd.selected.strlen)).2) + 3 + tagHeaderSize) =
      gd.cmdline.length + 11 := by
    rw [hlen, u32_of_lt (n := gd.cmdline.length) (by omega), tagHeaderSize,
      u32_of_lt (by omega)]
  refine ⟨fun x hx => ?_, ?_, ?_, fun i hi => ?_, rfl⟩
  · refine (setWord_apart (.inl hx)).trans ((setWord_apart (.inl (by omega))).trans ?_)
    exact hbelow x (by rw [tagHeaderSize]; omega)
  · refine (word_setWord _ _ _).trans ?_
    rw [hsize]
    omega
  · refine (word_setWord_apart (by omega)).trans ((word_setWord _ _ _).trans ?_)
    decide
  · refine (setWord_apart (.inr (by rw [tagHeaderSize]; omega))).trans
      ((setWord_apart (.inr (by rw [tagHeaderSize]; omega))).trans ?_)
    exact hbytes i hi

theorem comipSetCmdlineParams_segment
    (hfit : gd.cmdline.length + 3 + tagHeaderSize < 2 ^ 32) (hlen : gd.cmdline.length % 4 ≠ 0) :
    Segment (m, params) (comipSetCmdlineParams gd m params)
      [⟨atagCmdline, gd.cmdline.length + 1, [⟨0, gd.cmdline ++ [0]⟩]⟩] := by
  obtain ⟨hbelow, hsize, htag, hbytes, hnext⟩ :=
    @comipSetCmdlineParams_spec m params gd hfit
  refine ⟨hbelow, ⟨htag, ?_, ?_, ?_⟩, hnext.symm⟩
  · change tagHeaderSize + (gd.cmdline.length + 1) ≤ _
    rw [hsize, tagHeaderSize]
    -- rounding up covers the NUL unless the length is a whole number of words
    omega
  · exact List.forall_mem_singleton.mpr (by simp)
  · refine List.forall_mem_singleton.mpr fun i hi => ?_
    exact hbytes i (by simpa using hi)

/-- The header of size 0 stands behind all tags. -/
theorem Segment.close {r r' : Mem × ℕ} {ts : List Tag} (h : Segment r r' ts) :
    WellFormed (setWord (setWord r'.1 (r'.2 + 4) atagNone) r'.2 0) r.2 ts := by
  refine ⟨r'.2, h.walk.congr fun x _ hx => ?_, ?_, ?_⟩
  · rw [setWord_apart (.inl hx), setWord_apart (.inl (by omega))]
  · rw [word_setWord, Nat.zero_mod]
  · rw [word_setWord_apart (by omega), word_setWord]
    decide

theorem doBootmLinux_below_end (x : ℕ)
    (hx : x < (comipSetBootParams gd (setTag m params atagCore 12 coreFields).1
      (setTag m params atagCore 12 coreFields).2).2) :
    doBootmLinux gd m params x = (comipSetBootParams gd (setTag m params atagCore 12
      coreFields).1 (setTag m params atagCore 12 coreFields).2).1 x :=
  (setWord_apart (.inl hx)).trans (setWord_apart (.inl (by omega)))

/-- The size of the command line's tag when the kernel starts, and where the tag is. -/
theorem cmdline_header (hfit : gd.cmdline.length + 3 + tagHeaderSize < 2 ^ 32) :
    word (doBootmLinux gd m params) (tagNext (doBootmLinux gd m params) params) =
      (gd.cmdline.length + 11) / 4 := by
  have hcore : Segment (m, params) (setTag m params atagCore 12 coreFields) _ :=
    setTag_segment layout_core
  obtain ⟨hbelow, hsize, -, -, hnext⟩ := @comipSetCmdlineParams_spec
    (setTag m params atagCore 12 coreFields).1 (setTag m params atagCore 12 coreFields).2 gd hfit
  have hrest := @comipSetBootParams_segment
    (setTag m params atagCore 12 coreFields).1 (setTag m params atagCore 12 coreFields).2 gd
  have hend := @doBootmLinux_below_end m params gd
  generalize setTag m params atagCore 12 coreFields = core at *
  generalize comipSetCmdlineParams gd core.1 core.2 = line at *
  generalize comipSetBootParams gd core.1 core.2 = rest at *
  -- nothing behind a tag touches it any more
  have hline : ∀ x < line.2, doBootmLinux gd m params x = line.1 x := fun x hx =>
    (hend x (hx.trans_le hrest.walk.le)).trans (hrest.below x hx)
  have hroom : core.2 + 8 ≤ line.2 := by
    rw [hnext, tagNext, hsize]
    omega
  obtain ⟨htag, hwalk⟩ := hcore.walk
  have hstart : tagNext (doBootmLinux gd m params) params = core.2 := by
    rw [tagNext_congr htag fun x _ hx => ?_]
    · exact hwalk
    · rw [hline x ?_, hbelow x ?_]
      all_goals rw [show tagNext core.1 params = core.2 from hwalk] at hx; omega
  rw [hstart, word_congr fun x _ hx => hline x (by omega), hsize]

/-- The list is right exactly when the length of the command line is no whole number of
words: only then does rounding up leave room for the NUL. -/
theorem wellFormed_iff (hfit : gd.cmdline.length + 3 + tagHeaderSize < 2 ^ 32) :
    WellFormed (doBootmLinux gd m params) params (writtenTags gd) ↔
      gd.cmdline.length % 4 ≠ 0 := by
  constructor
  · rintro ⟨b, ⟨-, htag, -⟩, -⟩ hlen
    have hpay := htag.payload
    rw [cmdline_header gd hfit, tagHeaderSize] at hpay
    change 8 + (gd.cmdline.length + 1) ≤ _ at hpay
    omega
  · intro hlen
    exact (((setTag_segment layout_core).trans
      (comipSetCmdlineParams_segment gd hfit hlen)).trans (comipSetBootParams_segment gd)).close

end Steps

/-- A board with this string of boot arguments, and no partition string. -/
def plainParams (bootargs : CString) : BootParams where
  bootMode := 0
  powerUpReason := 3
  recoveryBootargs := bootargs
  bootargsChargeOnly := bootargs
  bootargs := bootargs
  efiPartition := true
  partitions := ⟨[], List.not_mem_nil⟩
  dramBase := 0
  dramSize := 0x40000000
  dram2Base := 0
  dram2Size := 0
  on2Base := 0
  on2Size := 0
  fbBase := 0
  fbSize := 0
  fbNum := 2
  fbFix := 0
  on2Fix := 0
  buck2VoutSel := 1
  buck2Vout0 := 0
  buck2Vout1 := 0
  buck2Vout2 := 0
  buck2Vout3 := 0
  startupType := 0
  shutdownType := 0
  powerOnType := 3
  rebootType := 0
  buck1Vout0 := 0
  buck1Vout1 := 0
  chipId := 0
  romId := 0
  bbId := 0
  snId := 0
  kernelStart := 1

/-- `"android"`: the NUL takes the last byte of the second word. -/
def argsAndroid : CString := ⟨[97, 110, 100, 114, 111, 105, 100], by decide⟩

theorem argsAndroid_wellFormed : WellFormed (doBootmLinux (plainParams argsAndroid) (fun _ => 0)
    0x100) 0x100 (writtenTags (plainParams argsAndroid)) :=
  (wellFormed_iff (plainParams argsAndroid) (by decide)).mpr (by decide)

/-- `"android "`: the NUL would stand in the size of the next tag. -/
def argsAndroidBlank : CString := ⟨[97, 110, 100, 114, 111, 105, 100, 32], by decide⟩

theorem nul_is_overwritten : ¬ ∀ (gd : BootParams) (m : Mem) (params : ℕ),
    gd.cmdline.length + 3 + tagHeaderSize < 2 ^ 32 →
    WellFormed (doBootmLinux gd m params) params (writtenTags gd) := by
  intro hall
  obtain ⟨b, ⟨-, htag, -⟩, -⟩ := hall (plainParams argsAndroidBlank) (fun _ => 0) 0x100 (by decide)
  have hpay := htag.payload
  rw [cmdline_header _ (by decide)] at hpay
  exact absurd hpay (by decide)

end UBoot.Board
