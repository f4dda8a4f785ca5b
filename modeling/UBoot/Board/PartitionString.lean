import UBoot.Board.Setup

/-!
# The partition string

`flash_partition_string` of the eMMC build joins the partitions, all but the first, to one
string for the command line. Each is formatted into a buffer of 30 bytes first.
-/
namespace UBoot.Board
open ByteStore

/-- `struct partition`, with the bytes of its name. -/
structure NamedRange where
  sectorSize : UInt32
  start : UInt32
  length : UInt32
  name : CString

namespace CString

theorem noNul_append {s t : List UInt8} (hs : 0 ∉ s) (ht : 0 ∉ t) : 0 ∉ s ++ t :=
  fun h => (List.mem_append.mp h).elim hs ht

def append (s t : CString) : CString := ⟨s.chars ++ t.chars, noNul_append s.noNul t.noNul⟩

instance : Append CString := ⟨append⟩

@[simp] theorem chars_append (s t : CString) : (s ++ t).chars = s.chars ++ t.chars := rfl

theorem ext {s t : CString} (h : s.chars = t.chars) : s = t := by
  cases s
  cases t
  simpa using h

theorem append_assoc (s t u : CString) : s ++ t ++ u = s ++ (t ++ u) :=
  ext (List.append_assoc _ _ _)

theorem strlen_append (s t : CString) : (s ++ t).strlen = s.strlen + t.strlen :=
  List.length_append

theorem noNul_nil : (0 : UInt8) ∉ ([] : List UInt8) := List.not_mem_nil

def empty : CString := ⟨[], noNul_nil⟩

/-- One character. -/
def single (c : UInt8) (h : c ≠ 0) : CString := ⟨[c], fun h' => h (List.mem_singleton.mp h').symm⟩

theorem strlen_append_single (s : CString) (c : UInt8) (h : c ≠ 0) :
    (s ++ single c h).strlen = s.strlen + 1 := strlen_append s (single c h)

end CString

def hexChar (d : ℕ) : UInt8 := if d < 10 then UInt8.ofNat (48 + d) else UInt8.ofNat (87 + d)

/-- The digits of `%lx`, at most `fuel` of them. -/
def hexDigits : ℕ → ℕ → List UInt8
  | 0, _ => []
  | fuel + 1, n =>
    if n < 16 then [hexChar n] else hexDigits fuel (n / 16) ++ [hexChar (n % 16)]

theorem hexChar_ne_zero {d : ℕ} (h : d < 16) : hexChar d ≠ 0 := by
  interval_cases d <;> decide

theorem hexDigits_noNul (fuel n : ℕ) : 0 ∉ hexDigits fuel n := by
  induction fuel generalizing n with
  | zero => exact List.not_mem_nil
  | succ fuel ih =>
    rw [hexDigits]
    split_ifs with hn
    · exact fun h => hexChar_ne_zero hn (List.mem_singleton.mp h).symm
    · exact CString.noNul_append (ih _) fun h =>
        hexChar_ne_zero (Nat.mod_lt n (by decide)) (List.mem_singleton.mp h).symm

/-- `%lx` of a 32-bit value. -/
def hex (v : UInt32) : CString := ⟨hexDigits 8 v.toNat, hexDigits_noNul 8 v.toNat⟩

def comma : CString := .single 44 (by decide)
def blank : CString := .single 32 (by decide)
def colon : CString := .single 58 (by decide)

/-- `"lcpart=mmcblk0="` -/
def lcpartHeader : CString :=
  ⟨[108, 99, 112, 97, 114, 116, 61, 109, 109, 99, 98, 108, 107, 48, 61], by decide⟩

/-- `"%s:%lx:%lx:%lx"` -/
def NamedRange.text (p : NamedRange) : CString :=
  p.name ++ colon ++ hex p.start ++ colon ++ hex p.length ++ colon ++ hex p.sectorSize

def tempSize : ℕ := 30

/-- `sprintf` into `temp`; what happens to a string that does not fit with its NUL is not
defined. -/
def sprintfTemp (text : CString) : Option CString :=
  if text.strlen + 1 ≤ tempSize then some text else none

/-- The address of the first NUL from `a` on, within `n` bytes. -/
def strEnd (m : Mem) : ℕ → ℕ → Option ℕ
  | 0, _ => none
  | n + 1, a => if m a = 0 then some a else strEnd m n (a + 1)

/-- `strcat`; the NUL is looked for in the whole address space. -/
def strcat (m : Mem) (a : ℕ) (s : CString) : Option Mem :=
  (strEnd m (2 ^ 32) a).map fun e => strcpy m e s

/-- The loop over the partitions from the second on. -/
def joinEntries (buffer : ℕ) : List NamedRange → Mem → ℕ → Option (Mem × ℕ)
  | [], m, len => some (m, len)
  | p :: rest, m, len => do
    let temp ← sprintfTemp p.text
    let m ← strcat m (buffer + len) temp
    let len := len + temp.strlen
    if rest ≠ [] then
      let m ← strcat m (buffer + len) comma
      joinEntries buffer rest m (len + 1)
    else joinEntries buffer rest m len

/-- `flash_partition_string` of the eMMC build; the loop starts at entry 1. -/
def flashPartitionStringEmmc (partitions : List NamedRange) (m : Mem) (buffer : ℕ) :
    Option (Mem × ℕ) := do
  let m := strcpy m buffer lcpartHeader
  let (m, len) ← joinEntries buffer partitions.tail m lcpartHeader.strlen
  let m ← strcat m (buffer + len) blank
  return (m, len + 1)

/-- The entries in order, joined by commas. -/
def joined : List NamedRange → CString
  | [] => .empty
  | [p] => p.text
  | p :: q :: rest => p.text ++ comma ++ joined (q :: rest)

/-- The string that the kernel is to find. -/
def partitionText (partitions : List NamedRange) : CString :=
  lcpartHeader ++ joined partitions.tail ++ blank

/-- The string stands in the buffer with its NUL, nothing else has changed, and its length is
what is returned. -/
def StringRight (partitions : List NamedRange) (m : Mem) (buffer : ℕ) : Prop :=
  flashPartitionStringEmmc partitions m buffer =
    some (strcpy m buffer (partitionText partitions), (partitionText partitions).strlen)

/-- The name and the numbers leave room for the three colons and the NUL. -/
def FitsTemp (p : NamedRange) : Prop :=
  p.name.strlen + (hex p.start).strlen + (hex p.length).strlen + (hex p.sectorSize).strlen ≤ 26

instance (p : NamedRange) : Decidable (FitsTemp p) := inferInstanceAs (Decidable (_ ≤ _))

section Join
variable {m : Mem} {buffer : ℕ}

theorem sprintfTemp_eq (p : NamedRange) :
    sprintfTemp p.text = if FitsTemp p then some p.text else none := by
  have hlen : p.text.strlen = p.name.strlen + (hex p.start).strlen + (hex p.length).strlen +
      (hex p.sectorSize).strlen + 3 := by
    simp only [NamedRange.text, CString.strlen_append]
    simp only [CString.strlen, colon, CString.single, List.length_singleton]
    omega
  rw [sprintfTemp, hlen, tempSize]
  exact if_congr ⟨fun h => by rw [FitsTemp]; omega, fun h => by rw [FitsTemp] at h; omega⟩ rfl rfl

theorem strEnd_of_zero {a n : ℕ} (h : m a = 0) (hn : 0 < n) : strEnd m n a = some a := by
  obtain ⟨n, rfl⟩ := Nat.exists_eq_succ_of_ne_zero hn.ne'
  rw [strEnd, if_pos h]

/-- A string behind a string is one string. -/
theorem strcpy_append (m : Mem) (a : ℕ) (s t : CString) :
    strcpy (strcpy m a s) (a + s.strlen) t = strcpy m a (s ++ t) := by
  funext x
  have hs : (s.chars ++ [0]).length = s.strlen + 1 := List.length_append
  have ht : (t.chars ++ [0]).length = t.strlen + 1 := List.length_append
  have hst : ((s ++ t).chars ++ [0]).length = s.strlen + t.strlen + 1 := by
    rw [List.length_append, ← CString.strlen_append]
    rfl
  have hbytes : (s ++ t).chars ++ [0] = s.chars ++ (t.chars ++ [0]) := List.append_assoc _ _ _
  by_cases hout : x < a ∨ a + (s.strlen + t.strlen + 1) ≤ x
  · rw [strcpy, putBytes_apart (by omega), strcpy, putBytes_apart (by omega), strcpy,
      putBytes_apart (by omega)]
  · obtain ⟨i, rfl⟩ := Nat.exists_eq_add_of_le (show a ≤ x by omega)
    rw [strcpy, strcpy, strcpy, putBytes_add (show i < _ by omega), hbytes]
    by_cases hlow : i < s.strlen
    · rw [putBytes_apart (by omega), putBytes_add (by omega), List.getD_append _ _ _ _ hlow,
        List.getD_append _ _ _ _ hlow]
    · have hle : s.strlen ≤ i := not_lt.mp hlow
      rw [List.getD_append_right _ _ _ _ hle,
        show a + i = a + s.strlen + (i - s.strlen) by omega, putBytes_add (by omega)]
      rfl

theorem strcat_strcpy (m : Mem) (a : ℕ) (s t : CString) :
    strcat (strcpy m a s) (a + s.strlen) t = some (strcpy m a (s ++ t)) := by
  have hnul : strcpy m a s (a + s.strlen) = 0 := by
    rw [strcpy, putBytes_add, CString.strlen, List.getD_append_right _ _ _ _ le_rfl, Nat.sub_self]
    · rfl
    · rw [List.length_append, CString.strlen]
      exact Nat.lt_succ_self _
  rw [strcat, strEnd_of_zero hnul (by decide), Option.map_some, strcpy_append]

theorem joined_cons (p : NamedRange) {rest : List NamedRange} (h : rest ≠ []) :
    joined (p :: rest) = p.text ++ comma ++ joined rest := by
  cases rest with
  | nil => exact absurd rfl h
  | cons q rest => rfl

/-- The loop appends the entries to the string, if each fits. -/
theorem joinEntries_eq {ps : List NamedRange} (h : ∀ p ∈ ps, FitsTemp p) (s : CString) :
    joinEntries buffer ps (strcpy m buffer s) s.strlen =
      some (strcpy m buffer (s ++ joined ps), (s ++ joined ps).strlen) := by
  induction ps generalizing s with
  | nil =>
    have hempty : s ++ joined [] = s := CString.ext (List.append_nil _)
    rw [joinEntries, hempty]
  | cons p rest ih =>
    obtain ⟨hfits, hrest⟩ := List.forall_mem_cons.mp h
    rw [joinEntries, sprintfTemp_eq, if_pos hfits]
    simp only [Option.bind_eq_bind, Option.bind_some, strcat_strcpy, ← CString.strlen_append]
    split_ifs with hnext
    · have hlen : (s ++ p.text).strlen + 1 = (s ++ p.text ++ comma).strlen :=
        (CString.strlen_append_single _ _ _).symm
      rw [hlen, ih hrest, joined_cons p hnext]
      simp only [CString.append_assoc]
    · rw [not_not.mp hnext]
      rfl

theorem joinEntries_none {ps : List NamedRange} (h : ∃ p ∈ ps, ¬ FitsTemp p) (s : CString) :
    joinEntries buffer ps (strcpy m buffer s) s.strlen = none := by
  induction ps generalizing s with
  | nil => exact absurd h (by simp)
  | cons p rest ih =>
    rw [joinEntries, sprintfTemp_eq]
    by_cases hfits : FitsTemp p
    · obtain ⟨q, hq, hq'⟩ := h
      have hrest : q ∈ rest := (List.mem_cons.mp hq).resolve_left fun h => hq' (h ▸ hfits)
      rw [if_pos hfits]
      simp only [Option.bind_eq_bind, Option.bind_some, strcat_strcpy, ← CString.strlen_append,
        if_pos (List.ne_nil_of_mem hrest)]
      rw [← CString.strlen_append_single (s ++ p.text) 44 (by decide)]
      exact ih ⟨q, hrest, hq'⟩ (s ++ p.text ++ comma)
    · rw [if_neg hfits]
      rfl

/-- The string is right exactly when each entry fits the temporary buffer. -/
theorem stringRight_iff (partitions : List NamedRange) (m : Mem) (buffer : ℕ) :
    StringRight partitions m buffer ↔ ∀ p ∈ partitions.tail, FitsTemp p := by
  constructor
  · intro hright p hp
    by_contra hfits
    rw [StringRight, flashPartitionStringEmmc] at hright
    simp only [joinEntries_none ⟨p, hp, hfits⟩ lcpartHeader] at hright
    cases hright
  · intro hfits
    rw [StringRight, flashPartitionStringEmmc]
    simp only [joinEntries_eq hfits lcpartHeader, Option.bind_eq_bind, Option.bind_some,
      strcat_strcpy]
    rw [← CString.strlen_append_single (lcpartHeader ++ joined partitions.tail) 32 (by decide)]
    rfl

/-- What the boot parameters take for the string of the partitions. -/
theorem flashPartitionString_of_right {partitions : List NamedRange} {gd : BootParams}
    (h : StringRight partitions m buffer) (hefi : gd.efiPartition = false)
    (htext : gd.partitions = partitionText partitions) :
    flashPartitionStringEmmc partitions m buffer = some (flashPartitionString gd m buffer) := by
  rw [h, flashPartitionString, hefi, htext]
  rfl

end Join

/-- `"uboot"`, which is left out, and `"ramdisk_recovery"` at block 0x12000. -/
def uboot : NamedRange := ⟨0x200, 0, 0x100, ⟨[117, 98, 111, 111, 116], by decide⟩⟩
def ramdiskRecovery : NamedRange :=
  ⟨0x200, 0x12000, 0x800,
    ⟨[114, 97, 109, 100, 105, 115, 107, 95, 114, 101, 99, 111, 118, 101, 114, 121], by decide⟩⟩

/-- The entry has 30 characters: its NUL does not fit. -/
theorem ramdiskRecovery_overruns_temp : ¬ ∀ (partitions : List NamedRange) (m : Mem)
    (buffer : ℕ), StringRight partitions m buffer := by
  intro hall
  have hright := hall [uboot, ramdiskRecovery] (fun _ => 0) 0
  rw [StringRight, flashPartitionStringEmmc] at hright
  simp only [List.tail_cons, joinEntries_none ⟨ramdiskRecovery, List.mem_singleton_self _,
    by decide⟩ lcpartHeader] at hright
  cases hright

end UBoot.Board
