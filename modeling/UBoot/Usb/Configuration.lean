import UBoot.Library.PackedField

/-!
# Configuration descriptors

`usb_gadget_config_buf` of `drivers/usb/gadget/config.c` copies a header and the descriptors of
the interfaces behind one another into the buffer of a control transfer. A host that takes the
answer apart by the length in front of each finds the same descriptors.
-/
namespace UBoot.Usb
open ByteStore

def usbDtConfigSize : ℕ := 9
def usbDtConfig : UInt8 := 2
def usbConfigAttOne : UInt8 := 0x80

/-- `bLength` of the descriptor that a pointer leads to. -/
def bLength (desc : Mem) : ℕ := (desc 0).toNat

/-- The bytes that `bLength` counts. -/
def descBytes (desc : Mem) : List UInt8 := slice desc 0 (bLength desc)

/-- `usb_descriptor_fillbuf` with the buffer from `dest` on: the length, `none` for an error. -/
def usbDescriptorFillbuf (buf : Mem) (dest buflen : ℕ) : List Mem → Option ℕ × Mem
  | [] => (some 0, buf)
  | desc :: src =>
    let len := bLength desc
    if len > buflen then (none, buf)
    else
      let r := usbDescriptorFillbuf (overlay buf dest len desc) (dest + len) (buflen - len) src
      (r.1.map (len + ·), r.2)

/-- `cp->wTotalLength` and the other fields that are patched up. -/
def patchConfig (buf : Mem) (len : ℕ) : Mem :=
  let buf := Function.update (Function.update buf 0 (UInt8.ofNat usbDtConfigSize)) 1 usbDtConfig
  let buf := overlay buf 2 2 (digits len)
  Function.update buf 7 (buf 7 ||| usbConfigAttOne)

/-- `usb_gadget_config_buf`: the length, `none` for an error, and the buffer. -/
def usbGadgetConfigBuf (config buf : Mem) (length : ℕ) (desc : List Mem) : Option ℕ × Mem :=
  if length < usbDtConfigSize then (none, buf)
  else
    match usbDescriptorFillbuf (overlay buf 0 usbDtConfigSize config) usbDtConfigSize
      (length - usbDtConfigSize) desc with
    | (none, buf) => (none, buf)
    | (some len, buf) =>
      if len + usbDtConfigSize > 0xffff then (none, buf)
      else (some (len + usbDtConfigSize), patchConfig buf (len + usbDtConfigSize))

/-- The descriptors one behind the other. -/
def descsBytes (desc : List Mem) : List UInt8 := desc.flatMap descBytes

theorem length_descBytes (desc : Mem) : (descBytes desc).length = bLength desc := length_slice ..

theorem slice_of_before {buf buf' : Mem} {dest off n : ℕ} (h : ∀ i < dest, buf' i = buf i)
    (hle : off + n ≤ dest) : slice buf' off n = slice buf off n := by
  apply slice_congr
  intro i hi
  exact h _ (by omega)

/-- The copies succeed if and only if all of them fit; nothing is stored outside the part of
the buffer that they take. -/
theorem usbDescriptorFillbuf_spec (src : List Mem) (buf : Mem) (dest buflen : ℕ) :
    (usbDescriptorFillbuf buf dest buflen src).1 =
        (if (descsBytes src).length ≤ buflen then some (descsBytes src).length else none) ∧
      (∀ i, i < dest ∨ dest + buflen ≤ i → (usbDescriptorFillbuf buf dest buflen src).2 i = buf i) ∧
      ((descsBytes src).length ≤ buflen →
        slice (usbDescriptorFillbuf buf dest buflen src).2 dest (descsBytes src).length =
          descsBytes src) := by
  induction src generalizing buf dest buflen with
  | nil => exact ⟨rfl, fun i _ => rfl, fun _ => rfl⟩
  | cons desc src ih =>
    have hbytes : descsBytes (desc :: src) = descBytes desc ++ descsBytes src := rfl
    have hlen := length_descBytes desc
    rw [hbytes, List.length_append, hlen, usbDescriptorFillbuf]
    by_cases hfit : bLength desc > buflen
    · rw [if_pos hfit, if_neg (by omega)]
      exact ⟨rfl, fun i _ => rfl, fun h => by omega⟩
    · rw [if_neg hfit]
      dsimp only
      obtain ⟨hret, hkept, hcopied⟩ := ih (overlay buf dest (bLength desc) desc)
        (dest + bLength desc) (buflen - bLength desc)
      refine ⟨?_, ?_, ?_⟩
      · rw [hret]
        by_cases hrest : (descsBytes src).length ≤ buflen - bLength desc
        · rw [if_pos hrest, if_pos (by omega), Option.map_some]
        · rw [if_neg hrest, if_neg (by omega), Option.map_none]
      · intro i hi
        rw [hkept i (by omega)]
        exact overlay_of_not_mem _ _ (by omega)
      · intro hle
        rw [slice_add, hcopied (by omega), slice_of_before (fun i hi => hkept i (.inl hi)) le_rfl]
        congr 1
        refine (slice_congr fun i hi => ?_).trans (slice_advance desc 0 _)
        rw [overlay_add _ _ hi, advance_apply, Nat.zero_add, Nat.zero_add]

/-- The header as it is patched up. -/
def patchedHeader (config : Mem) (len : ℕ) : List UInt8 :=
  [9, usbDtConfig] ++ leBytes 2 len ++ slice config 4 3 ++ [config 7 ||| usbConfigAttOne, config 8]

theorem patchConfig_of_le (buf : Mem) (len : ℕ) {i : ℕ} (hi : 9 ≤ i) :
    patchConfig buf len i = buf i := by
  unfold patchConfig
  rw [Function.update_of_ne (by omega), overlay_of_not_mem _ _ (by omega),
    Function.update_of_ne (by omega), Function.update_of_ne (by omega)]

theorem slice_patchConfig {buf config : Mem} (len : ℕ) (h : ∀ i < 9, buf i = config i) :
    slice (patchConfig buf len) 0 9 = patchedHeader config len := by
  have hheader : slice (patchConfig buf len) 0 9 = patchedHeader buf len := by
    simp [slice, List.range_succ, patchConfig, patchedHeader, leBytes, overlay, Function.update,
      usbDtConfigSize]
  have hkept : slice buf 4 3 = slice config 4 3 := by
    apply slice_congr
    intro i hi
    exact h _ (by omega)
  rw [hheader, patchedHeader, patchedHeader, hkept, h 7 (by norm_num), h 8 (by norm_num)]

/-- The answer is the header, with the total length in it, and the descriptors; there is none
if they do not fit the buffer or the field for the length. -/
theorem usbGadgetConfigBuf_eq (config buf : Mem) (length : ℕ) (desc : List Mem) :
    (usbGadgetConfigBuf config buf length desc).1.map
        (fun n => slice (usbGadgetConfigBuf config buf length desc).2 0 n) =
      if 9 + (descsBytes desc).length ≤ min length 0xffff then
        some (patchedHeader config (9 + (descsBytes desc).length) ++ descsBytes desc)
      else none := by
  unfold usbGadgetConfigBuf usbDtConfigSize
  by_cases hshort : length < 9
  · rw [if_pos hshort, if_neg (by omega)]
    rfl
  rw [if_neg hshort]
  obtain ⟨hret, hkept, hcopied⟩ :=
    usbDescriptorFillbuf_spec desc (overlay buf 0 9 config) 9 (length - 9)
  generalize usbDescriptorFillbuf (overlay buf 0 9 config) 9 (length - 9) desc = r at *
  obtain ⟨ret, buf'⟩ := r
  dsimp only at hret hkept hcopied
  by_cases hfit : (descsBytes desc).length ≤ length - 9
  · rw [if_pos hfit] at hret
    subst hret
    dsimp only
    rw [Nat.add_comm _ 9]
    by_cases hfield : 9 + (descsBytes desc).length > 0xffff
    · rw [if_pos hfield, if_neg (by omega)]
      rfl
    · have hheader : ∀ i < 9, buf' i = config i := by
        intro i hi
        rw [hkept i (.inl hi)]
        exact overlay_of_mem _ _ (Nat.zero_le i) (by omega)
      have htail : slice (patchConfig buf' (9 + (descsBytes desc).length)) 9
          (descsBytes desc).length = descsBytes desc := by
        refine Eq.trans (slice_congr fun i _ => ?_) (hcopied hfit)
        exact patchConfig_of_le _ _ (Nat.le_add_right 9 i)
      rw [if_neg hfield, if_pos (by omega), Option.map_some, slice_add, slice_patchConfig _ hheader,
        Nat.zero_add, htail]
  · rw [if_neg hfit] at hret
    subst hret
    rw [if_neg (by omega)]
    rfl

/-- A configuration taken apart, each descriptor by the length it begins with; `none` if one
goes over the end. -/
def splitDescriptors : ℕ → List UInt8 → Option (List (List UInt8))
  | _, [] => some []
  | 0, _ :: _ => none
  | fuel + 1, b :: bs =>
    if b.toNat < 2 ∨ bs.length + 1 < b.toNat then none
    else
      (splitDescriptors fuel ((b :: bs).drop b.toNat)).map fun rest =>
        (b :: bs).take b.toNat :: rest

/-- A descriptor begins with its length, which counts at least the length and the type. -/
def IsDescriptor (d : List UInt8) : Prop := 2 ≤ d.length ∧ ∃ b bs, d = b :: bs ∧ b.toNat = d.length

/-- Descriptors one behind the other are found again. -/
theorem splitDescriptors_flatten {ds : List (List UInt8)} (h : ∀ d ∈ ds, IsDescriptor d)
    {fuel : ℕ} (hfuel : ds.length ≤ fuel) : splitDescriptors fuel ds.flatten = some ds := by
  induction ds generalizing fuel with
  | nil => cases fuel <;> rfl
  | cons d ds ih =>
    obtain ⟨fuel, rfl⟩ : ∃ k, fuel = k + 1 := ⟨fuel - 1, by rw [List.length_cons] at hfuel; omega⟩
    obtain ⟨htwo, b, bs, rfl, hb⟩ := h d (List.mem_cons_self ..)
    have hrest := ih (fun d hd => h d (List.mem_cons_of_mem _ hd)) (Nat.le_of_succ_le_succ hfuel)
    have hlen : (b :: bs).length = bs.length + 1 := rfl
    have hshape : ((b :: bs) :: ds).flatten = b :: (bs ++ ds.flatten) := rfl
    have happ : b :: (bs ++ ds.flatten) = (b :: bs) ++ ds.flatten := rfl
    rw [hshape, splitDescriptors, if_neg (by rw [List.length_append]; omega), happ, hb,
      List.drop_left, List.take_left, hrest, Option.map_some]

theorem isDescriptor_descBytes {desc : Mem} (h : 2 ≤ bLength desc) :
    IsDescriptor (descBytes desc) := by
  have hlen := length_descBytes desc
  refine ⟨by omega, desc 0, slice desc 1 (bLength desc - 1), ?_, hlen.symm⟩
  have hsplit : bLength desc = 1 + (bLength desc - 1) := by omega
  rw [descBytes]
  conv_lhs => rw [hsplit, slice_add]
  rfl

theorem isDescriptor_patchedHeader (config : Mem) (len : ℕ) :
    IsDescriptor (patchedHeader config len) := by
  have hlen : (patchedHeader config len).length = 9 := by simp [patchedHeader, leBytes]
  exact ⟨by rw [hlen]; norm_num, 9, (patchedHeader config len).tail, rfl, by rw [hlen]; rfl⟩

theorem length_mul_two_le {desc : List Mem} (hdesc : ∀ d ∈ desc, 2 ≤ bLength d) :
    desc.length * 2 ≤ (descsBytes desc).length := by
  induction desc with
  | nil => exact le_rfl
  | cons d desc ih =>
    have hd := hdesc d (List.mem_cons_self ..)
    have hrest := ih fun d hd => hdesc d (List.mem_cons_of_mem _ hd)
    rw [descsBytes, List.flatMap_cons, List.length_append, length_descBytes, ← descsBytes,
      List.length_cons]
    omega

/-- What a host makes of the answer: the header, with the length of the whole, and then every
descriptor as it is. There is an answer exactly if all of it fits. -/
theorem usbGadgetConfigBuf_split {desc : List Mem} (hdesc : ∀ d ∈ desc, 2 ≤ bLength d)
    (config buf : Mem) (length : ℕ) :
    (usbGadgetConfigBuf config buf length desc).1.map
        (fun n => splitDescriptors n (slice (usbGadgetConfigBuf config buf length desc).2 0 n)) =
      if 9 + (descsBytes desc).length ≤ min length 0xffff then
        some (some (patchedHeader config (9 + (descsBytes desc).length) :: desc.map descBytes))
      else none := by
  have heq := usbGadgetConfigBuf_eq config buf length desc
  by_cases hfit : 9 + (descsBytes desc).length ≤ min length 0xffff
  · rw [if_pos hfit] at heq ⊢
    obtain ⟨n, hret, hbytes⟩ := Option.map_eq_some_iff.mp heq
    have hlen := congrArg List.length hbytes
    have hheader : (patchedHeader config (9 + (descsBytes desc).length)).length = 9 := by
      simp [patchedHeader, leBytes]
    have hcount := length_mul_two_le hdesc
    have hflat : patchedHeader config (9 + (descsBytes desc).length) ++ descsBytes desc =
        (patchedHeader config (9 + (descsBytes desc).length) :: desc.map descBytes).flatten := rfl
    rw [length_slice, List.length_append, hheader] at hlen
    rw [hret, Option.map_some, hbytes, hflat, splitDescriptors_flatten]
    · intro d hd
      obtain rfl | hd := List.mem_cons.mp hd
      · exact isDescriptor_patchedHeader config _
      · obtain ⟨desc, hmem, rfl⟩ := List.mem_map.mp hd
        exact isDescriptor_descBytes (hdesc desc hmem)
    · rw [List.length_cons, List.length_map]
      omega
  · rw [if_neg hfit] at heq ⊢
    rw [Option.map_eq_none_iff] at heq
    rw [heq, Option.map_none]

/-- An interface and an endpoint. -/
def twoDescriptors : List Mem :=
  [ofList [9, 4, 0, 0, 1, 0xff, 0x42, 3, 0], ofList [7, 5, 0x81, 2, 0, 2, 0]]

theorem usbGadgetConfigBuf_split_two :
    (usbGadgetConfigBuf (fun _ => 0) (fun _ => 0) 256 twoDescriptors).1.map
        (fun n => splitDescriptors n
          (slice (usbGadgetConfigBuf (fun _ => 0) (fun _ => 0) 256 twoDescriptors).2 0 n)) =
      some (some [[9, 2, 25, 0, 0, 0, 0, 128, 0], [9, 4, 0, 0, 1, 0xff, 0x42, 3, 0],
        [7, 5, 0x81, 2, 0, 2, 0]]) :=
  (usbGadgetConfigBuf_split (List.forall_mem_cons.mpr ⟨by decide,
    List.forall_mem_singleton.mpr (by decide)⟩) _ _ _).trans (by decide)

end UBoot.Usb
