import UBoot.Library.LittleEndian

/-!
# Packed structures in a byte store

A packed structure is a byte store with little-endian fields at fixed offsets. What
is put in a field is read back from it, and from no field apart from it.
-/
namespace ByteStore

/-- A little-endian number of `len` bytes at offset `off`. -/
structure Field where
  off : ℕ
  len : ℕ

namespace Field
variable (f g : Field) (m : Mem) (v : ℕ)

def get : ℕ := fetch m f.off f.len

def put : Mem := overlay m f.off f.len (digits v)

/-- The two fields share no byte. -/
def Apart : Prop := f.off + f.len ≤ g.off ∨ g.off + g.len ≤ f.off

instance : Decidable (Apart f g) := inferInstanceAs (Decidable (_ ∨ _))

theorem get_lt : f.get m < 256 ^ f.len := fetch_lt m f.off f.len

/-- A field is read from its own bytes only. -/
theorem get_congr {m m' : Mem} (h : ∀ i, f.off ≤ i → i < f.off + f.len → m i = m' i) :
    f.get m = f.get m' := by
  apply fetch_congr
  intro i hi
  exact h (f.off + i) (by omega) (by omega)

@[simp] theorem get_put : f.get (f.put m v) = v % 256 ^ f.len := by
  apply fetch_digits
  intro i hi
  exact overlay_add m (digits v) hi

theorem get_overlay {addr len : ℕ} (src : Mem)
    (h : f.off + f.len ≤ addr ∨ addr + len ≤ f.off) : f.get (overlay m addr len src) = f.get m := by
  apply get_congr
  intro i h₁ h₂
  exact overlay_of_not_mem m src (by omega)

theorem get_put_of_apart (h : f.Apart g) : f.get (g.put m v) = f.get m :=
  f.get_overlay m (digits v) h

end Field

/-- The `n` bytes from `off` on. -/
def slice (m : Mem) (off n : ℕ) : List UInt8 := (List.range n).map fun i => m (off + i)

@[simp] theorem length_slice (m : Mem) (off n : ℕ) : (slice m off n).length = n := by
  simp [slice]

theorem getElem_slice (m : Mem) {off n i : ℕ} (h : i < (slice m off n).length) :
    (slice m off n)[i] = m (off + i) := by
  simp [slice]

theorem slice_congr {m m' : Mem} {off off' n : ℕ} (h : ∀ i < n, m (off + i) = m' (off' + i)) :
    slice m off n = slice m' off' n := by
  apply List.map_congr_left
  intro i hi
  exact h i (List.mem_range.mp hi)

theorem slice_succ (m : Mem) (off n : ℕ) :
    slice m off (n + 1) = slice m off n ++ [m (off + n)] := by
  simp [slice, List.range_succ]

theorem slice_add (m : Mem) (off j k : ℕ) :
    slice m off (j + k) = slice m off j ++ slice m (off + j) k := by
  rw [slice, List.range_add, List.map_append, List.map_map]
  refine congrArg (slice m off j ++ ·) (List.map_congr_left fun i _ => ?_)
  rw [Function.comp_apply, Nat.add_assoc]

theorem slice_ofList (l : List UInt8) : slice (ofList l) 0 l.length = l := by
  apply List.ext_getElem (length_slice _ _ _)
  intro i hi hi'
  rw [getElem_slice, Nat.zero_add, ofList, List.getD_eq_getElem?_getD]
  simp [hi']

/-- Bytes laid over a store are found there. -/
theorem slice_overlay (m : Mem) (off : ℕ) (l : List UInt8) :
    slice (overlay m off l.length (ofList l)) off l.length = l := by
  calc slice (overlay m off l.length (ofList l)) off l.length
      = slice (ofList l) 0 l.length := by
        apply slice_congr
        intro i hi
        rw [overlay_add m (ofList l) hi, Nat.zero_add]
    _ = l := slice_ofList l

theorem slice_advance (m : Mem) (k n : ℕ) : slice (advance m k) 0 n = slice m k n := by
  apply slice_congr
  intro i _
  rw [advance_apply, Nat.zero_add]

/-- Two parts that stand one behind the other are found one behind the other. -/
theorem slice_eq_append {m : Mem} {off n : ℕ} {front back : List UInt8}
    (h : slice m off n = front ++ back) : slice m off front.length = front ∧
      slice m (off + front.length) back.length = back := by
  have hlen := congrArg List.length h
  rw [length_slice, List.length_append] at hlen
  rw [hlen, slice_add] at h
  exact List.append_inj h (length_slice _ _ _)

/-- The bytes of a field are those of its number. -/
theorem slice_eq_leBytes (m : Mem) (off n : ℕ) : slice m off n = leBytes n (fetch m off n) := by
  induction n generalizing off with
  | zero => rfl
  | succ n ih =>
    have hbyte (v : ℕ) : UInt8.ofNat ((m off).toNat + 256 * v) = m off := by
      apply UInt8.toNat_inj.mp
      simp
    have hrest : leBytes 1 ((m off).toNat + 256 * fetch m (off + 1) n) = [m off] := by
      simp [leBytes, digits, hbyte]
    have hdiv : ((m off).toNat + 256 * fetch m (off + 1) n) / 256 ^ 1 = fetch m (off + 1) n := by
      have := (m off).toNat_lt
      omega
    rw [Nat.add_comm n 1, slice_add, ih, Nat.add_comm 1 n, fetch, Nat.add_comm n 1, leBytes_add,
      hrest, hdiv]
    simp [slice]

/-- The place of a field whose number is known. -/
theorem Field.slice_of_get {f : Field} {m : Mem} {v : ℕ} (h : f.get m = v) :
    slice m f.off f.len = leBytes f.len v := by
  rw [slice_eq_leBytes]
  exact congrArg (leBytes f.len) h

/-- A slice of whole elements is one element after another. -/
theorem slice_mul (m : Mem) (size n : ℕ) : slice m 0 (n * size) =
    (List.range n).flatMap fun i => slice m (size * i) size := by
  induction n with
  | zero => simp [slice]
  | succ n ih =>
    rw [Nat.succ_mul, slice_add, ih, List.range_succ, List.flatMap_append, Nat.zero_add,
      Nat.mul_comm n size]
    simp

theorem fetch_of_slice {m : Mem} {off n v : ℕ} (h : slice m off n = leBytes n v) :
    fetch m off n = v % 256 ^ n := by
  apply fetch_digits
  intro i hi
  have hi' : i < (slice m off n).length := by simpa using hi
  have hget := getElem_slice m hi'
  simp only [h] at hget
  rw [← hget]
  simp [leBytes]

end ByteStore
