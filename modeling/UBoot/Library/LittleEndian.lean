import UBoot.Library.ByteStore

/-!
# Little-endian numbers in a byte store

A field of `n` bytes is read with `fetch`. What is read depends on the `n` bytes
only, is below `256 ^ n`, and gives back what `digits` laid out there.
-/
namespace ByteStore

/-- The number in the `n` bytes from `off` on, lowest byte first. -/
def fetch (m : Mem) : ℕ → ℕ → ℕ
  | _, 0 => 0
  | off, n + 1 => (m off).toNat + 256 * fetch m (off + 1) n

/-- The bytes of a number, lowest first. -/
def digits (v : ℕ) : Mem := fun i => UInt8.ofNat (v / 256 ^ i)

/-- A field of `n` bytes, as a list. -/
def leBytes (n v : ℕ) : List UInt8 := (List.range n).map (digits v)

/-- The bytes of a list from address 0 on, zeros behind it. -/
def ofList (l : List UInt8) : Mem := fun i => l.getD i 0

theorem fetch_lt (m : Mem) (off n : ℕ) : fetch m off n < 256 ^ n := by
  induction n generalizing off with
  | zero => simp [fetch]
  | succ n ih =>
    have hb := (m off).toNat_lt
    have hr := ih (off + 1)
    rw [fetch, Nat.pow_succ]
    omega

/-- A field depends on its own bytes only. -/
theorem fetch_congr {m m' : Mem} {off n : ℕ} (h : ∀ i < n, m (off + i) = m' (off + i)) :
    fetch m off n = fetch m' off n := by
  induction n generalizing off with
  | zero => rfl
  | succ n ih =>
    have h0 := h 0 (Nat.succ_pos n)
    rw [fetch, fetch, ih, ← Nat.add_zero off, h0]
    intro i hi
    have := h (i + 1) (by omega)
    rwa [show off + (i + 1) = off + 1 + i by omega] at this

/-- The digits of a number that fits are read back. -/
theorem fetch_digits {m : Mem} {off n v : ℕ} (h : ∀ i < n, m (off + i) = digits v i) :
    fetch m off n = v % 256 ^ n := by
  induction n generalizing off v with
  | zero => simp [fetch, Nat.mod_one]
  | succ n ih =>
    have h0 : m off = digits v 0 := h 0 (Nat.succ_pos n)
    have hrest : fetch m (off + 1) n = v / 256 % 256 ^ n := by
      apply ih
      intro i hi
      rw [Nat.add_assoc, Nat.add_comm 1 i, h (i + 1) (by omega), digits, digits,
        Nat.div_div_eq_div_mul, ← Nat.pow_succ']
    have hbyte : (UInt8.ofNat v).toNat = v % 256 := by simp
    rw [fetch, h0, hrest, digits, Nat.pow_zero, Nat.div_one, hbyte, Nat.pow_succ',
      Nat.mod_mul]

@[simp] theorem length_leBytes (n v : ℕ) : (leBytes n v).length = n := by
  simp [leBytes]

theorem leBytes_add (m n v : ℕ) : leBytes (m + n) v = leBytes m v ++ leBytes n (v / 256 ^ m) := by
  rw [leBytes, List.range_add, List.map_append, List.map_map]
  refine congrArg (leBytes m v ++ ·) (List.map_congr_left fun i _ => ?_)
  rw [Function.comp_apply, digits, digits, Nat.div_div_eq_div_mul, pow_add]

end ByteStore
