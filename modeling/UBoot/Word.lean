import Mathlib.Tactic

/-!
# Machine words

The sources compute in `ulong` and `uint` (32 bits on this target) and in `u64`.
Words are natural numbers here, and every operation that can wrap says so.
-/
namespace UBoot

/-- A value stored in a 32-bit variable. -/
def u32 (n : ℕ) : ℕ := n % 2 ^ 32

/-- A value stored in a 64-bit variable. -/
def u64 (n : ℕ) : ℕ := n % 2 ^ 64

theorem u32_of_lt {n : ℕ} (h : n < 2 ^ 32) : u32 n = n := Nat.mod_eq_of_lt h

theorem u64_of_lt {n : ℕ} (h : n < 2 ^ 64) : u64 n = n := Nat.mod_eq_of_lt h

theorem u32_lt (n : ℕ) : u32 n < 2 ^ 32 := Nat.mod_lt _ (by norm_num)

theorem u64_lt (n : ℕ) : u64 n < 2 ^ 64 := Nat.mod_lt _ (by norm_num)

theorem u32_le (n : ℕ) : u32 n ≤ n := Nat.mod_le _ _

/-- A block or an erase group of the boards below is a word. -/
theorem lt_word {n : ℕ} (h : n ≤ 1024) : n < 2 ^ 32 := by omega

theorem sector_pos : 0 < 512 := by norm_num

theorem sector_lt_word : 512 < 2 ^ 32 := lt_word (by norm_num)

theorem byte_lt_word : 1 < 2 ^ 32 := lt_word (by norm_num)

/-- Whole blocks needed for `n` bytes, as the drivers round up. -/
def blocksUp (n bl : ℕ) : ℕ := if n % bl ≠ 0 then n / bl + 1 else n / bl

theorem le_blocksUp_mul (n : ℕ) {bl : ℕ} (h : 0 < bl) : n ≤ blocksUp n bl * bl := by
  have hd := Nat.div_add_mod n bl
  have hm := Nat.mod_lt n h
  have hc : bl * (n / bl) = n / bl * bl := Nat.mul_comm _ _
  unfold blocksUp
  split_ifs with hr
  · rw [Nat.add_mul]; omega
  · omega

theorem blocksUp_mul_lt (n : ℕ) {bl : ℕ} (h : 0 < bl) : blocksUp n bl * bl < n + bl := by
  have hd := Nat.div_add_mod n bl
  have hc : bl * (n / bl) = n / bl * bl := Nat.mul_comm _ _
  unfold blocksUp
  split_ifs with hr
  · rw [Nat.add_mul]; omega
  · omega

/-- The rounded count covers the bytes and the padding of the last block. -/
theorem blocksUp_mul_eq (n : ℕ) {bl : ℕ} (h : 0 < bl) :
    blocksUp n bl * bl = n + if n % bl = 0 then 0 else bl - n % bl := by
  have hd := Nat.div_add_mod n bl
  have hm := Nat.mod_lt n h
  have hc : bl * (n / bl) = n / bl * bl := Nat.mul_comm _ _
  unfold blocksUp
  by_cases hr : n % bl = 0
  · simp only [hr, ne_eq, not_true_eq_false, if_false, if_true]
    omega
  · simp only [hr, ne_eq, not_false_eq_true, if_true, if_false, Nat.add_mul]
    omega

/-- The rounded count is the least number of blocks that hold the bytes. -/
theorem blocksUp_mul_add {bl : ℕ} (h : 0 < bl) (k n : ℕ) :
    blocksUp (bl * k + n) bl = k + blocksUp n bl := by
  unfold blocksUp
  rw [Nat.mul_add_mod, Nat.mul_add_div h]
  split <;> omega

theorem blocksUp_le_iff (n k : ℕ) {bl : ℕ} (h : 0 < bl) : blocksUp n bl ≤ k ↔ n ≤ k * bl := by
  constructor
  · intro hk
    exact (le_blocksUp_mul n h).trans (Nat.mul_le_mul_right bl hk)
  · intro hn
    by_contra hk
    have h1 : (k + 1) * bl ≤ blocksUp n bl * bl := Nat.mul_le_mul_right bl (by omega)
    have h2 := blocksUp_mul_lt n h
    rw [Nat.add_mul] at h1
    omega

theorem lt_blocksUp_iff (n k : ℕ) {bl : ℕ} (h : 0 < bl) : k < blocksUp n bl ↔ k * bl < n := by
  rw [← not_le, blocksUp_le_iff n k h, not_le]

theorem blocksUp_le_self (n : ℕ) {bl : ℕ} (h : 0 < bl) : blocksUp n bl ≤ n := by
  rw [blocksUp_le_iff n n h]
  exact Nat.le_mul_of_pos_right n h

theorem blocksUp_mono {bl m n : ℕ} (h : 0 < bl) (hmn : m ≤ n) : blocksUp m bl ≤ blocksUp n bl :=
  (blocksUp_le_iff m _ h).mpr (hmn.trans (le_blocksUp_mul n h))

@[simp] theorem blocksUp_zero (bl : ℕ) : blocksUp 0 bl = 0 := by simp [blocksUp]

end UBoot
