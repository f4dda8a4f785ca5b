import Mathlib.Tactic

/-!
# Byte stores and block overlays

A byte store is a total map from addresses to bytes. The only update is
`overlay`, which replaces one contiguous range by the bytes found from a source
pointer on. Reading a range back, and cutting one range into consecutive
pieces, are the two facts every block layer needs.
-/
namespace ByteStore

/-- Memory as it is seen from a pointer: the byte at each offset. -/
abbrev Mem := ℕ → UInt8

/-- The memory seen from a pointer advanced by `k`. -/
def advance (m : Mem) (k : ℕ) : Mem := fun i => m (k + i)

@[simp] theorem advance_apply (m : Mem) (k i : ℕ) : advance m k i = m (k + i) := rfl

@[simp] theorem advance_zero (m : Mem) : advance m 0 = m := by
  funext i
  simp

theorem advance_advance (m : Mem) (j k : ℕ) : advance (advance m j) k = advance m (j + k) := by
  funext i
  simp [Nat.add_assoc]

/-- Replace the `len` bytes from address `addr` on by the bytes of `src`. -/
def overlay (base : Mem) (addr len : ℕ) (src : Mem) : Mem := fun a =>
  if addr ≤ a ∧ a < addr + len then src (a - addr) else base a

theorem overlay_of_mem (base src : Mem) {addr len a : ℕ} (h₁ : addr ≤ a) (h₂ : a < addr + len) :
    overlay base addr len src a = src (a - addr) := if_pos ⟨h₁, h₂⟩

theorem overlay_of_not_mem (base src : Mem) {addr len a : ℕ} (h : ¬ (addr ≤ a ∧ a < addr + len)) :
    overlay base addr len src a = base a := if_neg h

@[simp] theorem overlay_zero (base src : Mem) (addr : ℕ) : overlay base addr 0 src = base := by
  funext a
  exact overlay_of_not_mem _ _ (by omega)

/-- A byte of the range, named by its offset. -/
theorem overlay_add (base src : Mem) {addr len k : ℕ} (h : k < len) :
    overlay base addr len src (addr + k) = src k := by
  rw [overlay_of_mem _ _ (Nat.le_add_right _ _) (by omega), Nat.add_sub_cancel_left]

theorem overlay_congr (base : Mem) {addr len : ℕ} {src src' : Mem} (h : ∀ i < len, src i = src' i) :
    overlay base addr len src = overlay base addr len src' := by
  funext a
  unfold overlay
  split
  · exact h _ (by omega)
  · rfl

/-- One more byte. -/
theorem update_overlay (base src : Mem) (addr k : ℕ) :
    Function.update (overlay base addr k src) (addr + k) (src k) =
      overlay base addr (k + 1) src := by
  funext a
  by_cases ha : a = addr + k
  · rw [ha, Function.update_self, overlay_add _ _ (Nat.lt_succ_self k)]
  · rw [Function.update_of_ne ha]
    unfold overlay
    by_cases hin : addr ≤ a ∧ a < addr + k
    · rw [if_pos hin, if_pos (by omega)]
    · rw [if_neg hin, if_neg (by omega)]

/-- Writing a range in two consecutive pieces is writing it at once. -/
theorem overlay_append (base src : Mem) (addr m n : ℕ) :
    overlay (overlay base addr m src) (addr + m) n (advance src m) =
      overlay base addr (m + n) src := by
  funext a
  simp only [overlay, advance]
  by_cases h : addr + m ≤ a ∧ a < addr + m + n
  · rw [if_pos h, if_pos (by omega), show m + (a - (addr + m)) = a - addr by omega]
  · rw [if_neg h]
    by_cases h' : addr ≤ a ∧ a < addr + m
    · rw [if_pos h', if_pos (by omega)]
    · rw [if_neg h', if_neg (by omega)]

end ByteStore
