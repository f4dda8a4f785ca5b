import Mathlib.Tactic

/-!
# Fields of a register

A field is put into a register by clearing its bits and adding the value's. A value that fits
the field is read back, and all bits outside the field stay; a value that does not fit runs
over into the bits above. Under a mask, the value's bits outside the field are dropped.
-/
namespace BitField
variable {n : ℕ}

/-- The number in `width` bits from `bit` on. -/
def get (w : BitVec n) (bit width : ℕ) : ℕ := (w.extractLsb' bit width).toNat

/-- Clear the field, then add the bits of the value. -/
def put (w : BitVec n) (bit width : ℕ) (v : BitVec n) : BitVec n :=
  w &&& ~~~((1#n <<< width - 1#n) <<< bit) ||| v <<< bit

theorem get_lt (w : BitVec n) (bit width : ℕ) : get w bit width < 2 ^ width :=
  (w.extractLsb' bit width).isLt

theorem testBit_get (w : BitVec n) (bit width i : ℕ) :
    (get w bit width).testBit i = (decide (i < width) && w.getLsbD (bit + i)) := by
  rw [get, BitVec.testBit_toNat, BitVec.getLsbD_extractLsb']

/-- The mask below a field's upper end. -/
theorem getLsbD_mask {width i : ℕ} (hw : width < n) :
    (1#n <<< width - 1#n).getLsbD i = decide (i < width) := by
  have hpos : 0 < 2 ^ width := Nat.two_pow_pos width
  have hlt : 2 ^ width < 2 ^ n := Nat.pow_lt_pow_right (by decide) hw
  have hone : (1#n).toNat = 1 := by
    rw [BitVec.toNat_ofNat, Nat.mod_eq_of_lt (by omega)]
  have hshift : (1#n <<< width).toNat = 2 ^ width := by
    rw [BitVec.toNat_shiftLeft, hone, Nat.one_shiftLeft, Nat.mod_eq_of_lt hlt]
  have hval : (1#n <<< width - 1#n).toNat = 2 ^ width - 1 := by
    rw [BitVec.toNat_sub_of_le, hshift, hone]
    rw [BitVec.le_def, hshift, hone]
    exact hpos
  rw [← BitVec.testBit_toNat, hval, Nat.testBit_two_pow_sub_one]

theorem getLsbD_put (w v : BitVec n) {bit width i : ℕ} (hw : width < n) (hi : i < n) :
    (put w bit width v).getLsbD i =
      ((w.getLsbD i && !decide (bit ≤ i ∧ i < bit + width)) ||
        (decide (bit ≤ i) && v.getLsbD (i - bit))) := by
  rw [put, BitVec.getLsbD_or, BitVec.getLsbD_and, BitVec.getLsbD_not, BitVec.getLsbD_shiftLeft,
    BitVec.getLsbD_shiftLeft, getLsbD_mask hw, decide_eq_true hi]
  by_cases hlow : bit ≤ i
  · rw [decide_eq_false (not_lt.mpr hlow), decide_eq_true hlow]
    by_cases hhigh : i < bit + width
    · rw [decide_eq_true (show i - bit < width by omega), decide_eq_true ⟨hlow, hhigh⟩]
      simp
    · rw [decide_eq_false (show ¬ i - bit < width by omega), decide_eq_false fun h => hhigh h.2]
      simp
  · rw [decide_eq_true (not_le.mp hlow), decide_eq_false hlow,
      decide_eq_false (show ¬ (bit ≤ i ∧ i < bit + width) from fun h => hlow h.1)]
    simp

/-- A value that fits has no bit above its field. -/
theorem getLsbD_of_fits {v : BitVec n} {width i : ℕ} (hv : v.toNat < 2 ^ width) (hi : width ≤ i) :
    v.getLsbD i = false := by
  rw [← BitVec.testBit_toNat]
  exact Nat.testBit_lt_two_pow (hv.trans_le (Nat.pow_le_pow_right Nat.two_pos hi))

theorem getLsbD_put_outside (w : BitVec n) {v : BitVec n} {bit width i : ℕ} (hw : width < n)
    (hi : i < n) (hv : v.toNat < 2 ^ width) (hout : i < bit ∨ bit + width ≤ i) :
    (put w bit width v).getLsbD i = w.getLsbD i := by
  have hkeep : decide (bit ≤ i ∧ i < bit + width) = false := decide_eq_false (by omega)
  rw [getLsbD_put w v hw hi, hkeep]
  rcases hout with hlow | hhigh
  · rw [decide_eq_false (not_le.mpr hlow)]
    simp
  · rw [getLsbD_of_fits hv (show width ≤ i - bit by omega)]
    simp

/-- A value that fits is read back. -/
theorem get_put (w : BitVec n) {v : BitVec n} {bit width : ℕ} (hw : width < n)
    (hn : bit + width ≤ n) (hv : v.toNat < 2 ^ width) :
    get (put w bit width v) bit width = v.toNat := by
  refine Nat.eq_of_testBit_eq fun i => ?_
  rw [testBit_get, BitVec.testBit_toNat]
  by_cases hi : i < width
  · rw [getLsbD_put w v hw (by omega), decide_eq_true hi,
      decide_eq_true (show bit ≤ bit + i ∧ bit + i < bit + width by omega),
      decide_eq_true (Nat.le_add_right bit i), Nat.add_sub_cancel_left]
    simp
  · rw [decide_eq_false hi, getLsbD_of_fits hv (not_lt.mp hi), Bool.false_and]

/-- A field apart from the one that is put keeps its value. -/
theorem get_put_of_apart (w : BitVec n) {v : BitVec n} {bit width bit' width' : ℕ}
    (hw : width < n) (hv : v.toNat < 2 ^ width) (hn : bit' + width' ≤ n)
    (hapart : bit' + width' ≤ bit ∨ bit + width ≤ bit') :
    get (put w bit width v) bit' width' = get w bit' width' := by
  refine Nat.eq_of_testBit_eq fun i => ?_
  rw [testBit_get, testBit_get]
  by_cases hi : i < width'
  · rw [getLsbD_put_outside w hw (by omega) hv (by omega)]
  · rw [decide_eq_false hi, Bool.false_and, Bool.false_and]

/-- The bits of `v` under the mask, those of `w` elsewhere. -/
def replace (w mask v : BitVec n) : BitVec n := w &&& ~~~mask ||| v &&& mask

/-- The mask has the bits of the field, and no other. -/
def Covers (mask : BitVec n) (bit width : ℕ) : Prop :=
  ∀ i, mask.getLsbD i = decide (bit ≤ i ∧ i < bit + width)

theorem getLsbD_replace (w mask v : BitVec n) (i : ℕ) :
    (replace w mask v).getLsbD i = if mask.getLsbD i then v.getLsbD i else w.getLsbD i := by
  rw [replace, BitVec.getLsbD_or, BitVec.getLsbD_and, BitVec.getLsbD_and, BitVec.getLsbD_not]
  by_cases hi : i < n
  · cases mask.getLsbD i <;> simp [hi]
  · have hw : w.getLsbD i = false := BitVec.getLsbD_of_ge w i (not_lt.mp hi)
    have hmask : mask.getLsbD i = false := BitVec.getLsbD_of_ge mask i (not_lt.mp hi)
    simp [hw, hmask]

theorem getLsbD_replace_outside {mask : BitVec n} {bit width i : ℕ} (h : Covers mask bit width)
    (w v : BitVec n) (hout : i < bit ∨ bit + width ≤ i) :
    (replace w mask v).getLsbD i = w.getLsbD i := by
  have hmask : mask.getLsbD i = false := by
    rw [h i]
    exact decide_eq_false (by omega)
  rw [getLsbD_replace, hmask]
  rfl

/-- A value that fits its field is read back from under the mask. -/
theorem get_replace {mask : BitVec n} {bit width : ℕ} (h : Covers mask bit width)
    (w : BitVec n) {v : BitVec n} (hv : v.toNat < 2 ^ width) :
    get (replace w mask (v <<< bit)) bit width = v.toNat := by
  refine Nat.eq_of_testBit_eq fun i => ?_
  rw [testBit_get, BitVec.testBit_toNat]
  by_cases hi : i < width
  · have hmask : mask.getLsbD (bit + i) = true := by
      rw [h]
      exact decide_eq_true (by omega)
    have hn : bit + i < n := BitVec.lt_of_getLsbD hmask
    rw [decide_eq_true hi, getLsbD_replace, hmask, BitVec.getLsbD_shiftLeft]
    simp [hn]
  · rw [decide_eq_false hi, getLsbD_of_fits hv (not_lt.mp hi), Bool.false_and]

/-- A field apart from the mask keeps its value. -/
theorem get_replace_of_apart {mask : BitVec n} {bit width bit' width' : ℕ}
    (h : Covers mask bit width) (w v : BitVec n)
    (hapart : bit' + width' ≤ bit ∨ bit + width ≤ bit') :
    get (replace w mask v) bit' width' = get w bit' width' := by
  refine Nat.eq_of_testBit_eq fun i => ?_
  rw [testBit_get, testBit_get]
  by_cases hi : i < width'
  · rw [getLsbD_replace_outside h w v (by omega)]
  · rw [decide_eq_false hi, Bool.false_and, Bool.false_and]

end BitField
