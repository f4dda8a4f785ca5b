import Mathlib.Data.List.Basic
import Mathlib.Logic.Function.Iterate
import Mathlib.Tactic

/-!
# Shift registers with feedback

A register of `w` bits is shifted right once a bit, and the polynomial is added whenever a one
leaves it. Feeding bits is linear, and with the highest bit of the polynomial set every shift
can be undone; so two inputs that differ only within a window of `w` bits never leave the
register in the same state.
-/
namespace ShiftRegister

variable {w : ℕ} (poly : BitVec w)

/-- One shift. -/
def shift (c : BitVec w) : BitVec w :=
  if c.getLsbD 0 then poly ^^^ (c >>> 1) else c >>> 1

/-- One bit as a register. -/
def bit (b : Bool) : BitVec w := if b then 1#w else 0#w

/-- One bit of input. -/
def feedBit (c : BitVec w) (b : Bool) : BitVec w := shift poly (c ^^^ bit b)

/-- The register after some input. -/
def feed (c : BitVec w) (bits : List Bool) : BitVec w := bits.foldl (feedBit poly) c

theorem feed_append (c : BitVec w) (x y : List Bool) :
    feed poly c (x ++ y) = feed poly (feed poly c x) y := List.foldl_append

theorem feed_cons (c : BitVec w) (b : Bool) (x : List Bool) :
    feed poly c (b :: x) = feed poly (feedBit poly c b) x := rfl

theorem shift_xor (c d : BitVec w) : shift poly (c ^^^ d) = shift poly c ^^^ shift poly d := by
  unfold shift
  rw [BitVec.getLsbD_xor, BitVec.ushiftRight_xor_distrib]
  cases c.getLsbD 0 <;> cases d.getLsbD 0 <;> ext i hi <;> simp <;> grind

/-- Where the highest bit of the polynomial is set, it tells which shift was made. -/
theorem shift_eq_zero (hpoly : poly.msb = true) {c : BitVec w} (h : shift poly c = 0) : c = 0 := by
  have hw : 0 < w := by
    by_contra hw
    obtain rfl : w = 0 := by omega
    simp [BitVec.msb_eq_getLsbD_last] at hpoly
  unfold shift at h
  split_ifs at h with hlow
  · -- the polynomial is in the way
    have htop := congrArg (fun v => v.getLsbD (w - 1)) h
    rw [BitVec.msb_eq_getLsbD_last] at hpoly
    have hout : c.getLsbD (1 + (w - 1)) = false := BitVec.getLsbD_of_ge _ _ (by omega)
    simp [hpoly, hout] at htop
  · apply BitVec.eq_of_getLsbD_eq
    intro i hi
    cases i with
    | zero => simpa using hlow
    | succ i =>
      have hbit := congrArg (fun v => v.getLsbD i) h
      rw [Nat.add_comm]
      simpa using hbit

theorem shift_injective (hpoly : poly.msb = true) : Function.Injective (shift poly) := by
  intro c d h
  have hzero : shift poly (c ^^^ d) = 0#w := by rw [shift_xor, h, BitVec.xor_self]
  exact BitVec.xor_eq_zero_iff.mp (shift_eq_zero poly hpoly hzero)

/-- After the window, whatever follows keeps two states apart. -/
theorem feed_injective (hpoly : poly.msb = true) (x : List Bool) {c d : BitVec w}
    (h : feed poly c x = feed poly d x) : c = d := by
  induction x generalizing c d with
  | nil => exact h
  | cons b x ih =>
    have hstep := shift_injective poly hpoly (ih h)
    exact (BitVec.xor_left_inj _).mp hstep

/-- Bits in a register, the first one lowest. -/
def pack : List Bool → BitVec w
  | [] => 0
  | b :: bits => (pack bits <<< 1) ^^^ bit b

theorem getLsbD_pack (bits : List Bool) {i : ℕ} (hi : i < w) :
    (pack bits : BitVec w).getLsbD i = bits.getD i false := by
  induction bits generalizing i with
  | nil => simp [pack]
  | cons b bits ih =>
    rw [pack, BitVec.getLsbD_xor, BitVec.getLsbD_shiftLeft]
    cases i with
    | zero => cases b <;> simp [bit, hi]
    | succ i =>
      have hbit : (bit b : BitVec w).getLsbD (i + 1) = false := by
        cases b <;> simp [bit]
      rw [hbit, Nat.add_sub_cancel, ih (by omega)]
      simp [hi]

/-- Shifting out a zero that was shifted in. -/
theorem shift_shiftLeft {c : BitVec w} (h : c.msb = false) : shift poly (c <<< 1) = c := by
  have hlow : (c <<< 1).getLsbD 0 = false := by simp
  unfold shift
  rw [hlow, if_neg Bool.false_ne_true]
  apply BitVec.eq_of_getLsbD_eq
  intro i hi
  rw [BitVec.msb_eq_getLsbD_last] at h
  by_cases hlast : i = w - 1
  · subst hlast
    simp [h]
  · simp
    omega

/-- Bits that fit the register come to the same as all of them added at once. -/
theorem feed_eq_iterate (c : BitVec w) {bits : List Bool} (h : bits.length ≤ w) :
    feed poly c bits = (shift poly)^[bits.length] (c ^^^ pack bits) := by
  induction bits generalizing c with
  | nil => simp [feed, pack]
  | cons b bits ih =>
    rw [List.length_cons] at h
    have hmsb : (pack bits : BitVec w).msb = false := by
      rw [BitVec.msb_eq_getLsbD_last, getLsbD_pack bits (by omega)]
      simp [show bits.length ≤ w - 1 by omega]
    have hsplit : c ^^^ pack (b :: bits) = (c ^^^ bit b) ^^^ (pack bits <<< 1) := by
      rw [pack]
      ext i hi
      simp
      grind
    rw [feed_cons, ih _ (by omega), List.length_cons, Function.iterate_succ_apply, hsplit,
      shift_xor, shift_shiftLeft poly hmsb, feedBit]

theorem iterate_shift_injective (hpoly : poly.msb = true) (n : ℕ) :
    Function.Injective (shift poly)^[n] := (shift_injective poly hpoly).iterate n

/-- Two different windows of at most `w` bits lead to different states. -/
theorem feed_window_injective (hpoly : poly.msb = true) (c : BitVec w) {u v : List Bool}
    (hlen : u.length = v.length) (hw : u.length ≤ w) (h : feed poly c u = feed poly c v) :
    u = v := by
  rw [feed_eq_iterate poly c hw, feed_eq_iterate poly c (hlen ▸ hw), ← hlen] at h
  have hpack := (BitVec.xor_right_inj _).mp (iterate_shift_injective poly hpoly _ h)
  refine List.ext_getElem hlen fun i hi hi' => ?_
  have hbit := congrArg (fun r : BitVec w => r.getLsbD i) hpack
  simp only [getLsbD_pack _ (show i < w by omega)] at hbit
  simpa [hi, hi'] using hbit

/-- Inputs that differ only within a window of `w` bits leave different states. -/
theorem feed_ne_of_window (hpoly : poly.msb = true) (c : BitVec w) (x y : List Bool)
    {u v : List Bool} (hlen : u.length = v.length) (hw : u.length ≤ w) (hne : u ≠ v) :
    feed poly c (x ++ u ++ y) ≠ feed poly c (x ++ v ++ y) := by
  intro h
  rw [feed_append, feed_append, feed_append, feed_append] at h
  exact hne (feed_window_injective poly hpoly _ hlen hw (feed_injective poly hpoly y h))

/-- The same for two inputs given as a whole: where they end in one state although they
differ only within a window, they do not differ. -/
theorem eq_of_feed_eq (hpoly : poly.msb = true) (c : BitVec w) {x y : List Bool} (k : ℕ)
    (hlen : x.length = y.length)
    (hwindow : ∀ i (hx : i < x.length) (hy : i < y.length), x[i] ≠ y[i] → k ≤ i ∧ i < k + w)
    (h : feed poly c x = feed poly c y) : x = y := by
  have hsplit : ∀ z : List Bool, z = z.take k ++ (z.drop k).take w ++ (z.drop k).drop w := by
    intro z
    rw [List.append_assoc, List.take_append_drop, List.take_append_drop]
  have hfront : x.take k = y.take k := by
    refine List.ext_getElem (by simp [hlen]) fun i hi hi' => ?_
    rw [List.length_take] at hi hi'
    by_contra hne
    rw [List.getElem_take, List.getElem_take] at hne
    have := hwindow i (by omega) (by omega) hne
    omega
  have hback : (x.drop k).drop w = (y.drop k).drop w := by
    refine List.ext_getElem (by simp [hlen]) fun i hi hi' => ?_
    simp only [List.length_drop] at hi hi'
    by_contra hne
    simp only [List.getElem_drop] at hne
    have := hwindow _ (by omega) (by omega) hne
    omega
  by_contra hne
  rw [hsplit x, hsplit y, ← hfront, ← hback] at h
  refine feed_ne_of_window poly hpoly c _ _ (by simp [hlen]) (by simp) ?_ h
  intro hmid
  apply hne
  rw [hsplit x, hsplit y, hfront, hmid, hback]

end ShiftRegister
