import Mathlib.Algebra.BigOperators.Fin
import Mathlib.Tactic

/-!
# Parities and weights

The parity of the bits that a selector picks out, and the weight of a word of bits. A flip
of one bit turns a parity around when the bit is selected, and changes the weight by one.
-/
namespace Parity

/-- The word with one bit turned around. -/
def flipAt {ι : Type*} [DecidableEq ι] (bits : ι → Bool) (p : ι) : ι → Bool :=
  Function.update bits p (!bits p)

section Flip
variable {ι : Type*} [DecidableEq ι] (bits : ι → Bool) (p q : ι)

theorem flipAt_self : flipAt bits p p = !bits p := Function.update_self ..

theorem flipAt_of_ne {p q : ι} (h : q ≠ p) : flipAt bits p q = bits q :=
  Function.update_of_ne h ..

/-- A flip adds the word whose only bit is the flipped one. -/
theorem flipAt_apply : flipAt bits p q = (bits q ^^ decide (q = p)) := by
  by_cases h : q = p
  · rw [h, flipAt_self, decide_eq_true rfl, Bool.xor_true]
  · rw [flipAt_of_ne bits h, decide_eq_false h, Bool.xor_false]

end Flip

section Sums
variable {ι : Type*}

/-- How many bits are set. -/
def weight (s : Finset ι) (bits : ι → Bool) : ℕ := ∑ p ∈ s, (bits p).toNat

theorem weight_congr {s : Finset ι} {bits bits' : ι → Bool} (h : ∀ p ∈ s, bits p = bits' p) :
    weight s bits = weight s bits' :=
  Finset.sum_congr rfl fun p hp => by rw [h p hp]

/-- The parity of the selected bits. -/
def parity (s : Finset ι) (sel bits : ι → Bool) : Bool :=
  decide (weight s (fun p => sel p && bits p) % 2 = 1)

theorem parity_congr {s : Finset ι} {sel bits bits' : ι → Bool}
    (h : ∀ p ∈ s, bits p = bits' p) : parity s sel bits = parity s sel bits' := by
  rw [parity, parity, weight_congr fun p hp => by rw [h p hp]]

/-- The weight of a word of `2 * n` bits, pair by pair. -/
theorem weight_pairs (n : ℕ) (bits : ℕ → Bool) : weight (Finset.range (2 * n)) bits =
    ∑ k ∈ Finset.range n, ((bits (2 * k)).toNat + (bits (2 * k + 1)).toNat) := by
  induction n with
  | zero => rfl
  | succ n ih =>
    rw [Finset.sum_range_succ, ← ih, weight, Nat.mul_succ, Finset.sum_range_succ,
      Finset.sum_range_succ, weight, Nat.add_assoc]

variable [DecidableEq ι]

theorem weight_erase {s : Finset ι} {p : ι} (bits : ι → Bool) (h : p ∈ s) :
    weight s bits = (bits p).toNat + weight (s.erase p) bits :=
  (Finset.add_sum_erase s (fun q => (bits q).toNat) h).symm

theorem weight_flipAt {s : Finset ι} {p : ι} (bits : ι → Bool) (h : p ∈ s) :
    weight s (flipAt bits p) + (bits p).toNat = weight s bits + (!bits p).toNat := by
  have hrest : weight (s.erase p) (flipAt bits p) = weight (s.erase p) bits :=
    weight_congr fun q hq => flipAt_of_ne bits (Finset.ne_of_mem_erase hq)
  rw [weight_erase (flipAt bits p) h, weight_erase bits h, hrest, flipAt_self]
  omega

/-- A parity notices the flip of a bit that it selects. -/
theorem parity_flipAt {s : Finset ι} {p : ι} (sel bits : ι → Bool) (h : p ∈ s) :
    parity s sel (flipAt bits p) = (parity s sel bits ^^ sel p) := by
  have hrest : weight (s.erase p) (fun q => sel q && flipAt bits p q) =
      weight (s.erase p) fun q => sel q && bits q :=
    weight_congr fun q hq => by rw [flipAt_of_ne bits (Finset.ne_of_mem_erase hq)]
  rw [parity, parity, weight_erase _ h, weight_erase (fun q => sel q && bits q) h, hrest,
    flipAt_self]
  generalize weight (s.erase p) (fun q => sel q && bits q) = w
  rcases Nat.mod_two_eq_zero_or_one w with hw | hw <;> cases sel p <;> cases bits p <;>
    simp [Nat.add_mod, hw]

end Sums
end Parity
