import Mathlib.Data.Set.Lattice
import UBoot.Library.Machine

/-!
# Footprints

A step has a footprint if it changes what is seen of the state at some places at most. It may
rely on an invariant, which it then keeps. The footprint of a run is the union of those of its
inputs.
-/

/-- From a state with the invariant `inv`, the state `s'` has it again, and what is seen of both
differs in `S` at most. -/
def ChangesOnly {σ α β : Type*} (inv : σ → Prop) (see : σ → α → β) (S : Set α) (s s' : σ) : Prop :=
  inv s → inv s' ∧ ∀ a ∉ S, see s' a = see s a

namespace ChangesOnly
variable {σ ι ο α β : Type*} {inv : σ → Prop} {see : σ → α → β} {S T : Set α} {s s' s'' : σ}

theorem refl (S : Set α) (s : σ) : ChangesOnly inv see S s s := fun hs => ⟨hs, fun _ _ => rfl⟩

theorem of_eq (h : s' = s) : ChangesOnly inv see S s s' := by
  rw [h]
  exact refl S s

theorem trans (h : ChangesOnly inv see S s s') (h' : ChangesOnly inv see S s' s'') :
    ChangesOnly inv see S s s'' := fun hs =>
  ⟨(h' (h hs).1).1, fun a ha => ((h' (h hs).1).2 a ha).trans ((h hs).2 a ha)⟩

theorem mono (hST : S ⊆ T) (h : ChangesOnly inv see S s s') : ChangesOnly inv see T s s' :=
  fun hs => ⟨(h hs).1, fun a ha => (h hs).2 a fun hmem => ha (hST hmem)⟩

/-- The footprint of a run. -/
theorem run (M : Machine σ ι ο) {reach : ι → Set α}
    (hstep : ∀ s i, ChangesOnly inv see (reach i) s (M.step s i).2) (s : σ) (is : List ι) :
    ChangesOnly inv see (⋃ i ∈ is, reach i) s (M.run s is) := by
  induction is generalizing s with
  | nil => exact refl _ s
  | cons i is ih =>
    refine ((hstep s i).mono ?_).trans ((ih _).mono ?_)
    · exact Set.subset_biUnion_of_mem (List.mem_cons_self ..)
    · exact Set.biUnion_subset_biUnion_left fun j hj => List.mem_cons_of_mem _ hj

end ChangesOnly
