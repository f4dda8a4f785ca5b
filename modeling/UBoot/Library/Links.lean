import Mathlib.Logic.Relation
import Mathlib.Tactic

/-!
# Walks along links

A state leads to a list of further states, and a walk goes along one link after another. Where
only finitely many states lead on, all walks from a state are finite exactly when no state
they reach leads back to itself, and then the number of those states bounds their length.
-/
namespace Links
open Relation

section
variable {σ : Type*} (next : σ → List σ)

def Link (s t : σ) : Prop := t ∈ next s

/-- Every walk from `s` makes fewer than `fuel` steps. -/
def Finished : ℕ → σ → Prop
  | 0, _ => False
  | fuel + 1, s => ∀ t ∈ next s, Finished fuel t

/-- No state that a walk from `s` reaches leads back to itself. -/
def NoReturn (s : σ) : Prop :=
  ∀ t, ReflTransGen (Link next) s t → ¬ TransGen (Link next) t t

end

section
variable {σ : Type*} {next : σ → List σ} {s t : σ} {fuel more : ℕ}

theorem Finished.mono (h : Finished next fuel s) (hle : fuel ≤ more) : Finished next more s := by
  induction fuel generalizing s more with
  | zero => exact absurd h id
  | succ fuel ih =>
    obtain ⟨more, rfl⟩ := Nat.exists_eq_add_of_lt (Nat.lt_of_succ_le hle)
    exact fun t ht => ih (h t ht) (by omega)

theorem Finished.reach (h : Finished next fuel s) (hreach : ReflTransGen (Link next) s t) :
    Finished next fuel t := by
  induction hreach with
  | refl => exact h
  | tail _ hlink ih =>
    cases fuel with
    | zero => exact absurd ih id
    | succ fuel => exact (ih _ hlink).mono (Nat.le_succ fuel)

/-- A state on a cycle has a walk of every length. -/
theorem not_finished_of_cycle (hcycle : TransGen (Link next) t t) : ¬ Finished next fuel t := by
  induction fuel generalizing t with
  | zero => exact id
  | succ fuel ih =>
    intro h
    obtain ⟨u, hlink, hback⟩ := TransGen.head'_iff.1 hcycle
    exact ih (TransGen.tail' hback hlink) (h u hlink)

theorem Finished.noReturn (h : Finished next fuel s) : NoReturn next s :=
  fun _ hreach hcycle => not_finished_of_cycle hcycle (h.reach hreach)

theorem NoReturn.tail (h : NoReturn next s) (hlink : Link next s t) : NoReturn next t :=
  fun u hreach => h u (.head hlink hreach)

/-- The states that lead on bound the length of the walks: behind each link one fewer of them is
within reach. -/
theorem NoReturn.finished (h : NoReturn next s) (live : Finset σ)
    (hlive : ∀ t u, ReflTransGen (Link next) s t → Link next t u → t ∈ live) :
    Finished next (live.card + 1) s := by
  classical
  induction hcard : live.card using Nat.strong_induction_on generalizing s live with
  | h n ih =>
    intro t hlink
    have hs : s ∈ live := hlive s t .refl hlink
    have herase : (live.erase s).card < n := by
      rw [← hcard]
      exact Finset.card_erase_lt_of_mem hs
    refine (ih _ herase (h.tail hlink) (live.erase s) ?_ rfl).mono (by omega)
    intro u v hreach huv
    refine Finset.mem_erase.2 ⟨?_, hlive u v (.head hlink hreach) huv⟩
    rintro rfl
    exact h u .refl (TransGen.head' hlink hreach)

end

end Links
