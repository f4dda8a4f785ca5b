import UBoot.Library.ByteStore

/-!
# Scattering bytes over areas

A string of bytes is laid into a list of areas of a buffer, one area after the other, and
collected from them again. The areas are given by offset and length. Where they do not
overlap and have room for the bytes, collecting gives back what was laid out, whatever
happened to the buffer outside the areas.
-/
namespace ByteStore

/-- Lay bytes `total` up to `len` of `src` into the areas. -/
def scatter (src : Mem) : List (ℕ × ℕ) → ℕ → ℕ → Mem → Mem
  | [], _, _, dst => dst
  | area :: areas, total, len, dst =>
    if total < len then
      let n := min area.2 (len - total)
      scatter src areas (total + n) len (overlay dst area.1 n (advance src total))
    else dst

/-- Collect bytes `total` up to `len` from the areas. -/
def gather (src : Mem) : List (ℕ × ℕ) → ℕ → ℕ → Mem → Mem
  | [], _, _, dst => dst
  | area :: areas, total, len, dst =>
    if total < len then
      let n := min area.2 (len - total)
      gather src areas (total + n) len (overlay dst total n (advance src area.1))
    else dst

/-- The address lies in one of the areas. -/
def InAreas (areas : List (ℕ × ℕ)) (a : ℕ) : Prop :=
  ∃ area ∈ areas, area.1 ≤ a ∧ a < area.1 + area.2

/-- The bytes that the areas hold together. -/
def room (areas : List (ℕ × ℕ)) : ℕ := (areas.map Prod.snd).sum

def Apart (a b : ℕ × ℕ) : Prop := a.1 + a.2 ≤ b.1 ∨ b.1 + b.2 ≤ a.1

instance : DecidableRel Apart := fun _ _ => inferInstanceAs (Decidable (_ ∨ _))

variable {src dst : Mem} {areas : List (ℕ × ℕ)} {total len : ℕ}

theorem scatter_outside {a : ℕ} (h : ¬ InAreas areas a) :
    scatter src areas total len dst a = dst a := by
  induction areas generalizing total dst with
  | nil => rfl
  | cons area areas ih =>
    have hrest : ¬ InAreas areas a := fun ⟨b, hb, hin⟩ => h ⟨b, List.mem_cons_of_mem _ hb, hin⟩
    have harea : ¬ (area.1 ≤ a ∧ a < area.1 + area.2) :=
      fun hin => h ⟨area, List.mem_cons_self, hin⟩
    rw [scatter]
    split
    · rw [ih hrest, overlay_of_not_mem _ _ (by omega)]
    · rfl

theorem gather_below {a : ℕ} (h : a < total) : gather src areas total len dst a = dst a := by
  induction areas generalizing total dst with
  | nil => rfl
  | cons area areas ih =>
    rw [gather]
    split
    · rw [ih (by omega), overlay_of_not_mem _ _ (by omega)]
    · rfl

/-- What was laid out is collected again, from any buffer that holds it in the areas. -/
theorem gather_scatter {oob dst' : Mem} (hap : areas.Pairwise Apart)
    (h : ∀ a, InAreas areas a → oob a = scatter src areas total len dst a) {j : ℕ}
    (hlow : total ≤ j) (hlen : j < len) (hroom : j < total + room areas) :
    gather oob areas total len dst' j = src j := by
  induction areas generalizing total dst dst' with
  | nil =>
    rw [room, List.map_nil, List.sum_nil] at hroom
    omega
  | cons area areas ih =>
    obtain ⟨hfirst, hap⟩ := List.pairwise_cons.mp hap
    have hlt : total < len := by omega
    rw [room, List.map_cons, List.sum_cons, ← room] at hroom
    rw [gather, if_pos hlt]
    rw [scatter, if_pos hlt] at h
    by_cases hj : j < total + min area.2 (len - total)
    · rw [gather_below hj, overlay_of_mem _ _ hlow hj, advance_apply]
      have hin : InAreas (area :: areas) (area.1 + (j - total)) :=
        ⟨area, List.mem_cons_self, by omega, by omega⟩
      have hout : ¬ InAreas areas (area.1 + (j - total)) := by
        intro ⟨b, hb, hb₁, hb₂⟩
        have hapart : area.1 + area.2 ≤ b.1 ∨ b.1 + b.2 ≤ area.1 := hfirst b hb
        omega
      rw [h _ hin, scatter_outside hout, overlay_add _ _ (by omega), advance_apply]
      congr 1
      omega
    · apply ih hap
      · intro a ⟨b, hb, hin⟩
        exact h a ⟨b, List.mem_cons_of_mem _ hb, hin⟩
      · omega
      · omega

end ByteStore
