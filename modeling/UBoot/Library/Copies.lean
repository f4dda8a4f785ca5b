import UBoot.Library.ByteStore

/-!
# Sequences of copies out of one buffer

A sequence of range copies is described by where each byte of the target comes from:
the last copy that covers an address decides. When the copies take their bytes from
ever higher places of the buffer, the origin of a byte tells which copy put it there.
Within one memory a copy may overlap what it reads, if it goes up and reads ahead.
-/
namespace ByteStore

/-- A copy of `len` bytes from offset `src` of the buffer to address `dst`. -/
structure Copy where
  dst : ℕ
  len : ℕ
  src : ℕ

def Copy.Covers (c : Copy) (a : ℕ) : Prop := c.dst ≤ a ∧ a < c.dst + c.len

instance (c : Copy) (a : ℕ) : Decidable (c.Covers a) := inferInstanceAs (Decidable (_ ∧ _))

/-- The target after the copies, first one first. -/
def copyAll (source : Mem) : List Copy → Mem → Mem
  | [], m => m
  | c :: cs, m => copyAll source cs (overlay m c.dst c.len (advance source c.src))

/-- The offset of the buffer that the byte at `a` comes from, if it was written. -/
def origin : List Copy → ℕ → Option ℕ
  | [], _ => none
  | c :: cs, a => (origin cs a).or (if c.Covers a then some (c.src + (a - c.dst)) else none)

/-- The target byte by byte. -/
theorem copyAll_apply (source : Mem) (cs : List Copy) (m : Mem) (a : ℕ) :
    copyAll source cs m a = ((origin cs a).map source).getD (m a) := by
  induction cs generalizing m with
  | nil => rfl
  | cons c cs ih =>
    rw [copyAll, ih, origin]
    cases origin cs a with
    | some x => rfl
    | none =>
      by_cases h : c.Covers a
      · rw [overlay_of_mem _ _ h.1 h.2]
        simp [h]
      · rw [overlay_of_not_mem _ _ h]
        simp [h]

theorem copyAll_append (source : Mem) (cs ds : List Copy) (m : Mem) :
    copyAll source (cs ++ ds) m = copyAll source ds (copyAll source cs m) := by
  induction cs generalizing m with
  | nil => rfl
  | cons c cs ih => exact ih _

theorem origin_append (cs ds : List Copy) (a : ℕ) :
    origin (cs ++ ds) a = (origin ds a).or (origin cs a) := by
  induction cs with
  | nil => simp [origin]
  | cons c cs ih => rw [List.cons_append, origin, origin, ih, Option.or_assoc]

theorem origin_eq_none_iff {cs : List Copy} {a : ℕ} :
    origin cs a = none ↔ ∀ c ∈ cs, ¬ c.Covers a := by
  induction cs with
  | nil => simp [origin]
  | cons c cs ih => simp [origin, ih, and_comm]

/-- A written byte has a last copy that covers it. -/
theorem exists_last_of_origin {cs : List Copy} {a x : ℕ} (h : origin cs a = some x) :
    ∃ l₁ c l₂, cs = l₁ ++ c :: l₂ ∧ c.Covers a ∧ x = c.src + (a - c.dst) ∧
      ∀ d ∈ l₂, ¬ d.Covers a := by
  induction cs with
  | nil => cases h
  | cons c cs ih =>
    rw [origin] at h
    cases hcs : origin cs a with
    | some y =>
      rw [hcs, Option.some_or] at h
      obtain ⟨l₁, d, l₂, rfl, hd⟩ := ih (hcs.trans h)
      exact ⟨c :: l₁, d, l₂, rfl, hd⟩
    | none =>
      rw [hcs, Option.none_or] at h
      split at h
      · next hc =>
        exact ⟨[], c, cs, rfl, hc, (Option.some.inj h).symm, origin_eq_none_iff.mp hcs⟩
      · cases h

/-- The copies take their bytes from ever higher offsets. -/
abbrev Ascending (cs : List Copy) : Prop := cs.Pairwise fun c d => c.src < d.src

/-- A byte that is the first byte of a copy which covers it stands where that copy starts. -/
theorem eq_dst_of_origin {cs : List Copy} (hcs : Ascending cs) {c : Copy} (hc : c ∈ cs) {a : ℕ}
    (hcov : c.Covers a) (h : origin cs a = some c.src) : a = c.dst := by
  obtain ⟨l₁, d, l₂, rfl, hd, hx, hlast⟩ := exists_last_of_origin h
  rcases List.mem_append.mp hc with h₁ | h₁
  · have hlt : c.src < d.src :=
      (List.pairwise_append.mp hcs).2.2 c h₁ d (List.mem_cons_self ..)
    omega
  · rcases List.mem_cons.mp h₁ with rfl | h₂
    · have := hcov.1
      omega
    · exact absurd hcov (hlast c h₂)

/-- A byte that no later copy covers keeps what a copy put there. -/
theorem origin_of_last {cs : List Copy} (hcs : Ascending cs) {c : Copy} (hc : c ∈ cs) {a : ℕ}
    (hcov : c.Covers a) (hlater : ∀ d ∈ cs, c.src < d.src → ¬ d.Covers a) :
    origin cs a = some (c.src + (a - c.dst)) := by
  obtain ⟨l₁, l₂, rfl⟩ := List.append_of_mem hc
  have hnone : origin l₂ a = none := origin_eq_none_iff.mpr fun d hd =>
    hlater d (by simp [hd]) (List.rel_of_pairwise_cons (List.pairwise_append.mp hcs).2.1 hd)
  simp [origin_append, origin, hnone, hcov]

theorem advance_update (m : Mem) (k a : ℕ) (b : UInt8) :
    advance (Function.update m (k + a) b) k = Function.update (advance m k) a b := by
  funext i
  by_cases h : i = a
  · rw [h, advance_apply, Function.update_self, Function.update_self]
  · rw [advance_apply, Function.update_of_ne (by omega), Function.update_of_ne h, advance_apply]

theorem advance_overlay (m src : Mem) (k addr len : ℕ) :
    advance (overlay m (k + addr) len src) k = overlay (advance m k) addr len src := by
  funext i
  simp only [advance_apply, overlay]
  by_cases h : addr ≤ i ∧ i < addr + len
  · rw [if_pos h, if_pos (by omega), show k + i - (k + addr) = i - addr by omega]
  · rw [if_neg h, if_neg (by omega)]

/-- `n` pieces of `w` bytes each, one after the other from low addresses up. -/
def copyUp (w dst src : ℕ) : ℕ → Mem → Mem
  | 0, m => m
  | n + 1, m => copyUp w (dst + w) (src + w) n (overlay m dst w (advance m src))

/-- What remains of a copy that overwrites only what it has read. -/
theorem overlay_resume {dst src j k : ℕ} (h : dst ≤ src ∨ src + (j + k) ≤ dst) (m : Mem) :
    overlay (overlay m dst j (advance m src)) (dst + j) k
        (advance (overlay m dst j (advance m src)) (src + j)) =
      overlay m dst (j + k) (advance m src) := by
  have hsrc : ∀ i < k, advance (overlay m dst j (advance m src)) (src + j) i =
      advance (advance m src) j i := by
    intro i hi
    rw [advance_apply, overlay_of_not_mem _ _ (by omega), advance_advance, advance_apply]
  rw [overlay_congr _ hsrc, overlay_append]

theorem copyUp_eq {w dst src n : ℕ} (h : dst ≤ src ∨ src + w * n ≤ dst) (m : Mem) :
    copyUp w dst src n m = overlay m dst (w * n) (advance m src) := by
  induction n generalizing dst src m with
  | zero => rw [copyUp, Nat.mul_zero, overlay_zero]
  | succ n ih =>
    rw [Nat.mul_succ, Nat.add_comm (w * n)] at h ⊢
    rw [copyUp, ih (by omega), overlay_resume h]

end ByteStore
