import UBoot.Library.Runs

/-!
# The scan of a training record

`training_record_filter`, `ddr_vref_select` and `gate_software_training` go through their
records with the same two loops: from a window of passing settings on, an inner loop looks for
the failing one that ends the run, and keeps the run if it is the first or longer than the best
so far. A run that reaches the last setting is kept in every case.
-/
namespace UBoot.Board
open Runs

/-- Which settings failed the test. -/
abbrev Record := ℕ → Bool

def Passes (record : Record) (i : ℕ) : Prop := record i = false

/-- The variables of the scan; `result` is what the best run is written to. -/
structure Scan (α : Type) where
  data1 : ℕ
  data2 : ℕ
  maxLen : ℕ
  flag : Bool
  result : α

namespace Scan
variable {α : Type} (pick : ℕ → ℕ → α)

/-- The branch of the inner loop for a failing setting behind `data2`. -/
def closeRun (s : Scan α) (data2 : ℕ) : Scan α :=
  let s := { s with data2 := data2 }
  if s.flag = false then
    { s with maxLen := s.data2 - s.data1 + 1, result := pick s.data1 s.data2, flag := true }
  else
    let len := s.data2 - s.data1 + 1
    if len > s.maxLen then { s with maxLen := len, result := pick s.data1 s.data2 } else s

/-- The branch for the end of the record: no length is compared. -/
def closeEnd (s : Scan α) (data2 : ℕ) : Scan α :=
  { s with data2 := data2, result := pick s.data1 data2 }

variable {pick} {s : Scan α} {data2 : ℕ}

theorem closeRun_first (hflag : s.flag = false) : s.closeRun pick data2 =
    ⟨s.data1, data2, data2 - s.data1 + 1, true, pick s.data1 data2⟩ := by
  simp [closeRun, hflag]

theorem closeRun_longer (hflag : s.flag = true) (hlen : s.maxLen < data2 - s.data1 + 1) :
    s.closeRun pick data2 = ⟨s.data1, data2, data2 - s.data1 + 1, true, pick s.data1 data2⟩ := by
  simp [closeRun, hflag, hlen]

theorem closeRun_kept (hflag : s.flag = true) (hlen : data2 - s.data1 + 1 ≤ s.maxLen) :
    s.closeRun pick data2 = { s with data2 := data2 } := by
  simp [closeRun, hflag, Nat.not_lt.2 hlen]

end Scan

section Loops
variable {α : Type} (record : Record) (count minLen : ℕ) (pick : ℕ → ℕ → α)

/-- The inner loop. -/
def scanRun : ℕ → ℕ → Scan α → ℕ × Scan α
  | 0, j, s => (j, s)
  | i + 1, j, s =>
    let j := j + 1
    if j ≥ count then (j, s.closeEnd pick (j - 1))
    else if record j = true then (j, s.closeRun pick (j - 1))
    else scanRun i j s

/-- The outer loop. -/
def scanFrom : ℕ → ℕ → Scan α → Scan α
  | 0, _, s => s
  | fuel + 1, j, s =>
    if j + minLen ≤ count then
      if ∀ i < minLen, record (j + i) = false then
        let r := scanRun record count pick (count - j) j { s with data1 := j }
        scanFrom fuel (r.1 + 1) r.2
      else scanFrom fuel (j + 1) s
    else s

/-- The scan of one record; `result` is what stood in its place. -/
def scanRecord (result : α) : Scan α :=
  scanFrom record count minLen pick count 0 ⟨0, 0, 0, false, result⟩

end Loops

/-- The loops over the four slices: each step rewrites the slice's own entry. -/
def forSlices {α : Type} (f : ℕ → α → α) (entries : ℕ → α) : ℕ → α :=
  (List.range 4).foldl (fun entries k => Function.update entries k (f k (entries k))) entries

theorem foldl_update_apply {α : Type} (f : ℕ → α → α) (l : List ℕ) (hl : l.Nodup)
    (entries : ℕ → α) (k : ℕ) :
    l.foldl (fun entries k => Function.update entries k (f k (entries k))) entries k =
      if k ∈ l then f k (entries k) else entries k := by
  induction l generalizing entries with
  | nil => simp
  | cons i l ih =>
    obtain ⟨hi, hl⟩ := List.nodup_cons.1 hl
    rw [List.foldl_cons, ih hl]
    by_cases hk : k = i
    · simp [hk, hi]
    · simp [hk]

theorem forSlices_apply {α : Type} (f : ℕ → α → α) (entries : ℕ → α) {k : ℕ} (hk : k < 4) :
    forSlices f entries k = f k (entries k) := by
  rw [forSlices, foldl_update_apply f _ List.nodup_range, if_pos (List.mem_range.2 hk)]

/-- The runs of at least `minLen` passing settings. -/
def PassingRun (record : Record) (count minLen : ℕ) : ℕ → ℕ → Prop :=
  LongRun (Passes record) count minLen

section Runs
variable {record : Record} {count minLen a b a' b' : ℕ}

theorem PassingRun.bound (h : PassingRun record count minLen a b) : a ≤ b ∧ b < count :=
  ⟨h.1.le, h.1.lt⟩

theorem PassingRun.passes_left (h : PassingRun record count minLen a b) : record a = false :=
  h.1.holds a le_rfl h.1.le

theorem PassingRun.eq_or_apart (h : PassingRun record count minLen a b)
    (h' : PassingRun record count minLen a' b') : (a = a' ∧ b = b') ∨ b < a' ∨ b' < a :=
  h.1.eq_or_apart h'.1

/-- No run begins right behind another. -/
theorem PassingRun.ne_behind (h : PassingRun record count minLen a b) (hb : b + 1 < count)
    (h' : PassingRun record count minLen a' b') : a' ≠ b + 1 := by
  rintro rfl
  exact h.1.right hb h'.passes_left

/-- The runs up to the end of a run are those before it and the run itself. -/
theorem PassingRun.before_iff (h : PassingRun record count minLen a b) (hb : b + 1 < count) :
    (PassingRun record count minLen a' b' ∧ b' < b + 1 + 1) ↔
      (PassingRun record count minLen a' b' ∧ b' < a) ∨ (a' = a ∧ b' = b) := by
  have hle := h.bound
  constructor
  · rintro ⟨h', hb'⟩
    have hle' := h'.bound
    have hne := h.ne_behind hb h'
    rcases h'.eq_or_apart h with heq | hbefore | hafter
    · exact .inr heq
    · exact .inl ⟨h', hbefore⟩
    · omega
  · rintro (⟨h', hb'⟩ | ⟨rfl, rfl⟩)
    · exact ⟨h', by omega⟩
    · exact ⟨h, by omega⟩

end Runs

section Scan
variable {α : Type} {record : Record} {count minLen : ℕ} {pick : ℕ → ℕ → α} {start : α}

/-- The inner loop goes to the end of the run. -/
theorem scanRun_spec (fuel j : ℕ) (s : Scan α) (hj : j < count) (hfuel : count ≤ fuel + j) :
    ∃ b, j ≤ b ∧ b < count ∧ (∀ k, j < k → k ≤ b → record k = false) ∧
      (b + 1 < count → record (b + 1) = true) ∧
      scanRun record count pick fuel j s =
        (b + 1, if b + 1 < count then s.closeRun pick b else s.closeEnd pick b) := by
  induction fuel generalizing j with
  | zero => omega
  | succ fuel ih =>
    unfold scanRun
    dsimp only
    by_cases hend : j + 1 ≥ count
    · refine ⟨j, le_rfl, hj, fun k hk hkj => by omega, fun h => by omega, ?_⟩
      rw [if_pos hend, if_neg (by omega)]
      rfl
    · rw [if_neg hend]
      by_cases hfail : record (j + 1) = true
      · refine ⟨j, le_rfl, hj, fun k hk hkj => by omega, fun _ => hfail, ?_⟩
        rw [if_pos hfail, if_pos (by omega)]
        rfl
      · obtain ⟨b, hjb, hb, hpass, hright, hrun⟩ := ih (j + 1) (by omega) (by omega)
        rw [if_neg hfail, hrun]
        refine ⟨b, by omega, hb, fun k hk hkb => ?_, hright, rfl⟩
        rcases Nat.lt_or_eq_of_le (show j + 1 ≤ k from hk) with hlt | heq
        · exact hpass k hlt hkb
        · rw [← heq]
          simpa using hfail

/-- The best of the runs before `j`, if there is one, stands in the variables. -/
inductive Best (R : ℕ → ℕ → Prop) (pick : ℕ → ℕ → α) (start : α) (j : ℕ) (s : Scan α) : Prop
  | none (hnone : ∀ a b, R a b → j ≤ a) (hstart : s = ⟨0, 0, 0, false, start⟩)
  | some (a b : ℕ) (hbest : FirstLongest (fun x y => R x y ∧ y < j) a b) (hflag : s.flag = true)
      (hlen : s.maxLen = b - a + 1) (hresult : s.result = pick a b) (hdata : s.data2 ≠ 0)

/-- The outer loop at `j`: no run goes across, and none before it reaches the last setting. -/
structure Seen (R : ℕ → ℕ → Prop) (count : ℕ) (pick : ℕ → ℕ → α) (start : α) (j : ℕ)
    (s : Scan α) : Prop where
  cut : ∀ a b, R a b → b < j ∨ j ≤ a
  inner : ∀ a b, R a b → b < j → b + 1 < count
  best : Best R pick start j s

/-- What the scan leaves behind. -/
inductive Scanned (R : ℕ → ℕ → Prop) (count : ℕ) (pick : ℕ → ℕ → α) (start : α)
    (s : Scan α) : Prop
  | none (hnone : ∀ a b, ¬ R a b) (hstart : s = ⟨0, 0, 0, false, start⟩)
  | inside (a b : ℕ) (hbest : FirstLongest R a b) (hinner : ∀ x y, R x y → y + 1 < count)
      (hresult : s.result = pick a b) (hdata : s.data2 ≠ 0)
  | atEnd (a : ℕ) (hrun : R a (count - 1)) (hresult : s.result = pick a (count - 1))
      (hdata : s.data2 ≠ 0)

/-- A window with a failing setting starts no run. -/
theorem Seen.skip {j : ℕ} {s : Scan α}
    (h : Seen (PassingRun record count minLen) count pick start j s)
    (hwindow : ¬ ∀ i < minLen, record (j + i) = false) :
    Seen (PassingRun record count minLen) count pick start (j + 1) s := by
  have hne : ∀ a b, PassingRun record count minLen a b → a ≠ j := by
    rintro a b hrun rfl
    exact hwindow fun i hi => hrun.1.holds _ (by omega) (by have := hrun.2; omega)
  have hbefore : ∀ a b, PassingRun record count minLen a b → (b < j + 1 ↔ b < j) := by
    intro a b hrun
    have hcut := h.cut a b hrun
    have hstart := hne a b hrun
    have hle := hrun.bound
    omega
  refine ⟨fun a b hrun => ?_, fun a b hrun hb => h.inner a b hrun ((hbefore a b hrun).1 hb), ?_⟩
  · have hcut := h.cut a b hrun
    have hstart := hne a b hrun
    omega
  · cases h.best with
    | none hnone hstart =>
      refine .none (fun a b hrun => ?_) hstart
      have hle := hnone a b hrun
      have hstart := hne a b hrun
      omega
    | some a b hbest hflag hlen hresult hdata =>
      refine .some a b (hbest.congr fun x y => ?_) hflag hlen hresult hdata
      exact and_congr_right fun hrun => (hbefore x y hrun).symm

/-- The run that the inner loop has gone through. -/
theorem Seen.run_of_window {j b : ℕ} {s : Scan α}
    (h : Seen (PassingRun record count minLen) count pick start j s)
    (hpos : 0 < minLen) (hfits : j + minLen ≤ count)
    (hwindow : ∀ i < minLen, record (j + i) = false) (hjb : j ≤ b) (hb : b < count)
    (hpass : ∀ k, j < k → k ≤ b → record k = false)
    (hright : b + 1 < count → record (b + 1) = true) : PassingRun record count minLen j b := by
  have hfirst : record j = false := hwindow 0 hpos
  obtain ⟨a, haj, hall, hleft⟩ := exists_left (p := Passes record) hfirst
  have hholds : ∀ k, a ≤ k → k ≤ b → Passes record k := by
    intro k hak hkb
    rcases Nat.lt_or_ge j k with hlt | hge
    · exact hpass k hlt hkb
    · exact hall k hak hge
  have hlong : j + minLen ≤ b + 1 := by
    by_contra hshort
    have hin := hwindow (b + 1 - j) (by omega)
    rw [Nat.add_sub_cancel' (by omega), hright (by omega)] at hin
    exact absurd hin (by decide)
  have hrun : PassingRun record count minLen a b :=
    ⟨⟨by omega, hb, hholds, hleft, fun hlt hp => by simp [Passes, hright hlt] at hp⟩, by omega⟩
  have hcut := h.cut a b hrun
  have hstart : a = j := by omega
  rwa [hstart] at hrun

/-- A run with a failing setting behind it is compared with the best one. -/
theorem Seen.close {j b : ℕ} {s : Scan α}
    (h : Seen (PassingRun record count minLen) count pick start j s)
    (hrun : PassingRun record count minLen j b) (hmin : 1 < minLen) (hb : b + 1 < count) :
    Seen (PassingRun record count minLen) count pick start (b + 1 + 1)
      ({ s with data1 := j }.closeRun pick b) := by
  have hle := hrun.bound
  have hlong := hrun.2
  have hsplit := fun x y => @PassingRun.before_iff record count minLen j b x y hrun hb
  refine ⟨fun x y hxy => ?_, fun x y hxy hy => ?_, ?_⟩
  · have hxy' := hxy.bound
    have hne := hrun.ne_behind hb hxy
    rcases hxy.eq_or_apart hrun with ⟨-, rfl⟩ | hbefore | hafter
    · left; omega
    · left; omega
    · right; omega
  · rcases (hsplit x y).1 ⟨hxy, hy⟩ with ⟨_, hlt⟩ | ⟨_, rfl⟩
    · exact h.inner x y hxy hlt
    · exact hb
  · cases h.best with
    | none hnone hstart =>
      refine .some j b ?_ ?_ ?_ ?_ ?_
      · refine ⟨(hsplit j b).2 (.inr ⟨rfl, rfl⟩), fun x y hxy => ?_⟩
        rcases (hsplit x y).1 hxy with ⟨hold, hlt⟩ | ⟨rfl, rfl⟩
        · have hafter := hnone x y hold
          have hxy' := hold.bound
          omega
        · exact .inr ⟨rfl, le_rfl⟩
      all_goals rw [Scan.closeRun_first (by rw [hstart])]
      show b ≠ 0
      omega
    | some a a' hbest hflag hlen hresult hdata =>
      have hold := hbest.1
      have hold' := hold.1.bound
      by_cases hmore : s.maxLen < b - j + 1
      · refine .some j b (hbest.longer (by omega) hsplit) ?_ ?_ ?_ ?_
        all_goals rw [Scan.closeRun_longer (s := { s with data1 := j }) hflag hmore]
        show b ≠ 0
        omega
      · rw [Scan.closeRun_kept (s := { s with data1 := j }) hflag (Nat.not_lt.1 hmore)]
        refine .some a a' (hbest.kept (by omega) (by omega) hsplit) hflag hlen hresult ?_
        show b ≠ 0
        omega

/-- Past the last window the loop ends. -/
theorem scanFrom_past (fuel j : ℕ) (s : Scan α) (hj : count < j + minLen) :
    scanFrom record count minLen pick fuel j s = s := by
  cases fuel with
  | zero => rfl
  | succ fuel => rw [scanFrom, if_neg (by omega)]

theorem Seen.scanned {j : ℕ} {s : Scan α}
    (h : Seen (PassingRun record count minLen) count pick start j s) (hj : count < j + minLen) :
    Scanned (PassingRun record count minLen) count pick start s := by
  have hbefore : ∀ x y, PassingRun record count minLen x y → y < j := by
    intro x y hxy
    have hcut := h.cut x y hxy
    have hlong := hxy.2
    have hle := hxy.bound
    omega
  cases h.best with
  | none hnone hstart =>
    refine .none (fun a b hrun => ?_) hstart
    have hlt := hbefore a b hrun
    have hge := hnone a b hrun
    have hle := hrun.bound
    omega
  | some a b hbest hflag hlen hresult hdata =>
    refine .inside a b (hbest.congr fun x y => ?_) (fun x y hxy => ?_) hresult hdata
    · exact ⟨And.left, fun hxy => ⟨hxy, hbefore x y hxy⟩⟩
    · exact h.inner x y hxy (hbefore x y hxy)

theorem scanFrom_scanned (hmin : 1 < minLen) (fuel j : ℕ) (s : Scan α)
    (h : Seen (PassingRun record count minLen) count pick start j s)
    (hfuel : count < fuel + j + minLen) :
    Scanned (PassingRun record count minLen) count pick start
      (scanFrom record count minLen pick fuel j s) := by
  induction fuel generalizing j s with
  | zero => exact h.scanned (by omega)
  | succ fuel ih =>
    rw [scanFrom]
    by_cases hfits : j + minLen ≤ count
    · rw [if_pos hfits]
      by_cases hwindow : ∀ i < minLen, record (j + i) = false
      · rw [if_pos hwindow]
        obtain ⟨b, hjb, hb, hpass, hright, hrun⟩ :=
          @scanRun_spec α record count pick (count - j) j { s with data1 := j } (by omega)
            (by omega)
        have hfound := h.run_of_window (Nat.zero_lt_of_lt hmin) hfits hwindow hjb hb hpass hright
        dsimp only
        rw [hrun]
        by_cases hend : b + 1 < count
        · rw [if_pos hend]
          exact ih (b + 1 + 1) _ (h.close hfound hmin hend) (by omega)
        · -- the run reaches the last setting, and the loop ends behind it
          have hlast : b = count - 1 := by omega
          have hlong := hfound.2
          subst hlast
          rw [if_neg hend, scanFrom_past _ _ _ (by omega)]
          refine .atEnd j hfound rfl ?_
          simp only [Scan.closeEnd]
          omega
      · rw [if_neg hwindow]
        exact ih (j + 1) _ (h.skip hwindow) (by omega)
    · rw [if_neg hfits]
      exact h.scanned (by omega)

/-- The scan of a record keeps the run at the end, and without one the first longest run. -/
theorem scanRecord_scanned (record : Record) (count minLen : ℕ) (pick : ℕ → ℕ → α) (start : α)
    (hmin : 1 < minLen) :
    Scanned (PassingRun record count minLen) count pick start
      (scanRecord record count minLen pick start) := by
  refine scanFrom_scanned hmin count 0 _ ⟨?_, ?_, ?_⟩ (by omega)
  · exact fun a b _ => .inr (Nat.zero_le a)
  · exact fun a b _ hb => absurd hb (Nat.not_lt_zero b)
  · exact .none (fun a b _ => Nat.zero_le a) rfl

end Scan

/-- A run that reaches the last setting is longer than every run before it. -/
def EndRunLongest (record : Record) (count minLen : ℕ) : Prop :=
  ∀ a x y, PassingRun record count minLen a (count - 1) → PassingRun record count minLen x y →
    y + 1 < count → y + a < count - 1 + x

section EndRun
variable {α : Type} {record : Record} {count minLen : ℕ} {pick : ℕ → ℕ → α} {start : α}
  {s : Scan α}

theorem endRunLongest_iff {a : ℕ} (hrun : PassingRun record count minLen a (count - 1)) :
    EndRunLongest record count minLen ↔
      FirstLongest (PassingRun record count minLen) a (count - 1) := by
  constructor
  · intro h
    refine ⟨hrun, fun x y hxy => ?_⟩
    have hlt := hxy.bound
    rcases hxy.eq_or_apart hrun with ⟨rfl, rfl⟩ | hbefore | hafter
    · exact .inr ⟨rfl, le_rfl⟩
    · exact .inl (h a x y hrun hxy (by have := hrun.bound; omega))
    · omega
  · intro h a' x y hrun' hxy hy
    have hle := hxy.bound
    have hrunle := hrun.bound
    have hrunle' := hrun'.bound
    rcases hrun'.eq_or_apart hrun with ⟨rfl, -⟩ | hbefore | hafter
    · rcases h.2 x y hxy with hlt | ⟨heq, hfirst⟩
      · exact hlt
      · omega
    · omega
    · omega

theorem endRunLongest_of_inner (h : ∀ x y, PassingRun record count minLen x y → y + 1 < count) :
    EndRunLongest record count minLen := by
  intro a x y hrun _ hy
  have := h a _ hrun
  omega

/-- What was kept is the first longest run, unless a run at the end came between. -/
theorem Scanned.result_eq (h : Scanned (PassingRun record count minLen) count pick start s)
    (hend : EndRunLongest record count minLen) {a b : ℕ}
    (hbest : FirstLongest (PassingRun record count minLen) a b) : s.result = pick a b := by
  cases h with
  | none hnone hstart => exact absurd hbest.1 (hnone a b)
  | inside x y hxy hinner hresult hdata =>
    obtain ⟨rfl, rfl⟩ := hbest.unique hxy
    exact hresult
  | atEnd x hrun hresult hdata =>
    obtain ⟨rfl, rfl⟩ := hbest.unique ((endRunLongest_iff hrun).1 hend)
    exact hresult

/-- A run at the end that is not the longest has displaced an earlier one. -/
theorem Scanned.displaced (h : Scanned (PassingRun record count minLen) count pick start s)
    (hend : ¬ EndRunLongest record count minLen) :
    ∃ a x y, PassingRun record count minLen a (count - 1) ∧
      FirstLongest (PassingRun record count minLen) x y ∧ y < a ∧
      s.result = pick a (count - 1) := by
  cases h with
  | none hnone hstart =>
    exact absurd (endRunLongest_of_inner fun x y h => absurd h (hnone x y)) hend
  | inside a b hbest hinner hresult hdata => exact absurd (endRunLongest_of_inner hinner) hend
  | atEnd a hrun hresult hdata =>
    obtain ⟨x, y, hbest⟩ := exists_firstLongest (fun _ _ h => PassingRun.bound h) hrun
    refine ⟨a, x, y, hrun, hbest, ?_, hresult⟩
    have hle := hbest.1.bound
    rcases hbest.1.eq_or_apart hrun with ⟨rfl, rfl⟩ | hbefore | hafter
    · exact absurd ((endRunLongest_iff hrun).2 hbest) hend
    · exact hbefore
    · omega

theorem Scanned.data_eq_zero_iff (h : Scanned (PassingRun record count minLen) count pick start s) :
    s.data1 = 0 ∧ s.data2 = 0 ↔ ∀ a b, ¬ PassingRun record count minLen a b := by
  cases h with
  | none hnone hstart => simp [hstart, hnone]
  | inside a b hbest hinner hresult hdata =>
    exact iff_of_false (fun h => hdata h.2) fun h => h a b hbest.1
  | atEnd a hrun hresult hdata => exact iff_of_false (fun h => hdata h.2) fun h => h a _ hrun

end EndRun

end UBoot.Board
