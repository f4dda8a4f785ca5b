import UBoot.Board.TrainingScan

/-!
# The choice of a training window

The delays of the data slices and the reference voltage are set to the middle of the longest
run of passing settings. A run that reaches the last setting takes the place of the best one
without a comparison.
-/
namespace UBoot.Board
open Runs

/-- The middle of a run. -/
def midpoint (data1 data2 : ℕ) : ℕ := (data2 + data1) / 2

/-- The body of the loop over the slices. -/
def trainingRecordFilterSlice (trainingRecord : Record) (trainingResult : ℕ) : ℕ :=
  let s := scanRecord trainingRecord (0xff + 1) 5 midpoint trainingResult
  if s.data1 = 0 ∧ s.data2 = 0 then 0 else s.result

/-- `training_record_filter`. -/
def trainingRecordFilter (trainingRecord : ℕ → Record) (trainingResult : ℕ → ℕ) : ℕ → ℕ :=
  forSlices (fun k result => trainingRecordFilterSlice (trainingRecord k) result) trainingResult

def writeDqStandardValue : ℕ → ℕ := fun k => [0x39, 0x3c, 0x3c, 0x42, 0x40].getD k 0
def readDqsStandardValue : ℕ → ℕ := fun k => [0x51, 0x4a, 0x4b, 0x4d, 0x40].getD k 0

/-- The delays that a training leaves: one out of range gives way to the standard value. -/
def settleDelays (standard : ℕ → ℕ) (trainingRecord : ℕ → Record) (delays : ℕ → ℕ) : ℕ → ℕ :=
  forSlices (fun k delay => if delay < 0x30 ∨ delay > 0x60 then standard k else delay)
    (trainingRecordFilter trainingRecord delays)

/-- `write_dq` after `write_dq_training`, for the record its sweep has made. -/
def writeDqTraining : (ℕ → Record) → (ℕ → ℕ) → ℕ → ℕ := settleDelays writeDqStandardValue

/-- `read_dqs` after `read_dqs_training`. -/
def readDqsTraining : (ℕ → Record) → (ℕ → ℕ) → ℕ → ℕ := settleDelays readDqsStandardValue

/-- The value of PHY_177 for a setting of the sweep. -/
def vrefValue (i : ℕ) : ℕ :=
  if i < 0x20 then 1 <<< 8 ||| i else 3 <<< 8 ||| (i - 0x20 + 9)

/-- `ddr_vref_select`: the return value, and what it writes to PHY_177 in the end. Before the
scan `data` holds the value of the last setting of the sweep. -/
def ddrVrefSelect (flag : Record) : ℕ × ℕ :=
  let s := scanRecord flag (0x40 - 9) 3 midpoint (vrefValue (0x40 - 9 - 1))
  if s.data1 = 0 ∧ s.data2 = 0 then (1, 0x10f) else (0, vrefValue s.result)

/-- The result belongs to the middle of the first longest run, or is the default if no run is
long enough. -/
def WindowChosen (record : Record) (count minLen : ℕ) (value : ℕ → ℕ) (default result : ℕ) :
    Prop :=
  (∀ a b, FirstLongest (PassingRun record count minLen) a b → result = value (midpoint a b)) ∧
    ((∀ a b, ¬ PassingRun record count minLen a b) → result = default)

theorem midpoint_mem {a b : ℕ} (h : a ≤ b) : a ≤ midpoint a b ∧ midpoint a b ≤ b := by
  unfold midpoint
  omega

section Law
variable {record : Record} {count minLen : ℕ} {value : ℕ → ℕ}

/-- A scan for middles obeys the law exactly when the run at the end, if there is one, is the
longest. -/
theorem windowChosen_iff (hmin : 1 < minLen) (start default : ℕ)
    (hinj : ∀ i j, i < j → j < count → value i ≠ value j) :
    WindowChosen record count minLen value default
        (let s := scanRecord record count minLen midpoint start
         if s.data1 = 0 ∧ s.data2 = 0 then default else value s.result) ↔
      EndRunLongest record count minLen := by
  have hscan := scanRecord_scanned record count minLen midpoint start hmin
  have hzero := hscan.data_eq_zero_iff
  dsimp only
  constructor
  · intro hlaw
    by_contra hend
    obtain ⟨a, x, y, hrun, hbest, hapart, hresult⟩ := hscan.displaced hend
    have hchosen := hlaw.1 x y hbest
    rw [if_neg fun h => hzero.1 h a _ hrun, hresult] at hchosen
    have hend := midpoint_mem hrun.bound.1
    have hfirst := midpoint_mem hbest.1.bound.1
    have hlt := hrun.bound
    exact hinj (midpoint x y) (midpoint a (count - 1)) (by omega) (by omega) hchosen.symm
  · intro hend
    refine ⟨fun a b hbest => ?_, fun hnone => ?_⟩
    · rw [if_neg fun h => hzero.1 h a b hbest.1, hscan.result_eq hend hbest]
    · rw [if_pos (hzero.2 hnone)]

end Law

theorem vrefValue_injective {i j : ℕ} (hij : i < j) (hj : j < 0x40 - 9) :
    vrefValue i ≠ vrefValue j := by
  have hall : ∀ j < 0x40 - 9, ∀ i < j, vrefValue i ≠ vrefValue j := by decide +kernel
  exact hall j hj i hij

theorem trainingRecordFilter_apply (trainingRecord : ℕ → Record) (trainingResult : ℕ → ℕ) {k : ℕ}
    (hk : k < 4) : trainingRecordFilter trainingRecord trainingResult k =
      trainingRecordFilterSlice (trainingRecord k) (trainingResult k) :=
  forSlices_apply _ _ hk

theorem trainingRecordFilterSlice_iff (trainingRecord : Record) (trainingResult : ℕ) :
    WindowChosen trainingRecord 256 5 id 0
        (trainingRecordFilterSlice trainingRecord trainingResult) ↔
      EndRunLongest trainingRecord 256 5 :=
  windowChosen_iff (by decide) trainingResult 0 fun _ _ hij _ => hij.ne

theorem ddrVrefSelect_value (flag : Record) : (ddrVrefSelect flag).2 =
    (let s := scanRecord flag (0x40 - 9) 3 midpoint (vrefValue (0x40 - 9 - 1))
     if s.data1 = 0 ∧ s.data2 = 0 then 0x10f else vrefValue s.result) := by
  rw [ddrVrefSelect]
  dsimp only
  split <;> rfl

theorem settleDelays_range {standard : ℕ → ℕ} (trainingRecord : ℕ → Record) (delays : ℕ → ℕ)
    (hstandard : ∀ k < 4, 0x30 ≤ standard k ∧ standard k ≤ 0x60) {k : ℕ} (hk : k < 4) :
    0x30 ≤ settleDelays standard trainingRecord delays k ∧
      settleDelays standard trainingRecord delays k ≤ 0x60 := by
  have hk' := hstandard k hk
  rw [settleDelays, forSlices_apply _ _ hk]
  split_ifs with hout
  · exact hk'
  · omega

/-- The delays that the two trainings leave are in range, for every record. -/
theorem training_delays_range (trainingRecord : ℕ → Record) (delays : ℕ → ℕ) {k : ℕ} (hk : k < 4) :
    (0x30 ≤ writeDqTraining trainingRecord delays k ∧
        writeDqTraining trainingRecord delays k ≤ 0x60) ∧
      (0x30 ≤ readDqsTraining trainingRecord delays k ∧
        readDqsTraining trainingRecord delays k ≤ 0x60) :=
  ⟨settleDelays_range _ _ (by decide) hk, settleDelays_range _ _ (by decide) hk⟩

/-- For every record, the filter and the choice of the reference voltage take the middle of the
first longest run, or the default, if and only if no run at the end displaces a run that is not
shorter. -/
theorem trainingWindow_iff (trainingRecord : ℕ → Record) (trainingResult : ℕ → ℕ)
    (flag : Record) :
    (∀ k < 4, (WindowChosen (trainingRecord k) 256 5 id 0
        (trainingRecordFilter trainingRecord trainingResult k) ↔
      EndRunLongest (trainingRecord k) 256 5)) ∧
    (WindowChosen flag 55 3 vrefValue 0x10f (ddrVrefSelect flag).2 ↔ EndRunLongest flag 55 3) := by
  refine ⟨fun k hk => ?_, ?_⟩
  · rw [trainingRecordFilter_apply trainingRecord trainingResult hk]
    exact trainingRecordFilterSlice_iff _ _
  · rw [ddrVrefSelect_value]
    exact windowChosen_iff (by decide) _ _ fun _ _ => vrefValue_injective

/-- 149 passing settings, a failing one, and five more at the end. -/
def fiveAtTheEnd : Record := fun i => decide (i = 100 ∨ i = 250)

theorem fiveAtTheEnd_displaces : ¬ EndRunLongest fiveAtTheEnd 256 5 := by
  intro h
  have hlast : PassingRun fiveAtTheEnd 256 5 251 (256 - 1) := by
    refine ⟨⟨by decide, by decide, fun i hi _ => ?_, fun i hi => ?_, fun hlt => ?_⟩, by decide⟩
    · simp only [Passes, fiveAtTheEnd, decide_eq_false_iff_not]
      omega
    · have hi : i = 250 := by omega
      simp [Passes, fiveAtTheEnd, hi]
    · exact absurd hlt (by decide)
  have hlong : PassingRun fiveAtTheEnd 256 5 101 249 := by
    refine ⟨⟨by decide, by decide, fun i hi _ => ?_, fun i hi => ?_, fun _ => ?_⟩, by decide⟩
    · simp only [Passes, fiveAtTheEnd, decide_eq_false_iff_not]
      omega
    · have hi : i = 100 := by omega
      simp [Passes, fiveAtTheEnd, hi]
    · simp [Passes, fiveAtTheEnd]
  exact absurd (h 251 101 249 hlast hlong (by decide)) (by decide)

/-- The delay is set to 253, where the middle of the long run is 175. -/
theorem short_run_at_the_end_is_taken : ¬ ∀ (trainingRecord : ℕ → Record) (trainingResult : ℕ → ℕ),
    ∀ k < 4, WindowChosen (trainingRecord k) 256 5 id 0
      (trainingRecordFilter trainingRecord trainingResult k) := by
  intro h
  have hlaw := h (fun _ => fiveAtTheEnd) (fun _ => 0) 0 (by decide)
  rw [trainingRecordFilter_apply _ _ (by decide), trainingRecordFilterSlice_iff] at hlaw
  exact fiveAtTheEnd_displaces hlaw

end UBoot.Board
