import Mathlib.Tactic

/-!
# Waiting for the card

`mmc_send_status`. The counter is decremented after it is tested and tested once more after
the loop, so that a poll that ends the loop on the last turn and a loop that runs out are
told apart by the same number.
-/
namespace UBoot.Mmc

/-- What one `MMC_CMD_SEND_STATUS` returns. -/
structure Poll where
  err : ℤ
  response : BitVec 32

def commErr : ℤ := -18
def timeoutErr : ℤ := -19
def statusRdyForData : BitVec 32 := 0x100
def statusMask : BitVec 32 := ~~~0x0206BF7F

/-- The loop: an error to return, or the counter behind it. -/
def pollLoop (polls : ℕ → Poll) (i timeout : ℕ) : Except ℤ ℤ :=
  if (polls i).err ≠ 0 then .error (polls i).err
  else if (polls i).response &&& statusRdyForData ≠ 0 then .ok timeout
  else if (polls i).response &&& statusMask ≠ 0 then .error commErr
  else
    match timeout with
    | 0 => .ok (-1)
    | timeout + 1 => pollLoop polls (i + 1) timeout

/-- `mmc_send_status`. -/
def mmcSendStatus (polls : ℕ → Poll) (timeout : ℕ) : ℤ :=
  match pollLoop polls 0 timeout with
  | .error err => err
  | .ok left => if left = 0 then timeoutErr else 0

def Poll.Ready (p : Poll) : Prop := p.err = 0 ∧ p.response &&& statusRdyForData ≠ 0

/-- The card is busy, and nothing is wrong. -/
def Poll.Waiting (p : Poll) : Prop :=
  p.err = 0 ∧ p.response &&& statusRdyForData = 0 ∧ p.response &&& statusMask = 0

instance (p : Poll) : Decidable p.Ready := inferInstanceAs (Decidable (_ ∧ _))

instance (p : Poll) : Decidable p.Waiting := inferInstanceAs (Decidable (_ ∧ _ ∧ _))

/-- The `i`-th poll is the first that says something. -/
def FirstWord (polls : ℕ → Poll) (i : ℕ) : Prop :=
  (∀ j < i, (polls j).Waiting) ∧ ¬ (polls i).Waiting

/-- The verdict over the polls up to the `n`-th. -/
structure VerdictRight (polls : ℕ → Poll) (n : ℕ) (ret : ℤ) : Prop where
  ready : ret = 0 ↔ ∃ i ≤ n, FirstWord polls i ∧ (polls i).Ready
  failed : ∀ i ≤ n, FirstWord polls i → (polls i).err ≠ 0 → ret = (polls i).err
  status : ∀ i ≤ n, FirstWord polls i → (polls i).err = 0 → ¬ (polls i).Ready → ret = commErr
  timeout : (∀ i ≤ n, (polls i).Waiting) → ret = timeoutErr

variable {polls : ℕ → Poll}

theorem pollLoop_waiting {i timeout : ℕ} (h : (polls i).Waiting) :
    pollLoop polls i (timeout + 1) = pollLoop polls (i + 1) timeout := by
  rw [pollLoop, if_neg (not_not_intro h.1), if_neg (not_not_intro h.2.1),
    if_neg (not_not_intro h.2.2)]

/-- Busy answers only use up the budget. -/
theorem pollLoop_skip {n k : ℕ} (h : ∀ j < k, (polls j).Waiting) (hk : k ≤ n) :
    pollLoop polls 0 n = pollLoop polls k (n - k) := by
  induction k with
  | zero => rfl
  | succ k ih =>
    have hstep := @pollLoop_waiting _ _ (n - (k + 1)) (h k (Nat.lt_succ_self k))
    rw [← hstep, ih (fun j hj => h j (Nat.lt_succ_of_lt hj)) (by omega)]
    exact congrArg (pollLoop polls k) (by omega)

theorem mmcSendStatus_failed {n i : ℕ} (h : FirstWord polls i) (hi : i ≤ n)
    (herr : (polls i).err ≠ 0) : mmcSendStatus polls n = (polls i).err := by
  rw [mmcSendStatus, pollLoop_skip h.1 hi, pollLoop.eq_def, if_pos herr]

theorem mmcSendStatus_status {n i : ℕ} (h : FirstWord polls i) (hi : i ≤ n)
    (herr : (polls i).err = 0) (hready : ¬ (polls i).Ready) :
    mmcSendStatus polls n = commErr := by
  have hrdy : (polls i).response &&& statusRdyForData = 0 := by
    by_contra hrdy
    exact hready ⟨herr, hrdy⟩
  have hmask : (polls i).response &&& statusMask ≠ 0 := fun hmask => h.2 ⟨herr, hrdy, hmask⟩
  rw [mmcSendStatus, pollLoop_skip h.1 hi, pollLoop.eq_def, if_neg (not_not_intro herr),
    if_neg (not_not_intro hrdy), if_pos hmask]

/-- The answer on the last poll is taken for a timeout. -/
theorem mmcSendStatus_ready {n i : ℕ} (h : FirstWord polls i) (hi : i ≤ n)
    (hready : (polls i).Ready) : mmcSendStatus polls n = if i = n then timeoutErr else 0 := by
  rw [mmcSendStatus, pollLoop_skip h.1 hi, pollLoop.eq_def, if_neg (not_not_intro hready.1),
    if_pos hready.2]
  dsimp only
  by_cases hlast : i = n
  · rw [if_pos hlast, if_pos (by omega)]
  · rw [if_neg hlast, if_neg (by omega)]

/-- A loop that runs out leaves the counter at minus one. -/
theorem mmcSendStatus_exhausted {n : ℕ} (h : ∀ i ≤ n, (polls i).Waiting) :
    mmcSendStatus polls n = 0 := by
  obtain ⟨herr, hrdy, hmask⟩ := h n le_rfl
  rw [mmcSendStatus, pollLoop_skip (fun j hj => h j hj.le) le_rfl, Nat.sub_self, pollLoop.eq_def,
    if_neg (not_not_intro herr), if_neg (not_not_intro hrdy), if_neg (not_not_intro hmask)]
  rfl

/-- Only one poll is the first. -/
theorem FirstWord.unique {i j : ℕ} (hi : FirstWord polls i) (hj : FirstWord polls j) : i = j := by
  rcases Nat.lt_trichotomy i j with h | h | h
  · exact absurd (hj.1 i h) hi.2
  · exact h
  · exact absurd (hi.1 j h) hj.2

theorem exists_firstWord {n : ℕ} (h : ¬ ∀ i ≤ n, (polls i).Waiting) :
    ∃ i ≤ n, FirstWord polls i := by
  have hex : ∃ i, ¬ (polls i).Waiting := by
    by_contra hall
    exact h fun i _ => by_contra fun hi => hall ⟨i, hi⟩
  refine ⟨Nat.find hex, ?_, fun j hj => not_not.mp (Nat.find_min hex hj), Nat.find_spec hex⟩
  by_contra hlate
  exact h fun i hi => not_not.mp (Nat.find_min hex (by omega))

/-- The verdict is right exactly if some poll up to the last says something, and the last one
does not say that the card is ready. -/
theorem mmcSendStatus_right_iff (polls : ℕ → Poll) (n : ℕ) :
    VerdictRight polls n (mmcSendStatus polls n) ↔
      ∃ i ≤ n, FirstWord polls i ∧ (i = n → ¬ (polls i).Ready) := by
  constructor
  · intro h
    by_cases hall : ∀ i ≤ n, (polls i).Waiting
    · have htimeout := h.timeout hall
      rw [mmcSendStatus_exhausted hall] at htimeout
      exact absurd htimeout (by decide)
    · obtain ⟨i, hi, hfirst⟩ := exists_firstWord hall
      refine ⟨i, hi, hfirst, fun hlast hready => ?_⟩
      have hzero := h.ready.mpr ⟨i, hi, hfirst, hready⟩
      rw [mmcSendStatus_ready hfirst hi hready, if_pos hlast] at hzero
      exact absurd hzero (by decide)
  · rintro ⟨i, hi, hfirst, hlast⟩
    refine ⟨⟨fun hzero => ?_, ?_⟩, ?_, ?_, fun hall => absurd (hall i hi) hfirst.2⟩
    · refine ⟨i, hi, hfirst, ?_⟩
      by_contra hready
      by_cases herr : (polls i).err = 0
      · rw [mmcSendStatus_status hfirst hi herr hready] at hzero
        exact absurd hzero (by decide)
      · rw [mmcSendStatus_failed hfirst hi herr] at hzero
        exact herr hzero
    · rintro ⟨j, hj, hfirst', hready⟩
      obtain rfl := hfirst.unique hfirst'
      rw [mmcSendStatus_ready hfirst hi hready, if_neg fun h => hlast h hready]
    · intro j hj hfirst' herr
      exact mmcSendStatus_failed hfirst' hj herr
    · intro j hj hfirst' herr hready
      exact mmcSendStatus_status hfirst' hj herr hready

/-- A card that is busy on three polls, which is all there are, is reported as ready. -/
theorem busy_card_is_ready :
    ¬ VerdictRight (fun _ => ⟨0, 0⟩) 2 (mmcSendStatus (fun _ => ⟨0, 0⟩) 2) := by
  intro h
  exact absurd (h.timeout fun _ _ => by decide) (by decide)

end UBoot.Mmc
