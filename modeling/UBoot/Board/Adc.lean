import Mathlib.Tactic

/-!
# Averaging the voltages of an input

`pmic_get_adc_conversion` converts three times and averages the voltages in range. A
conversion that times out is told by the value 0xfff, scaled and judged like any other, and so
is one whose end only the third poll sees.
-/
namespace UBoot.Board

/-- What the converter answers during a conversion: the status register at each poll, and the
data registers. A register that cannot be read counts as zero. -/
structure Conversion where
  adccr1 : ℕ → UInt8
  adcdat0 : UInt8
  adcdat1 : UInt8

/-- The arguments of a call of `lc1160_reg_bit_write`. -/
structure BitWrite where
  reg : UInt8
  mask : UInt8
  value : UInt8
  deriving DecidableEq

def regAdccr1 : UInt8 := 0x87
def regAdccr2 : UInt8 := 0x88
def bitmaskAdend : UInt8 := 0x10
def bitmaskAdstart : UInt8 := 0x08
def bitmaskAdformat : UInt8 := 0x04
def bitmaskAdcen : UInt8 := 0x02
def bitmaskLdoadcen : UInt8 := 0x01
def bitmaskAdmode : UInt8 := 0x08
def bitmaskAdsel : UInt8 := 0x07

/-- `ad_state` after a poll. -/
def Conversion.adState (c : Conversion) (poll : ℕ) : Bool :=
  decide (c.adccr1 poll &&& bitmaskAdend ≠ 0)

/-- The loop of `lc1160_read_adc`: what is left of `timeout` behind it. -/
def pollLoop (adState : ℕ → Bool) : ℕ → ℕ → ℕ
  | 0, _ => 0
  | timeout + 1, poll =>
    if adState poll = false ∧ timeout ≠ 0 then pollLoop adState timeout (poll + 1) else timeout

/-- `((u16)data1 << 4) | ((u16)data0)`. -/
def adcOut (data0 data1 : UInt8) : ℕ := data1.toNat <<< 4 ||| data0.toNat

/-- `lc1160_read_adc`: the registers it sets, and the value. -/
def lc1160ReadAdc (val : UInt8) (c : Conversion) : List BitWrite × ℕ :=
  let timeout := pollLoop c.adState 3 0
  ([⟨regAdccr1, bitmaskLdoadcen, 0x01⟩, ⟨regAdccr2, bitmaskAdsel, val⟩,
    ⟨regAdccr2, bitmaskAdmode, 0x00⟩, ⟨regAdccr1, bitmaskAdformat, 0x00⟩,
    ⟨regAdccr1, bitmaskAdcen, 0x01⟩, ⟨regAdccr1, bitmaskAdstart, 0x01⟩,
    ⟨regAdccr1, bitmaskLdoadcen, 0x00⟩],
    if timeout = 0 then adcOut 0xff 0xff else adcOut c.adcdat0 c.adcdat1)

def gain (ch : ℤ) : ℕ := if ch = 0 then 2800 * 4 else 2800

/-- `lc1160_adc_adc2voltage`. -/
def lc1160AdcAdc2voltage (ch : ℤ) (c : Conversion) : ℤ :=
  let data := (lc1160ReadAdc (UInt8.ofNat (ch % 256).toNat) c).2
  ((data * gain ch / 4096 : ℕ) : ℤ)

/-- `(temp > min) && (temp < max)`. -/
def inRange (max min temp : ℤ) : Bool := decide (temp > min) && decide (temp < max)

/-- `lc1160_adc_conversion`; the conversions it makes are the first three. -/
def lc1160AdcConversion (channelNo max min : ℤ) (convs : ℕ → Conversion) : ℤ :=
  let sums := (List.range 3).foldl (fun (acc : ℤ × ℤ) i =>
    let temp := lc1160AdcAdc2voltage channelNo (convs i)
    if inRange max min temp then (acc.1 + temp, acc.2 + 1) else acc) (0, 0)
  if sums.2 = 0 then -1 else sums.1.tdiv sums.2

def adcMax (channelNo : ℤ) : ℤ :=
  if channelNo = 0 then 5500 else if 1 ≤ channelNo ∧ channelNo ≤ 3 then 5000 else 0

def adcMin (channelNo : ℤ) : ℤ := if channelNo = 0 then 2500 else 0

def pmicGetAdcConversion (channelNo : ℤ) (convs : ℕ → Conversion) : ℤ :=
  lc1160AdcConversion channelNo (adcMax channelNo) (adcMin channelNo) convs

/-- `struct lte26007_board_id_info`, without its work field `delta`. -/
structure BoardIdInfo where
  name : String
  id : ℕ
  r1551 : ℤ
  r1552 : ℤ
  deriving DecidableEq

def boardIdMap : List BoardIdInfo :=
  [⟨"LTE26007M10", 0, 10000, 10000⟩, ⟨"LTE26007M11", 1, 10000, 15000⟩,
    ⟨"LTE26007M20", 2, 10000, 24000⟩, ⟨"LTE26047M10", 3, 10000, 47000⟩,
    ⟨"LTE26047M11", 4, 15000, 10000⟩, ⟨"LTE26047M20", 5, 24000, 10000⟩]

def vadc : ℤ := 2850
def hardwareBoardAdc : ℤ := 3

/-- How far a voltage is from the one a board's divider gives. -/
def BoardIdInfo.delta (volt : ℤ) (b : BoardIdInfo) : ℕ :=
  (volt - (vadc * b.r1552).tdiv (b.r1552 + b.r1551)).natAbs

/-- The loop of `comip_board_info_get`, with the board at `min_index`. -/
def nearestBoard (volt : ℤ) : BoardIdInfo → List BoardIdInfo → BoardIdInfo
  | best, [] => best
  | best, b :: bs => nearestBoard volt (if b.delta volt < best.delta volt then b else best) bs

/-- `comip_board_info_get`: the board whose name it copies and whose id it returns. -/
def comipBoardInfoGet (convs : ℕ → Conversion) : BoardIdInfo :=
  nearestBoard (pmicGetAdcConversion hardwareBoardAdc convs) (boardIdMap.headD ⟨"", 0, 1, 1⟩)
    boardIdMap.tail

theorem nearestBoard_mem (volt : ℤ) (best : BoardIdInfo) (bs : List BoardIdInfo) :
    nearestBoard volt best bs ∈ best :: bs := by
  induction bs generalizing best with
  | nil => exact List.mem_cons_self ..
  | cons b bs ih =>
    rw [nearestBoard]
    by_cases hless : b.delta volt < best.delta volt
    · rw [if_pos hless]
      exact List.mem_cons_of_mem _ (ih b)
    · rw [if_neg hless]
      rcases List.mem_cons.mp (ih best) with h | h
      · exact List.mem_cons.mpr (.inl h)
      · exact List.mem_cons_of_mem _ (List.mem_cons_of_mem _ h)

theorem nearestBoard_le (volt : ℤ) {best : BoardIdInfo} {bs : List BoardIdInfo} :
    ∀ b ∈ best :: bs, (nearestBoard volt best bs).delta volt ≤ b.delta volt := by
  induction bs generalizing best with
  | nil =>
    intro b hb
    rw [List.mem_singleton.mp hb, nearestBoard]
  | cons b bs ih =>
    rw [nearestBoard]
    by_cases hless : b.delta volt < best.delta volt
    · rw [if_pos hless]
      intro d hd
      rcases List.mem_cons.mp hd with rfl | hd
      · exact (ih b (List.mem_cons_self ..)).trans hless.le
      · exact ih d hd
    · rw [if_neg hless]
      have hbest := ih best (List.mem_cons_self ..)
      intro d hd
      rcases List.mem_cons.mp hd with rfl | hd
      · exact hbest
      rcases List.mem_cons.mp hd with rfl | hd
      · exact hbest.trans (not_lt.mp hless)
      · exact ih d (List.mem_cons_of_mem _ hd)

/-- Whatever was measured, the board found is one of the table, and none is nearer. -/
theorem comipBoardInfoGet_nearest (convs : ℕ → Conversion) :
    comipBoardInfoGet convs ∈ boardIdMap ∧ ∀ b ∈ boardIdMap,
      (comipBoardInfoGet convs).delta (pmicGetAdcConversion hardwareBoardAdc convs) ≤
        b.delta (pmicGetAdcConversion hardwareBoardAdc convs) :=
  ⟨nearestBoard_mem _ _ _, nearestBoard_le _⟩

/-- Three timeouts name a board, another one than an error would. -/
example : (comipBoardInfoGet fun _ => ⟨fun _ => 0, 0, 0⟩).name = "LTE26047M10" ∧
    (nearestBoard (-1) (boardIdMap.headD ⟨"", 0, 1, 1⟩) boardIdMap.tail).name = "LTE26047M20" := by
  decide +kernel

/-- The voltage in the data registers. -/
def Conversion.voltage (ch : ℤ) (c : Conversion) : ℤ :=
  ((adcOut c.adcdat0 c.adcdat1 * gain ch / 4096 : ℕ) : ℤ)

/-- One of the polls sees the end of the conversion. -/
def Conversion.Completed (c : Conversion) : Prop :=
  c.adState 0 = true ∨ c.adState 1 = true ∨ c.adState 2 = true

instance (c : Conversion) : Decidable c.Completed := inferInstanceAs (Decidable (_ ∨ _))

/-- The voltage that a conversion should add: none if it did not complete or is not in range. -/
def due (ch : ℤ) (c : Conversion) : Option ℤ :=
  if c.Completed ∧ inRange (adcMax ch) (adcMin ch) (c.voltage ch) = true then some (c.voltage ch)
  else none

/-- The voltage that a conversion does add. -/
def contribution (ch : ℤ) (c : Conversion) : Option ℤ :=
  if inRange (adcMax ch) (adcMin ch) (lc1160AdcAdc2voltage ch c) then
    some (lc1160AdcAdc2voltage ch c)
  else none

/-- The average, or the error if there is nothing to average. -/
def average (voltages : List ℤ) : ℤ :=
  if voltages.length = 0 then -1 else voltages.sum.tdiv voltages.length

/-- Each conversion adds what it should, and the average of these is returned. -/
structure AdcRight (ch : ℤ) (convs : ℕ → Conversion) : Prop where
  contributes : ∀ i < 3, contribution ch (convs i) = due ch (convs i)
  returns : pmicGetAdcConversion ch convs =
    average ((List.range 3).filterMap fun i => due ch (convs i))

/-- The first two polls see the end of the conversion; or the third does or none, and then the
value that tells of a timeout is out of range and so is the conversion's own, if it ended, or
the two values are the same. -/
def Conversion.Settled (ch : ℤ) (c : Conversion) : Prop :=
  (c.adState 0 = true ∨ c.adState 1 = true) ∨
    if 1 ≤ ch ∧ ch ≤ 3 then c.adState 2 = true ∧ adcOut c.adcdat0 c.adcdat1 = 0xfff
    else ¬ (c.adState 2 = true ∧ inRange (adcMax ch) (adcMin ch) (c.voltage ch) = true)

section Loop
variable {ch : ℤ} {c : Conversion}

theorem conversion_foldl (ch : ℤ) (convs : ℕ → Conversion) (is : List ℕ) (acc : ℤ × ℤ) :
    is.foldl (fun (acc : ℤ × ℤ) i =>
      let temp := lc1160AdcAdc2voltage ch (convs i)
      if inRange (adcMax ch) (adcMin ch) temp then (acc.1 + temp, acc.2 + 1) else acc) acc =
    (acc.1 + (is.filterMap fun i => contribution ch (convs i)).sum,
      acc.2 + (is.filterMap fun i => contribution ch (convs i)).length) := by
  induction is generalizing acc with
  | nil => simp
  | cons i is ih =>
    rw [List.foldl_cons, ih, List.filterMap_cons, contribution]
    dsimp only
    split
    · rename_i hrange
      rw [List.sum_cons, List.length_cons, Nat.cast_add, Nat.cast_one, add_assoc, add_assoc,
        add_comm (1 : ℤ)]
    · rfl

theorem pmicGetAdcConversion_eq (ch : ℤ) (convs : ℕ → Conversion) :
    pmicGetAdcConversion ch convs =
      average ((List.range 3).filterMap fun i => contribution ch (convs i)) := by
  rw [pmicGetAdcConversion, lc1160AdcConversion, conversion_foldl, average]
  simp only [zero_add, Nat.cast_eq_zero]

/-- The loop times out unless one of the first two polls sees the end. -/
theorem pollLoop_eq_zero_iff (adState : ℕ → Bool) :
    pollLoop adState 3 0 = 0 ↔ ¬ (adState 0 = true ∨ adState 1 = true) := by
  simp only [pollLoop]
  cases adState 0 <;> cases adState 1 <;> simp

theorem adc2voltage_of_ended (h : c.adState 0 = true ∨ c.adState 1 = true) :
    lc1160AdcAdc2voltage ch c = c.voltage ch := by
  have htimeout : ¬ pollLoop c.adState 3 0 = 0 := by
    rw [pollLoop_eq_zero_iff, not_not]
    exact h
  simp only [lc1160AdcAdc2voltage, lc1160ReadAdc, if_neg htimeout, Conversion.voltage]

theorem adc2voltage_of_not_ended (h : ¬ (c.adState 0 = true ∨ c.adState 1 = true)) :
    lc1160AdcAdc2voltage ch c = if ch = 0 then 11197 else 2799 := by
  have htimeout : pollLoop c.adState 3 0 = 0 := (pollLoop_eq_zero_iff _).mpr h
  have hout : adcOut 0xff 0xff = 4095 := by decide
  simp only [lc1160AdcAdc2voltage, lc1160ReadAdc, if_pos htimeout, gain, hout]
  split <;> rfl

/-- A timeout counts on the channels 1 to 3 only. -/
theorem contribution_of_not_ended (h : ¬ (c.adState 0 = true ∨ c.adState 1 = true)) :
    contribution ch c = if 1 ≤ ch ∧ ch ≤ 3 then some 2799 else none := by
  rw [contribution, adc2voltage_of_not_ended h]
  by_cases h0 : ch = 0
  · subst h0
    rfl
  · by_cases h13 : 1 ≤ ch ∧ ch ≤ 3
    · simp [inRange, adcMax, adcMin, h0, h13]
    · simp [inRange, adcMax, adcMin, h0, h13]

theorem voltage_eq_2799_iff (h0 : ch ≠ 0) :
    c.voltage ch = 2799 ↔ adcOut c.adcdat0 c.adcdat1 = 0xfff := by
  rw [Conversion.voltage, gain, if_neg h0]
  omega

/-- Which conversions add what they should. -/
theorem contribution_eq_due_iff : contribution ch c = due ch c ↔ c.Settled ch := by
  rw [Conversion.Settled]
  by_cases hended : c.adState 0 = true ∨ c.adState 1 = true
  · have hcompleted : c.Completed := by
      unfold Conversion.Completed
      tauto
    rw [contribution, adc2voltage_of_ended hended, due]
    simp [hcompleted, hended]
  · rw [contribution_of_not_ended hended, due]
    have hcompleted : c.Completed ↔ c.adState 2 = true := by
      unfold Conversion.Completed
      tauto
    simp only [hcompleted]
    by_cases h13 : 1 ≤ ch ∧ ch ≤ 3
    · have hvoltage : c.voltage ch = 2799 ↔ _ := voltage_eq_2799_iff (by omega)
      rw [if_pos h13, if_pos h13, ← hvoltage]
      constructor
      · intro h
        split at h
        · rename_i hrange
          exact .inr ⟨hrange.1, (Option.some.inj h).symm⟩
        · cases h
      · intro h
        obtain ⟨hthird, heq⟩ := h.resolve_left hended
        have hrange : inRange (adcMax ch) (adcMin ch) 2799 = true := by
          have hne : ch ≠ 0 := by omega
          simp [inRange, adcMax, adcMin, h13, hne]
        rw [heq, if_pos ⟨hthird, hrange⟩]
    · rw [if_neg h13, if_neg h13]
      constructor
      · intro h
        right
        intro hdue
        rw [if_pos hdue] at h
        cases h
      · intro h
        rw [if_neg (h.resolve_left hended)]

end Loop

/-- The conversions are averaged as they should be exactly if each of them is settled. -/
theorem adcRight_iff (ch : ℤ) (convs : ℕ → Conversion) :
    AdcRight ch convs ↔ ∀ i < 3, (convs i).Settled ch := by
  constructor
  · intro h i hi
    exact contribution_eq_due_iff.mp (h.contributes i hi)
  · intro h
    have hsame : ∀ i < 3, contribution ch (convs i) = due ch (convs i) :=
      fun i hi => contribution_eq_due_iff.mpr (h i hi)
    refine ⟨hsame, ?_⟩
    rw [pmicGetAdcConversion_eq]
    refine congrArg average (List.filterMap_congr fun i hi => ?_)
    exact hsame i (List.mem_range.mp hi)

/-- Three timeouts on the channel of the board's divider: a voltage, no error. -/
theorem timeouts_give_a_voltage :
    ¬ AdcRight hardwareBoardAdc (fun _ => ⟨fun _ => 0, 0, 0⟩) := by
  intro h
  have hfirst := h.contributes 0 (by decide)
  revert hfirst
  decide

end UBoot.Board
