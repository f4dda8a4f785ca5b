import UBoot.Board.TrainingScan

/-!
# The training of the read gate

`gate_software_training` looks for the last setting of the longest run of passing ones, takes
three quarters of a clock from it, writes the setting to the slice's registers and saves it. A
coarse step is half a clock, eight fine steps of `0x10`. Where no setting passes, what is
reduced and written is what stood on the stack.
-/
namespace UBoot.Board
open Runs

/-- `gate_coarse_delay[k]` and `gate_fine_delay[k]`. -/
structure Delay where
  coarse : BitVec 32
  fine : BitVec 32
  deriving DecidableEq

namespace Delay

/-- The setting at a position of the sweep. -/
def ofSetting (data2 : ℕ) : Delay :=
  ⟨BitVec.ofNat 32 (data2 / 16), BitVec.ofNat 32 (data2 % 16 * 0x10)⟩

/-- "Find the last working value and then reduce by 3/4clk". -/
def reduce (d : Delay) : Delay :=
  if d.fine ≥ 0x40 then ⟨d.coarse - 1, d.fine - 0x40⟩ else ⟨d.coarse - 2, d.fine + 0x40⟩

/-- The bits of a coarse delay in the register. -/
def coarseBits (d : Delay) : BitVec 32 := (d.coarse &&& 1) <<< 29 ||| d.coarse >>> 1

end Delay

abbrev Registers := ℕ → BitVec 32

/-- A read-modify-write of a register. -/
def Registers.modify (regs : Registers) (addr : ℕ) (f : BitVec 32 → BitVec 32) : Registers :=
  Function.update regs addr (f (regs addr))

section Addresses
variable (freq ddrId k : ℕ)

def ddrCtlBase : ℕ := 0xE1001000 + 0x1000 * ddrId
def ddrPhyBase : ℕ := 0xE1001400 + 0x1000 * ddrId
def levelAddr : ℕ := ddrPhyBase ddrId + 0x4c + freq * 0x04 + 32 * 4 * k
def coarseAddr : ℕ := ddrPhyBase ddrId + 0x8 + freq * 0x1c + 32 * 4 * k
def fineAddr : ℕ := ddrPhyBase ddrId + 0x14 + freq * 0x1c + 32 * 4 * k

def coarseMask : BitVec 32 := 1 <<< 29 ||| 0x7
def fineMask : BitVec 32 := 0x00FFFFFF

/-- The body of the loop that writes the settings back. -/
def gateWriteBack (d : Delay) (regs : Registers) : Registers :=
  let regs := regs.modify (levelAddr freq ddrId k) (· ||| 1 <<< 12)
  let regs := regs.modify (coarseAddr freq ddrId k) (· &&& ~~~coarseMask)
  let regs := regs.modify (coarseAddr freq ddrId k) (· ||| d.coarseBits)
  let regs := regs.modify (fineAddr freq ddrId k) (· &&& fineMask)
  let regs := regs.modify (fineAddr freq ddrId k) (· ||| d.fine <<< 24)
  let regs := regs.modify (ddrCtlBase ddrId + 0x74) (· ||| 1 <<< 8)
  regs.modify (ddrCtlBase ddrId + 0x74) (· ||| 1 <<< 8)

/-- The setting that a slice's registers hold. -/
def programmed (regs : Registers) : Delay :=
  let coarse := regs (coarseAddr freq ddrId k)
  let fine := regs (fineAddr freq ddrId k)
  ⟨(coarse &&& 0x7) <<< 1 ||| (coarse &&& 1 <<< 29) >>> 29, (fine &&& ~~~fineMask) >>> 24⟩

end Addresses

/-- The registers, and the arrays `f0_ddr0_gate_training_coarse_delay` and so on by frequency,
controller and slice. -/
structure GateState where
  regs : Registers
  saved : ℕ → ℕ → ℕ → Delay

/-- The two loops that compute the settings: the last setting of the longest run, and then the
reduction. -/
def gateDelays (dataRecord : ℕ → Record) (gate : ℕ → Delay) : ℕ → Delay :=
  let gate := forSlices (fun k d =>
    (scanRecord (dataRecord k) 96 5 (fun _ data2 => Delay.ofSetting data2) d).result) gate
  forSlices (fun _ d => d.reduce) gate

/-- `gate_software_training` behind its sweep, which has made the record; `gate` is what stands
in the two local arrays. -/
def gateSoftwareTraining (freq ddrId : ℕ) (dataRecord : ℕ → Record) (gate : ℕ → Delay)
    (s : GateState) : GateState :=
  let gate := gateDelays dataRecord gate
  let regs := (List.range 4).foldl (fun regs k => gateWriteBack freq ddrId k (gate k) regs) s.regs
  let saved :=
    if (freq = 0 ∨ freq = 1) ∧ (ddrId = 0 ∨ ddrId = 1) then
      Function.update s.saved freq (Function.update (s.saved freq) ddrId
        (forSlices (fun k _ => gate k) (s.saved freq ddrId)))
    else s.saved
  ⟨regs, saved⟩

theorem Registers.modify_self (regs : Registers) (addr : ℕ) (f : BitVec 32 → BitVec 32) :
    regs.modify addr f addr = f (regs addr) := Function.update_self ..

theorem Registers.modify_of_ne (regs : Registers) {addr other : ℕ} (f : BitVec 32 → BitVec 32)
    (h : other ≠ addr) : regs.modify addr f other = regs other := Function.update_of_ne h ..

/-- Clearing a field and adding bits leaves the field with what the bits have there. -/
theorem clear_or_and (w d mask part : BitVec 32) (h : ~~~mask &&& part = 0) :
    (w &&& ~~~mask ||| d) &&& part = d &&& part := by
  rw [BitVec.and_comm _ part, BitVec.and_or_distrib_left, BitVec.and_comm part (w &&& _),
    BitVec.and_assoc, h, BitVec.and_comm part d]
  simp

section Programmed
variable {freq ddrId k : ℕ} {d : Delay} {regs : Registers}

/-- The setting that reads back from the bits of a setting. -/
def Delay.readBack (d : Delay) : Delay :=
  ⟨(d.coarseBits &&& 0x7) <<< 1 ||| (d.coarseBits &&& 1 <<< 29) >>> 29,
    (d.fine <<< 24 &&& ~~~fineMask) >>> 24⟩

theorem coarseAddr_ne (hfreq : freq < 2) (i : ℕ) :
    coarseAddr freq ddrId k ≠ levelAddr freq ddrId i ∧
    coarseAddr freq ddrId k ≠ fineAddr freq ddrId i ∧
    coarseAddr freq ddrId k ≠ ddrCtlBase ddrId + 0x74 := by
  unfold coarseAddr levelAddr fineAddr ddrCtlBase ddrPhyBase
  omega

theorem fineAddr_ne (hfreq : freq < 2) (i : ℕ) :
    fineAddr freq ddrId k ≠ levelAddr freq ddrId i ∧
    fineAddr freq ddrId k ≠ coarseAddr freq ddrId i ∧
    fineAddr freq ddrId k ≠ ddrCtlBase ddrId + 0x74 := by
  unfold fineAddr levelAddr coarseAddr ddrCtlBase ddrPhyBase
  omega

theorem programmed_gateWriteBack (hfreq : freq < 2) :
    programmed freq ddrId k (gateWriteBack freq ddrId k d regs) = d.readBack := by
  obtain ⟨-, hcf, hcc⟩ := @coarseAddr_ne freq ddrId k hfreq k
  obtain ⟨hfl, hfc, hff⟩ := @fineAddr_ne freq ddrId k hfreq k
  have hcoarse : gateWriteBack freq ddrId k d regs (coarseAddr freq ddrId k) =
      regs.modify (levelAddr freq ddrId k) (· ||| 1 <<< 12) (coarseAddr freq ddrId k) &&&
        ~~~coarseMask ||| d.coarseBits := by
    simp only [gateWriteBack, Registers.modify_self, Registers.modify_of_ne _ _ hcf,
      Registers.modify_of_ne _ _ hcc]
  have hfine : gateWriteBack freq ddrId k d regs (fineAddr freq ddrId k) =
      regs (fineAddr freq ddrId k) &&& ~~~~~~fineMask ||| d.fine <<< 24 := by
    simp only [gateWriteBack, Registers.modify_self, Registers.modify_of_ne _ _ hfl,
      Registers.modify_of_ne _ _ hfc, Registers.modify_of_ne _ _ hff, BitVec.not_not]
  rw [programmed, hcoarse, hfine, Delay.readBack, clear_or_and _ _ _ _ (by decide),
    clear_or_and _ _ _ _ (by decide), clear_or_and _ _ _ _ (by decide)]

theorem programmed_gateWriteBack_of_ne (hfreq : freq < 2) {i : ℕ} (hi : k ≠ i) :
    programmed freq ddrId k (gateWriteBack freq ddrId i d regs) = programmed freq ddrId k regs := by
  obtain ⟨hcl, hcf, hcc⟩ := @coarseAddr_ne freq ddrId k hfreq i
  obtain ⟨hfl, hfc, hff⟩ := @fineAddr_ne freq ddrId k hfreq i
  have hcoarse : coarseAddr freq ddrId k ≠ coarseAddr freq ddrId i := by
    unfold coarseAddr
    omega
  have hfine : fineAddr freq ddrId k ≠ fineAddr freq ddrId i := by
    unfold fineAddr
    omega
  simp only [programmed, gateWriteBack, Registers.modify_of_ne _ _ hcl,
    Registers.modify_of_ne _ _ hcf, Registers.modify_of_ne _ _ hcc, Registers.modify_of_ne _ _ hfl,
    Registers.modify_of_ne _ _ hfc, Registers.modify_of_ne _ _ hff,
    Registers.modify_of_ne _ _ hcoarse, Registers.modify_of_ne _ _ hfine]

end Programmed

section Training
variable {freq ddrId k : ℕ} (dataRecord : ℕ → Record) (gate : ℕ → Delay) (s : GateState)

/-- The setting that the training arrives at for a slice. -/
def trainedDelay (record : Record) (d : Delay) : Delay :=
  (scanRecord record 96 5 (fun _ data2 => Delay.ofSetting data2) d).result.reduce

theorem gateDelays_apply (hk : k < 4) :
    gateDelays dataRecord gate k = trainedDelay (dataRecord k) (gate k) := by
  rw [gateDelays, forSlices_apply _ _ hk, forSlices_apply _ _ hk, trainedDelay]

theorem programmed_training (hfreq : freq < 2) (hk : k < 4) :
    programmed freq ddrId k (gateSoftwareTraining freq ddrId dataRecord gate s).regs =
      (trainedDelay (dataRecord k) (gate k)).readBack := by
  rw [← gateDelays_apply dataRecord gate hk]
  simp only [gateSoftwareTraining]
  generalize gateDelays dataRecord gate = gate
  interval_cases k <;>
    simp [List.range_succ, programmed_gateWriteBack hfreq, programmed_gateWriteBack_of_ne hfreq]

theorem saved_training (hfreq : freq < 2) (hddr : ddrId < 2) (hk : k < 4) :
    (gateSoftwareTraining freq ddrId dataRecord gate s).saved freq ddrId k =
      trainedDelay (dataRecord k) (gate k) := by
  have hsave : (freq = 0 ∨ freq = 1) ∧ (ddrId = 0 ∨ ddrId = 1) := by omega
  simp only [gateSoftwareTraining, if_pos hsave, Function.update_self, forSlices_apply _ _ hk,
    gateDelays_apply _ _ hk]

end Training

/-- A setting of the sweep in fine steps. -/
def delaySteps (setting : ℕ) : ℕ := 8 * (setting / 16) + setting % 16

/-- The setting, valid as such, stands twelve fine steps before another one. -/
def TwelveBefore (last : ℕ) (d : Delay) : Prop :=
  ∃ coarse < 6, ∃ fine < 16, d = ⟨BitVec.ofNat 32 coarse, BitVec.ofNat 32 (fine * 0x10)⟩ ∧
    8 * coarse + fine + 12 = delaySteps last

instance (last : ℕ) (d : Delay) : Decidable (TwelveBefore last d) :=
  inferInstanceAs (Decidable (∃ coarse < 6, ∃ fine < 16, _ ∧ _))

/-- For a slice with a long run, the setting twelve steps before the last one of the first longest
is programmed and saved if there is such a setting; without a run, what is programmed does not
depend on the arrays' old content. -/
def GateLaw (freq ddrId : ℕ) (dataRecord : ℕ → Record) (s : GateState) (k : ℕ) : Prop :=
  (∀ a b, FirstLongest (PassingRun (dataRecord k) 96 5) a b → 12 ≤ delaySteps b → ∀ gate,
    let r := gateSoftwareTraining freq ddrId dataRecord gate s
    TwelveBefore b (programmed freq ddrId k r.regs) ∧ TwelveBefore b (r.saved freq ddrId k)) ∧
  ((∀ a b, ¬ PassingRun (dataRecord k) 96 5 a b) → ∀ gate gate',
    programmed freq ddrId k (gateSoftwareTraining freq ddrId dataRecord gate s).regs =
      programmed freq ddrId k (gateSoftwareTraining freq ddrId dataRecord gate' s).regs)

/-- The slice has a long run, and if there is a setting twelve steps before the last one of the
first longest, then that last one has a coarse delay and no run at the end displaces it. -/
def GateFound (record : Record) : Prop :=
  (∃ a b, PassingRun record 96 5 a b) ∧
    ∀ a b, FirstLongest (PassingRun record 96 5) a b → 12 ≤ delaySteps b →
      16 ≤ b ∧ EndRunLongest record 96 5

/-- A setting with a coarse delay is reduced to the one twelve steps before, which the registers
can hold. -/
theorem reduce_ofSetting {b : ℕ} (hb : b < 96) (hcoarse : 16 ≤ b) (hsteps : 12 ≤ delaySteps b) :
    TwelveBefore b (Delay.ofSetting b).reduce ∧
      (Delay.ofSetting b).reduce.readBack = (Delay.ofSetting b).reduce := by
  have hall : ∀ b < 96, 16 ≤ b → 12 ≤ delaySteps b → TwelveBefore b (Delay.ofSetting b).reduce ∧
      (Delay.ofSetting b).reduce.readBack = (Delay.ofSetting b).reduce := by decide +kernel
  exact hall b hb hcoarse hsteps

/-- Without a coarse delay the subtraction wraps. -/
theorem reduce_underflow {b : ℕ} (hcoarse : b < 16) (hsteps : 12 ≤ delaySteps b) :
    ¬ TwelveBefore b (Delay.ofSetting b).reduce := by
  have hall : ∀ b < 16, 12 ≤ delaySteps b → ¬ TwelveBefore b (Delay.ofSetting b).reduce := by
    decide +kernel
  exact hall b hcoarse hsteps

/-- The last setting of the sweep reduces to no other setting's place. -/
theorem reduce_last {b : ℕ} (hb : b < 95) : ¬ TwelveBefore b (Delay.ofSetting 95).reduce := by
  have hall : ∀ b < 95, ¬ TwelveBefore b (Delay.ofSetting 95).reduce := by decide +kernel
  exact hall b hb

theorem trainedDelay_scanned (record : Record) (d : Delay) :
    Scanned (PassingRun record 96 5) 96 (fun _ data2 => Delay.ofSetting data2) d
      (scanRecord record 96 5 (fun _ data2 => Delay.ofSetting data2) d) :=
  scanRecord_scanned record 96 5 _ d (by decide)

/-- Without a run the old content is reduced. -/
theorem trainedDelay_of_none {record : Record} (h : ∀ a b, ¬ PassingRun record 96 5 a b)
    (d : Delay) : trainedDelay record d = d.reduce := by
  rw [trainedDelay]
  cases trainedDelay_scanned record d with
  | none hnone hstart => rw [hstart]
  | inside a b hbest hinner hresult hdata => exact absurd hbest.1 (h a b)
  | atEnd a hrun hresult hdata => exact absurd hrun (h a _)

section Law
variable {freq ddrId k : ℕ} {dataRecord : ℕ → Record} {s : GateState}

theorem GateLaw.found (hfreq : freq < 2) (hddr : ddrId < 2) (hk : k < 4)
    (h : GateLaw freq ddrId dataRecord s k) : GateFound (dataRecord k) := by
  obtain ⟨hrun, hnone⟩ := h
  simp only [programmed_training _ _ _ hfreq hk, saved_training _ _ _ hfreq hddr hk] at hrun hnone
  constructor
  · -- two contents of the arrays would be programmed
    by_contra hempty
    push Not at hempty
    have hsame := hnone hempty (fun _ => ⟨2, 0⟩) fun _ => ⟨4, 0⟩
    rw [trainedDelay_of_none hempty, trainedDelay_of_none hempty] at hsame
    exact absurd hsame (by decide)
  · intro a b hbest hsteps
    have hsaved := (hrun a b hbest hsteps fun _ => ⟨0, 0⟩).2
    rw [trainedDelay] at hsaved
    have hscan := trainedDelay_scanned (dataRecord k) ⟨0, 0⟩
    by_cases hend : EndRunLongest (dataRecord k) 96 5
    · refine ⟨?_, hend⟩
      by_contra hcoarse
      rw [hscan.result_eq hend hbest] at hsaved
      exact reduce_underflow (by omega) hsteps hsaved
    · obtain ⟨x, y, z, hlast, hfirst, hapart, hresult⟩ := hscan.displaced hend
      obtain ⟨-, rfl⟩ := hbest.unique hfirst
      have hbound := hlast.bound
      rw [hresult] at hsaved
      exact absurd hsaved (reduce_last (by omega))

theorem GateFound.law (hfreq : freq < 2) (hddr : ddrId < 2) (hk : k < 4)
    (h : GateFound (dataRecord k)) : GateLaw freq ddrId dataRecord s k := by
  obtain ⟨⟨a, b, hexists⟩, hfound⟩ := h
  simp only [GateLaw, programmed_training _ _ _ hfreq hk, saved_training _ _ _ hfreq hddr hk]
  refine ⟨fun a b hbest hsteps gate => ?_, fun hempty => absurd hexists (hempty a b)⟩
  obtain ⟨hcoarse, hend⟩ := hfound a b hbest hsteps
  have hreduce := reduce_ofSetting hbest.1.bound.2 hcoarse hsteps
  rw [trainedDelay, (trainedDelay_scanned (dataRecord k) (gate k)).result_eq hend hbest,
    hreduce.2]
  exact ⟨hreduce.1, hreduce.1⟩

end Law

/-- For every record, a slice obeys the law of the gate if and only if its record has a long run
and neither the reduction wraps nor a run at the end displaces the longest one. -/
theorem gateLaw_iff (freq ddrId : ℕ) (dataRecord : ℕ → Record) (s : GateState) (k : ℕ)
    (hfreq : freq < 2) (hddr : ddrId < 2) (hk : k < 4) :
    GateLaw freq ddrId dataRecord s k ↔ GateFound (dataRecord k) :=
  ⟨fun h => h.found hfreq hddr hk, fun h => h.law hfreq hddr hk⟩

/-- The settings from 40 to 60 pass. -/
def fortyToSixty : Record := fun i => decide (¬ (40 ≤ i ∧ i ≤ 60))

theorem fortyToSixty_passes {i : ℕ} (h : fortyToSixty i = false) : 40 ≤ i ∧ i ≤ 60 := by
  simp only [fortyToSixty, decide_eq_false_iff_not] at h
  omega

theorem fortyToSixty_run : PassingRun fortyToSixty 96 5 40 60 := by
  refine ⟨⟨by decide, by decide, fun i hi hle => ?_, fun i hi => ?_, fun _ => ?_⟩, by decide⟩
  · simp [Passes, fortyToSixty, hi, hle]
  · have hi : i = 39 := by omega
    simp [Passes, fortyToSixty, hi]
  · simp [Passes, fortyToSixty]

theorem fortyToSixty_found : GateFound fortyToSixty := by
  have honly : ∀ a b, PassingRun fortyToSixty 96 5 a b → b = 60 := by
    intro a b hrun
    have hin := fortyToSixty_passes hrun.passes_left
    have hle := hrun.bound
    rcases hrun.eq_or_apart fortyToSixty_run with heq | hbefore | hafter
    · exact heq.2
    · omega
    · omega
  refine ⟨⟨40, 60, fortyToSixty_run⟩, fun a b hbest _ => ⟨?_, ?_⟩⟩
  · rw [honly a b hbest.1]
    decide
  · exact endRunLongest_of_inner fun x y hrun => by rw [honly x y hrun]; decide

theorem fortyToSixty_trained : GateLaw 1 0 (fun _ => fortyToSixty)
    ⟨fun _ => 0, fun _ _ _ => ⟨0, 0⟩⟩ 2 :=
  (gateLaw_iff 1 0 (fun _ => fortyToSixty) ⟨fun _ => 0, fun _ _ _ => ⟨0, 0⟩⟩ 2 (by decide)
    (by decide) (by decide)).2 fortyToSixty_found

/-- Where no setting passes, what stood in the arrays is reduced and programmed. -/
theorem no_run_programs_old_content : ¬ ∀ (freq ddrId : ℕ) (dataRecord : ℕ → Record)
    (s : GateState) (k : ℕ), freq < 2 → ddrId < 2 → k < 4 → GateLaw freq ddrId dataRecord s k := by
  intro h
  have hlaw := h 0 0 (fun _ _ => true) ⟨fun _ => 0, fun _ _ _ => ⟨0, 0⟩⟩ 0 (by decide) (by decide)
    (by decide)
  obtain ⟨a, b, hrun⟩ := (hlaw.found (by decide) (by decide) (by decide)).1
  exact absurd hrun.passes_left (by decide)

end UBoot.Board
