import UBoot.Library.BitField
import UBoot.Library.Machine

/-!
# Pin configuration

The register of a pin holds its function, its pull and its drive strength. Each setter reads
the register, replaces the bits of one field and writes it back. The pull and the drive
strength setter let the first mode that is out of range through, and the array of drive
strengths is handed to the pull setter.
-/
namespace UBoot.Board

/-- The pin registers, by address. -/
abbrev MuxRegs := ℕ → BitVec 32

def mfpPinMax : ℕ := 255
def mfpPinModeMax : ℕ := 4
def mfpPullModeMax : ℕ := 4
def mfpDsModeMax : ℕ := 7

def muxPinBase : ℕ := 0xE1009000
def mfpReg (x : ℕ) : ℕ := muxPinBase + x * 4

def mfpAfMask : BitVec 32 := 0x3 <<< 0
def mfpAf (x : BitVec 32) : BitVec 32 := x <<< 0 &&& mfpAfMask
def mfpPullMask : BitVec 32 := 0x3 <<< 2
def mfpPull (x : BitVec 32) : BitVec 32 := x <<< 2 &&& mfpPullMask
def mfpDsMask : BitVec 32 := 0x7 <<< 4
def mfpDs (x : BitVec 32) : BitVec 32 := x <<< 4 &&& mfpDsMask

/-- `struct mfp_pin_cfg`, `struct mfp_pull_cfg` and `struct mfp_ds_cfg`. -/
structure MfpCfg where
  id : BitVec 32
  mode : BitVec 32

/-- The body of the setters: refuse, or replace the bits under a mask in the pin's register. -/
def configMasked (refused : Bool) (id mask bits : BitVec 32) (s : MuxRegs) : ℤ × MuxRegs :=
  if refused then (-1, s)
  else
    let reg := mfpReg id.toNat
    let val := s reg
    (0, Function.update s reg (val &&& ~~~mask ||| bits))

def comipMfpConfig (id mode : BitVec 32) : MuxRegs → ℤ × MuxRegs :=
  configMasked (decide (id.toNat ≥ mfpPinMax) || decide (mode.toNat ≥ mfpPinModeMax)) id
    mfpAfMask (mfpAf mode)

def comipMfpConfigPull (id mode : BitVec 32) : MuxRegs → ℤ × MuxRegs :=
  configMasked (decide (id.toNat ≥ mfpPinMax) || decide (mode.toNat > mfpPullModeMax)) id
    mfpPullMask (mfpPull mode)

def comipMfpConfigDs (id mode : BitVec 32) : MuxRegs → ℤ × MuxRegs :=
  configMasked (decide (id.toNat ≥ mfpPinMax) || decide (mode.toNat > mfpDsModeMax)) id
    mfpDsMask (mfpDs mode)

/-- The body of the array functions; `cfg` is a null pointer or an array of `size` entries. -/
def configArray (config : BitVec 32 → BitVec 32 → MuxRegs → ℤ × MuxRegs)
    (cfg : Option (ℕ → MfpCfg)) (size : ℤ) (s : MuxRegs) : ℤ × MuxRegs :=
  match cfg with
  | none => (-1, s)
  | some cfg =>
    if size = 0 then (-1, s)
    else
      (0, (List.range size.toNat).foldl (fun s i => (config (cfg i).id (cfg i).mode s).2) s)

def comipMfpConfigArray : Option (ℕ → MfpCfg) → ℤ → MuxRegs → ℤ × MuxRegs :=
  configArray comipMfpConfig

def comipMfpConfigPullArray : Option (ℕ → MfpCfg) → ℤ → MuxRegs → ℤ × MuxRegs :=
  configArray comipMfpConfigPull

/-- The source calls the pull setter here. -/
def comipMfpConfigDsArray : Option (ℕ → MfpCfg) → ℤ → MuxRegs → ℤ × MuxRegs :=
  configArray comipMfpConfigPull

inductive MfpCall where
  | config (id mode : BitVec 32)
  | configPull (id mode : BitVec 32)
  | configDs (id mode : BitVec 32)
  | configArray (pin : Option (ℕ → MfpCfg)) (size : ℤ)
  | configPullArray (pull : Option (ℕ → MfpCfg)) (size : ℤ)
  | configDsArray (ds : Option (ℕ → MfpCfg)) (size : ℤ)

def mfpStep (s : MuxRegs) : MfpCall → ℤ × MuxRegs
  | .config id mode => comipMfpConfig id mode s
  | .configPull id mode => comipMfpConfigPull id mode s
  | .configDs id mode => comipMfpConfigDs id mode s
  | .configArray pin size => comipMfpConfigArray pin size s
  | .configPullArray pull size => comipMfpConfigPullArray pull size s
  | .configDsArray ds size => comipMfpConfigDsArray ds size s

def mfp : Machine MuxRegs MfpCall ℤ := ⟨mfpStep⟩

/-- The fields of a pin's register. -/
inductive PinField where
  | function
  | pull
  | driveStrength
  deriving DecidableEq

namespace PinField

def bit : PinField → ℕ
  | function => 0
  | pull => 2
  | driveStrength => 4

def width : PinField → ℕ
  | function => 2
  | pull => 2
  | driveStrength => 3

/-- The first mode that is out of range. -/
def modeMax : PinField → ℕ
  | function => mfpPinModeMax
  | pull => mfpPullModeMax
  | driveStrength => mfpDsModeMax

def mask : PinField → BitVec 32
  | function => mfpAfMask
  | pull => mfpPullMask
  | driveStrength => mfpDsMask

/-- The field of a register. -/
def get (k : PinField) (w : BitVec 32) : ℕ := BitField.get w k.bit k.width

theorem covers (k : PinField) : BitField.Covers k.mask k.bit k.width := by
  intro i
  by_cases hi : i < 32
  · revert i
    cases k <;> decide
  · rw [BitVec.getLsbD_of_ge _ _ (not_lt.mp hi), eq_comm, decide_eq_false_iff_not]
    cases k <;> simp only [bit, width] <;> omega

theorem apart {k k' : PinField} (h : k ≠ k') :
    k'.bit + k'.width ≤ k.bit ∨ k.bit + k.width ≤ k'.bit := by
  revert h
  cases k <;> cases k' <;> decide

theorem modeMax_le (k : PinField) : k.modeMax ≤ 2 ^ k.width := by cases k <;> decide

theorem end_le (k : PinField) : k.bit + k.width ≤ 7 := by cases k <;> decide

end PinField

/-- One field of one pin, and the mode it is to have. -/
structure Setting where
  field : PinField
  id : BitVec 32
  mode : BitVec 32

/-- Neither the id nor the mode is out of range. -/
def Setting.Valid (x : Setting) : Prop :=
  x.id.toNat < mfpPinMax ∧ x.mode.toNat < x.field.modeMax

instance (x : Setting) : Decidable x.Valid := inferInstanceAs (Decidable (_ ∧ _))

/-- The entries of an array argument. -/
def entries : Option (ℕ → MfpCfg) → ℤ → List MfpCfg
  | none, _ => []
  | some cfg, size => (List.range size.toNat).map cfg

/-- The settings a call is for, in their order. -/
def MfpCall.settings : MfpCall → List Setting
  | .config id mode => [⟨.function, id, mode⟩]
  | .configPull id mode => [⟨.pull, id, mode⟩]
  | .configDs id mode => [⟨.driveStrength, id, mode⟩]
  | .configArray pin size => (entries pin size).map fun c => ⟨.function, c.id, c.mode⟩
  | .configPullArray pull size => (entries pull size).map fun c => ⟨.pull, c.id, c.mode⟩
  | .configDsArray ds size => (entries ds size).map fun c => ⟨.driveStrength, c.id, c.mode⟩

/-- The mode of each field of each pin. -/
abbrev Modes := PinField → ℕ → ℕ

/-- A valid setting takes the place of the one before it; any other changes nothing. -/
def Modes.set (t : Modes) (x : Setting) : Modes := fun k id =>
  if x.Valid ∧ x.field = k ∧ x.id.toNat = id then x.mode.toNat else t k id

/-- The modes the registers hold. -/
def modes (s : MuxRegs) : Modes := fun k id => k.get (s (mfpReg id))

/-- The modes last set by the calls, and those of the beginning where none was set. -/
def lastSet (s₀ : MuxRegs) (calls : List MfpCall) : Modes :=
  (calls.flatMap MfpCall.settings).foldl Modes.set (modes s₀)

/-- The registers hold these modes, and nothing else in them changed since `s₀`. -/
structure Configured (s₀ s : MuxRegs) (t : Modes) : Prop where
  mode : ∀ k, ∀ id < mfpPinMax, k.get (s (mfpReg id)) = t k id
  otherBits : ∀ id < mfpPinMax, ∀ i, 7 ≤ i →
    (s (mfpReg id)).getLsbD i = (s₀ (mfpReg id)).getLsbD i
  otherRegs : ∀ a, (∀ id < mfpPinMax, a ≠ mfpReg id) → s a = s₀ a

/-- The setters let the mode `max` itself through, and an array of drive strengths goes to the
pull setter: these calls do neither to a pin that exists. -/
def MfpCall.Sound : MfpCall → Prop
  | .config _ _ => True
  | .configPull id mode => ¬ (id.toNat < mfpPinMax ∧ mode.toNat = mfpPullModeMax)
  | .configDs id mode => ¬ (id.toNat < mfpPinMax ∧ mode.toNat = mfpDsModeMax)
  | .configArray _ _ => True
  | .configPullArray pull size =>
    ∀ c ∈ entries pull size, ¬ (c.id.toNat < mfpPinMax ∧ c.mode.toNat = mfpPullModeMax)
  | .configDsArray ds size =>
    ∀ c ∈ entries ds size, ¬ (c.id.toNat < mfpPinMax ∧ c.mode.toNat < mfpDsModeMax)

/-- A valid setting replaces its field. -/
def Setting.assign (s : MuxRegs) (x : Setting) : MuxRegs :=
  if x.Valid then
    Function.update s (mfpReg x.id.toNat)
      (BitField.replace (s (mfpReg x.id.toNat)) x.field.mask (x.mode <<< x.field.bit))
  else s

theorem configMasked_eq_assign {refused : Bool} {k : PinField} {id mode : BitVec 32}
    (h : refused = false ↔ Setting.Valid ⟨k, id, mode⟩) (s : MuxRegs) :
    (configMasked refused id k.mask (mode <<< k.bit &&& k.mask) s).2 =
      Setting.assign s ⟨k, id, mode⟩ := by
  rw [configMasked, Setting.assign]
  by_cases hv : Setting.Valid ⟨k, id, mode⟩
  · rw [if_pos hv, h.mpr hv]
    rfl
  · have hrefused : refused = true := by
      rw [← Bool.not_eq_false]
      exact fun hf => hv (h.mp hf)
    rw [if_neg hv, hrefused]
    rfl

theorem comipMfpConfig_eq_assign (id mode : BitVec 32) (s : MuxRegs) :
    (comipMfpConfig id mode s).2 = Setting.assign s ⟨.function, id, mode⟩ := by
  apply configMasked_eq_assign (k := .function)
  simp only [Setting.Valid, PinField.modeMax, Bool.or_eq_false_iff, decide_eq_false_iff_not]
  omega

theorem comipMfpConfigPull_eq_assign {id mode : BitVec 32}
    (h : ¬ (id.toNat < mfpPinMax ∧ mode.toNat = mfpPullModeMax)) (s : MuxRegs) :
    (comipMfpConfigPull id mode s).2 = Setting.assign s ⟨.pull, id, mode⟩ := by
  apply configMasked_eq_assign (k := .pull)
  simp only [Setting.Valid, PinField.modeMax, Bool.or_eq_false_iff, decide_eq_false_iff_not]
  omega

theorem comipMfpConfigDs_eq_assign {id mode : BitVec 32}
    (h : ¬ (id.toNat < mfpPinMax ∧ mode.toNat = mfpDsModeMax)) (s : MuxRegs) :
    (comipMfpConfigDs id mode s).2 = Setting.assign s ⟨.driveStrength, id, mode⟩ := by
  apply configMasked_eq_assign (k := .driveStrength)
  simp only [Setting.Valid, PinField.modeMax, Bool.or_eq_false_iff, decide_eq_false_iff_not]
  omega

/-- A mode that is out of range for the drive strength is so for the pull. -/
theorem comipMfpConfigPull_of_ds {id mode : BitVec 32}
    (h : ¬ (id.toNat < mfpPinMax ∧ mode.toNat < mfpDsModeMax)) (s : MuxRegs) :
    (comipMfpConfigPull id mode s).2 = Setting.assign s ⟨.driveStrength, id, mode⟩ := by
  have hinvalid : ¬ Setting.Valid ⟨.driveStrength, id, mode⟩ := h
  have hds : mfpDsModeMax = 7 := rfl
  have hpull : mfpPullModeMax = 4 := rfl
  rw [comipMfpConfigPull_eq_assign (by omega), Setting.assign, Setting.assign, if_neg hinvalid,
    if_neg]
  simp only [Setting.Valid, PinField.modeMax]
  omega

/-- An array function makes the settings of its entries, one after the other. -/
theorem configArray_eq_foldl {config : BitVec 32 → BitVec 32 → MuxRegs → ℤ × MuxRegs}
    {k : PinField} {cfg : Option (ℕ → MfpCfg)} {size : ℤ}
    (h : ∀ c ∈ entries cfg size, ∀ s, (config c.id c.mode s).2 = Setting.assign s ⟨k, c.id, c.mode⟩)
    (s : MuxRegs) : (configArray config cfg size s).2 =
      ((entries cfg size).map fun c => ⟨k, c.id, c.mode⟩).foldl Setting.assign s := by
  cases cfg with
  | none => rfl
  | some cfg =>
    simp only [configArray]
    split
    · rename_i hsize
      rw [hsize]
      rfl
    · rw [entries, List.map_map, List.foldl_map]
      apply List.foldl_ext
      intro s i hi
      exact h (cfg i) (List.mem_map.mpr ⟨i, hi, rfl⟩) s

/-- A sound call makes its settings, one after the other. -/
theorem mfpStep_eq_foldl {c : MfpCall} (h : c.Sound) (s : MuxRegs) :
    (mfpStep s c).2 = c.settings.foldl Setting.assign s := by
  cases c with
  | config id mode => exact comipMfpConfig_eq_assign id mode s
  | configPull id mode => exact comipMfpConfigPull_eq_assign h s
  | configDs id mode => exact comipMfpConfigDs_eq_assign h s
  | configArray pin size =>
    exact configArray_eq_foldl (fun c _ s => comipMfpConfig_eq_assign c.id c.mode s) s
  | configPullArray pull size =>
    exact configArray_eq_foldl (fun c hc s => comipMfpConfigPull_eq_assign (h c hc) s) s
  | configDsArray ds size =>
    exact configArray_eq_foldl (fun c hc s => comipMfpConfigPull_of_ds (h c hc) s) s

theorem mfpReg_injective : Function.Injective mfpReg := by
  intro a b h
  simp only [mfpReg] at h
  omega

theorem configured_refl (s : MuxRegs) : Configured s s (modes s) :=
  ⟨fun _ _ _ => rfl, fun _ _ _ _ => rfl, fun _ _ => rfl⟩

theorem Configured.assign {s₀ s : MuxRegs} {t : Modes} (h : Configured s₀ s t) (x : Setting) :
    Configured s₀ (x.assign s) (t.set x) := by
  rw [Setting.assign]
  by_cases hv : x.Valid
  · rw [if_pos hv]
    constructor
    · intro k id hid
      rw [Modes.set]
      by_cases hsame : x.id.toNat = id
      · subst hsame
        rw [Function.update_self]
        by_cases hk : x.field = k
        · subst hk
          rw [if_pos ⟨hv, rfl, rfl⟩]
          exact BitField.get_replace x.field.covers _ (hv.2.trans_le x.field.modeMax_le)
        · rw [if_neg (by tauto), ← h.mode k _ hid]
          exact BitField.get_replace_of_apart x.field.covers _ _ (PinField.apart hk)
      · rw [if_neg (by tauto), Function.update_of_ne (fun he => hsame (mfpReg_injective he).symm),
          h.mode k id hid]
    · intro id hid i hi
      by_cases hsame : x.id.toNat = id
      · subst hsame
        have hend := x.field.end_le
        rw [Function.update_self, BitField.getLsbD_replace_outside x.field.covers _ _ (by omega),
          h.otherBits _ hid i hi]
      · rw [Function.update_of_ne (fun he => hsame (mfpReg_injective he).symm),
          h.otherBits id hid i hi]
    · intro a ha
      rw [Function.update_of_ne (ha _ hv.1), h.otherRegs a ha]
  · have hset : t.set x = t := by
      funext k id
      exact if_neg fun hx => hv hx.1
    rw [if_neg hv, hset]
    exact h

theorem Configured.foldl {s₀ s : MuxRegs} {t : Modes} (h : Configured s₀ s t)
    (xs : List Setting) : Configured s₀ (xs.foldl Setting.assign s) (xs.foldl Modes.set t) := by
  induction xs generalizing s t with
  | nil => exact h
  | cons x xs ih => exact ih (h.assign x)

theorem Configured.run {s₀ s : MuxRegs} {t : Modes} {calls : List MfpCall}
    (hsound : ∀ c ∈ calls, c.Sound) (h : Configured s₀ s t) :
    Configured s₀ (mfp.run s calls) ((calls.flatMap MfpCall.settings).foldl Modes.set t) := by
  induction calls generalizing s t with
  | nil => exact h
  | cons c cs ih =>
    rw [Machine.run_cons, List.flatMap_cons, List.foldl_append]
    apply ih fun d hd => hsound d (List.mem_cons_of_mem _ hd)
    have hstep : (mfp.step s c).2 = c.settings.foldl Setting.assign s :=
      mfpStep_eq_foldl (hsound c (List.mem_cons_self ..)) s
    rw [hstep]
    exact h.foldl _

theorem foldl_assign_of_invalid {xs : List Setting} (h : ∀ x ∈ xs, ¬ x.Valid) (s : MuxRegs) :
    xs.foldl Setting.assign s = s := by
  induction xs with
  | nil => rfl
  | cons x xs ih =>
    rw [List.foldl_cons, Setting.assign, if_neg (h x (List.mem_cons_self ..))]
    exact ih fun y hy => h y (List.mem_cons_of_mem _ hy)

/-- After sound calls every field of every pin has the mode last set for it, all else is as it
was, and a further call with nothing valid in it changes nothing. -/
theorem configured_of_run (s₀ : MuxRegs) (calls : List MfpCall)
    (hsound : ∀ c ∈ calls, c.Sound) :
    Configured s₀ (mfp.run s₀ calls) (lastSet s₀ calls) ∧
      ∀ c : MfpCall, c.Sound → (∀ x ∈ c.settings, ¬ x.Valid) →
        (mfp.step (mfp.run s₀ calls) c).2 = mfp.run s₀ calls := by
  refine ⟨(configured_refl s₀).run hsound, ?_⟩
  intro c hc hinvalid
  have hstep := mfpStep_eq_foldl hc (mfp.run s₀ calls)
  rw [foldl_assign_of_invalid hinvalid] at hstep
  exact hstep

theorem configured_of_run_pin_5 :
    Configured (fun _ => 0) (mfp.run (fun _ => 0) [.config 5 2, .configPull 5 1, .configDs 5 6])
        (lastSet (fun _ => 0) [.config 5 2, .configPull 5 1, .configDs 5 6]) ∧
      ∀ c : MfpCall, c.Sound → (∀ x ∈ c.settings, ¬ x.Valid) →
        (mfp.step (mfp.run (fun _ => 0) [.config 5 2, .configPull 5 1, .configDs 5 6]) c).2 =
          mfp.run (fun _ => 0) [.config 5 2, .configPull 5 1, .configDs 5 6] := by
  apply configured_of_run
  intro c hc
  fin_cases hc
  · trivial
  · exact fun h => absurd h.2 (by decide)
  · exact fun h => absurd h.2 (by decide)

/-- An array that gives pin 5 the drive strength 3 gives it the pull 3. -/
theorem drive_strength_sets_pull :
    ¬ Configured (fun _ => 0) (mfp.run (fun _ => 0) [.configDsArray (some fun _ => ⟨5, 3⟩) 1])
      (lastSet (fun _ => 0) [.configDsArray (some fun _ => ⟨5, 3⟩) 1]) := by
  intro h
  have hpull := h.mode .pull 5 (by decide)
  revert hpull
  decide

end UBoot.Board
