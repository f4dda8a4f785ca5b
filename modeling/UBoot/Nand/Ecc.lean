import UBoot.Library.LittleEndian
import UBoot.Library.Parity
import UBoot.Nand.Chip

/-!
# The 1-bit ECC

The controller computes 24 code bits for each sector, twelve pairs of parities. When the
code of what was read and the code that was stored with it differ in twelve places,
`comip_ecc_arithmetic` takes the odd places for the position of one wrong bit.
-/
namespace UBoot.Nand
open ByteStore Parity

def eccPositionMask : ℕ := 0x0700

/-- The places where two codes differ. -/
def eccResult (ecc1 ecc2 : Mem) : BitVec 32 :=
  let result : BitVec 32 := 0
  let result := result ||| (ecc1 0 ^^^ ecc2 0).toBitVec.setWidth 32
  let result := result ||| (ecc1 1 ^^^ ecc2 1).toBitVec.setWidth 32 <<< 8
  result ||| (ecc1 2 ^^^ ecc2 2).toBitVec.setWidth 32 <<< 16

def setBits (result : BitVec 32) : ℕ :=
  (List.range 24).foldl (fun tmp cnt => if result &&& 1#32 <<< cnt ≠ 0 then tmp + 1 else tmp) 0

def errPosition (result : BitVec 32) : BitVec 32 :=
  let pos := (result &&& 0x02) >>> 1 ||| (result &&& 0x08) >>> 2 |||
    (result &&& 0x20) >>> 3 ||| (result &&& 0x80) >>> 4
  let pos := pos ||| (result &&& 0x200) >>> 5 ||| (result &&& 0x800) >>> 6 |||
    (result &&& 0x2000) >>> 7 ||| (result &&& 0x8000) >>> 8
  pos ||| (result &&& 0x20000) >>> 9 ||| (result &&& 0x80000) >>> 10 |||
    (result &&& 0x200000) >>> 11 ||| (result &&& 0x800000) >>> 12

/-- A set bit is cleared, a clear bit is set. -/
def correctByte (tmp : UInt8) (errBit : ℕ) : UInt8 :=
  if (tmp.toBitVec >>> errBit) &&& 1 ≠ 0 then ⟨tmp.toBitVec &&& (0xff &&& ~~~(1#8 <<< errBit))⟩
  else ⟨tmp.toBitVec ||| 1#8 <<< errBit⟩

def comipEccArithmetic (ecc1 ecc2 mem : Mem) (buf : ℕ) : ℤ × Mem :=
  if ecc1 0 = ecc2 0 ∧ ecc1 1 = ecc2 1 ∧ ecc1 2 = ecc2 2 then (0, mem)
  else
    let result := eccResult ecc1 ecc2
    match setBits result with
    | 0 => (0, mem)
    | 1 => (0, mem)
    | 12 =>
      let errBit := (errPosition result >>> 9 &&& 0x7).toNat
      let errAddr := buf + (errPosition result &&& 0x1ff).toNat
      (0, Function.update mem errAddr (correctByte (mem errAddr) errBit))
    | _ => (-1, mem)

/-- The code bytes of a sector's spare bytes. -/
def swecc (gsectorspare : ℕ) (sbuf : Mem) : Mem :=
  ofList ((((List.range gsectorspare).filter fun pos => eccPositionMask.testBit pos).take 3).map
    sbuf)

/-- `comip_ecc_verify` for `NAND_ECC_1BIT` from a sector on: `hwecc` holds the codes that the
controller computed when it read the sectors into the buffer at address 0. -/
def verifySectors (hwecc : ℕ → Mem) (gsectorspare : ℕ) (sbuf : Mem) : ℕ → ℕ → Mem → ℤ × Mem
  | 0, _, mem => (0, mem)
  | left + 1, sector, mem =>
    let r := comipEccArithmetic (hwecc sector)
      (swecc gsectorspare (advance sbuf (gsectorspare * sector))) mem (512 * sector)
    if r.1 ≠ 0 then (nandEccErr, r.2)
    else verifySectors hwecc gsectorspare sbuf left (sector + 1) r.2

def comipEccVerify (hwecc : ℕ → Mem) (gsectorspare : ℕ) (dbuf sbuf : Mem) : ℤ × Mem :=
  verifySectors hwecc gsectorspare sbuf 4 0 dbuf

/-- Bit `t` of the byte at `i`. -/
def bitAt (m : Mem) (i t : ℕ) : Bool := (m i).toBitVec.getLsbD t

/-- The bits of a sector: the low nine bits of the position give the byte. -/
def sectorBit (d : Mem) (p : ℕ) : Bool := bitAt d (p % 512) (p / 512)

def codeBit (c : Mem) (i : ℕ) : Bool := bitAt c (i / 8) (i % 8)

/-- The positions that a code bit is the parity of: those with bit `i / 2` set for an odd
`i`, those with it clear for an even one. -/
def pairSel (i p : ℕ) : Bool := p.testBit (i / 2) ^^ decide (i % 2 = 0)

/-- The code of the controller is made of twelve pairs of parities. -/
def HammingPairs (hwecc : Mem → Mem) : Prop :=
  ∀ d, ∀ i < 24, codeBit (hwecc d) i = parity (Finset.range 4096) (pairSel i) (sectorBit d)

/-- A bit that flips, in the data or in the code. -/
inductive BitFlip
  | data (p : Fin 4096)
  | code (i : Fin 24)
  deriving DecidableEq

def toggle (m : Mem) (i t : ℕ) : Mem :=
  Function.update m i ⟨(m i).toBitVec ^^^ 1#8 <<< t⟩

def BitFlip.onData : BitFlip → Mem → Mem
  | .data p, d => toggle d (p % 512) (p / 512)
  | .code _, d => d

def BitFlip.onCode : BitFlip → Mem → Mem
  | .data _, c => c
  | .code i, c => toggle c (i / 8) (i % 8)

def flippedData (e : List BitFlip) (d : Mem) : Mem := e.foldr BitFlip.onData d
def flippedCode (e : List BitFlip) (c : Mem) : Mem := e.foldr BitFlip.onCode c

/-- What is read back of a page of four sectors and the codes stored with them. -/
structure PageRead (hwecc : Mem → Mem) (gsectorspare : ℕ) (d : Mem) (e : ℕ → List BitFlip)
    (dbuf sbuf : Mem) : Prop where
  data : ∀ s < 4, ∀ i < 512, dbuf (512 * s + i) = flippedData (e s) (advance d (512 * s)) i
  code : ∀ s < 4, ∀ i < 3, sbuf (gsectorspare * s + (8 + i)) =
    flippedCode (e s) (hwecc (advance d (512 * s))) i

/-- The verdict on a page: everything is restored when no sector has more than one wrong
bit, and the first sector with two is refused and left as it was read. -/
structure VerdictRight (d : Mem) (e : ℕ → List BitFlip) (dbuf : Mem) (r : ℤ × Mem) : Prop where
  restored : (∀ s < 4, (e s).length ≤ 1) →
    r.1 = 0 ∧ ∀ s < 4, ∀ i < 512, r.2 (512 * s + i) = d (512 * s + i)
  refused : ∀ s < 4, (e s).length = 2 → (∀ s' < s, (e s').length ≤ 1) →
    r.1 ≠ 0 ∧ ∀ i < 512, r.2 (512 * s + i) = dbuf (512 * s + i)

/-- In how many of the twelve bits two positions differ. -/
def distance (p q : ℕ) : ℕ := weight (Finset.range 12) fun k => p.testBit k ^^ q.testBit k

/-- Two wrong data bits that look like one. -/
def Mistaken (e : List BitFlip) : Prop :=
  ∃ p q : Fin 4096, e = [.data p, .data q] ∧ distance p q = 6

section Bits

theorem bitAt_toggle (m : Mem) {i j t u : ℕ} (ht : t < 8) :
    bitAt (toggle m i t) j u = (bitAt m j u ^^ decide (j = i ∧ u = t)) := by
  by_cases hij : j = i
  · have hone : (1#8 <<< t).getLsbD u = decide (u = t) := by
      rw [BitVec.getLsbD_shiftLeft, BitVec.getLsbD_one]
      by_cases hut : u = t
      · simp [hut, ht]
      · simp only [hut, decide_false, Bool.and_eq_false_iff]
        by_cases hlt : u < t
        · exact .inl (.inr (by simp [hlt]))
        · exact .inr (by simp; omega)
    rw [bitAt, toggle, hij, Function.update_self, BitVec.getLsbD_xor, hone, bitAt]
    simp
  · rw [bitAt, toggle, Function.update_of_ne hij, decide_eq_false fun h => hij h.1,
      Bool.xor_false, bitAt]

/-- The two cases of the correction are one: the bit is turned around. -/
theorem correctByte_eq (b : UInt8) {t : ℕ} (ht : t < 8) :
    correctByte b t = ⟨b.toBitVec ^^^ 1#8 <<< t⟩ := by
  have hall : ∀ t : Fin 8, ∀ b : BitVec 8, (if (b >>> t.val) &&& 1 ≠ 0
      then b &&& (0xff &&& ~~~(1#8 <<< t.val)) else b ||| 1#8 <<< t.val) =
      b ^^^ 1#8 <<< t.val := by decide +kernel
  rw [correctByte, ← hall ⟨t, ht⟩ b.toBitVec]
  split <;> rfl

theorem sectorBit_toggle (d : Mem) (p : Fin 4096) (q : ℕ) :
    sectorBit (toggle d (p % 512) (p / 512)) q = flipAt (sectorBit d) (p : ℕ) q := by
  have hp := p.isLt
  rw [sectorBit, bitAt_toggle d (by omega), flipAt_apply, sectorBit]
  congr 2
  exact propext ⟨fun h => by omega, fun h => by omega⟩

theorem codeBit_toggle (c : Mem) (i j : ℕ) :
    codeBit (toggle c (i / 8) (i % 8)) j = (codeBit c j ^^ decide (j = i)) := by
  rw [codeBit, bitAt_toggle c (by omega), codeBit]
  congr 2
  exact propext ⟨fun h => by omega, fun h => by omega⟩

/-- The code bits that a flip changes. -/
def BitFlip.effect : BitFlip → ℕ → Bool
  | .data p, i => pairSel i p
  | .code j, i => decide (i = (j : ℕ))

/-- The code bits that a list of flips changes. -/
def syndrome (e : List BitFlip) (i : ℕ) : Bool := e.foldr (fun f b => f.effect i ^^ b) false

variable {hwecc : Mem → Mem}

theorem codeBit_data (hpairs : HammingPairs hwecc) (f : BitFlip) (d : Mem) {i : ℕ} (hi : i < 24) :
    codeBit (hwecc (f.onData d)) i = match f with
      | .data p => (codeBit (hwecc d) i ^^ pairSel i p)
      | .code _ => codeBit (hwecc d) i := by
  cases f with
  | code j => rfl
  | data p =>
    rw [hpairs _ i hi, hpairs _ i hi]
    refine Eq.trans ?_ (parity_flipAt _ _ (Finset.mem_range.mpr p.isLt))
    exact parity_congr fun q _ => sectorBit_toggle d p q

/-- The two codes differ in the syndrome of the flips. -/
theorem codes_differ (hpairs : HammingPairs hwecc) (e : List BitFlip) (d : Mem) {i : ℕ}
    (hi : i < 24) :
    (codeBit (hwecc (flippedData e d)) i ^^ codeBit (flippedCode e (hwecc d)) i) =
      syndrome e i := by
  induction e with
  | nil => simp [flippedData, flippedCode, syndrome]
  | cons f e ih =>
    have hdata := codeBit_data hpairs f (flippedData e d) hi
    rw [flippedData, List.foldr_cons, ← flippedData, flippedCode, List.foldr_cons,
      ← flippedCode, syndrome, List.foldr_cons, ← syndrome, ← ih, hdata]
    cases f with
    | data p => exact Bool.xor_right_comm _ _ _ |>.trans (Bool.xor_comm _ _)
    | code j =>
      simp only [BitFlip.onCode, BitFlip.effect, codeBit_toggle]
      generalize codeBit (hwecc (flippedData e d)) i = x
      generalize codeBit (flippedCode e (hwecc d)) i = y
      cases x <;> cases y <;> simp

section Arithmetic
variable {ecc1 ecc2 mem : Mem} {buf : ℕ} {syn : ℕ → Bool}

theorem eccResult_bit {i : ℕ} (hi : i < 24) :
    (eccResult ecc1 ecc2).getLsbD i = (codeBit ecc1 i ^^ codeBit ecc2 i) := by
  rw [eccResult, codeBit, codeBit, bitAt, bitAt]
  interval_cases i <;> simp

theorem and_bit_ne_zero (result : BitVec 32) {i : ℕ} (hi : i < 32) :
    result &&& 1#32 <<< i ≠ 0 ↔ result.getLsbD i = true := by
  rw [← BitVec.twoPow_eq, BitVec.and_twoPow]
  cases result.getLsbD i
  · simp
  · have hne : BitVec.twoPow 32 i ≠ 0 := by
      intro h
      have hval := congrArg BitVec.toNat h
      rw [BitVec.toNat_twoPow_of_lt hi] at hval
      exact absurd hval (Nat.two_pow_pos i).ne'
    simpa using hne

theorem foldl_bits (result : BitVec 32) {n : ℕ} (hn : n ≤ 32) :
    (List.range n).foldl (fun tmp cnt => if result &&& 1#32 <<< cnt ≠ 0 then tmp + 1 else tmp) 0 =
      weight (Finset.range n) result.getLsbD := by
  induction n with
  | zero => rfl
  | succ n ih =>
    rw [List.range_succ, List.foldl_append, ih (by omega), List.foldl_cons, List.foldl_nil,
      weight, weight, Finset.sum_range_succ]
    by_cases hbit : result.getLsbD n
    · rw [if_pos ((and_bit_ne_zero result (by omega)).mpr hbit), hbit, Bool.toNat_true]
    · rw [if_neg fun h => hbit ((and_bit_ne_zero result (by omega)).mp h),
        Bool.eq_false_of_not_eq_true hbit, Bool.toNat_false, Nat.add_zero]

theorem setBits_eq (h : ∀ i < 24, (codeBit ecc1 i ^^ codeBit ecc2 i) = syn i) :
    setBits (eccResult ecc1 ecc2) = weight (Finset.range 24) syn := by
  rw [setBits, foldl_bits _ (by decide)]
  refine weight_congr fun i hi => ?_
  rw [eccResult_bit (Finset.mem_range.mp hi), h i (Finset.mem_range.mp hi)]

theorem errPosition_bit (result : BitVec 32) {k : ℕ} (hk : k < 32) :
    (errPosition result).getLsbD k = (decide (k < 12) && result.getLsbD (2 * k + 1)) := by
  rw [errPosition]
  interval_cases k <;> simp

/-- The odd bits of the syndrome spell the position. -/
theorem errPosition_eq (h : ∀ i < 24, (codeBit ecc1 i ^^ codeBit ecc2 i) = syn i) {pos : ℕ}
    (hpos : pos < 4096) (hbits : ∀ k < 12, syn (2 * k + 1) = pos.testBit k) :
    errPosition (eccResult ecc1 ecc2) = BitVec.ofNat 32 pos := by
  refine BitVec.eq_of_getLsbD_eq fun k hk => ?_
  rw [errPosition_bit _ hk, BitVec.getLsbD_ofNat, decide_eq_true hk, Bool.true_and]
  by_cases hlow : k < 12
  · rw [decide_eq_true hlow, Bool.true_and, eccResult_bit (by omega), h _ (by omega),
      hbits k hlow]
  · rw [decide_eq_false hlow, Bool.false_and, Nat.testBit_lt_two_pow]
    exact hpos.trans_le (show 2 ^ 12 ≤ 2 ^ k from
      Nat.pow_le_pow_right Nat.two_pos (not_lt.mp hlow))

/-- What the comparison does, by the weight of the syndrome. -/
theorem comipEccArithmetic_eq
    (h : ∀ i < 24, (codeBit ecc1 i ^^ codeBit ecc2 i) = syn i) {pos : ℕ}
    (hpos : pos < 4096) (hbits : ∀ k < 12, syn (2 * k + 1) = pos.testBit k) :
    comipEccArithmetic ecc1 ecc2 mem buf =
      if weight (Finset.range 24) syn ≤ 1 then (0, mem)
      else if weight (Finset.range 24) syn = 12 then
        (0, toggle mem (buf + pos % 512) (pos / 512))
      else (-1, mem) := by
  rw [comipEccArithmetic]
  by_cases hequal : ecc1 0 = ecc2 0 ∧ ecc1 1 = ecc2 1 ∧ ecc1 2 = ecc2 2
  · -- equal codes have no syndrome
    have hzero : weight (Finset.range 24) syn = 0 := by
      rw [← setBits_eq h, eccResult, hequal.1, hequal.2.1, hequal.2.2]
      simp only [UInt8.xor_self]
      decide
    rw [if_pos hequal, if_pos (by omega)]
  · rw [if_neg hequal]
    dsimp only
    rw [setBits_eq h, errPosition_eq h hpos hbits]
    have hbyte : (BitVec.ofNat 32 pos &&& 0x1ff).toNat = pos % 512 := by
      rw [BitVec.toNat_and, BitVec.toNat_ofNat, Nat.mod_eq_of_lt (by omega)]
      exact Nat.and_two_pow_sub_one_eq_mod pos 9
    have hbit : (BitVec.ofNat 32 pos >>> 9 &&& 0x7).toNat = pos / 512 := by
      rw [BitVec.toNat_and, BitVec.toNat_ushiftRight, BitVec.toNat_ofNat,
        Nat.mod_eq_of_lt (by omega), Nat.shiftRight_eq_div_pow]
      refine (Nat.and_two_pow_sub_one_eq_mod (pos / 2 ^ 9) 3).trans ?_
      omega
    rw [hbyte, hbit, correctByte_eq _ (show pos / 512 < 8 by omega)]
    split
    · next hw => rw [hw, if_pos (by decide)]
    · next hw => rw [hw, if_pos (by decide)]
    · next hw =>
      rw [hw, if_neg (by decide), if_pos rfl]
      rfl
    · next h0 h1 h12 =>
      rw [if_neg fun hle => (Nat.le_one_iff_eq_zero_or_eq_one.mp hle).elim h0 h1, if_neg h12]

end Arithmetic

section Weights

theorem syndrome_nil (i : ℕ) : syndrome [] i = false := rfl

theorem syndrome_cons (f : BitFlip) (e : List BitFlip) (i : ℕ) :
    syndrome (f :: e) i = (f.effect i ^^ syndrome e i) := rfl

theorem syndrome_swap (f g : BitFlip) (i : ℕ) : syndrome [f, g] i = syndrome [g, f] i := by
  rw [syndrome_cons, syndrome_cons, syndrome_cons, syndrome_cons, syndrome_nil, Bool.xor_false,
    Bool.xor_false, Bool.xor_comm]

theorem weight_nil : weight (Finset.range 24) (syndrome []) = 0 := by
  simp [weight, syndrome_nil]

/-- A flip of a code bit turns around that bit of the syndrome. -/
theorem weight_code (j : Fin 24) (e : List BitFlip) :
    weight (Finset.range 24) (syndrome (.code j :: e)) + (syndrome e j).toNat =
      weight (Finset.range 24) (syndrome e) + (!syndrome e j).toNat := by
  have hflip : weight (Finset.range 24) (syndrome (.code j :: e)) =
      weight (Finset.range 24) (flipAt (syndrome e) (j : ℕ)) :=
    weight_congr fun i _ => by rw [syndrome_cons, flipAt_apply, Bool.xor_comm]; rfl
  rw [hflip, weight_flipAt (syndrome e) (Finset.mem_range.mpr j.isLt)]

theorem syndrome_even (p : Fin 4096) (e : List BitFlip) (k : ℕ) :
    syndrome (.data p :: e) (2 * k) = ((!(p : ℕ).testBit k) ^^ syndrome e (2 * k)) := by
  rw [syndrome_cons, BitFlip.effect, pairSel, show 2 * k / 2 = k by omega,
    show 2 * k % 2 = 0 by omega, decide_eq_true rfl, Bool.xor_true]

theorem syndrome_odd (p : Fin 4096) (e : List BitFlip) (k : ℕ) :
    syndrome (.data p :: e) (2 * k + 1) = ((p : ℕ).testBit k ^^ syndrome e (2 * k + 1)) := by
  rw [syndrome_cons, BitFlip.effect, pairSel, show (2 * k + 1) / 2 = k by omega,
    decide_eq_false (show ¬ (2 * k + 1) % 2 = 0 by omega), Bool.xor_false]

/-- One data bit sets one bit of each pair. -/
theorem weight_data (p : Fin 4096) : weight (Finset.range 24) (syndrome [.data p]) = 12 := by
  have hpair : ∀ k ∈ Finset.range 12, (syndrome [.data p] (2 * k)).toNat +
      (syndrome [.data p] (2 * k + 1)).toNat = 1 := by
    intro k _
    rw [syndrome_even, syndrome_odd, syndrome_nil, syndrome_nil]
    cases (p : ℕ).testBit k <;> rfl
  rw [show 24 = 2 * 12 from rfl, weight_pairs, Finset.sum_congr rfl hpair]
  rfl

/-- Two data bits set both bits of the pairs in which their positions differ. -/
theorem weight_data_data (p q : Fin 4096) :
    weight (Finset.range 24) (syndrome [.data p, .data q]) = 2 * distance p q := by
  have hpair : ∀ k ∈ Finset.range 12, (syndrome [.data p, .data q] (2 * k)).toNat +
      (syndrome [.data p, .data q] (2 * k + 1)).toNat =
      2 * ((p : ℕ).testBit k ^^ (q : ℕ).testBit k).toNat := by
    intro k _
    rw [syndrome_even, syndrome_odd, syndrome_even, syndrome_odd, syndrome_nil, syndrome_nil]
    cases (p : ℕ).testBit k <;> cases (q : ℕ).testBit k <;> rfl
  rw [show 24 = 2 * 12 from rfl, weight_pairs, Finset.sum_congr rfl hpair, ← Finset.mul_sum]
  rfl

theorem distance_pos {p q : Fin 4096} (h : p ≠ q) : 0 < distance p q := by
  by_contra hzero
  refine h (Fin.ext (Nat.eq_of_testBit_eq fun k => ?_))
  by_cases hk : k < 12
  · rw [distance, weight] at hzero
    have hterm : ((p : ℕ).testBit k ^^ (q : ℕ).testBit k).toNat = 0 :=
      Finset.sum_eq_zero_iff.mp (Nat.eq_zero_of_not_pos hzero) k (Finset.mem_range.mpr hk)
    revert hterm
    cases (p : ℕ).testBit k <;> cases (q : ℕ).testBit k <;> simp
  · have hbig : (4096 : ℕ) ≤ 2 ^ k := show 2 ^ 12 ≤ 2 ^ k from
      Nat.pow_le_pow_right Nat.two_pos (not_lt.mp hk)
    rw [Nat.testBit_lt_two_pow (p.isLt.trans_le hbig), Nat.testBit_lt_two_pow
      (q.isLt.trans_le hbig)]

/-- Two different bits look like one wrong data bit only when both are data bits. -/
theorem weight_two {e : List BitFlip} (hnodup : e.Nodup) (hlen : e.length = 2)
    (hmiss : ¬ Mistaken e) : 1 < weight (Finset.range 24) (syndrome e) ∧
    weight (Finset.range 24) (syndrome e) ≠ 12 := by
  have hmixed : ∀ (p : Fin 4096) (j : Fin 24),
      1 < weight (Finset.range 24) (syndrome [.code j, .data p]) ∧
      weight (Finset.range 24) (syndrome [.code j, .data p]) ≠ 12 := by
    intro p j
    have hcode := weight_code j [.data p]
    rw [weight_data] at hcode
    cases hbit : syndrome [.data p] j <;>
      simp only [hbit, Bool.toNat_false, Bool.toNat_true, Bool.not_false, Bool.not_true] at hcode
        <;> omega
  obtain ⟨f, g, rfl⟩ := List.length_eq_two.mp hlen
  cases f with
  | data p =>
    cases g with
    | data q =>
      have hne : p ≠ q := fun h => by simp [h] at hnodup
      have hdist : distance p q ≠ 6 := fun h => hmiss ⟨p, q, rfl, h⟩
      have := distance_pos hne
      rw [weight_data_data]
      omega
    | code j =>
      rw [weight_congr fun i _ => syndrome_swap (.data p) (.code j) i]
      exact hmixed p j
  | code i =>
    cases g with
    | data q => exact hmixed q i
    | code j =>
      have hne : (i : ℕ) ≠ (j : ℕ) := fun h => by simp [Fin.ext h] at hnodup
      have hone := weight_code j []
      have htwo := weight_code i [.code j]
      have hbit : syndrome [.code j] i = false := by
        rw [syndrome_cons, syndrome_nil, BitFlip.effect, decide_eq_false hne]
        rfl
      rw [weight_nil, syndrome_nil] at hone
      rw [hbit] at htwo
      simp only [Bool.toNat_false, Bool.not_false, Bool.toNat_true] at hone htwo
      omega

end Weights

section Sector
variable {ecc1 ecc2 mem d : Mem} {buf : ℕ} {e : List BitFlip}

/-- The codes of one sector: what the controller computed and what was stored. -/
def CodesOf (e : List BitFlip) (ecc1 ecc2 : Mem) : Prop :=
  ∀ i < 24, (codeBit ecc1 i ^^ codeBit ecc2 i) = syndrome e i

/-- The number that the odd bits of a syndrome spell. -/
theorem exists_position (syn : ℕ → Bool) :
    ∃ pos < 4096, ∀ k < 12, syn (2 * k + 1) = pos.testBit k :=
  ⟨Nat.ofBits fun k : Fin 12 => syn (2 * k + 1), Nat.ofBits_lt_two_pow _,
    fun k hk => (Nat.testBit_ofBits_lt (fun k : Fin 12 => syn (2 * k + 1)) k hk).symm⟩

theorem arithmetic_frame (h : CodesOf e ecc1 ecc2) {x : ℕ} (hx : x < buf ∨ buf + 512 ≤ x) :
    (comipEccArithmetic ecc1 ecc2 mem buf).2 x = mem x := by
  obtain ⟨pos, hpos, hbits⟩ := exists_position (syndrome e)
  rw [comipEccArithmetic_eq h hpos hbits]
  split_ifs
  · rfl
  · exact Function.update_of_ne (by omega) ..
  · rfl

theorem toggle_toggle (m : Mem) (i t : ℕ) (b : UInt8) (h : b = toggle m i t i) :
    (⟨b.toBitVec ^^^ 1#8 <<< t⟩ : UInt8) = m i := by
  rw [h, toggle, Function.update_self, BitVec.xor_assoc, BitVec.xor_self, BitVec.xor_zero]

/-- One wrong bit at most: the sector is as it was written. -/
theorem arithmetic_restores (h : CodesOf e ecc1 ecc2) (hlen : e.length ≤ 1)
    (hread : ∀ i < 512, mem (buf + i) = flippedData e d i) :
    (comipEccArithmetic ecc1 ecc2 mem buf).1 = 0 ∧
    ∀ i < 512, (comipEccArithmetic ecc1 ecc2 mem buf).2 (buf + i) = d i := by
  match e, hlen with
  | [], _ =>
    obtain ⟨pos, hpos, hbits⟩ := exists_position (syndrome [])
    rw [comipEccArithmetic_eq h hpos hbits, if_pos (by rw [weight_nil]; decide)]
    exact ⟨rfl, hread⟩
  | [.code j], _ =>
    obtain ⟨pos, hpos, hbits⟩ := exists_position (syndrome [.code j])
    have hone := weight_code j []
    rw [weight_nil, syndrome_nil, Bool.toNat_false, Bool.not_false, Bool.toNat_true] at hone
    rw [comipEccArithmetic_eq h hpos hbits, if_pos (by omega)]
    exact ⟨rfl, hread⟩
  | [.data p], _ =>
    have hbits : ∀ k < 12, syndrome [.data p] (2 * k + 1) = (p : ℕ).testBit k := fun k _ => by
      rw [syndrome_odd, syndrome_nil, Bool.xor_false]
    rw [comipEccArithmetic_eq h p.isLt hbits, weight_data, if_neg (by decide), if_pos rfl]
    refine ⟨rfl, fun i hi => ?_⟩
    by_cases hbyte : i = p % 512
    · rw [hbyte]
      refine (Function.update_self ..).trans (toggle_toggle d _ _ _ ?_)
      exact hread _ (Nat.mod_lt _ (by decide))
    · refine (Function.update_of_ne (by omega) ..).trans ((hread i hi).trans ?_)
      exact Function.update_of_ne hbyte ..

theorem arithmetic_refuses (h : CodesOf e ecc1 ecc2) (hnodup : e.Nodup) (hlen : e.length = 2)
    (hmiss : ¬ Mistaken e) : comipEccArithmetic ecc1 ecc2 mem buf = (-1, mem) := by
  obtain ⟨pos, hpos, hbits⟩ := exists_position (syndrome e)
  obtain ⟨hone, htwelve⟩ := weight_two hnodup hlen hmiss
  rw [comipEccArithmetic_eq h hpos hbits, if_neg (by omega), if_neg htwelve]

/-- Two data bits six places apart: a third bit is turned around, and nobody is told. -/
theorem arithmetic_mistaken (h : CodesOf e ecc1 ecc2) (hmiss : Mistaken e) :
    (comipEccArithmetic ecc1 ecc2 mem buf).1 = 0 ∧
    ∃ i < 512, (comipEccArithmetic ecc1 ecc2 mem buf).2 (buf + i) ≠ mem (buf + i) := by
  obtain ⟨pos, hpos, hbits⟩ := exists_position (syndrome e)
  obtain ⟨p, q, rfl, hdist⟩ := hmiss
  rw [comipEccArithmetic_eq h hpos hbits, weight_data_data, hdist, if_neg (by decide), if_pos rfl]
  refine ⟨rfl, pos % 512, Nat.mod_lt _ (by decide), fun heq => ?_⟩
  have hbit := bitAt_toggle mem (i := buf + pos % 512) (j := buf + pos % 512)
    (u := pos / 512) (t := pos / 512) (by omega)
  change toggle mem (buf + pos % 512) (pos / 512) (buf + pos % 512) = _ at heq
  rw [bitAt, heq, ← bitAt] at hbit
  simp at hbit

end Sector

section Page
variable {hw : ℕ → Mem} {gsectorspare : ℕ} {sbuf dbuf d : Mem} {e : ℕ → List BitFlip}

/-- The codes of all sectors of a page. -/
def PageCodes (hw : ℕ → Mem) (gsectorspare : ℕ) (sbuf : Mem) (e : ℕ → List BitFlip) : Prop :=
  ∀ s < 4, CodesOf (e s) (hw s) (swecc gsectorspare (advance sbuf (gsectorspare * s)))

/-- The sectors from `s` on touch no byte below them. -/
theorem verifySectors_frame (h : PageCodes hw gsectorspare sbuf e) {left s x : ℕ} {mem : Mem}
    (hs : s + left ≤ 4) (hx : x < 512 * s) :
    (verifySectors hw gsectorspare sbuf left s mem).2 x = mem x := by
  induction left generalizing s mem with
  | zero => rfl
  | succ left ih =>
    have hown : (comipEccArithmetic (hw s)
        (swecc gsectorspare (advance sbuf (gsectorspare * s))) mem (512 * s)).2 x = mem x :=
      arithmetic_frame (h s (by omega)) (.inl hx)
    rw [verifySectors]
    split_ifs
    · exact hown
    · rw [ih (by omega) (by omega), hown]

/-- Sectors with one wrong bit at most are restored one after the other. -/
theorem verifySectors_restores (h : PageCodes hw gsectorspare sbuf e) {t s : ℕ} {mem : Mem}
    (hst : s ≤ t) (ht : t ≤ 4) (hone : ∀ u, s ≤ u → u < t → (e u).length ≤ 1)
    (hread : ∀ u, s ≤ u → u < t → ∀ i < 512,
      mem (512 * u + i) = flippedData (e u) (advance d (512 * u)) i) :
    ∃ mem', verifySectors hw gsectorspare sbuf (4 - s) s mem =
      verifySectors hw gsectorspare sbuf (4 - t) t mem' ∧
      (∀ u, s ≤ u → u < t → ∀ i < 512, mem' (512 * u + i) = d (512 * u + i)) ∧
      ∀ x, x < 512 * s ∨ 512 * t ≤ x → mem' x = mem x := by
  obtain ⟨n, rfl⟩ := Nat.exists_eq_add_of_le hst
  induction n generalizing s mem with
  | zero => exact ⟨mem, rfl, fun u hu hu' => absurd hu' (by omega), fun _ _ => rfl⟩
  | succ n ih =>
    obtain ⟨hzero, hown⟩ := arithmetic_restores (h s (by omega)) (hone s le_rfl (by omega))
      (hread s le_rfl (by omega))
    have hframe : ∀ x, x < 512 * s ∨ 512 * s + 512 ≤ x → (comipEccArithmetic (hw s)
        (swecc gsectorspare (advance sbuf (gsectorspare * s))) mem (512 * s)).2 x = mem x :=
      fun x hx => arithmetic_frame (h s (by omega)) hx
    have hnext : ∀ u, s + 1 ≤ u → u < s + 1 + n → ∀ i < 512, (comipEccArithmetic (hw s)
        (swecc gsectorspare (advance sbuf (gsectorspare * s))) mem (512 * s)).2 (512 * u + i) =
        flippedData (e u) (advance d (512 * u)) i := fun u hu hu' i hi => by
      rw [hframe _ (by omega)]
      exact hread u (by omega) (by omega) i hi
    obtain ⟨mem', hrun, hrest, hout⟩ := ih (by omega) (by omega)
      (fun u hu hu' => hone u (by omega) (by omega)) hnext
    refine ⟨mem', ?_, fun u hu hu' i hi => ?_, fun x hx => ?_⟩
    · rw [show 4 - s = 4 - (s + 1) + 1 by omega, verifySectors, if_neg (by rw [hzero]; decide),
        hrun, show s + 1 + n = s + (n + 1) by omega]
    · rcases Nat.eq_or_lt_of_le hu with rfl | hlt
      · rw [hout _ (by omega)]
        exact hown i hi
      · exact hrest u hlt (by omega) i hi
    · rw [hout x (by omega), hframe x (by omega)]

end Page

section Verdict
variable {hwecc : Mem → Mem} {gsectorspare : ℕ} {d dbuf sbuf : Mem} {e : ℕ → List BitFlip}

/-- The three code bytes that `comip_ecc_verify` collects. -/
theorem swecc_apply (hspare : 11 ≤ gsectorspare) (m : Mem) {b : ℕ} (hb : b < 3) :
    swecc gsectorspare m b = m (8 + b) := by
  obtain ⟨n, rfl⟩ := Nat.exists_eq_add_of_le hspare
  have hfirst : ((List.range 11).filter fun pos => eccPositionMask.testBit pos) = [8, 9, 10] := by
    decide
  rw [swecc, List.range_add, List.filter_append, hfirst, List.take_append_of_le_length (by simp)]
  interval_cases b <;> rfl

theorem codeBit_congr {c c' : Mem} (h : ∀ b < 3, c b = c' b) {i : ℕ} (hi : i < 24) :
    codeBit c i = codeBit c' i := by
  rw [codeBit, codeBit, bitAt, bitAt, h _ (by omega)]

theorem pageCodes_of_read (hpairs : HammingPairs hwecc) (hspare : 11 ≤ gsectorspare)
    (h : PageRead hwecc gsectorspare d e dbuf sbuf) :
    PageCodes (fun s => hwecc (advance dbuf (512 * s))) gsectorspare sbuf e := by
  intro s hs i hi
  have hstored : codeBit (swecc gsectorspare (advance sbuf (gsectorspare * s))) i =
      codeBit (flippedCode (e s) (hwecc (advance d (512 * s)))) i :=
    codeBit_congr (fun b hb => by rw [swecc_apply hspare _ hb]; exact h.code s hs b hb) hi
  have hcomputed : codeBit (hwecc (advance dbuf (512 * s))) i =
      codeBit (hwecc (flippedData (e s) (advance d (512 * s)))) i := by
    rw [hpairs _ i hi, hpairs _ i hi]
    refine parity_congr fun p _ => ?_
    rw [sectorBit, sectorBit, bitAt, bitAt, advance_apply, h.data s hs _ (Nat.mod_lt _ (by decide))]
  rw [hstored, hcomputed, codes_differ hpairs _ _ hi]

/-- The run over the sectors before `t`, none of them with two wrong bits. -/
theorem comipEccVerify_prefix (hpairs : HammingPairs hwecc) (hspare : 11 ≤ gsectorspare)
    (hread : PageRead hwecc gsectorspare d e dbuf sbuf) {t : ℕ} (ht : t ≤ 4)
    (hone : ∀ s < t, (e s).length ≤ 1) : ∃ mem',
    comipEccVerify (fun s => hwecc (advance dbuf (512 * s))) gsectorspare dbuf sbuf =
      verifySectors (fun s => hwecc (advance dbuf (512 * s))) gsectorspare sbuf (4 - t) t mem' ∧
    (∀ u < t, ∀ i < 512, mem' (512 * u + i) = d (512 * u + i)) ∧
    ∀ x, 512 * t ≤ x → mem' x = dbuf x := by
  obtain ⟨mem', hrun, hrest, hout⟩ := verifySectors_restores
    (pageCodes_of_read hpairs hspare hread) (Nat.zero_le t) ht (fun u _ hu => hone u hu)
    (fun u _ hu => hread.data u (by omega))
  exact ⟨mem', hrun, fun u hu => hrest u (Nat.zero_le u) hu, fun x hx => hout x (.inr hx)⟩

theorem not_mistaken_of_right (hpairs : HammingPairs hwecc) (hspare : 11 ≤ gsectorspare)
    (hread : PageRead hwecc gsectorspare d e dbuf sbuf)
    (hright : VerdictRight d e dbuf
      (comipEccVerify (fun s => hwecc (advance dbuf (512 * s))) gsectorspare dbuf sbuf)) :
    ∀ s < 4, (∀ s' < s, (e s').length ≤ 1) → ¬ Mistaken (e s) := by
  intro s hs hbefore hmiss
  have hcodes := pageCodes_of_read hpairs hspare hread
  obtain ⟨mem', hrun, -, hout⟩ := comipEccVerify_prefix hpairs hspare hread (by omega) hbefore
  obtain ⟨hzero, i, hi, hne⟩ : (comipEccArithmetic (hwecc (advance dbuf (512 * s)))
      (swecc gsectorspare (advance sbuf (gsectorspare * s))) mem' (512 * s)).1 = 0 ∧ ∃ i < 512,
      (comipEccArithmetic (hwecc (advance dbuf (512 * s))) (swecc gsectorspare
        (advance sbuf (gsectorspare * s))) mem' (512 * s)).2 (512 * s + i) ≠
        mem' (512 * s + i) := arithmetic_mistaken (hcodes s hs) hmiss
  have htwo : (e s).length = 2 := by
    obtain ⟨p, q, heq, -⟩ := hmiss
    rw [heq]
    rfl
  have hleft := (hright.refused s hs htwo hbefore).2 i hi
  -- the sectors behind it leave the damage as it is
  rw [hrun, show 4 - s = 4 - (s + 1) + 1 by omega, verifySectors,
    if_neg (by rw [hzero]; decide), verifySectors_frame hcodes (by omega) (by omega)] at hleft
  exact hne (hleft.trans (hout _ (by omega)).symm)

/-- The verdict is right exactly when the first sector with two wrong bits does not have them
in the data, at positions that differ in six of their twelve bits. -/
theorem comipEccVerify_right_iff (hpairs : HammingPairs hwecc) (hspare : 11 ≤ gsectorspare)
    (hread : PageRead hwecc gsectorspare d e dbuf sbuf) (hnodup : ∀ s < 4, (e s).Nodup) :
    VerdictRight d e dbuf
      (comipEccVerify (fun s => hwecc (advance dbuf (512 * s))) gsectorspare dbuf sbuf) ↔
    ∀ s < 4, (∀ s' < s, (e s').length ≤ 1) → ¬ Mistaken (e s) := by
  refine ⟨not_mistaken_of_right hpairs hspare hread, fun hmiss => ⟨fun hone => ?_, ?_⟩⟩
  · obtain ⟨mem', hrun, hrest, -⟩ := comipEccVerify_prefix hpairs hspare hread le_rfl hone
    rw [hrun]
    exact ⟨rfl, hrest⟩
  · intro s hs htwo hbefore
    obtain ⟨mem', hrun, -, hout⟩ := comipEccVerify_prefix hpairs hspare hread (by omega) hbefore
    have hcodes := pageCodes_of_read hpairs hspare hread
    rw [hrun, show 4 - s = 4 - (s + 1) + 1 by omega, verifySectors, arithmetic_refuses
      (hcodes s hs) (hnodup s hs) htwo (hmiss s hs hbefore), if_pos (show (-1 : ℤ) ≠ 0 by decide)]
    exact ⟨show nandEccErr ≠ 0 by decide, fun i hi => hout _ (by omega)⟩

end Verdict
end Bits

/-- A byte from its bits. -/
def byteOf (f : ℕ → Bool) : UInt8 :=
  ⟨BitVec.ofBoolListLE [f 0, f 1, f 2, f 3, f 4, f 5, f 6, f 7]⟩

theorem byteOf_bit (f : ℕ → Bool) {t : ℕ} (ht : t < 8) :
    (byteOf f).toBitVec.getLsbD t = f t := by
  rw [byteOf, BitVec.getLsbD_ofBoolListLE]
  interval_cases t <;> rfl

/-- A controller with this code. -/
def hammingCode (d : Mem) : Mem := fun b =>
  byteOf fun t => parity (Finset.range 4096) (pairSel (8 * b + t)) (sectorBit d)

theorem hammingPairs_hammingCode : HammingPairs hammingCode := by
  intro d i _
  rw [codeBit, bitAt, hammingCode, byteOf_bit _ (Nat.mod_lt i (by decide)), Nat.div_add_mod]

/-- A page of ones as it is read with flips in its first sector. -/
def onesPage : Mem := fun _ => 0xff
def firstSector (e : List BitFlip) (s : ℕ) : List BitFlip := if s = 0 then e else []
def storedCodes : Mem := fun x => hammingCode (advance onesPage (512 * (x / 16))) (x % 16 - 8)

theorem flippedData_apart (e : List (Fin 4096)) (m : Mem) {x : ℕ} (hx : 512 ≤ x) :
    flippedData (e.map .data) m x = m x := by
  induction e with
  | nil => rfl
  | cons p e ih => exact (Function.update_of_ne (by omega) ..).trans ih

theorem flippedCode_data (e : List (Fin 4096)) (c : Mem) :
    flippedCode (e.map .data) c = c := by
  induction e with
  | nil => rfl
  | cons p e ih => exact ih

theorem onesPage_read (e : List (Fin 4096)) : PageRead hammingCode 16 onesPage
    (firstSector (e.map .data)) (flippedData (e.map .data) onesPage) storedCodes := by
  refine ⟨fun s _ i hi => ?_, fun s _ i hi => ?_⟩
  · by_cases hs : s = 0
    · rw [firstSector, if_pos hs, hs, Nat.mul_zero, advance_zero, Nat.zero_add]
    · rw [firstSector, if_neg hs, flippedData_apart e _ (by omega)]
      rfl
  · have hcode : flippedCode (firstSector (e.map .data) s)
        (hammingCode (advance onesPage (512 * s))) = hammingCode (advance onesPage (512 * s)) := by
      rw [firstSector]
      split
      · exact flippedCode_data e _
      · rfl
    rw [hcode, storedCodes, show (16 * s + (8 + i)) / 16 = s by omega,
      show (16 * s + (8 + i)) % 16 - 8 = i by omega]

/-- One flipped data bit: the page is restored. -/
theorem onesPage_right : VerdictRight onesPage (firstSector [.data 5])
    (flippedData [.data 5] onesPage) (comipEccVerify (fun s => hammingCode
      (advance (flippedData [.data 5] onesPage) (512 * s))) 16
      (flippedData [.data 5] onesPage) storedCodes) := by
  refine (comipEccVerify_right_iff hammingPairs_hammingCode (by decide) (onesPage_read [5])
    fun s _ => ?_).mpr fun s _ _ => ?_
  · rw [firstSector]
    split <;> simp
  · rintro ⟨p, q, heq, -⟩
    rw [firstSector] at heq
    split at heq <;> simp at heq

/-- The first bits of bytes 0 and 63: the positions differ in six bits. -/
theorem two_flips_look_like_one : ¬ ∀ (hwecc : Mem → Mem) (gsectorspare : ℕ) (d dbuf sbuf : Mem)
    (e : ℕ → List BitFlip), HammingPairs hwecc → 11 ≤ gsectorspare →
    PageRead hwecc gsectorspare d e dbuf sbuf → (∀ s < 4, (e s).Nodup) →
    VerdictRight d e dbuf
      (comipEccVerify (fun s => hwecc (advance dbuf (512 * s))) gsectorspare dbuf sbuf) := by
  intro hall
  have hright := hall hammingCode 16 onesPage _ storedCodes _ hammingPairs_hammingCode (by decide)
    (onesPage_read [0, 63]) fun s _ => by
      rw [firstSector]
      split <;> simp
  exact not_mistaken_of_right hammingPairs_hammingCode (by decide) (onesPage_read [0, 63])
    hright 0 (by decide) (fun s hs => absurd hs (Nat.not_lt_zero s)) ⟨0, 63, rfl, by decide⟩

end UBoot.Nand
