import UBoot.Library.BitField
import UBoot.Library.PackedField
import UBoot.Word

/-!
# Long packets of the DSI host

`mipi_dsih_gen_wr_packet` sends a long packet: the payload, four bytes a word, then a header
with the word count. The payload is as long as the parameters say, whatever the word count is:
the counter for the zeros that complete a short one is negative, and a long one is not cut.
-/
namespace UBoot.Video
open ByteStore

def eInval : ℤ := -22

/-- `DSIH_FIFO_ACTIVE_WAIT`. -/
def dsihFifoActiveWait : ℕ := 300

/-- A write to `MIPI_GEN_PLD_DATA` or to `MIPI_GEN_HDR`. -/
inductive RegWrite where
  | payload (data : ℕ)
  | header (data : BitVec 32)

/-- How often `MIPI_CMD_PKD_STATUS` was read, and what was written since. -/
structure DsiHost where
  polls : ℕ
  writes : List RegWrite

section Functions
variable (full : ℕ → Bool) (hdr : BitVec 32)

/-- `mipi_dsih_hal_gen_packet_payload`; `full` says what each read of the status shows. -/
def halGenPacketPayload (payload : ℕ) (s : DsiHost) : ℤ × DsiHost :=
  if full s.polls then (eInval, { s with polls := s.polls + 1 })
  else (0, { s with polls := s.polls + 1, writes := s.writes ++ [.payload payload] })

/-- The loop that tries to write a word; `false` when it timed out. -/
def tryPayload (payload : ℕ) : ℕ → DsiHost → Bool × DsiHost
  | 0, s => (false, s)
  | tries + 1, s =>
    let r := halGenPacketPayload full payload s
    if r.1 = 0 then (true, r.2) else tryPayload payload tries r.2

/-- Four bytes as a word, fewer at the end of the payload. -/
def composeWord (payload : List UInt8) : ℕ :=
  ((payload.take 4).zipIdx).foldl (fun temp bj => temp ||| bj.1.toNat <<< (bj.2 * 8)) 0

/-- The loop over the payload. -/
def payloadLoop : List UInt8 → DsiHost → Bool × DsiHost
  | [], s => (true, s)
  | b :: payload, s =>
    let r := tryPayload full (composeWord (b :: payload)) dsihFifoActiveWait s
    if r.1 then payloadLoop ((b :: payload).drop 4) r.2 else (false, r.2)
termination_by payload => payload.length
decreasing_by simp

/-- The loop that fills up with zeros. -/
def zeroLoop : ℕ → DsiHost → Bool × DsiHost
  | 0, s => (true, s)
  | complement + 1, s =>
    let r := tryPayload full 0 dsihFifoActiveWait s
    if r.1 then zeroLoop complement r.2 else (false, r.2)

/-- `mipi_dsih_write_part` of 24 bits at bit 0; `hdr` is what the register reads as. -/
def writeHeader (data : ℕ) : BitVec 32 :=
  BitField.put hdr 0 24 (BitVec.ofNat 32 (data % 2 ^ 24))

/-- `mipi_dsih_hal_gen_packet_header`. -/
def halGenPacketHeader (vc packetType msByte lsByte : UInt8) (s : DsiHost) : ℤ × DsiHost :=
  if vc < 4 then
    let data := msByte.toNat <<< 16 ||| lsByte.toNat <<< 8 |||
      (vc.toNat <<< 6 ||| packetType.toNat)
    (0, { s with writes := s.writes ++ [.header (writeHeader hdr data)] })
  else (eInval, s)

/-- The loop that waits for the command FIFO and writes the header. -/
def headerLoop (vc dataType msByte lsByte : UInt8) : ℕ → DsiHost → ℤ × DsiHost
  | 0, s => (eInval, s)
  | tries + 1, s =>
    let s' := { s with polls := s.polls + 1 }
    if full s.polls then headerLoop vc dataType msByte lsByte tries s'
    else halGenPacketHeader hdr vc dataType msByte lsByte s'

/-- The word count in the first two parameters. -/
def wordCount (params : Mem) : ℕ := (params 1).toNat <<< 8 ||| (params 0).toNat

/-- The parameters after the word count. -/
def payloadOf (params : Mem) (paramLength : ℕ) : List UInt8 := slice params 2 (paramLength - 2)

/-- `mipi_dsih_gen_wr_packet`; `none` is a null pointer. -/
def mipiDsihGenWrPacket (vc dataType : UInt8) (params : Option Mem) (paramLength : ℕ)
    (s : DsiHost) : ℤ × DsiHost :=
  match params with
  | none =>
    if paramLength ≠ 0 then (eInval, s)
    else headerLoop full hdr vc dataType 0 0 dsihFifoActiveWait s
  | some params =>
    if 2 < paramLength then
      let complimentCounter : ℤ := if paramLength - 2 < wordCount params then
        (paramLength : ℤ) - 2 - wordCount params else 0
      let r := payloadLoop full (payloadOf params paramLength) s
      if r.1 then
        let r := zeroLoop full complimentCounter.toNat r.2
        if r.1 then
          headerLoop full hdr vc dataType (params 1) (params 0) dsihFifoActiveWait r.2
        else (eInval, r.2)
      else (eInval, r.2)
    else
      let msByte := if paramLength ≤ 1 then 0 else params 1
      let lsByte := if paramLength = 0 then 0 else params 0
      headerLoop full hdr vc dataType msByte lsByte dsihFifoActiveWait s

end Functions

/-- The bytes of a long packet: the payload cut to the word count or completed with zeros, and
zeros up to a whole word. -/
def packetBytes (params : Mem) (paramLength : ℕ) : List UInt8 :=
  (List.range (4 * blocksUp (wordCount params) 4)).map fun k =>
    if k < wordCount params ∧ k < paramLength - 2 then params (2 + k) else 0

/-- If the call returned 0, the FIFO got the words of the packet and then one header with the
word count. -/
def SentRight (params : Mem) (paramLength : ℕ) (s : DsiHost) (r : ℤ × DsiHost) : Prop :=
  r.1 = 0 → ∃ (words : List ℕ) (h : BitVec 32),
    r.2.writes = s.writes ++ words.map .payload ++ [.header h] ∧
    words.length = blocksUp (wordCount params) 4 ∧
    words.flatMap (leBytes 4) = packetBytes params paramLength ∧
    BitField.get h 8 16 = wordCount params

/-- When the packet is right: the payload takes as many words as the word count, and what it has
beyond that count is zero. -/
def PayloadFits (params : Mem) (paramLength : ℕ) : Prop :=
  blocksUp (paramLength - 2) 4 = blocksUp (wordCount params) 4 ∧
    ∀ k < paramLength - 2, wordCount params ≤ k → params (2 + k) = 0

/-- Disjoint bits add up. -/
theorem or_shiftLeft {a b i : ℕ} (h : a < 2 ^ i) : a ||| b <<< i = a + b * 2 ^ i := by
  rw [Nat.or_comm, ← Nat.shiftLeft_add_eq_or_of_lt h, Nat.shiftLeft_eq, Nat.add_comm]

theorem leBytes_sum (a b c d : UInt8) :
    leBytes 4 (a.toNat + b.toNat * 2 ^ 8 + c.toNat * 2 ^ 16 + d.toNat * 2 ^ 24) = [a, b, c, d] := by
  have ha := a.toNat_lt
  have hb := b.toNat_lt
  have hc := c.toNat_lt
  have hd := d.toNat_lt
  simp only [leBytes, List.range_succ, List.range_zero, List.nil_append, List.cons_append,
    List.map_cons, List.map_nil, digits, List.cons.injEq, ← UInt8.toNat_inj, UInt8.toNat_ofNat',
    and_true]
  norm_num
  omega

theorem composeWord_eq (payload : List UInt8) :
    composeWord payload = (payload.getD 0 0).toNat + (payload.getD 1 0).toNat * 2 ^ 8 +
      (payload.getD 2 0).toNat * 2 ^ 16 + (payload.getD 3 0).toNat * 2 ^ 24 := by
  have two : ∀ a b : UInt8, a.toNat ||| b.toNat <<< 8 = a.toNat + b.toNat * 2 ^ 8 :=
    fun a b => or_shiftLeft a.toNat_lt
  have three : ∀ a b c : UInt8, a.toNat + b.toNat * 2 ^ 8 ||| c.toNat <<< 16 =
      a.toNat + b.toNat * 2 ^ 8 + c.toNat * 2 ^ 16 := fun a b c =>
    or_shiftLeft (by have := a.toNat_lt; have := b.toNat_lt; omega)
  have four : ∀ a b c d : UInt8,
      a.toNat + b.toNat * 2 ^ 8 + c.toNat * 2 ^ 16 ||| d.toNat <<< 24 =
      a.toNat + b.toNat * 2 ^ 8 + c.toNat * 2 ^ 16 + d.toNat * 2 ^ 24 := fun a b c d =>
    or_shiftLeft (by have := a.toNat_lt; have := b.toNat_lt; have := c.toNat_lt; omega)
  rcases payload with _ | ⟨a, _ | ⟨b, _ | ⟨c, _ | ⟨d, rest⟩⟩⟩⟩
  · rfl
  · simp [composeWord]
  · have hbits : composeWord [a, b] = a.toNat ||| b.toNat <<< 8 := by simp [composeWord]
    rw [hbits, two]
    simp
  · have hbits : composeWord [a, b, c] = a.toNat ||| b.toNat <<< 8 ||| c.toNat <<< 16 := by
      simp [composeWord]
    rw [hbits, two, three]
    simp
  · have hbits : composeWord (a :: b :: c :: d :: rest) =
        a.toNat ||| b.toNat <<< 8 ||| c.toNat <<< 16 ||| d.toNat <<< 24 := by simp [composeWord]
    rw [hbits, two, three, four]
    simp

/-- The bytes of a composed word are the next four bytes of the payload, or zeros. -/
theorem leBytes_composeWord (payload : List UInt8) :
    leBytes 4 (composeWord payload) = (List.range 4).map fun k => payload.getD k 0 := by
  rw [composeWord_eq, leBytes_sum]
  rfl

/-- The words that the loop composes. -/
def payloadWords : List UInt8 → List ℕ
  | [] => []
  | b :: payload => composeWord (b :: payload) :: payloadWords ((b :: payload).drop 4)
termination_by payload => payload.length
decreasing_by simp

theorem length_payloadWords (payload : List UInt8) :
    (payloadWords payload).length = blocksUp payload.length 4 := by
  induction payload using payloadWords.induct with
  | case1 => simp [payloadWords, blocksUp]
  | case2 b payload ih =>
    rw [payloadWords, List.length_cons, ih, List.length_drop]
    simp only [blocksUp, List.length_cons]
    split_ifs <;> omega

theorem flatMap_payloadWords (payload : List UInt8) :
    (payloadWords payload).flatMap (leBytes 4) =
      (List.range (4 * blocksUp payload.length 4)).map fun k => payload.getD k 0 := by
  induction payload using payloadWords.induct with
  | case1 => simp [payloadWords, blocksUp]
  | case2 b payload ih =>
    have hwords : blocksUp (b :: payload).length 4 =
        1 + blocksUp ((b :: payload).drop 4).length 4 := by
      rw [List.length_drop]
      simp only [blocksUp, List.length_cons]
      split_ifs <;> omega
    rw [payloadWords, List.flatMap_cons, ih, leBytes_composeWord, hwords, Nat.mul_add,
      List.range_add, List.map_append, List.map_map]
    refine congrArg _ (List.map_congr_left fun k _ => ?_)
    rw [Function.comp_apply, List.getD_eq_getElem?_getD, List.getD_eq_getElem?_getD,
      List.getElem?_drop]

section Loops
variable {full : ℕ → Bool} {hdr : BitVec 32}

theorem tryPayload_writes {payload tries : ℕ} {s : DsiHost}
    (h : (tryPayload full payload tries s).1 = true) :
    (tryPayload full payload tries s).2.writes = s.writes ++ [.payload payload] := by
  induction tries generalizing s with
  | zero => exact absurd h (by simp [tryPayload])
  | succ tries ih =>
    rw [tryPayload, halGenPacketPayload] at h ⊢
    by_cases hfull : full s.polls
    · rw [if_pos hfull] at h ⊢
      exact ih h
    · rw [if_neg hfull] at h ⊢
      rfl

theorem payloadLoop_writes {payload : List UInt8} {s : DsiHost}
    (h : (payloadLoop full payload s).1 = true) :
    (payloadLoop full payload s).2.writes =
      s.writes ++ (payloadWords payload).map .payload := by
  induction payload using payloadWords.induct generalizing s with
  | case1 => simp [payloadLoop, payloadWords]
  | case2 b payload ih =>
    rw [payloadLoop] at h ⊢
    split at h
    · next hsent =>
      rw [if_pos hsent, ih h, tryPayload_writes hsent, payloadWords]
      simp
    · exact absurd h (by simp)

theorem headerLoop_writes {vc dataType msByte lsByte : UInt8} {tries : ℕ} {s : DsiHost}
    (h : (headerLoop full hdr vc dataType msByte lsByte tries s).1 = 0) :
    (headerLoop full hdr vc dataType msByte lsByte tries s).2.writes = s.writes ++
      [.header (writeHeader hdr (msByte.toNat <<< 16 ||| lsByte.toNat <<< 8 |||
        (vc.toNat <<< 6 ||| dataType.toNat)))] := by
  induction tries generalizing s with
  | zero => exact absurd h (by simp [headerLoop, eInval])
  | succ tries ih =>
    rw [headerLoop] at h ⊢
    by_cases hfull : full s.polls
    · rw [if_pos hfull] at h ⊢
      exact ih h
    · rw [if_neg hfull, halGenPacketHeader] at h ⊢
      by_cases hvc : vc < 4
      · rw [if_pos hvc]
      · rw [if_neg hvc] at h
        exact absurd h (show eInval ≠ 0 by decide)

end Loops

/-- The header carries the word count. -/
theorem writeHeader_wordCount (hdr : BitVec 32) (params : Mem) {vc : UInt8} (dataType : UInt8)
    (hvc : vc < 4) :
    BitField.get (writeHeader hdr ((params 1).toNat <<< 16 ||| (params 0).toNat <<< 8 |||
      (vc.toNat <<< 6 ||| dataType.toNat))) 8 16 = wordCount params := by
  have hms := (params 1).toNat_lt
  have hls := (params 0).toNat_lt
  have htype := dataType.toNat_lt
  have hchannel : vc.toNat < 4 := hvc
  have hlow : vc.toNat <<< 6 ||| dataType.toNat < 2 ^ 8 :=
    Nat.or_lt_two_pow (by rw [Nat.shiftLeft_eq]; omega) htype
  have hcount : wordCount params = (params 1).toNat * 2 ^ 8 + (params 0).toNat := by
    rw [wordCount, Nat.or_comm, or_shiftLeft (by omega)]
    omega
  have hhigh : (params 1).toNat <<< 16 ||| (params 0).toNat <<< 8 =
      wordCount params <<< 8 := by
    rw [Nat.or_comm, or_shiftLeft (by rw [Nat.shiftLeft_eq]; omega), hcount, Nat.shiftLeft_eq,
      Nat.shiftLeft_eq]
    omega
  generalize vc.toNat <<< 6 ||| dataType.toNat = low at hlow
  rw [hhigh, Nat.or_comm, or_shiftLeft hlow]
  have hfits : (low + wordCount params * 2 ^ 8) % 2 ^ 24 = low + wordCount params * 2 ^ 8 :=
    Nat.mod_eq_of_lt (by omega)
  have hval : (BitVec.ofNat 32 (low + wordCount params * 2 ^ 8)).toNat =
      low + wordCount params * 2 ^ 8 := by
    rw [BitVec.toNat_ofNat, Nat.mod_eq_of_lt (by omega)]
  have hread := BitField.get_put hdr (by decide : 24 < 32) (by decide : 0 + 24 ≤ 32)
    (show (BitVec.ofNat 32 (low + wordCount params * 2 ^ 8)).toNat < 2 ^ 24 by omega)
  rw [writeHeader, hfits]
  generalize BitField.put hdr 0 24 _ = h at hread ⊢
  have hshift : BitField.get h 8 16 = BitField.get h 0 24 / 2 ^ 8 := by
    refine Nat.eq_of_testBit_eq fun i => ?_
    rw [Nat.testBit_div_two_pow, BitField.testBit_get, BitField.testBit_get, Nat.zero_add,
      Nat.add_comm i 8]
    congr 1
    exact decide_eq_decide.mpr (by omega)
  rw [hshift, hread, hval]
  omega

section Packet
variable {full : ℕ → Bool} {hdr : BitVec 32} {vc dataType : UInt8} {params : Mem}
  {paramLength : ℕ} {s : DsiHost}

/-- No zeros are added, whatever the word count is. -/
theorem mipiDsihGenWrPacket_long (hlen : 2 < paramLength) :
    mipiDsihGenWrPacket full hdr vc dataType (some params) paramLength s =
      if (payloadLoop full (payloadOf params paramLength) s).1 then
        headerLoop full hdr vc dataType (params 1) (params 0) dsihFifoActiveWait
          (payloadLoop full (payloadOf params paramLength) s).2
      else (eInval, (payloadLoop full (payloadOf params paramLength) s).2) := by
  have hzero : (if paramLength - 2 < wordCount params then
      (paramLength : ℤ) - 2 - wordCount params else 0).toNat = 0 := by
    split <;> omega
  rw [mipiDsihGenWrPacket, if_pos hlen]
  dsimp only
  rw [hzero]
  rfl

theorem sent_writes (hlen : 2 < paramLength)
    (h : (mipiDsihGenWrPacket full hdr vc dataType (some params) paramLength s).1 = 0) :
    (mipiDsihGenWrPacket full hdr vc dataType (some params) paramLength s).2.writes =
      s.writes ++ (payloadWords (payloadOf params paramLength)).map .payload ++
        [.header (writeHeader hdr ((params 1).toNat <<< 16 ||| (params 0).toNat <<< 8 |||
          (vc.toNat <<< 6 ||| dataType.toNat)))] := by
  rw [mipiDsihGenWrPacket_long hlen] at h ⊢
  split at h
  · next hsent => rw [if_pos hsent, headerLoop_writes h, payloadLoop_writes hsent]
  · exact absurd h (show eInval ≠ 0 by decide)

/-- A FIFO that is never full takes every packet. -/
theorem payloadLoop_calm (payload : List UInt8) (s : DsiHost) :
    (payloadLoop (fun _ => false) payload s).1 = true := by
  induction payload using payloadWords.induct generalizing s with
  | case1 => rw [payloadLoop]
  | case2 b payload ih =>
    rw [payloadLoop]
    exact ih _

theorem mipiDsihGenWrPacket_calm (hlen : 2 < paramLength) (hvc : vc < 4) :
    (mipiDsihGenWrPacket (fun _ => false) hdr vc dataType (some params) paramLength s).1 = 0 := by
  rw [mipiDsihGenWrPacket_long hlen, if_pos (payloadLoop_calm _ _), dsihFifoActiveWait, headerLoop,
    halGenPacketHeader]
  dsimp only
  rw [if_neg (by simp), if_pos hvc]

theorem payloadOf_getD (params : Mem) (paramLength k : ℕ) :
    (payloadOf params paramLength).getD k 0 =
      if k < paramLength - 2 then params (2 + k) else 0 := by
  by_cases hk : k < paramLength - 2
  · rw [if_pos hk, payloadOf, slice, List.getD_eq_getElem?_getD, List.getElem?_map,
      List.getElem?_range hk]
    rfl
  · rw [if_neg hk, payloadOf, List.getD_eq_getElem?_getD,
      List.getElem?_eq_none (by rw [length_slice]; omega)]
    rfl

end Packet

/-- For every sequence of FIFO indications the packet is right, if and only if the payload takes
as many words as the word count and is zero beyond it. -/
theorem sentRight_iff {vc : UInt8} (dataType : UInt8) (params : Mem) {paramLength : ℕ}
    (hvc : vc < 4) (hlen : 2 < paramLength) :
    (∀ (full : ℕ → Bool) (hdr : BitVec 32) (s : DsiHost), SentRight params paramLength s
        (mipiDsihGenWrPacket full hdr vc dataType (some params) paramLength s)) ↔
      PayloadFits params paramLength := by
  have hbytes := flatMap_payloadWords (payloadOf params paramLength)
  have hwords := length_payloadWords (payloadOf params paramLength)
  have hsize : (payloadOf params paramLength).length = paramLength - 2 := length_slice _ _ _
  rw [hsize] at hbytes hwords
  have hcover := le_blocksUp_mul (wordCount params) (by decide : 0 < 4)
  have hcover' := le_blocksUp_mul (paramLength - 2) (by decide : 0 < 4)
  constructor
  · intro h
    have hret : (mipiDsihGenWrPacket (fun _ => false) 0 vc dataType (some params) paramLength
        ⟨0, []⟩).1 = 0 := mipiDsihGenWrPacket_calm hlen hvc
    obtain ⟨words, hd, hwrites, hlength, hsent, -⟩ := h (fun _ => false) 0 ⟨0, []⟩ hret
    rw [sent_writes hlen hret] at hwrites
    have hsame : payloadWords (payloadOf params paramLength) = words := by
      have := List.append_inj_left' hwrites rfl
      exact List.map_injective_iff.mpr (fun a b hab => by simpa using hab)
        (List.append_cancel_left this)
    rw [hsame] at hbytes hwords
    have hcount := hwords.symm.trans hlength
    refine ⟨hcount, fun k hk hbeyond => ?_⟩
    rw [hbytes, packetBytes, hcount] at hsent
    have hin : k < 4 * blocksUp (wordCount params) 4 := by omega
    have hbyte := List.map_inj_left.mp hsent k (List.mem_range.mpr hin)
    rw [payloadOf_getD, if_pos hk, if_neg fun h => absurd h.1 (not_lt.mpr hbeyond)] at hbyte
    exact hbyte
  · rintro ⟨hcount, hzero⟩ full hdr s hret
    refine ⟨_, _, sent_writes hlen hret, hwords.trans hcount, ?_,
      writeHeader_wordCount hdr params dataType hvc⟩
    rw [hbytes, packetBytes, hcount]
    refine List.map_congr_left fun k hk => ?_
    rw [payloadOf_getD]
    by_cases hlow : k < wordCount params
    · simp [hlow]
    · rw [if_neg (c := k < wordCount params ∧ k < paramLength - 2) fun h => hlow h.1]
      split
      · next hk => exact hzero k hk (not_lt.mp hlow)
      · rfl

/-- Six bytes of payload and their count, for the display on channel 0. -/
def sixBytes : Mem := ofList [6, 0, 1, 2, 3, 4, 5, 6]

/-- The words go out whole, to a queue that is full at every other look. -/
theorem sixBytes_sent : SentRight sixBytes 8 ⟨0, []⟩
    (mipiDsihGenWrPacket (fun n => n % 2 == 1) 0 0 0x39 (some sixBytes) 8 ⟨0, []⟩) :=
  (sentRight_iff 0x39 sixBytes (by decide) (by decide)).mpr ⟨by decide, by decide⟩ _ 0 ⟨0, []⟩

/-- A word count of 8 for a payload of four bytes. -/
def shortPayload : Mem := ofList [8, 0, 1, 2, 3, 4]

/-- One word is sent for a count of two. -/
theorem short_payload_is_not_completed : ¬ ∀ (full : ℕ → Bool) (hdr : BitVec 32)
    (vc dataType : UInt8) (params : Mem) (paramLength : ℕ) (s : DsiHost), vc < 4 → 2 < paramLength →
    SentRight params paramLength s
      (mipiDsihGenWrPacket full hdr vc dataType (some params) paramLength s) := by
  intro h
  have hret : (mipiDsihGenWrPacket (fun _ => false) 0 0 0x39 (some shortPayload) 6 ⟨0, []⟩).1 = 0 :=
    mipiDsihGenWrPacket_calm (by decide) (by decide)
  obtain ⟨words, hd, hwrites, hlength, -, -⟩ :=
    h (fun _ => false) 0 0 0x39 shortPayload 6 ⟨0, []⟩ (by decide) (by decide) hret
  have hsent := congrArg List.length (sent_writes (by decide) hret)
  rw [hwrites] at hsent
  simp [length_payloadWords, payloadOf, hlength] at hsent
  exact absurd hsent (by decide)

end UBoot.Video
