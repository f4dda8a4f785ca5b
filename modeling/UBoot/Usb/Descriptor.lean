import UBoot.Library.BitField
import UBoot.Library.Machine
import UBoot.Word

/-!
# The DMA descriptor of a request

Each start of a transfer puts the number of bytes into the low half of the descriptor's
status word, and for an OUT transfer also packets and bytes into the size register of the
endpoint. When an OUT transfer ends, the controller leaves the bytes that did not come in the
low half, and the driver subtracts them from what it programmed.

The descriptor belongs to one request and is used again for each of its transfers.
-/
namespace UBoot.Usb
open BitField

/-- The three builds that choose `UDC_DMA_BUF_SIZE`. -/
inductive Build where
  | tlNoDdr
  | tlUsb
  | other

def udcDmaBufSize : Build → ℕ
  | .tlNoDdr => 1024 * 9
  | .tlUsb => 1024 * 64
  | .other => 1024 * 32

/-- `GET_DMA_BYTES` -/
def getDmaBytes (len mps : ℕ) : ℕ :=
  if len % mps = 0 then len else u32 ((len / mps + 1) * mps)

/-- `val_set` -/
def valSet (dst : BitVec 32) (bit width val : ℕ) : BitVec 32 :=
  put dst bit width (BitVec.ofNat 32 val)

def statIoBsHReady : ℕ := 0
def statIoBsDmaDone : ℕ := 2
def statIoBsHBusy : ℕ := 3
def statIoBsShift : ℕ := 30
def statIoLShift : ℕ := 27
def statIoIocShift : ℕ := 25

/-- A transfer that the controller works on. -/
inductive Active where
  | none
  | out (ep : ℕ)
  | in (ep : ℕ)
  deriving DecidableEq

/-- A request with its descriptor, the packet size of the endpoint it is queued at, and the
`DOEPSIZ` registers. -/
structure Dma where
  status : BitVec 32
  length : ℕ
  actual : ℕ
  maxpacket : ℕ
  doepsiz : ℕ → BitVec 32
  active : Active

namespace Dma

/-- The stores into the status word, for a transfer of `count` bytes. -/
def program (status : BitVec 32) (count : ℕ) : BitVec 32 :=
  let status := valSet status statIoBsShift 2 statIoBsHBusy
  let status := valSet status statIoLShift 1 1
  let status := valSet status statIoIocShift 1 1
  let status := valSet status 0 16 count
  valSet status statIoBsShift 2 statIoBsHReady

/-- `comip_ep_out_start`, which refuses a length of 0. -/
def comipEpOutStart (s : Dma) (ep : ℕ) : Dma :=
  if s.length = 0 then s
  else
    let bytes := getDmaBytes s.length s.maxpacket
    let val := s.doepsiz ep
    let val := if ep ≠ 0 then valSet (valSet val 19 10 (bytes / s.maxpacket)) 0 19 s.length
      else valSet (valSet (valSet val 29 2 1) 19 1 1) 0 7 s.maxpacket
    { s with
      status := program s.status bytes
      doepsiz := Function.update s.doepsiz ep val
      active := .out ep }

/-- `comip_ep_in_start` -/
def comipEpInStart (s : Dma) (ep : ℕ) (zero : Bool) : Dma :=
  { s with
    status := program s.status (if zero then 0 else s.length)
    actual := if zero then s.actual else u32 (s.actual + s.length)
    active := .in ep }

/-- `comip_udc_rx_dma_handle`; a descriptor that is not done leaves the request alone. -/
def comipUdcRxDmaHandle (b : Build) (s : Dma) : Dma :=
  if s.status.toNat / 2 ^ statIoBsShift = statIoBsDmaDone then
    let length := u32 (getDmaBytes s.length s.maxpacket + 2 ^ 32 - get s.status 0 16)
    if udcDmaBufSize b < length then { s with actual := u32 (s.actual + udcDmaBufSize b) }
    else { s with actual := u32 (s.actual + length) }
  else s

end Dma

/-- The steps: the request is queued at an endpoint, or the controller ends its transfer and
leaves a status word, and what it likes in the size registers. -/
inductive DmaAction where
  | startOut (ep length maxpacket : ℕ)
  | startIn (ep length maxpacket : ℕ)
  | endOut (n : ℕ) (status : BitVec 32) (doepsiz : ℕ → BitVec 32)
  | endIn (status : BitVec 32)

def dmaMachine (b : Build) : Machine Dma DmaAction Unit where
  step s
    | .startOut ep length maxpacket =>
      ((), Dma.comipEpOutStart
        { s with length := length, actual := 0, maxpacket := maxpacket } ep)
    | .startIn ep length maxpacket =>
      ((), Dma.comipEpInStart
        { s with length := length, actual := 0, maxpacket := maxpacket } ep false)
    | .endOut _ status doepsiz =>
      ((), Dma.comipUdcRxDmaHandle b
        { s with status := status, doepsiz := doepsiz, active := .none })
    | .endIn status => ((), { s with status := status, active := .none })

/-- Transfers on endpoints other than 0, of 1 byte up to a whole buffer; the controller ends
an OUT transfer as done, with the bytes that did not come in the low half. -/
def DmaLegal (b : Build) (s : Dma) : DmaAction → Prop
  | .startOut ep length maxpacket | .startIn ep length maxpacket =>
    ep ≠ 0 ∧ 1 ≤ length ∧ length ≤ udcDmaBufSize b ∧ (maxpacket = 64 ∨ maxpacket = 512)
  | .endOut n status _ => (∃ ep, s.active = .out ep) ∧
    n ≤ getDmaBytes s.length s.maxpacket ∧
    status.toNat / 2 ^ statIoBsShift = statIoBsDmaDone ∧
    get status 0 16 = (getDmaBytes s.length s.maxpacket - n) % 2 ^ 16
  | .endIn _ => ∃ ep, s.active = .in ep

/-- The status word is programmed for `count` bytes, and nothing else changes in it. -/
structure StatusRight (old new : BitVec 32) (count : ℕ) : Prop where
  count : get new 0 16 = count
  ready : get new statIoBsShift 2 = statIoBsHReady
  last : get new statIoLShift 1 = 1
  interrupt : get new statIoIocShift 1 = 1
  others : ∀ i, 16 ≤ i → i < 30 → i ≠ 25 → i ≠ 27 → new.getLsbD i = old.getLsbD i

/-- The size register holds packets and bytes, and its upper bits stay. -/
structure SizeRight (old new : BitVec 32) (packets bytes : ℕ) : Prop where
  packets : get new 19 10 = packets
  bytes : get new 0 19 = bytes
  others : ∀ i, 29 ≤ i → i < 32 → new.getLsbD i = old.getLsbD i

/-- A start programs what the transfer needs; an end adds what came. -/
def DmaRight (b : Build) (s : Dma) (a : DmaAction) : Prop :=
  let s' := ((dmaMachine b).step s a).2
  match a with
  | .startOut ep length maxpacket =>
    StatusRight s.status s'.status (getDmaBytes length maxpacket) ∧
    SizeRight (s.doepsiz ep) (s'.doepsiz ep) (getDmaBytes length maxpacket / maxpacket) length ∧
    ∀ ep' ≠ ep, s'.doepsiz ep' = s.doepsiz ep'
  | .startIn _ length _ => StatusRight s.status s'.status length ∧ s'.doepsiz = s.doepsiz
  | .endOut n _ _ => s'.actual = u32 (s.actual + n)
  | .endIn _ => True

/-- The count of the transfer fits 16 bits. -/
def CountFits : DmaAction → Prop
  | .startOut _ length maxpacket => getDmaBytes length maxpacket < 2 ^ 16
  | .startIn _ length _ => length < 2 ^ 16
  | _ => True

instance : DecidablePred CountFits
  | .startOut _ length maxpacket => inferInstanceAs (Decidable (getDmaBytes length maxpacket < _))
  | .startIn _ length _ => inferInstanceAs (Decidable (length < _))
  | .endOut .. | .endIn _ => inferInstanceAs (Decidable True)

section Fields
variable {status val : BitVec 32} {count : ℕ}

theorem toNat_ofNat_lt {v width : ℕ} (h : v < 2 ^ width) :
    (BitVec.ofNat 32 v).toNat < 2 ^ width := by
  rw [BitVec.toNat_ofNat]
  exact (Nat.mod_le _ _).trans_lt h

theorem get_valSet {bit width v : ℕ} (hw : width < 32) (hn : bit + width ≤ 32)
    (h : v < 2 ^ width) : get (valSet val bit width v) bit width = v := by
  have hlt : v < 2 ^ 32 := h.trans (Nat.pow_lt_pow_right (by decide) hw)
  rw [valSet, get_put val hw hn (toNat_ofNat_lt h), BitVec.toNat_ofNat, Nat.mod_eq_of_lt hlt]

theorem get_valSet_of_apart {bit width bit' width' v : ℕ} (hw : width < 32) (h : v < 2 ^ width)
    (hn : bit' + width' ≤ 32) (hapart : bit' + width' ≤ bit ∨ bit + width ≤ bit') :
    get (valSet val bit width v) bit' width' = get val bit' width' :=
  get_put_of_apart val hw (toNat_ofNat_lt h) hn hapart

theorem getLsbD_valSet {bit width v i : ℕ} (hw : width < 32) (h : v < 2 ^ width) (hi : i < 32)
    (hout : i < bit ∨ bit + width ≤ i) : (valSet val bit width v).getLsbD i = val.getLsbD i :=
  getLsbD_put_outside val hw hi (toNat_ofNat_lt h) hout

theorem program_right (h : count < 2 ^ 16) :
    StatusRight status (Dma.program status count) count := by
  refine ⟨?_, ?_, ?_, ?_, fun i hlow hhigh hioc hlast => ?_⟩
  · rw [Dma.program, get_valSet_of_apart (by decide) (by decide) (by decide) (by decide),
      get_valSet (by decide) (by decide) h]
  · rw [Dma.program, get_valSet (by decide) (by decide) (by decide)]
  · rw [Dma.program, get_valSet_of_apart (by decide) (by decide) (by decide) (by decide),
      get_valSet_of_apart (by decide) h (by decide) (by decide),
      get_valSet_of_apart (by decide) (by decide) (by decide) (by decide),
      get_valSet (by decide) (by decide) (by decide)]
  · rw [Dma.program, get_valSet_of_apart (by decide) (by decide) (by decide) (by decide),
      get_valSet_of_apart (by decide) h (by decide) (by decide),
      get_valSet (by decide) (by decide) (by decide)]
  · have hlastbit : i < statIoLShift ∨ statIoLShift + 1 ≤ i := by
      rw [statIoLShift]
      omega
    have hiocbit : i < statIoIocShift ∨ statIoIocShift + 1 ≤ i := by
      rw [statIoIocShift]
      omega
    have hi : i < 32 := by omega
    have hbsbit : i < statIoBsShift ∨ statIoBsShift + 2 ≤ i := .inl hhigh
    rw [Dma.program, getLsbD_valSet (by decide) (by decide) hi hbsbit,
      getLsbD_valSet (by decide) h hi (.inr (by omega)),
      getLsbD_valSet (by decide) (by decide) hi hiocbit,
      getLsbD_valSet (by decide) (by decide) hi hlastbit,
      getLsbD_valSet (by decide) (by decide) hi hbsbit]

theorem size_right {packets bytes : ℕ} (hpackets : packets < 2 ^ 10) (hbytes : bytes < 2 ^ 19) :
    SizeRight val (valSet (valSet val 19 10 packets) 0 19 bytes) packets bytes := by
  refine ⟨?_, get_valSet (by decide) (by decide) hbytes, fun i hlow hhigh => ?_⟩
  · rw [get_valSet_of_apart (by decide) hbytes (by decide) (by decide),
      get_valSet (by decide) (by decide) hpackets]
  · rw [getLsbD_valSet (by decide) hbytes hhigh (.inr (by omega)),
      getLsbD_valSet (by decide) hpackets hhigh (.inr (by omega))]

end Fields

section Runs
variable {b : Build} {s : Dma} {a : DmaAction}

theorem udcDmaBufSize_le (b : Build) : udcDmaBufSize b ≤ 2 ^ 16 := by cases b <;> decide

/-- A buffer is a whole number of packets, so that rounding up stays inside it. -/
theorem getDmaBytes_le {length maxpacket : ℕ} (hlen : length ≤ udcDmaBufSize b)
    (hmps : maxpacket = 64 ∨ maxpacket = 512) :
    getDmaBytes length maxpacket ≤ udcDmaBufSize b := by
  rw [getDmaBytes]
  split_ifs with hrem
  · exact hlen
  · refine (u32_le _).trans ?_
    cases b <;> rw [udcDmaBufSize] at hlen ⊢ <;> rcases hmps with rfl | rfl <;> omega

/-- An OUT transfer under way has a count that fits, in a packet size of the bus. -/
def OutFits (b : Build) (s : Dma) : Prop :=
  ∀ ep, s.active = .out ep → getDmaBytes s.length s.maxpacket < 2 ^ 16 ∧
    getDmaBytes s.length s.maxpacket ≤ udcDmaBufSize b

/-- A field of 16 bits holds no more. -/
theorem count_of_right (hright : DmaRight b s a) : CountFits a := by
  cases a with
  | startOut ep length maxpacket => exact hright.1.count.symm.trans_lt (get_lt _ 0 16)
  | startIn ep length maxpacket => exact hright.1.count.symm.trans_lt (get_lt _ 0 16)
  | endOut n status doepsiz => trivial
  | endIn status => trivial

theorem startOut_eq {ep length maxpacket : ℕ} (hlen : 1 ≤ length) (hep : ep ≠ 0) :
    ((dmaMachine b).step s (.startOut ep length maxpacket)).2 =
    { s with
      status := Dma.program s.status (getDmaBytes length maxpacket)
      length := length
      actual := 0
      maxpacket := maxpacket
      doepsiz := Function.update s.doepsiz ep (valSet (valSet (s.doepsiz ep) 19 10
        (getDmaBytes length maxpacket / maxpacket)) 0 19 length)
      active := .out ep } := by
  simp only [dmaMachine, Dma.comipEpOutStart, if_neg (Nat.one_le_iff_ne_zero.mp hlen), if_pos hep]

theorem dma_right (hlegal : DmaLegal b s a) (hout : OutFits b s) (hfits : CountFits a) :
    DmaRight b s a := by
  cases a with
  | startOut ep length maxpacket =>
    obtain ⟨hep, hlen, hbuf, hmps⟩ := hlegal
    change getDmaBytes length maxpacket < 2 ^ 16 at hfits
    rw [DmaRight, startOut_eq hlen hep]
    have hsmall := udcDmaBufSize_le b
    refine ⟨program_right hfits, ?_, fun ep' hep' => Function.update_of_ne hep' ..⟩
    dsimp only
    rw [Function.update_self]
    refine size_right ?_ (by omega)
    rcases hmps with rfl | rfl <;> omega
  | startIn ep length maxpacket => exact ⟨program_right hfits, rfl⟩
  | endOut n status doepsiz =>
    obtain ⟨⟨ep, hactive⟩, hn, hdone, hleft⟩ := hlegal
    obtain ⟨hcount, hbuf⟩ := hout ep hactive
    have hlength : u32 (getDmaBytes s.length s.maxpacket + 2 ^ 32 - get status 0 16) = n := by
      rw [hleft, Nat.mod_eq_of_lt (by omega), u32]
      omega
    change (Dma.comipUdcRxDmaHandle b _).actual = _
    simp only [Dma.comipUdcRxDmaHandle, if_pos hdone, hlength,
      if_neg (show ¬ udcDmaBufSize b < n by omega)]
  | endIn status => trivial

theorem outFits_step (hlegal : DmaLegal b s a) (hfits : CountFits a) :
    OutFits b ((dmaMachine b).step s a).2 := by
  cases a with
  | startOut ep length maxpacket =>
    obtain ⟨hep, hlen, hbuf, hmps⟩ := hlegal
    rw [startOut_eq hlen hep]
    exact fun _ _ => ⟨hfits, getDmaBytes_le hbuf hmps⟩
  | startIn ep length maxpacket =>
    exact fun ep' h => absurd h (by simp [dmaMachine, Dma.comipEpInStart])
  | endOut n status doepsiz =>
    intro ep h
    simp only [dmaMachine, Dma.comipUdcRxDmaHandle] at h
    split_ifs at h
  | endIn status => exact fun ep h => absurd h (by simp [dmaMachine])

/-- In a run of transfers that use the descriptor again and again, every start programs and
every end adds the right numbers exactly when every count fits 16 bits. -/
theorem dma_right_iff {as : List DmaAction} (hidle : s.active = .none)
    (hlegal : (dmaMachine b).Guarded (DmaLegal b) s as) :
    (dmaMachine b).Guarded (DmaRight b) s as ↔ ∀ a ∈ as, CountFits a := by
  have hout : OutFits b s := fun ep h => absurd (hidle.symm.trans h) (by simp)
  clear hidle
  induction as generalizing s with
  | nil => exact ⟨fun _ a ha => absurd ha List.not_mem_nil, fun _ => trivial⟩
  | cons a as ih =>
    obtain ⟨hstep, hrest⟩ := hlegal
    rw [List.forall_mem_cons]
    constructor
    · rintro ⟨hright, hrights⟩
      have hfits := count_of_right hright
      exact ⟨hfits, (ih hrest (outFits_step hstep hfits)).mp hrights⟩
    · rintro ⟨hfits, hall⟩
      exact ⟨dma_right hstep hout hfits, (ih hrest (outFits_step hstep hfits)).mpr hall⟩

end Runs

/-- A request that has not been used yet. -/
def freshDma : Dma := ⟨0, 0, 0, 512, fun _ => 0, .none⟩

/-- A buffer of 32 KiB is received half full, and sent back. -/
def halfBuffer : List DmaAction :=
  [.startOut 8 32768 512, .endOut 16384 0x80004000 (fun _ => 0), .startIn 1 16384 512]

theorem halfBuffer_right :
    (dmaMachine .other).Guarded (DmaRight .other) freshDma halfBuffer := by
  have hlegal : (dmaMachine .other).Guarded (DmaLegal .other) freshDma halfBuffer :=
    ⟨⟨by decide, by decide, by decide, .inr rfl⟩, ⟨⟨8, by decide⟩, by decide, by decide, by decide⟩,
      ⟨by decide, by decide, by decide, .inr rfl⟩, trivial⟩
  exact (dma_right_iff rfl hlegal).mpr (by decide)

/-- The whole buffer of the 64 KiB build: the low half of the status word is 0. -/
theorem whole_buffer_programs_nothing : ¬ ∀ (b : Build) (s : Dma) (as : List DmaAction),
    s.active = .none → (dmaMachine b).Guarded (DmaLegal b) s as →
    (dmaMachine b).Guarded (DmaRight b) s as := by
  intro hall
  have hright := hall .tlUsb freshDma [.startOut 8 65536 512] rfl
    ⟨⟨by decide, by decide, by decide, .inr rfl⟩, trivial⟩
  exact absurd (count_of_right hright.1) (by decide)

end UBoot.Usb
