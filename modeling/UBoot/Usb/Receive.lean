import UBoot.Library.PackedField
import UBoot.Usb.Descriptor

/-!
# Reading from the host

`usb_read` of fastboot asks `usb_abi_recv` for pieces of at most one DMA buffer. Each piece is
one OUT transfer: the controller takes packets until the transfer, which is rounded up to whole
packets, is full or a packet is short. What has come is copied to the caller, whatever was
asked for.
-/
namespace UBoot.Usb
open ByteStore

/-- A packet as it goes over the bus. -/
structure Packet (mps : ℕ) where
  bytes : List UInt8
  length_le : bytes.length ≤ mps

def bytesOf {mps : ℕ} (ps : List (Packet mps)) : List UInt8 := (ps.map Packet.bytes).flatten

/-- `USB_DMA_BUFFER_LENGTH` -/
def usbDmaBufferLength : ℕ := 32 * 1024

/-- `CONFIG_FASTBOOT_BUFFER_SIZE`, up to which lengths are accepted. -/
def fastbootBufferSize : ℕ := 800 * 1024 * 1024

/-- The request for OUT transfers, with its buffer, and the packets that the host will send. -/
structure Rx (mps : ℕ) where
  dma : Dma
  buf : Mem
  packets : List (Packet mps)

/-- What a call leaves: its result, none if it waits for ever, and the caller's memory from the
buffer on. -/
structure ReadOutcome (mps : ℕ) where
  ret : Option ℤ
  buf : Mem
  rx : Rx mps

section Functions
variable {mps : ℕ}

/-- The controller fills at most `n` packets; a short one is the last. -/
def receive : ℕ → List (Packet mps) → Option (List UInt8 × List (Packet mps))
  | 0, ps => some ([], ps)
  | _ + 1, [] => none
  | n + 1, p :: ps =>
    if p.bytes.length < mps then some (p.bytes, ps)
    else (receive n ps).map fun r => (p.bytes ++ r.1, r.2)

/-- The controller ends the transfer as done, with the bytes that did not come. -/
def finish (status : BitVec 32) (left : ℕ) : BitVec 32 :=
  valSet (valSet status 0 16 left) statIoBsShift 2 statIoBsDmaDone

/-- `usb_abi_recv`; the result is read as an `unsigned`. It waits until a transfer ends. -/
def usbAbiRecv (ep : ℕ) (mem : Mem) (packet length : ℕ) (s : Rx mps) : Option (ℕ × Mem × Rx mps) :=
  if length > usbDmaBufferLength then some (2 ^ 32 - 1, mem, s)
  else
    let dma := Dma.comipEpOutStart
      { s.dma with length := length, actual := 0, maxpacket := mps, active := .none } ep
    if dma.active = .none then none
    else
      let count := BitField.get dma.status 0 16
      (receive (count / mps) s.packets).map fun r =>
        let buf := overlay s.buf 0 r.1.length (ofList r.1)
        let dma := Dma.comipUdcRxDmaHandle .other
          { dma with status := finish dma.status (count - r.1.length), active := .none }
        (dma.actual, overlay mem packet dma.actual buf, ⟨dma, buf, r.2⟩)

/-- An `unsigned` returned as an `int`. -/
def s32 (n : ℕ) : ℤ := if n < 2 ^ 31 then n else n - 2 ^ 32

/-- The loop of `usb_read`, of which each turn but the last adds a DMA buffer. -/
def usbReadLoop (ep len : ℕ) : ℕ → ℕ → Mem → Rx mps → ReadOutcome mps
  | 0, _, buf, s => ⟨none, buf, s⟩
  | fuel + 1, readCnt, buf, s =>
    if readCnt < len then
      let leftCnt := len - readCnt
      let wantCnt := if leftCnt > usbDmaBufferLength then usbDmaBufferLength else leftCnt
      match usbAbiRecv ep buf readCnt wantCnt s with
      | none => ⟨none, buf, s⟩
      | some (currentCnt, buf, s) =>
        let readCnt := u32 (readCnt + currentCnt)
        if currentCnt < usbDmaBufferLength then ⟨some (s32 readCnt), buf, s⟩
        else usbReadLoop ep len fuel readCnt buf s
    else ⟨some (s32 readCnt), buf, s⟩

/-- `usb_read` -/
def usbRead (stateError : Bool) (ep len : ℕ) (buf : Mem) (s : Rx mps) : ReadOutcome mps :=
  if stateError then ⟨some (-1), buf, s⟩ else usbReadLoop ep len (len + 1) 0 buf s

end Functions

/-- Nothing is written beyond the bytes asked for; a count that is returned is that of the bytes
written, which are those of the packets taken from the host; and the call waits for ever only if
no packet is short and there are not enough of them. -/
structure ReadsInside {mps : ℕ} (len : ℕ) (buf : Mem) (s : Rx mps) (o : ReadOutcome mps) :
    Prop where
  bounded : ∀ i, len ≤ i → o.buf i = buf i
  counted : ∀ n : ℕ, o.ret = some (n : ℤ) → n ≤ len ∧ ∃ taken,
    s.packets = taken ++ o.rx.packets ∧ n = (bytesOf taken).length ∧
    o.buf = overlay buf 0 n (ofList (bytesOf taken))
  returns : o.ret = none →
    (∀ p ∈ s.packets, p.bytes.length = mps) ∧ s.packets.length < blocksUp len mps

/-- The length is not whole packets, and after all the full packets that fit the host sends more
than is left. -/
def Overruns {mps : ℕ} (len : ℕ) (ps : List (Packet mps)) : Prop :=
  len % mps ≠ 0 ∧ (∀ p ∈ ps.take (len / mps), p.bytes.length = mps) ∧
    ∃ p, ps[len / mps]? = some p ∧ len % mps < p.bytes.length

section Receive
variable {mps : ℕ} {ps rest : List (Packet mps)} {bytes : List UInt8}

/-- The packets taken. -/
theorem receive_taken {n : ℕ} (h : receive n ps = some (bytes, rest)) :
    ∃ taken, ps = taken ++ rest ∧ bytes = bytesOf taken := by
  induction n generalizing ps bytes with
  | zero =>
    obtain ⟨rfl, rfl⟩ : [] = bytes ∧ ps = rest := by simpa [receive] using h
    exact ⟨[], rfl, rfl⟩
  | succ n ih =>
    cases ps with
    | nil => exact absurd h (by simp [receive])
    | cons p ps =>
      rw [receive] at h
      split at h
      · obtain ⟨rfl, rfl⟩ : p.bytes = bytes ∧ ps = rest := by simpa using h
        exact ⟨[p], rfl, by simp [bytesOf]⟩
      · obtain ⟨⟨x, rest'⟩, hx, heq⟩ := Option.map_eq_some_iff.mp h
        obtain ⟨rfl, rfl⟩ : p.bytes ++ x = bytes ∧ rest' = rest := by simpa using heq
        obtain ⟨taken, rfl, rfl⟩ := ih hx
        exact ⟨p :: taken, rfl, by simp [bytesOf]⟩

theorem receive_length_le {n : ℕ} (h : receive n ps = some (bytes, rest)) :
    bytes.length ≤ n * mps := by
  induction n generalizing ps bytes with
  | zero =>
    obtain ⟨rfl, rfl⟩ : [] = bytes ∧ ps = rest := by simpa [receive] using h
    exact Nat.zero_le _
  | succ n ih =>
    cases ps with
    | nil => exact absurd h (by simp [receive])
    | cons p ps =>
      have hp := p.length_le
      rw [Nat.succ_mul]
      rw [receive] at h
      split at h
      · obtain ⟨rfl, rfl⟩ : p.bytes = bytes ∧ ps = rest := by simpa using h
        omega
      · obtain ⟨⟨x, rest'⟩, hx, heq⟩ := Option.map_eq_some_iff.mp h
        obtain ⟨rfl, rfl⟩ : p.bytes ++ x = bytes ∧ rest' = rest := by simpa using heq
        have := ih hx
        rw [List.length_append]
        omega

/-- A long transfer is a short one, and the rest of it if that was full. -/
theorem receive_add (n k : ℕ) (ps : List (Packet mps)) :
    receive (n + k) ps = (receive n ps).bind fun r =>
      if r.1.length < n * mps then some r
      else (receive k r.2).map fun t => (r.1 ++ t.1, t.2) := by
  induction n generalizing ps with
  | zero => simp [receive]
  | succ n ih =>
    rw [Nat.add_right_comm]
    cases ps with
    | nil => rfl
    | cons p ps =>
      have hp := p.length_le
      have hmul : (n + 1) * mps = n * mps + mps := Nat.succ_mul n mps
      rw [receive, receive]
      split
      · next hshort => rw [Option.bind_some, if_pos (show p.bytes.length < _ by omega)]
      · next hfull =>
        rw [ih]
        cases receive n ps with
        | none => rfl
        | some r =>
          simp only [Option.bind_some, Option.map_some]
          by_cases hr : r.1.length < n * mps
          · rw [if_pos hr, if_pos (by rw [List.length_append]; omega), Option.map_some]
          · rw [if_neg hr, if_neg (by rw [List.length_append]; omega), Option.map_map]
            refine congrArg (Option.map · _) (funext fun t => ?_)
            simp [List.append_assoc]

theorem receive_one (p : Packet mps) (ps : List (Packet mps)) :
    receive 1 (p :: ps) = some (p.bytes, ps) := by
  rw [receive]
  split
  · rfl
  · simp [receive]

/-- Full packets are taken as many as there is room for. -/
theorem receive_full {k : ℕ} (hfull : ∀ p ∈ ps.take k, p.bytes.length = mps)
    (hlen : k ≤ ps.length) :
    ∃ x, receive k ps = some (x, ps.drop k) ∧ x.length = k * mps := by
  induction k generalizing ps with
  | zero => exact ⟨[], rfl, by simp⟩
  | succ k ih =>
    cases ps with
    | nil => exact absurd hlen (by simp)
    | cons p ps =>
      rw [List.take_succ_cons, List.forall_mem_cons] at hfull
      obtain ⟨x, hx, hxlen⟩ := ih hfull.2 (Nat.le_of_succ_le_succ hlen)
      refine ⟨p.bytes ++ x, ?_, ?_⟩
      · rw [receive, if_neg (by omega), hx]
        rfl
      · rw [List.length_append, hfull.1, hxlen, Nat.succ_mul, Nat.add_comm]

theorem full_of_receive {k : ℕ} (h : receive k ps = some (bytes, rest))
    (hlen : bytes.length = k * mps) :
    (∀ p ∈ ps.take k, p.bytes.length = mps) ∧ rest = ps.drop k := by
  induction k generalizing ps bytes with
  | zero =>
    obtain ⟨rfl, rfl⟩ : [] = bytes ∧ ps = rest := by simpa [receive] using h
    exact ⟨by simp, rfl⟩
  | succ k ih =>
    cases ps with
    | nil => exact absurd h (by simp [receive])
    | cons p ps =>
      have hp := p.length_le
      rw [Nat.succ_mul] at hlen
      rw [receive] at h
      split at h
      · next hshort =>
        obtain ⟨rfl, rfl⟩ : p.bytes = bytes ∧ ps = rest := by simpa using h
        omega
      · obtain ⟨⟨x, rest'⟩, hx, heq⟩ := Option.map_eq_some_iff.mp h
        obtain ⟨rfl, rfl⟩ : p.bytes ++ x = bytes ∧ rest' = rest := by simpa using heq
        rw [List.length_append] at hlen
        obtain ⟨hfull, hdrop⟩ := ih hx (by omega)
        rw [List.take_succ_cons, List.forall_mem_cons]
        exact ⟨⟨by omega, hfull⟩, hdrop⟩

/-- A transfer that does not end. -/
theorem full_of_receive_none {n : ℕ} (h : receive n ps = none) :
    (∀ p ∈ ps, p.bytes.length = mps) ∧ ps.length < n := by
  induction n generalizing ps with
  | zero => exact absurd h (by simp [receive])
  | succ n ih =>
    cases ps with
    | nil => exact ⟨by simp, by simp⟩
    | cons p ps =>
      have hp := p.length_le
      rw [receive] at h
      split at h
      · exact absurd h (by simp)
      · obtain ⟨hfull, hlen⟩ := ih (Option.map_eq_none_iff.mp h)
        rw [List.forall_mem_cons]
        exact ⟨⟨by omega, hfull⟩, Nat.succ_lt_succ hlen⟩

/-- The host sends more than the length if and only if the packet behind the full ones does. -/
theorem overruns_iff (hmps : 0 < mps) (len : ℕ) (ps : List (Packet mps)) :
    Overruns len ps ↔ ∃ bytes rest,
      receive (blocksUp len mps) ps = some (bytes, rest) ∧ len < bytes.length := by
  have hdiv := Nat.div_add_mod len mps
  rw [Nat.mul_comm] at hdiv
  constructor
  · rintro ⟨hrem, hfull, p, hget, hmore⟩
    obtain ⟨hlt, hp⟩ := List.getElem?_eq_some_iff.mp hget
    obtain ⟨x, hx, hxlen⟩ := receive_full hfull hlt.le
    refine ⟨x ++ p.bytes, ps.drop (len / mps + 1), ?_, ?_⟩
    · rw [blocksUp, if_pos hrem, receive_add, hx, Option.bind_some, if_neg hxlen.not_lt,
        List.drop_eq_getElem_cons hlt, hp, receive_one]
      rfl
    · rw [List.length_append, hxlen]
      omega
  · rintro ⟨bytes, rest, hrec, hmore⟩
    have hrem : len % mps ≠ 0 := by
      intro hzero
      have hle := receive_length_le hrec
      rw [blocksUp_mul_eq _ hmps, if_pos hzero, Nat.add_zero] at hle
      omega
    rw [blocksUp, if_pos hrem, receive_add] at hrec
    obtain ⟨⟨x, rest'⟩, hx, hrec⟩ := Option.bind_eq_some_iff.mp hrec
    have hxle := receive_length_le hx
    split at hrec
    · next hshort =>
      obtain ⟨rfl, rfl⟩ : x = bytes ∧ rest' = rest := by simpa using hrec
      dsimp only at hshort
      omega
    · next hlong =>
      dsimp only at hlong hrec
      obtain ⟨hfull, rfl⟩ := full_of_receive hx (by omega)
      refine ⟨hrem, hfull, ?_⟩
      cases hdrop : ps.drop (len / mps) with
      | nil =>
        rw [hdrop] at hrec
        exact absurd hrec (by simp [receive])
      | cons p ps' =>
        rw [hdrop, receive_one] at hrec
        obtain ⟨rfl, rfl⟩ : x ++ p.bytes = bytes ∧ ps' = rest := by simpa using hrec
        refine ⟨p, ?_, ?_⟩
        · rw [← List.head?_drop, hdrop, List.head?_cons]
        · rw [List.length_append] at hmore
          omega

end Receive

section Transfer
variable {mps : ℕ}

/-- Rounding up stays inside the buffer, which is whole packets. -/
theorem blocksUp_mul_le (hmps : mps = 64 ∨ mps = 512) {want : ℕ}
    (hwant : want ≤ usbDmaBufferLength) : blocksUp want mps * mps ≤ usbDmaBufferLength := by
  have hpos : 0 < mps := by omega
  have hdvd : usbDmaBufferLength / mps * mps = usbDmaBufferLength := by
    rcases hmps with rfl | rfl <;> rfl
  have hle : blocksUp want mps ≤ usbDmaBufferLength / mps := by
    rwa [blocksUp_le_iff _ _ hpos, hdvd]
  exact (Nat.mul_le_mul_right mps hle).trans hdvd.le

theorem getDmaBytes_eq (hmps : mps = 64 ∨ mps = 512) {want : ℕ}
    (hwant : want ≤ usbDmaBufferLength) :
    getDmaBytes want mps = blocksUp want mps * mps := by
  have hup := blocksUp_mul_le hmps hwant
  have hbuf : usbDmaBufferLength < 2 ^ 32 := by decide
  rw [getDmaBytes]
  rw [blocksUp] at hup ⊢
  by_cases h : want % mps = 0
  · rw [if_pos h, if_neg (not_not.mpr h), Nat.div_mul_cancel (Nat.dvd_of_mod_eq_zero h)]
  · rw [if_pos h] at hup
    rw [if_neg h, if_pos h, u32_of_lt (hup.trans_lt hbuf)]

/-- The status word of a transfer that has ended. -/
theorem finish_done (status : BitVec 32) (left : ℕ) :
    (finish status left).toNat / 2 ^ statIoBsShift = statIoBsDmaDone := by
  have hget : BitField.get (finish status left) statIoBsShift 2 = statIoBsDmaDone :=
    get_valSet (by decide) (by decide) (by decide)
  have hlt := (finish status left).isLt
  rw [BitField.get, BitVec.extractLsb'_toNat, Nat.shiftRight_eq_div_pow, Nat.mod_eq_of_lt] at hget
  · exact hget
  · rw [statIoBsShift]
    omega

theorem get_finish (status : BitVec 32) {left : ℕ} (h : left < 2 ^ 16) :
    BitField.get (finish status left) 0 16 = left := by
  rw [finish, get_valSet_of_apart (by decide) (by decide) (by decide) (by decide),
    get_valSet (by decide) (by decide) h]

/-- The number of bytes that the driver computes. -/
theorem rxDmaHandle_actual (s : Dma) {n : ℕ} (hactual : s.actual = 0)
    (hbytes : getDmaBytes s.length s.maxpacket ≤ usbDmaBufferLength)
    (hn : n ≤ getDmaBytes s.length s.maxpacket)
    (hdone : s.status.toNat / 2 ^ statIoBsShift = statIoBsDmaDone)
    (hleft : BitField.get s.status 0 16 = getDmaBytes s.length s.maxpacket - n) :
    (Dma.comipUdcRxDmaHandle .other s).actual = n := by
  have hbuf : usbDmaBufferLength = 32768 := rfl
  have hlength : u32 (getDmaBytes s.length s.maxpacket + 2 ^ 32 - BitField.get s.status 0 16) =
      n := by
    rw [hleft, u32]
    omega
  have hsize : udcDmaBufSize .other = 32768 := rfl
  simp only [Dma.comipUdcRxDmaHandle, if_pos hdone, hlength]
  rw [if_neg (by omega), hactual, Nat.zero_add, u32_of_lt (by omega)]

/-- One piece: what the packets of one transfer hold is copied. -/
theorem usbAbiRecv_cases (hmps : mps = 64 ∨ mps = 512) (ep : ℕ) {want : ℕ} (hpos : 0 < want)
    (hwant : want ≤ usbDmaBufferLength) (mem : Mem) (addr : ℕ) (s : Rx mps) :
    receive (blocksUp want mps) s.packets = none ∧ usbAbiRecv ep mem addr want s = none ∨
      ∃ bytes rest dma buf, receive (blocksUp want mps) s.packets = some (bytes, rest) ∧
        usbAbiRecv ep mem addr want s =
          some (bytes.length, overlay mem addr bytes.length (ofList bytes), ⟨dma, buf, rest⟩) := by
  have hbytes := getDmaBytes_eq hmps hwant
  have hup := blocksUp_mul_le hmps hwant
  have hbuf : usbDmaBufferLength = 32768 := rfl
  have hmps' : 0 < mps := by omega
  obtain ⟨d, hd, hcount, hactive, hlen, hactual, hmax⟩ : ∃ d, Dma.comipEpOutStart
      { s.dma with length := want, actual := 0, maxpacket := mps, active := .none } ep = d ∧
      BitField.get d.status 0 16 = blocksUp want mps * mps ∧ d.active = .out ep ∧
      d.length = want ∧ d.actual = 0 ∧ d.maxpacket = mps := by
    refine ⟨_, rfl, ?_⟩
    simp only [Dma.comipEpOutStart, if_neg hpos.ne', and_true]
    rw [(program_right (by omega)).count, hbytes]
  simp only [usbAbiRecv, hd]
  rw [if_neg (not_lt.mpr hwant), if_neg (by simp [hactive]), hcount, Nat.mul_div_cancel _ hmps']
  cases hrec : receive (blocksUp want mps) s.packets with
  | none => exact .inl ⟨rfl, rfl⟩
  | some r =>
    obtain ⟨bytes, rest⟩ := r
    have hle := receive_length_le hrec
    obtain ⟨dma, hdma⟩ : ∃ dma, Dma.comipUdcRxDmaHandle .other { d with
        status := finish d.status (blocksUp want mps * mps - bytes.length)
        active := .none } = dma := ⟨_, rfl⟩
    have hgot : dma.actual = bytes.length := by
      rw [← hdma]
      apply rxDmaHandle_actual
      · exact hactual
      · rw [hlen, hmax, hbytes]
        exact hup
      · rw [hlen, hmax, hbytes]
        exact hle
      · exact finish_done _ _
      · rw [hlen, hmax, hbytes]
        exact get_finish _ (by omega)
    refine .inr ⟨bytes, rest, dma, overlay s.buf 0 bytes.length (ofList bytes), rfl, ?_⟩
    simp only [Option.map_some, hdma, hgot]
    refine congrArg some (Prod.ext rfl (Prod.ext ?_ rfl))
    refine overlay_congr _ fun i hi => ?_
    rw [overlay_of_mem _ _ (Nat.zero_le i) (by omega), Nat.sub_zero]

end Transfer

section Read
variable {mps : ℕ}

theorem overlay_ofList_append (buf : Mem) (addr : ℕ) (front back : List UInt8) :
    overlay (overlay buf addr front.length (ofList front)) (addr + front.length) back.length
        (ofList back) =
      overlay buf addr (front.length + back.length) (ofList (front ++ back)) := by
  have hfront : ∀ i < front.length, ofList front i = ofList (front ++ back) i := by
    intro i hi
    simp [ofList, List.getElem?_append_left hi]
  have hback : ofList back = advance (ofList (front ++ back)) front.length := by
    funext i
    simp [ofList, List.getElem?_append_right]
  rw [overlay_congr _ hfront, hback, overlay_append]

theorem s32_of_lt {n : ℕ} (h : n < 2 ^ 31) : s32 (u32 n) = n := by
  rw [u32_of_lt (by omega), s32, if_pos h]

/-- The pieces together are one transfer of the whole length. -/
theorem usbReadLoop_eq (hmps : mps = 64 ∨ mps = 512) (ep : ℕ) {len : ℕ}
    (hlen : len ≤ fastbootBufferSize) {fuel readCnt : ℕ} (hfuel : len - readCnt < fuel)
    (hread : readCnt < len) (buf : Mem) (s : Rx mps) :
    receive (blocksUp (len - readCnt) mps) s.packets = none ∧
        (usbReadLoop ep len fuel readCnt buf s).ret = none ∧
        (∀ i, len ≤ i → (usbReadLoop ep len fuel readCnt buf s).buf i = buf i) ∨
      ∃ bytes rest, receive (blocksUp (len - readCnt) mps) s.packets = some (bytes, rest) ∧
        (usbReadLoop ep len fuel readCnt buf s).ret = some ((readCnt + bytes.length : ℕ) : ℤ) ∧
        (usbReadLoop ep len fuel readCnt buf s).buf =
          overlay buf readCnt bytes.length (ofList bytes) ∧
        (usbReadLoop ep len fuel readCnt buf s).rx.packets = rest := by
  have hbuf : usbDmaBufferLength = 32768 := rfl
  have hmax : fastbootBufferSize = 838860800 := rfl
  induction fuel generalizing readCnt buf s with
  | zero => omega
  | succ fuel ih =>
    have hmps' : 0 < mps := by omega
    rw [usbReadLoop, if_pos hread]
    dsimp only
    by_cases hlong : len - readCnt > usbDmaBufferLength
    · -- a full DMA buffer, which is whole packets
      rw [if_pos hlong]
      obtain ⟨k, hk⟩ : mps ∣ usbDmaBufferLength := by
        rcases hmps with rfl | rfl
        · exact ⟨512, by rw [hbuf]⟩
        · exact ⟨64, by rw [hbuf]⟩
      have hfull : blocksUp usbDmaBufferLength mps = k := by
        have := blocksUp_mul_add hmps' k 0
        rwa [Nat.add_zero, ← hk, blocksUp_zero, Nat.add_zero] at this
      have hrest : blocksUp (len - readCnt) mps =
          k + blocksUp (len - (readCnt + usbDmaBufferLength)) mps := by
        rw [← blocksUp_mul_add hmps', ← hk, show usbDmaBufferLength +
          (len - (readCnt + usbDmaBufferLength)) = len - readCnt by omega]
      rw [hrest, receive_add]
      rcases usbAbiRecv_cases hmps ep (by omega) le_rfl buf readCnt s with
        ⟨hnone, hwait⟩ | ⟨bytes, rest, dma, dmaBuf, hsome, hrecv⟩
      · rw [hfull] at hnone
        rw [hwait, hnone]
        exact .inl ⟨rfl, rfl, fun _ _ => rfl⟩
      · rw [hfull] at hsome
        have hle := receive_length_le hsome
        rw [Nat.mul_comm, ← hk] at hle
        rw [hrecv, hsome, Option.bind_some, Nat.mul_comm, ← hk]
        dsimp only
        by_cases hshort : bytes.length < usbDmaBufferLength
        · rw [if_pos hshort, if_pos hshort]
          exact .inr ⟨bytes, rest, rfl, congrArg some (s32_of_lt (by omega)), rfl, rfl⟩
        · have heq : bytes.length = usbDmaBufferLength := by omega
          rw [if_neg hshort, if_neg hshort, u32_of_lt (by omega), heq]
          have hfuel : len - (readCnt + usbDmaBufferLength) < fuel := by omega
          rcases ih hfuel (by omega)
            (overlay buf readCnt usbDmaBufferLength (ofList bytes)) ⟨dma, dmaBuf, rest⟩ with
            ⟨hnone, hret, hout⟩ | ⟨more, rest', hmore, hret, hout, hpackets⟩
          · dsimp only at hnone
            rw [hnone]
            refine .inl ⟨rfl, hret, fun i hi => ?_⟩
            rw [hout i hi, overlay_of_not_mem _ _ (by omega)]
          · dsimp only at hmore
            rw [hmore]
            refine .inr ⟨bytes ++ more, rest', rfl, ?_, ?_, hpackets⟩
            · rw [hret, List.length_append, heq, Nat.add_assoc]
            · rw [hout, ← heq, overlay_ofList_append, List.length_append]
    · -- the last piece
      rw [if_neg hlong]
      rcases usbAbiRecv_cases hmps ep (by omega) (not_lt.mp hlong) buf readCnt s with
        ⟨hnone, hwait⟩ | ⟨bytes, rest, dma, dmaBuf, hsome, hrecv⟩
      · rw [hwait]
        exact .inl ⟨hnone, rfl, fun _ _ => rfl⟩
      · have hle := (receive_length_le hsome).trans (blocksUp_mul_le hmps (not_lt.mp hlong))
        rw [hrecv]
        dsimp only
        by_cases hshort : bytes.length < usbDmaBufferLength
        · rw [if_pos hshort]
          exact .inr ⟨bytes, rest, hsome, congrArg some (s32_of_lt (by omega)), rfl, rfl⟩
        · -- it fills the buffer, and the loop ends before it asks again
          rw [if_neg hshort, u32_of_lt (by omega)]
          obtain ⟨fuel, rfl⟩ : ∃ n, fuel = n + 1 := ⟨fuel - 1, by omega⟩
          rw [usbReadLoop, if_neg (by omega)]
          refine .inr ⟨bytes, rest, hsome, congrArg some ?_, rfl, rfl⟩
          rw [s32, if_pos (by omega)]

/-- The count returned is that of the bytes that came. -/
theorem not_inside_of_overruns (hmps : mps = 64 ∨ mps = 512) (ep : ℕ) {len : ℕ}
    (hlen : len ≤ fastbootBufferSize) (buf : Mem) (s : Rx mps) (hmore : Overruns len s.packets) :
    ¬ ReadsInside len buf s (usbRead false ep len buf s) := by
  rintro ⟨-, hcount, -⟩
  have hpos : 0 < len := Nat.pos_of_ne_zero fun h => hmore.1 (h ▸ Nat.zero_mod mps)
  obtain ⟨bytes', rest', hsome', hlong⟩ := (overruns_iff (by omega) len s.packets).mp hmore
  rcases usbReadLoop_eq hmps ep hlen (show len - 0 < len + 1 by omega) hpos buf s with
    ⟨hnone, -⟩ | ⟨bytes, rest, hsome, hret, -⟩
  · exact absurd (hnone.symm.trans hsome') (by simp)
  · obtain ⟨rfl, rfl⟩ : bytes = bytes' ∧ rest = rest' := by simpa using hsome.symm.trans hsome'
    rw [Nat.zero_add] at hret
    exact absurd (hcount _ hret).1 (not_le.mpr hlong)

/-- Nothing is written beyond the bytes asked for, and the count returned is right, if and only if
nothing is read at all or the host does not send more than was asked for. -/
theorem usbRead_inside_iff (hmps : mps = 64 ∨ mps = 512) (stateError : Bool) (ep : ℕ) {len : ℕ}
    (hlen : len ≤ fastbootBufferSize) (buf : Mem) (s : Rx mps) :
    ReadsInside len buf s (usbRead stateError ep len buf s) ↔
      stateError = true ∨ ¬ Overruns len s.packets := by
  have hmps' : 0 < mps := by omega
  cases stateError with
  | true =>
    refine iff_of_true ⟨fun _ _ => rfl, fun n hn => ?_, fun h => absurd h (by simp [usbRead])⟩
      (.inl rfl)
    have hneg : (-1 : ℤ) = n := Option.some.inj hn
    omega
  | false =>
    rw [or_iff_right (by simp)]
    change ReadsInside len buf s (usbReadLoop ep len (len + 1) 0 buf s) ↔ _
    rcases Nat.eq_zero_or_pos len with rfl | hpos
    · refine iff_of_true ⟨fun _ _ => rfl, fun n hn => ?_, fun h => absurd h (by simp [usbReadLoop])⟩
        fun h => h.1 (Nat.zero_mod _)
      have hzero : n = 0 := by
        have : (0 : ℤ) = n := Option.some.inj hn
        omega
      subst hzero
      exact ⟨le_rfl, [], rfl, rfl, (overlay_zero _ _ _).symm⟩
    refine ⟨fun h hmore => not_inside_of_overruns hmps ep hlen buf s hmore h, fun hfits => ?_⟩
    rw [overruns_iff hmps'] at hfits
    rcases usbReadLoop_eq hmps ep hlen (show len - 0 < len + 1 by omega) hpos buf s with
      ⟨hnone, hret, hout⟩ | ⟨bytes, rest, hsome, hret, hout, hpackets⟩
    · exact ⟨hout, fun n hn => absurd (hret.symm.trans hn) (by simp),
        fun _ => full_of_receive_none hnone⟩
    · rw [Nat.sub_zero] at hsome
      rw [Nat.zero_add] at hret
      have hle : bytes.length ≤ len := not_lt.mp fun hlt => hfits ⟨bytes, rest, hsome, hlt⟩
      obtain ⟨taken, htaken, rfl⟩ := receive_taken hsome
      refine ⟨fun i hi => ?_, fun n hn => ?_, fun h => absurd (hret.symm.trans h) (by simp)⟩
      · rw [hout, overlay_of_not_mem _ _ (by omega)]
      · obtain rfl : (bytesOf taken).length = n := by
          have : ((bytesOf taken).length : ℤ) = n := Option.some.inj (hret.symm.trans hn)
          omega
        exact ⟨hle, taken, by rw [hpackets, htaken], rfl, hout⟩

end Read

/-- A command of 64 bytes, for which the host sends 13. -/
def versionPacket : Packet 512 := ⟨List.replicate 13 0x67, by decide⟩

/-- A packet of 512 bytes. -/
def fullPacket : Packet 512 := ⟨List.replicate 512 0x41, by rw [List.length_replicate]⟩

/-- A buffer for commands. -/
theorem version_read_inside :
    ReadsInside 64 (fun _ => 0) ⟨freshDma, fun _ => 0, [versionPacket]⟩
      (usbRead false 8 64 (fun _ => 0) ⟨freshDma, fun _ => 0, [versionPacket]⟩) :=
  (usbRead_inside_iff (.inr rfl) false 8 (by decide) (fun _ => 0)
    ⟨freshDma, fun _ => 0, [versionPacket]⟩).mpr
    (.inr fun h => by obtain ⟨-, -, p, ⟨⟩, hp⟩ := h; exact absurd hp (by decide))

/-- A command of 512 bytes for the buffer of 64. -/
theorem full_packet_overruns_command : ¬ ∀ (mps : ℕ) (ep len : ℕ) (buf : Mem) (s : Rx mps),
    mps = 64 ∨ mps = 512 → len ≤ fastbootBufferSize →
    ReadsInside len buf s (usbRead false ep len buf s) := by
  intro hall
  have hmore : Overruns 64 [fullPacket] := by
    refine ⟨by decide, by simp, fullPacket, rfl, ?_⟩
    rw [fullPacket, List.length_replicate]
    decide
  exact not_inside_of_overruns (.inr rfl) 8 (by decide) (fun _ => 0)
    ⟨freshDma, fun _ => 0, [fullPacket]⟩ hmore (hall 512 8 64 _ _ (.inr rfl) (by decide))

end UBoot.Usb
