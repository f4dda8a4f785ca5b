import UBoot.Library.Copies
import UBoot.Loader.Packet

/-!
# The frame of a response

`protocol_handle` builds the frame in the transmit buffer, where the payload of `CMD_DATA`
already stands: it is moved down by `memcpy` of `lib/string.c`, which goes up.
-/
namespace UBoot.Loader
open ByteStore

/-- `memcpy`: words while both pointers are aligned, and then bytes. -/
def memcpy (m : Mem) (dest src count : ℕ) : Mem :=
  if src = dest then m
  else
    let words := if (dest ||| src) &&& 3 = 0 then count / 4 else 0
    copyUp 1 (dest + 4 * words) (src + 4 * words) (count - 4 * words) (copyUp 4 dest src words m)

/-- `struct packet` for the host; the data is a pointer. -/
structure HostPacket where
  cmdId : UInt8
  dataSize : ℕ
  data : ℕ

/-- `protocol_handle` for a packet to the host, as it runs on memory; the transmit buffer is at
`buf`. -/
def protocolHandle (ppk : HostPacket) (buf : ℕ) (m : Mem) : HostPacket × Mem :=
  let m := Function.update (overlay m buf upExtraSize fun _ => 0) buf ppk.cmdId
  let n := u16 (ppk.dataSize + 1)
  let src := if ppk.cmdId = Cmd.data.id then buf + upExtraSize else ppk.data
  let m := memcpy m (buf + cmdCmdSize) src (n - 1)
  let n := if ppk.cmdId = Cmd.data.id then u16 (n + 1)
    else if n < upExtraSize then upExtraSize else u16 (n + 1)
  let m := Function.update m (buf + (n - 1)) (calcChecksum (slice m buf (n - 1)))
  (⟨cmdNone, n, buf⟩, m)

/-- The zeros behind `n` bytes of payload. -/
def padding (cmdId : UInt8) (n : ℕ) : ℕ :=
  if cmdId = Cmd.data.id then 0 else upExtraSize - (n + cmdCmdSize + cmdCrcSize)

/-- The bytes of the transmit buffer. -/
def upBufSize : ℕ := upDataSize + upExtraSize

/-- Where the payload stands: the flash is read into the transmit buffer for `CMD_DATA`. -/
def HostPacket.payloadAt (ppk : HostPacket) (buf : ℕ) : ℕ :=
  if ppk.cmdId = Cmd.data.id then buf + upExtraSize else ppk.data

/-- The payload of another command stands in another buffer. -/
def HostPacket.Apart (ppk : HostPacket) (buf : ℕ) : Prop :=
  ppk.cmdId = Cmd.data.id ∨ buf + upBufSize ≤ ppk.data ∨ ppk.data + ppk.dataSize ≤ buf

/-- The packet that `protocol_handle` leaves is the frame of the payload, and nothing outside
the transmit buffer has changed. -/
structure FrameRight (ppk : HostPacket) (buf : ℕ) (m : Mem) (r : HostPacket × Mem) : Prop where
  start : r.1.data = buf
  length : r.1.dataSize =
    cmdCmdSize + ppk.dataSize + padding ppk.cmdId ppk.dataSize + cmdCrcSize
  frame : ∃ crc, slice r.2 buf r.1.dataSize =
    ppk.cmdId :: slice m (ppk.payloadAt buf) ppk.dataSize ++
      List.replicate (padding ppk.cmdId ppk.dataSize) 0 ++ [crc]
  checksum : (slice r.2 buf r.1.dataSize).foldl (· ^^^ ·) 0 = 0
  outside : ∀ a, a < buf ∨ buf + upBufSize ≤ a → r.2 a = m a

section Frame

theorem calcChecksum_append (l : List UInt8) (b : UInt8) :
    calcChecksum (l ++ [b]) = calcChecksum l ^^^ b := by
  rw [calcChecksum, List.foldl_append]
  rfl

/-- The payload is read before it is overwritten. -/
theorem memcpy_eq {dest src count : ℕ} (h : dest ≤ src ∨ src + count ≤ dest) (m : Mem) :
    memcpy m dest src count = overlay m dest count (advance m src) := by
  unfold memcpy
  split
  · next heq =>
    funext a
    subst heq
    unfold overlay
    split
    · rw [advance_apply, Nat.add_sub_cancel' (by omega)]
    · rfl
  · dsimp only
    generalize hwords : (if (dest ||| src) &&& 3 = 0 then count / 4 else 0) = words
    have hle : 4 * words ≤ count := by
      rw [← hwords]
      split <;> omega
    rw [copyUp_eq (by omega), copyUp_eq (by omega), Nat.one_mul, overlay_resume (by omega),
      Nat.add_sub_cancel' hle]

/-- The announced size. -/
theorem dataSize_eq (cmdId : UInt8) {n : ℕ} (hn : n ≤ upDataSize) :
    (if cmdId = Cmd.data.id then u16 (u16 (n + 1) + 1)
      else if u16 (n + 1) < upExtraSize then upExtraSize else u16 (u16 (n + 1) + 1)) =
      1 + n + padding cmdId n + 1 := by
  have hup : upDataSize = 4096 := rfl
  have hone : u16 (n + 1) = n + 1 := Nat.mod_eq_of_lt (by omega)
  have htwo : u16 (n + 1 + 1) = n + 1 + 1 := Nat.mod_eq_of_lt (by omega)
  rw [hone, htwo, padding, cmdCmdSize, cmdCrcSize, upExtraSize]
  split_ifs <;> omega

/-- The bytes in front of the checksum. -/
theorem slice_body (m : Mem) {buf src n : ℕ} (cmdId : UInt8)
    (hsrc : buf + upExtraSize ≤ src ∨ src + n ≤ buf) :
    slice (overlay (Function.update (overlay m buf upExtraSize fun _ => 0) buf cmdId)
        (buf + cmdCmdSize) n
        (advance (Function.update (overlay m buf upExtraSize fun _ => 0) buf cmdId) src)) buf
        (1 + n + padding cmdId n) =
      cmdId :: slice m src n ++ List.replicate (padding cmdId n) 0 := by
  have hextra : upExtraSize = 8 := rfl
  have hcmd : cmdCmdSize = 1 := rfl
  rw [hcmd]
  generalize hhead : Function.update (overlay m buf upExtraSize fun _ => 0) buf cmdId = head
  have hfirst : overlay head (buf + 1) n (advance head src) buf = cmdId := by
    rw [overlay_of_not_mem _ _ (by omega), ← hhead, Function.update_self]
  have hpayload : slice (overlay head (buf + 1) n (advance head src)) (buf + 1) n =
      slice m src n := by
    refine slice_congr fun i hi => ?_
    rw [overlay_add _ _ hi, advance_apply, ← hhead, Function.update_of_ne (by omega),
      overlay_of_not_mem _ _ (by omega)]
  have hzeros : slice (overlay head (buf + 1) n (advance head src)) (buf + (1 + n))
      (padding cmdId n) = List.replicate (padding cmdId n) 0 := by
    rw [List.eq_replicate_iff]
    refine ⟨length_slice _ _ _, fun b hb => ?_⟩
    obtain ⟨i, hi, rfl⟩ := List.mem_map.mp hb
    have hshort : n + i < 6 := by
      have hi := List.mem_range.mp hi
      rw [padding, hextra, hcmd, cmdCrcSize] at hi
      split_ifs at hi <;> omega
    rw [overlay_of_not_mem _ _ (by omega), ← hhead, Function.update_of_ne (by omega),
      overlay_of_mem _ _ (by omega) (by omega)]
  rw [slice_add, slice_add, hpayload, hzeros, slice, List.range_one, List.map_singleton,
    Nat.add_zero (buf), hfirst, List.singleton_append]

/-- The payload stands behind the bytes that are cleared first, or in another buffer. -/
theorem HostPacket.Apart.payloadAt {ppk : HostPacket} {buf : ℕ} (h : ppk.Apart buf) :
    buf + upExtraSize ≤ ppk.payloadAt buf ∨ ppk.payloadAt buf + ppk.dataSize ≤ buf := by
  rw [HostPacket.payloadAt]
  split
  · exact .inl le_rfl
  · next hcmd =>
    have hextra : upExtraSize ≤ upBufSize := Nat.le_add_left ..
    have := h.resolve_left hcmd
    omega

/-- The memory in front of the checksum. -/
def frameBody (ppk : HostPacket) (buf : ℕ) (m : Mem) : Mem :=
  let head := Function.update (overlay m buf upExtraSize fun _ => 0) buf ppk.cmdId
  overlay head (buf + cmdCmdSize) ppk.dataSize (advance head (ppk.payloadAt buf))

theorem protocolHandle_eq (ppk : HostPacket) (buf : ℕ) (m : Mem) (hn : ppk.dataSize ≤ upDataSize)
    (happart : ppk.Apart buf) : protocolHandle ppk buf m =
      (⟨cmdNone, 1 + ppk.dataSize + padding ppk.cmdId ppk.dataSize + 1, buf⟩,
        Function.update (frameBody ppk buf m)
          (buf + (1 + ppk.dataSize + padding ppk.cmdId ppk.dataSize))
          (calcChecksum (slice (frameBody ppk buf m) buf
            (1 + ppk.dataSize + padding ppk.cmdId ppk.dataSize)))) := by
  have hup : upDataSize = 4096 := rfl
  have hone : u16 (ppk.dataSize + 1) = ppk.dataSize + 1 := Nat.mod_eq_of_lt (by omega)
  have hsrc := happart.payloadAt
  have hcopy : memcpy (Function.update (overlay m buf upExtraSize fun _ => 0) buf ppk.cmdId)
      (buf + cmdCmdSize) (if ppk.cmdId = Cmd.data.id then buf + upExtraSize else ppk.data)
      (u16 (ppk.dataSize + 1) - 1) = frameBody ppk buf m := by
    rw [hone, Nat.add_sub_cancel]
    refine memcpy_eq ?_ _
    rw [HostPacket.payloadAt] at hsrc
    rw [cmdCmdSize]
    have hextra : upExtraSize = 8 := rfl
    omega
  simp only [protocolHandle]
  rw [dataSize_eq _ hn, hcopy, Nat.add_sub_cancel]

/-- Seen from the transmit buffer this is `handleToHost`. -/
theorem protocolHandle_refines (ppk : HostPacket) (buf : ℕ) (m : Mem)
    (hn : ppk.dataSize ≤ upDataSize) (happart : ppk.Apart buf) :
    (protocolHandle ppk buf m).1.dataSize = (handleToHost
      ⟨false, ppk.cmdId, ppk.dataSize, advance m ppk.data⟩ (advance m buf)).1.dataSize ∧
    advance (protocolHandle ppk buf m).2 buf = (handleToHost
      ⟨false, ppk.cmdId, ppk.dataSize, advance m ppk.data⟩ (advance m buf)).2 := by
  have hup : upDataSize = 4096 := rfl
  have hone : u16 (ppk.dataSize + 1) = ppk.dataSize + 1 := Nat.mod_eq_of_lt (by omega)
  have hhead : advance (Function.update (overlay m buf upExtraSize fun _ => 0) buf ppk.cmdId) buf =
      Function.update (overlay (advance m buf) 0 upExtraSize fun _ => 0) 0 ppk.cmdId := by
    have hcleared := advance_overlay m (fun _ => 0) buf 0 upExtraSize
    have hstored := advance_update (overlay m buf upExtraSize fun _ => 0) buf 0 ppk.cmdId
    rw [Nat.add_zero] at hcleared hstored
    rw [hstored, hcleared]
  have hbody : advance (frameBody ppk buf m) buf = overlay
      (Function.update (overlay (advance m buf) 0 upExtraSize fun _ => 0) 0 ppk.cmdId)
      cmdCmdSize ppk.dataSize (if ppk.cmdId = Cmd.data.id then
        advance (Function.update (overlay (advance m buf) 0 upExtraSize fun _ => 0) 0 ppk.cmdId)
          upExtraSize
        else advance m ppk.data) := by
    rw [frameBody, advance_overlay, hhead, HostPacket.payloadAt, ← hhead]
    split
    · rw [advance_advance]
    · next hcmd =>
      have hextra : upExtraSize ≤ upBufSize := Nat.le_add_left ..
      have hother := happart.resolve_left hcmd
      refine overlay_congr _ fun i hi => ?_
      have hpos : 0 < upExtraSize := by decide
      rw [advance_apply, Function.update_of_ne (by omega), overlay_of_not_mem _ _ (by omega),
        advance_apply]
  rw [protocolHandle_eq ppk buf m hn happart]
  simp only [handleToHost]
  rw [dataSize_eq _ hn, hone, Nat.add_sub_cancel, Nat.add_sub_cancel, ← hbody]
  exact ⟨rfl, by rw [advance_update, slice_advance]⟩

end Frame

/-- For every command and every payload of up to `UP_DATA_SIZE` bytes the frame is right. -/
theorem protocolHandle_frame (ppk : HostPacket) (buf : ℕ) (m : Mem)
    (hn : ppk.dataSize ≤ upDataSize) (happart : ppk.Apart buf) :
    FrameRight ppk buf m (protocolHandle ppk buf m) := by
  have hbody : slice (frameBody ppk buf m) buf
      (1 + ppk.dataSize + padding ppk.cmdId ppk.dataSize) =
      ppk.cmdId :: slice m (ppk.payloadAt buf) ppk.dataSize ++
        List.replicate (padding ppk.cmdId ppk.dataSize) 0 :=
    slice_body m ppk.cmdId happart.payloadAt
  have hframe : ∀ b, slice (Function.update (frameBody ppk buf m)
      (buf + (1 + ppk.dataSize + padding ppk.cmdId ppk.dataSize)) b) buf
      (1 + ppk.dataSize + padding ppk.cmdId ppk.dataSize + 1) =
      slice (frameBody ppk buf m) buf (1 + ppk.dataSize + padding ppk.cmdId ppk.dataSize) ++
        [b] := by
    intro b
    rw [slice_succ, Function.update_self]
    exact congrArg (· ++ [b]) (slice_congr fun i hi => Function.update_of_ne (by omega) ..)
  rw [protocolHandle_eq ppk buf m hn happart]
  refine ⟨rfl, rfl, ⟨_, (hframe _).trans (congrArg (· ++ _) hbody)⟩, ?_, fun a ha => ?_⟩
  · rw [hframe]
    exact (calcChecksum_append _ _).trans UInt8.xor_self
  · have hup : upBufSize = 4104 := rfl
    have hdata : upDataSize = 4096 := rfl
    have hextra : upExtraSize = 8 := rfl
    have hpad : padding ppk.cmdId ppk.dataSize ≤ 6 - ppk.dataSize := by
      rw [padding, hextra, cmdCmdSize, cmdCrcSize]
      split_ifs <;> omega
    dsimp only
    rw [Function.update_of_ne (by omega), frameBody, cmdCmdSize,
      overlay_of_not_mem _ _ (by omega), Function.update_of_ne (by omega),
      overlay_of_not_mem _ _ (by omega)]

/-- Seven bytes from another buffer. -/
theorem seven_bytes_framed : FrameRight ⟨cmdAck, 7, 8192⟩ 0 (fun a => a.toUInt8)
    (protocolHandle ⟨cmdAck, 7, 8192⟩ 0 fun a => a.toUInt8) :=
  protocolHandle_frame ⟨cmdAck, 7, 8192⟩ 0 _ (by decide) (.inr (.inl (by decide)))

end UBoot.Loader
