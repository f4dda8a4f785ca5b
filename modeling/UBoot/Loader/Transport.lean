import UBoot.Usb.DoubleBuffer

/-!
# The two transports of the target loader

`loader_scheduler` receives through `tl_recv`, to which it gives the address of `down_desc.buf`.
`usb_udl_recv` stores a pointer to its own buffer there, and `uart_sdl_recv` takes that address
for the address of the buffer. When a transfer comes does not matter to `usb_udl_recv`; it comes
during the call here.
-/
namespace UBoot.Loader
open ByteStore

/-- What `targetloader_init` sets `tl_recv` to. -/
inductive TlRecv
  | usbUdlRecv | uartSdlRecv

/-- Where `down_desc` and the receive buffers of the USB transport lie. -/
structure MemoryMap where
  downDesc : ℕ
  rxBuf : ℕ → ℕ
  bufLen : ℕ
  rxBuf_lt : ∀ req, rxBuf req < 2 ^ 32
  rxBuf_apart : ∀ req, rxBuf req + bufLen ≤ downDesc ∨ downDesc + 8 ≤ rxBuf req
  bufs_apart : rxBuf 0 + bufLen ≤ rxBuf 1 ∨ rxBuf 1 + bufLen ≤ rxBuf 0

/-- `down_desc.buf` -/
def MemoryMap.buf (map : MemoryMap) : ByteStore.Field := ⟨map.downDesc, 4⟩

/-- What the host sends at a time. -/
structure HostTransfer (bufLen : ℕ) where
  bytes : List UInt8
  length_le : bytes.length ≤ bufLen

/-- The memory, the request that is queued, and what the host sends. A UART delivers single
bytes, of which the first `taken` are gone. -/
structure Wire (map : MemoryMap) where
  mem : Mem
  rxReqIndex : ℕ
  transfers : List (HostTransfer map.bufLen)
  taken : ℕ

section Functions
variable {map : MemoryMap}

/-- The bytes that are still to come. -/
def Wire.stream (s : Wire map) : List UInt8 := (s.transfers.flatMap HostTransfer.bytes).drop s.taken

def Wire.start (mem : Mem) (transfers : List (HostTransfer map.bufLen)) : Wire map :=
  ⟨mem, 0, transfers, 0⟩

/-- `usb_udl_recv`, which waits for a transfer and does not use the length. -/
def usbUdlRecv (packet : ByteStore.Field) (s : Wire map) : Option (Wire map) :=
  s.transfers.head?.map fun t =>
    let buf := map.rxBuf s.rxReqIndex
    { s with
      mem := packet.put (overlay s.mem buf t.bytes.length (ofList t.bytes)) buf
      rxReqIndex := s.rxReqIndex ^^^ 0x01
      transfers := s.transfers.tail }

/-- `uart_sdl_recv`, which waits for `length` bytes. -/
def uartSdlRecv (p length : ℕ) (s : Wire map) : Option (Wire map) :=
  if s.stream.length < length then none
  else some { s with mem := overlay s.mem p length (ofList s.stream), taken := s.taken + length }

/-- `tl_recv(&(down_desc.buf), down_desc.size)` -/
def tlRecv (recv : TlRecv) (size : ℕ) (s : Wire map) : Option (Wire map) :=
  match recv with
  | .usbUdlRecv => usbUdlRecv map.buf s
  | .uartSdlRecv => uartSdlRecv map.downDesc size s

end Functions

/-- `down_desc.buf` designates the next `size` bytes of the stream, and besides the pointer only
receive buffers have been changed. -/
structure RecvRight {map : MemoryMap} (size : ℕ) (s s' : Wire map) : Prop where
  stream : s.stream = slice s'.mem (map.buf.get s'.mem) size ++ s'.stream
  frame : ∀ a, s'.mem a ≠ s.mem a → (map.downDesc ≤ a ∧ a < map.downDesc + 4) ∨
    ∃ req, map.rxBuf req ≤ a ∧ a < map.rxBuf req + map.bufLen

/-- Every call that returns is right, for the sizes that the loop asks for. -/
def Receives {map : MemoryMap} (recv : TlRecv) : Wire map → List ℕ → Prop
  | _, [] => True
  | s, size :: sizes => ∀ s', tlRecv recv size s = some s' →
      RecvRight size s s' ∧ Receives recv s' sizes

/-- A call over USB finds a transfer of the size asked for; one over the UART asks for nothing, or
for more than comes. -/
def CallMatches {map : MemoryMap} (recv : TlRecv) (size : ℕ) (s : Wire map) : Prop :=
  match recv with
  | .usbUdlRecv => ∀ t, s.transfers.head? = some t → t.bytes.length = size
  | .uartSdlRecv => size = 0 ∨ s.stream.length < size

/-- Every call of the loop is one of these. -/
def Matched {map : MemoryMap} (recv : TlRecv) : Wire map → List ℕ → Prop
  | _, [] => True
  | s, size :: sizes => CallMatches recv size s ∧
      ∀ s', tlRecv recv size s = some s' → Matched recv s' sizes

section Calls
variable {map : MemoryMap} {s s' : Wire map} {size : ℕ}

theorem usbUdlRecv_cases {packet : ByteStore.Field} (h : usbUdlRecv packet s = some s') :
    ∃ t ts, s.transfers = t :: ts ∧ s' =
      { s with
        mem := packet.put (overlay s.mem (map.rxBuf s.rxReqIndex) t.bytes.length (ofList t.bytes))
          (map.rxBuf s.rxReqIndex)
        rxReqIndex := s.rxReqIndex ^^^ 0x01
        transfers := ts } := by
  obtain ⟨t, ht, rfl⟩ := Option.map_eq_some_iff.1 h
  obtain ⟨ts, hts⟩ := List.head?_eq_some_iff.1 ht
  exact ⟨t, ts, hts, by rw [hts]; rfl⟩

theorem usbUdlRecv_right (htaken : s.taken = 0) (h : usbUdlRecv map.buf s = some s')
    (hsize : CallMatches .usbUdlRecv size s) : RecvRight size s s' ∧ s'.taken = 0 := by
  obtain ⟨t, ts, hts, rfl⟩ := usbUdlRecv_cases h
  obtain rfl : t.bytes.length = size := hsize t (by rw [hts]; rfl)
  have hle := t.length_le
  have hapart := map.rxBuf_apart s.rxReqIndex
  have hptr : map.rxBuf s.rxReqIndex % 256 ^ 4 = map.rxBuf s.rxReqIndex :=
    Nat.mod_eq_of_lt (map.rxBuf_lt _)
  refine ⟨⟨?_, fun a ha => ?_⟩, htaken⟩
  · have hslice : slice (map.buf.put (overlay s.mem (map.rxBuf s.rxReqIndex) t.bytes.length
        (ofList t.bytes)) (map.rxBuf s.rxReqIndex)) (map.rxBuf s.rxReqIndex) t.bytes.length =
          t.bytes := by
      conv_rhs => rw [← slice_overlay s.mem (map.rxBuf s.rxReqIndex) t.bytes]
      refine slice_congr fun i hi => ?_
      exact overlay_of_not_mem _ _ (by simp only [MemoryMap.buf]; omega)
    simp only [ByteStore.Field.get_put, MemoryMap.buf] at hslice ⊢
    rw [hptr, hslice, Wire.stream, Wire.stream, hts, htaken]
    simp
  · by_contra hout
    push Not at hout
    have hbuf := hout.2 s.rxReqIndex
    refine ha ?_
    simp only [ByteStore.Field.put, MemoryMap.buf]
    rw [overlay_of_not_mem _ _ (by omega), overlay_of_not_mem _ _ (by omega)]

/-- Over the UART a call of size 0 changes nothing. -/
theorem uartSdlRecv_right {p : ℕ} (h : uartSdlRecv p size s = some s')
    (hsize : CallMatches .uartSdlRecv size s) : RecvRight size s s' := by
  rw [uartSdlRecv] at h
  split_ifs at h with hshort
  obtain rfl : size = 0 := hsize.resolve_right hshort
  obtain rfl := Option.some.inj h
  refine ⟨by simp [slice, Wire.stream], fun a ha => absurd ?_ ha⟩
  exact overlay_of_not_mem _ _ (by omega)

theorem receives_of_matched (recv : TlRecv) (htaken : recv = .usbUdlRecv → s.taken = 0)
    (sizes : List ℕ) (h : Matched recv s sizes) : Receives recv s sizes := by
  induction sizes generalizing s with
  | nil => trivial
  | cons size sizes ih =>
    intro s' hs'
    cases recv with
    | usbUdlRecv =>
      obtain ⟨hright, htaken'⟩ := usbUdlRecv_right (htaken rfl) hs' h.1
      exact ⟨hright, ih (fun _ => htaken') (h.2 s' hs')⟩
    | uartSdlRecv => exact ⟨uartSdlRecv_right hs' h.1, ih nofun (h.2 s' hs')⟩

end Calls

/-- The two buffers of the USB driver while it waits for the next transfer. -/
structure Follows {map : MemoryMap} (s : Wire map) (d : Usb.UdlDev) : Prop where
  index : d.rxReqIndex = s.rxReqIndex
  two : s.rxReqIndex = 0 ∨ s.rxReqIndex = 1
  idle : d.pc = .idle
  listening : d.packetReceived = false
  queued : d.queued = [s.rxReqIndex]
  bufs : ∀ req, req = 0 ∨ req = 1 → ∀ i < map.bufLen, s.mem (map.rxBuf req + i) = d.buf req i

/-- A transfer, and the call that returns it. -/
def serve (d : Usb.UdlDev) (packet : List UInt8) : Usb.UdlDev :=
  [.complete d.rxReqIndex packet, .call, .proceed, .proceed, .proceed, .proceed].foldl
    Usb.udlStep d

theorem serve_eq {d : Usb.UdlDev} (hidle : d.pc = .idle) (packet : List UInt8) :
    serve d packet =
      { d with
        rxReqIndex := d.rxReqIndex ^^^ 0x01
        packetReceived := false
        queued := d.queued.erase d.rxReqIndex ++ [d.rxReqIndex ^^^ 0x01]
        actual := Function.update d.actual d.rxReqIndex packet.length
        buf := Function.update d.buf d.rxReqIndex
          (overlay (d.buf d.rxReqIndex) 0 packet.length (ofList packet))
        held := some (d.rxReqIndex, packet.length)
        delivered := d.delivered ++ [packet]
        handed := d.handed ++ [packet] } := by
  obtain ⟨_, _, _, _, _, pc, _, _, _⟩ := d
  obtain rfl : pc = .idle := hidle
  simp [serve, Usb.udlStep, Usb.UdlDev.rxComplete, Usb.UdlDev.proceed, Usb.UdlDev.rxSubmit,
    Usb.UdlDev.handOver, slice_overlay]

/-- A call here is a call there that the transfer comes before, and the pointer stored is to the
buffer that is then held. -/
theorem usbUdlRecv_follows {map : MemoryMap} {s s' : Wire map} {d : Usb.UdlDev}
    (h : Follows s d) (hrecv : usbUdlRecv map.buf s = some s') :
    ∃ t, s.transfers.head? = some t ∧ Follows s' (serve d t.bytes) ∧
      (serve d t.bytes).held = some (s.rxReqIndex, t.bytes.length) ∧
      map.buf.get s'.mem = map.rxBuf s.rxReqIndex := by
  obtain ⟨t, ts, hts, rfl⟩ := usbUdlRecv_cases hrecv
  have hle := t.length_le
  have happ := map.bufs_apart
  refine ⟨t, by rw [hts]; rfl, ?_, by rw [serve_eq h.idle, h.index], ?_⟩
  · rw [serve_eq h.idle]
    refine ⟨by rw [h.index], (Usb.xor_one_ne h.two).2, h.idle, rfl, ?_, fun req hreq i hi => ?_⟩
    · simp [h.queued, h.index]
    · have hdesc := map.rxBuf_apart req
      have hput := @overlay_of_not_mem (overlay s.mem (map.rxBuf s.rxReqIndex) t.bytes.length
        (ofList t.bytes)) (digits (map.rxBuf s.rxReqIndex)) map.downDesc 4
        (map.rxBuf req + i) (by omega)
      refine hput.trans ?_
      dsimp only
      rw [h.index]
      by_cases hsame : req = s.rxReqIndex
      · rw [hsame, Function.update_self]
        by_cases hin : i < t.bytes.length
        · rw [overlay_add _ _ hin, overlay_of_mem _ _ (Nat.zero_le i) (by omega), Nat.sub_zero]
        · rw [overlay_of_not_mem _ _ (by omega), overlay_of_not_mem _ _ (by omega),
            h.bufs _ h.two i hi]
      · have hother : map.rxBuf req + map.bufLen ≤ map.rxBuf s.rxReqIndex ∨
            map.rxBuf s.rxReqIndex + map.bufLen ≤ map.rxBuf req := by
          rcases hreq with rfl | rfl <;> rcases h.two with htwo | htwo <;> rw [htwo] at hsame ⊢
          all_goals tauto
        rw [Function.update_of_ne hsame, overlay_of_not_mem _ _ (by omega), h.bufs req hreq i hi]
  · rw [ByteStore.Field.get_put]
    exact Nat.mod_eq_of_lt (map.rxBuf_lt _)

/-- In a run whose calls all match, every one is right. -/
theorem tlRecv_right {map : MemoryMap} (recv : TlRecv) (mem : Mem)
    (transfers : List (HostTransfer map.bufLen)) (sizes : List ℕ)
    (h : Matched recv (Wire.start mem transfers) sizes) :
    Receives recv (Wire.start mem transfers) sizes :=
  receives_of_matched recv (fun _ => rfl) sizes h

/-- Two buffers of 64 bytes and a descriptor behind them. -/
def smallMap : MemoryMap where
  downDesc := 256
  rxBuf req := if req = 0 then 0 else 64
  bufLen := 64
  rxBuf_lt req := by split <;> decide
  rxBuf_apart req := .inl (by split <;> decide)
  bufs_apart := .inl (by decide)

/-- The host sends eight bytes. -/
def eightBytes : HostTransfer smallMap.bufLen := ⟨[1, 2, 3, 4, 5, 6, 7, 8], by decide⟩

theorem eight_bytes_received : Receives .usbUdlRecv
    (Wire.start (fun _ => 0) [eightBytes] : Wire smallMap) [8] :=
  tlRecv_right .usbUdlRecv (fun _ => 0) [eightBytes] [8]
    ⟨fun t ht => by rw [← Option.some.inj ht]; rfl, fun _ _ => trivial⟩

/-- Over the UART the packet replaces the pointer and what lies behind it. -/
theorem uart_overwrites_pointer : ¬ ∀ (map : MemoryMap) (recv : TlRecv) (mem : Mem)
    (transfers : List (HostTransfer map.bufLen)) (sizes : List ℕ),
    Receives recv (Wire.start mem transfers) sizes := by
  intro h
  obtain ⟨hright, -⟩ := h smallMap .uartSdlRecv (fun _ => 0) [eightBytes] [8] _ rfl
  rcases hright.frame 260 (by decide) with hpointer | ⟨req, -, hbuf⟩
  · exact absurd hpointer (by decide)
  · simp only [smallMap] at hbuf
    split at hbuf <;> omega

end UBoot.Loader
