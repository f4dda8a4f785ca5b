import UBoot.Library.PackedField
import UBoot.Usb.Fastboot

/-!
# Flashing what was downloaded

`cmd_flash` hands the download buffer and `download_size` to the flash code. The buffer keeps
what earlier downloads left, and the size is 0 unless the last download was complete. The flash
code looks into the buffer to tell a sparse image, which it then follows whatever the size is,
and it writes a raw one in one block more than the size fills.
-/
namespace UBoot.Usb
open ByteStore Flash

section Functions
variable {δ : Type}

/-- A card next to a record of the bytes that every write hands to it, the latest first. -/
def recording (dev : BlockDev δ) : BlockDev (δ × List (List UInt8)) where
  blLen := dev.blLen
  blLen_pos := dev.blLen_pos
  blLen_lt := dev.blLen_lt
  blockWrite blk cnt src d :=
    let r := dev.blockWrite blk cnt src d.1
    (r.1, (r.2, slice src 0 (cnt * dev.blLen) :: d.2))

/-- The board with the record of what is written. -/
def FastbootEnv.recorded (env : FastbootEnv δ) : FastbootEnv (δ × List (List UInt8)) where
  downloadMax := env.downloadMax
  varlist := env.varlist
  partitions := env.partitions
  dev := recording env.dev
  eraseDev :=
    { env.eraseDev with
      mmcEraseT := fun start cnt d =>
        let r := env.eraseDev.mmcEraseT start cnt d.1
        (r.1, (r.2, d.2)) }
  driverError s d := env.driverError s d.1

/-- The bytes of the last download, if it was complete. -/
def received (env : FastbootEnv δ) (last : Option (List UInt8)) (r : Round) :
    Option (List UInt8) :=
  (downloadOf r.command).elim last fun arg =>
    let len := hex2unsigned 0 arg
    if len ≤ env.downloadMax ∧ (len ≠ 0 → r.data.length = len.toNat) then
      some (if len = 0 then [] else r.data)
    else none

/-- `fastboot_handler` next to the last download. -/
def observed (env : FastbootEnv δ) :
    Machine (Fastboot (δ × List (List UInt8)) × Option (List UInt8)) Round (List String) where
  step s r :=
    let s' := turn env.recorded s.1 r
    (s'.sent, (s', received env s.2 r))

end Functions

/-- After a complete download, a flash that answers OKAY has written bytes of the download only;
without one it answers FAIL and has written nothing. -/
def Programmed (last : Option (List UInt8)) (sent : List String) (written : List (List UInt8)) :
    Prop :=
  last.elim ((∃ reason, sent = ["FAIL" ++ reason]) ∧ ∀ bytes ∈ written, bytes = []) fun data =>
    sent = ["OKAY" ++ ""] → ∀ bytes ∈ written, bytes <:+: data

/-- What a flash command writes in its turn. -/
def FlashRight {δ : Type} (env : FastbootEnv δ)
    (s : Fastboot (δ × List (List UInt8)) × Option (List UInt8)) (r : Round) : Prop :=
  s.1.halted = false → ∀ name, findCommand r.command = some (.flash, name) →
    ∃ written, (turn env.recorded s.1 r).card.2 = written ++ s.1.card.2 ∧
      Programmed s.2 (turn env.recorded s.1 r).sent written

/-- Every flash command of the run is right. -/
def FlashesDownloaded {δ : Type} (env : FastbootEnv δ) (card : δ) (rounds : List Round) : Prop :=
  (observed env).Guarded (FlashRight env) (fastbootInit (card, []), none) rounds

/-- The blocks of a raw chunk lie within the first `n` bytes of the image. -/
def ChunkDownloaded (bl : ℕ) (source : Mem) (n partitionSize : ℕ) (c : Cursor) : Prop :=
  acceptedChunk source partitionSize c = some .raw →
    blocksUp (chunkLen source c.off) bl = 0 ∨
      c.off + sizeofChunkHeader + blocksUp (chunkLen source c.off) bl * bl ≤ n

/-- One of the next `n` chunks is not accepted. -/
def EndsRefused (source : Mem) (partitionSize : ℕ) : ℕ → Cursor → Prop
  | 0, _ => False
  | n + 1, c => ∀ kind, acceptedChunk source partitionSize c = some kind →
      EndsRefused source partitionSize n (c.next source kind)

/-- A flash that writes what was downloaded: there is no such partition, the download does not
fit, or the buffer holds a sparse image whose header is refused, or whose raw chunks in whole
blocks lie in the download; without a download it has a chunk that is refused. -/
def FlashSafe (bl : ℕ) (partitions : List Partition) (last : Option (List UInt8)) (buffer : Mem)
    (name : List UInt8) : Prop :=
  ∀ pt, partitionFindByName partitions (some (text name)) = some pt →
    pt.bytes < (last.getD []).length ∨
      (headerMagic buffer = sparseHeaderMagic ∧ (HeaderOk buffer pt.bytes →
        let first : Cursor := ⟨headerFileHdrSz buffer, u32 pt.firstByte, 0⟩
        EveryChunk buffer pt.bytes (ChunkDownloaded bl buffer (last.getD []).length pt.bytes)
            (headerTotalChunks buffer) first ∧
          (last = none → EndsRefused buffer pt.bytes (headerTotalChunks buffer) first)))

/-- Every flash command of the run is one of these. -/
def FlashesSafe {δ : Type} (env : FastbootEnv δ) (card : δ) (rounds : List Round) : Prop :=
  (observed env).Guarded (fun s r => s.1.halted = false →
    ∀ name, findCommand r.command = some (.flash, name) →
      FlashSafe env.dev.blLen env.partitions s.2 s.1.downloadBase name)
    (fastbootInit (card, []), none) rounds

section Writes
variable {δ : Type} {dev : BlockDev δ} {source : Mem} {n partitionSize : ℕ}
  {log : List (List UInt8)}

theorem slice_of_longer (source : Mem) {off k : ℕ} (h : k = 0 ∨ off + k ≤ n) :
    slice source off k <:+: slice source 0 n := by
  rcases h with rfl | h
  · exact List.nil_infix
  · refine ⟨slice source 0 off, slice source (off + k) (n - (off + k)), ?_⟩
    have hn : n = off + k + (n - (off + k)) := by omega
    conv_rhs => rw [hn, slice_add, slice_add, Nat.zero_add, Nat.zero_add]

/-- All writes since the record was `log` come from the first `n` bytes of the image. -/
def WrittenFrom (source : Mem) (n : ℕ) (log : List (List UInt8))
    (s : Session (δ × List (List UInt8))) : Prop :=
  ∃ written, s.dev.2 = written ++ log ∧ ∀ bytes ∈ written, bytes <:+: slice source 0 n

theorem WrittenFrom.of_dev {s s' : Session (δ × List (List UInt8))}
    (h : WrittenFrom source n log s) (hdev : s'.dev = s.dev) : WrittenFrom source n log s' := by
  rw [WrittenFrom, hdev]
  exact h

theorem WrittenFrom.flashWrite {s : Session (δ × List (List UInt8))}
    (h : WrittenFrom source n log s) {off size : ℕ} (start : ℕ) (hsize : size < 2 ^ 32)
    (hin : blocksUp size dev.blLen = 0 ∨ off + blocksUp size dev.blLen * dev.blLen ≤ n) :
    WrittenFrom source n log (flashWrite (recording dev) source off size start s).2 := by
  obtain ⟨written, hlog, hwritten⟩ := h
  have hcnt : u32 (blocksUp size dev.blLen) = blocksUp size dev.blLen :=
    u32_of_lt (lt_of_le_of_lt (blocksUp_le_self size dev.blLen_pos) hsize)
  refine ⟨slice source off (blocksUp size dev.blLen * dev.blLen) :: written, ?_, ?_⟩
  · simp only [Flash.flashWrite, Session.blockWrite, Session.note, recording, hlog, hcnt,
      slice_advance, List.cons_append]
  · rw [List.forall_mem_cons]
    refine ⟨slice_of_longer source ?_, hwritten⟩
    rcases hin with hzero | hle
    · exact .inl (by rw [hzero, Nat.zero_mul])
    · exact .inr hle

theorem WrittenFrom.unsparseChunk {s : Session (δ × List (List UInt8))}
    (h : WrittenFrom source n log s) {c : Cursor}
    (hc : ChunkDownloaded dev.blLen source n partitionSize c) :
    WrittenFrom source n log (unsparseChunk (recording dev) source partitionSize c s).2 := by
  cases hk : acceptedChunk source partitionSize c with
  | none => exact h.of_dev (unsparseChunk_of_none _ s hk).2.dev
  | some kind =>
    cases kind with
    | dontCare => exact h.of_dev (unsparseChunk_of_dontCare _ s hk).2.dev
    | raw =>
      obtain ⟨s₁, hs₁, heq⟩ := unsparseChunk_of_raw (recording dev) s hk
      have hlen := rawLen_lt (acceptedChunk_raw_iff.1 hk).2.2
      rw [heq]
      exact (h.of_dev hs₁.dev).flashWrite _ (by omega) (hc hk)

/-- A refused chunk ends the loop with an error. -/
theorem unsparseLoop_refused (dev : BlockDev δ) {k : ℕ} {c : Cursor} (s : Session δ)
    (h : EndsRefused source partitionSize k c) :
    (unsparseLoop dev source partitionSize k c s).1 = false := by
  induction k generalizing c s with
  | zero => exact h.elim
  | succ k ih =>
    rw [unsparseLoop]
    split
    · rfl
    · next c' s' heq =>
      obtain ⟨kind, hk, rfl⟩ := unsparseChunk_next heq
      exact ih s' (h kind hk)

/-- A sparse image whose chunks lie within its first `n` bytes, and which fails if it should. -/
theorem writeUnsparse_safe {dev : BlockDev δ} {fails : Prop} (start : ℕ)
    {s : Session (δ × List (List UInt8))} (hs : WrittenFrom source n log s)
    (h : HeaderOk source partitionSize →
      let first : Cursor := ⟨headerFileHdrSz source, start, 0⟩
      EveryChunk source partitionSize (ChunkDownloaded dev.blLen source n partitionSize)
          (headerTotalChunks source) first ∧
        (fails → EndsRefused source partitionSize (headerTotalChunks source) first)) (size : ℕ) :
    (fails → (writeUnsparse (recording dev) source size start partitionSize s).1 = false) ∧
      WrittenFrom source n log
        (writeUnsparse (recording dev) source size start partitionSize s).2 := by
  have hhead := hs.of_dev (headerAccepted_sameDevice source partitionSize s).dev
  simp only [writeUnsparse]
  split
  · next hok =>
    obtain ⟨hchunks, hrefused⟩ := h (headerAccepted_iff.1 hok).2
    refine ⟨fun hfails => unsparseLoop_refused _ _ (hrefused hfails), ?_⟩
    exact unsparseLoop_rule (recording dev) (fun s hs => hs.of_dev rfl)
      (fun c s hs hc => hs.unsparseChunk hc) _ hhead hchunks
  · exact ⟨fun _ => rfl, hhead⟩

/-- What a safe flash writes comes from the download, and without one it fails. -/
theorem flashPartitionEraseWrite_safe (dev : BlockDev δ) {partitions : List Partition}
    {last : Option (List UInt8)} {buffer : Mem} {name : List UInt8} {size : UInt32} (d : δ)
    (log : List (List UInt8)) (hsize : size.toNat = (last.getD []).length)
    (h : FlashSafe dev.blLen partitions last buffer name) :
    let r := flashPartitionEraseWrite (recording dev) partitions (some (text name)) buffer size
      (Session.initial (d, log))
    (last = none → r.1 ≠ 0) ∧ WrittenFrom buffer (last.getD []).length log r.2 := by
  have hstart : ∀ s : Session (δ × List (List UInt8)), s.dev.2 = log →
      WrittenFrom buffer (last.getD []).length log s := fun s hs => ⟨[], hs, by simp⟩
  have hinval : eInval ≠ 0 := by decide
  cases hfind : partitionFindByName partitions (some (text name)) with
  | none =>
    simp only [flashPartitionEraseWrite, hfind]
    exact ⟨fun _ => hinval, hstart _ rfl⟩
  | some pt =>
    have hbytes : u64 (pt.sectorSize * pt.length) = pt.bytes := u64_of_lt (bytes_lt pt)
    simp only [flashPartitionEraseWrite, hfind, hbytes]
    by_cases hlarge : size.toNat > pt.bytes
    · rw [if_pos hlarge]
      exact ⟨fun _ => hinval, hstart _ rfl⟩
    · obtain ⟨hmagic, hheader⟩ := (h pt hfind).resolve_left (by omega)
      obtain ⟨hfails, hwritten⟩ := writeUnsparse_safe (u32 pt.firstByte)
        (hstart (checkSparseImage buffer (Session.initial (d, log))).2 rfl) hheader size.toNat
      rw [if_neg hlarge, if_pos (by simpa [checkSparseImage] using hmagic)]
      refine ⟨fun hnone => ?_, hwritten⟩
      rw [show pt.sectorSize * pt.start = pt.firstByte from rfl, hfails hnone]
      simp

end Writes

section Turns
variable {δ : Type} (env : FastbootEnv δ)

/-- The buffer holds the last download and `download_size` its length. -/
def HoldsLast (s : Fastboot (δ × List (List UInt8)) × Option (List UInt8)) : Prop :=
  s.1.halted = false → s.1.state ≠ .command ∧ s.1.downloadSize.toNat = (s.2.getD []).length ∧
    slice s.1.downloadBase 0 (s.2.getD []).length = s.2.getD []

theorem fastbootAck_keeps_download (code reason : String) (s : Fastboot δ) :
    (fastbootAck code reason s).downloadBase = s.downloadBase ∧
      (fastbootAck code reason s).downloadSize = s.downloadSize := by
  simp only [fastbootAck, usbWrite]
  split_ifs <;> exact ⟨rfl, rfl⟩

theorem fastbootAck_card (code reason : String) (s : Fastboot δ) :
    (fastbootAck code reason s).card = s.card := by
  simp only [fastbootAck, usbWrite]
  split_ifs <;> rfl

/-- Only a download changes the buffer or its size. -/
theorem handle_keeps_download {s : Fastboot δ} {cmd : Command} (hcmd : cmd ≠ .download)
    (arg data : List UInt8) :
    (handle env cmd arg data s).downloadBase = s.downloadBase ∧
      (handle env cmd arg data s).downloadSize = s.downloadSize := by
  cases cmd with
  | download => exact absurd rfl hcmd
  | flash => simp only [handle, cmdFlash]; split <;> exact fastbootAck_keeps_download _ _ _
  | erase => simp only [handle, cmdErase]; split <;> exact fastbootAck_keeps_download _ _ _
  | reboot => exact fastbootAck_keeps_download "OKAY" "" s
  | getvar | boot | powerdown | «continue» | rebootBootloader =>
    exact fastbootAck_keeps_download _ _ _

/-- A download leaves its bytes in the buffer, or the size 0. -/
theorem cmdDownload_holds {s : Fastboot (δ × List (List UInt8))} {arg : List UInt8} {r : Round}
    (last : Option (List UInt8)) (hfind : findCommand r.command = some (.download, arg))
    (h : s.state = .command) :
    HoldsLast (cmdDownload env.recorded arg r.data s, received env last r) := by
  intro _
  refine ⟨handle_state_ne env.recorded .download arg r.data h, ?_⟩
  have harg := downloadOf_eq_some.2 hfind
  simp only [received, harg, Option.elim_some]
  rcases download_cases env arg r.data with hlen | ⟨hlen, hzero, hdata⟩ | ⟨hlen, hdata⟩
  · have hnot : ¬ hex2unsigned 0 arg ≤ env.downloadMax := UInt32.not_le.2 hlen
    have hsize : (cmdDownload env.recorded arg r.data s).downloadSize = 0 := by
      simp only [cmdDownload, FastbootEnv.recorded, gt_iff_lt, if_pos hlen]
      exact (fastbootAck_keeps_download _ _ _).2
    rw [if_neg (fun h => hnot h.1), hsize]
    exact ⟨rfl, rfl⟩
  · rw [cmdDownload_short env.recorded hlen hzero hdata h, if_neg (fun h => hdata (h.2 hzero))]
    exact ⟨rfl, rfl⟩
  · rw [cmdDownload_complete env.recorded hlen hdata h, if_pos ⟨hlen, hdata⟩]
    by_cases hzero : hex2unsigned 0 arg = 0
    · simp [dataPhase, hzero, slice]
    · simp only [dataPhase, if_neg hzero, Option.getD_some]
      exact ⟨(hdata hzero).symm, slice_overlay _ _ _⟩

theorem observed_holdsLast {s : Fastboot (δ × List (List UInt8)) × Option (List UInt8)}
    (r : Round) (h : HoldsLast s) : HoldsLast ((observed env).step s r).2 := by
  intro hrunning
  by_cases hhalted : s.1.halted = true
  · simp only [observed, turn_halted env.recorded hhalted] at hrunning
    exact absurd hrunning (by simp [hhalted])
  · rw [Bool.not_eq_true] at hhalted
    obtain ⟨hstate, hsize, hbase⟩ := h hhalted
    have hstate' := turn_state_ne env.recorded (r := r) hhalted hstate
    have hlast : ∀ cmd, findCommand r.command = cmd → (∀ arg, cmd ≠ some (.download, arg)) →
        received env s.2 r = s.2 := by
      intro cmd hfind hcmd
      have hnone : downloadOf r.command = none := by
        rw [Option.eq_none_iff_forall_ne_some]
        intro arg harg
        exact hcmd arg (hfind.symm.trans (downloadOf_eq_some.1 harg))
      rw [received, hnone]
      rfl
    cases hfind : findCommand r.command with
    | none =>
      refine ⟨hstate', ?_⟩
      simp only [observed, turn_unknown env.recorded hhalted hstate hfind,
        hlast _ hfind (fun arg => by simp)]
      exact ⟨hsize, hbase⟩
    | some cmd =>
      obtain ⟨cmd, arg⟩ := cmd
      by_cases hcmd : cmd = .download
      · subst hcmd
        have hturn := turn_known env.recorded hhalted hfind
        simp only [observed, hturn] at hrunning ⊢
        exact cmdDownload_holds env s.2 hfind rfl hrunning
      · obtain ⟨hkeptBase, hkeptSize⟩ := handle_keeps_download env.recorded
          (s := { reading s.1 with state := .command }) hcmd arg r.data
        refine ⟨hstate', ?_⟩
        simp only [observed, turn_known env.recorded hhalted hfind,
          hlast _ hfind (fun arg => by simp [hcmd]), hkeptBase, hkeptSize]
        exact ⟨hsize, hbase⟩

/-- What a flash command leaves on the card, and its answer. -/
theorem cmdFlash_spec {s : Fastboot δ} (arg : List UInt8) (h : s.state = .command) :
    let r := flashPartitionEraseWrite env.dev env.partitions (some (text arg)) s.downloadBase
      s.downloadSize (Session.initial s.card)
    (cmdFlash env arg s).card = r.2.dev ∧
      (r.1 ≠ 0 → ∃ reason, (cmdFlash env arg s).sent = s.sent ++ ["FAIL" ++ reason]) := by
  simp only [cmdFlash]
  split_ifs with hret
  · exact ⟨fastbootAck_card _ _ _, fun hne => absurd hret hne⟩
  · exact ⟨fastbootAck_card _ _ _, fun _ => ⟨_, Replied.sent (s := s) (replied_fail _ h rfl)⟩⟩

/-- A safe flash command writes what was downloaded. -/
theorem flashRight_of_safe {s : Fastboot (δ × List (List UInt8)) × Option (List UInt8)}
    {r : Round} (h : HoldsLast s) (hsafe : s.1.halted = false →
      ∀ name, findCommand r.command = some (.flash, name) →
        FlashSafe env.dev.blLen env.partitions s.2 s.1.downloadBase name) :
    FlashRight env s r := by
  intro hhalted name hfind
  obtain ⟨-, hsize, hbase⟩ := h hhalted
  obtain ⟨hfails, written, hlog, hwritten⟩ := flashPartitionEraseWrite_safe env.dev
    s.1.card.1 s.1.card.2 hsize (hsafe hhalted name hfind)
  obtain ⟨hcard, hfail⟩ := cmdFlash_spec env.recorded
    (s := { reading s.1 with state := .command }) name rfl
  rw [turn_known env.recorded hhalted hfind, handle]
  refine ⟨written, by rw [hcard]; exact hlog, ?_⟩
  rw [hbase] at hwritten
  cases hlast : s.2 with
  | none =>
    refine ⟨hfail (hfails hlast), fun bytes hbytes => ?_⟩
    have hinfix := hwritten bytes hbytes
    rw [hlast] at hinfix
    exact List.infix_nil.1 hinfix
  | some data =>
    intro _ bytes hbytes
    have hinfix := hwritten bytes hbytes
    rw [hlast] at hinfix
    exact hinfix

end Turns

theorem holdsLast_init {δ : Type} (card : δ) :
    HoldsLast (fastbootInit (card, ([] : List (List UInt8))), none) :=
  fun _ => ⟨by simp [fastbootInit], rfl, rfl⟩

/-- In a run whose flash commands are all safe, every one writes what was downloaded last. -/
theorem flashesDownloaded_of_safe {δ : Type} (env : FastbootEnv δ) (card : δ)
    (rounds : List Round) (h : FlashesSafe env card rounds) :
    FlashesDownloaded env card rounds :=
  h.mono_of_invariant _ (fun _ r hs => observed_holdsLast env r hs)
    (fun _ _ hs hsafe => flashRight_of_safe env hs hsafe) (holdsLast_init card)

/-- A card of 512-byte blocks with a partition of one block. -/
def oneBlock : FastbootEnv Unit :=
  { bareBoard with partitions := [.ofWords 512 0 1 "a"] }

/-- A flash before any download writes a block of the buffer and answers OKAY. -/
theorem flash_without_download : ¬ ∀ {δ : Type} (env : FastbootEnv δ) (card : δ)
    (rounds : List Round), FlashesDownloaded env card rounds := by
  intro h
  obtain ⟨written, -, ⟨reason, hfail⟩, -⟩ :=
    (h oneBlock () [⟨ascii "flash:a", []⟩]).1 rfl [97] (by decide)
  have hsent : (turn oneBlock.recorded (fastbootInit ((), [])) ⟨ascii "flash:a", []⟩).sent =
      ["OKAY"] := by decide +kernel
  have hchars : "OKAY".toList = ("FAIL" ++ reason).toList :=
    congrArg String.toList (List.cons.inj (hsent.symm.trans hfail)).1
  simp at hchars

/-- Four bytes as a raw chunk. -/
def smallImage : List UInt8 :=
  headerBytes 4 1 1 ++ chunkBytes chunkTypeRaw 1 16 ++ [1, 2, 3, 4]

/-- A card of single bytes with a partition of four. -/
def fourBytes : FastbootEnv Unit :=
  { bareBoard with
    partitions := [.ofWords 1 0 4 "a"]
    dev := sink 1 Nat.one_pos byte_lt_word }

theorem small_image_flashed : FlashesDownloaded fourBytes ()
    [⟨ascii "download:2c", smallImage⟩, ⟨ascii "flash:a", []⟩] := by
  apply flashesDownloaded_of_safe
  refine ⟨fun _ name hname => absurd hname ?_, fun _ name hname pt hpt => .inr ?_, trivial⟩
  · have hdownload : (findCommand (ascii "download:2c")).map Prod.fst = some .download := by decide
    intro hflash
    rw [hflash] at hdownload
    simp at hdownload
  · obtain rfl : [97] = name := by
      have hflash : findCommand (ascii "flash:a") = some (.flash, [97]) := by decide
      exact (Prod.mk.inj (Option.some.inj (hflash.symm.trans hname))).2
    obtain rfl : .ofWords 1 0 4 "a" = pt := Option.some.inj hpt
    refine ⟨by decide +kernel, fun _ => ⟨?_, fun hnone => absurd hnone (by decide +kernel)⟩⟩
    have hchunks : headerTotalChunks ((observed fourBytes).step (fastbootInit ((), []), none)
        ⟨ascii "download:2c", smallImage⟩).2.1.downloadBase = 1 := by decide +kernel
    rw [hchunks]
    exact ⟨fun _ => .inr (by decide +kernel), fun _ _ => trivial⟩

end UBoot.Usb
