import UBoot.Flash.Erase
import UBoot.Library.Machine

/-!
# The commands of fastboot

`fastboot_command_loop` reads a packet, looks for the first handler whose prefix it starts with,
and calls it. What is answered goes through `fastboot_ack`, which sends only in
`STATE_COMMAND` and leaves `STATE_COMPLETE` behind. The loop ends in `STATE_ERROR` and is
started again.
-/
namespace UBoot.Usb
open ByteStore Flash

/-- `fastboot_state` -/
inductive FastbootState
  | offline | command | complete | error
  deriving DecidableEq

/-- The handlers of `fastboot_init`. -/
inductive Command
  | getvar | download | flash | erase | boot | reboot | powerdown | «continue» | rebootBootloader
  deriving DecidableEq

/-- `CONFIG_FASTBOOT_BUFFER_SIZE`, so that what `usb_read` returns of a download is an `int`. -/
abbrev BufferSize := {n : UInt32 // n < 0x80000000}

/-- What the handlers work with: `download_max`, the published variables, the partition table,
and the card as it is written and erased. `driverError` is what the driver of the card leaves in
`error_string`, from what stood there. -/
structure FastbootEnv (δ : Type) where
  downloadMax : BufferSize
  varlist : List (String × String)
  partitions : List Partition
  dev : BlockDev δ
  eraseDev : EraseDev δ
  driverError : String → δ → String

/-- The globals of `fastboot.c` with the card and `error_string`. `sent` are the packets since
the last command was read, `halted` says that the board is rebooting. -/
structure Fastboot (δ : Type) where
  state : FastbootState
  downloadBase : Mem
  downloadSize : UInt32
  card : δ
  errorString : String
  sent : List String
  halted : Bool

/-- A command packet, and the bytes that come if the handler asks for data. -/
structure Round where
  command : List UInt8
  data : List UInt8
  deriving DecidableEq

/-- The bytes of a text without special characters. -/
def ascii (s : String) : List UInt8 := s.toList.map fun c => c.toNat.toUInt8

/-- The text of the bytes of a C string. -/
def text (bs : List UInt8) : String := String.ofList (bs.map fun b => Char.ofNat b.toNat)

/-- The value of a hexadecimal digit. -/
def hexDigit (x : UInt8) : Option UInt32 :=
  if 48 ≤ x ∧ x ≤ 57 then some (x - 48).toUInt32
  else if 97 ≤ x ∧ x ≤ 102 then some (x - 97 + 10).toUInt32
  else if 65 ≤ x ∧ x ≤ 70 then some (x - 65 + 10).toUInt32
  else none

/-- `hex2unsigned`, with the digits read so far in `n`. -/
def hex2unsigned (n : UInt32) : List UInt8 → UInt32
  | [] => n
  | x :: xs => (hexDigit x).elim n fun d => hex2unsigned (n <<< 4 ||| d) xs

/-- The format `%08x`. -/
def hex8 (n : UInt32) : String := String.ofList ((Nat.toDigits 16 n.toNat).leftpad 8 '0')

/-- `cmdlist`: the handler registered last comes first. -/
def cmdlist : List (String × Command) :=
  [("reboot-bootloader", .rebootBootloader), ("continue", .«continue»), ("powerdown", .powerdown),
    ("reboot", .reboot), ("boot", .boot), ("erase:", .erase), ("flash:", .flash),
    ("download:", .download), ("getvar:", .getvar)]

/-- The handler for a packet with its argument, which ends at a NUL. Behind the packet the
buffer is zero. -/
def findCommand (packet : List UInt8) : Option (Command × List UInt8) :=
  (cmdlist.find? fun cmd => (ascii cmd.1).isPrefixOf packet).map fun cmd =>
    (cmd.2, (packet.drop (ascii cmd.1).length).takeWhile (· ≠ 0))

section Functions
variable {δ : Type}

/-- `usb_write` -/
def usbWrite (buf : String) (s : Fastboot δ) : ℤ × Fastboot δ :=
  if s.state = .error then (-1, s) else (buf.length, { s with sent := s.sent ++ [buf] })

/-- `usb_read` of the bytes of a download. -/
def usbReadData (len : UInt32) (data : List UInt8) (s : Fastboot δ) : ℤ × Fastboot δ :=
  if s.state = .error then (-1, s)
  else if len = 0 then (0, s)
  else
    (data.length,
      { s with downloadBase := overlay s.downloadBase 0 data.length (ofList data) })

/-- `fastboot_ack` -/
def fastbootAck (code reason : String) (s : Fastboot δ) : Fastboot δ :=
  if s.state ≠ .command then s
  else (usbWrite (code ++ reason) { s with state := .complete }).2

/-- `fastboot_fail` -/
def fastbootFail (reason : String) (s : Fastboot δ) : Fastboot δ := fastbootAck "FAIL" reason s

/-- `fastboot_okay` -/
def fastbootOkay (info : String) (s : Fastboot δ) : Fastboot δ := fastbootAck "OKAY" info s

variable (env : FastbootEnv δ)

/-- `error_string` behind a call that put these codes, the newest first. -/
def errorAfter (errors : List String) (card : δ) (s : Fastboot δ) : String :=
  errors.head?.getD (env.driverError s.errorString card)

/-- `cmd_getvar` -/
def cmdGetvar (arg : List UInt8) (s : Fastboot δ) : Fastboot δ :=
  fastbootOkay ((env.varlist.find? (·.1 = text arg)).elim "" (·.2)) s

/-- `cmd_download` -/
def cmdDownload (arg data : List UInt8) (s : Fastboot δ) : Fastboot δ :=
  let len := hex2unsigned 0 arg
  let s := { s with downloadSize := 0 }
  if len > env.downloadMax then fastbootFail "10001" { s with errorString := "10001" }
  else
    let w := usbWrite ("DATA" ++ hex8 len) s
    if w.1 < 0 then w.2
    else
      let r := usbReadData len data w.2
      if r.1 < 0 ∨ r.1 ≠ len.toNat then { r.2 with state := .error }
      else fastbootOkay "download completed" { r.2 with downloadSize := len }

/-- `cmd_flash` -/
def cmdFlash (arg : List UInt8) (s : Fastboot δ) : Fastboot δ :=
  let r := flashPartitionEraseWrite env.dev env.partitions (some (text arg)) s.downloadBase
    s.downloadSize (Session.initial s.card)
  let s := { s with card := r.2.dev, errorString := errorAfter env r.2.errors r.2.dev s }
  if r.1 = 0 then fastbootOkay "" s else fastbootFail s.errorString s

/-- `cmd_erase` -/
def cmdErase (arg : List UInt8) (s : Fastboot δ) : Fastboot δ :=
  let r := flashPartitionErase env.eraseDev env.partitions (some (text arg))
    (EraseSession.initial s.card)
  let s := { s with card := r.2.dev, errorString := errorAfter env r.2.errors r.2.dev s }
  if r.1 = 0 then fastbootOkay "" s else fastbootFail "erase error" s

/-- `cmd_boot`, `cmd_continue`, `cmd_powerdown` and `cmd_reboot_bootloader`. -/
def cmdNothing (s : Fastboot δ) : Fastboot δ := fastbootOkay "" s

/-- `cmd_reboot`, which does not return. -/
def cmdReboot (s : Fastboot δ) : Fastboot δ := { fastbootOkay "" s with halted := true }

/-- `cmd->handle` -/
def handle (cmd : Command) (arg data : List UInt8) (s : Fastboot δ) : Fastboot δ :=
  match cmd with
  | .getvar => cmdGetvar env arg s
  | .download => cmdDownload env arg data s
  | .flash => cmdFlash env arg s
  | .erase => cmdErase env arg s
  | .boot | .powerdown | .«continue» | .rebootBootloader => cmdNothing s
  | .reboot => cmdReboot s

/-- A handler, and the answer for one that gave none. -/
def handled (cmd : Command × List UInt8) (data : List UInt8) (s : Fastboot δ) : Fastboot δ :=
  let s := handle env cmd.1 cmd.2 data { s with state := .command }
  if s.state = .command then fastbootFail "unknown reason" s else s

/-- A turn of `fastboot_command_loop`, which `fastboot_handler` starts again after an error. -/
def turn (s : Fastboot δ) (r : Round) : Fastboot δ :=
  if s.halted then s
  else
    let s := { s with state := if s.state = .error then .offline else s.state, sent := [] }
    (findCommand r.command).elim (fastbootFail "unknown command" s) fun cmd =>
      handled env cmd r.data s

/-- `fastboot_handler`; the output is what a turn has sent. -/
def fastboot : Machine (Fastboot δ) Round (List String) where
  step s r := ((turn env s r).sent, turn env s r)

/-- The globals at the end of `fastboot_init`, where the buffer comes from `calloc`. -/
def fastbootInit (card : δ) : Fastboot δ := ⟨.offline, fun _ => 0, 0, card, "", [], false⟩

end Functions

/-- An OKAY or FAIL packet. -/
def Final (packet : String) : Prop :=
  ∃ reason, packet = "OKAY" ++ reason ∨ packet = "FAIL" ++ reason

/-- The argument of a download. -/
def downloadOf (command : List UInt8) : Option (List UInt8) :=
  (findCommand command).bind fun cmd => if cmd.1 = .download then some cmd.2 else none

/-- What is sent for a command is one final packet. For a download the DATA packet with the
announced length comes before it; one that is refused has only the FAIL. -/
def Answered (command : List UInt8) (sent : List String) : Prop :=
  match downloadOf command with
  | none => ∃ packet, Final packet ∧ sent = [packet]
  | some arg =>
    (∃ packet, Final packet ∧ sent = ["DATA" ++ hex8 (hex2unsigned 0 arg), packet]) ∨
      ∃ reason, sent = ["FAIL" ++ reason]

/-- The turn answers its command, and leaves a state in which answers are sent. -/
def TurnPaired {δ : Type} (env : FastbootEnv δ) (s : Fastboot δ) (r : Round) : Prop :=
  Answered r.command (turn env s r).sent ∧ (turn env s r).state ≠ .error

/-- Every command that is read on the run is answered. -/
def Paired {δ : Type} (env : FastbootEnv δ) (s : Fastboot δ) (rounds : List Round) : Prop :=
  (fastboot env).Guarded (fun s r => s.halted = false → TurnPaired env s r) s rounds

def IsReboot (r : Round) : Prop := ∃ arg, findCommand r.command = some (.reboot, arg)

instance (r : Round) : Decidable (IsReboot r) :=
  decidable_of_iff ((findCommand r.command).map Prod.fst = some .reboot) <| by
    simp [IsReboot]

/-- The rounds up to the first reboot. -/
def served : List Round → List Round
  | [] => []
  | r :: rs => if IsReboot r then [r] else r :: served rs

/-- The packet starts with a known command. -/
def Known (r : Round) : Prop := (findCommand r.command).isSome = true

instance (r : Round) : Decidable (Known r) := decEq _ _

/-- The bytes of a download that is not refused come as announced. -/
def Delivered {δ : Type} (env : FastbootEnv δ) (r : Round) : Prop :=
  ∀ arg, downloadOf r.command = some arg → hex2unsigned 0 arg ≤ env.downloadMax →
    hex2unsigned 0 arg ≠ 0 → r.data.length = (hex2unsigned 0 arg).toNat

section Handlers
variable {δ : Type} (env : FastbootEnv δ) {s : Fastboot δ}

theorem fastbootAck_of_command (code reason : String) (h : s.state = .command) :
    fastbootAck code reason s =
      { s with state := .complete, sent := s.sent ++ [code ++ reason] } := by
  simp [fastbootAck, usbWrite, h]

theorem fastbootAck_of_ne (code reason : String) (h : s.state ≠ .command) :
    fastbootAck code reason s = s := by
  rw [fastbootAck, if_pos h]

/-- What a handler has done that answered with one packet. -/
structure Replied (s s' : Fastboot δ) (sent : List String) : Prop where
  state : s'.state = .complete
  sent : s'.sent = s.sent ++ sent

theorem replied_okay (info : String) {s' : Fastboot δ} (h : s'.state = .command)
    (hsent : s'.sent = s.sent) : Replied s (fastbootOkay info s') ["OKAY" ++ info] := by
  rw [fastbootOkay, fastbootAck_of_command _ _ h]
  exact ⟨rfl, by rw [hsent]⟩

theorem replied_fail (reason : String) {s' : Fastboot δ} (h : s'.state = .command)
    (hsent : s'.sent = s.sent) : Replied s (fastbootFail reason s') ["FAIL" ++ reason] := by
  rw [fastbootFail, fastbootAck_of_command _ _ h]
  exact ⟨rfl, by rw [hsent]⟩

/-- A handler that asks for no data answers with one final packet. -/
theorem handle_of_ne_download {cmd : Command} (hcmd : cmd ≠ .download) (arg data : List UInt8)
    (h : s.state = .command) :
    ∃ packet, Final packet ∧ Replied s (handle env cmd arg data s) [packet] := by
  cases cmd with
  | download => exact absurd rfl hcmd
  | getvar => exact ⟨_, ⟨_, .inl rfl⟩, replied_okay _ h rfl⟩
  | flash =>
    simp only [handle, cmdFlash]
    split
    · exact ⟨_, ⟨_, .inl rfl⟩, replied_okay _ h rfl⟩
    · exact ⟨_, ⟨_, .inr rfl⟩, replied_fail _ h rfl⟩
  | erase =>
    simp only [handle, cmdErase]
    split
    · exact ⟨_, ⟨_, .inl rfl⟩, replied_okay _ h rfl⟩
    · exact ⟨_, ⟨_, .inr rfl⟩, replied_fail _ h rfl⟩
  | reboot =>
    have hokay := replied_okay (s := s) "" h rfl
    exact ⟨_, ⟨_, .inl rfl⟩, ⟨hokay.state, hokay.sent⟩⟩
  | boot | powerdown | «continue» | rebootBootloader =>
    exact ⟨_, ⟨_, .inl rfl⟩, replied_okay _ h rfl⟩

/-- A download above the limit is refused. -/
theorem cmdDownload_refused {arg : List UInt8} (data : List UInt8)
    (hlen : env.downloadMax < hex2unsigned 0 arg) (h : s.state = .command) :
    Replied s (cmdDownload env arg data s) ["FAIL" ++ "10001"] := by
  simp only [cmdDownload, gt_iff_lt, if_pos hlen]
  exact replied_fail _ h rfl

/-- The globals when the data phase of a download is over. -/
def dataPhase (len : UInt32) (data : List UInt8) (s : Fastboot δ) : Fastboot δ :=
  { s with
    downloadBase :=
      if len = 0 then s.downloadBase else overlay s.downloadBase 0 data.length (ofList data)
    downloadSize := 0
    sent := s.sent ++ ["DATA" ++ hex8 len] }

/-- A download that is not refused goes on with its data phase. -/
theorem cmdDownload_of_le {arg : List UInt8} (data : List UInt8)
    (hlen : hex2unsigned 0 arg ≤ env.downloadMax) (h : s.state = .command) :
    cmdDownload env arg data s =
      let len := hex2unsigned 0 arg
      let r := usbReadData len data
        { s with downloadSize := 0, sent := s.sent ++ ["DATA" ++ hex8 len] }
      if r.1 < 0 ∨ r.1 ≠ len.toNat then { r.2 with state := .error }
      else fastbootOkay "download completed" { r.2 with downloadSize := len } := by
  have hneg : ¬ (("DATA" ++ hex8 (hex2unsigned 0 arg)).length : ℤ) < 0 :=
    not_lt.2 (Int.natCast_nonneg _)
  simp only [cmdDownload, usbWrite, gt_iff_lt, if_neg (UInt32.not_lt.2 hlen), h, reduceCtorEq,
    if_false, hneg]

theorem cmdDownload_short {arg data : List UInt8} (hlen : hex2unsigned 0 arg ≤ env.downloadMax)
    (hzero : hex2unsigned 0 arg ≠ 0) (hdata : data.length ≠ (hex2unsigned 0 arg).toNat)
    (h : s.state = .command) : cmdDownload env arg data s =
      { dataPhase (hex2unsigned 0 arg) data s with state := .error } := by
  have hdata' : (data.length : ℤ) ≠ (hex2unsigned 0 arg).toNat := by exact_mod_cast hdata
  rw [cmdDownload_of_le env data hlen h]
  simp [usbReadData, dataPhase, h, hzero, hdata']

theorem cmdDownload_complete {arg data : List UInt8}
    (hlen : hex2unsigned 0 arg ≤ env.downloadMax)
    (hdata : hex2unsigned 0 arg ≠ 0 → data.length = (hex2unsigned 0 arg).toNat)
    (h : s.state = .command) : cmdDownload env arg data s =
      { dataPhase (hex2unsigned 0 arg) data s with
        state := .complete, downloadSize := hex2unsigned 0 arg
        sent := s.sent ++
          ["DATA" ++ hex8 (hex2unsigned 0 arg), "OKAY" ++ "download completed"] } := by
  rw [cmdDownload_of_le env data hlen h]
  by_cases hzero : hex2unsigned 0 arg = 0
  · simp [usbReadData, dataPhase, h, hzero, fastbootOkay, fastbootAck, usbWrite]
  · simp [usbReadData, dataPhase, h, hzero, hdata hzero, fastbootOkay, fastbootAck, usbWrite]

/-- A download is refused, its data does not come as announced, or it is complete. -/
theorem download_cases (arg data : List UInt8) :
    env.downloadMax < hex2unsigned 0 arg ∨
      (hex2unsigned 0 arg ≤ env.downloadMax ∧ hex2unsigned 0 arg ≠ 0 ∧
        data.length ≠ (hex2unsigned 0 arg).toNat) ∨
      (hex2unsigned 0 arg ≤ env.downloadMax ∧
        (hex2unsigned 0 arg ≠ 0 → data.length = (hex2unsigned 0 arg).toNat)) := by
  rw [← UInt32.not_lt]
  tauto

@[simp] theorem fastbootAck_halted (code reason : String) :
    (fastbootAck code reason s).halted = s.halted := by
  simp only [fastbootAck, usbWrite]
  split_ifs <;> rfl

/-- Only a reboot halts. -/
theorem handle_halted (cmd : Command) (arg data : List UInt8) (h : s.state = .command) :
    (handle env cmd arg data s).halted = (s.halted || decide (cmd = .reboot)) := by
  cases cmd with
  | download =>
    rcases download_cases env arg data with hlen | ⟨hlen, hzero, hdata⟩ | ⟨hlen, hdata⟩
    · simp [handle, cmdDownload, hlen, fastbootFail]
    · simp [handle, cmdDownload_short env hlen hzero hdata h, dataPhase]
    · simp [handle, cmdDownload_complete env hlen hdata h, dataPhase]
  | flash => simp only [handle, cmdFlash]; split <;> simp [fastbootOkay, fastbootFail]
  | erase => simp only [handle, cmdErase]; split <;> simp [fastbootOkay, fastbootFail]
  | reboot => simp [handle, cmdReboot]
  | getvar => simp [handle, cmdGetvar, fastbootOkay]
  | boot | powerdown | «continue» | rebootBootloader => simp [handle, cmdNothing, fastbootOkay]

theorem handle_state_ne (cmd : Command) (arg data : List UInt8) (h : s.state = .command) :
    (handle env cmd arg data s).state ≠ .command := by
  by_cases hcmd : cmd = .download
  · subst hcmd
    rcases download_cases env arg data with hlen | ⟨hlen, hzero, hdata⟩ | ⟨hlen, hdata⟩
    · rw [handle, (cmdDownload_refused env data hlen h).state]
      decide
    · rw [handle, cmdDownload_short env hlen hzero hdata h]
      simp
    · rw [handle, cmdDownload_complete env hlen hdata h]
      simp
  · obtain ⟨_, -, hreplied⟩ := handle_of_ne_download env hcmd arg data h
    rw [hreplied.state]
    decide

/-- No handler needs the answer that is kept for one that gave none. -/
theorem handled_eq (cmd : Command × List UInt8) (data : List UInt8) :
    handled env cmd data s = handle env cmd.1 cmd.2 data { s with state := .command } := by
  rw [handled, if_neg (handle_state_ne env _ _ _ rfl)]

end Handlers

section Turns
variable {δ : Type} (env : FastbootEnv δ) {s : Fastboot δ} {r : Round}

theorem downloadOf_eq_some {command arg : List UInt8} :
    downloadOf command = some arg ↔ findCommand command = some (.download, arg) := by
  rw [downloadOf, Option.bind_eq_some_iff]
  constructor
  · rintro ⟨⟨cmd, arg'⟩, hfind, harg⟩
    obtain ⟨rfl, rfl⟩ : cmd = .download ∧ arg' = arg := by simpa using harg
    exact hfind
  · intro hfind
    exact ⟨_, hfind, if_pos rfl⟩

/-- The globals at the start of a turn. -/
def reading (s : Fastboot δ) : Fastboot δ :=
  { s with state := if s.state = .error then .offline else s.state, sent := [] }

theorem turn_halted (h : s.halted = true) : turn env s r = s := by
  rw [turn, if_pos h]

theorem turn_unknown (h : s.halted = false) (hstate : s.state ≠ .command)
    (hfind : findCommand r.command = none) : turn env s r = reading s := by
  have hne : (reading s).state ≠ .command := by
    simp only [reading]
    split_ifs
    · decide
    · exact hstate
  rw [turn, if_neg (by simp [h]), hfind]
  exact fastbootAck_of_ne _ _ hne

theorem turn_known {cmd : Command × List UInt8} (h : s.halted = false)
    (hfind : findCommand r.command = some cmd) : turn env s r =
      handle env cmd.1 cmd.2 r.data { reading s with state := .command } := by
  rw [turn, if_neg (by simp [h]), hfind]
  exact handled_eq env cmd r.data

theorem turn_state_ne (h : s.halted = false) (hstate : s.state ≠ .command) :
    (turn env s r).state ≠ .command := by
  cases hfind : findCommand r.command with
  | none =>
    rw [turn_unknown env h hstate hfind, reading]
    dsimp only
    split_ifs
    · decide
    · exact hstate
  | some cmd =>
    rw [turn_known env h hfind]
    exact handle_state_ne env _ _ _ rfl

theorem turn_halted_iff (h : s.halted = false) (hstate : s.state ≠ .command) :
    (turn env s r).halted = true ↔ IsReboot r := by
  cases hfind : findCommand r.command with
  | none =>
    rw [turn_unknown env h hstate hfind]
    simp [reading, h, IsReboot, hfind]
  | some cmd =>
    rw [turn_known env h hfind, handle_halted env _ _ _ rfl]
    obtain ⟨cmd, arg⟩ := cmd
    simp [reading, h, IsReboot, hfind]

/-- The turn of a known command that is no download. -/
theorem turnPaired_of_ne_download {cmd : Command × List UInt8} (h : s.halted = false)
    (hfind : findCommand r.command = some cmd) (hcmd : cmd.1 ≠ .download) :
    TurnPaired env s r := by
  have hnone : downloadOf r.command = none := by
    rw [downloadOf, hfind]
    exact if_neg hcmd
  obtain ⟨packet, hfinal, hreplied⟩ := handle_of_ne_download env
    (s := { reading s with state := .command }) hcmd cmd.2 r.data rfl
  rw [TurnPaired, turn_known env h hfind, Answered, hnone]
  refine ⟨⟨packet, hfinal, hreplied.sent⟩, ?_⟩
  rw [hreplied.state]
  decide

/-- A download is answered if it is refused or all its bytes come. -/
theorem turnPaired_download_iff {arg : List UInt8} (h : s.halted = false)
    (hfind : findCommand r.command = some (.download, arg)) :
    TurnPaired env s r ↔ Delivered env r := by
  have harg := downloadOf_eq_some.2 hfind
  rw [TurnPaired, turn_known env h hfind, Answered, Delivered, harg]
  simp only [handle, Option.some.injEq, forall_eq']
  rcases download_cases env arg r.data with hlen | ⟨hlen, hzero, hdata⟩ | ⟨hlen, hdata⟩
  · have hrefused := cmdDownload_refused env (s := { reading s with state := .command }) r.data
      hlen rfl
    rw [hrefused.sent, hrefused.state]
    exact iff_of_true ⟨.inr ⟨_, rfl⟩, by decide⟩ fun hle => absurd hle (UInt32.not_le.2 hlen)
  · rw [cmdDownload_short env hlen hzero hdata rfl]
    exact iff_of_false (fun hpaired => hpaired.2 rfl) fun h => hdata (h hlen hzero)
  · rw [cmdDownload_complete env hlen hdata rfl]
    exact iff_of_true ⟨.inl ⟨_, ⟨_, .inl rfl⟩, rfl⟩, by simp⟩ fun _ => hdata

theorem turnPaired_iff (h : s.halted = false) (hstate : s.state ≠ .command) :
    TurnPaired env s r ↔ Known r ∧ Delivered env r := by
  cases hfind : findCommand r.command with
  | none =>
    rw [TurnPaired, turn_unknown env h hstate hfind, Answered, downloadOf, hfind]
    simp [Known, hfind, reading]
  | some cmd =>
    have hknown : Known r := by rw [Known, hfind]; rfl
    obtain ⟨cmd, arg⟩ := cmd
    by_cases hcmd : cmd = .download
    · subst hcmd
      exact (turnPaired_download_iff env h hfind).trans (and_iff_right hknown).symm
    · refine iff_of_true (turnPaired_of_ne_download env h hfind hcmd) ⟨hknown, fun arg' harg => ?_⟩
      rw [downloadOf_eq_some, hfind, Option.some.injEq, Prod.mk.injEq] at harg
      exact absurd harg.1 hcmd

end Turns

section Runs
variable {δ : Type} (env : FastbootEnv δ)

theorem paired_of_halted {s : Fastboot δ} (h : s.halted = true) (rounds : List Round) :
    Paired env s rounds := by
  induction rounds with
  | nil => trivial
  | cons r rs ih =>
    refine ⟨fun hrunning => absurd hrunning (by simp [h]), ?_⟩
    rw [show ((fastboot env).step s r).2 = s from turn_halted env h]
    exact ih

theorem paired_iff_served {s : Fastboot δ} (h : s.halted = false) (hstate : s.state ≠ .command)
    (rounds : List Round) :
    Paired env s rounds ↔ ∀ r ∈ served rounds, Known r ∧ Delivered env r := by
  induction rounds generalizing s with
  | nil => simp [served, Paired, Machine.Guarded]
  | cons r rs ih =>
    have hhalted := turn_halted_iff env (r := r) h hstate
    have hcons : Paired env s (r :: rs) ↔
        (Known r ∧ Delivered env r) ∧ Paired env (turn env s r) rs := by
      rw [← turnPaired_iff env h hstate]
      exact and_congr_left' ⟨fun hp => hp h, fun hp _ => hp⟩
    rw [hcons]
    by_cases hreboot : IsReboot r
    · have hpaired := paired_of_halted env (hhalted.2 hreboot) rs
      rw [served, if_pos hreboot, List.forall_mem_singleton]
      exact and_iff_left hpaired
    · have hrunning : (turn env s r).halted = false := by
        rw [Bool.eq_false_iff, Ne, hhalted]
        exact hreboot
      rw [served, if_neg hreboot, List.forall_mem_cons,
        ih hrunning (turn_state_ne env h hstate)]

end Runs

/-- From the start on, every command is answered if and only if all commands up to a reboot are
known and the bytes of accepted downloads come as announced. -/
theorem paired_iff {δ : Type} (env : FastbootEnv δ) (card : δ) (rounds : List Round) :
    Paired env (fastbootInit card) rounds ↔
      ∀ r ∈ served rounds, Known r ∧ Delivered env r :=
  paired_iff_served env rfl (by simp [fastbootInit]) rounds

theorem buffer_lt : (1024 : UInt32) < 0x80000000 := by decide

/-- A board without partitions and variables. -/
def bareBoard : FastbootEnv Unit :=
  ⟨⟨1024, buffer_lt⟩, [], [], sink 512 sector_pos sector_lt_word,
    willing 512 1 sector_pos Nat.one_pos byte_lt_word, fun s _ => s⟩

/-- No answer to a command that is not known. -/
theorem unknown_command_unanswered : ¬ ∀ {δ : Type} (env : FastbootEnv δ) (card : δ)
    (rounds : List Round), (∀ r ∈ rounds, Delivered env r) →
      Paired env (fastbootInit card) rounds := by
  intro h
  let oem : Round := ⟨ascii "oem", []⟩
  have hnone : downloadOf oem.command = none := by decide
  have hpaired := h bareBoard () [oem] fun r hr arg harg => by
    rw [List.mem_singleton.1 hr, hnone] at harg
    cases harg
  have hserved := (paired_iff_served bareBoard rfl (by simp [fastbootInit]) [oem]).1 hpaired
  have hknown := (hserved oem (by decide)).1
  exact absurd hknown (by decide)

end UBoot.Usb
