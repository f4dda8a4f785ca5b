import UBoot.Loader.Flash

/-!
# The commands before the data

The link, and the three commands that announce a download: where it starts, where it ends
and how long its packets are.
-/
namespace UBoot.Loader
open ByteStore

section Session
variable {σ : Type*} {env : Env σ} {s : State σ} {recv : Mem}

/-- The loader waits for a command. -/
structure Idle (s : State σ) : Prop where
  linked : s.linked = true
  hung : s.hung = false
  flag : s.exp.flag = false
  roomy : s.Roomy

/-- The loader waits for a command, with nothing staged. -/
structure Ready (s : State σ) : Prop extends Idle s where
  empty : s.tmpSize = 0

theorem Idle.accepting (h : Idle s) (recv : Mem) : Accepting s recv :=
  ⟨h.linked, h.hung, fun hflag => absurd (h.flag.symm.trans hflag) (by decide)⟩

/-- The address in a `CMD_PROG_DEV_ST_ADDR` or `CMD_PROG_DEV_END_ADDR` packet. -/
def State.address (s : State σ) (recv : Mem) : ℕ :=
  u64 (bigEndianVal (advance recv 2) + s.ldSet.addrOffset)

/-- The size in a `CMD_DATA_PACKET_SIZE` packet. -/
def announcedSize (recv : Mem) : ℕ := (recv 2).toNat + (recv 1).toNat * 2 ^ 8

/-- A transfer of `len` bytes to `start` in packets of `size` bytes is announced. -/
structure Announced (env : Env σ) (zip start len size : ℕ) (dev : σ) (s : State σ) : Prop where
  linked : s.linked = true
  hung : s.hung = false
  exp : s.exp = ExpectInfo.expect size .data
  zip_eq : s.ldSet.isZip = zip
  start_eq : s.ldSet.curAddr = start
  rest : s.restBytes = len
  empty : s.tmpSize = 0
  threshold : s.threshold = 0
  maxCnt : s.maxCnt = env.tmpBufSize / size
  dev_eq : s.dev = dev

theorem State.received_ldSet (s : State σ) (recv : Mem) : (s.received recv).ldSet = s.ldSet := rfl

theorem State.received_dev (s : State σ) (recv : Mem) : (s.received recv).dev = s.dev := rfl

theorem State.received_sent (s : State σ) (recv : Mem) : (s.received recv).sent = s.sent := rfl

theorem Ready.received (h : Ready s) (recv : Mem) : Ready (s.received recv) :=
  ⟨⟨h.linked, h.hung, h.flag, h.roomy⟩, h.empty⟩

theorem dispatch_eq (c : Cmd) (hc : recv 0 = c.id) :
    Cmd.ofId (s.payload recv).cmdId = some c := by
  rw [State.payload, hc, Cmd.ofId_id]

theorem payload_data {c : Cmd} (hc : recv 0 = c.id) (hnot : c.id ≠ Cmd.data.id) :
    (s.payload recv).data = advance recv 1 := by
  rw [State.payload, hc, overhead, if_neg hnot]
  rfl

/-- An answered command changes no more than its own state, but for the frame. -/
theorem loaderScheduler_answered (h : Accepting s recv) {r : State σ × Packet}
    (hcmd : dispatch env (s.received recv) (s.payload recv) = answered r)
    (hhung : r.1.hung = false) (hroom : r.1.Roomy) (hpk : r.2.fromHost = false) :
    ∃ up sent, loaderScheduler env s recv = { r.1 with
      up := up
      sent := sent } := by
  rw [loaderScheduler_of_accepting h, hcmd, finish_answered hhung hroom hpk]
  exact ⟨_, _, rfl⟩

/-- After the first command. -/
structure Started (zip packs start offset : ℕ) (dev : σ) (s : State σ) : Prop where
  linked : s.linked = true
  hung : s.hung = false
  exp : s.exp.flag = true ∧ s.exp.cmdId = Cmd.progDevEndAddr.id
  zip_eq : s.ldSet.isZip = zip
  start_eq : s.ldSet.startAddr = start
  packs_eq : s.ldSet.allpacksBytes = packs
  offset_eq : s.ldSet.addrOffset = offset
  empty : s.tmpSize = 0
  roomy : s.Roomy
  dev_eq : s.dev = dev

theorem progDevStAddr_started (h : Ready s) {pk : Packet} {start : ℕ}
    (haddr : u64 (bigEndianVal (advance pk.data 1) + s.ldSet.addrOffset) = start) :
    Started s.ldSet.isZip s.ldSet.allpacksBytes start s.ldSet.addrOffset s.dev
      (progDevStAddr s pk).1 := by
  rw [progDevStAddr]
  dsimp only
  rw [haddr]
  exact ⟨h.linked, h.hung, ⟨rfl, rfl⟩, rfl, rfl, rfl, rfl, h.empty, h.roomy, rfl⟩

theorem start_turn (h : Ready s) {st : Mem} (hst : st 0 = Cmd.progDevStAddr.id) :
    Started s.ldSet.isZip s.ldSet.allpacksBytes (s.address st) s.ldSet.addrOffset s.dev
      (loaderScheduler env s st) := by
  have hcmd : dispatch env (s.received st) (s.payload st) =
      answered (progDevStAddr (s.received st) (s.payload st)) := by
    rw [dispatch, dispatch_eq _ hst]
  have haddr : u64 (bigEndianVal (advance (s.payload st).data 1) +
      (s.received st).ldSet.addrOffset) = s.address st := by
    rw [payload_data hst (by decide), advance_advance, s.received_ldSet st, State.address]
  have hstarted := progDevStAddr_started (h.received st) haddr
  obtain ⟨up, sent, heq⟩ := @loaderScheduler_answered _ env _ st (h.accepting st) _ hcmd
    hstarted.hung hstarted.roomy rfl
  rw [heq]
  rw [s.received_ldSet st, s.received_dev st] at hstarted
  generalize (progDevStAddr (s.received st) (s.payload st)).1 = s' at hstarted ⊢
  exact ⟨hstarted.linked, hstarted.hung, hstarted.exp, hstarted.zip_eq,
    hstarted.start_eq, hstarted.packs_eq, hstarted.offset_eq, hstarted.empty, hstarted.roomy,
      hstarted.dev_eq⟩

/-- After the second command. -/
structure Ranged (zip start len : ℕ) (dev : σ) (s : State σ) : Prop where
  linked : s.linked = true
  hung : s.hung = false
  exp : s.exp.flag = true ∧ s.exp.cmdId = Cmd.dataPacketSize.id
  zip_eq : s.ldSet.isZip = zip
  start_eq : s.ldSet.curAddr = start
  rest : s.restBytes = len
  empty : s.tmpSize = 0
  roomy : s.Roomy
  dev_eq : s.dev = dev

theorem Started.received {zip packs start offset : ℕ} {dev : σ}
    (h : Started zip packs start offset dev s) (recv : Mem) :
    Started zip packs start offset dev (s.received recv) :=
  ⟨h.linked, h.hung, h.exp, h.zip_eq, h.start_eq, h.packs_eq, h.offset_eq, h.empty, h.roomy,
    h.dev_eq⟩

theorem progDevEndAddr_ranged {zip packs start offset endAddr : ℕ} {dev : σ}
    (h : Started zip packs start offset dev s) {pk : Packet}
    (haddr : u64 (bigEndianVal (advance pk.data 1) + s.ldSet.addrOffset) = endAddr) :
    Ranged zip start (if zip ≠ 0 then packs else rangeLen start endAddr) dev
      (progDevEndAddr s pk).1 := by
  rw [progDevEndAddr]
  dsimp only
  rw [haddr, h.zip_eq]
  by_cases hzip : zip ≠ 0
  · rw [if_pos hzip, if_pos hzip]
    exact ⟨h.linked, h.hung, ⟨rfl, rfl⟩, rfl, h.start_eq, h.packs_eq, h.empty, h.roomy, h.dev_eq⟩
  · rw [if_neg hzip, if_neg hzip]
    refine ⟨h.linked, h.hung, ⟨rfl, rfl⟩, rfl, h.start_eq, ?_, h.empty, h.roomy, h.dev_eq⟩
    exact congrArg (fun a => rangeLen a endAddr) h.start_eq

theorem end_turn {zip packs start offset : ℕ} {dev : σ}
    (h : Started zip packs start offset dev s) {en : Mem} (hen : en 0 = Cmd.progDevEndAddr.id) :
    Ranged zip start (if zip ≠ 0 then packs else rangeLen start (s.address en)) dev
      (loaderScheduler env s en) := by
  have hcmd : dispatch env (s.received en) (s.payload en) =
      answered (progDevEndAddr (s.received en) (s.payload en)) := by
    rw [dispatch, dispatch_eq _ hen]
  have haddr : u64 (bigEndianVal (advance (s.payload en).data 1) +
      (s.received en).ldSet.addrOffset) = s.address en := by
    rw [payload_data hen (by decide), advance_advance, s.received_ldSet en, State.address]
  have hranged := progDevEndAddr_ranged (h.received en) haddr
  obtain ⟨up, sent, heq⟩ := @loaderScheduler_answered _ env _ en
    ⟨h.linked, h.hung, fun _ => hen.trans h.exp.2.symm⟩ _ hcmd hranged.hung hranged.roomy rfl
  rw [heq]
  generalize (progDevEndAddr (s.received en) (s.payload en)).1 = s' at hranged ⊢
  exact ⟨hranged.linked, hranged.hung, hranged.exp, hranged.zip_eq, hranged.start_eq,
    hranged.rest, hranged.empty, hranged.roomy, hranged.dev_eq⟩

theorem size_turn {zip start len : ℕ} {dev : σ} (h : Ranged zip start len dev s) {sz : Mem}
    (hsz : sz 0 = Cmd.dataPacketSize.id) (hsize : 0 < announcedSize sz) :
    Announced env zip start len (announcedSize sz) dev (loaderScheduler env s sz) := by
  have hcmd : dispatch env (s.received sz) (s.payload sz) =
      answered (dataPacketSize env (s.received sz) (s.payload sz)) := by
    rw [dispatch, dispatch_eq _ hsz]
  have hval : ((s.payload sz).data 1).toNat + ((s.payload sz).data 0).toNat * 2 ^ 8 =
      announcedSize sz := by
    rw [payload_data hsz (by decide)]
    rfl
  rw [dataPacketSize] at hcmd
  dsimp only at hcmd
  rw [hval, if_neg hsize.ne'] at hcmd
  obtain ⟨up, sent, heq⟩ := @loaderScheduler_answered _ env _ sz
    ⟨h.linked, h.hung, fun _ => hsz.trans h.exp.2.symm⟩ _ hcmd h.hung (fun hfull => hfull.1 hfull.2)
    rfl
  rw [heq]
  exact ⟨h.linked, h.hung, rfl, h.zip_eq, h.start_eq, h.rest, h.empty, rfl, rfl, h.dev_eq⟩

/-- The length of what is announced by two addresses. -/
def State.transferLen (s : State σ) (st en : Mem) : ℕ :=
  if s.ldSet.isZip ≠ 0 then s.ldSet.allpacksBytes else rangeLen (s.address st) (s.address en)

theorem announce (h : Ready s) {st en sz : Mem} (hst : st 0 = Cmd.progDevStAddr.id)
    (hen : en 0 = Cmd.progDevEndAddr.id) (hsz : sz 0 = Cmd.dataPacketSize.id)
    (hsize : 0 < announcedSize sz) :
    Announced env s.ldSet.isZip (s.address st) (s.transferLen st en) (announcedSize sz) s.dev
      ((loader env).run s [st, en, sz]) := by
  have hstarted := @start_turn _ env _ h _ hst
  have haddr : (loaderScheduler env s st).address en = s.address en := by
    rw [State.address, State.address, hstarted.offset_eq]
  rw [State.transferLen, ← haddr]
  exact size_turn (end_turn hstarted hen) hsz hsize

/-- A packet that establishes the link and asks for nothing else. -/
def linkPacket : Mem := fun _ => Cmd.linkEst.id

/-- The command that establishes the link is taken as if there were one. -/
theorem loaderScheduler_link (hhung : s.hung = false) (hflag : s.exp.flag = false)
    (hrecv : recv 0 = Cmd.linkEst.id) :
    loaderScheduler env s recv = loaderScheduler env { s with linked := true } recv := by
  have hcmd : (s.preHandle recv).1.cmdId = Cmd.linkEst.id := by
    unfold State.preHandle handleFromHost
    dsimp only
    rw [if_neg (by simp [hflag])]
    exact hrecv
  have hpre : { s with linked := true }.preHandle recv = s.preHandle recv := rfl
  unfold loaderScheduler
  rw [hpre]
  generalize s.preHandle recv = r at hcmd
  have hgo : ¬ s.hung = true := by simp [hhung]
  dsimp only
  rw [if_neg hgo, if_neg hgo, if_neg (fun h => h.2 hcmd), if_neg (fun h => h.2 hcmd)]
  rfl

theorem linkEst_plain {pk : Packet} (h : pk.data 0 = Cmd.linkEst.id) : linkEst env s pk =
    ({ s with
        ldSet := LoaderSet.zero
        exp := s.exp.reset }, pk.set cmdConnect 0) := by
  have hsix : (pk.set cmdConnect 0).data 0 ≠ 0x06 := by
    rw [Packet.set, h]
    decide
  have hf0 : (pk.set cmdConnect 0).data 0 ≠ 0xf0 := by
    rw [Packet.set, h]
    decide
  rw [linkEst, if_neg hsix, if_neg hf0]
  rfl

/-- After a link nothing is expected, and the settings are cleared. -/
theorem link_turn (hhung : s.hung = false) (hflag : s.exp.flag = false) (hempty : s.tmpSize = 0)
    (hroom : s.Roomy) :
    let s' := loaderScheduler env s linkPacket
    Ready s' ∧ s'.ldSet = LoaderSet.zero ∧ s'.dev = s.dev ∧ s'.restBytes = s.restBytes := by
  have hcmd : dispatch env ({ s with linked := true }.received linkPacket)
      ({ s with linked := true }.payload linkPacket) =
      answered (linkEst env ({ s with linked := true }.received linkPacket)
        ({ s with linked := true }.payload linkPacket)) := by
    rw [dispatch, dispatch_eq .linkEst rfl]
  rw [linkEst_plain rfl] at hcmd
  obtain ⟨up, sent, hturn⟩ := @loaderScheduler_answered _ env ({ s with linked := true }) linkPacket
    ⟨rfl, hhung, fun hf => by rw [hflag] at hf; cases hf⟩ _ hcmd hhung hroom rfl
  dsimp only
  rw [loaderScheduler_link hhung hflag rfl, hturn]
  exact ⟨⟨⟨rfl, hhung, rfl, hroom⟩, hempty⟩, rfl, rfl, rfl⟩

end Session

end UBoot.Loader
