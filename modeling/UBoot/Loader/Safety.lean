import UBoot.Loader.Turn

/-!
# The arithmetic of the download protocol

The host chooses every operand. What a host has to keep to, judged in the state in which
the loader takes a packet, and the invariant that makes the arithmetic safe then.
-/
namespace UBoot.Loader
open ByteStore

/-- The operation does what it is meant to: a copy stays inside the staging buffer, a
divisor is not zero, a difference does not wrap. -/
def Arith.Ok {σ : Type*} (env : Env σ) : Arith → Prop
  | .copy size len => size + len ≤ env.tmpBufSize
  | .divide _ d => d ≠ 0
  | .subtract a b => b ≤ a

instance {σ : Type*} (env : Env σ) : DecidablePred (Arith.Ok env) := fun op =>
  match op with
  | .copy _ _ => inferInstanceAs (Decidable (_ ≤ _))
  | .divide _ _ => inferInstanceAs (Decidable (_ ≠ _))
  | .subtract _ _ => inferInstanceAs (Decidable (_ ≤ _))

/-- Every operation so far was in order. -/
def State.OpsOk {σ : Type*} (env : Env σ) (s : State σ) : Prop := ∀ op ∈ s.ops, op.Ok env

section Safety
variable {σ : Type*} {env : Env σ} {s s' : State σ} {recv : Mem} {pk : Packet}

/-- The packet is a command that the loader acts on. -/
def State.Accepts (s : State σ) (recv : Mem) : Prop :=
  (s.linked = true ∨ recv 0 = Cmd.linkEst.id) ∧ (s.exp.flag = true → recv 0 = s.exp.cmdId)

/-- A packet that keeps to the protocol in the state `s`. -/
structure Orderly (env : Env σ) (s : State σ) (recv : Mem) : Prop where
  /-- Data is sent when it is expected, or goes into a packet that is long enough to be
  turned down. -/
  data : recv 0 = Cmd.data.id → (s.exp.flag = true ∧ s.exp.cmdId = Cmd.data.id) ∨
    (¬ s.Accepts recv ∧ 3 ≤ s.exp.size)
  /-- A raw chunk is not longer than the packets that were announced. -/
  chunk : recv 0 = Cmd.data.id → s.ldSet.isZip = 2 → littleEndianVal (advance recv 4) = 1 →
    littleEndianVal (advance recv 8) ≤ s.ldSet.onceDataBytes
  /-- Packets are not empty, they fit the staging buffer and, with what is not payload, a
  16-bit length, and the first one is not longer than what is to come. -/
  packetSize : recv 0 = Cmd.dataPacketSize.id → s.Accepts recv →
    let size := (recv 2).toNat + (recv 1).toNat * 2 ^ 8
    0 < size ∧ size + 5 < 2 ^ 16 ∧ size ≤ env.tmpBufSize ∧ size ≤ s.restBytes
  /-- No range ends before its start. -/
  range : recv 0 = Cmd.eraseSegEndAddr.id ∨ recv 0 = Cmd.progDevEndAddr.id ∧ s.ldSet.isZip = 0 →
    s.Accepts recv →
    s.ldSet.startAddr ≤ u64 (bigEndianVal (advance recv 2) + s.ldSet.addrOffset)
  /-- A length of efuse data leaves room for a command, and for what is not payload. -/
  efuse : recv 0 = Cmd.efuseWriteLen.id → s.Accepts recv →
    5 ≤ u16 (bigEndianVal (advance recv 1)) ∧ u16 (bigEndianVal (advance recv 1)) + 2 < 2 ^ 16

/-- The expected packet outside a transfer of data: it has a 16-bit length, and a command
that is not answered can be read once more as a packet. -/
structure CalmExp (e : ExpectInfo) : Prop where
  small : e.size + 2 + (if e.cmdId = Cmd.data.id then 3 else 0) < 2 ^ 16
  notData : ¬ (e.flag = true ∧ e.cmdId = Cmd.data.id)
  long : 5 ≤ e.size ∨ (e.flag = true ∧ e.cmdId = Cmd.partitionData.id)

/-- The state while data is expected. -/
structure Transfer (env : Env σ) (s : State σ) : Prop where
  flag : s.exp.flag = true
  cmdId : s.exp.cmdId = Cmd.data.id
  once_pos : 0 < s.ldSet.onceDataBytes
  once_small : s.ldSet.onceDataBytes + 5 < 2 ^ 16
  once_fits : s.ldSet.onceDataBytes ≤ env.tmpBufSize
  maxCnt : s.maxCnt = env.tmpBufSize / s.ldSet.onceDataBytes
  threshold_le : s.threshold ≤ s.maxCnt
  staged : s.tmpSize ≤ s.threshold * s.ldSet.onceDataBytes
  size_le : s.exp.size ≤ s.ldSet.onceDataBytes
  rest : s.exp.size ≤ s.restBytes

/-- The three kinds of states. -/
inductive Phase (env : Env σ) (s : State σ) : Prop
  | calm (empty : s.tmpSize = 0) (exp : CalmExp s.exp)
  | transfer (h : Transfer env s)
  | sync (exp : s.exp = ExpectInfo.expect defPackLen .dataSync)

/-- The operations so far, and that no piece of an upload is longer than a packet. -/
def State.Sound (env : Env σ) (s : State σ) : Prop := s.OpsOk env ∧ s.upSize ≤ upDataSize

/-- The invariant between two turns. -/
structure Safe (env : Env σ) (s : State σ) : Prop where
  sound : s.Sound env
  phase : s.hung = false → Phase env s ∧ s.Roomy

/-- The state right after the `switch`. -/
structure Settled (env : Env σ) (s : State σ) : Prop where
  sound : s.Sound env
  phase : s.hung = false → Phase env s

theorem State.Sound.record (h : s.Sound env) {op : Arith} (hop : op.Ok env) :
    (s.record op).Sound env := by
  refine ⟨fun op' hop' => ?_, h.2⟩
  rcases List.mem_append.mp hop' with hold | hnew
  · exact h.1 op' hold
  · rw [List.mem_singleton.mp hnew]
    exact hop

theorem CalmExp.reset {e : ExpectInfo} (h : CalmExp e) (hlong : 5 ≤ e.size) : CalmExp e.reset :=
  ⟨h.small, by simp [ExpectInfo.reset], .inl hlong⟩

theorem CalmExp.expect {n : ℕ} {c : Cmd} (hsmall : n + 2 < 2 ^ 16) (hc : c ≠ .data)
    (hlong : 5 ≤ n ∨ c = .partitionData) : CalmExp (ExpectInfo.expect n c) := by
  have hid : c.id ≠ Cmd.data.id := by
    intro h
    have := congrArg Cmd.ofId h
    rw [Cmd.ofId_id, Cmd.ofId_id] at this
    exact hc (Option.some.inj this)
  refine ⟨?_, fun h => hid h.2, ?_⟩
  · rw [ExpectInfo.expect, if_neg hid]
    exact hsmall
  · rcases hlong with h | rfl
    · exact .inl h
    · exact .inr ⟨rfl, rfl⟩

theorem CalmExp.next {e : ExpectInfo} (h : CalmExp e) (hlong : 5 ≤ e.size) {c : Cmd}
    (hc : c ≠ .data) : CalmExp (e.next c) := by
  have := h.small
  exact CalmExp.expect (by omega) hc (.inl hlong)

theorem CalmExp.default (e : ExpectInfo) : CalmExp e.default := by
  refine ⟨?_, by simp [ExpectInfo.default], .inl (show 5 ≤ defPackLen by decide)⟩
  have hfill : (if e.cmdId = Cmd.data.id then 3 else 0) ≤ 3 := by
    split <;> norm_num
  exact lt_of_le_of_lt (Nat.add_le_add_left hfill (defPackLen + 2)) (by decide)

/-- What the phase depends on. -/
theorem Phase.of_eq (h : Phase env s) (hexp : s'.exp = s.exp)
    (honce : s'.ldSet.onceDataBytes = s.ldSet.onceDataBytes) (hrest : s'.restBytes = s.restBytes)
    (hmax : s'.maxCnt = s.maxCnt) (hthreshold : s'.threshold ≤ s.threshold)
    (hstaged : s'.tmpSize = s.tmpSize ∧ s'.threshold = s.threshold ∨ s'.tmpSize = 0) :
    Phase env s' := by
  cases h with
  | calm hempty hcalm =>
    refine .calm ?_ (hexp ▸ hcalm)
    rcases hstaged with ⟨h, -⟩ | h
    · rw [h, hempty]
    · exact h
  | transfer h =>
    have hbound : s'.tmpSize ≤ s'.threshold * s'.ldSet.onceDataBytes := by
      rcases hstaged with ⟨hsize, hthr⟩ | hsize
      · rw [hsize, hthr, honce]
        exact h.staged
      · omega
    refine .transfer ⟨hexp ▸ h.flag, hexp ▸ h.cmdId, honce ▸ h.once_pos, honce ▸ h.once_small,
      honce ▸ h.once_fits, ?_, ?_, hbound, ?_, ?_⟩
    · rw [hmax, honce, h.maxCnt]
    · rw [hmax]
      exact hthreshold.trans h.threshold_le
    · rw [hexp, honce]
      exact h.size_le
    · rw [hexp, hrest]
      exact h.rest
  | sync h => exact .sync (hexp ▸ h)

theorem Settled.hang (h : s.Sound env) : Settled env s.hang :=
  ⟨h, fun hhung => absurd hhung (by simp [State.hang])⟩

theorem Settled.calm (hsound : s.Sound env) (hempty : s.tmpSize = 0) (hexp : CalmExp s.exp) :
    Settled env s := ⟨hsound, fun _ => .calm hempty hexp⟩

theorem flush_phase (h : Phase env s) : Phase env (s.flush env) :=
  h.of_eq rfl rfl rfl rfl (Nat.zero_le _) (.inr rfl)

/-- Whatever is staged, the next packet has room after the check for a full buffer. -/
theorem flushFull_safe (h : Settled env s) : Safe env (flushFull env s) := by
  unfold flushFull
  split
  · rename_i hfull
    refine ⟨h.sound, fun hhung => ⟨flush_phase (h.phase hhung), ?_⟩⟩
    exact fun hroom => hroom.1 hroom.2
  · rename_i hroom
    exact ⟨h.sound, fun hhung => ⟨h.phase hhung, hroom⟩⟩

/-- The invariant looks neither at the frames nor at their buffer. -/
theorem Safe.of_sent (h : Safe env s) {up : Mem} {sent : List (List UInt8)} :
    Safe env { s with
      up := up
      sent := sent } := by
  refine ⟨h.sound, fun hhung => ?_⟩
  obtain ⟨hphase, hroom⟩ := h.phase hhung
  exact ⟨hphase.of_eq rfl rfl rfl rfl le_rfl (.inl ⟨rfl, rfl⟩), hroom⟩

theorem Safe.record (h : Safe env s) {op : Arith} (hop : op.Ok env) : Safe env (s.record op) := by
  refine ⟨h.sound.record hop, fun hhung => ?_⟩
  obtain ⟨hphase, hroom⟩ := h.phase hhung
  exact ⟨hphase.of_eq rfl rfl rfl rfl le_rfl (.inl ⟨rfl, rfl⟩), hroom⟩

theorem overhead_le (b : UInt8) : overhead b ≤ 5 := by
  unfold overhead
  split <;> decide

/-- A packet that is sent back as it came is handled as one from the host, so that it must
have some payload. -/
theorem respond_safe (h : Safe env s) (hpk : pk.fromHost = true → 5 ≤ pk.dataSize) :
    Safe env (respond s pk) := by
  unfold respond
  split
  · rename_i hfrom
    have hop : (handleFromHost pk).2.Ok env := (overhead_le _).trans (hpk hfrom)
    exact (h.record hop).of_sent
  · exact h.of_sent

theorem syncChunk_settled (h : Settled env s) (c : Chunk) : Settled env (syncChunk env s c) := by
  unfold syncChunk
  dsimp only
  split
  · split
    · exact Settled.hang h.sound
    · exact ⟨h.sound, fun hhung => (h.phase hhung).of_eq rfl rfl rfl rfl (Nat.zero_le _) (.inr rfl)⟩
  · split
    · exact Settled.hang h.sound
    · exact ⟨h.sound, fun hhung => (h.phase hhung).of_eq rfl rfl rfl rfl (Nat.zero_le _) (.inr rfl)⟩

/-- What has to hold after the `switch`. -/
structure Turn.Good (env : Env σ) (t : Turn σ) : Prop where
  settled : Settled env t.s
  resp : t.needResp = true → t.pk.fromHost = true → 5 ≤ t.pk.dataSize

theorem finish_safe {t : Turn σ} (h : t.Good env) : Safe env (finish env t) := by
  unfold finish
  split
  · rename_i hhung
    exact ⟨h.settled.sound, fun hnot => absurd (hhung.symm.trans hnot) (by simp)⟩
  · have hsync : Settled env (syncPending env t.s t.sync) := by
      cases t.sync with
      | none => exact h.settled
      | some c => exact syncChunk_settled h.settled c
    dsimp only
    split
    · rename_i hhung
      exact ⟨hsync.sound, fun hnot => absurd (hhung.symm.trans hnot) (by simp)⟩
    · split
      · rename_i hresp
        exact respond_safe (flushFull_safe hsync) (h.resp hresp)
      · exact flushFull_safe hsync

theorem Turn.Good.answered {r : State σ × Packet} (h : Settled env r.1)
    (hpk : r.2.fromHost = false) : (answered r).Good env :=
  ⟨h, fun _ hfrom => absurd (hpk.symm.trans hfrom) (by simp)⟩

/-- A state in which any command but data may come. -/
structure Calm (env : Env σ) (s : State σ) : Prop where
  sound : s.Sound env
  empty : s.tmpSize = 0
  exp : CalmExp s.exp
  long : 5 ≤ s.exp.size

theorem Calm.of_eq (h : Calm env s) (hops : s'.ops = s.ops) (hup : s'.upSize = s.upSize)
    (htmp : s'.tmpSize = s.tmpSize) (hexp : s'.exp = s.exp) : Calm env s' := by
  refine ⟨⟨?_, hup ▸ h.sound.2⟩, htmp.trans h.empty, hexp ▸ h.exp, hexp ▸ h.long⟩
  intro op hop
  exact h.sound.1 op (hops ▸ hop)

theorem linkEst_good (h : Calm env s) : (answered (linkEst env s pk)).Good env := by
  have hbyte := env.lowByte.toNat_lt
  unfold linkEst
  dsimp only
  split
  · exact .answered (.calm h.sound h.empty (.expect (by omega) (by decide) (.inr rfl))) rfl
  · split
    · exact .answered (.calm h.sound h.empty (h.exp.reset h.long)) rfl
    · exact .answered (.calm h.sound h.empty (h.exp.reset h.long)) rfl

theorem efuseWriteLen_good (h : Calm env s) (hlen : 5 ≤ u16 (bigEndianVal pk.data) ∧
    u16 (bigEndianVal pk.data) + 2 < 2 ^ 16) : (answered (efuseWriteLen s pk)).Good env :=
  .answered (.calm h.sound h.empty (.expect hlen.2 (by decide) (.inl hlen.1))) rfl

theorem eraseSegEndAddr_good (h : Calm env s) (hrange : s.ldSet.startAddr ≤
    u64 (bigEndianVal (advance pk.data 1) + s.ldSet.addrOffset)) :
    (answered (eraseSegEndAddr env s pk)).Good env := by
  refine .answered (.calm (h.sound.record hrange) h.empty (h.exp.reset h.long)) ?_
  unfold eraseSegEndAddr
  rfl

theorem eraseFlash_good (h : Calm env s) : (answered (eraseFlash env s)).Good env := by
  have hsound := h.sound.record (show Arith.Ok env (.subtract env.capacity 0) from Nat.zero_le _)
  unfold eraseFlash
  dsimp only
  split
  · exact .answered (.calm hsound h.empty (h.exp.reset h.long)) rfl
  · exact .answered (.hang hsound) rfl

theorem progDevEndAddr_good (h : Calm env s) (hrange : s.ldSet.isZip = 0 → s.ldSet.startAddr ≤
    u64 (bigEndianVal (advance pk.data 1) + s.ldSet.addrOffset)) :
    (answered (progDevEndAddr s pk)).Good env := by
  unfold progDevEndAddr
  dsimp only
  split
  · exact .answered (.calm h.sound h.empty (h.exp.next h.long (by decide))) rfl
  · rename_i hzip
    exact .answered (.calm (h.sound.record (hrange (by simpa using hzip))) h.empty
      (h.exp.next h.long (by decide))) rfl

theorem partNameLen_good (h : Calm env s) : (answered (partNameLen s pk)).Good env := by
  have hbyte := (pk.data 0).toNat_lt
  refine .answered (.calm h.sound h.empty (.expect ?_ (by decide) (.inl ?_))) rfl
  · rw [defPackLen]
    omega
  · rw [defPackLen]
    omega

theorem partNameString_good (h : Calm env s) : (answered (partNameString env s pk)).Good env := by
  unfold partNameString
  dsimp only
  split
  · exact .answered (.calm h.sound h.empty (.default _)) rfl
  · exact .answered (.calm h.sound h.empty (.default _)) rfl

/-- A transfer starts with an empty staging buffer. -/
theorem dataPacketSize_good (h : Calm env s)
    (hsize : let size := (pk.data 1).toNat + (pk.data 0).toNat * 2 ^ 8
      0 < size ∧ size + 5 < 2 ^ 16 ∧ size ≤ env.tmpBufSize ∧ size ≤ s.restBytes) :
    (answered (dataPacketSize env s pk)).Good env := by
  obtain ⟨hpos, hsmall, hfits, hrest⟩ := hsize
  have hsound := h.sound.record (show Arith.Ok env (.divide env.tmpBufSize
    ((pk.data 1).toNat + (pk.data 0).toNat * 2 ^ 8)) from hpos.ne')
  unfold dataPacketSize
  dsimp only
  rw [if_neg hpos.ne']
  refine .answered ⟨hsound, fun _ => .transfer ?_⟩ rfl
  exact ⟨rfl, rfl, hpos, hsmall, hfits, rfl, Nat.zero_le _, h.empty.le.trans (Nat.zero_le _),
    le_rfl, hrest⟩

theorem pieceSize_le (h : s.upSize ≤ upDataSize) :
    s.pieceSize ≤ s.restBytes ∧ s.pieceSize ≤ upDataSize := by
  unfold State.pieceSize
  split <;> omega

/-- A piece of an upload is not longer than what is left. -/
theorem uploadPiece_calm (h : Calm env s) : Calm env (uploadPiece env s pk).1 := by
  obtain ⟨hrest, hup⟩ := pieceSize_le h.sound.2
  have hsound := h.sound.record
    (show Arith.Ok env (.subtract s.restBytes s.pieceSize) from hrest)
  unfold uploadPiece
  dsimp only
  split
  · exact ⟨⟨hsound.1, hup⟩, h.empty, h.exp, h.long⟩
  · exact ⟨h.sound, h.empty, h.exp, h.long⟩

theorem Calm.setUploadSize (h : Calm env s) (val : ℕ) : Calm env (s.setUploadSize val) :=
  h.of_eq rfl rfl rfl rfl

theorem upldDataSize_good (h : Calm env s) : (answered (upldDataSize env s pk)).Good env := by
  have hpiece := @uploadPiece_calm _ _ _ pk (h.setUploadSize (bigEndianVal pk.data))
  have hresp : (uploadPiece env (s.setUploadSize (bigEndianVal pk.data)) pk).2.fromHost = false :=
    rfl
  unfold upldDataSize
  generalize uploadPiece env (s.setUploadSize (bigEndianVal pk.data)) pk = r at hpiece hresp ⊢
  exact .answered (.calm hpiece.sound hpiece.empty (hpiece.exp.reset hpiece.long)) hresp

theorem success_good (h : Calm env s) : (success env s pk).Good env := by
  unfold success
  split
  · have hpiece := @uploadPiece_calm _ _ _ pk h
    exact ⟨.calm hpiece.sound hpiece.empty hpiece.exp, fun _ hfrom => by cases hfrom⟩
  · exact ⟨.calm h.sound h.empty h.exp, nofun⟩

theorem dataSync_good (hsound : s.Sound env) : (answered (dataSync env s)).Good env := by
  unfold dataSync
  dsimp only
  split
  · exact .answered (.calm hsound rfl ⟨show defPackLen + 2 + 0 < 2 ^ 16 by decide, nofun,
      .inl (show 5 ≤ defPackLen by decide)⟩) rfl
  · exact .answered (.hang hsound) rfl

/-- Every command but data, while no data is expected. -/
theorem calm_good (h : Calm env s) {c : Cmd} (hc : Cmd.ofId pk.cmdId = some c) (hnot : c ≠ .data)
    (hpk : 5 ≤ pk.dataSize)
    (hsize : c = .dataPacketSize → let size := (pk.data 1).toNat + (pk.data 0).toNat * 2 ^ 8
      0 < size ∧ size + 5 < 2 ^ 16 ∧ size ≤ env.tmpBufSize ∧ size ≤ s.restBytes)
    (hrange : c = .eraseSegEndAddr ∨ c = .progDevEndAddr ∧ s.ldSet.isZip = 0 →
      s.ldSet.startAddr ≤ u64 (bigEndianVal (advance pk.data 1) + s.ldSet.addrOffset))
    (hefuse : c = .efuseWriteLen →
      5 ≤ u16 (bigEndianVal pk.data) ∧ u16 (bigEndianVal pk.data) + 2 < 2 ^ 16) :
    (dispatch env s pk).Good env := by
  have hreset : CalmExp s.exp.reset := h.exp.reset h.long
  have hnext : ∀ c : Cmd, c ≠ .data → CalmExp (s.exp.next c) := fun c => h.exp.next h.long
  unfold dispatch
  rw [hc]
  cases c with
  | swReset => exact ⟨.hang h.sound, fun _ _ => hpk⟩
  | hwReset => exact ⟨.hang h.sound, fun _ _ => hpk⟩
  | linkEst => exact linkEst_good h
  | unzipInfo => exact .answered (.calm h.sound h.empty h.exp) rfl
  | devBaseAddr => exact .answered (.calm h.sound h.empty hreset) rfl
  | efuseWriteLen => exact efuseWriteLen_good h (hefuse rfl)
  | efuseWriteData => exact .answered (.calm h.sound h.empty hreset) rfl
  | efuseRead => exact .answered (.calm h.sound h.empty hreset) rfl
  | deviceInfo => exact .answered (.calm h.sound h.empty hreset) rfl
  | eraseSegStAddr => exact .answered (.calm h.sound h.empty (hnext _ (by decide))) rfl
  | eraseSegEndAddr => exact eraseSegEndAddr_good h (hrange (.inl rfl))
  | eraseFlash => exact eraseFlash_good h
  | progDevStAddr => exact .answered (.calm h.sound h.empty (hnext _ (by decide))) rfl
  | progDevEndAddr => exact progDevEndAddr_good h fun hzip => hrange (.inr ⟨rfl, hzip⟩)
  | partNameLen => exact partNameLen_good h
  | partNameString => exact partNameString_good h
  | partReqSt => exact .answered (.calm h.sound h.empty
      (.expect (by decide) (by decide) (.inl (by decide)))) rfl
  | partReqSz => exact .answered (.calm h.sound h.empty (.default _)) rfl
  | dataPacketSize => exact dataPacketSize_good h (hsize rfl)
  | data => exact absurd rfl hnot
  | dataSync => exact dataSync_good h.sound
  | ramCheck => exact .answered (.calm h.sound h.empty (.default _)) rfl
  | flashCheck => exact .answered (.calm h.sound h.empty (.default _)) rfl
  | devProtect => exact .answered (.calm h.sound h.empty (.default _)) rfl
  | devUnprotect => exact .answered (.calm h.sound h.empty (.default _)) rfl
  | partitionData => exact .answered (.calm h.sound h.empty (.default _)) rfl
  | rvrsDwnld => exact .answered (.calm ⟨h.sound.1, le_rfl⟩ h.empty (hnext _ (by decide))) rfl
  | upldDataSize => exact upldDataSize_good h
  | success => exact success_good h
  | changeConfig => exact ⟨.calm h.sound h.empty h.exp, fun _ _ => hpk⟩
  | startExecution => exact ⟨.calm h.sound h.empty h.exp, fun _ _ => hpk⟩
  | lockSegStAddr => exact ⟨.calm h.sound h.empty h.exp, fun _ _ => hpk⟩
  | lockSegEndAddr => exact ⟨.calm h.sound h.empty h.exp, fun _ _ => hpk⟩
  | unlockSegStAddr => exact ⟨.calm h.sound h.empty h.exp, fun _ _ => hpk⟩
  | unlockSegEndAddr => exact ⟨.calm h.sound h.empty h.exp, fun _ _ => hpk⟩
  | tlDownload => exact ⟨.calm h.sound h.empty h.exp, fun _ _ => hpk⟩

/-- A packet that is not longer than announced fits, and so does the next one when the check
for a full buffer has been made. -/
theorem stage_transfer (hsound : s.Sound env) (h : Transfer env s) (hroom : s.Roomy) (data : Mem)
    {len : ℕ} (hlen : len ≤ s.ldSet.onceDataBytes) :
    (s.stage data len).Sound env ∧ Transfer env (s.stage data len) := by
  have hmax : 0 < s.maxCnt := by
    rw [h.maxCnt]
    exact Nat.div_pos h.once_fits h.once_pos
  have hlt : s.threshold + 1 ≤ s.maxCnt := by
    have hle := h.threshold_le
    have hne : s.maxCnt ≠ s.threshold := fun heq => hroom ⟨hmax.ne', heq⟩
    omega
  have hstaged : s.tmpSize + len ≤ (s.threshold + 1) * s.ldSet.onceDataBytes := by
    have := h.staged
    rw [Nat.add_mul, Nat.one_mul]
    omega
  have hfits : (s.threshold + 1) * s.ldSet.onceDataBytes ≤ env.tmpBufSize := by
    refine (Nat.mul_le_mul_right _ hlt).trans ?_
    rw [h.maxCnt]
    exact Nat.div_mul_le_self _ _
  refine ⟨hsound.record (show Arith.Ok env (.copy s.tmpSize len) from hstaged.trans hfits), ?_⟩
  exact ⟨h.flag, h.cmdId, h.once_pos, h.once_small, h.once_fits, h.maxCnt, hlt,
    (u32_le _).trans hstaged, h.size_le, h.rest⟩

theorem stageData_transfer (hsound : s.Sound env) (h : Transfer env s) (hroom : s.Roomy)
    (hlen : pk.dataSize ≤ s.ldSet.onceDataBytes)
    (hchunk : s.ldSet.isZip = 2 → littleEndianVal pk.data = 1 →
      littleEndianVal (advance pk.data 4) ≤ s.ldSet.onceDataBytes) :
    (stageData s pk).1.Sound env ∧ Transfer env (stageData s pk).1 := by
  unfold stageData
  dsimp only
  split
  · exact stage_transfer hsound h hroom _ hlen
  · split
    · rename_i hzip
      split
      · rename_i htype
        obtain ⟨hsound', h'⟩ := stage_transfer hsound h hroom (advance pk.data 8)
          (hchunk hzip htype)
        split
        · exact ⟨hsound', h'.flag, h'.cmdId, h'.once_pos, h'.once_small, h'.once_fits, h'.maxCnt,
            h'.threshold_le, h'.staged, h'.size_le, h'.rest⟩
        · exact ⟨hsound', h'⟩
      · split
        · exact ⟨hsound, h⟩
        · split <;> exact ⟨hsound, h⟩
    · exact ⟨hsound, h⟩

/-- The expected size stays at most what is left, and at nothing left the transfer ends. -/
theorem countData_settled (hsound : s.Sound env) (h : Transfer env s) :
    Settled env (countData s) := by
  have hsound := hsound.record (show Arith.Ok env (.subtract s.restBytes s.exp.size) from h.rest)
  unfold countData
  dsimp only
  refine ⟨hsound, fun _ => ?_⟩
  split
  · rename_i hle
    split
    · exact .sync rfl
    · exact .transfer ⟨h.flag, h.cmdId, h.once_pos, h.once_small, h.once_fits, h.maxCnt,
        h.threshold_le, h.staged, hle.trans h.size_le, le_rfl⟩
  · rename_i hlt
    exact .transfer ⟨h.flag, h.cmdId, h.once_pos, h.once_small, h.once_fits, h.maxCnt,
      h.threshold_le, h.staged, h.size_le, (not_le.mp hlt).le⟩

theorem data_good (hsound : s.Sound env) (h : Transfer env s) (hroom : s.Roomy)
    (hlen : pk.dataSize ≤ s.ldSet.onceDataBytes)
    (hchunk : s.ldSet.isZip = 2 → littleEndianVal pk.data = 1 →
      littleEndianVal (advance pk.data 4) ≤ s.ldSet.onceDataBytes) : (data env s pk).Good env := by
  obtain ⟨hsound', h'⟩ := stageData_transfer hsound h hroom hlen hchunk
  unfold data
  dsimp only
  refine ⟨?_, fun hresp hfrom => ?_⟩
  · dsimp only
    split
    · rename_i hhung
      exact ⟨hsound', fun hnot => absurd (hhung.symm.trans hnot) (by simp)⟩
    · exact countData_settled hsound' h'
  · dsimp only at hresp hfrom
    rw [if_pos hresp] at hfrom
    cases hfrom

theorem overhead_data : overhead Cmd.data.id = 5 := by decide

theorem overhead_of_ne {b : UInt8} (h : b ≠ Cmd.data.id) : overhead b = 2 := if_neg h

/-- What is handed to the `switch`, when the payload has a length. -/
theorem preHandle_spec (hsmall : s.downSize < 2 ^ 16) (hover : overhead (recv 0) ≤ s.downSize) :
    s.preHandle recv =
      (⟨true, if s.exp.flag = true ∧ recv 0 ≠ s.exp.cmdId then cmdFail else recv 0,
        s.downSize - overhead (recv 0), advance recv (overhead (recv 0) - cmdCrcSize)⟩,
      .subtract s.downSize (overhead (recv 0))) := by
  have hu : u16 s.downSize = s.downSize := Nat.mod_eq_of_lt hsmall
  unfold State.preHandle handleFromHost
  simp only [hu, sub16, if_pos hover]
  split <;> rfl

theorem Phase.downSize_lt (h : Phase env s) : s.downSize < 2 ^ 16 := by
  unfold State.downSize
  cases h with
  | calm hempty hexp => exact hexp.small
  | transfer h =>
    have hsize := h.size_le
    have honce := h.once_small
    rw [if_pos h.cmdId, cmdCmdSize, cmdCrcSize, cmdDataFillSize]
    omega
  | sync hexp =>
    rw [hexp]
    decide

theorem Orderly.overhead_le (ho : Orderly env s recv) : overhead (recv 0) ≤ s.downSize := by
  unfold State.downSize
  by_cases hdata : recv 0 = Cmd.data.id
  · rw [hdata, overhead_data, cmdCmdSize, cmdCrcSize, cmdDataFillSize]
    rcases ho.data hdata with ⟨-, hcmd⟩ | ⟨-, hsize⟩
    · rw [if_pos hcmd]
      omega
    · omega
  · rw [overhead_of_ne hdata, cmdCmdSize, cmdCrcSize]
    omega

theorem unknown_good (hsound : s.Sound env) (h : Phase env s) (hc : Cmd.ofId pk.cmdId = none) :
    (dispatch env s pk).Good env := by
  unfold dispatch
  rw [hc]
  exact .answered ⟨hsound, fun _ => h⟩ rfl

/-- The `switch` on a command that the loader accepts. -/
theorem accepted_good (hsound : s.Sound env) (h : Phase env s) (hroom : s.Roomy)
    (ho : Orderly env s recv) (haccept : s.Accepts recv) (hpk : pk = ⟨true, recv 0,
      s.downSize - overhead (recv 0), advance recv (overhead (recv 0) - cmdCrcSize)⟩) :
    (dispatch env s pk).Good env := by
  have hcmd : pk.cmdId = recv 0 := by rw [hpk]
  cases h with
  | calm hempty hexp =>
    have hnot : recv 0 ≠ Cmd.data.id := by
      intro hdata
      rcases ho.data hdata with hexpected | ⟨hrefused, -⟩
      · exact hexp.notData hexpected
      · exact hrefused haccept
    rw [overhead_of_ne hnot] at hpk
    have hdata : pk.data = advance recv 1 := by rw [hpk, cmdCrcSize]
    have hdataSize : s.exp.size ≤ pk.dataSize := by
      rw [hpk, State.downSize, cmdCmdSize, cmdCrcSize]
      dsimp only
      omega
    cases hc : Cmd.ofId pk.cmdId with
    | none => exact unknown_good hsound (.calm hempty hexp) hc
    | some c =>
      have hid : recv 0 = c.id := by rw [← hcmd, Cmd.id_of_ofId hc]
      have hne : c ≠ .data := fun h => hnot (by rw [hid, h])
      rcases hexp.long with hlong | ⟨hflag, hpart⟩
      · refine calm_good ⟨hsound, hempty, hexp, hlong⟩ hc hne (hlong.trans hdataSize) ?_ ?_ ?_
        · intro hsize
          rw [hdata]
          exact ho.packetSize (by rw [hid, hsize]) haccept
        · intro hrange
          rw [hdata, advance_advance]
          refine ho.range ?_ haccept
          rcases hrange with h | ⟨h, hzip⟩
          · exact .inl (by rw [hid, h])
          · exact .inr ⟨by rw [hid, h], hzip⟩
        · intro hefuse
          rw [hdata]
          exact ho.efuse (by rw [hid, hefuse]) haccept
      · -- a partition table is answered and nothing else is accepted
        have hid' : c.id = Cmd.partitionData.id := by rw [← hid, haccept.2 hflag, hpart]
        have hof := congrArg Cmd.ofId hid'
        rw [Cmd.ofId_id, Cmd.ofId_id] at hof
        rw [Option.some.inj hof] at hc
        unfold dispatch
        rw [hc]
        exact .answered (.calm hsound hempty (.default _)) rfl
  | transfer h =>
    have hdata : recv 0 = Cmd.data.id := by rw [haccept.2 h.flag, h.cmdId]
    rw [hdata, overhead_data] at hpk
    have hc : Cmd.ofId pk.cmdId = some .data := by rw [hcmd, hdata, Cmd.ofId_id]
    have hdataSize : pk.dataSize = s.exp.size := by
      rw [hpk, State.downSize, if_pos h.cmdId, cmdCmdSize, cmdCrcSize, cmdDataFillSize]
      dsimp only
      omega
    have hpkdata : pk.data = advance recv 4 := by rw [hpk, cmdCrcSize]
    unfold dispatch
    rw [hc]
    refine data_good hsound h hroom (hdataSize.trans_le h.size_le) ?_
    rw [hpkdata, advance_advance]
    exact ho.chunk hdata
  | sync hexp =>
    have hsync : recv 0 = Cmd.dataSync.id := by
      rw [haccept.2 (by rw [hexp]; rfl), hexp]
      rfl
    have hc : Cmd.ofId pk.cmdId = some .dataSync := by rw [hcmd, hsync, Cmd.ofId_id]
    unfold dispatch
    rw [hc]
    exact dataSync_good hsound

/-- A packet that is accepted keeps to the protocol whether or not the link was there. -/
theorem Orderly.linked (ho : Orderly env s recv) (haccept : s.Accepts recv) {op : Arith} :
    Orderly env { s.record op with linked := true } recv := by
  refine ⟨fun hdata => ?_, ho.chunk, fun h _ => ho.packetSize h haccept,
    fun h _ => ho.range h haccept, fun h _ => ho.efuse h haccept⟩
  rcases ho.data hdata with hexpected | ⟨hrefused, -⟩
  · exact .inl hexpected
  · exact absurd haccept hrefused

/-- One packet that keeps to the protocol. -/
theorem loaderScheduler_safe (h : Safe env s) (ho : Orderly env s recv) :
    Safe env (loaderScheduler env s recv) := by
  unfold loaderScheduler
  split
  · exact h
  · rename_i hhung
    obtain ⟨hphase, hroom⟩ := h.phase (by simpa using hhung)
    rw [preHandle_spec hphase.downSize_lt ho.overhead_le]
    have hop : Arith.Ok env (.subtract s.downSize (overhead (recv 0))) := ho.overhead_le
    have hrecord := h.record hop
    have hphase' := @Phase.of_eq _ _ _
      { s.record (.subtract s.downSize (overhead (recv 0))) with linked := true } hphase
      rfl rfl rfl rfl le_rfl (.inl ⟨rfl, rfl⟩)
    by_cases hmatch : s.exp.flag = true ∧ recv 0 ≠ s.exp.cmdId
    · rw [if_pos hmatch]
      dsimp only
      split
      · exact hrecord
      · exact finish_safe (unknown_good hrecord.sound hphase' rfl)
    · rw [if_neg hmatch]
      dsimp only
      split
      · exact hrecord
      · rename_i hlink
        have haccept : s.Accepts recv := by
          refine ⟨?_, fun hflag => by_contra fun hne => hmatch ⟨hflag, hne⟩⟩
          by_contra hnot
          rw [not_or] at hnot
          exact hlink ⟨(Bool.not_eq_true s.linked).mp hnot.1, hnot.2⟩
        exact finish_safe (accepted_good hrecord.sound hphase' hroom (ho.linked haccept)
          ⟨.inl rfl, haccept.2⟩ rfl)

theorem initial_safe (cmdId : UInt8) (ldSet : LoaderSet) (dev : σ) :
    Safe env (State.initial cmdId ldSet dev) := by
  refine ⟨⟨nofun, Nat.zero_le _⟩, fun _ => ⟨.calm rfl ⟨?_, nofun, .inl ?_⟩, fun h => h.1 rfl⟩⟩
  · change defPackLen + 2 + (if cmdId = Cmd.data.id then 3 else 0) < 2 ^ 16
    split <;> decide
  · exact show 5 ≤ defPackLen by decide

/-- In every run whose packets keep to the protocol, no copy leaves the staging buffer, no
divisor is zero, and no difference wraps. -/
theorem orderly_run_arithmetic_ok (cmdId : UInt8) (ldSet : LoaderSet) (dev : σ)
    {packets : List Mem}
    (h : (loader env).Guarded (Orderly env) (State.initial cmdId ldSet dev) packets) :
    ((loader env).run (State.initial cmdId ldSet dev) packets).OpsOk env :=
  ((loader env).run_invariant (fun _ _ => loaderScheduler_safe)
    (initial_safe cmdId ldSet dev) h).sound.1

end Safety

instance {σ : Type*} (s : State σ) (recv : Mem) : Decidable (s.Accepts recv) :=
  inferInstanceAs (Decidable (_ ∧ _))

instance {σ : Type*} (env : Env σ) (s : State σ) (recv : Mem) : Decidable (Orderly env s recv) :=
  decidable_of_iff (_ ∧ _ ∧ _ ∧ _ ∧ _)
    ⟨fun h => ⟨h.1, h.2.1, h.2.2.1, h.2.2.2.1, h.2.2.2.2⟩,
      fun h => ⟨h.data, h.chunk, h.packetSize, h.range, h.efuse⟩⟩

/-- A packet of 512 bytes is announced for a range of 512 bytes and sent. -/
theorem orderly_run_arithmetic_ok_download :
    ((loader (flatEnv true false 512 4096)).run
      (State.initial 0 LoaderSet.zero fun _ => 0)
      [ofList [0x0a], ofList [0x11], ofList [0x12, 0, 0, 0, 1, 0xff], ofList [0x13, 2, 0],
        ofList [0x0d, 0, 0, 0, 7], ofList [0x58]]).OpsOk (flatEnv true false 512 4096) := by
  apply orderly_run_arithmetic_ok
  refine ⟨?_, ?_, ?_, ?_, ?_, ?_, trivial⟩
  all_goals decide +kernel

/-- A packet size of zero is taken as a divisor. -/
theorem packet_size_zero_is_divided_by :
    ¬ ((loader (flatEnv false false 512 4096)).run (State.initial 0 LoaderSet.zero fun _ => 0)
      [ofList [0x0a], ofList [0x13, 0, 0]]).OpsOk (flatEnv false false 512 4096) := by
  intro h
  have hdivide := h (.divide (100 * 1024 * 1024) 0) (by decide +kernel)
  exact hdivide rfl

end UBoot.Loader
