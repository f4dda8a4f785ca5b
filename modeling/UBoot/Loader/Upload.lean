import UBoot.Loader.Session

/-!
# An upload

`CMD_RVRS_DWNLD` sets the address, `CMD_UPLD_DATA_SIZE` the length, and every packet from then
on is answered with a piece of the flash until nothing is left to send.
-/
namespace UBoot.Loader
open ByteStore

/-- What is sent for a piece. -/
def dataFrame (piece : List UInt8) : List UInt8 :=
  Cmd.data.id :: piece ++ [calcChecksum (Cmd.data.id :: piece)]

/-- The pieces of a range. -/
def uploadPieces (m : Mem) (addr len : ℕ) : List (List UInt8) :=
  if len = 0 then []
  else slice m addr (min len upDataSize) ::
    uploadPieces m (addr + min len upDataSize) (len - min len upDataSize)
termination_by len
decreasing_by
  have : 0 < upDataSize := by decide
  omega

theorem uploadPieces_zero (m : Mem) (addr : ℕ) : uploadPieces m addr 0 = [] := by
  rw [uploadPieces, if_pos rfl]

theorem uploadPieces_pos (m : Mem) (addr : ℕ) {len : ℕ} (h : 0 < len) : uploadPieces m addr len =
    slice m addr (min len upDataSize) ::
      uploadPieces m (addr + min len upDataSize) (len - min len upDataSize) := by
  rw [uploadPieces, if_neg h.ne']

/-- The pieces are the range. -/
theorem flatten_uploadPieces (m : Mem) (addr len : ℕ) :
    (uploadPieces m addr len).flatten = slice m addr len := by
  induction len using Nat.strong_induction_on generalizing addr with
  | _ len ih =>
    rcases Nat.eq_zero_or_pos len with rfl | hpos
    · rw [uploadPieces_zero]
      rfl
    · have hup : 0 < upDataSize := by decide
      have hsplit := slice_add m addr (min len upDataSize) (len - min len upDataSize)
      rw [Nat.add_sub_cancel' (min_le_left _ _)] at hsplit
      rw [uploadPieces_pos m addr hpos, List.flatten_cons, ih _ (by omega), ← hsplit]

/-- As many pieces as packets are needed. -/
theorem length_uploadPieces (m : Mem) (addr len : ℕ) :
    (uploadPieces m addr len).length = blocksUp len upDataSize := by
  induction len using Nat.strong_induction_on generalizing addr with
  | _ len ih =>
    rcases Nat.eq_zero_or_pos len with rfl | hpos
    · rw [uploadPieces_zero, blocksUp_zero]
      rfl
    · have hup : 0 < upDataSize := by decide
      rw [uploadPieces_pos m addr hpos, List.length_cons, ih _ (by omega)]
      unfold blocksUp upDataSize
      split_ifs <;> omega

/-- The frame is the command, the payload and the checksum. -/
theorem handleToHost_data (d buf : Mem) {n : ℕ} (hn : n + 2 < 2 ^ 16) :
    let r := handleToHost ⟨false, Cmd.data.id, n, d⟩ buf
    slice r.1.data 0 r.1.dataSize = dataFrame (slice buf upExtraSize n) := by
  have hone : u16 (n + 1) = n + 1 := Nat.mod_eq_of_lt (by omega)
  have htwo : u16 (n + 1 + 1) = n + 1 + 1 := Nat.mod_eq_of_lt (by omega)
  unfold handleToHost
  simp only [if_true, hone, htwo, Nat.add_sub_cancel]
  generalize hhead : Function.update (overlay buf 0 upExtraSize fun _ => 0) 0 Cmd.data.id = head
  have hbody : slice (overlay head cmdCmdSize n (advance head upExtraSize)) 0 (n + 1) =
      Cmd.data.id :: slice buf upExtraSize n := by
    rw [Nat.add_comm n 1, slice_add]
    have hfirst : overlay head cmdCmdSize n (advance head upExtraSize) 0 = Cmd.data.id := by
      rw [overlay_of_not_mem _ _ (fun h => absurd h.1 (by decide)), ← hhead, Function.update_self]
    have hrest : slice (overlay head cmdCmdSize n (advance head upExtraSize)) (0 + 1) n =
        slice buf upExtraSize n := by
      refine slice_congr fun i hi => ?_
      have hpos : upExtraSize + i ≠ 0 := by
        unfold upExtraSize
        omega
      rw [Nat.zero_add, show (1 : ℕ) = cmdCmdSize from rfl, overlay_add _ _ hi, advance_apply,
        ← hhead, Function.update_of_ne hpos, overlay_of_not_mem _ _ (by omega)]
    rw [hrest, slice, List.range_one, List.map_singleton, Nat.add_zero, hfirst,
      List.singleton_append]
  rw [slice_succ, Nat.zero_add, Function.update_self, dataFrame, hbody]
  refine congrArg (· ++ _) (Eq.trans (slice_congr fun i hi => ?_) hbody)
  rw [Function.update_of_ne (by omega)]

section Upload
variable {σ : Type*} {env : Env σ} {Ok : σ → Prop} {content : σ → Mem} {lo hi : ℕ} {s : State σ}
  {recv : Mem} {m : Mem}

/-- The next `len` bytes to send are those at `addr` of the flash `m`. -/
structure Reading (env : Env σ) (Ok : σ → Prop) (content : σ → Mem) (lo hi : ℕ) (m : Mem)
    (addr len : ℕ) (s : State σ) : Prop where
  linked : s.linked = true
  hung : s.hung = false
  roomy : s.Roomy
  addr_eq : s.ldSet.curAddr = addr
  rest : s.restBytes = len
  size : s.upSize = upDataSize ∨ len < upDataSize
  ok : Ok s.dev
  content_eq : content s.dev = m
  inside : 0 < len → env.readBlLen ∣ addr ∧ lo ≤ addr / env.readBlLen ∧
    addr / env.readBlLen + blocksUp len env.readBlLen ≤ hi

theorem Reading.received {addr len : ℕ} (h : Reading env Ok content lo hi m addr len s)
    (recv : Mem) : Reading env Ok content lo hi m addr len (s.received recv) :=
  ⟨h.linked, h.hung, h.roomy, h.addr_eq, h.rest, h.size, h.ok, h.content_eq, h.inside⟩

theorem Reading.pieceSize_eq {addr len : ℕ} (h : Reading env Ok content lo hi m addr len s) :
    s.pieceSize = min len upDataSize := by
  unfold State.pieceSize
  rw [h.rest]
  rcases h.size with hsize | hlt
  · split_ifs
    · omega
    · rw [hsize]
      omega
  · rw [if_pos hlt]
    omega

/-- What lies behind a piece is inside too, if there is more. -/
theorem inside_next {addr len : ℕ} (hbl : 0 < env.readBlLen) (hdvd : env.readBlLen ∣ upDataSize)
    (h : env.readBlLen ∣ addr ∧ lo ≤ addr / env.readBlLen ∧
      addr / env.readBlLen + blocksUp len env.readBlLen ≤ hi)
    (hmore : 0 < len - min len upDataSize) :
    env.readBlLen ∣ addr + min len upDataSize ∧
      lo ≤ (addr + min len upDataSize) / env.readBlLen ∧
      (addr + min len upDataSize) / env.readBlLen +
        blocksUp (len - min len upDataSize) env.readBlLen ≤ hi := by
  have hmin : min len upDataSize = upDataSize := by omega
  obtain ⟨hdiv, hblocks, -⟩ := @block_bounds _ _ (min len upDataSize) (len - min len upDataSize) len
    hbl h.1 (by omega)
  refine ⟨Nat.dvd_add h.1 (by rw [hmin]; exact hdvd), ?_, by omega⟩
  rw [hdiv]
  exact h.2.1.trans (Nat.le_add_right _ _)

/-- A piece is read, and what is left is counted. -/
theorem Reading.piece {addr len : ℕ} (h : Reading env Ok content lo hi m addr len s)
    (hflat : FlatFlash env Ok content lo hi) (hdvd : env.readBlLen ∣ upDataSize) (hpos : 0 < len)
    (pk : Packet) :
    let r := uploadPiece env s pk
    Reading env Ok content lo hi m (addr + min len upDataSize) (len - min len upDataSize) r.1 ∧
      r.1.sent = s.sent ∧ (∃ d, r.2 = ⟨false, Cmd.data.id, min len upDataSize, d⟩) ∧
      slice r.1.up upExtraSize (min len upDataSize) = slice m addr (min len upDataSize) := by
  obtain ⟨haligned, hlo, hhi⟩ := h.inside hpos
  have hup : 0 < upDataSize := by decide
  have hbl : env.readBlLen ≤ upDataSize := Nat.le_of_dvd hup hdvd
  have hblocks : blocksUp (min len upDataSize) env.readBlLen ≤ blocksUp len env.readBlLen :=
    blocksUp_mono hflat.readBl_pos (min_le_left _ _)
  obtain ⟨hret, hok, hcontent, hbytes⟩ := @FlatFlash.flashexRead _ _ _ _ _ _ hflat _ h.ok
    addr (min len upDataSize) (by omega) hlo (by omega) (advance s.up upExtraSize)
  have hend : addr + len < 2 ^ 64 := by
    have hcover := le_blocksUp_mul len hflat.readBl_pos
    have haddr := Nat.div_mul_cancel haligned
    have hmul : (addr / env.readBlLen + blocksUp len env.readBlLen) * env.readBlLen ≤
        2 ^ 32 * 2 ^ 12 :=
      Nat.mul_le_mul (hhi.trans hflat.hi_lt.le) (hbl.trans (by decide))
    rw [Nat.add_mul, haddr] at hmul
    have hnum : 2 ^ 32 * 2 ^ 12 < 2 ^ 64 := by norm_num
    omega
  have hu16 : u16 (min len upDataSize) = min len upDataSize :=
    Nat.mod_eq_of_lt (lt_of_le_of_lt (min_le_right _ _) (by decide))
  unfold uploadPiece
  rw [h.pieceSize_eq, h.addr_eq, h.rest]
  dsimp only
  rw [if_pos hret, hu16]
  refine ⟨⟨h.linked, h.hung, h.roomy, ?_, ?_, ?_, hok, hcontent.trans h.content_eq,
    inside_next hflat.readBl_pos hdvd ⟨haligned, hlo, hhi⟩⟩, rfl, ⟨_, rfl⟩, ?_⟩
  · exact u64_of_lt (by omega)
  · exact if_pos (min_le_left _ _)
  · show min len upDataSize = upDataSize ∨ _
    omega
  · refine slice_congr fun i hi => ?_
    dsimp only
    rw [if_neg (by omega), Nat.add_sub_cancel_left, hbytes i hi, h.content_eq,
      Nat.div_mul_cancel haligned]

/-- The end of a turn that sends a piece. -/
theorem Reading.answer {addr len : ℕ} (h : Reading env Ok content lo hi m addr len s)
    (hflat : FlatFlash env Ok content lo hi) (hdvd : env.readBlLen ∣ upDataSize) (hpos : 0 < len)
    (pk : Packet) (e : ExpectInfo) :
    let r := uploadPiece env s pk
    let s' := finish env (answered (r.1.expect e, r.2))
    Reading env Ok content lo hi m (addr + min len upDataSize) (len - min len upDataSize) s' ∧
      s'.exp = e ∧ s'.sent = s.sent ++ [dataFrame (slice m addr (min len upDataSize))] := by
  obtain ⟨hreading, hsent, ⟨d, hpkt⟩, hslice⟩ := h.piece hflat hdvd hpos pk
  generalize uploadPiece env s pk = q at *
  obtain ⟨t, pk'⟩ := q
  dsimp only at *
  have hframe := handleToHost_data d t.up (n := min len upDataSize) (by
    have : min len upDataSize ≤ upDataSize := min_le_right _ _
    unfold upDataSize at *
    omega)
  rw [hslice] at hframe
  subst hpkt
  rw [finish_answered hreading.hung hreading.roomy rfl]
  refine ⟨⟨hreading.linked, hreading.hung, hreading.roomy, hreading.addr_eq, hreading.rest,
    hreading.size, hreading.ok, hreading.content_eq, hreading.inside⟩, rfl, ?_⟩
  exact congrArg₂ (fun l f => l ++ [f]) hsent hframe

theorem uploadPiece_exp (s : State σ) (pk : Packet) : (uploadPiece env s pk).1.exp = s.exp := by
  unfold uploadPiece
  dsimp only
  split_ifs
  · rfl
  · rfl

theorem loaderScheduler_success (h : Idle s) (hrecv : recv 0 = Cmd.success.id)
    (hrest : s.restBytes ≠ 0) : loaderScheduler env s recv = finish env (answered
      ((uploadPiece env (s.received recv) (s.payload recv)).1.expect s.exp,
        (uploadPiece env (s.received recv) (s.payload recv)).2)) := by
  have hexp : s.exp = (uploadPiece env (s.received recv) (s.payload recv)).1.exp :=
    (uploadPiece_exp (s.received recv) (s.payload recv)).symm
  have hrest' : (s.received recv).restBytes ≠ 0 := hrest
  rw [loaderScheduler_of_accepting (h.accepting recv), dispatch, dispatch_eq _ hrecv, hexp]
  dsimp only
  rw [success, if_pos hrest']
  rfl

/-- A packet is answered with the next piece. -/
theorem success_turn {addr len : ℕ} (h : Reading env Ok content lo hi m addr len s)
    (hflat : FlatFlash env Ok content lo hi) (hdvd : env.readBlLen ∣ upDataSize) (hpos : 0 < len)
    (hflag : s.exp.flag = false) (hrecv : recv 0 = Cmd.success.id) :
    let s' := loaderScheduler env s recv
    Reading env Ok content lo hi m (addr + min len upDataSize) (len - min len upDataSize) s' ∧
      s'.exp.flag = false ∧
      s'.sent = s.sent ++ [dataFrame (slice m addr (min len upDataSize))] := by
  have hidle : Idle s := ⟨h.linked, h.hung, hflag, h.roomy⟩
  have hrest : s.restBytes ≠ 0 := by
    rw [h.rest]
    exact hpos.ne'
  obtain ⟨hreading, he, hsent⟩ := (h.received recv).answer hflat hdvd hpos (s.payload recv) s.exp
  dsimp only
  rw [loaderScheduler_success hidle hrecv hrest]
  exact ⟨hreading, by rw [he]; exact hflag, hsent⟩

/-- When all is sent nothing is answered. -/
theorem success_end {addr : ℕ} (h : Reading env Ok content lo hi m addr 0 s)
    (hflag : s.exp.flag = false) (hrecv : recv 0 = Cmd.success.id) :
    (loaderScheduler env s recv).hung = false ∧ (loaderScheduler env s recv).sent = s.sent := by
  have hidle : Idle s := ⟨h.linked, h.hung, hflag, h.roomy⟩
  have hrest : ¬ (s.received recv).restBytes ≠ 0 := not_not_intro (h.received recv).rest
  rw [loaderScheduler_of_accepting (hidle.accepting recv), dispatch, dispatch_eq _ hrecv]
  dsimp only
  have h' := h.received recv
  rw [success, if_neg hrest, finish_silent h'.hung h'.roomy]
  exact ⟨h.hung, rfl⟩

/-- The packets after the first one are answered with the rest of the pieces, and the last one
with nothing. -/
theorem Reading.run {addr len : ℕ} (h : Reading env Ok content lo hi m addr len s)
    (hflat : FlatFlash env Ok content lo hi) (hdvd : env.readBlLen ∣ upDataSize)
    (hflag : s.exp.flag = false) {acks : List Mem} (hacks : ∀ ack ∈ acks, ack 0 = Cmd.success.id)
    (hlen : acks.length = (uploadPieces m addr len).length + 1) :
    ((loader env).run s acks).hung = false ∧
      ((loader env).run s acks).sent = s.sent ++ (uploadPieces m addr len).map dataFrame := by
  induction acks generalizing s addr len with
  | nil => exact absurd hlen (by simp)
  | cons ack acks ih =>
    have hack := hacks ack (List.mem_cons_self ..)
    rcases Nat.eq_zero_or_pos len with rfl | hpos
    · rw [uploadPieces_zero] at hlen ⊢
      have hnil : acks = [] := List.length_eq_zero_iff.mp (by simpa using hlen)
      rw [hnil, List.map_nil, List.append_nil]
      exact success_end h hflag hack
    · obtain ⟨hnext, hflag', hsent⟩ := success_turn h hflat hdvd hpos hflag hack
      rw [uploadPieces_pos m addr hpos] at hlen ⊢
      obtain ⟨hhung, hrest⟩ := ih hnext hflag' (fun ack h => hacks ack (List.mem_cons_of_mem _ h))
        (by simpa using hlen)
      rw [hsent, List.append_assoc] at hrest
      exact ⟨hhung, hrest⟩

/-- The number in a `CMD_RVRS_DWNLD` or `CMD_UPLD_DATA_SIZE` packet. -/
def uploadArg (recv : Mem) : ℕ := bigEndianVal (advance recv 1)

/-- An upload from `addr` is announced, and `rest` is what `rest_bytes` happens to hold. -/
structure Aimed (addr rest : ℕ) (dev : σ) (s : State σ) : Prop where
  linked : s.linked = true
  hung : s.hung = false
  exp : s.exp.flag = true ∧ s.exp.cmdId = Cmd.upldDataSize.id
  roomy : s.Roomy
  addr_eq : s.ldSet.curAddr = addr
  rest_eq : s.restBytes = rest
  size : s.upSize = upDataSize
  dev_eq : s.dev = dev

theorem rvrsDwnld_turn (h : Idle s) (hrecv : recv 0 = Cmd.rvrsDwnld.id) :
    Aimed (uploadArg recv) s.restBytes s.dev (loaderScheduler env s recv) := by
  have hcmd : dispatch env (s.received recv) (s.payload recv) =
      answered (rvrsDwnld (s.received recv) (s.payload recv)) := by
    rw [dispatch, dispatch_eq _ hrecv]
  have haddr : bigEndianVal (s.payload recv).data = uploadArg recv := by
    rw [payload_data hrecv (by decide), uploadArg]
  rw [rvrsDwnld, haddr] at hcmd
  obtain ⟨up, sent, hturn⟩ := @loaderScheduler_answered _ env _ _ (h.accepting recv) _ hcmd h.hung
    h.roomy rfl
  rw [hturn]
  exact ⟨h.linked, h.hung, ⟨rfl, rfl⟩, h.roomy, rfl, rfl, rfl, rfl⟩

theorem Aimed.received {addr rest : ℕ} {dev : σ} (h : Aimed addr rest dev s) (recv : Mem) :
    Aimed addr rest dev (s.received recv) :=
  ⟨h.linked, h.hung, h.exp, h.roomy, h.addr_eq, h.rest_eq, h.size, h.dev_eq⟩

/-- The length is right if the half of `rest_bytes` that is not written is zero. -/
theorem Aimed.sized {addr rest len : ℕ} {dev : σ} (h : Aimed addr rest dev s)
    (hrest : rest < 2 ^ 32) (hok : Ok dev)
    (hinside : env.readBlLen ∣ addr ∧ lo ≤ addr / env.readBlLen ∧
      addr / env.readBlLen + blocksUp len env.readBlLen ≤ hi) :
    Reading env Ok content lo hi (content dev) addr len (s.setUploadSize len) := by
  refine ⟨h.linked, h.hung, h.roomy, h.addr_eq, ?_, .inl h.size, ?_, ?_, fun _ => hinside⟩
  · show s.restBytes / 2 ^ 32 * 2 ^ 32 + len = len
    rw [h.rest_eq, Nat.div_eq_of_lt hrest, Nat.zero_mul, Nat.zero_add]
  · exact h.dev_eq ▸ hok
  · exact congrArg content h.dev_eq

/-- The first piece is sent at once. -/
theorem Aimed.answer {addr rest len : ℕ} {dev : σ} (h : Aimed addr rest dev s)
    (hflat : FlatFlash env Ok content lo hi) (hdvd : env.readBlLen ∣ upDataSize) (hok : Ok dev)
    (hrest : rest < 2 ^ 32) {pk : Packet} (hval : bigEndianVal pk.data = len) (hpos : 0 < len)
    (hinside : env.readBlLen ∣ addr ∧ lo ≤ addr / env.readBlLen ∧
      addr / env.readBlLen + blocksUp len env.readBlLen ≤ hi) :
    let m := content dev
    let s' := finish env (answered (upldDataSize env s pk))
    Reading env Ok content lo hi m (addr + min len upDataSize) (len - min len upDataSize) s' ∧
      s'.exp.flag = false ∧
      s'.sent = s.sent ++ [dataFrame (slice m addr (min len upDataSize))] := by
  have hreading := @Aimed.sized _ env _ content _ _ _ _ _ _ _ h hrest hok hinside
  obtain ⟨hnext, hexp, hsent⟩ := hreading.answer hflat hdvd hpos pk
    (uploadPiece env (s.setUploadSize len) pk).1.exp.reset
  rw [upldDataSize, hval]
  exact ⟨hnext, by rw [hexp]; rfl, hsent⟩

theorem upldDataSize_turn {addr rest : ℕ} {dev : σ} (h : Aimed addr rest dev s)
    (hrecv : recv 0 = Cmd.upldDataSize.id) :
    loaderScheduler env s recv =
      finish env (answered (upldDataSize env (s.received recv) (s.payload recv))) ∧
      bigEndianVal (s.payload recv).data = uploadArg recv := by
  rw [loaderScheduler_of_accepting ⟨h.linked, h.hung, fun _ => hrecv.trans h.exp.2.symm⟩, dispatch,
    dispatch_eq _ hrecv, payload_data hrecv (by decide), uploadArg]
  exact ⟨rfl, rfl⟩

/-- The loader has more than `n` whole pieces left to send, and `sent` frames are sent. -/
structure Overrun (n sent : ℕ) (s : State σ) : Prop where
  linked : s.linked = true
  hung : s.hung = false
  roomy : s.Roomy
  rest : upDataSize * (n + 1) ≤ s.restBytes
  size : s.upSize = upDataSize
  sent_eq : s.sent.length = sent

/-- A whole piece is sent, unless the flash ends there. -/
theorem Overrun.answer {n sent : ℕ} (h : Overrun (n + 1) sent s) (pk : Packet) (e : ExpectInfo) :
    let r := uploadPiece env s pk
    let s' := finish env (answered (r.1.expect e, r.2))
    s'.hung = true ∨ Overrun n (sent + 1) s' ∧ s'.exp = e := by
  have hpiece : s.pieceSize = upDataSize := by
    have := h.rest
    rw [State.pieceSize, if_neg (by rw [Nat.mul_add] at this; omega), h.size]
  have hrest : upDataSize * (n + 1) ≤ sub64 s.restBytes upDataSize := by
    have := h.rest
    rw [Nat.mul_succ upDataSize (n + 1)] at this
    rw [sub64, if_pos (by omega)]
    omega
  unfold uploadPiece
  rw [hpiece]
  dsimp only
  split_ifs with hret
  · refine .inr ?_
    rw [finish_answered h.hung h.roomy rfl]
    refine ⟨⟨h.linked, h.hung, h.roomy, hrest, rfl, ?_⟩, rfl⟩
    rw [List.length_append, List.length_singleton]
    exact congrArg (· + 1) h.sent_eq
  · exact .inl rfl

/-- Every packet is answered with a frame, unless the loader hangs. -/
theorem Overrun.run {n sent : ℕ} (h : Overrun n sent s) (hflag : s.exp.flag = false)
    {acks : List Mem} (hacks : ∀ ack ∈ acks, ack 0 = Cmd.success.id) (hlen : acks.length = n) :
    ((loader env).run s acks).hung = true ∨
      ((loader env).run s acks).sent.length = sent + n := by
  induction acks generalizing s n sent with
  | nil =>
    subst hlen
    exact .inr h.sent_eq
  | cons ack acks ih =>
    obtain ⟨n, rfl⟩ : ∃ k, n = k + 1 := ⟨acks.length, hlen.symm⟩
    have hack := hacks ack (List.mem_cons_self ..)
    have hidle : Idle s := ⟨h.linked, h.hung, hflag, h.roomy⟩
    have hreceived : Overrun (n + 1) sent (s.received ack) :=
      ⟨h.linked, h.hung, h.roomy, h.rest, h.size, h.sent_eq⟩
    have hrest : s.restBytes ≠ 0 := by
      have hpos : 0 < upDataSize * (n + 1 + 1) := Nat.mul_pos (by decide) (by omega)
      have := h.rest
      omega
    have hturn := @loaderScheduler_success _ env _ _ hidle hack hrest
    rw [loader_run_cons]
    rcases @Overrun.answer _ env _ _ _ hreceived (s.payload ack) s.exp with hhung | ⟨hnext, hexp⟩
    · rw [← hturn] at hhung
      exact .inl ((congrArg State.hung (run_hung hhung acks)).trans hhung)
    · rw [← hturn] at hnext hexp
      have hrun := ih hnext (by rw [hexp]; exact hflag)
        (fun ack h => hacks ack (List.mem_cons_of_mem _ h)) (by simpa using hlen)
      rwa [Nat.add_assoc, Nat.add_comm 1 n] at hrun

theorem Aimed.overrun {addr rest len : ℕ} {dev : σ} (h : Aimed addr rest dev s)
    (hrest : 2 ^ 32 ≤ rest) :
    Overrun (blocksUp len upDataSize + 1) s.sent.length (s.setUploadSize len) := by
  refine ⟨h.linked, h.hung, h.roomy, ?_, h.size, rfl⟩
  have hblocks := @blocksUp_mul_lt len upDataSize (by decide)
  have hhigh : 1 ≤ rest / 2 ^ 32 := (Nat.one_le_div_iff (by norm_num)).mpr hrest
  show upDataSize * (blocksUp len upDataSize + 1 + 1) ≤ s.restBytes / 2 ^ 32 * 2 ^ 32 + len
  rw [h.rest_eq, Nat.mul_comm]
  unfold upDataSize at *
  omega

theorem Aimed.overrun_answer {addr rest len : ℕ} {dev : σ} (h : Aimed addr rest dev s)
    (hrest : 2 ^ 32 ≤ rest) {pk : Packet} (hval : bigEndianVal pk.data = len) :
    let s' := finish env (answered (upldDataSize env s pk))
    s'.hung = true ∨
      Overrun (blocksUp len upDataSize) (s.sent.length + 1) s' ∧ s'.exp.flag = false := by
  rcases @Overrun.answer _ env _ _ _ (@Aimed.overrun _ _ _ _ len _ h hrest) pk
    (uploadPiece env (s.setUploadSize len) pk).1.exp.reset with hhung | ⟨hnext, hexp⟩
  · rw [upldDataSize, hval]
    exact .inl hhung
  · rw [upldDataSize, hval]
    exact .inr ⟨hnext, by rw [hexp]; rfl⟩

/-- The packets that are sent after the answer to the first command are the flash's bytes,
however the acknowledgements look like, one for each of them. -/
def UploadCorrect (env : Env σ) (content : σ → Mem) (s : State σ) (rv up : Mem) : Prop :=
  ∀ acks, (∀ ack ∈ acks, ack 0 = Cmd.success.id) →
    acks.length = (uploadPieces (content s.dev) (uploadArg rv) (uploadArg up)).length →
    let s₁ := loaderScheduler env s rv
    let s₂ := (loader env).run s₁ (up :: acks)
    s₂.hung = false ∧ s₂.sent = s₁.sent ++
      (uploadPieces (content s.dev) (uploadArg rv) (uploadArg up)).map dataFrame

theorem uploadCorrect_of_small (h : Idle s) (hflat : FlatFlash env Ok content lo hi)
    (hdvd : env.readBlLen ∣ upDataSize) (hok : Ok s.dev) {rv up : Mem}
    (hrv : rv 0 = Cmd.rvrsDwnld.id) (hup : up 0 = Cmd.upldDataSize.id) (hpos : 0 < uploadArg up)
    (hinside : env.readBlLen ∣ uploadArg rv ∧ lo ≤ uploadArg rv / env.readBlLen ∧
      uploadArg rv / env.readBlLen + blocksUp (uploadArg up) env.readBlLen ≤ hi)
    (hrest : s.restBytes < 2 ^ 32) : UploadCorrect env content s rv up := by
  intro acks hacks hlen
  have haimed := @rvrsDwnld_turn _ env _ _ h hrv
  dsimp only
  generalize loaderScheduler env s rv = s₁ at haimed ⊢
  obtain ⟨hturn, hval⟩ := @upldDataSize_turn _ env _ _ _ _ _ haimed hup
  generalize uploadArg rv = addr at *
  generalize uploadArg up = len at *
  obtain ⟨hreading, hflag, hsent⟩ := (haimed.received up).answer hflat hdvd hok hrest hval hpos
    hinside
  rw [← hturn] at hreading hflag hsent
  rw [State.received_sent] at hsent
  rw [uploadPieces_pos _ _ hpos, List.length_cons] at hlen
  rw [uploadPieces_pos _ _ hpos, List.map_cons, loader_run_cons]
  obtain ⟨hhung, hpieces⟩ := hreading.run hflat hdvd hflag hacks hlen
  rw [hsent, List.append_assoc, List.singleton_append] at hpieces
  exact ⟨hhung, hpieces⟩

theorem small_of_uploadCorrect (h : Idle s) {rv up : Mem}
    (hrv : rv 0 = Cmd.rvrsDwnld.id) (hup : up 0 = Cmd.upldDataSize.id)
    (hcorrect : UploadCorrect env content s rv up) : s.restBytes < 2 ^ 32 := by
  by_contra hlarge
  have haimed := @rvrsDwnld_turn _ env _ _ h hrv
  obtain ⟨hturn, hval⟩ := @upldDataSize_turn _ env _ _ _ _ _ haimed hup
  obtain ⟨acks, hacks, hlen⟩ : ∃ acks : List Mem, (∀ ack ∈ acks, ack 0 = Cmd.success.id) ∧
      acks.length = (uploadPieces (content s.dev) (uploadArg rv) (uploadArg up)).length :=
    ⟨List.replicate _ fun _ => Cmd.success.id,
      fun ack hack => by rw [List.eq_of_mem_replicate hack], List.length_replicate ..⟩
  obtain ⟨hhung, hsent⟩ := hcorrect acks hacks hlen
  rw [loader_run_cons] at hhung hsent
  have hlength := congrArg List.length hsent
  rw [List.length_append, List.length_map] at hlength
  rcases @Aimed.overrun_answer _ env _ _ _ _ _ (haimed.received up) (Nat.not_lt.mp hlarge) _ hval
    with hstop | ⟨hnext, hflag⟩
  · rw [← hturn] at hstop
    have hend := (congrArg State.hung (run_hung hstop _)).symm.trans hhung
    exact absurd (hstop.symm.trans hend) (by decide)
  · rw [← hturn, State.received_sent] at hnext
    rw [← hturn] at hflag
    rcases hnext.run hflag hacks (hlen.trans (length_uploadPieces _ _ _)) with hstop | hframes
    · exact absurd (hstop.symm.trans hhung) (by decide)
    · have hframes' := hframes.symm.trans hlength
      rw [length_uploadPieces] at hframes'
      omega

/-- After any history an upload from a block border is right exactly if the high half of
`rest_bytes`, which no upload sets, is zero. -/
theorem upload_correct_iff (cmdId : UInt8) (ldSet : LoaderSet) (dev : σ) (history : List Mem)
    (hflat : FlatFlash env Ok content lo hi) (hdvd : env.readBlLen ∣ upDataSize)
    (hs : s = (loader env).run (State.initial cmdId ldSet dev) history)
    (hlinked : s.linked = true) (hhung : s.hung = false) (hflag : s.exp.flag = false)
    (hok : Ok s.dev) {rv up : Mem} (hrv : rv 0 = Cmd.rvrsDwnld.id)
    (hup : up 0 = Cmd.upldDataSize.id) (hpos : 0 < uploadArg up)
    (hinside : env.readBlLen ∣ uploadArg rv ∧ lo ≤ uploadArg rv / env.readBlLen ∧
      uploadArg rv / env.readBlLen + blocksUp (uploadArg up) env.readBlLen ≤ hi) :
    UploadCorrect env content s rv up ↔ s.restBytes < 2 ^ 32 := by
  have hroom : s.Roomy := by
    rw [hs] at hhung ⊢
    exact run_roomy (fun hfull => hfull.1 rfl) hhung
  have hidle : Idle s := ⟨hlinked, hhung, hflag, hroom⟩
  exact ⟨small_of_uploadCorrect hidle hrv hup,
    uploadCorrect_of_small hidle hflat hdvd hok hrv hup hpos hinside⟩

/-- `CMD_ERASEFLASH` leaves the capacity in `rest_bytes`. -/
theorem eraseFlash_turn (h : Idle s) (hrecv : recv 0 = Cmd.eraseFlash.id)
    (herase : (env.erase 0 (rangeLen 0 env.capacity) s.dev).1 = true) :
    Idle (loaderScheduler env s recv) ∧
      (loaderScheduler env s recv).restBytes = rangeLen 0 env.capacity := by
  have hcmd : dispatch env (s.received recv) (s.payload recv) =
      answered (eraseFlash env (s.received recv)) := by
    rw [dispatch, dispatch_eq _ hrecv]
  have herase' : (env.erase 0 (rangeLen 0 env.capacity) (s.received recv).dev).1 = true := herase
  rw [eraseFlash] at hcmd
  dsimp only at hcmd
  rw [if_pos herase'] at hcmd
  generalize rangeLen 0 env.capacity = len at hcmd ⊢
  obtain ⟨up, sent, hturn⟩ := loaderScheduler_answered (h.accepting recv) hcmd h.hung h.roomy rfl
  rw [hturn]
  exact ⟨⟨h.linked, h.hung, rfl, h.roomy⟩, rfl⟩

end Upload

/-- A flash of `capacity` bytes in blocks of 512 bytes. -/
def wholeFlash (capacity : ℕ) : Env Mem := flatEnv false false 512 capacity

def freshState (capacity : ℕ) (history : List Mem) : State Mem :=
  (loader (wholeFlash capacity)).run (State.initial 0 LoaderSet.zero fun _ => 0)
    (linkPacket :: history)

theorem freshState_idle (capacity : ℕ) :
    Idle (freshState capacity []) ∧ (freshState capacity []).restBytes = 0 :=
  have h := @link_turn _ (wholeFlash capacity) (State.initial 0 LoaderSet.zero fun _ => 0) rfl rfl
    rfl (fun hfull => hfull.1 rfl)
  ⟨h.1.toIdle, h.2.2.2⟩

/-- 5000 bytes from address 1024 on, just after the link. -/
theorem upload_of_two_pieces :
    UploadCorrect (wholeFlash (2 ^ 21)) id (freshState (2 ^ 21) []) (ofList [0x0b, 0, 0, 4, 0])
      (ofList [0x27, 0, 0, 0x13, 0x88]) := by
  have hidle := freshState_idle (2 ^ 21)
  exact (@upload_correct_iff _ _ (fun _ => True) _ _ (2 ^ 12) _ 0 LoaderSet.zero (fun _ => 0)
    [linkPacket] (flatEnv_flat false false (by norm_num) (by norm_num) _ (by norm_num)) (by decide)
    rfl hidle.1.linked hidle.1.hung hidle.1.flag trivial _ _ rfl rfl (by decide) (by decide)).mpr
    (lt_of_eq_of_lt hidle.2 (by norm_num))

/-- One block after the erase of a card of 4 GiB. -/
theorem upload_after_erase :
    ¬ UploadCorrect (wholeFlash (2 ^ 32)) id (freshState (2 ^ 32) [ofList [0x10]])
      (ofList [0x0b, 0, 0, 0, 0]) (ofList [0x27, 0, 0, 2, 0]) := by
  intro hcorrect
  obtain ⟨hidle, hrest⟩ := @eraseFlash_turn _ (wholeFlash (2 ^ 32)) _ (ofList [0x10])
    (freshState_idle (2 ^ 32)).1 rfl rfl
  have hsmall := small_of_uploadCorrect hidle rfl rfl hcorrect
  rw [hrest] at hsmall
  exact absurd hsmall (by decide)

end UBoot.Loader
