import UBoot.Loader.Session

/-!
# A raw download

`is_zip` is 0. The packets are staged and flushed after a number of packets that fits the
staging buffer; the rest is written at the sync. What is kept on the flash between two
flushes is a parameter of the invariant, so that one induction shows both what goes right
and what goes wrong.
-/
namespace UBoot.Loader
open ByteStore

section Download
variable {σ : Type*} {env : Env σ} {s : State σ} {recv : Mem}

def State.ExpectsData (s : State σ) : Prop :=
  s.hung = false ∧ s.exp.flag = true ∧ s.exp.cmdId = Cmd.data.id

/-- The packet carries the bytes of the image from `off` on that the loader expects. -/
def Carries (img : Mem) (off : ℕ) (s : State σ) (recv : Mem) : Prop :=
  recv 0 = Cmd.data.id ∧ ∀ i < s.exp.size, recv (4 + i) = img (off + i)

/-- Packets sent one after the other while data is expected. -/
def DataRun (env : Env σ) (img : Mem) : ℕ → State σ → List Mem → Prop
  | _, _, [] => True
  | off, s, recv :: packets => s.ExpectsData ∧ Carries img off s recv ∧
    DataRun env img (off + s.exp.size) (loaderScheduler env s recv) packets

/-- The payload bytes received. -/
def receivedBytes (env : Env σ) : State σ → List Mem → ℕ
  | _, [] => 0
  | s, recv :: packets => s.exp.size + receivedBytes env (loaderScheduler env s recv) packets

/-- A session that takes exactly the image and stores it. -/
structure SessionCorrect (env : Env σ) (content : σ → Mem) (start len : ℕ) (s : State σ) :
    Prop where
  counts : ∀ img packets, DataRun env img 0 s packets →
    let s' := (loader env).run s packets
    receivedBytes env s packets ≤ len ∧
      (receivedBytes env s packets < len → s'.ExpectsData ∧ 0 < s'.exp.size) ∧
      (receivedBytes env s packets = len → s'.exp = ExpectInfo.expect defPackLen .dataSync)
  stores : ∀ img packets sync, DataRun env img 0 s packets → receivedBytes env s packets = len →
    sync 0 = Cmd.dataSync.id →
    let s' := loaderScheduler env ((loader env).run s packets) sync
    s'.hung = false ∧ ∀ i < len, content s'.dev (start + i) = img i

/-- The length of the payload is computed in 16 bits from the expected one. -/
theorem payload_size {e : ℕ} (he : e < 2 ^ 16) : sub16 (u16 (e + 5)) 5 = e := by
  unfold sub16 u16
  by_cases hfit : e + 5 < 2 ^ 16
  · rw [Nat.mod_eq_of_lt hfit, if_pos (by omega)]
    omega
  · rw [Nat.mod_eq_sub_mod (by omega), Nat.mod_eq_of_lt (by omega), if_neg (by omega)]
    omega

theorem flushFull_record (s : State σ) (op : Arith) (data : Mem) (len : ℕ) :
    ∃ ops, flushFull env (countData ((s.record op).stage data len)) =
      { flushFull env (countData (s.stage data len)) with ops := ops } := by
  unfold flushFull
  by_cases hfull : (countData (s.stage data len)).maxCnt ≠ 0 ∧
      (countData (s.stage data len)).maxCnt = (countData (s.stage data len)).threshold
  · rw [if_pos hfull]
    exact ⟨_, if_pos hfull⟩
  · rw [if_neg hfull]
    exact ⟨_, if_neg hfull⟩

/-- A packet of data that does not hang the loader is copied and counted, and then what has to
be written at once is written. -/
theorem finish_stageData {pk : Packet} {s' : State σ} {chunk : Option Chunk}
    (hdata : stageData s pk = (s', chunk)) (hhung : s'.hung = false)
    (hsync : (syncPending env (countData s') chunk).hung = false) :
    ∃ up sent ops, finish env (data env s pk) =
      { flushFull env (syncPending env (countData s') chunk) with
        up := up
        sent := sent
        ops := ops } := by
  have hcounted : (countData s').hung = false := hhung
  unfold finish data
  rw [hdata]
  simp only [hhung, hcounted, hsync, Bool.false_eq_true, if_false]
  generalize flushFull env (syncPending env (countData s') chunk) = u
  cases env.forceResp with
  | false => exact ⟨_, _, _, rfl⟩
  | true => exact ⟨_, _, _, rfl⟩

theorem finish_data {pk : Packet} (hzip : s.ldSet.isZip = 0) (hhung : s.hung = false) :
    ∃ up sent ops, finish env (data env s pk) =
      { flushFull env (countData (s.stage pk.data pk.dataSize)) with
        up := up
        sent := sent
        ops := ops } := by
  have hdata : stageData s pk = (s.stage pk.data pk.dataSize, none) := by
    rw [stageData, if_pos hzip]
  exact finish_stageData hdata hhung hhung

/-- A packet of a raw image is staged and counted, and the staging buffer is flushed when it
is full. -/
theorem data_turn (h : Accepting s recv) (hzip : s.ldSet.isZip = 0) (hrecv : recv 0 = Cmd.data.id)
    (hexp : s.exp.cmdId = Cmd.data.id) (hsize : s.exp.size < 2 ^ 16) :
    ∃ up sent ops, loaderScheduler env s recv =
      { flushFull env (countData (s.stage (advance recv 4) s.exp.size)) with
        up := up
        sent := sent
        ops := ops } := by
  have hpayload : s.payload recv = ⟨true, Cmd.data.id, s.exp.size, advance recv 4⟩ := by
    have hdown : s.downSize = s.exp.size + 5 := by
      rw [State.downSize, if_pos hexp]
      rfl
    rw [State.payload, hrecv, hdown, overhead, if_pos rfl]
    exact congrArg (fun n => (⟨true, Cmd.data.id, n, advance recv 4⟩ : Packet)) (payload_size hsize)
  obtain ⟨up, sent, ops, hfinish⟩ := @finish_data _ env (s.received recv)
    ⟨true, Cmd.data.id, s.exp.size, advance recv 4⟩ hzip h.hung
  obtain ⟨ops', hrecord⟩ := @flushFull_record _ env s
    (.subtract (u16 s.downSize) (overhead (recv 0))) (advance recv 4) s.exp.size
  rw [loaderScheduler_of_accepting h, hpayload, dispatch, Cmd.ofId_id]
  refine ⟨up, sent, ops, hfinish.trans ?_⟩
  dsimp only
  rw [State.received, hrecord]

/-- The bytes between two flushes, for packets of `size` bytes. -/
def Env.flushSize (env : Env σ) (size : ℕ) : ℕ := env.tmpBufSize / size * size

/-- A download of `len` bytes to `start` in packets of `size` bytes stays on the flash. -/
structure Fits (env : Env σ) (Ok : σ → Prop) (content : σ → Mem) (lo hi start len size : ℕ) :
    Prop where
  flat : FlatFlash env Ok content lo hi
  aligned : env.writeBlLen ∣ start
  lo_le : lo ≤ start / env.writeBlLen
  le_hi : start / env.writeBlLen + blocksUp len env.writeBlLen ≤ hi
  size_pos : 0 < size
  size_le : size ≤ env.tmpBufSize
  size_lt : size < 2 ^ 16

variable {Ok : σ → Prop} {content : σ → Mem} {lo hi start len size : ℕ} {img : Mem}
  {Kept : ℕ → Mem → Prop}

/-- The property `Kept n` of the flash after `n` flushes goes on to the next flush. -/
def KeptByFlush (env : Env σ) (img : Mem) (start len size : ℕ) (Kept : ℕ → Mem → Prop) : Prop :=
  ∀ n flash buf, Kept n flash → n * env.flushSize size < len →
    (∀ i < min (env.flushSize size) (len - n * env.flushSize size),
      buf i = img (n * env.flushSize size + i)) →
    Kept (n + 1) (overlay flash
      ((start + n * env.flushSize size) / env.writeBlLen * env.writeBlLen)
      (blocksUp (min (env.flushSize size) (len - n * env.flushSize size)) env.writeBlLen *
        env.writeBlLen) buf)

/-- Part way through: `off` bytes are received, `n` flushes done. -/
structure Staging (env : Env σ) (Ok : σ → Prop) (content : σ → Mem) (img : Mem)
    (start len size : ℕ) (Kept : ℕ → Mem → Prop) (off n : ℕ) (s : State σ) : Prop where
  linked : s.linked = true
  hung : s.hung = false
  zip : s.ldSet.isZip = 0
  maxCnt : s.maxCnt = env.tmpBufSize / size
  off_le : off ≤ len
  rest : s.restBytes = len - off
  exp : s.exp = if off < len then ExpectInfo.expect (min size (len - off)) .data
    else ExpectInfo.expect defPackLen .dataSync
  flushed : n * env.flushSize size ≤ off ∨ off = len
  count : off < len → s.threshold < env.tmpBufSize / size ∧
    off = n * env.flushSize size + s.threshold * size
  near : off ≤ (n + 1) * env.flushSize size
  staged : s.tmpSize = off - n * env.flushSize size
  bytes : ∀ i < s.tmpSize, s.tmp i = img (n * env.flushSize size + i)
  addr : s.ldSet.curAddr = start + min (n * env.flushSize size) off
  ok : Ok s.dev
  kept : Kept n (content s.dev)

theorem Fits.flushSize_le (h : Fits env Ok content lo hi start len size) :
    size ≤ env.flushSize size ∧ env.flushSize size ≤ env.tmpBufSize := by
  have hone : 1 ≤ env.tmpBufSize / size := (Nat.one_le_div_iff h.size_pos).mpr h.size_le
  exact ⟨Nat.le_mul_of_pos_left _ hone, Nat.div_mul_le_self _ _⟩

theorem Fits.end_lt (h : Fits env Ok content lo hi start len size) : start + len < 2 ^ 64 := by
  have hlen := le_blocksUp_mul len h.flat.writeBl_pos
  have hstart := Nat.div_mul_cancel h.aligned
  have hend : (start / env.writeBlLen + blocksUp len env.writeBlLen) * env.writeBlLen ≤
      (2 ^ 32 - 1) * (2 ^ 32 - 1) :=
    Nat.mul_le_mul (h.le_hi.trans (Nat.le_sub_one_of_lt h.flat.hi_lt))
      (Nat.le_sub_one_of_lt h.flat.writeBl_lt)
  rw [Nat.add_mul, hstart] at hend
  have hnum : (2 ^ 32 - 1) * (2 ^ 32 - 1) < 2 ^ 64 := by norm_num
  omega

/-- One flush in a download. -/
theorem Fits.flush (h : Fits env Ok content lo hi start len size)
    (hkept : KeptByFlush env img start len size Kept) {n : ℕ} {dev : σ} (hok : Ok dev)
    (hn : Kept n (content dev)) (hlt : n * env.flushSize size < len) {buf : Mem}
    (hbuf : ∀ i < min (env.flushSize size) (len - n * env.flushSize size),
      buf i = img (n * env.flushSize size + i)) :
    let r := env.flashexWrite (start + n * env.flushSize size) buf
      (min (env.flushSize size) (len - n * env.flushSize size)) dev
    r.1 = true ∧ Ok r.2 ∧ Kept (n + 1) (content r.2) := by
  have hsize := h.flushSize_le
  have hpos := h.size_pos
  obtain ⟨hdiv, hhi, -⟩ := @block_bounds _ _ (n * env.flushSize size)
    (min (env.flushSize size) (len - n * env.flushSize size)) len h.flat.writeBl_pos h.aligned
    (by omega)
  have hlo : lo ≤ (start + n * env.flushSize size) / env.writeBlLen := by
    rw [hdiv]
    exact h.lo_le.trans (Nat.le_add_right _ _)
  have hle := h.le_hi
  obtain ⟨hret, hok', hcontent⟩ := @FlatFlash.flashexWrite _ _ _ _ _ _ h.flat _ hok
    (start + n * env.flushSize size) (min (env.flushSize size) (len - n * env.flushSize size))
    (by omega) hlo (by omega) buf
  refine ⟨hret, hok', ?_⟩
  rw [hcontent]
  exact hkept n _ buf hn hlt hbuf

/-- The announced transfer, before its first packet. -/
theorem Announced.staging {dev : σ} (h : Announced env 0 start len size dev s)
    (hfits : Fits env Ok content lo hi start len size) (hle : size ≤ len) (hok : Ok dev)
    (hkept : Kept 0 (content dev)) :
    Staging env Ok content img start len size Kept 0 0 s := by
  have hpos := hfits.size_pos
  have hone : 1 ≤ env.tmpBufSize / size := (Nat.one_le_div_iff hpos).mpr hfits.size_le
  refine ⟨h.linked, h.hung, h.zip_eq, h.maxCnt, Nat.zero_le _, h.rest, ?_, .inl (by omega), ?_,
    Nat.zero_le _, by simpa using h.empty, ?_, by simpa using h.start_eq, h.dev_eq ▸ hok,
    h.dev_eq ▸ hkept⟩
  · rw [if_pos (by omega), h.exp, Nat.sub_zero, min_eq_left hle]
  · intro _
    rw [h.threshold]
    omega
  · intro i hi
    rw [h.empty] at hi
    omega

/-- What the loader knows while data is expected. -/
theorem Staging.expects {off n : ℕ} (h : Staging env Ok content img start len size Kept off n s)
    (hdata : s.ExpectsData) : off < len := by
  by_contra hnot
  have hcmd := hdata.2.2
  rw [h.exp, if_neg hnot] at hcmd
  exact absurd hcmd (by decide)

/-- Counting: what is left, and what is expected then. -/
theorem countData_eq {off : ℕ} (hexp : s.exp = ExpectInfo.expect (min size (len - off)) .data)
    (hrest : s.restBytes = len - off) (hoff : off < len) :
    let off' := off + min size (len - off)
    (countData s).restBytes = len - off' ∧ (countData s).exp =
      if off' < len then ExpectInfo.expect (min size (len - off')) .data
      else ExpectInfo.expect defPackLen .dataSync := by
  have hsize : s.exp.size = min size (len - off) := by rw [hexp]; rfl
  have hsub : sub64 s.restBytes s.exp.size = len - (off + min size (len - off)) := by
    rw [sub64, hrest, hsize, if_pos (min_le_right _ _)]
    omega
  refine ⟨hsub, ?_⟩
  unfold countData
  dsimp only
  rw [hsub, hsize]
  by_cases hend : off + min size (len - off) < len
  · rw [if_pos hend]
    by_cases hlast : len - (off + min size (len - off)) ≤ min size (len - off)
    · rw [if_pos hlast, if_neg (by omega), hexp,
        show min size (len - (off + min size (len - off))) = len - (off + min size (len - off))
          by omega]
      rfl
    · rw [if_neg hlast, hexp,
        show min size (len - (off + min size (len - off))) = min size (len - off) by omega]
  · rw [if_neg hend, if_pos (by omega), if_pos (by omega)]

/-- A packet that is staged, before the flush. -/
structure Staged (env : Env σ) (Ok : σ → Prop) (content : σ → Mem) (img : Mem)
    (start len size : ℕ) (Kept : ℕ → Mem → Prop) (off n : ℕ) (s : State σ) : Prop where
  linked : s.linked = true
  hung : s.hung = false
  zip : s.ldSet.isZip = 0
  maxCnt : s.maxCnt = env.tmpBufSize / size
  off_le : off ≤ len
  rest : s.restBytes = len - off
  exp : s.exp = if off < len then ExpectInfo.expect (min size (len - off)) .data
    else ExpectInfo.expect defPackLen .dataSync
  flushed : n * env.flushSize size < off
  count : 0 < s.threshold ∧ s.threshold ≤ env.tmpBufSize / size ∧
    off = min (n * env.flushSize size + s.threshold * size) len
  staged : s.tmpSize = off - n * env.flushSize size
  bytes : ∀ i < s.tmpSize, s.tmp i = img (n * env.flushSize size + i)
  addr : s.ldSet.curAddr = start + n * env.flushSize size
  ok : Ok s.dev
  kept : Kept n (content s.dev)

theorem Staging.stage {off n : ℕ} (h : Staging env Ok content img start len size Kept off n s)
    (hfits : Fits env Ok content lo hi start len size) (hoff : off < len)
    (hcarry : ∀ i < s.exp.size, recv (4 + i) = img (off + i)) :
    Staged env Ok content img start len size Kept (off + s.exp.size) n
      (countData (s.stage (advance recv 4) s.exp.size)) := by
  have hexp : s.exp = ExpectInfo.expect (min size (len - off)) .data := by
    rw [h.exp, if_pos hoff]
  have hsize : s.exp.size = min size (len - off) := by rw [hexp]; rfl
  obtain ⟨hcount, hlen⟩ := h.count hoff
  obtain ⟨hrest', hexp'⟩ := countData_eq (s := s.stage (advance recv 4) s.exp.size) hexp h.rest hoff
  rw [← hsize] at hrest' hexp'
  have hpos := hfits.size_pos
  have hnear := h.near
  have hflush := hfits.flushSize_le
  have htmp : env.tmpBufSize < 2 ^ 32 := by
    unfold Env.tmpBufSize
    split <;> norm_num
  have hmul : (s.threshold + 1) * size ≤ env.flushSize size := Nat.mul_le_mul_right size hcount
  rw [Nat.succ_mul] at hmul hnear
  have hstaged : u32 (s.tmpSize + s.exp.size) = off + s.exp.size - n * env.flushSize size := by
    rw [h.staged, hsize, u32_of_lt (by omega)]
    omega
  refine ⟨h.linked, h.hung, h.zip, h.maxCnt, by omega, hrest', hexp', by omega, ⟨Nat.succ_pos _,
    hcount, ?_⟩, hstaged, ?_, ?_, h.ok, h.kept⟩
  · show off + s.exp.size = min (n * env.flushSize size + (s.threshold + 1) * size) len
    rw [Nat.succ_mul]
    omega
  · intro i hi
    have hi' : i < off + s.exp.size - n * env.flushSize size := hstaged ▸ hi
    have hold := h.staged
    show overlay s.tmp s.tmpSize s.exp.size (advance recv 4) i = _
    by_cases hnew : s.tmpSize ≤ i
    · rw [overlay_of_mem _ _ hnew (by omega), advance_apply, hcarry _ (by omega)]
      exact congrArg img (by omega)
    · rw [overlay_of_not_mem _ _ (by omega)]
      exact h.bytes i (by omega)
  · show s.ldSet.curAddr = _
    rw [h.addr]
    omega

theorem Staged.full {off n : ℕ} (h : Staged env Ok content img start len size Kept off n s)
    (hfits : Fits env Ok content lo hi start len size)
    (hkept : KeptByFlush env img start len size Kept) :
    ∃ n', Staging env Ok content img start len size Kept off n' (flushFull env s) := by
  obtain ⟨hpos, hcount, hoff⟩ := h.count
  have hmul : s.threshold * size ≤ env.flushSize size := Nat.mul_le_mul_right size hcount
  have hnF := h.flushed
  by_cases hfull : s.maxCnt = s.threshold
  · have hF : env.flushSize size = s.threshold * size := by
      rw [Env.flushSize, ← h.maxCnt, hfull]
    have hstaged : s.tmpSize = min (env.flushSize size) (len - n * env.flushSize size) := by
      rw [h.staged]
      omega
    have hend := hfits.end_lt
    obtain ⟨-, hok, hkept'⟩ := hfits.flush hkept h.ok h.kept (by omega)
      (fun i hi => h.bytes i (hstaged ▸ hi))
    rw [← hstaged, ← h.addr] at hok hkept'
    refine ⟨n + 1, ?_⟩
    rw [flushFull, if_pos ⟨by omega, hfull⟩]
    have hsucc : (n + 1) * env.flushSize size = n * env.flushSize size + env.flushSize size :=
      Nat.succ_mul _ _
    have hnear : off ≤ (n + 1 + 1) * env.flushSize size := by
      rw [Nat.succ_mul]
      omega
    refine ⟨h.linked, h.hung, h.zip, h.maxCnt, h.off_le, h.rest, h.exp, by omega, ?_, hnear,
      ?_, fun i hi => absurd hi (Nat.not_lt_zero i), ?_, hok, hkept'⟩
    · intro hlt
      exact ⟨lt_of_lt_of_le hpos hcount, by show off = _ + 0 * size; omega⟩
    · show 0 = _
      omega
    · show u64 (s.ldSet.curAddr + s.tmpSize) = _
      have := h.off_le
      rw [h.addr, h.staged, u64_of_lt (by omega)]
      omega
  · refine ⟨n, ?_⟩
    rw [flushFull_of_roomy fun hnot => hfull hnot.2]
    have hsucc : (n + 1) * env.flushSize size = n * env.flushSize size + env.flushSize size :=
      Nat.succ_mul _ _
    have hmax := h.maxCnt
    refine ⟨h.linked, h.hung, h.zip, h.maxCnt, h.off_le, h.rest, h.exp, by omega,
      fun hlt => ⟨by omega, by omega⟩, by omega, h.staged, h.bytes, ?_, h.ok, h.kept⟩
    rw [h.addr]
    omega

/-- A packet of data takes the download on. -/
theorem Staging.step {off n : ℕ} (h : Staging env Ok content img start len size Kept off n s)
    (hfits : Fits env Ok content lo hi start len size)
    (hkept : KeptByFlush env img start len size Kept) (hoff : off < len)
    (hcarry : Carries img off s recv) : ∃ n',
    Staging env Ok content img start len size Kept (off + s.exp.size) n'
      (loaderScheduler env s recv) := by
  have hexp : s.exp = ExpectInfo.expect (min size (len - off)) .data := by
    rw [h.exp, if_pos hoff]
  have hlt := hfits.size_lt
  have hsize : s.exp.size = min size (len - off) := by rw [hexp]; rfl
  have hcmd : s.exp.cmdId = Cmd.data.id := by rw [hexp]; rfl
  obtain ⟨up, sent, ops, hturn⟩ := @data_turn _ env _ recv
    ⟨h.linked, h.hung, fun _ => hcarry.1.trans hcmd.symm⟩ h.zip hcarry.1 hcmd (by omega)
  obtain ⟨n', hstaging⟩ := (h.stage hfits hoff hcarry.2).full hfits hkept
  refine ⟨n', ?_⟩
  rw [hturn]
  generalize flushFull env (countData (s.stage (advance recv 4) s.exp.size)) = t at hstaging ⊢
  exact ⟨hstaging.linked, hstaging.hung, hstaging.zip, hstaging.maxCnt, hstaging.off_le,
    hstaging.rest, hstaging.exp, hstaging.flushed, hstaging.count, hstaging.near, hstaging.staged,
    hstaging.bytes, hstaging.addr, hstaging.ok, hstaging.kept⟩

/-- The packets of data up to any point. -/
theorem Staging.run {off n : ℕ} (h : Staging env Ok content img start len size Kept off n s)
    (hfits : Fits env Ok content lo hi start len size)
    (hkept : KeptByFlush env img start len size Kept) {packets : List Mem}
    (hrun : DataRun env img off s packets) : ∃ n',
    Staging env Ok content img start len size Kept (off + receivedBytes env s packets) n'
      ((loader env).run s packets) := by
  induction packets generalizing s off n with
  | nil => exact ⟨n, h⟩
  | cons recv packets ih =>
    obtain ⟨n', hstep⟩ := h.step hfits hkept (h.expects hrun.1) hrun.2.1
    rw [receivedBytes, ← Nat.add_assoc]
    exact ih hstep hrun.2.2

theorem dataSync_state (hret : (env.flashexWrite s.ldSet.curAddr s.tmp s.tmpSize s.dev).1 = true) :
    (dataSync env s).1.hung = s.hung ∧ (dataSync env s).1.Roomy ∧
      (dataSync env s).1.dev = (env.flashexWrite s.ldSet.curAddr s.tmp s.tmpSize s.dev).2 := by
  rw [dataSync]
  dsimp only
  rw [if_pos hret]
  exact ⟨rfl, fun hfull => hfull.1 hfull.2, rfl⟩

/-- The sync writes what is left. -/
theorem Staging.sync {n : ℕ} (h : Staging env Ok content img start len size Kept len n s)
    (hfits : Fits env Ok content lo hi start len size)
    (hkept : KeptByFlush env img start len size Kept) (hrecv : recv 0 = Cmd.dataSync.id) :
    (loaderScheduler env s recv).hung = false ∧ ∃ n', len ≤ n' * env.flushSize size ∧
      Kept n' (content (loaderScheduler env s recv).dev) := by
  have hwrite : let r := env.flashexWrite s.ldSet.curAddr s.tmp s.tmpSize s.dev
      r.1 = true ∧ ∃ n', len ≤ n' * env.flushSize size ∧ Kept n' (content r.2) := by
    by_cases hlt : n * env.flushSize size < len
    · have hnear := h.near
      have hsucc : (n + 1) * env.flushSize size = n * env.flushSize size + env.flushSize size :=
        Nat.succ_mul _ _
      have hstaged : s.tmpSize = min (env.flushSize size) (len - n * env.flushSize size) := by
        rw [h.staged]
        omega
      have haddr : s.ldSet.curAddr = start + n * env.flushSize size := by
        rw [h.addr, min_eq_left hlt.le]
      obtain ⟨hret, -, hlast⟩ := hfits.flush hkept h.ok h.kept hlt
        (fun i hi => h.bytes i (hstaged ▸ hi))
      rw [← hstaged, ← haddr] at hret hlast
      exact ⟨hret, n + 1, hnear, hlast⟩
    · have hzero : s.tmpSize = 0 := by
        rw [h.staged]
        omega
      rw [Env.flashexWrite, if_pos hzero]
      exact ⟨rfl, n, by omega, h.kept⟩
  have hexp : s.exp.cmdId = Cmd.dataSync.id := by
    rw [h.exp, if_neg (lt_irrefl _)]
    rfl
  obtain ⟨hhung, hroom, hdev⟩ := @dataSync_state _ env (s.received recv) hwrite.1
  obtain ⟨up, sent, hturn⟩ := @loaderScheduler_answered _ env _ recv
    ⟨h.linked, h.hung, fun _ => hrecv.trans hexp.symm⟩ (dataSync env (s.received recv))
    (by rw [dispatch, dispatch_eq _ hrecv]) (hhung.trans h.hung) hroom rfl
  rw [hturn]
  refine ⟨hhung.trans h.hung, ?_⟩
  obtain ⟨n', hlen, hcontent⟩ := hwrite.2
  exact ⟨n', hlen, hdev ▸ hcontent⟩

/-- A packet with the bytes of the image from `off` on. -/
def dataPacket (img : Mem) (off : ℕ) : Mem := fun i =>
  if i = 0 then Cmd.data.id else img (off + (i - 4))

/-- A packet that ends a download. -/
def dataSyncPacket : Mem := fun _ => Cmd.dataSync.id

theorem dataPacket_carries (img : Mem) (off : ℕ) (s : State σ) :
    Carries img off s (dataPacket img off) :=
  ⟨rfl, fun i _ => by
    rw [dataPacket, if_neg (by omega)]
    exact congrArg (fun j => img (off + j)) (Nat.add_sub_cancel_left 4 i)⟩

/-- A download can be completed from any point. -/
theorem Staging.complete {off n : ℕ} (h : Staging env Ok content img start len size Kept off n s)
    (hfits : Fits env Ok content lo hi start len size)
    (hkept : KeptByFlush env img start len size Kept) :
    ∃ packets, DataRun env img off s packets ∧ off + receivedBytes env s packets = len := by
  induction hleft : len - off using Nat.strong_induction_on generalizing s off n with
  | _ left ih =>
    have hle := h.off_le
    by_cases hoff : off < len
    · have hexp : s.exp = ExpectInfo.expect (min size (len - off)) .data := by
        rw [h.exp, if_pos hoff]
      have hsize : s.exp.size = min size (len - off) := by rw [hexp]; rfl
      have hpos := hfits.size_pos
      have hcarry := dataPacket_carries img off s
      obtain ⟨n', hstep⟩ := h.step hfits hkept hoff hcarry
      obtain ⟨packets, hrun, hreceived⟩ := ih (len - (off + s.exp.size)) (by omega) hstep rfl
      refine ⟨dataPacket img off :: packets, ⟨⟨h.hung, ?_, ?_⟩, hcarry, hrun⟩, ?_⟩
      · rw [hexp]
        rfl
      · rw [hexp]
        rfl
      · rw [receivedBytes, ← Nat.add_assoc]
        exact hreceived
    · exact ⟨[], trivial, by rw [receivedBytes]; omega⟩

/-- Flushes of whole blocks, or a single one, keep the image. -/
theorem keptByFlush_image (hbl : 0 < env.writeBlLen) (hstart : env.writeBlLen ∣ start)
    (hwhole : env.writeBlLen ∣ env.flushSize size ∨ len ≤ env.flushSize size) :
    KeptByFlush env img start len size fun n flash =>
      ∀ i < min (n * env.flushSize size) len, flash (start + i) = img i := by
  intro n flash buf hold hlt hbuf i hi
  have hpos : env.writeBlLen ∣ start + n * env.flushSize size := by
    rcases hwhole with hdvd | hone
    · exact Nat.dvd_add hstart (hdvd.mul_left n)
    · have hn : n = 0 := by
        by_contra hn
        have := Nat.le_mul_of_pos_left (env.flushSize size) (Nat.pos_of_ne_zero hn)
        omega
      rw [hn, Nat.zero_mul, Nat.add_zero]
      exact hstart
  rw [Nat.div_mul_cancel hpos]
  rw [Nat.succ_mul] at hi
  have hcover := le_blocksUp_mul (min (env.flushSize size) (len - n * env.flushSize size)) hbl
  by_cases hnew : n * env.flushSize size ≤ i
  · rw [overlay_of_mem _ _ (by omega) (by omega),
      show start + i - (start + n * env.flushSize size) = i - n * env.flushSize size by omega,
      hbuf _ (by omega)]
    exact congrArg img (by omega)
  · rw [overlay_of_not_mem _ _ (by omega)]
    exact hold i (by omega)

/-- A flush that starts off a block border is written to the border below, and the blocks of
the next one, if there is one, begin on a border. -/
theorem keptByFlush_mark (hstart : env.writeBlLen ∣ start) {k : ℕ} (hbl : 0 < env.writeBlLen)
    (hk : k * env.flushSize size < len)
    (hlast : len ≤ (k + 1) * env.flushSize size ∨
      env.writeBlLen ∣ (k + 1) * env.flushSize size ∧ len ≤ (k + 2) * env.flushSize size) :
    KeptByFlush env img start len size fun n flash => k < n →
      flash (start + (k * env.flushSize size - k * env.flushSize size % env.writeBlLen)) =
        img (k * env.flushSize size) := by
  intro n flash buf hold hlt hbuf hkn
  rcases Nat.lt_succ_iff_lt_or_eq.mp hkn with hless | rfl
  · have hmono : (k + 1) * env.flushSize size ≤ n * env.flushSize size :=
      Nat.mul_le_mul_right _ hless
    rcases hlast with hend | ⟨hdvd, hend⟩
    · omega
    have hn : n = k + 1 := by
      by_contra hne
      have : (k + 2) * env.flushSize size ≤ n * env.flushSize size :=
        Nat.mul_le_mul_right _ (by omega)
      omega
    subst hn
    rw [Nat.div_mul_cancel (Nat.dvd_add hstart hdvd)]
    have hsucc : (k + 1) * env.flushSize size = k * env.flushSize size + env.flushSize size :=
      Nat.succ_mul _ _
    have hF : 0 < env.flushSize size := by
      by_contra hzero
      rw [Nat.eq_zero_of_not_pos hzero, Nat.mul_zero] at hend
      omega
    rw [overlay_of_not_mem _ _ (by omega)]
    exact hold hless
  · have hsize : 0 < min (env.flushSize size) (len - k * env.flushSize size) := by
      have hsucc : (k + 1) * env.flushSize size = k * env.flushSize size + env.flushSize size :=
        Nat.succ_mul _ _
      have hsucc' : (k + 2) * env.flushSize size =
          k * env.flushSize size + env.flushSize size + env.flushSize size := by ring
      omega
    have hcover := le_blocksUp_mul (min (env.flushSize size) (len - k * env.flushSize size)) hbl
    obtain ⟨-, -, hpos⟩ := @block_bounds _ _ (k * env.flushSize size) 0 len
      hbl hstart (by omega)
    rw [hpos, overlay_of_mem _ _ (le_refl _) (by omega), Nat.sub_self, hbuf 0 hsize, Nat.add_zero]

/-- A download of more than one flush that does not keep to whole blocks: an image of which
the last byte before a border is overwritten. -/
theorem exists_lost (hstart : env.writeBlLen ∣ start) (hbl : 0 < env.writeBlLen)
    (hpart : ¬ env.writeBlLen ∣ env.flushSize size) (hmore : env.flushSize size < len)
    (hF : 0 < env.flushSize size) :
    ∃ img Kept, KeptByFlush env img start len size Kept ∧ (∀ flash, Kept 0 flash) ∧
      ∀ n flash, len ≤ n * env.flushSize size → Kept n flash →
        ∃ i < len, flash (start + i) ≠ img i := by
  -- the last flush that starts off a border
  obtain ⟨k, hk, hoff, hlast⟩ : ∃ k, k * env.flushSize size < len ∧
      ¬ env.writeBlLen ∣ k * env.flushSize size ∧
      (len ≤ (k + 1) * env.flushSize size ∨
        env.writeBlLen ∣ (k + 1) * env.flushSize size ∧ len ≤ (k + 2) * env.flushSize size) := by
    obtain ⟨m, hm, hend⟩ : ∃ m, m * env.flushSize size < len ∧
        len ≤ (m + 1) * env.flushSize size := by
      have hdiv := Nat.div_add_mod (len - 1) (env.flushSize size)
      have hmod := Nat.mod_lt (len - 1) hF
      rw [Nat.mul_comm] at hdiv
      exact ⟨(len - 1) / env.flushSize size, by omega, by rw [Nat.succ_mul]; omega⟩
    by_cases hdvd : env.writeBlLen ∣ m * env.flushSize size
    · cases m with
      | zero => omega
      | succ m =>
        have hsucc : (m + 1) * env.flushSize size = m * env.flushSize size + env.flushSize size :=
          Nat.succ_mul _ _
        refine ⟨m, by omega, fun hprev => hpart ?_, .inr ⟨hdvd, hend⟩⟩
        rw [hsucc] at hdvd
        exact (Nat.dvd_add_right hprev).mp hdvd
    · exact ⟨m, hm, hdvd, .inl hend⟩
  have hmod := Nat.mod_lt (k * env.flushSize size) hbl
  have hne : k * env.flushSize size % env.writeBlLen ≠ 0 :=
    fun hzero => hoff (Nat.dvd_of_mod_eq_zero hzero)
  have hmodle := Nat.mod_le (k * env.flushSize size) env.writeBlLen
  refine ⟨fun i => if i = k * env.flushSize size then 1 else 0, _,
    keptByFlush_mark hstart hbl hk hlast, fun flash hnot => absurd hnot (Nat.not_lt_zero k), ?_⟩
  intro n flash hend hkept
  have hkn : k < n := by
    by_contra hnot
    have := Nat.mul_le_mul_right (env.flushSize size) (Nat.not_lt.mp hnot)
    omega
  refine ⟨k * env.flushSize size - k * env.flushSize size % env.writeBlLen, by omega, ?_⟩
  rw [hkept hkn, if_pos rfl]
  dsimp only
  rw [if_neg (by omega)]
  decide

theorem Staging.counts {off n : ℕ}
    (h : Staging env Ok content img start len size Kept off n s)
    (hfits : Fits env Ok content lo hi start len size) :
    off ≤ len ∧ (off < len → s.ExpectsData ∧ 0 < s.exp.size) ∧
      (off = len → s.exp = ExpectInfo.expect defPackLen .dataSync) := by
  refine ⟨h.off_le, fun hlt => ?_, fun hend => by rw [h.exp, if_neg (by omega)]⟩
  have hexp : s.exp = ExpectInfo.expect (min size (len - off)) .data := by
    rw [h.exp, if_pos hlt]
  have hpos := hfits.size_pos
  refine ⟨⟨h.hung, by rw [hexp]; rfl, by rw [hexp]; rfl⟩, ?_⟩
  rw [hexp]
  show 0 < min size (len - off)
  omega

theorem Announced.correct {dev : σ} (h : Announced env 0 start len size dev s)
    (hfits : Fits env Ok content lo hi start len size) (hok : Ok dev) (hle : size ≤ len)
    (hwhole : env.writeBlLen ∣ env.flushSize size ∨ len ≤ env.flushSize size) :
    SessionCorrect env content start len s := by
  have hkept := fun img => @keptByFlush_image _ _ _ _ _ img hfits.flat.writeBl_pos hfits.aligned
    hwhole
  have hstaging := fun img => @Announced.staging _ _ _ _ _ _ _ _ _ _ img
    (fun n flash => ∀ i < min (n * env.flushSize size) len, flash (start + i) = img i) _ h hfits
    hle hok (fun i hi => absurd hi (by omega))
  refine ⟨fun img packets hrun => ?_, fun img packets sync hrun hend hsync => ?_⟩
  · obtain ⟨n, hn⟩ := (hstaging img).run hfits (hkept img) hrun
    rw [Nat.zero_add] at hn
    exact hn.counts hfits
  · obtain ⟨n, hn⟩ := (hstaging img).run hfits (hkept img) hrun
    rw [Nat.zero_add, hend] at hn
    obtain ⟨hhung, m, hm, himg⟩ := hn.sync hfits (hkept img) hsync
    exact ⟨hhung, fun i hi => himg i (by omega)⟩

/-- A packet longer than the image is taken whole. -/
theorem Announced.size_le {dev : σ} (h : Announced env 0 start len size dev s)
    (hcorrect : SessionCorrect env content start len s) : size ≤ len := by
  have hexp := h.exp
  have hrun : DataRun env (fun _ => 0) 0 s [dataPacket (fun _ => 0) 0] :=
    ⟨⟨h.hung, by rw [hexp]; rfl, by rw [hexp]; rfl⟩, dataPacket_carries _ 0 s, trivial⟩
  have hle := (hcorrect.counts _ _ hrun).1
  rw [receivedBytes, receivedBytes, hexp] at hle
  exact hle

theorem Announced.whole {dev : σ} (h : Announced env 0 start len size dev s)
    (hfits : Fits env Ok content lo hi start len size) (hok : Ok dev)
    (hcorrect : SessionCorrect env content start len s) :
    env.writeBlLen ∣ env.flushSize size ∨ len ≤ env.flushSize size := by
  by_contra hnot
  obtain ⟨hpart, hmore⟩ := not_or.mp hnot
  obtain ⟨img, Kept, hkept, hzero, hlost⟩ := exists_lost hfits.aligned hfits.flat.writeBl_pos hpart
    (Nat.not_le.mp hmore) (lt_of_lt_of_le hfits.size_pos hfits.flushSize_le.1)
  have hstaging := @Announced.staging _ _ _ _ _ _ _ _ _ _ img _ _ h hfits (h.size_le hcorrect)
    hok (hzero (content dev))
  obtain ⟨packets, hrun, hend⟩ := hstaging.complete hfits hkept
  rw [Nat.zero_add] at hend
  obtain ⟨n, hn⟩ := hstaging.run hfits hkept hrun
  rw [Nat.zero_add, hend] at hn
  have hsync : dataSyncPacket 0 = Cmd.dataSync.id := rfl
  obtain ⟨-, m, hm, hlast⟩ := hn.sync hfits hkept hsync
  obtain ⟨i, hi, hne⟩ := hlost m _ hm hlast
  exact hne ((hcorrect.stores img packets _ hrun hend hsync).2 i hi)

/-- A download to a start on a block border arrives, and the loader counts it right, exactly
if no packet is longer than the image and it is either written in one go or flushed in whole
blocks. -/
theorem download_correct_iff (h : Ready s) (hzip : s.ldSet.isZip = 0) {st en sz : Mem}
  (hst : st 0 = Cmd.progDevStAddr.id)
    (hen : en 0 = Cmd.progDevEndAddr.id) (hsz : sz 0 = Cmd.dataPacketSize.id)
    (hfits : Fits env Ok content lo hi (s.address st) (rangeLen (s.address st) (s.address en))
      (announcedSize sz)) (hok : Ok s.dev) :
    SessionCorrect env content (s.address st) (rangeLen (s.address st) (s.address en))
      ((loader env).run s [st, en, sz]) ↔
    announcedSize sz ≤ rangeLen (s.address st) (s.address en) ∧
      (env.writeBlLen ∣ env.flushSize (announcedSize sz) ∨
        rangeLen (s.address st) (s.address en) ≤ env.flushSize (announcedSize sz)) := by
  have hannounced := @announce _ env _ h _ _ _ hst hen hsz hfits.size_pos
  rw [State.transferLen, hzip, if_neg (not_not_intro rfl)] at hannounced
  exact ⟨fun hcorrect => ⟨hannounced.size_le hcorrect, hannounced.whole hfits hok hcorrect⟩,
    fun hcond => hannounced.correct hfits hok hcond.1 hcond.2⟩

end Download

/-- A flash of 2 MiB in blocks of 512 bytes, under the loader without DDR. -/
def smallFlash : Env Mem := flatEnv true false 512 (2 ^ 21)

/-- Linked, with nothing done yet. -/
def justLinked : State Mem :=
  loaderScheduler smallFlash (State.initial 0 LoaderSet.zero fun _ => 0) linkPacket

theorem justLinked_ready : Ready justLinked ∧ justLinked.ldSet = LoaderSet.zero :=
  have h := @link_turn _ smallFlash (State.initial 0 LoaderSet.zero fun _ => 0) rfl rfl
    rfl (fun hfull => hfull.1 rfl)
  ⟨h.1, h.2.1⟩

theorem smallFlash_fits {start len size : ℕ} (haligned : 512 ∣ start)
    (hend : start / 512 + blocksUp len 512 ≤ 2 ^ 12) (hpos : 0 < size) (hsize : size ≤ 27 * 1024) :
    Fits smallFlash (fun _ => True) id 0 (2 ^ 12) start len size where
  flat := flatEnv_flat true false (by norm_num) (by norm_num) _ (by norm_num)
  aligned := haligned
  lo_le := Nat.zero_le _
  le_hi := hend
  size_pos := hpos
  size_le := hsize
  size_lt := by omega

theorem State.address_of_zero {s : State Mem} (h : s.ldSet = LoaderSet.zero) (recv : Mem) :
    s.address recv = bigEndianVal (advance recv 2) := by
  have hlt := bigEndianVal_lt (advance recv 2)
  have hzero : LoaderSet.zero.addrOffset = 0 := rfl
  rw [State.address, h, hzero, Nat.add_zero, u64_of_lt (by omega)]

theorem download_of_two_packets :
    let st := ofList [0x11, 0, 0, 0, 0, 0]
    let en := ofList [0x12, 0, 0, 0, 0x03, 0xff]
    let sz := ofList [0x13, 0x02, 0x00]
    SessionCorrect smallFlash id (justLinked.address st)
      (rangeLen (justLinked.address st) (justLinked.address en))
      ((loader smallFlash).run justLinked [st, en, sz]) := by
  intro st en sz
  have hstart : justLinked.address st = 0 :=
    (State.address_of_zero justLinked_ready.2 st).trans (by decide)
  have hend : justLinked.address en = 1023 :=
    (State.address_of_zero justLinked_ready.2 en).trans (by decide)
  have hlen : rangeLen (justLinked.address st) (justLinked.address en) = 1024 := by
    rw [hstart, hend]
    decide
  have hsize : announcedSize sz = 512 := by decide
  have hfits : Fits smallFlash (fun _ => True) id 0 (2 ^ 12) (justLinked.address st)
      (rangeLen (justLinked.address st) (justLinked.address en)) (announcedSize sz) := by
    rw [hlen, hstart, hsize]
    exact smallFlash_fits (by decide) (by decide) (by decide) (by decide)
  refine (download_correct_iff justLinked_ready.1 (by rw [justLinked_ready.2]; rfl) rfl rfl rfl
    hfits trivial).mpr ?_
  rw [hlen, hsize]
  decide

/-- 40000 bytes in packets of 1000: the staging buffer takes 27 of them, which is no whole
number of blocks. -/
theorem download_of_forty_packets :
    let st := ofList [0x11, 0, 0, 0, 0, 0]
    let en := ofList [0x12, 0, 0, 0, 0x9c, 0x3f]
    let sz := ofList [0x13, 0x03, 0xe8]
    ¬ SessionCorrect smallFlash id 0 40000 ((loader smallFlash).run justLinked [st, en, sz]) := by
  intro st en sz hcorrect
  have hstart : justLinked.address st = 0 :=
    (State.address_of_zero justLinked_ready.2 st).trans (by decide)
  have hend : justLinked.address en = 39999 :=
    (State.address_of_zero justLinked_ready.2 en).trans (by decide)
  have hzip : justLinked.ldSet.isZip = 0 := by
    rw [justLinked_ready.2]
    rfl
  have hannounced := @announce _ smallFlash _ justLinked_ready.1 st en sz rfl rfl rfl (by decide)
  have hlen : justLinked.transferLen st en = 40000 := by
    rw [State.transferLen, if_neg (not_not_intro hzip), hstart, hend]
    decide
  have hsize : announcedSize sz = 1000 := by decide
  rw [hlen, hstart, hsize, hzip] at hannounced
  have hfits : Fits smallFlash (fun _ => True) id 0 (2 ^ 12) 0 40000 1000 :=
    smallFlash_fits (by decide) (by decide) (by decide) (by decide)
  exact absurd (hannounced.whole hfits trivial hcorrect) (by decide)

end UBoot.Loader
