import UBoot.Loader.Download
import UBoot.Loader.Fill

/-!
# A chunked download

`is_zip` is 2. A packet holds raw bytes, which are staged, or a fill or a skip, in front of which
the staged bytes are flushed. Every write is rounded to whole blocks, and a chunk behind a fill
that ends inside a block is written from the start of that block.
-/
namespace UBoot.Loader
open ByteStore

/-- A chunk of the stream. -/
inductive ZipChunk where
  | raw (bytes : List UInt8)
  | fill (word len : ℕ)
  | skip (len : ℕ)

namespace ZipChunk

/-- The bytes that it stands for. -/
def size : ZipChunk → ℕ
  | raw bytes => bytes.length
  | fill _ len => 4 * len
  | skip len => len

/-- The chunk expanded to an address of a flash. -/
def expand (flash : Mem) (addr : ℕ) : ZipChunk → Mem
  | raw bytes => overlay flash addr bytes.length (ofList bytes)
  | fill word len => overlay flash addr (4 * len) (copies word)
  | skip _ => flash

/-- What the payload of a packet holds. -/
def HeldBy (data : Mem) : ZipChunk → Prop
  | raw bytes => littleEndianVal data = 1 ∧ littleEndianVal (advance data 4) = bytes.length ∧
      ∀ i < bytes.length, data (8 + i) = ofList bytes i
  | fill word len => littleEndianVal data = 2 ∧ littleEndianVal (advance data 4) = len ∧
      littleEndianVal (advance data 8) = word
  | skip len => littleEndianVal data = 3 ∧ littleEndianVal (advance data 4) = len

/-- Raw bytes fit the staging buffer with what is pending, and the bytes of a fill a word. -/
def Bounded {σ : Type*} (env : Env σ) (s : State σ) : ZipChunk → Prop
  | raw bytes => s.tmpSize + bytes.length ≤ env.tmpBufSize
  | fill _ len => 4 * len < 2 ^ 32
  | skip _ => True

/-- What the flash holds behind the chunk: a fill is written to the blocks around its range. -/
def laid (bl : ℕ) (flash : Mem) (addr : ℕ) : ZipChunk → Mem
  | fill word len =>
    overlay flash (addr / bl * bl) (blocksUp (4 * len) bl * bl) (copies word)
  | c => c.expand flash addr

/-- The chunk does not hang the loader, and raw bytes begin on a block. -/
def Goes (bl addr : ℕ) : ZipChunk → Prop
  | raw bytes => defBlkSize ∣ bytes.length ∧ bl ∣ addr
  | fill _ _ => True
  | skip len => defBlkSize ∣ len

end ZipChunk

/-- The reference expansion of a stream. -/
def expandStream : List ZipChunk → Mem → ℕ → Mem
  | [], flash, _ => flash
  | c :: cs, flash, addr => expandStream cs (c.expand flash addr) (addr + c.size)

def streamSize (cs : List ZipChunk) : ℕ := (cs.map ZipChunk.size).sum

/-- Raw bytes and skips are multiples of `DEF_BLK_SIZE`, and fills are whole blocks, except for
the last chunk. -/
def WholeBlocks (bl : ℕ) : List ZipChunk → Prop
  | [] => True
  | .fill _ len :: cs => (bl ∣ 4 * len ∨ cs = []) ∧ WholeBlocks bl cs
  | c :: cs => defBlkSize ∣ c.size ∧ WholeBlocks bl cs

/-- Packets of one chunk each, sent while data is expected and until it no longer is. -/
def ChunkRun {σ : Type*} (env : Env σ) : State σ → List Mem → List ZipChunk → Prop
  | s, [], [] => s.exp = ExpectInfo.expect defPackLen .dataSync
  | s, recv :: packets, c :: cs => s.ExpectsData ∧ recv 0 = Cmd.data.id ∧
      c.HeldBy (advance recv 4) ∧ c.Bounded env s ∧
      ChunkRun env (loaderScheduler env s recv) packets cs
  | _, _, _ => False

/-- The flash holds the stream behind the packets and the sync. -/
def StreamExpands {σ : Type*} (env : Env σ) (content : σ → Mem) (start : ℕ) (s : State σ)
    (packets : List Mem) (cs : List ZipChunk) : Prop :=
  ∀ sync, sync 0 = Cmd.dataSync.id →
    let s' := loaderScheduler env ((loader env).run s packets) sync
    s'.hung = false ∧ ∀ i < streamSize cs,
      content s'.dev (start + i) = expandStream cs (content s.dev) start (start + i)

section Chunked
variable {σ : Type*} {env : Env σ} {s : State σ} {recv : Mem} {Ok : σ → Prop}
  {content : σ → Mem} {hi addr : ℕ} {flash : Mem} {c : ZipChunk}

/-- The flash with the staged bytes over it is `flash`, expanded up to `addr`. -/
structure Expanding (env : Env σ) (Ok : σ → Prop) (content : σ → Mem) (flash : Mem) (addr : ℕ)
    (s : State σ) : Prop where
  linked : s.linked = true
  hung : s.hung = false
  zip : s.ldSet.isZip = 2
  image : overlay (content s.dev) s.ldSet.curAddr s.tmpSize s.tmp = flash
  reached : s.ldSet.curAddr + s.tmpSize = addr
  staged : s.tmpSize = 0 ∨ env.writeBlLen ∣ s.ldSet.curAddr ∧ env.writeBlLen ∣ s.tmpSize
  ok : Ok s.dev

/-- The announced transfer, before its first packet. -/
theorem Announced.expanding {start len size : ℕ} {dev : σ}
    (h : Announced env 2 start len size dev s) (hok : Ok dev) :
    Expanding env Ok content (content dev) start s := by
  refine ⟨h.linked, h.hung, h.zip_eq, ?_, ?_, .inl h.empty, h.dev_eq ▸ hok⟩
  · rw [h.empty, overlay_zero, h.dev_eq]
  · rw [h.empty, h.start_eq, Nat.add_zero]

theorem Expanding.received (h : Expanding env Ok content flash addr s) (recv : Mem) :
    Expanding env Ok content flash addr (s.received recv) :=
  ⟨h.linked, h.hung, h.zip, h.image, h.reached, h.staged, h.ok⟩

theorem Expanding.counted (h : Expanding env Ok content flash addr s) :
    Expanding env Ok content flash addr (countData s) :=
  ⟨h.linked, h.hung, h.zip, h.image, h.reached, h.staged, h.ok⟩

/-- Nothing staged: the flash holds everything. -/
theorem Expanding.of_empty (hlinked : s.linked = true) (hhung : s.hung = false)
    (hzip : s.ldSet.isZip = 2) (hempty : s.tmpSize = 0) (hcontent : content s.dev = flash)
    (hreached : s.ldSet.curAddr = addr) (hok : Ok s.dev) :
    Expanding env Ok content flash addr s := by
  refine ⟨hlinked, hhung, hzip, ?_, ?_, .inl hempty, hok⟩
  · rw [hempty, overlay_zero, hcontent]
  · rw [hempty, hreached, Nat.add_zero]

/-- Addresses of the flash do not wrap. -/
theorem FlatFlash.addr_lt (hflat : FlatFlash env Ok content 0 hi)
    (hroom : addr ≤ hi * env.writeBlLen) : addr < 2 ^ 64 :=
  calc addr ≤ hi * env.writeBlLen := hroom
    _ ≤ (2 ^ 32 - 1) * (2 ^ 32 - 1) := Nat.mul_le_mul (Nat.le_sub_one_of_lt hflat.hi_lt)
        (Nat.le_sub_one_of_lt hflat.writeBl_lt)
    _ < 2 ^ 64 := by norm_num

/-- The staged bytes are whole blocks and begin on one. -/
theorem Expanding.write (h : Expanding env Ok content flash addr s)
    (hflat : FlatFlash env Ok content 0 hi) (hroom : addr ≤ hi * env.writeBlLen) :
    let r := env.flashexWrite s.ldSet.curAddr s.tmp s.tmpSize s.dev
    r.1 = true ∧ Ok r.2 ∧ content r.2 = flash := by
  have himage := h.image
  rcases Nat.eq_zero_or_pos s.tmpSize with hzero | hpos
  · rw [hzero, overlay_zero] at himage
    rw [Env.flashexWrite, if_pos hzero]
    exact ⟨rfl, h.ok, himage⟩
  · obtain ⟨hstart, hwhole⟩ := h.staged.resolve_left hpos.ne'
    have hblocks := div_add_blocksUp_le hflat.writeBl_pos (h.reached.le.trans hroom)
    obtain ⟨hret, hok, hcontent⟩ := hflat.flashexWrite h.ok hpos (Nat.zero_le _) hblocks s.tmp
    refine ⟨hret, hok, ?_⟩
    rw [hcontent, Nat.div_mul_cancel hstart, blocksUp_mul_eq _ hflat.writeBl_pos,
      if_pos (Nat.mod_eq_zero_of_dvd hwhole), Nat.add_zero, himage]

theorem Expanding.flush (h : Expanding env Ok content flash addr s)
    (hflat : FlatFlash env Ok content 0 hi) (hroom : addr ≤ hi * env.writeBlLen) :
    Expanding env Ok content flash addr (s.flush env) := by
  obtain ⟨-, hok, hcontent⟩ := h.write hflat hroom
  refine Expanding.of_empty h.linked h.hung h.zip rfl hcontent ?_ hok
  show u64 (s.ldSet.curAddr + s.tmpSize) = addr
  rw [h.reached, u64_of_lt (hflat.addr_lt hroom)]

theorem Expanding.flushed (h : Expanding env Ok content flash addr s)
    (hflat : FlatFlash env Ok content 0 hi) (hroom : addr ≤ hi * env.writeBlLen) :
    Expanding env Ok content flash addr (flushFull env s) := by
  unfold flushFull
  split
  · exact h.flush hflat hroom
  · exact h

/-- Raw bytes are staged behind what is pending. -/
theorem Expanding.stage (h : Expanding env Ok content flash addr s) (hbl : env.writeBlLen ∣ 512)
    {data src : Mem} {len : ℕ} (hdata : ∀ i < len, data i = src i)
    (hfit : s.tmpSize + len ≤ env.tmpBufSize) (hwhole : defBlkSize ∣ len)
    (haddr : env.writeBlLen ∣ addr) :
    Expanding env Ok content (overlay flash addr len src) (addr + len) (s.stage data len) := by
  have htmp : env.tmpBufSize < 2 ^ 32 := by
    unfold Env.tmpBufSize
    split <;> norm_num
  have hsize : u32 (s.tmpSize + len) = s.tmpSize + len := u32_of_lt (by omega)
  have hlen : env.writeBlLen ∣ len := hbl.trans hwhole
  have hreached := h.reached
  refine ⟨h.linked, h.hung, h.zip, ?_, ?_, ?_, h.ok⟩
  · show overlay (content s.dev) s.ldSet.curAddr (u32 (s.tmpSize + len))
      (overlay s.tmp s.tmpSize len data) = _
    have hpending : overlay (content s.dev) s.ldSet.curAddr s.tmpSize
        (overlay s.tmp s.tmpSize len data) = flash :=
      (overlay_congr _ fun i hi => overlay_of_not_mem _ _ (by omega)).trans h.image
    rw [hsize, ← overlay_append, hreached, hpending]
    refine overlay_congr _ fun i hi => ?_
    rw [advance_apply, overlay_add _ _ hi, hdata i hi]
  · show s.ldSet.curAddr + u32 (s.tmpSize + len) = _
    omega
  · show u32 (s.tmpSize + len) = 0 ∨ env.writeBlLen ∣ s.ldSet.curAddr ∧
      env.writeBlLen ∣ u32 (s.tmpSize + len)
    rw [hsize]
    rcases h.staged with hempty | ⟨hstart, htail⟩
    · rw [hempty, Nat.add_zero] at hreached
      rw [hempty, Nat.zero_add, hreached]
      exact .inr ⟨haddr, hlen⟩
    · exact .inr ⟨hstart, Nat.dvd_add htail hlen⟩

/-- A fill is written to the blocks around its range. -/
theorem Expanding.fill (h : Expanding env Ok content flash addr s)
    (hflat : FlatFlash env Ok content 0 hi) (hbl : env.writeBlLen ∣ 512) {word len : ℕ}
    (hlen : 4 * len < 2 ^ 32) (hroom : addr + 4 * len ≤ hi * env.writeBlLen) :
    Expanding env Ok content ((ZipChunk.fill word len).laid env.writeBlLen flash addr)
      (addr + 4 * len) (syncChunk env s ⟨2, len, word⟩) := by
  have hflush := h.flush hflat ((Nat.le_add_right _ _).trans hroom)
  have hcur : (s.flush env).ldSet.curAddr = addr := hflush.reached
  have hempty : (s.flush env).tmpSize = 0 := rfl
  have hcontent : content (s.flush env).dev = flash := by
    have himage := hflush.image
    rwa [hempty, overlay_zero] at himage
  unfold syncChunk
  dsimp only
  rw [if_pos rfl]
  generalize s.flush env = t at hflush hcur hempty hcontent
  have haddr := hflat.addr_lt hroom
  obtain ⟨pieces, -, -, hends⟩ := @fillLoop_ends _ env (env.fillBuf word t.tmp) len
    t.ldSet.curAddr (by omega) (by rwa [hcur]) t.dev
  obtain ⟨hok, hfilled⟩ := fillLoop_content hflat hbl word t.tmp (by omega) (by rwa [hcur])
    (by rw [hcur]; exact div_add_blocksUp_le hflat.writeBl_pos hroom) hflush.ok hends
  rw [hends]
  refine Expanding.of_empty hflush.linked hflush.hung hflush.zip hempty ?_ ?_ hok
  · rw [hfilled, hcur, hcontent]
    rfl
  · show t.ldSet.curAddr + 4 * len = _
    rw [hcur]

/-- A skip moves the address on. -/
theorem Expanding.skip (h : Expanding env Ok content flash addr s)
    (hflat : FlatFlash env Ok content 0 hi) {len : ℕ} (hwhole : defBlkSize ∣ len)
    (hroom : addr + len ≤ hi * env.writeBlLen) :
    Expanding env Ok content flash (addr + len) (syncChunk env s ⟨3, len, 0⟩) := by
  have hflush := h.flush hflat ((Nat.le_add_right _ _).trans hroom)
  have hcur : (s.flush env).ldSet.curAddr = addr := hflush.reached
  have hcontent : content (s.flush env).dev = flash := by
    have himage := hflush.image
    rwa [show (s.flush env).tmpSize = 0 from rfl, overlay_zero] at himage
  unfold syncChunk
  dsimp only
  rw [if_neg (by decide), if_neg (not_not.2 (Nat.mod_eq_zero_of_dvd hwhole))]
  refine Expanding.of_empty hflush.linked hflush.hung hflush.zip rfl hcontent ?_ hflush.ok
  show u64 ((s.flush env).ldSet.curAddr + len) = _
  rw [hcur, u64_of_lt (hflat.addr_lt hroom)]

theorem payload_of_data (hrecv : recv 0 = Cmd.data.id) :
    (s.payload recv).data = advance recv 4 := by
  rw [State.payload, hrecv, overhead, if_pos rfl]
  rfl

/-- What the packet does to the staging buffer, and what has to be written at once. -/
theorem stageData_chunk (hzip : s.ldSet.isZip = 2) {pk : Packet} (hc : c.HeldBy pk.data)
    (hgoes : c.Goes env.writeBlLen addr) : stageData s pk =
      match c with
      | .raw bytes => (s.stage (advance pk.data 8) bytes.length, none)
      | .fill word len => (s, some ⟨2, len, word⟩)
      | .skip len => (s, some ⟨3, len, 0⟩) := by
  cases c with
  | raw bytes =>
    obtain ⟨htype, hlen, -⟩ := hc
    simp only [stageData, hzip, htype, hlen]
    rw [if_pos trivial, if_pos trivial, if_neg (not_not.2 (Nat.mod_eq_zero_of_dvd hgoes.1))]
    rfl
  | fill word len =>
    obtain ⟨htype, hlen, hword⟩ := hc
    simp [stageData, hzip, htype, hlen, hword]
  | skip len =>
    obtain ⟨htype, hlen⟩ := hc
    simp [stageData, hzip, htype, hlen]

/-- The chunk, before the packet is answered. -/
theorem Expanding.chunk (h : Expanding env Ok content flash addr s)
    (hflat : FlatFlash env Ok content 0 hi) (hbl : env.writeBlLen ∣ 512) {pk : Packet}
    (hc : c.HeldBy pk.data) (hbounded : c.Bounded env s) (hgoes : c.Goes env.writeBlLen addr)
    (hroom : addr + c.size ≤ hi * env.writeBlLen) :
    ∃ s' chunk, stageData s pk = (s', chunk) ∧ s'.hung = false ∧ s'.exp = s.exp ∧
      s'.restBytes = s.restBytes ∧
      Expanding env Ok content (c.laid env.writeBlLen flash addr) (addr + c.size)
        (syncPending env (countData s') chunk) := by
  have hstage := stageData_chunk h.zip hc hgoes
  cases c with
  | raw bytes =>
    exact ⟨_, _, hstage, h.hung, rfl, rfl,
      (h.stage hbl hc.2.2 hbounded hgoes.1 hgoes.2).counted⟩
  | fill word len =>
    exact ⟨_, _, hstage, h.hung, rfl, rfl, h.counted.fill hflat hbl hbounded hroom⟩
  | skip len =>
    exact ⟨_, _, hstage, h.hung, rfl, rfl, h.counted.skip hflat hgoes hroom⟩

theorem syncPending_exp (s : State σ) (chunk : Option Chunk) :
    (syncPending env s chunk).exp = s.exp ∧
      (syncPending env s chunk).restBytes = s.restBytes := by
  cases chunk with
  | none => exact ⟨rfl, rfl⟩
  | some c =>
    unfold syncPending syncChunk
    dsimp only
    split
    · split <;> exact ⟨rfl, rfl⟩
    · split <;> exact ⟨rfl, rfl⟩

theorem flushFull_exp (s : State σ) :
    (flushFull env s).exp = s.exp ∧ (flushFull env s).restBytes = s.restBytes := by
  unfold flushFull
  split <;> exact ⟨rfl, rfl⟩

/-- A packet takes the expansion on by its chunk, and is counted. -/
theorem Expanding.step (h : Expanding env Ok content flash addr s)
    (hflat : FlatFlash env Ok content 0 hi) (hbl : env.writeBlLen ∣ 512)
    (hdata : s.ExpectsData) (hrecv : recv 0 = Cmd.data.id) (hc : c.HeldBy (advance recv 4))
    (hbounded : c.Bounded env s) (hgoes : c.Goes env.writeBlLen addr)
    (hroom : addr + c.size ≤ hi * env.writeBlLen) :
    let s' := loaderScheduler env s recv
    Expanding env Ok content (c.laid env.writeBlLen flash addr) (addr + c.size) s' ∧
      s'.exp = (countData s).exp ∧
      s'.restBytes = (countData s).restBytes := by
  have hpayload : c.HeldBy (s.payload recv).data := by rwa [payload_of_data hrecv]
  obtain ⟨t, chunk, hstage, hhung, hexp, hrest, hchunk⟩ :=
    (h.received recv).chunk hflat hbl hpayload hbounded hgoes hroom
  obtain ⟨up, sent, ops, hfinish⟩ := finish_stageData hstage hhung hchunk.hung
  have hcounted : (countData t).exp = (countData s).exp ∧
      (countData t).restBytes = (countData s).restBytes := by
    unfold countData
    dsimp only
    rw [hexp, hrest]
    exact ⟨rfl, rfl⟩
  obtain ⟨hsyncExp, hsyncRest⟩ := @syncPending_exp _ env (countData t) chunk
  rw [loaderScheduler_of_accepting ⟨h.linked, h.hung, fun _ => hrecv.trans hdata.2.2.symm⟩,
    dispatch, dispatch_eq _ hrecv]
  dsimp only
  rw [hfinish]
  have hflushed := hchunk.flushed hflat hroom
  obtain ⟨hflushExp, hflushRest⟩ := @flushFull_exp _ env
    (syncPending env (countData t) chunk)
  generalize flushFull env (syncPending env (countData t) chunk) = u
    at hflushed hflushExp hflushRest
  exact ⟨⟨hflushed.linked, hflushed.hung, hflushed.zip, hflushed.image, hflushed.reached,
    hflushed.staged, hflushed.ok⟩, hflushExp.trans (hsyncExp.trans hcounted.1),
    hflushRest.trans (hsyncRest.trans hcounted.2)⟩

theorem streamSize_cons (c : ZipChunk) (cs : List ZipChunk) :
    streamSize (c :: cs) = c.size + streamSize cs := List.sum_cons

/-- Behind whole blocks comes whole blocks, and a fill that is not ends the stream. -/
theorem WholeBlocks.cons {bl : ℕ} {cs : List ZipChunk} (h : WholeBlocks bl (c :: cs))
    (hbl : bl ∣ 512) (haddr : bl ∣ addr) :
    c.Goes bl addr ∧ WholeBlocks bl cs ∧ (bl ∣ c.size ∨ cs = []) := by
  cases c with
  | raw bytes => exact ⟨⟨h.1, haddr⟩, h.2, .inl (hbl.trans h.1)⟩
  | fill word len => exact ⟨trivial, h.2, h.1⟩
  | skip len => exact ⟨h.1, h.2, .inl (hbl.trans h.1)⟩

/-- Up to the end of the chunk the flash holds its expansion. -/
theorem laid_eq_expand {bl : ℕ} (hbl : 0 < bl) (haddr : bl ∣ addr) (c : ZipChunk) {a : ℕ}
    (ha : a < addr + c.size) : c.laid bl flash addr a = c.expand flash addr a := by
  cases c with
  | raw | skip => rfl
  | fill word len =>
    have hup := le_blocksUp_mul (4 * len) hbl
    have ha' : a < addr + 4 * len := ha
    rw [ZipChunk.laid, ZipChunk.expand, Nat.div_mul_cancel haddr]
    by_cases hin : addr ≤ a
    · rw [overlay_of_mem _ _ hin (by omega), overlay_of_mem _ _ hin ha']
    · rw [overlay_of_not_mem _ _ (by omega), overlay_of_not_mem _ _ (by omega)]

theorem laid_of_whole {bl : ℕ} (hbl : 0 < bl) (haddr : bl ∣ addr) (hwhole : bl ∣ c.size) :
    c.laid bl flash addr = c.expand flash addr := by
  cases c with
  | raw | skip => rfl
  | fill word len =>
    have hmod : 4 * len % bl = 0 := Nat.mod_eq_zero_of_dvd hwhole
    rw [ZipChunk.laid, ZipChunk.expand, Nat.div_mul_cancel haddr, blocksUp_mul_eq _ hbl,
      if_pos hmod, Nat.add_zero]

/-- The packets of a stream of whole blocks. -/
theorem Expanding.run (h : Expanding env Ok content flash addr s)
    (hflat : FlatFlash env Ok content 0 hi) (hbl : env.writeBlLen ∣ 512)
    {packets : List Mem} {cs : List ZipChunk} (hrun : ChunkRun env s packets cs)
    (hwhole : WholeBlocks env.writeBlLen cs) (haddr : env.writeBlLen ∣ addr)
    (hroom : addr + streamSize cs ≤ hi * env.writeBlLen) :
    ∃ flash', Expanding env Ok content flash' (addr + streamSize cs)
        ((loader env).run s packets) ∧
      ((loader env).run s packets).exp = ExpectInfo.expect defPackLen .dataSync ∧
      ∀ a < addr + streamSize cs, flash' a = expandStream cs flash addr a := by
  induction cs generalizing s packets flash addr with
  | nil =>
    cases packets with
    | nil => exact ⟨flash, h, hrun, fun a _ => rfl⟩
    | cons recv packets => exact hrun.elim
  | cons c cs ih =>
    cases packets with
    | nil => exact hrun.elim
    | cons recv packets =>
      obtain ⟨hdata, hrecv, hc, hbounded, hrest⟩ := hrun
      obtain ⟨hgoes, hwhole', hend⟩ := hwhole.cons hbl haddr
      rw [streamSize_cons, ← Nat.add_assoc] at hroom ⊢
      have hstep := (h.step hflat hbl hdata hrecv hc hbounded hgoes (by omega)).1
      rw [loader_run_cons]
      rcases hend with hdvd | rfl
      · rw [laid_of_whole hflat.writeBl_pos haddr hdvd] at hstep
        exact ih hstep hrest hwhole' (Nat.dvd_add haddr hdvd) hroom
      · -- the last chunk may be a fill that ends inside a block
        cases packets with
        | nil =>
          exact ⟨_, hstep, hrest, fun a ha => laid_eq_expand hflat.writeBl_pos haddr c ha⟩
        | cons recv' packets => exact hrest.elim

/-- The sync writes what is staged. -/
theorem Expanding.sync (h : Expanding env Ok content flash addr s)
    (hflat : FlatFlash env Ok content 0 hi) (hroom : addr ≤ hi * env.writeBlLen)
    (hexp : s.exp = ExpectInfo.expect defPackLen .dataSync) (hrecv : recv 0 = Cmd.dataSync.id) :
    (loaderScheduler env s recv).hung = false ∧
      content (loaderScheduler env s recv).dev = flash := by
  obtain ⟨hret, -, hcontent⟩ := (h.received recv).write hflat hroom
  obtain ⟨hhung, hroomy, hdev⟩ := @dataSync_state _ env (s.received recv) hret
  have hcmd : s.exp.cmdId = Cmd.dataSync.id := by
    rw [hexp]
    rfl
  obtain ⟨up, sent, hturn⟩ := @loaderScheduler_answered _ env _ recv
    ⟨h.linked, h.hung, fun _ => hrecv.trans hcmd.symm⟩ (dataSync env (s.received recv))
    (by rw [dispatch, dispatch_eq _ hrecv]) (hhung.trans h.hung) hroomy rfl
  rw [hturn]
  exact ⟨hhung.trans h.hung, (congrArg content hdev).trans hcontent⟩

/-- A chunked download to a start on a block border arrives if raw bytes and skips are multiples
of 512, and fills, but for the last chunk, are whole blocks. -/
theorem streamExpands_of_wholeBlocks (h : Ready s) (hzip : s.ldSet.isZip = 2) {st en sz : Mem}
    (hst : st 0 = Cmd.progDevStAddr.id) (hen : en 0 = Cmd.progDevEndAddr.id)
    (hsz : sz 0 = Cmd.dataPacketSize.id) (hsize : 0 < announcedSize sz)
    (hflat : FlatFlash env Ok content 0 hi) (hbl : env.writeBlLen ∣ 512) (hok : Ok s.dev)
    {packets : List Mem} {cs : List ZipChunk}
    (hrun : ChunkRun env ((loader env).run s [st, en, sz]) packets cs)
    (hroom : s.address st + streamSize cs ≤ hi * env.writeBlLen)
    (hstart : env.writeBlLen ∣ s.address st) (hwhole : WholeBlocks env.writeBlLen cs) :
    StreamExpands env content (s.address st) ((loader env).run s [st, en, sz]) packets cs := by
  have hannounced := @announce _ env _ h _ _ _ hst hen hsz hsize
  rw [hzip] at hannounced
  have hdev := hannounced.dev_eq
  have hexpanding : Expanding env Ok content (content s.dev) (s.address st)
      ((loader env).run s [st, en, sz]) := hannounced.expanding hok
  obtain ⟨flash', hdone, hexp, hflash⟩ := hexpanding.run hflat hbl hrun hwhole hstart hroom
  intro sync hsync
  obtain ⟨hhung, hcontent⟩ := hdone.sync hflat hroom hexp hsync
  refine ⟨hhung, fun i hi => ?_⟩
  rw [hcontent, hdev]
  exact hflash _ (by omega)

/-- The settings of `CMD_UNZIP_INFO` are made, and the loader waits for the next command. -/
theorem unzip_turn (h : Ready s) {uz : Mem} (huz : uz 0 = Cmd.unzipInfo.id) :
    let s' := loaderScheduler env s uz
    Ready s' ∧ s'.ldSet = (unzipInfo s (s.payload uz)).1.ldSet ∧ s'.dev = s.dev := by
  have hcmd : dispatch env (s.received uz) (s.payload uz) =
      answered (unzipInfo (s.received uz) (s.payload uz)) := by
    rw [dispatch, dispatch_eq _ huz]
  obtain ⟨up, sent, hturn⟩ := @loaderScheduler_answered _ env _ uz (h.accepting uz) _ hcmd h.hung
    h.roomy rfl
  dsimp only
  rw [hturn]
  exact ⟨⟨⟨h.linked, h.hung, h.flag, h.roomy⟩, h.empty⟩, rfl, rfl⟩

end Chunked

/-- Chunked mode, and 1024 bytes of packets. -/
def zipPacket : Mem := ofList [0x2d, 2, 0, 0, 4, 0, 0x50]

/-- The loader is told of the mode. -/
def zipMode : State Mem := loaderScheduler smallFlash justLinked zipPacket

theorem zipMode_ready : Ready zipMode ∧
    zipMode.ldSet = { LoaderSet.zero with
      isZip := 2
      allpacksBytes := 1024 } ∧ zipMode.dev = fun _ => 0 := by
  obtain ⟨hready, hzero⟩ := justLinked_ready
  obtain ⟨hready', hset, hdev⟩ := @unzip_turn _ smallFlash _ hready zipPacket rfl
  have hdata : (justLinked.payload zipPacket).data = advance zipPacket 1 :=
    payload_data (c := .unzipInfo) rfl (by decide)
  refine ⟨hready', ?_, hdev⟩
  rw [show zipMode.ldSet = _ from hset, unzipInfo, hdata, hzero]
  rfl

/-- A transfer to the start of the flash in packets of 512 bytes is announced. -/
def zipSession : State Mem :=
  (loader smallFlash).run zipMode
    [ofList [0x11, 0, 0, 0, 0, 0], ofList [0x12, 0, 0, 0, 0, 0], ofList [0x13, 2, 0]]

theorem zipMode_address : zipMode.address (ofList [0x11, 0, 0, 0, 0, 0]) = 0 := by
  rw [State.address, zipMode_ready.2.1]
  decide

theorem zipSession_announced :
    Announced smallFlash 2 0 1024 512 (fun _ => 0) zipSession := by
  obtain ⟨hready, hset, hdev⟩ := zipMode_ready
  have hannounced := @announce _ smallFlash _ hready (ofList [0x11, 0, 0, 0, 0, 0])
    (ofList [0x12, 0, 0, 0, 0, 0]) (ofList [0x13, 2, 0]) rfl rfl rfl (by decide)
  have hsize : announcedSize (ofList [0x13, 2, 0]) = 512 := by decide
  rw [State.transferLen, hset, zipMode_address, hdev, hsize] at hannounced
  exact hannounced

theorem smallFlash_flat : FlatFlash smallFlash (fun _ => True) id 0 (2 ^ 12) :=
  flatEnv_flat true false (by norm_num) (by norm_num) _ (by norm_num)

/-- A skip of one block. -/
def skipPacket : Mem := ofList [Cmd.data.id, 0, 0, 0, 3, 0, 0, 0, 0, 2, 0, 0]

theorem skipPacket_held : (ZipChunk.skip 512).HeldBy (advance skipPacket 4) :=
  ⟨by decide, by decide⟩

/-- A fill of some words of ones. -/
def fillPacket (len : UInt8) : Mem :=
  ofList [Cmd.data.id, 0, 0, 0, 2, 0, 0, 0, len, 0, 0, 0, 255, 255, 255, 255]

/-- A fill of `len` words, then the skip. -/
theorem fillSkip_run {recv : Mem} {word len : ℕ} (hrecv : recv 0 = Cmd.data.id)
    (hc : (ZipChunk.fill word len).HeldBy (advance recv 4)) (hlen : 4 * len ≤ 2 ^ 20) :
    ChunkRun smallFlash zipSession [recv, skipPacket] [.fill word len, .skip 512] ∧
      Expanding smallFlash (fun _ => True) id
        ((ZipChunk.fill word len).laid 512 (fun _ => 0) 0) (4 * len + 512)
        ((loader smallFlash).run zipSession [recv, skipPacket]) := by
  have hannounced := zipSession_announced
  have hexp : zipSession.exp = ExpectInfo.expect (min 512 (1024 - 0)) .data := hannounced.exp
  obtain ⟨hcountRest, hcountExp⟩ := countData_eq hexp hannounced.rest (by decide)
  have hdata : zipSession.ExpectsData := ⟨hannounced.hung, by rw [hexp]; rfl, by rw [hexp]; rfl⟩
  have hroom : 0 + 4 * len + 512 ≤ 2 ^ 12 * smallFlash.writeBlLen := by
    show _ ≤ 2 ^ 12 * 512
    omega
  have hbounded : (ZipChunk.fill word len).Bounded smallFlash zipSession := by
    show 4 * len < 2 ^ 32
    omega
  have hstart : Expanding smallFlash (fun _ => True) id (fun _ => 0) 0 zipSession :=
    hannounced.expanding trivial
  obtain ⟨hfilled, hexp1, hrest1⟩ := hstart.step smallFlash_flat (by decide) hdata hrecv hc
    hbounded trivial ((Nat.le_add_right _ _).trans hroom)
  rw [hcountExp] at hexp1
  rw [hcountRest] at hrest1
  generalize hs : loaderScheduler smallFlash zipSession recv = s at hfilled hexp1 hrest1
  have hexp1' : s.exp = ExpectInfo.expect (min 512 (1024 - 512)) .data := hexp1
  obtain ⟨-, hcountExp1⟩ := countData_eq hexp1' hrest1 (by decide)
  have hdata1 : s.ExpectsData :=
    ⟨hfilled.hung, by rw [hexp1']; rfl, by rw [hexp1']; rfl⟩
  obtain ⟨hskipped, hexp2, -⟩ := @Expanding.step _ _ _ skipPacket _ _ _ _ _ (.skip 512) hfilled
    smallFlash_flat (by decide) hdata1 rfl skipPacket_held trivial
    (show defBlkSize ∣ 512 by decide) hroom
  rw [hcountExp1] at hexp2
  refine ⟨⟨hdata, hrecv, hc, hbounded, ?_⟩, ?_⟩
  · rw [hs]
    exact ⟨hdata1, rfl, skipPacket_held, trivial, hexp2⟩
  · rw [loader_run_cons, hs, loader_run_cons]
    rw [Nat.zero_add] at hskipped
    exact hskipped

/-- A fill of one block, and a skip. -/
theorem streamExpands_of_wholeBlocks_fill :
    StreamExpands smallFlash id (zipMode.address (ofList [0x11, 0, 0, 0, 0, 0])) zipSession
      [fillPacket 128, skipPacket] [.fill 0xFFFFFFFF 128, .skip 512] := by
  have hrun := (@fillSkip_run (fillPacket 128) 0xFFFFFFFF 128 rfl
    ⟨by decide, by decide, by decide⟩ (by decide)).1
  refine streamExpands_of_wholeBlocks zipMode_ready.1 (by rw [zipMode_ready.2.1]) rfl rfl rfl
    (by decide) smallFlash_flat (by decide) trivial hrun ?_ ?_ ?_
  · rw [zipMode_address]
    decide
  · rw [zipMode_address]
    decide
  · exact ⟨.inl (by decide), by decide, trivial⟩

/-- A fill of one word, and a skip: the rest of the block is filled too. -/
theorem fill_of_one_word_overwrites_skip :
    ChunkRun smallFlash zipSession [fillPacket 1, skipPacket]
      [.fill 0xFFFFFFFF 1, .skip 512] ∧
    ¬ StreamExpands smallFlash id 0 zipSession [fillPacket 1, skipPacket]
      [.fill 0xFFFFFFFF 1, .skip 512] := by
  obtain ⟨hrun, hdone⟩ := @fillSkip_run (fillPacket 1) 0xFFFFFFFF 1 rfl
    ⟨by decide, by decide, by decide⟩ (by decide)
  refine ⟨hrun, fun h => ?_⟩
  have hexp := hrun.2.2.2.2.2.2.2.2
  have hsync : dataSyncPacket 0 = Cmd.dataSync.id := rfl
  obtain ⟨-, hcontent⟩ := hdone.sync smallFlash_flat (by decide) hexp hsync
  have hbyte := (h dataSyncPacket hsync).2 4 (by decide)
  rw [hcontent, zipSession_announced.dev_eq] at hbyte
  exact absurd hbyte (by decide)

end UBoot.Loader
