import UBoot.Library.Copies
import UBoot.Flash.SparseFile

/-!
# What sparse flashing leaves on the device

The reference meaning of an image is a list of pieces laid end to end from the start
of the partition. `write_unsparse` rounds every raw chunk to whole device blocks, and
computes its address in 64 bits and its block number in 32. Which layouts it expands
rightly, whatever the payload and the old content of the device, is settled here.
-/
namespace UBoot.Flash
open ByteStore

/-- A chunk with its place: its payload is at `off` of the image, its output at `pos` of
the partition. -/
structure Piece where
  kind : ChunkKind
  off : ℕ
  pos : ℕ
  len : ℕ
  deriving DecidableEq

/-- The pieces of `n` chunks from `off` on, unless a chunk is malformed. -/
def pieces (source : Mem) : ℕ → ℕ → ℕ → Option (List Piece)
  | 0, _, _ => some []
  | n + 1, off, pos =>
    match chunkKind source off with
    | none => none
    | some kind =>
      (pieces source n (off + sizeofChunkHeader + payloadLen source off kind)
          (pos + chunkLen source off)).map
        (⟨kind, off + sizeofChunkHeader, pos, chunkLen source off⟩ :: ·)

/-- The pieces of an image. -/
def imagePieces (source : Mem) : Option (List Piece) :=
  pieces source (headerTotalChunks source) sizeofSparseHeader 0

/-- The target holds the pieces: raw ones the payload, the others the old content. -/
def Expands (ps : List Piece) (source : Mem) (start : ℕ) (old new : Mem) : Prop :=
  ∀ p ∈ ps, ∀ k < p.len, new (start + p.pos + k) =
    match p.kind with
    | .raw => source (p.off + k)
    | .dontCare => old (start + p.pos + k)

/-- The chunk headers of two images agree, `n` chunks from `off` on. -/
def SameHeaders (source source' : Mem) : ℕ → ℕ → Prop
  | 0, _ => True
  | n + 1, off =>
    (∀ i < sizeofChunkHeader, source (off + i) = source' (off + i)) ∧
      ∀ kind, chunkKind source off = some kind →
        SameHeaders source source' n (off + sizeofChunkHeader + payloadLen source off kind)

/-- Two images with the same headers, and any payloads. -/
structure SameLayout (source source' : Mem) : Prop where
  file : ∀ i < sizeofSparseHeader, source i = source' i
  chunks : SameHeaders source source' (headerTotalChunks source) sizeofSparseHeader

/-- If the call returns 0 and every write fitted on the disk, the image is well formed and
the disk holds its expansion. -/
def FlashesImage (dev : BlockDev Mem) (lba : ℕ) (source : Mem) (size start partitionSize : ℕ)
    (disk : Mem) : Prop :=
  let r := writeUnsparse dev source size start partitionSize (Session.initial disk)
  r.1 = true → (∀ q ∈ r.2.requests, q.blk + q.cnt ≤ lba) →
    ∃ ps, imagePieces source = some ps ∧ Expands ps source start disk r.2.dev

/-- The layouts that fit the device blocks: a raw chunk with output starts on a block
boundary below block number 2^32, and if it does not end on one then no output follows. -/
def FitsBlocks (bl start : ℕ) (ps : List Piece) : Prop :=
  ∀ p ∈ ps, p.kind = .raw → 0 < p.len →
    bl ∣ start + p.pos ∧ start + p.pos < 2 ^ 32 * bl ∧
      (bl ∣ p.len ∨ ∀ q ∈ ps, 0 < q.len → q.pos < p.pos + p.len)

/-- Pieces whose outputs follow each other from `pos` on, with payloads behind `off`. -/
def Contiguous : ℕ → ℕ → List Piece → Prop
  | _, _, [] => True
  | off, pos, p :: ps => off < p.off ∧ p.pos = pos ∧ Contiguous p.off (pos + p.len) ps

section Pieces
variable {source source' : Mem}

theorem Contiguous.weaken {off off' pos : ℕ} {ps : List Piece} (h : Contiguous off' pos ps)
    (hle : off ≤ off') : Contiguous off pos ps := by
  cases ps with
  | nil => trivial
  | cons p ps => exact ⟨hle.trans_lt h.1, h.2⟩

theorem pieces_contiguous {n off pos : ℕ} {ps : List Piece}
    (h : pieces source n off pos = some ps) :
    Contiguous off pos ps := by
  induction n generalizing off pos ps with
  | zero =>
    obtain rfl : [] = ps := Option.some.inj h
    trivial
  | succ n ih =>
    rw [pieces] at h
    split at h
    · cases h
    · obtain ⟨qs, hqs, rfl⟩ := Option.map_eq_some_iff.mp h
      have hoff : off < off + sizeofChunkHeader := Nat.lt_add_of_pos_right (by decide)
      exact ⟨hoff, rfl, (ih hqs).weaken (Nat.le_add_right _ _)⟩

theorem Contiguous.bounds {off pos : ℕ} {ps : List Piece} (h : Contiguous off pos ps) :
    ∀ p ∈ ps, off < p.off ∧ pos ≤ p.pos := by
  induction ps generalizing off pos with
  | nil => nofun
  | cons q qs ih =>
    obtain ⟨hoff, hpos, hrest⟩ := h
    intro p hp
    rcases List.mem_cons.mp hp with rfl | hp
    · exact ⟨hoff, hpos.ge⟩
    · have := ih hrest p hp
      omega

/-- A later piece has its payload and its output behind those of an earlier one. -/
theorem Contiguous.pairwise {off pos : ℕ} {ps : List Piece} (h : Contiguous off pos ps) :
    ps.Pairwise fun p q => p.off < q.off ∧ p.pos + p.len ≤ q.pos := by
  induction ps generalizing off pos with
  | nil => exact .nil
  | cons p ps ih =>
    obtain ⟨-, rfl, hrest⟩ := h
    exact List.pairwise_cons.mpr ⟨hrest.bounds, ih hrest⟩

/-- An address in front of some output is covered by a piece. -/
theorem Contiguous.exists_piece {off pos a : ℕ} {ps : List Piece} (h : Contiguous off pos ps)
    (hpos : pos ≤ a) (hq : ∃ q ∈ ps, a ≤ q.pos ∧ 0 < q.len) :
    ∃ p ∈ ps, p.pos ≤ a ∧ a < p.pos + p.len := by
  induction ps generalizing off pos with
  | nil =>
    obtain ⟨q, hq, -⟩ := hq
    cases hq
  | cons p ps ih =>
    obtain ⟨-, rfl, hrest⟩ := h
    by_cases ha : a < p.pos + p.len
    · exact ⟨p, List.mem_cons_self .., hpos, ha⟩
    · have hq' : ∃ q ∈ ps, a ≤ q.pos ∧ 0 < q.len := by
        obtain ⟨q, hmem, hq⟩ := hq
        rcases List.mem_cons.mp hmem with rfl | hmem
        · omega
        · exact ⟨q, hmem, hq⟩
      obtain ⟨r, hr, hcov⟩ := ih hrest (not_lt.mp ha) hq'
      exact ⟨r, List.mem_cons_of_mem _ hr, hcov⟩

/-- What the write of a raw piece copies: whole blocks, from a rounded address on. -/
def Piece.copy (bl start : ℕ) (p : Piece) : Copy where
  dst := u32 (u64 (start + p.pos) / bl) * bl
  len := u32 (blocksUp p.len bl) * bl
  src := p.off

/-- The request of a raw piece. -/
def Piece.request (bl start : ℕ) (p : Piece) : Request where
  blk := u32 (u64 (start + p.pos) / bl)
  cnt := u32 (blocksUp p.len bl)

def copies (bl start : ℕ) (ps : List Piece) : List Copy :=
  (ps.filter (·.kind = .raw)).map (Piece.copy bl start)

theorem mem_copies {bl start : ℕ} {ps : List Piece} {c : Copy} :
    c ∈ copies bl start ps ↔ ∃ p ∈ ps, p.kind = .raw ∧ p.copy bl start = c := by
  simp [copies, and_assoc]

theorem Contiguous.ascending {off pos bl start : ℕ} {ps : List Piece} (h : Contiguous off pos ps) :
    Ascending (copies bl start ps) :=
  List.pairwise_map.mpr ((h.pairwise.imp And.left).filter _)

end Pieces

section Runs
variable {source source' : Mem} {bl lba start partitionSize : ℕ} {hpos : 0 < bl} {hlt : bl < 2 ^ 32}

theorem acceptedChunk_chunkKind {c : Cursor} {kind : ChunkKind}
    (h : acceptedChunk source partitionSize c = some kind) :
    chunkKind source c.off = some kind := by
  unfold acceptedChunk at h
  split at h
  · cases h
  · exact h

/-- A write that fits is a copy out of the image. -/
theorem flashWrite_ramDisk {off size at_ : ℕ} {s : Session Mem}
    (h : u32 (at_ / bl) + u32 (blocksUp size bl) ≤ lba) :
    (flashWrite (ramDisk bl lba hpos hlt) source off size at_ s).2.dev =
      overlay s.dev (u32 (at_ / bl) * bl) (u32 (blocksUp size bl) * bl) (advance source off) := by
  simp only [flashWrite, Session.blockWrite, Session.note, ramDisk, if_neg h.not_gt]

/-- An iteration that goes on has made the copy of its piece. -/
theorem unsparseChunk_ramDisk {c c' : Cursor} {s s' : Session Mem} {pos : ℕ} {kind : ChunkKind}
    (h : unsparseChunk (ramDisk bl lba hpos hlt) source partitionSize c s = (some c', s'))
    (hk : acceptedChunk source partitionSize c = some kind) (hc : c.start = u64 (start + pos))
    (hfit : ∀ r ∈ s'.requests, r.blk + r.cnt ≤ lba) :
    let p : Piece := ⟨kind, c.off + sizeofChunkHeader, pos, chunkLen source c.off⟩
    s'.dev = copyAll source (copies bl start [p]) s.dev ∧
      (kind = .raw → p.len + 12 < 2 ^ 32 ∧
        (p.request bl start).blk + (p.request bl start).cnt ≤ lba) := by
  cases kind with
  | dontCare =>
    have hsame := (unsparseChunk_of_dontCare (ramDisk bl lba hpos hlt) s hk).2
    rw [h] at hsame
    exact ⟨hsame.dev, nofun⟩
  | raw =>
    obtain ⟨s₁, hs₁, heq⟩ := unsparseChunk_of_raw (ramDisk bl lba hpos hlt) s hk
    dsimp only at heq
    rw [h] at heq
    obtain ⟨-, rfl⟩ := Prod.mk.inj heq
    have hreq := hfit ⟨u32 (c.start / bl), u32 (blocksUp (chunkLen source c.off) bl)⟩
      (List.mem_cons_self ..)
    refine ⟨?_, fun _ => ⟨rawLen_lt (acceptedChunk_raw_iff.mp hk).2.2, ?_⟩⟩
    · rw [flashWrite_ramDisk hreq, hs₁.dev, hc]
      rfl
    · rw [hc] at hreq
      exact hreq

/-- A run that returns 0 has gone through well-formed pieces and made their copies. -/
theorem unsparseLoop_ramDisk (n : ℕ) {c : Cursor} {pos : ℕ} {s : Session Mem}
    (hc : c.start = u64 (start + pos))
    (hret : (unsparseLoop (ramDisk bl lba hpos hlt) source partitionSize n c s).1 = true)
    (hfit : ∀ r ∈ (unsparseLoop (ramDisk bl lba hpos hlt) source partitionSize n c s).2.requests,
      r.blk + r.cnt ≤ lba) :
    ∃ ps, pieces source n c.off pos = some ps ∧
      (unsparseLoop (ramDisk bl lba hpos hlt) source partitionSize n c s).2.dev =
        copyAll source (copies bl start ps) s.dev ∧
      ∀ p ∈ ps, p.kind = .raw → p.len + 12 < 2 ^ 32 ∧
        (p.request bl start).blk + (p.request bl start).cnt ≤ lba := by
  induction n generalizing c pos s with
  | zero => exact ⟨[], rfl, rfl, nofun⟩
  | succ n ih =>
    have hstep : ∀ c' s', unsparseChunk (ramDisk bl lba hpos hlt) source partitionSize c
        (s.note .fileHeader 20 4) = (some c', s') →
        unsparseLoop (ramDisk bl lba hpos hlt) source partitionSize (n + 1) c s =
          unsparseLoop (ramDisk bl lba hpos hlt) source partitionSize n c' s' := by
      intro c' s' heq
      rw [unsparseLoop, heq]
    cases hr : unsparseChunk (ramDisk bl lba hpos hlt) source partitionSize c
        (s.note .fileHeader 20 4) with
    | mk o s' =>
    cases o with
    | none =>
      rw [unsparseLoop, hr] at hret
      cases hret
    | some c' =>
      rw [hstep c' s' hr] at hret hfit ⊢
      obtain ⟨kind, hk, rfl⟩ := unsparseChunk_next hr
      have hnext : (c.next source kind).start = u64 (start + (pos + chunkLen source c.off)) := by
        show u64 (c.start + chunkLen source c.off) = _
        rw [hc]
        unfold u64
        omega
      have hfit' : ∀ r ∈ s'.requests, r.blk + r.cnt ≤ lba := fun r hr =>
        hfit r ((unsparseLoop_grows ..).requests hr)
      obtain ⟨hdev', hraw'⟩ := unsparseChunk_ramDisk hr hk hc hfit'
      obtain ⟨ps, hps, hdev, hraw⟩ := ih hnext hret hfit
      refine ⟨⟨kind, c.off + sizeofChunkHeader, pos, chunkLen source c.off⟩ :: ps, ?_, ?_, ?_⟩
      · rw [pieces, acceptedChunk_chunkKind hk]
        exact Option.map_eq_some_iff.mpr ⟨ps, hps, rfl⟩
      · rw [hdev, hdev', ← copyAll_append]
        congr 1
        rw [copies, copies, copies, ← List.map_append, ← List.filter_append]
        rfl
      · intro p hp
        rcases List.mem_cons.mp hp with rfl | hp
        · exact hraw'
        · exact hraw p hp

end Runs

section Layouts
variable {source source' : Mem}

theorem SameHeaders.refl (source : Mem) (n off : ℕ) : SameHeaders source source n off := by
  induction n generalizing off with
  | zero => trivial
  | succ n ih => exact ⟨fun _ _ => rfl, fun _ _ => ih _⟩

theorem SameLayout.refl (source : Mem) : SameLayout source source :=
  ⟨fun _ _ => rfl, SameHeaders.refl source _ _⟩

theorem sameHeaders_of_le {n off : ℕ} (h : ∀ i, off ≤ i → source i = source' i) :
    SameHeaders source source' n off := by
  induction n generalizing off with
  | zero => trivial
  | succ n ih =>
    refine ⟨fun i _ => h _ (Nat.le_add_right _ _), fun kind _ => ih fun i hi => h i ?_⟩
    omega

/-- Changing a payload byte changes no chunk header. -/
theorem sameHeaders_update {n off pos k : ℕ} {ps : List Piece} {p : Piece} (v : UInt8)
    (h : pieces source n off pos = some ps) (hp : p ∈ ps) (hraw : p.kind = .raw) (hk : k < p.len) :
    SameHeaders source (Function.update source (p.off + k) v) n off := by
  induction n generalizing off pos ps with
  | zero => trivial
  | succ n ih =>
    rw [pieces] at h
    split at h
    · cases h
    · next kind hkind =>
      obtain ⟨qs, hqs, rfl⟩ := Option.map_eq_some_iff.mp h
      rcases List.mem_cons.mp hp with rfl | hmem
      · -- the byte belongs to this chunk: later headers lie behind it
        dsimp only at hraw hk ⊢
        refine ⟨fun i hi => (Function.update_of_ne (by omega) _ _).symm, fun kind' hkind' => ?_⟩
        obtain rfl : kind' = kind := Option.some.inj (hkind'.symm.trans hkind)
        refine sameHeaders_of_le fun i hi => (Function.update_of_ne ?_ _ _).symm
        rw [payloadLen, if_pos hraw] at hi
        omega
      · have hbound := ((pieces_contiguous hqs).bounds p hmem).1
        refine ⟨fun i hi => (Function.update_of_ne (by omega) _ _).symm, fun kind' hkind' => ?_⟩
        obtain rfl : kind' = kind := Option.some.inj (hkind'.symm.trans hkind)
        exact ih hqs hmem

theorem SameLayout.update {ps : List Piece} {p : Piece} {k : ℕ} (v : UInt8)
    (h : imagePieces source = some ps) (hp : p ∈ ps) (hraw : p.kind = .raw) (hk : k < p.len) :
    SameLayout source (Function.update source (p.off + k) v) := by
  refine ⟨fun i hi => (Function.update_of_ne ?_ _ _).symm, sameHeaders_update v h hp hraw hk⟩
  have := ((pieces_contiguous h).bounds p hp).1
  omega

/-- Equal headers have equal fields. -/
theorem SameLayout.fields (h : SameLayout source source') :
    headerMagic source = headerMagic source' ∧ headerBlkSz source = headerBlkSz source' ∧
      headerTotalChunks source = headerTotalChunks source' ∧
      headerFileHdrSz source = headerFileHdrSz source' ∧
      ∀ partitionSize, HeaderOk source partitionSize ↔ HeaderOk source' partitionSize := by
  have hfield : ∀ off n, off + n ≤ 28 → fetch source off n = fetch source' off n :=
    fun off n hn => fetch_congr fun i hi => h.file _ (show off + i < 28 by omega)
  refine ⟨hfield 0 4 (by decide), hfield 12 4 (by decide), hfield 20 4 (by decide),
    hfield 8 2 (by decide), fun partitionSize => ?_⟩
  unfold HeaderOk headerTotalBlks headerBlkSz headerMajorVersion headerFileHdrSz headerChunkHdrSz
  rw [hfield 16 4 (by decide), hfield 12 4 (by decide), hfield 4 2 (by decide),
    hfield 8 2 (by decide), hfield 10 2 (by decide)]

/-- Chunks with equal headers have equal lengths and are treated alike. -/
theorem chunk_congr (hblk : headerBlkSz source = headerBlkSz source') {off : ℕ}
    (h : ∀ i < sizeofChunkHeader, source (off + i) = source' (off + i)) :
    chunkLen source off = chunkLen source' off ∧ chunkKind source off = chunkKind source' off := by
  have hfield : ∀ k n, k + n ≤ 12 → fetch source (off + k) n = fetch source' (off + k) n :=
    fun k n hn => fetch_congr fun i hi => by
      rw [Nat.add_assoc]
      exact h _ (show k + i < 12 by omega)
  have htype : chunkType source off = chunkType source' off := hfield 0 2 (by decide)
  have hsz : chunkSz source off = chunkSz source' off := hfield 4 4 (by decide)
  have htotal : chunkTotalSz source off = chunkTotalSz source' off := hfield 8 4 (by decide)
  have hlen : chunkLen source off = chunkLen source' off := by
    unfold chunkLen
    rw [hsz, hblk]
  refine ⟨hlen, ?_⟩
  unfold chunkKind
  rw [htype, htotal, hlen]

theorem pieces_congr (hblk : headerBlkSz source = headerBlkSz source') {n off pos : ℕ}
    (h : SameHeaders source source' n off) :
    pieces source n off pos = pieces source' n off pos := by
  induction n generalizing off pos with
  | zero => rfl
  | succ n ih =>
    obtain ⟨hlen, hkind⟩ := chunk_congr hblk h.1
    rw [pieces, pieces, ← hkind]
    cases hk : chunkKind source off with
    | none => rfl
    | some kind =>
      have hpay : payloadLen source off kind = payloadLen source' off kind := by
        unfold payloadLen
        rw [hlen]
      dsimp only
      rw [ih (h.2 kind hk), hpay, hlen]

theorem SameLayout.imagePieces_eq (h : SameLayout source source') :
    imagePieces source = imagePieces source' := by
  unfold imagePieces
  rw [← h.fields.2.2.1]
  exact pieces_congr h.fields.2.1 h.chunks

end Layouts

section Congruence
variable {source source' : Mem} {bl lba partitionSize : ℕ} {hpos : 0 < bl} {hlt : bl < 2 ^ 32}

/-- Whether a disk write succeeds does not depend on the bytes. -/
theorem flashWrite_ramDisk_fst (source source' : Mem) (off size at_ : ℕ) (s s' : Session Mem) :
    (flashWrite (ramDisk bl lba hpos hlt) source off size at_ s).1 =
      (flashWrite (ramDisk bl lba hpos hlt) source' off size at_ s').1 := by
  simp only [flashWrite, Session.blockWrite, Session.note, ramDisk]
  split_ifs <;> rfl

/-- One iteration on two images with the same chunk header. -/
theorem unsparseChunk_congr (hblk : headerBlkSz source = headerBlkSz source') {c : Cursor}
    (h : ∀ i < sizeofChunkHeader, source (c.off + i) = source' (c.off + i)) {s s' : Session Mem}
    (hs : s.requests = s'.requests) :
    let r := unsparseChunk (ramDisk bl lba hpos hlt) source partitionSize c s
    let r' := unsparseChunk (ramDisk bl lba hpos hlt) source' partitionSize c s'
    r.1 = r'.1 ∧ r.2.requests = r'.2.requests := by
  obtain ⟨hlen, hkind⟩ := chunk_congr hblk h
  have hacc : acceptedChunk source partitionSize c = acceptedChunk source' partitionSize c := by
    unfold acceptedChunk
    rw [hlen, hkind]
  have hnext : ∀ kind, c.next source kind = c.next source' kind := fun kind => by
    unfold Cursor.next payloadLen
    rw [hlen]
  cases hk : acceptedChunk source partitionSize c with
  | none =>
    obtain ⟨h₁, h₂⟩ := unsparseChunk_of_none (ramDisk bl lba hpos hlt) s hk
    obtain ⟨h₁', h₂'⟩ := unsparseChunk_of_none (ramDisk bl lba hpos hlt) s' (hacc ▸ hk)
    exact ⟨h₁.trans h₁'.symm, h₂.requests.trans (hs.trans h₂'.requests.symm)⟩
  | some kind =>
    cases kind with
    | dontCare =>
      obtain ⟨h₁, h₂⟩ := unsparseChunk_of_dontCare (ramDisk bl lba hpos hlt) s hk
      obtain ⟨h₁', h₂'⟩ := unsparseChunk_of_dontCare (ramDisk bl lba hpos hlt) s' (hacc ▸ hk)
      exact ⟨h₁.trans ((congrArg some (hnext _)).trans h₁'.symm),
        h₂.requests.trans (hs.trans h₂'.requests.symm)⟩
    | raw =>
      obtain ⟨t, ht, heq⟩ := unsparseChunk_of_raw (ramDisk bl lba hpos hlt) s hk
      obtain ⟨t', ht', heq'⟩ := unsparseChunk_of_raw (ramDisk bl lba hpos hlt) s' (hacc ▸ hk)
      have hreq : t.requests = t'.requests := ht.requests.trans (hs.trans ht'.requests.symm)
      dsimp only
      rw [heq, heq']
      refine ⟨?_, ?_⟩
      · dsimp only
        rw [hlen, hnext, flashWrite_ramDisk_fst source source' _ _ _ t t']
      · simp only [flashWrite, Session.blockWrite, Session.note, hlen, hreq]

theorem unsparseLoop_congr (hblk : headerBlkSz source = headerBlkSz source') {n : ℕ} {c : Cursor}
    (h : SameHeaders source source' n c.off) {s s' : Session Mem} (hs : s.requests = s'.requests) :
    let r := unsparseLoop (ramDisk bl lba hpos hlt) source partitionSize n c s
    let r' := unsparseLoop (ramDisk bl lba hpos hlt) source' partitionSize n c s'
    r.1 = r'.1 ∧ r.2.requests = r'.2.requests := by
  induction n generalizing c s s' with
  | zero => exact ⟨rfl, hs⟩
  | succ n ih =>
    have hread : (s.note .fileHeader 20 4).requests = (s'.note .fileHeader 20 4).requests := hs
    obtain ⟨hret, hreq⟩ := @unsparseChunk_congr source source' bl lba partitionSize hpos hlt hblk c
      h.1 _ _ hread
    simp only [unsparseLoop]
    cases hr : unsparseChunk (ramDisk bl lba hpos hlt) source partitionSize c
        (s.note .fileHeader 20 4) with
    | mk o t =>
    cases hr' : unsparseChunk (ramDisk bl lba hpos hlt) source' partitionSize c
        (s'.note .fileHeader 20 4) with
    | mk o' t' =>
    rw [hr, hr'] at hret hreq
    obtain rfl : o = o' := hret
    cases o with
    | none => exact ⟨rfl, hreq⟩
    | some c' =>
      obtain ⟨kind, hk, rfl⟩ := unsparseChunk_next hr
      exact ih (h.2 kind (acceptedChunk_chunkKind hk)) hreq

/-- Images with the same headers are accepted alike and make the same requests. -/
theorem writeUnsparse_congr (h : SameLayout source source') (size start : ℕ) (disk disk' : Mem) :
    let r := writeUnsparse (ramDisk bl lba hpos hlt) source size start partitionSize
      (Session.initial disk)
    let r' := writeUnsparse (ramDisk bl lba hpos hlt) source' size start partitionSize
      (Session.initial disk')
    r.1 = r'.1 ∧ r.2.requests = r'.2.requests := by
  obtain ⟨hmagic, hblk, hchunks, hsz, hok⟩ := h.fields
  have haccept : (headerAccepted source partitionSize (Session.initial disk)).1 =
      (headerAccepted source' partitionSize (Session.initial disk')).1 := by
    rw [Bool.eq_iff_iff, headerAccepted_iff, headerAccepted_iff, hmagic, hok]
  have hreq : (headerAccepted source partitionSize (Session.initial disk)).2.requests =
      (headerAccepted source' partitionSize (Session.initial disk')).2.requests := by
    rw [(headerAccepted_sameDevice ..).requests, (headerAccepted_sameDevice ..).requests]
    rfl
  simp only [writeUnsparse, ← haccept, ← hchunks, ← hsz]
  split
  · next hacc =>
    have h28 : headerFileHdrSz source = sizeofSparseHeader := (headerAccepted_iff.mp hacc).2.2.2.1
    refine unsparseLoop_congr hblk ?_ hreq
    rw [h28]
    exact h.chunks
  · exact ⟨rfl, hreq⟩

/-- A call that returns 0 with all writes fitting leaves the copies of the image's pieces. -/
theorem writeUnsparse_ramDisk {size start : ℕ} (hstart : start < 2 ^ 64) {disk : Mem}
    (hret : (writeUnsparse (ramDisk bl lba hpos hlt) source size start partitionSize
      (Session.initial disk)).1 = true)
    (hfit : ∀ r ∈ (writeUnsparse (ramDisk bl lba hpos hlt) source size start partitionSize
      (Session.initial disk)).2.requests, r.blk + r.cnt ≤ lba) :
    ∃ ps, imagePieces source = some ps ∧
      (writeUnsparse (ramDisk bl lba hpos hlt) source size start partitionSize
        (Session.initial disk)).2.dev = copyAll source (copies bl start ps) disk ∧
      ∀ p ∈ ps, p.kind = .raw → p.len + 12 < 2 ^ 32 ∧
        (p.request bl start).blk + (p.request bl start).cnt ≤ lba := by
  have hdev := (headerAccepted_sameDevice source partitionSize (Session.initial disk)).dev
  unfold writeUnsparse at hret hfit ⊢
  dsimp only at hret hfit ⊢
  split at hret
  · next hacc =>
    rw [if_pos hacc] at hfit ⊢
    have h28 : headerFileHdrSz source = sizeofSparseHeader := (headerAccepted_iff.mp hacc).2.2.2.1
    have hcur : start = u64 (start + 0) := (u64_of_lt hstart).symm
    obtain ⟨ps, hps, hcopies, hraw⟩ := unsparseLoop_ramDisk _ hcur hret hfit
    rw [hdev] at hcopies
    rw [h28] at hps
    exact ⟨ps, hps, hcopies, hraw⟩
  · cases hret

end Congruence

section Layout
variable {bl lba start off pos : ℕ} {ps : List Piece}

/-- Two pieces are the same or lie one behind the other. -/
theorem Contiguous.trichotomy (h : Contiguous off pos ps) {p q : Piece} (hp : p ∈ ps)
    (hq : q ∈ ps) : p = q ∨ (p.off < q.off ∧ p.pos + p.len ≤ q.pos) ∨
      (q.off < p.off ∧ q.pos + q.len ≤ p.pos) := by
  let R : Piece → Piece → Prop := fun p q => p = q ∨ (p.off < q.off ∧ p.pos + p.len ≤ q.pos) ∨
    (q.off < p.off ∧ q.pos + q.len ≤ p.pos)
  have hsymm : Std.Symm R := ⟨fun _ _ h => h.imp Eq.symm Or.symm⟩
  have hR : ps.Pairwise R := h.pairwise.imp fun h => .inr (.inl h)
  have hrefl : ∀ p ∈ ps, R p p := fun _ _ => .inl rfl
  exact List.Pairwise.forall_of_forall hrefl hR hp hq

/-- An empty raw piece copies nothing. -/
theorem Piece.copy_of_empty {p : Piece} (h : p.len = 0) (a : ℕ) : ¬ (p.copy bl start).Covers a := by
  simp only [Piece.copy, Copy.Covers, h, blocksUp_zero, u32]
  omega

/-- The rounded length of a raw piece. -/
theorem Piece.copy_len (start : ℕ) (hbl : 0 < bl) {p : Piece} (h : p.len + 12 < 2 ^ 32) :
    p.len ≤ (p.copy bl start).len ∧ (p.copy bl start).len < p.len + bl ∧
      bl ∣ (p.copy bl start).len := by
  have hle := blocksUp_le_self p.len hbl
  have hu : u32 (blocksUp p.len bl) = blocksUp p.len bl := u32_of_lt (by omega)
  simp only [Piece.copy, hu]
  exact ⟨le_blocksUp_mul _ hbl, blocksUp_mul_lt _ hbl, Nat.dvd_mul_left ..⟩

/-- Below block number 2^32 the write starts at the block of its address. -/
theorem Piece.copy_dst (hbl' : bl < 2 ^ 32) {p : Piece}
    (h : start + p.pos < 2 ^ 32 * bl) : (p.copy bl start).dst = (start + p.pos) / bl * bl := by
  have h64 : start + p.pos < 2 ^ 64 := by omega
  have hblk : (start + p.pos) / bl < 2 ^ 32 := Nat.div_lt_of_lt_mul (by rwa [Nat.mul_comm] at h)
  simp only [Piece.copy, u64_of_lt h64, u32_of_lt hblk]

theorem Piece.copy_dst_of_dvd (hbl' : bl < 2 ^ 32) {p : Piece}
    (h : start + p.pos < 2 ^ 32 * bl) (hdvd : bl ∣ start + p.pos) :
    (p.copy bl start).dst = start + p.pos := by
  rw [Piece.copy_dst hbl' h, Nat.div_mul_cancel hdvd]

section Lengths
variable (hbl : 0 < bl) (hbl' : bl < 2 ^ 32) (hcont : Contiguous off pos ps)
  (hlen : ∀ p ∈ ps, p.kind = .raw → p.len + 12 < 2 ^ 32)
include hbl hbl' hcont hlen

/-- On a layout that fits the blocks only the copy of a piece itself reaches its output. -/
theorem FitsBlocks.covers (h : FitsBlocks bl start ps) {p q : Piece} (hp : p ∈ ps) (hq : q ∈ ps)
    (hraw : q.kind = .raw) {k : ℕ} (hk : k < p.len)
    (hcov : (q.copy bl start).Covers (start + p.pos + k)) : p = q := by
  have hqpos : 0 < q.len := Nat.pos_of_ne_zero fun h0 => Piece.copy_of_empty h0 _ hcov
  obtain ⟨hdvd, hlt, hend⟩ := h q hq hraw hqpos
  obtain ⟨hl₁, hl, hdvdl⟩ := Piece.copy_len start hbl (hlen q hq hraw)
  obtain ⟨h₁, h₂⟩ := hcov
  rw [Piece.copy_dst_of_dvd hbl' hlt hdvd] at h₁ h₂
  rcases hcont.trichotomy hp hq with heq | ⟨-, hle⟩ | ⟨-, hle⟩
  · exact heq
  · omega
  · rcases hend with hdvd' | hlast
    · have := Nat.eq_zero_of_dvd_of_lt (Nat.dvd_sub hdvdl hdvd') (by omega)
      omega
    · have := hlast p hp (by omega)
      omega

/-- A layout that fits the blocks is expanded rightly. -/
theorem FitsBlocks.expands (h : FitsBlocks bl start ps) (source disk : Mem) :
    Expands ps source start disk (copyAll source (copies bl start ps) disk) := by
  intro p hp k hk
  rw [copyAll_apply]
  cases hkind : p.kind with
  | raw =>
    obtain ⟨hdvd, hlt, -⟩ := h p hp hkind (by omega)
    obtain ⟨hl, -, -⟩ := Piece.copy_len start hbl (hlen p hp hkind)
    have hdst := Piece.copy_dst_of_dvd hbl' hlt hdvd
    have hcov : (p.copy bl start).Covers (start + p.pos + k) := by
      refine ⟨?_, ?_⟩ <;> rw [hdst] <;> omega
    have horigin := origin_of_last hcont.ascending
      (mem_copies.mpr ⟨p, hp, hkind, rfl⟩) hcov (by
        intro d hd hsrc hcovd
        obtain ⟨q, hq, hraw, rfl⟩ := mem_copies.mp hd
        obtain rfl := FitsBlocks.covers hbl hbl' hcont hlen h hp hq hraw hk hcovd
        exact absurd hsrc (lt_irrefl _))
    rw [horigin, hdst, Nat.add_sub_cancel_left]
    rfl
  | dontCare =>
    have horigin : origin (copies bl start ps) (start + p.pos + k) = none := by
      refine origin_eq_none_iff.mpr fun d hd hcovd => ?_
      obtain ⟨q, hq, hraw, rfl⟩ := mem_copies.mp hd
      obtain rfl := FitsBlocks.covers hbl hbl' hcont hlen h hp hq hraw hk hcovd
      rw [hkind] at hraw
      cases hraw
    rw [horigin]
    rfl

/-- Where the bytes of a right expansion come from. -/
def OriginsRight (bl start : ℕ) (ps : List Piece) : Prop :=
  ∀ p ∈ ps, ∀ k < p.len, origin (copies bl start ps) (start + p.pos + k) =
    match p.kind with
    | .raw => some (p.off + k)
    | .dontCare => none

/-- If the origins are right then the layout fits the blocks. The first byte of a raw
piece can only have been put there by its own copy, because copies take their bytes from
ever higher offsets; so this copy starts there. -/
theorem OriginsRight.fitsBlocks (hlba : lba ≤ 2 ^ 32)
    (hfit : ∀ p ∈ ps, p.kind = .raw →
      (p.request bl start).blk + (p.request bl start).cnt ≤ lba)
    (h : OriginsRight bl start ps) : FitsBlocks bl start ps := by
  have hfirst : ∀ p ∈ ps, p.kind = .raw → 0 < p.len →
      bl ∣ start + p.pos ∧ start + p.pos < 2 ^ 32 * bl := by
    intro p hp hraw hpos
    have horigin := h p hp 0 hpos
    rw [hraw] at horigin
    dsimp only at horigin
    rw [Nat.add_zero, Nat.add_zero] at horigin
    have hlt : start + p.pos < 2 ^ 32 * bl := by
      obtain ⟨l₁, c, l₂, hsplit, hcov, -, -⟩ := exists_last_of_origin horigin
      have hc : c ∈ copies bl start ps := by
        rw [hsplit]
        simp
      obtain ⟨q, hq, hqraw, rfl⟩ := mem_copies.mp hc
      have hq' := hfit q hq hqraw
      have hmul := Nat.mul_le_mul_right bl (hq'.trans hlba)
      rw [Nat.add_mul] at hmul
      exact hcov.2.trans_le hmul
    refine ⟨?_, hlt⟩
    have hdst := Piece.copy_dst hbl' hlt
    obtain ⟨hl, -, hdvdl⟩ := Piece.copy_len start hbl (hlen p hp hraw)
    have hmod := Nat.div_add_mod (start + p.pos) bl
    have hrem := Nat.mod_lt (start + p.pos) hbl
    rw [Nat.mul_comm] at hmod
    have hblk : bl ≤ (p.copy bl start).len := Nat.le_of_dvd (hpos.trans_le hl) hdvdl
    have hcov : (p.copy bl start).Covers (start + p.pos) := by
      refine ⟨?_, ?_⟩ <;> rw [hdst] <;> omega
    have := eq_dst_of_origin hcont.ascending (mem_copies.mpr ⟨p, hp, hraw, rfl⟩) hcov horigin
    rw [hdst] at this
    exact ⟨_, this.trans (Nat.mul_comm _ _)⟩
  intro p hp hraw hpos
  obtain ⟨hdvd, hlt⟩ := hfirst p hp hraw hpos
  refine ⟨hdvd, hlt, ?_⟩
  by_contra hbad
  rw [not_or] at hbad
  obtain ⟨hndvd, hlater⟩ := hbad
  push Not at hlater
  -- the piece that holds the first byte behind the payload
  obtain ⟨r, hr, hr₁, hr₂⟩ := hcont.exists_piece
    (show pos ≤ p.pos + p.len from (hcont.bounds p hp).2.trans (Nat.le_add_right _ _))
    (let ⟨q, hq, hqpos, hle⟩ := hlater; ⟨q, hq, hle, hqpos⟩)
  have hrpos : r.pos = p.pos + p.len := by
    rcases hcont.trichotomy hp hr with rfl | ⟨-, hle⟩ | ⟨-, hle⟩ <;> omega
  cases hkind : r.kind with
  | raw =>
    have hdvd' := (hfirst r hr hkind (by omega)).1
    rw [hrpos, ← Nat.add_assoc] at hdvd'
    exact hndvd ((Nat.dvd_add_right hdvd).mp hdvd')
  | dontCare =>
    have hnone := h r hr 0 (by omega)
    rw [hkind, hrpos] at hnone
    refine origin_eq_none_iff.mp hnone _ (mem_copies.mpr ⟨p, hp, hraw, rfl⟩) ?_
    obtain ⟨hl₁, -, hdvdl⟩ := Piece.copy_len start hbl (hlen p hp hraw)
    have hne : (p.copy bl start).len ≠ p.len := fun heq => hndvd (heq ▸ hdvdl)
    refine ⟨?_, ?_⟩ <;> rw [Piece.copy_dst_of_dvd hbl' hlt hdvd] <;> omega

end Lengths

end Layout

section Expansion
variable {source : Mem} {bl lba start partitionSize : ℕ} {hpos : 0 < bl} {hlt : bl < 2 ^ 32}

theorem succ_byte_ne (v : UInt8) : v + 1 ≠ v := by
  intro h
  have := congrArg UInt8.toNat h
  have hv := v.toNat_lt
  rw [UInt8.toNat_add] at this
  simp at this
  omega

/-- A layout that is expanded rightly whatever the payloads and the old content has the
right origins: a byte from a wrong place could hold anything. -/
theorem originsRight_of_expands {ps : List Piece} (hps : imagePieces source = some ps)
    (h : ∀ source', SameLayout source source' → ∀ disk,
      Expands ps source' start disk (copyAll source' (copies bl start ps) disk)) :
    OriginsRight bl start ps := by
  intro p hp k hk
  set a := start + p.pos + k with ha
  have hbyte : ∀ source', SameLayout source source' → ∀ disk : Mem,
      ((origin (copies bl start ps) a).map source').getD (disk a) = match p.kind with
        | .raw => source' (p.off + k)
        | .dontCare => disk a := by
    intro source' hsame disk
    rw [← copyAll_apply]
    exact h source' hsame disk p hp k hk
  cases hkind : p.kind with
  | raw =>
    rw [hkind] at hbyte
    dsimp only at hbyte ⊢
    cases ho : origin (copies bl start ps) a with
    | none =>
      have := hbyte source (SameLayout.refl source) fun _ => source (p.off + k) + 1
      rw [ho] at this
      exact absurd this (succ_byte_ne _)
    | some x =>
      by_contra hne
      have hx : x ≠ p.off + k := fun h => hne (congrArg some h)
      have := hbyte _ (SameLayout.update (source x + 1) hps hp hkind hk) source
      rw [ho, Function.update_self] at this
      simp only [Option.map_some, Option.getD_some, Function.update_of_ne hx] at this
      exact absurd this.symm (succ_byte_ne _)
  | dontCare =>
    rw [hkind] at hbyte
    dsimp only at hbyte ⊢
    cases ho : origin (copies bl start ps) a with
    | none => rfl
    | some x =>
      have := hbyte source (SameLayout.refl source) fun _ => source x + 1
      rw [ho] at this
      exact absurd this.symm (succ_byte_ne _)

/-- Take an image on which the call returns 0 with every write fitting. All images with
its headers are flashed rightly, whatever their payloads and the old content of the
disk, if and only if its layout fits the device blocks. -/
theorem writeUnsparse_expands_iff (size : ℕ) (hstart : start < 2 ^ 64) (hlba : lba ≤ 2 ^ 32)
    (disk₀ : Mem)
    (hret : (writeUnsparse (ramDisk bl lba hpos hlt) source size start partitionSize
      (Session.initial disk₀)).1 = true)
    (hfit : ∀ r ∈ (writeUnsparse (ramDisk bl lba hpos hlt) source size start partitionSize
      (Session.initial disk₀)).2.requests, r.blk + r.cnt ≤ lba) :
    (∀ source', SameLayout source source' → ∀ disk,
        FlashesImage (ramDisk bl lba hpos hlt) lba source' size start partitionSize disk) ↔
      ∀ ps, imagePieces source = some ps → FitsBlocks bl start ps := by
  obtain ⟨ps, hps, -, hraw⟩ := writeUnsparse_ramDisk hstart hret hfit
  have hcont := pieces_contiguous hps
  have hlen : ∀ p ∈ ps, p.kind = .raw → p.len + 12 < 2 ^ 32 := fun p hp hk => (hraw p hp hk).1
  constructor
  · intro h qs hqs
    obtain rfl := Option.some.inj (hps.symm.trans hqs)
    refine OriginsRight.fitsBlocks hpos hlt hcont hlen hlba
      (fun p hp hk => (hraw p hp hk).2) (originsRight_of_expands hps fun source' hsame disk => ?_)
    obtain ⟨hret', hreq'⟩ := @writeUnsparse_congr source source' bl lba partitionSize hpos hlt hsame
      size start disk₀ disk
    have hfit' := hfit
    rw [hreq'] at hfit'
    obtain ⟨qs', hqs', hexp⟩ := h source' hsame disk (hret'.symm.trans hret) hfit'
    obtain ⟨rs, hrs, hdev, -⟩ := writeUnsparse_ramDisk hstart (hret'.symm.trans hret) hfit'
    rw [← hsame.imagePieces_eq, hps] at hqs' hrs
    obtain rfl := Option.some.inj hqs'
    obtain rfl := Option.some.inj hrs
    rwa [hdev] at hexp
  · intro hfits source' hsame disk hret' hfit'
    obtain ⟨rs, hrs, hdev, -⟩ := writeUnsparse_ramDisk hstart hret' hfit'
    refine ⟨rs, hrs, ?_⟩
    rw [← hsame.imagePieces_eq, hps] at hrs
    obtain rfl := Option.some.inj hrs
    rw [hdev]
    exact FitsBlocks.expands hpos hlt hcont hlen (hfits ps hps) source' disk

end Expansion

/-- Two raw chunks around a don't-care chunk, all of two device blocks. -/
def threeChunks : Mem :=
  ofList (headerBytes 8 3 3 ++ chunkBytes chunkTypeRaw 1 20 ++ [1, 2, 3, 4, 5, 6, 7, 8] ++
    chunkBytes chunkTypeDontCare 1 12 ++ chunkBytes chunkTypeRaw 1 20)

theorem threeChunks_fits (ps : List Piece) (hps : imagePieces threeChunks = some ps) :
    FitsBlocks 4 16 ps := by
  have himage : imagePieces threeChunks =
      some [⟨.raw, 40, 0, 8⟩, ⟨.dontCare, 60, 8, 8⟩, ⟨.raw, 72, 16, 8⟩] := by decide +kernel
  obtain rfl := Option.some.inj (himage.symm.trans hps)
  unfold FitsBlocks
  decide

/-- The image is flashed over a disk of nines. -/
theorem writeUnsparse_expands_iff_blocks :
    FlashesImage (ramDisk 4 64 (by norm_num) (by norm_num)) 64 threeChunks 80 16 64 fun _ => 9 :=
  (writeUnsparse_expands_iff 80 (by norm_num) (by norm_num) (fun _ => 0) (by decide +kernel)
    (by decide +kernel)).mpr threeChunks_fits threeChunks (SameLayout.refl threeChunks) fun _ => 9

/-- A raw chunk of four bytes and a don't-care chunk of four bytes on 512-byte blocks: the
first byte of the don't-care output becomes a byte of the second chunk header. -/
theorem short_raw_chunk_overwrites_dontCare :
    ¬ FlashesImage (ramDisk 512 64 (by norm_num) (by norm_num)) 64
      (ofList (headerBytes 4 2 2 ++ chunkBytes chunkTypeRaw 1 16 ++ [1, 2, 3, 4] ++
        chunkBytes chunkTypeDontCare 1 12)) 56 0 32768 (fun _ => 0) := by
  intro h
  obtain ⟨ps, hps, hexp⟩ := h (by decide +kernel) (by decide +kernel)
  have hpieces : imagePieces (ofList (headerBytes 4 2 2 ++ chunkBytes chunkTypeRaw 1 16 ++
      [1, 2, 3, 4] ++ chunkBytes chunkTypeDontCare 1 12)) =
      some [⟨.raw, 40, 0, 4⟩, ⟨.dontCare, 56, 4, 4⟩] := by decide +kernel
  obtain rfl := Option.some.inj (hpieces.symm.trans hps)
  exact absurd (hexp ⟨.dontCare, 56, 4, 4⟩ (by simp) 0 (by decide)) (by decide +kernel)

end UBoot.Flash
