import Mathlib.Algebra.Order.Ring.Star
import UBoot.Library.LittleEndian
import UBoot.Word

/-!
# Flashing an Android sparse image

`write_unsparse` walks the chunks of an image in memory. It keeps three running
values: the source pointer, the output address `start`, and the output length
`outlen` that is checked against the partition. The device is any block device;
next to it we record what it was asked to write and what was read of the image.
-/
namespace UBoot.Flash
open ByteStore

/-- `block_dev` as the flash drivers use it: `write_bl_len` is an `uint`, and
`block_write` returns the number of blocks written. -/
structure BlockDev (δ : Type) where
  blLen : ℕ
  blLen_pos : 0 < blLen
  blLen_lt : blLen < 2 ^ 32
  blockWrite : ℕ → ℕ → Mem → δ → ℕ × δ

/-- The blocks named in one call of `block_write`. -/
structure Request where
  blk : ℕ
  cnt : ℕ
  deriving DecidableEq

/-- What the bytes of a read are read as; `padding` is what `block_write` takes from
behind the payload to fill the last block. -/
inductive Region where
  | fileHeader | chunkHeader | payload | padding
  deriving DecidableEq

/-- A read of `len` bytes of the source buffer at offset `off`. -/
structure Read where
  region : Region
  off : ℕ
  len : ℕ
  deriving DecidableEq

/-- The device, and newest first: the requests made, the reads and the error codes put. -/
structure Session (δ : Type) where
  dev : δ
  requests : List Request
  reads : List Read
  errors : List String

def Session.note {δ : Type} (s : Session δ) (region : Region) (off len : ℕ) : Session δ :=
  { s with reads := ⟨region, off, len⟩ :: s.reads }

def Session.putError {δ : Type} (s : Session δ) (code : String) : Session δ :=
  { s with errors := code :: s.errors }

/-- A call of `block_write`, whose arguments are 32-bit words. -/
def Session.blockWrite {δ : Type} (dev : BlockDev δ) (blk cnt : ℕ) (src : Mem) (s : Session δ) :
    ℕ × Session δ :=
  let r := dev.blockWrite (u32 blk) (u32 cnt) src s.dev
  (r.1, { s with dev := r.2, requests := ⟨u32 blk, u32 cnt⟩ :: s.requests })

def sparseHeaderMagic : ℕ := 0xed26ff3a
def sparseHeaderMajorVer : ℕ := 1
def sizeofSparseHeader : ℕ := 28
def sizeofChunkHeader : ℕ := 12
def chunkTypeRaw : ℕ := 0xCAC1
def chunkTypeDontCare : ℕ := 0xCAC3

def headerMagic (source : Mem) : ℕ := fetch source 0 4
def headerMajorVersion (source : Mem) : ℕ := fetch source 4 2
def headerFileHdrSz (source : Mem) : ℕ := fetch source 8 2
def headerChunkHdrSz (source : Mem) : ℕ := fetch source 10 2
def headerBlkSz (source : Mem) : ℕ := fetch source 12 4
def headerTotalBlks (source : Mem) : ℕ := fetch source 16 4
def headerTotalChunks (source : Mem) : ℕ := fetch source 20 4

def chunkType (source : Mem) (off : ℕ) : ℕ := fetch source off 2
def chunkSz (source : Mem) (off : ℕ) : ℕ := fetch source (off + 4) 4
def chunkTotalSz (source : Mem) (off : ℕ) : ℕ := fetch source (off + 8) 4

/-- `clen`: a product of two 32-bit fields, which fits in 64 bits. -/
def chunkLen (source : Mem) (off : ℕ) : ℕ := chunkSz source off * headerBlkSz source

section Functions
variable {δ : Type} (dev : BlockDev δ) (source : Mem)

/-- `check_sparse_image`. -/
def checkSparseImage (s : Session δ) : Bool × Session δ :=
  (headerMagic source = sparseHeaderMagic, s.note .fileHeader 0 4)

/-- `flash_write` on an MMC board, where `partition_size` and `flags` are not used. The
`int` product and difference wrap at 32 bits. -/
def flashWrite (off size start : ℕ) (s : Session δ) : ℕ × Session δ :=
  let padCount := if size % dev.blLen = 0 then 0 else dev.blLen - size % dev.blLen
  let cnt := u32 (blocksUp size dev.blLen)
  let r := (s.note .payload off size).note .padding (off + size) (cnt * dev.blLen - size)
    |>.blockWrite dev (start / dev.blLen) (blocksUp size dev.blLen) (advance source off)
  (u32 (r.1 * dev.blLen + 2 ^ 32 - padCount), r.2)

/-- The loop variables of `write_unsparse`; `off` is how far `source` has been advanced. -/
structure Cursor where
  off : ℕ
  start : ℕ
  outlen : ℕ

/-- The case `CHUNK_TYPE_RAW`; `none` is `return 1`. -/
def rawChunk (partitionSize : ℕ) (c : Cursor) (s : Session δ) : Option Cursor × Session δ :=
  let clen := chunkLen source c.off
  let outlen := u64 (c.outlen + clen)
  let s := ((s.note .chunkHeader (c.off + 4) 4).note .fileHeader 12 4).note .chunkHeader
    (c.off + 8) 4
  if chunkTotalSz source c.off ≠ clen + sizeofChunkHeader then (none, s.putError "20004")
  else if outlen > partitionSize then (none, s.putError "20005")
  else
    let r := flashWrite dev source (c.off + sizeofChunkHeader) clen c.start s
    if r.1 ≠ clen then (none, r.2)
    else (some ⟨c.off + sizeofChunkHeader + clen, u64 (c.start + clen), outlen⟩, r.2)

/-- The case `CHUNK_TYPE_DONT_CARE`. -/
def dontCareChunk (partitionSize : ℕ) (c : Cursor) (s : Session δ) : Option Cursor × Session δ :=
  let s := s.note .chunkHeader (c.off + 8) 4
  if chunkTotalSz source c.off ≠ sizeofChunkHeader then (none, s.putError "20007")
  else
    let s := (s.note .chunkHeader (c.off + 4) 4).note .fileHeader 12 4
    let clen := chunkLen source c.off
    let outlen := u64 (c.outlen + clen)
    if outlen > partitionSize then (none, s.putError "20008")
    else (some ⟨c.off + sizeofChunkHeader, u64 (c.start + clen), outlen⟩, s)

/-- One iteration of the chunk loop. -/
def unsparseChunk (partitionSize : ℕ) (c : Cursor) (s : Session δ) : Option Cursor × Session δ :=
  let s := s.note .chunkHeader c.off 2
  if chunkType source c.off = chunkTypeRaw then rawChunk dev source partitionSize c s
  else if chunkType source c.off = chunkTypeDontCare then dontCareChunk source partitionSize c s
  else (none, s)

/-- The chunk loop with `n` iterations left; `true` is `return 0`. -/
def unsparseLoop (partitionSize : ℕ) : ℕ → Cursor → Session δ → Bool × Session δ
  | 0, _, s => (true, s.note .fileHeader 20 4)
  | n + 1, c, s =>
    match unsparseChunk dev source partitionSize c (s.note .fileHeader 20 4) with
    | (none, s) => (false, s)
    | (some c, s) => unsparseLoop partitionSize n c s

/-- The checks of the file header, and the reads they make. -/
def headerAccepted (partitionSize : ℕ) (s : Session δ) : Bool × Session δ :=
  let s := s.note .fileHeader 0 4
  if headerMagic source ≠ sparseHeaderMagic then (false, s.putError "20001")
  else
    let s := (s.note .fileHeader 16 4).note .fileHeader 12 4
    if headerTotalBlks source * headerBlkSz source > partitionSize then
      (false, s.putError "20002")
    else
      let s := s.note .fileHeader 4 2
      if headerMajorVersion source ≠ sparseHeaderMajorVer then (false, s.putError "20003")
      else
        let s := s.note .fileHeader 8 2
        if headerFileHdrSz source ≠ sizeofSparseHeader then (false, s.putError "20003")
        else
          let s := s.note .fileHeader 10 2
          if headerChunkHdrSz source ≠ sizeofChunkHeader then (false, s.putError "20003")
          else (true, s)

/-- `write_unsparse`. The length of the image, `size`, is not used. -/
def writeUnsparse (_size start partitionSize : ℕ) (s : Session δ) : Bool × Session δ :=
  let h := headerAccepted source partitionSize s
  if h.1 then
    unsparseLoop dev source partitionSize (headerTotalChunks source)
      ⟨headerFileHdrSz source, start, 0⟩ h.2
  else (false, h.2)

end Functions

section Steps
variable {δ : Type} {dev : BlockDev δ} {source : Mem}

theorem chunkLen_lt (source : Mem) (off : ℕ) : chunkLen source off < 2 ^ 64 := by
  have h₁ : chunkSz source off < 2 ^ 32 := fetch_lt _ _ 4
  have h₂ : headerBlkSz source < 2 ^ 32 := fetch_lt _ _ 4
  calc chunkLen source off < 2 ^ 32 * 2 ^ 32 := Nat.mul_lt_mul'' h₁ h₂
    _ = 2 ^ 64 := by norm_num

/-- The payload of a raw chunk that passes its size check is below 4 GiB. -/
theorem rawLen_lt {off : ℕ}
    (h : chunkTotalSz source off = chunkLen source off + sizeofChunkHeader) :
    chunkLen source off + 12 < 2 ^ 32 := by
  have hlt : chunkTotalSz source off < 2 ^ 32 := fetch_lt _ _ 4
  rw [h] at hlt
  exact hlt

/-- The kinds of chunk that `write_unsparse` accepts. -/
inductive ChunkKind where
  | raw | dontCare
  deriving DecidableEq

/-- The kind of the chunk at `off`, if its size is consistent. -/
def chunkKind (source : Mem) (off : ℕ) : Option ChunkKind :=
  if chunkType source off = chunkTypeRaw then
    if chunkTotalSz source off = chunkLen source off + sizeofChunkHeader then some .raw else none
  else if chunkType source off = chunkTypeDontCare then
    if chunkTotalSz source off = sizeofChunkHeader then some .dontCare else none
  else none

/-- The kind of the chunk at the cursor, if its output also ends inside the partition by
the check on `outlen`. -/
def acceptedChunk (source : Mem) (partitionSize : ℕ) (c : Cursor) : Option ChunkKind :=
  if u64 (c.outlen + chunkLen source c.off) > partitionSize then none else chunkKind source c.off

/-- The source bytes of a chunk behind its header. -/
def payloadLen (source : Mem) (off : ℕ) (kind : ChunkKind) : ℕ :=
  if kind = .raw then chunkLen source off else 0

/-- The loop variables behind a chunk. -/
def Cursor.next (source : Mem) (c : Cursor) (kind : ChunkKind) : Cursor where
  off := c.off + sizeofChunkHeader + payloadLen source c.off kind
  start := u64 (c.start + chunkLen source c.off)
  outlen := u64 (c.outlen + chunkLen source c.off)

/-- Only reads and error codes were added. -/
structure SameDevice (s s' : Session δ) : Prop where
  dev : s'.dev = s.dev
  requests : s'.requests = s.requests

theorem acceptedChunk_raw_iff {partitionSize : ℕ} {c : Cursor} :
    acceptedChunk source partitionSize c = some .raw ↔
      u64 (c.outlen + chunkLen source c.off) ≤ partitionSize ∧
        chunkType source c.off = chunkTypeRaw ∧
        chunkTotalSz source c.off = chunkLen source c.off + sizeofChunkHeader := by
  unfold acceptedChunk chunkKind
  split_ifs <;> simp_all

theorem acceptedChunk_dontCare_iff {partitionSize : ℕ} {c : Cursor} :
    acceptedChunk source partitionSize c = some .dontCare ↔
      u64 (c.outlen + chunkLen source c.off) ≤ partitionSize ∧
        chunkType source c.off = chunkTypeDontCare ∧
        chunkTotalSz source c.off = sizeofChunkHeader := by
  have hne : chunkTypeRaw ≠ chunkTypeDontCare := by decide
  unfold acceptedChunk chunkKind
  split_ifs <;> simp_all

/-- What the check of an accepted chunk on the output length gives. -/
theorem acceptedChunk_outlen_le {partitionSize : ℕ} {c : Cursor} {kind : ChunkKind}
    (h : acceptedChunk source partitionSize c = some kind) :
    u64 (c.outlen + chunkLen source c.off) ≤ partitionSize := by
  cases kind with
  | raw => exact (acceptedChunk_raw_iff.mp h).1
  | dontCare => exact (acceptedChunk_dontCare_iff.mp h).1

theorem unsparseChunk_of_none (dev : BlockDev δ) {partitionSize : ℕ} {c : Cursor} (s : Session δ)
    (h : acceptedChunk source partitionSize c = none) :
    (unsparseChunk dev source partitionSize c s).1 = none ∧
      SameDevice s (unsparseChunk dev source partitionSize c s).2 := by
  simp only [acceptedChunk, chunkKind] at h
  simp only [unsparseChunk, rawChunk, dontCareChunk]
  split_ifs at h ⊢ <;> first | exact ⟨rfl, rfl, rfl⟩ | contradiction

theorem unsparseChunk_of_raw (dev : BlockDev δ) {partitionSize : ℕ} {c : Cursor} (s : Session δ)
    (h : acceptedChunk source partitionSize c = some .raw) :
    ∃ s₁, SameDevice s s₁ ∧
      let r := flashWrite dev source (c.off + sizeofChunkHeader) (chunkLen source c.off) c.start s₁
      unsparseChunk dev source partitionSize c s =
        (if r.1 = chunkLen source c.off then some (c.next source .raw) else none, r.2) := by
  obtain ⟨hlen, htype, htotal⟩ := acceptedChunk_raw_iff.mp h
  refine ⟨(((s.note .chunkHeader c.off 2).note .chunkHeader (c.off + 4) 4).note .fileHeader 12
    4).note .chunkHeader (c.off + 8) 4, ⟨rfl, rfl⟩, ?_⟩
  simp only [unsparseChunk, rawChunk, if_pos htype, htotal, ne_eq, not_true_eq_false, if_false,
    gt_iff_lt, if_neg hlen.not_gt, Cursor.next, payloadLen, if_true, ite_not]
  split <;> rfl

theorem unsparseChunk_of_dontCare (dev : BlockDev δ) {partitionSize : ℕ} {c : Cursor}
    (s : Session δ) (h : acceptedChunk source partitionSize c = some .dontCare) :
    (unsparseChunk dev source partitionSize c s).1 = some (c.next source .dontCare) ∧
      SameDevice s (unsparseChunk dev source partitionSize c s).2 := by
  obtain ⟨hlen, htype, htotal⟩ := acceptedChunk_dontCare_iff.mp h
  have hraw : ¬ chunkType source c.off = chunkTypeRaw := by
    rw [htype]
    decide
  simp only [unsparseChunk, dontCareChunk, if_neg hraw, if_pos htype, htotal, ne_eq,
    not_true_eq_false, if_false, gt_iff_lt, if_neg hlen.not_gt]
  exact ⟨rfl, rfl, rfl⟩

/-- The cursor behind an iteration that goes on. -/
theorem unsparseChunk_next {partitionSize : ℕ} {c c' : Cursor} {s s' : Session δ}
    (h : unsparseChunk dev source partitionSize c s = (some c', s')) :
    ∃ kind, acceptedChunk source partitionSize c = some kind ∧ c' = c.next source kind := by
  cases hk : acceptedChunk source partitionSize c with
  | none =>
    have hnone := (unsparseChunk_of_none dev s hk).1
    rw [h] at hnone
    cases hnone
  | some kind =>
    refine ⟨kind, rfl, ?_⟩
    cases kind with
    | dontCare =>
      have hsome := (unsparseChunk_of_dontCare dev s hk).1
      rw [h] at hsome
      exact Option.some.inj hsome
    | raw =>
      obtain ⟨s₁, -, heq⟩ := unsparseChunk_of_raw dev s hk
      dsimp only at heq
      rw [h] at heq
      split_ifs at heq
      · exact Option.some.inj (Prod.mk.inj heq).1
      · cases (Prod.mk.inj heq).1

/-- A write that reports all its blocks reports all its bytes. -/
theorem flashWrite_of_ok {off size start : ℕ} {s : Session δ} (hsize : size < 2 ^ 32)
    (h : (dev.blockWrite (u32 (start / dev.blLen)) (u32 (blocksUp size dev.blLen))
      (advance source off) s.dev).1 = u32 (blocksUp size dev.blLen)) :
    (flashWrite dev source off size start s).1 = size := by
  have hcnt := blocksUp_le_self size dev.blLen_pos
  have hmul := blocksUp_mul_eq size dev.blLen_pos
  have hu : u32 (blocksUp size dev.blLen) = blocksUp size dev.blLen := u32_of_lt (by omega)
  rw [hu] at h
  simp only [flashWrite, Session.blockWrite, Session.note, hu, h, hmul]
  unfold u32
  omega

/-- No request and no read is forgotten. -/
structure Grows (s s' : Session δ) : Prop where
  requests : s.requests ⊆ s'.requests
  reads : s.reads ⊆ s'.reads

theorem Grows.trans {s₁ s₂ s₃ : Session δ} (h : Grows s₁ s₂) (h' : Grows s₂ s₃) : Grows s₁ s₃ :=
  ⟨fun _ hr => h'.requests (h.requests hr), fun _ hr => h'.reads (h.reads hr)⟩

theorem Grows.note (s : Session δ) (region : Region) (off len : ℕ) :
    Grows s (s.note region off len) := ⟨fun _ h => h, fun _ h => List.mem_cons_of_mem _ h⟩

theorem unsparseChunk_grows (dev : BlockDev δ) (source : Mem) (partitionSize : ℕ) (c : Cursor)
    (s : Session δ) : Grows s (unsparseChunk dev source partitionSize c s).2 := by
  simp only [unsparseChunk, rawChunk, dontCareChunk]
  constructor <;> intro r hr <;> split_ifs <;>
    simp [flashWrite, Session.blockWrite, Session.note, Session.putError, hr]

theorem unsparseLoop_grows (dev : BlockDev δ) (source : Mem) (partitionSize n : ℕ) (c : Cursor)
    (s : Session δ) :
    Grows (s.note .fileHeader 20 4) (unsparseLoop dev source partitionSize n c s).2 := by
  induction n generalizing c s with
  | zero => exact ⟨fun _ h => h, fun _ h => h⟩
  | succ n ih =>
    have hstep := unsparseChunk_grows dev source partitionSize c (s.note .fileHeader 20 4)
    rw [unsparseLoop]
    split
    · next s' heq =>
      rw [heq] at hstep
      exact hstep
    · next c' s' heq =>
      rw [heq] at hstep
      exact (hstep.trans (Grows.note s' .fileHeader 20 4)).trans (ih c' s')

theorem headerAccepted_sameDevice (source : Mem) (partitionSize : ℕ) (s : Session δ) :
    SameDevice s (headerAccepted source partitionSize s).2 := by
  simp only [headerAccepted]
  split_ifs <;> exact ⟨rfl, rfl⟩

/-- The file header is one that the checks let pass. -/
def HeaderOk (source : Mem) (partitionSize : ℕ) : Prop :=
  headerTotalBlks source * headerBlkSz source ≤ partitionSize ∧
    headerMajorVersion source = sparseHeaderMajorVer ∧
    headerFileHdrSz source = sizeofSparseHeader ∧ headerChunkHdrSz source = sizeofChunkHeader

theorem headerAccepted_iff {partitionSize : ℕ} {s : Session δ} :
    (headerAccepted source partitionSize s).1 = true ↔
      headerMagic source = sparseHeaderMagic ∧ HeaderOk source partitionSize := by
  unfold headerAccepted HeaderOk
  dsimp only
  split_ifs <;> simp_all

end Steps

/-- A property of the cursor holds at each of the next `n` chunks up to the first one that
is not accepted. -/
def EveryChunk (source : Mem) (partitionSize : ℕ) (P : Cursor → Prop) : ℕ → Cursor → Prop
  | 0, _ => True
  | n + 1, c => P c ∧ ∀ kind, acceptedChunk source partitionSize c = some kind →
      EveryChunk source partitionSize P n (c.next source kind)

theorem EveryChunk.mono {source : Mem} {partitionSize : ℕ} {P P' : Cursor → Prop}
    (h : ∀ c, P c → P' c) {n : ℕ} {c : Cursor} (hP : EveryChunk source partitionSize P n c) :
    EveryChunk source partitionSize P' n c := by
  induction n generalizing c with
  | zero => trivial
  | succ n ih => exact ⟨h c hP.1, fun kind hk => ih (hP.2 kind hk)⟩

/-- A device on which every write succeeds. -/
def sink (bl : ℕ) (hpos : 0 < bl) (hlt : bl < 2 ^ 32) : BlockDev Unit where
  blLen := bl
  blLen_pos := hpos
  blLen_lt := hlt
  blockWrite _ cnt _ d := (cnt, d)

section Rules
variable {δ : Type} {source : Mem} {partitionSize : ℕ} {P : Cursor → Prop}

/-- What every iteration keeps, where the property of the cursor holds, the loop keeps. -/
theorem unsparseLoop_rule (dev : BlockDev δ) {Q : Session δ → Prop}
    (hread : ∀ s, Q s → Q (s.note .fileHeader 20 4))
    (hstep : ∀ c s, Q s → P c → Q (unsparseChunk dev source partitionSize c s).2)
    (n : ℕ) {c : Cursor} {s : Session δ} (hs : Q s) (hP : EveryChunk source partitionSize P n c) :
    Q (unsparseLoop dev source partitionSize n c s).2 := by
  induction n generalizing c s with
  | zero => exact hread s hs
  | succ n ih =>
    have hnext := hstep c _ (hread s hs) hP.1
    rw [unsparseLoop]
    split
    · next s' heq =>
      rw [heq] at hnext
      exact hnext
    · next c' s' heq =>
      rw [heq] at hnext
      obtain ⟨kind, hk, rfl⟩ := unsparseChunk_next heq
      exact ih hnext (hP.2 kind hk)

variable {bl : ℕ} {hpos : 0 < bl} {hlt : bl < 2 ^ 32}

/-- On a device that accepts everything an iteration goes on behind every accepted chunk. -/
theorem unsparseChunk_sink {c : Cursor} {kind : ChunkKind} (s : Session Unit)
    (h : acceptedChunk source partitionSize c = some kind) :
    (unsparseChunk (sink bl hpos hlt) source partitionSize c s).1 = some (c.next source kind) := by
  cases kind with
  | dontCare => exact (unsparseChunk_of_dontCare _ s h).1
  | raw =>
    obtain ⟨s₁, -, heq⟩ := unsparseChunk_of_raw (sink bl hpos hlt) s h
    have hlen := rawLen_lt (acceptedChunk_raw_iff.mp h).2.2
    have hok : (flashWrite (sink bl hpos hlt) source (c.off + sizeofChunkHeader)
        (chunkLen source c.off) c.start s₁).1 = chunkLen source c.off :=
      flashWrite_of_ok (by omega) rfl
    rw [heq]
    simp only [hok, if_true]

/-- On such a device the loop visits every chunk. -/
theorem unsparseLoop_sink_iff {Q : Session Unit → Prop}
    (hread : ∀ s, Q (s.note .fileHeader 20 4) ↔ Q s)
    (hstep : ∀ c s, Q (unsparseChunk (sink bl hpos hlt) source partitionSize c s).2 ↔ Q s ∧ P c)
    (n : ℕ) {c : Cursor} {s : Session Unit} :
    Q (unsparseLoop (sink bl hpos hlt) source partitionSize n c s).2 ↔
      Q s ∧ EveryChunk source partitionSize P n c := by
  induction n generalizing c s with
  | zero => exact (hread s).trans (and_iff_left trivial).symm
  | succ n ih =>
    have hnext := (hstep c (s.note .fileHeader 20 4)).trans (and_congr_left fun _ => hread s)
    rw [unsparseLoop, EveryChunk, ← and_assoc, ← hnext]
    rcases hr : unsparseChunk (sink bl hpos hlt) source partitionSize c
      (s.note .fileHeader 20 4) with ⟨o, s'⟩
    cases hk : acceptedChunk source partitionSize c with
    | none =>
      have hnone := (unsparseChunk_of_none (sink bl hpos hlt) (s.note .fileHeader 20 4) hk).1
      rw [hr] at hnone
      obtain rfl : o = none := hnone
      simp
    | some kind =>
      have hsome : _ = _ := @unsparseChunk_sink source partitionSize bl hpos hlt c kind
        (s.note .fileHeader 20 4) hk
      rw [hr] at hsome
      obtain rfl : o = some (c.next source kind) := hsome
      refine ih.trans ?_
      simp

end Rules

/-- A disk of `lba` blocks that stores what it is sent and refuses what does not fit. -/
def ramDisk (bl lba : ℕ) (hpos : 0 < bl) (hlt : bl < 2 ^ 32) : BlockDev Mem where
  blLen := bl
  blLen_pos := hpos
  blLen_lt := hlt
  blockWrite blk cnt src disk :=
    if blk + cnt > lba then (0, disk) else (cnt, overlay disk (blk * bl) (cnt * bl) src)

/-- The session before the first request. -/
def Session.initial {δ : Type} (d : δ) : Session δ := ⟨d, [], [], []⟩

/-- The bytes of a file header. -/
def headerBytes (blkSz totalBlks totalChunks : ℕ) : List UInt8 :=
  leBytes 4 sparseHeaderMagic ++ leBytes 2 1 ++ leBytes 2 0 ++ leBytes 2 28 ++ leBytes 2 12 ++
    leBytes 4 blkSz ++ leBytes 4 totalBlks ++ leBytes 4 totalChunks ++ leBytes 4 0

/-- The bytes of a chunk header. -/
def chunkBytes (type sz total : ℕ) : List UInt8 :=
  leBytes 2 type ++ leBytes 2 0 ++ leBytes 4 sz ++ leBytes 4 total

end UBoot.Flash
