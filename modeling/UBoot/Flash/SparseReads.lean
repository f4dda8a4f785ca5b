import UBoot.Flash.SparseFile

/-!
# What the sparse parser reads of the image

`write_unsparse` is given the length of the image and never looks at it. The chunk
count and the chunk lengths it follows are the image's own, so it stays inside the
image exactly when what the image declares does.
-/
namespace UBoot.Flash
open ByteStore

/-- Every byte read as a header or as payload lies below `size`. -/
def Session.ReadsBelow {δ : Type} (size : ℕ) (s : Session δ) : Prop :=
  ∀ r ∈ s.reads, r.region ≠ .padding → ∀ i < r.len, r.off + i < size

/-- On every device, `check_sparse_image` and `write_unsparse` read below `size` only. -/
def NeverReadsPast (source : Mem) (size start partitionSize : ℕ) : Prop :=
  ∀ (δ : Type) (dev : BlockDev δ) (d : δ),
    (checkSparseImage source (Session.initial d)).2.ReadsBelow size ∧
      (writeUnsparse dev source size start partitionSize (Session.initial d)).2.ReadsBelow size

/-- The chunk at the cursor lies below `size`: its type, its header if the type is known,
and its payload if it is an accepted raw chunk. -/
def ChunkWithin (source : Mem) (size partitionSize : ℕ) (c : Cursor) : Prop :=
  c.off + 2 ≤ size ∧
    (chunkType source c.off = chunkTypeRaw ∨ chunkType source c.off = chunkTypeDontCare →
      c.off + sizeofChunkHeader ≤ size) ∧
    (acceptedChunk source partitionSize c = some .raw →
      c.off + sizeofChunkHeader + chunkLen source c.off ≤ size)

/-- What the image declares lies below `size`: the magic, the size fields of a header with
the right magic, and the chunk count and the chunks behind a header that passes. -/
def ImageWithin (source : Mem) (size start partitionSize : ℕ) : Prop :=
  4 ≤ size ∧ (headerMagic source = sparseHeaderMagic → 20 ≤ size ∧
    (HeaderOk source partitionSize → 24 ≤ size ∧
      EveryChunk source partitionSize (ChunkWithin source size partitionSize)
        (headerTotalChunks source) ⟨headerFileHdrSz source, start, 0⟩))

section Steps
variable {δ : Type} {dev : BlockDev δ} {source : Mem} {size partitionSize : ℕ}

theorem readsBelow_note {s : Session δ} {region : Region} {off len : ℕ} (hr : region ≠ .padding)
    (hlen : 0 < len) :
    (s.note region off len).ReadsBelow size ↔ off + len ≤ size ∧ s.ReadsBelow size := by
  unfold Session.ReadsBelow Session.note
  simp only [List.forall_mem_cons]
  refine and_congr_left fun _ => ⟨fun h => ?_, fun h _ i hi => by omega⟩
  have := h hr (len - 1) (by omega)
  omega

@[simp] theorem readsBelow_fileHeader {s : Session δ} {off len : ℕ} (hlen : 0 < len) :
    (s.note .fileHeader off len).ReadsBelow size ↔ off + len ≤ size ∧ s.ReadsBelow size :=
  readsBelow_note (by decide) hlen

@[simp] theorem readsBelow_chunkHeader {s : Session δ} {off len : ℕ} (hlen : 0 < len) :
    (s.note .chunkHeader off len).ReadsBelow size ↔ off + len ≤ size ∧ s.ReadsBelow size :=
  readsBelow_note (by decide) hlen

@[simp] theorem readsBelow_putError {s : Session δ} {code : String} :
    (s.putError code).ReadsBelow size ↔ s.ReadsBelow size := Iff.rfl

theorem readsBelow_initial (d : δ) : (Session.initial d).ReadsBelow size := nofun

/-- A device write reads its payload. -/
theorem readsBelow_flashWrite {s : Session δ} {off len start : ℕ} :
    (flashWrite dev source off len start s).2.ReadsBelow size ↔
      (0 < len → off + len ≤ size) ∧ s.ReadsBelow size := by
  unfold Session.ReadsBelow flashWrite Session.blockWrite Session.note
  simp only [List.forall_mem_cons, ne_eq, not_true_eq_false, false_implies, true_and]
  refine and_congr_left fun _ => ⟨fun h hlen => ?_, fun h _ i hi => ?_⟩
  · have := h (by decide) (len - 1) (by omega)
    omega
  · have := h (by omega)
    omega

/-- The reads of a chunk header, once the file header has been read. -/
theorem readsBelow_header {s : Session δ} {c : Cursor} (h24 : 24 ≤ size) :
    (((s.note .chunkHeader (c.off + 4) 4).note .fileHeader 12 4).note .chunkHeader
        (c.off + 8) 4).ReadsBelow size ↔ c.off + sizeofChunkHeader ≤ size ∧ s.ReadsBelow size := by
  simp only [readsBelow_fileHeader, readsBelow_chunkHeader, Nat.ofNat_pos, sizeofChunkHeader]
  constructor
  · rintro ⟨h₁, -, -, h⟩
    exact ⟨h₁, h⟩
  · rintro ⟨h₁, h⟩
    exact ⟨h₁, by omega, by omega, h⟩

/-- A raw chunk reads its header, and its payload when its checks pass. -/
theorem readsBelow_rawChunk {s : Session δ} {c : Cursor} (h24 : 24 ≤ size) :
    (rawChunk dev source partitionSize c s).2.ReadsBelow size ↔
      c.off + sizeofChunkHeader ≤ size ∧
        (u64 (c.outlen + chunkLen source c.off) ≤ partitionSize ∧
            chunkTotalSz source c.off = chunkLen source c.off + sizeofChunkHeader →
          c.off + sizeofChunkHeader + chunkLen source c.off ≤ size) ∧ s.ReadsBelow size := by
  have hhead := @readsBelow_header _ size s c h24
  simp only [rawChunk]
  split_ifs with htotal hlen hret
  · rw [readsBelow_putError, hhead]
    exact and_congr_right fun _ => (and_iff_right fun h => absurd h.2 htotal).symm
  · rw [readsBelow_putError, hhead]
    exact and_congr_right fun _ => (and_iff_right fun h => absurd h.1 (not_le.mpr hlen)).symm
  all_goals
    have hpass := And.intro (not_lt.mp hlen) (not_not.mp htotal)
    rw [readsBelow_flashWrite, hhead, and_left_comm]
    refine and_congr_right fun hoff => and_congr_left fun _ => ⟨fun h _ => ?_, fun h _ => h hpass⟩
    rcases Nat.eq_zero_or_pos (chunkLen source c.off) with h0 | hpos
    · omega
    · exact h hpos

/-- A don't-care chunk reads its header. -/
theorem readsBelow_dontCareChunk {s : Session δ} {c : Cursor} (h24 : 24 ≤ size) :
    (dontCareChunk source partitionSize c s).2.ReadsBelow size ↔
      c.off + sizeofChunkHeader ≤ size ∧ s.ReadsBelow size := by
  have hall : ((((s.note .chunkHeader (c.off + 8) 4).note .chunkHeader (c.off + 4) 4).note
      .fileHeader 12 4).ReadsBelow size) ↔
      c.off + sizeofChunkHeader ≤ size ∧ s.ReadsBelow size := by
    simp only [readsBelow_fileHeader, readsBelow_chunkHeader, Nat.ofNat_pos, sizeofChunkHeader]
    constructor
    · rintro ⟨-, -, h₁, h⟩
      exact ⟨h₁, h⟩
    · rintro ⟨h₁, h⟩
      exact ⟨by omega, by omega, h₁, h⟩
  simp only [dontCareChunk]
  split_ifs
  · rw [readsBelow_putError, readsBelow_chunkHeader (by omega)]
    rfl
  · rw [readsBelow_putError, hall]
  · rw [hall]

/-- What one iteration reads, once the file header has been read. -/
theorem readsBelow_unsparseChunk (dev : BlockDev δ) (source : Mem) (partitionSize : ℕ)
    (s : Session δ) (c : Cursor) (h24 : 24 ≤ size) :
    (unsparseChunk dev source partitionSize c s).2.ReadsBelow size ↔
      s.ReadsBelow size ∧ ChunkWithin source size partitionSize c := by
  rw [ChunkWithin, acceptedChunk_raw_iff]
  simp only [unsparseChunk]
  split_ifs with hraw hdont
  · rw [readsBelow_rawChunk h24, readsBelow_chunkHeader (by omega)]
    constructor
    · rintro ⟨h₁, h₂, h₃, h₄⟩
      exact ⟨h₄, h₃, fun _ => h₁, fun h => h₂ ⟨h.1, h.2.2⟩⟩
    · rintro ⟨h₁, h₂, h₃, h₄⟩
      exact ⟨h₃ (.inl hraw), fun h => h₄ ⟨h.1, hraw, h.2⟩, h₂, h₁⟩
  · rw [readsBelow_dontCareChunk h24, readsBelow_chunkHeader (by omega)]
    constructor
    · rintro ⟨h₁, h₂, h₃⟩
      exact ⟨h₃, h₂, fun _ => h₁, fun h => absurd h.2.1 hraw⟩
    · rintro ⟨h₁, h₂, h₃, -⟩
      exact ⟨h₃ (.inr hdont), h₂, h₁⟩
  · rw [readsBelow_chunkHeader (by omega)]
    constructor
    · rintro ⟨h₁, h₂⟩
      exact ⟨h₂, h₁, fun h => absurd h (by tauto), fun h => absurd h.2.1 hraw⟩
    · rintro ⟨h₁, h₂, -, -⟩
      exact ⟨h₂, h₁⟩

end Steps

section Whole
variable {source : Mem} {size partitionSize : ℕ}

/-- The header checks read the magic, and up to byte 20 behind a right one. -/
theorem readsBelow_headerAccepted {δ : Type} {s : Session δ} :
    (headerAccepted source partitionSize s).2.ReadsBelow size ↔
      s.ReadsBelow size ∧ 4 ≤ size ∧ (headerMagic source = sparseHeaderMagic → 20 ≤ size) := by
  unfold headerAccepted
  dsimp only
  split_ifs with hmagic <;>
    simp only [readsBelow_putError, readsBelow_fileHeader, Nat.ofNat_pos]
  · constructor
    · rintro ⟨h₁, h⟩
      exact ⟨h, h₁, fun h => absurd h hmagic⟩
    · rintro ⟨h, h₁, -⟩
      exact ⟨h₁, h⟩
  all_goals
    constructor
    · intro h
      exact ⟨by tauto, by omega, fun _ => by omega⟩
    · rintro ⟨h, h₁, h₂⟩
      have := h₂ (not_not.mp hmagic)
      simp only [h, and_true]
      omega

end Whole

/-- The parser stays inside an image of `size` bytes on every device if and only if what
the image declares does. -/
theorem never_reads_past_iff (source : Mem) (size start partitionSize : ℕ) :
    NeverReadsPast source size start partitionSize ↔
      ImageWithin source size start partitionSize := by
  have hread : ∀ {δ : Type} (s : Session δ), 24 ≤ size →
      ((s.note .fileHeader 20 4).ReadsBelow size ↔ s.ReadsBelow size) := fun s h24 =>
    (readsBelow_fileHeader (by omega)).trans (and_iff_right h24)
  constructor
  · intro h
    obtain ⟨hcheck, hwrite⟩ := h Unit (sink 512 (by norm_num) (by norm_num)) ()
    have h4 : 4 ≤ size := ((readsBelow_fileHeader (by omega)).mp hcheck).1
    refine ⟨h4, fun hmagic => ?_⟩
    unfold writeUnsparse at hwrite
    dsimp only at hwrite
    split at hwrite
    · have hfirst : ((headerAccepted source partitionSize (Session.initial ())).2.note
          .fileHeader 20 4).ReadsBelow size := fun r hr =>
        hwrite r ((unsparseLoop_grows ..).reads hr)
      have h24 : 24 ≤ size := ((readsBelow_fileHeader (by omega)).mp hfirst).1
      refine ⟨by omega, fun _ => ⟨h24, ?_⟩⟩
      exact ((unsparseLoop_sink_iff (fun s => hread s h24)
        (fun c s => readsBelow_unsparseChunk _ source partitionSize s c h24) _).mp hwrite).2
    · next hno =>
      refine ⟨(readsBelow_headerAccepted.mp hwrite).2.2 hmagic, fun hheader => ?_⟩
      exact absurd (headerAccepted_iff.mpr ⟨hmagic, hheader⟩) hno
  · rintro ⟨h4, h⟩ δ dev d
    refine ⟨(readsBelow_fileHeader (by omega)).mpr ⟨h4, readsBelow_initial d⟩, ?_⟩
    have hhead : (headerAccepted source partitionSize (Session.initial d)).2.ReadsBelow size :=
      readsBelow_headerAccepted.mpr ⟨readsBelow_initial d, h4, fun hm => (h hm).1⟩
    unfold writeUnsparse
    dsimp only
    split
    · next hok =>
      obtain ⟨hmagic, hheader⟩ := headerAccepted_iff.mp hok
      obtain ⟨h24, hchunks⟩ := (h hmagic).2 hheader
      exact unsparseLoop_rule dev (fun s hs => (hread s h24).mpr hs)
        (fun c s hs hc => (readsBelow_unsparseChunk dev source partitionSize s c h24).mpr ⟨hs, hc⟩)
        _ hhead hchunks
    · exact hhead

/-- An image of 40 bytes whose only chunk declares 4096 bytes of payload. -/
theorem truncated_image_is_read_past :
    ¬ NeverReadsPast (ofList (headerBytes 4096 1 1 ++ chunkBytes chunkTypeRaw 1 4108)) 40 0
      1048576 := by
  intro h
  have hread := (h Unit (sink 512 (by norm_num) (by norm_num)) ()).2 ⟨.payload, 40, 4096⟩
    (by decide +kernel) (by decide) 0 (by decide)
  exact absurd hread (by decide)

end UBoot.Flash
