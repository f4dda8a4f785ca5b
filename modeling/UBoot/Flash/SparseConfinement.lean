import UBoot.Flash.SparseFile

/-!
# Sparse flashing stays inside the partition

`write_unsparse` checks one sum, `outlen`, and writes at another, `start`. Both are
64-bit sums of the same chunk lengths, so they wrap together: the output address
is the start of the partition plus `outlen` at every chunk that is written.
-/
namespace UBoot.Flash
open ByteStore

/-- Every block of the request lies in `[lo, hi)`. -/
def Request.Inside (lo hi : ℕ) (r : Request) : Prop :=
  ∀ b, r.blk ≤ b → b < r.blk + r.cnt → lo ≤ b ∧ b < hi

/-- Every block the device was asked to write lies in `[lo, hi)`. -/
def Session.Inside {δ : Type} (lo hi : ℕ) (s : Session δ) : Prop :=
  ∀ r ∈ s.requests, r.Inside lo hi

/-- The output address is the one that the checked sum stands for. -/
structure Cursor.InStep (start partitionSize : ℕ) (c : Cursor) : Prop where
  outlen_le : c.outlen ≤ partitionSize
  start_eq : c.start = start + c.outlen

section Steps
variable {δ : Type} {dev : BlockDev δ} {source : Mem} {start partitionSize : ℕ}

/-- Rounding a range up to whole blocks does not leave an aligned interval. -/
theorem div_add_blocksUp_le {bl a n m : ℕ} (hbl : 0 < bl) (h : a + n ≤ m * bl) :
    a / bl + blocksUp n bl ≤ m := by
  have hdiv : a / bl ≤ m := by
    rw [← Nat.mul_div_cancel m hbl]
    exact Nat.div_le_div_right (by omega)
  have hcnt : blocksUp n bl ≤ m - a / bl := by
    rw [blocksUp_le_iff _ _ hbl, Nat.sub_mul]
    have := Nat.div_mul_le_self a bl
    omega
  omega

/-- Both sums wrap together. -/
theorem Cursor.InStep.next {c : Cursor} {kind : ChunkKind} (hc : c.InStep start partitionSize)
    (hfit : start + partitionSize < 2 ^ 64)
    (h : acceptedChunk source partitionSize c = some kind) :
    (c.next source kind).InStep start partitionSize := by
  have hle := acceptedChunk_outlen_le h
  have hstart := hc.start_eq
  have hlen := chunkLen_lt source c.off
  have hout := hc.outlen_le
  refine ⟨hle, ?_⟩
  show u64 (c.start + chunkLen source c.off) = start + u64 (c.outlen + chunkLen source c.off)
  unfold u64 at *
  omega

/-- The request of an accepted raw chunk lies inside the partition. -/
theorem rawRequest_inside {c : Cursor} {bl : ℕ} (hbl : 0 < bl) (hbl' : bl < 2 ^ 32)
    (hc : c.InStep start partitionSize) (hstart : bl ∣ start) (hsize : bl ∣ partitionSize)
    (hfit : (start + partitionSize) / bl ≤ 2 ^ 32)
    (h : acceptedChunk source partitionSize c = some .raw) :
    Request.Inside (start / bl) ((start + partitionSize) / bl)
      ⟨u32 (c.start / bl), u32 (blocksUp (chunkLen source c.off) bl)⟩ := by
  have hle := acceptedChunk_outlen_le h
  have hlen := rawLen_lt (acceptedChunk_raw_iff.mp h).2.2
  have hend : (start + partitionSize) / bl * bl = start + partitionSize :=
    Nat.div_mul_cancel (Nat.dvd_add hstart hsize)
  have hbytes : start + partitionSize ≤ 2 ^ 32 * bl := hend ▸ Nat.mul_le_mul_right bl hfit
  have hout := hc.outlen_le
  have hcur := hc.start_eq
  -- the sum that was checked has not wrapped
  have hsum : c.start + chunkLen source c.off ≤ start + partitionSize := by
    have : u64 (c.outlen + chunkLen source c.off) = c.outlen + chunkLen source c.off :=
      u64_of_lt (by omega)
    omega
  have hblocks : c.start / bl + blocksUp (chunkLen source c.off) bl ≤
      (start + partitionSize) / bl := div_add_blocksUp_le hbl (hend.symm ▸ hsum)
  have hcnt : blocksUp (chunkLen source c.off) bl < 2 ^ 32 := by
    have := blocksUp_le_self (chunkLen source c.off) hbl
    omega
  intro b h₁ h₂
  dsimp only at h₁ h₂
  rw [u32_of_lt hcnt] at h₂
  have hlow : start / bl ≤ c.start / bl := Nat.div_le_div_right (by omega)
  generalize c.start / bl = blk at *
  generalize start / bl = lo at *
  generalize (start + partitionSize) / bl = hi at *
  have hblk : u32 blk = blk := u32_of_lt (by omega)
  omega

theorem Session.Inside.of_sameDevice {s s' : Session δ} {lo hi : ℕ} (hs : s.Inside lo hi)
    (h : SameDevice s s') : s'.Inside lo hi := by
  intro r hr
  rw [h.requests] at hr
  exact hs r hr

section Loop
variable (source) (hstart : dev.blLen ∣ start) (hsize : dev.blLen ∣ partitionSize)
  (hfit : (start + partitionSize) / dev.blLen ≤ 2 ^ 32)
include hstart hsize hfit

theorem unsparseChunk_requests_inside {c : Cursor} {s : Session δ}
    (hc : c.InStep start partitionSize)
    (hs : s.Inside (start / dev.blLen) ((start + partitionSize) / dev.blLen)) :
    (unsparseChunk dev source partitionSize c s).2.Inside (start / dev.blLen)
      ((start + partitionSize) / dev.blLen) := by
  cases h : acceptedChunk source partitionSize c with
  | none => exact hs.of_sameDevice (unsparseChunk_of_none dev s h).2
  | some kind =>
    cases kind with
    | dontCare => exact hs.of_sameDevice (unsparseChunk_of_dontCare dev s h).2
    | raw =>
      obtain ⟨s₁, hs₁, heq⟩ := unsparseChunk_of_raw dev s h
      rw [heq]
      intro r hr
      simp only [flashWrite, Session.blockWrite, Session.note, hs₁.requests, List.mem_cons] at hr
      rcases hr with rfl | hr
      · exact rawRequest_inside dev.blLen_pos dev.blLen_lt hc hstart hsize hfit h
      · exact hs r hr

theorem end_lt_of_fit : start + partitionSize < 2 ^ 64 := by
  have hend : (start + partitionSize) / dev.blLen * dev.blLen = start + partitionSize :=
    Nat.div_mul_cancel (Nat.dvd_add hstart hsize)
  calc start + partitionSize = (start + partitionSize) / dev.blLen * dev.blLen := hend.symm
    _ ≤ 2 ^ 32 * dev.blLen := Nat.mul_le_mul_right _ hfit
    _ < 2 ^ 32 * 2 ^ 32 := Nat.mul_lt_mul_of_pos_left dev.blLen_lt (by norm_num)
    _ = 2 ^ 64 := by norm_num

omit hstart hsize hfit in
/-- The two sums stay in step at every chunk. -/
theorem Cursor.InStep.everyChunk (n : ℕ) {c : Cursor} (hc : c.InStep start partitionSize)
    (hend : start + partitionSize < 2 ^ 64) :
    EveryChunk source partitionSize (·.InStep start partitionSize) n c := by
  induction n generalizing c with
  | zero => trivial
  | succ n ih => exact ⟨hc, fun kind hk => ih (hc.next hend hk)⟩

/-- Every request of the chunk loop lies inside the partition. -/
theorem unsparseLoop_requests_inside (n : ℕ) {c : Cursor} {s : Session δ}
    (hc : c.InStep start partitionSize)
    (hs : s.Inside (start / dev.blLen) ((start + partitionSize) / dev.blLen)) :
    (unsparseLoop dev source partitionSize n c s).2.Inside (start / dev.blLen)
      ((start + partitionSize) / dev.blLen) :=
  unsparseLoop_rule dev (fun _ h => h)
    (fun _ _ hs hc => unsparseChunk_requests_inside source hstart hsize hfit hc hs) n hs
    (hc.everyChunk source n (end_lt_of_fit hstart hsize hfit))

end Loop
end Steps

/-- Whatever the image holds and whatever the device does, `write_unsparse` asks for
blocks of its partition only. -/
theorem writeUnsparse_requests_inside {δ : Type} (dev : BlockDev δ) (source : Mem)
    (size start partitionSize : ℕ) (s : Session δ) (hs : s.requests = [])
    (hstart : dev.blLen ∣ start) (hsize : dev.blLen ∣ partitionSize)
    (hfit : (start + partitionSize) / dev.blLen ≤ 2 ^ 32) :
    (writeUnsparse dev source size start partitionSize s).2.Inside (start / dev.blLen)
      ((start + partitionSize) / dev.blLen) := by
  have hhead : (headerAccepted source partitionSize s).2.Inside (start / dev.blLen)
      ((start + partitionSize) / dev.blLen) := by
    intro r hr
    rw [(headerAccepted_sameDevice source partitionSize s).requests, hs] at hr
    cases hr
  unfold writeUnsparse
  dsimp only
  split
  · exact unsparseLoop_requests_inside source hstart hsize hfit _ ⟨Nat.zero_le _, rfl⟩ hhead
  · exact hhead

/-- Don't-care chunks whose lengths sum up to 2^64, and a raw chunk behind them. -/
theorem writeUnsparse_requests_inside_wrap :
    (writeUnsparse (ramDisk (3 * 2 ^ 30) (2 ^ 32) (by norm_num) (by norm_num))
      (ofList (headerBytes (2 ^ 31) 0 4 ++ chunkBytes chunkTypeDontCare (2 ^ 32 - 1) 12 ++
        chunkBytes chunkTypeDontCare 2 12 ++ chunkBytes chunkTypeDontCare (2 ^ 32 - 1) 12 ++
        chunkBytes chunkTypeRaw 1 (2 ^ 31 + 12))) 76 (3 * 2 ^ 30) (3 * 2 ^ 30 * (2 ^ 32 - 1))
      (Session.initial fun _ => 0)).2.Inside (3 * 2 ^ 30 / (3 * 2 ^ 30))
        ((3 * 2 ^ 30 + 3 * 2 ^ 30 * (2 ^ 32 - 1)) / (3 * 2 ^ 30)) :=
  writeUnsparse_requests_inside _ _ _ _ _ _ rfl (Nat.dvd_refl _) (Nat.dvd_mul_right _ _)
    (by norm_num [ramDisk])

end UBoot.Flash
