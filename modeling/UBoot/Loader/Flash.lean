import UBoot.Loader.Turn

/-!
# The flash under the loader

A flash on which block requests succeed and do what they say, within a range of blocks.
The loader rounds to whole blocks on both sides: the start down, the length up.
-/
namespace UBoot.Loader
open ByteStore

section Flash
variable {σ : Type*} {env : Env σ} {Ok : σ → Prop} {content : σ → Mem} {lo hi : ℕ}

/-- Requests within the blocks from `lo` to `hi` succeed. A write puts its blocks into the
content, a read returns those of the content. -/
structure FlatFlash (env : Env σ) (Ok : σ → Prop) (content : σ → Mem) (lo hi : ℕ) : Prop where
  hi_lt : hi < 2 ^ 32
  writeBl_pos : 0 < env.writeBlLen
  writeBl_lt : env.writeBlLen < 2 ^ 32
  readBl_pos : 0 < env.readBlLen
  write : ∀ start cnt buf dev, Ok dev → 0 < cnt → lo ≤ start → start + cnt ≤ hi →
    let r := env.blockWrite start cnt buf dev
    r.1 = cnt ∧ Ok r.2 ∧ content r.2 =
      overlay (content dev) (start * env.writeBlLen) (cnt * env.writeBlLen) buf
  read : ∀ start cnt dst dev, Ok dev → 0 < cnt → lo ≤ start → start + cnt ≤ hi →
    let r := env.blockRead start cnt dst dev
    r.1 = cnt ∧ Ok r.2.2 ∧ content r.2.2 = content dev ∧
      ∀ i < cnt * env.readBlLen, r.2.1 i = content dev (start * env.readBlLen + i)

theorem FlatFlash.flashexWrite (h : FlatFlash env Ok content lo hi) {dev : σ} (hdev : Ok dev)
    {pos size : ℕ} (hsize : 0 < size) (hlo : lo ≤ pos / env.writeBlLen)
    (hhi : pos / env.writeBlLen + blocksUp size env.writeBlLen ≤ hi) (buf : Mem) :
    let r := env.flashexWrite pos buf size dev
    r.1 = true ∧ Ok r.2 ∧ content r.2 = overlay (content dev)
      (pos / env.writeBlLen * env.writeBlLen)
      (blocksUp size env.writeBlLen * env.writeBlLen) buf := by
  have hlt := h.hi_lt
  have hcnt : 0 < blocksUp size env.writeBlLen := by
    have := le_blocksUp_mul size h.writeBl_pos
    by_contra hzero
    rw [Nat.eq_zero_of_not_pos hzero] at this
    omega
  obtain ⟨hret, hok, hcontent⟩ := h.write _ _ buf dev hdev hcnt hlo hhi
  unfold Env.flashexWrite
  rw [if_neg hsize.ne', u32_of_lt (by omega), u32_of_lt (by omega)]
  exact ⟨by simpa using hret, hok, hcontent⟩

theorem FlatFlash.flashexRead (h : FlatFlash env Ok content lo hi) {dev : σ} (hdev : Ok dev)
    {pos size : ℕ} (hsize : 0 < size) (hlo : lo ≤ pos / env.readBlLen)
    (hhi : pos / env.readBlLen + blocksUp size env.readBlLen ≤ hi) (buf : Mem) :
    let r := env.flashexRead pos buf size dev
    r.1 = true ∧ Ok r.2.2 ∧ content r.2.2 = content dev ∧
      ∀ i < size, r.2.1 i = content dev (pos / env.readBlLen * env.readBlLen + i) := by
  have hlt := h.hi_lt
  have hle := le_blocksUp_mul size h.readBl_pos
  have hcnt : 0 < blocksUp size env.readBlLen := by
    by_contra hzero
    rw [Nat.eq_zero_of_not_pos hzero] at hle
    omega
  obtain ⟨hret, hok, hcontent, hbytes⟩ := h.read _ _ buf dev hdev hcnt hlo hhi
  unfold Env.flashexRead
  rw [u32_of_lt (by omega), u32_of_lt (by omega)]
  exact ⟨by simpa using hret, hok, hcontent, fun i hi => hbytes i (by omega)⟩

/-- Bytes that are written behind an aligned position lie in its blocks. -/
theorem block_bounds {start bl pos size len : ℕ} (hbl : 0 < bl) (hstart : bl ∣ start)
    (hend : pos + size ≤ len) : (start + pos) / bl = start / bl + pos / bl ∧
      pos / bl + blocksUp size bl ≤ blocksUp len bl ∧
      (start + pos) / bl * bl = start + (pos - pos % bl) := by
  obtain ⟨k, rfl⟩ := hstart
  have hdiv : (bl * k + pos) / bl = k + pos / bl := by
    rw [Nat.add_comm, Nat.add_mul_div_left _ _ hbl, Nat.add_comm]
  have hpos := Nat.div_add_mod pos bl
  have hcomm : bl * (pos / bl) = pos / bl * bl := Nat.mul_comm _ _
  refine ⟨by rw [hdiv, Nat.mul_div_cancel_left _ hbl], ?_, ?_⟩
  · have hlen := le_blocksUp_mul len hbl
    have hsize := blocksUp_mul_lt size hbl
    have hmul : (pos / bl + blocksUp size bl) * bl < (blocksUp len bl + 1) * bl := by
      rw [Nat.add_mul, Nat.add_mul, Nat.one_mul]
      omega
    exact Nat.lt_succ_iff.mp (Nat.lt_of_mul_lt_mul_right hmul)
  · rw [hdiv, Nat.add_mul, Nat.mul_comm k bl]
    omega

end Flash

/-- The array of blocks is such a flash. -/
theorem flatEnv_flat (noDdr forceResp : Bool) {blLen : ℕ} (hpos : 0 < blLen)
    (hlt : blLen < 2 ^ 32) (capacity : ℕ) {hi : ℕ} (hhi : hi < 2 ^ 32) :
    FlatFlash (flatEnv noDdr forceResp blLen capacity) (fun _ => True) id 0 hi := by
  refine ⟨hhi, hpos, hlt, hpos, fun _ _ _ _ _ _ _ _ => ⟨rfl, trivial, rfl⟩, ?_⟩
  intro start cnt dst dev _ _ _ _
  refine ⟨rfl, trivial, rfl, fun i hbound => ?_⟩
  exact overlay_of_mem _ _ (Nat.zero_le _) (lt_of_lt_of_eq hbound (Nat.zero_add _).symm)

end UBoot.Loader
