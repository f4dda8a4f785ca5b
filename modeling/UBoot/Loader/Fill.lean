import UBoot.Loader.Flash

/-!
# Fill chunks

A fill chunk of the chunked download is a word and the number of its copies. The loop under
`f_need_sync` writes them from the staging buffer in pieces, and counts words down while it
adds bytes up; the product of the two is a 32-bit one.
-/
namespace UBoot.Loader
open ByteStore

section Pieces
variable {σ : Type*} (env : Env σ)

/-- Pieces of the buffer written one behind the other. -/
def Env.writePieces (buf : Mem) : ℕ → List ℕ → σ → σ
  | _, [], dev => dev
  | curAddr, i :: pieces, dev =>
    Env.writePieces buf (curAddr + i) pieces (env.flashexWrite curAddr buf i dev).2

end Pieces

/-- The bytes of a word, over and over. -/
def copies (word : ℕ) : Mem := fun i => digits word (i % 4)

/-- The loop ends after pieces that fit the staging buffer, with the copies written to the
range and the address behind it; nothing has wrapped around. -/
structure Filled {σ : Type*} (env : Env σ) (content : σ → Mem) (tmp : Mem)
    (word len curAddr : ℕ) (dev : σ) : Prop where
  ends : ∃ pieces : List ℕ, (∀ i ∈ pieces, i ≤ env.tmpBufSize) ∧ pieces.sum = 4 * len ∧
    env.fillLoop (env.fillBuf word tmp) len curAddr dev =
      some (curAddr + 4 * len, env.writePieces (env.fillBuf word tmp) curAddr pieces dev)
  written : ∀ r, env.fillLoop (env.fillBuf word tmp) len curAddr dev = some r →
    content r.2 = overlay (content dev) curAddr (4 * len) (copies word)
  product : 4 * len < 2 ^ 32
  address : curAddr + 4 * len < 2 ^ 64

/-- On every flash of `hi` blocks of this length the fill is right. -/
def FillRight (noDdr : Bool) (bl hi word len curAddr : ℕ) : Prop :=
  ∀ (σ : Type) (env : Env σ) (Ok : σ → Prop) (content : σ → Mem),
    env.noDdr = noDdr → env.writeBlLen = bl → FlatFlash env Ok content 0 hi →
    ∀ (tmp : Mem) (dev : σ), Ok dev → Filled env content tmp word len curAddr dev

section Loop
variable {σ : Type*} {env : Env σ} {buf : Mem}

theorem dvd_tmpBufSize (env : Env σ) : 512 ∣ env.tmpBufSize := by
  unfold Env.tmpBufSize
  split <;> decide

theorem tmpBufSize_pos (env : Env σ) : 0 < env.tmpBufSize := by
  unfold Env.tmpBufSize
  split <;> decide

/-- The next piece, while the product does not wrap. -/
theorem fillSize_of_lt {len : ℕ} (h : len < 2 ^ 30) :
    env.fillSize len = min (4 * len) env.tmpBufSize := by
  rw [Env.fillSize, u32_of_lt (by omega)]
  split <;> omega

/-- One piece. -/
theorem fillLoop_pos {len curAddr : ℕ} (hpos : 0 < len) (hlen : len < 2 ^ 30)
    (haddr : curAddr + 4 * len < 2 ^ 64) (dev : σ) :
    env.fillLoop buf len curAddr dev =
      env.fillLoop buf (len - min (4 * len) env.tmpBufSize / 4)
        (curAddr + min (4 * len) env.tmpBufSize)
        (env.flashexWrite curAddr buf (min (4 * len) env.tmpBufSize) dev).2 := by
  have htmp := tmpBufSize_pos env
  rw [Env.fillLoop, if_neg hpos.ne']
  dsimp only
  rw [fillSize_of_lt hlen, if_neg (by omega), u64_of_lt (by omega)]

/-- The loop ends, with pieces whose sum is exact. -/
theorem fillLoop_ends {len curAddr : ℕ} (hlen : len < 2 ^ 30)
    (haddr : curAddr + 4 * len < 2 ^ 64) (dev : σ) :
    ∃ pieces : List ℕ, (∀ i ∈ pieces, i ≤ env.tmpBufSize) ∧ pieces.sum = 4 * len ∧
      env.fillLoop buf len curAddr dev =
        some (curAddr + 4 * len, env.writePieces buf curAddr pieces dev) := by
  induction len using Nat.strong_induction_on generalizing curAddr dev with
  | _ len ih =>
    rcases Nat.eq_zero_or_pos len with rfl | hpos
    · refine ⟨[], by simp, rfl, ?_⟩
      rw [Env.fillLoop, if_pos rfl]
      rfl
    · have htmp := tmpBufSize_pos env
      have hfour : 4 ∣ env.tmpBufSize := (by decide : 4 ∣ 512).trans (dvd_tmpBufSize env)
      generalize hi : min (4 * len) env.tmpBufSize = i
      have hdvd : 4 * (i / 4) = i := by omega
      obtain ⟨pieces, hsmall, hsum, hrest⟩ := ih (len - i / 4) (by omega) (by omega)
        (show curAddr + i + 4 * (len - i / 4) < 2 ^ 64 by omega)
        (env.flashexWrite curAddr buf i dev).2
      refine ⟨i :: pieces, ?_, ?_, ?_⟩
      · rintro j (_ | hj)
        · omega
        · exact hsmall j ‹_›
      · rw [List.sum_cons, hsum]
        omega
      · rw [fillLoop_pos hpos hlen haddr, hi, hrest, Env.writePieces]
        congr 2
        omega

/-- From 2^30 words on, the product comes down to 0 before the count does. -/
theorem fillLoop_of_ge {len : ℕ} (hlen : 2 ^ 30 ≤ len) (curAddr : ℕ) (dev : σ) :
    env.fillLoop buf len curAddr dev = none := by
  induction len using Nat.strong_induction_on generalizing curAddr dev with
  | _ len ih =>
    rw [Env.fillLoop, if_neg (by omega)]
    dsimp only
    split
    · rfl
    · next hi =>
      have hdvd := env.four_dvd_fillSize len
      have hle : env.fillSize len ≤ u32 (len * 4) := by
        rw [Env.fillSize]
        split <;> omega
      have hrest : 2 ^ 30 ≤ len - env.fillSize len / 4 := by
        unfold u32 at hle
        omega
      exact ih _ (by omega) hrest _ _

end Loop

section Content
variable {σ : Type*} {env : Env σ} {Ok : σ → Prop} {content : σ → Mem} {hi : ℕ}

theorem advance_copies {word k : ℕ} (h : 4 ∣ k) : advance (copies word) k = copies word := by
  funext i
  obtain ⟨j, rfl⟩ := h
  rw [advance_apply, copies, copies, Nat.mul_add_mod]

/-- What stands in the staging buffer. -/
theorem fillBuf_apply (env : Env σ) (word : ℕ) (tmp : Mem) {i : ℕ} (h : i < env.tmpBufSize) :
    env.fillBuf word tmp i = copies word i := by
  rw [Env.fillBuf, overlay_of_mem _ _ (Nat.zero_le _) (by omega)]
  rfl

/-- One write of the staging buffer. -/
theorem write_fillBuf (h : FlatFlash env Ok content 0 hi) (hbl : env.writeBlLen ∣ 512)
    (word : ℕ) (tmp : Mem) {i curAddr : ℕ} (hpos : 0 < i) (hle : i ≤ env.tmpBufSize)
    (hhi : curAddr / env.writeBlLen + blocksUp i env.writeBlLen ≤ hi) {dev : σ} (hdev : Ok dev) :
    Ok (env.flashexWrite curAddr (env.fillBuf word tmp) i dev).2 ∧
      content (env.flashexWrite curAddr (env.fillBuf word tmp) i dev).2 =
        overlay (content dev) (curAddr / env.writeBlLen * env.writeBlLen)
          (blocksUp i env.writeBlLen * env.writeBlLen) (copies word) := by
  obtain ⟨-, hok, hcontent⟩ := h.flashexWrite hdev hpos (Nat.zero_le _) hhi
    (env.fillBuf word tmp)
  refine ⟨hok, hcontent.trans (overlay_congr _ fun j hj => fillBuf_apply env word tmp ?_)⟩
  have hdvd : env.writeBlLen ∣ env.tmpBufSize := hbl.trans (dvd_tmpBufSize env)
  have hblocks : blocksUp i env.writeBlLen ≤ env.tmpBufSize / env.writeBlLen := by
    rw [blocksUp_le_iff _ _ h.writeBl_pos, Nat.div_mul_cancel hdvd]
    exact hle
  calc j < blocksUp i env.writeBlLen * env.writeBlLen := hj
    _ ≤ env.tmpBufSize / env.writeBlLen * env.writeBlLen := Nat.mul_le_mul_right _ hblocks
    _ = env.tmpBufSize := Nat.div_mul_cancel hdvd

/-- The blocks around the range are filled, and no others. -/
theorem fillLoop_content (h : FlatFlash env Ok content 0 hi) (hbl : env.writeBlLen ∣ 512)
    (word : ℕ) (tmp : Mem) {len curAddr : ℕ} (hlen : len < 2 ^ 30)
    (haddr : curAddr + 4 * len < 2 ^ 64)
    (hhi : curAddr / env.writeBlLen + blocksUp (4 * len) env.writeBlLen ≤ hi) {dev : σ}
    (hdev : Ok dev) {r : ℕ × σ}
    (hr : env.fillLoop (env.fillBuf word tmp) len curAddr dev = some r) :
    Ok r.2 ∧ content r.2 = overlay (content dev) (curAddr / env.writeBlLen * env.writeBlLen)
      (blocksUp (4 * len) env.writeBlLen * env.writeBlLen) (copies word) := by
  have hbl' := h.writeBl_pos
  induction len using Nat.strong_induction_on generalizing curAddr dev with
  | _ len ih =>
    rcases Nat.eq_zero_or_pos len with rfl | hpos
    · rw [Env.fillLoop, if_pos rfl] at hr
      obtain rfl := Option.some.inj hr
      rw [Nat.mul_zero, blocksUp_zero, Nat.zero_mul, overlay_zero]
      exact ⟨hdev, rfl⟩
    rw [fillLoop_pos hpos hlen haddr] at hr
    rcases Nat.lt_or_ge env.tmpBufSize (4 * len) with hlong | hshort
    · -- a full buffer is whole blocks
      obtain ⟨k, hk⟩ := hbl.trans (dvd_tmpBufSize env)
      have hfour : 4 ∣ env.tmpBufSize := (by decide : 4 ∣ 512).trans (dvd_tmpBufSize env)
      have htmp := tmpBufSize_pos env
      have hfull : blocksUp env.tmpBufSize env.writeBlLen = k := by
        have := blocksUp_mul_add hbl' k 0
        rwa [Nat.add_zero, ← hk, blocksUp_zero, Nat.add_zero] at this
      have hrest : blocksUp (4 * len) env.writeBlLen =
          k + blocksUp (4 * (len - env.tmpBufSize / 4)) env.writeBlLen := by
        rw [← blocksUp_mul_add hbl', ← hk]
        congr 1
        omega
      have hnext : (curAddr + env.tmpBufSize) / env.writeBlLen =
          curAddr / env.writeBlLen + k := by
        rw [hk, Nat.add_mul_div_left _ _ hbl']
      obtain ⟨hok, hcontent⟩ := write_fillBuf h hbl word tmp htmp le_rfl
        (show curAddr / env.writeBlLen + _ ≤ hi by omega) hdev
      rw [min_eq_right hlong.le] at hr
      obtain ⟨hok', hrestContent⟩ := ih (len - env.tmpBufSize / 4) (by omega) (by omega) (by omega)
        (by omega) hok hr
      refine ⟨hok', ?_⟩
      rw [hrestContent, hcontent, hfull, hnext, hrest, Nat.add_mul, Nat.add_mul, ← overlay_append,
        advance_copies (by rw [Nat.mul_comm, ← hk]; exact hfour)]
    · rw [min_eq_left hshort, Nat.mul_div_cancel_left _ (by decide), Nat.sub_self, Env.fillLoop,
        if_pos rfl] at hr
      obtain rfl := Option.some.inj hr
      exact write_fillBuf h hbl word tmp (by omega) hshort hhi hdev

end Content

/-- A flash of words that the fill changes tells which blocks it changes. -/
theorem dvd_of_overlay_eq {bl curAddr n word : ℕ} (hbl : 0 < bl) (hn : 0 < n)
    (h : ∀ m : Mem, overlay m (curAddr / bl * bl) (blocksUp n bl * bl) (copies word) =
      overlay m curAddr n (copies word)) : bl ∣ curAddr ∧ bl ∣ n := by
  have hne : ∀ b : UInt8, b ≠ b + 1 := by
    intro b h
    simp at h
  have hup := le_blocksUp_mul n hbl
  have hdiv := Nat.div_mul_le_self curAddr bl
  have hstart : curAddr / bl * bl = curAddr := by
    by_contra hne'
    have hfirst := congrFun (h fun a => copies word (a - curAddr / bl * bl) + 1)
      (curAddr / bl * bl)
    rw [overlay_of_mem _ _ le_rfl (by omega), overlay_of_not_mem _ _ (by omega)] at hfirst
    exact hne _ hfirst
  refine ⟨Dvd.intro_left _ hstart, ?_⟩
  have hend : blocksUp n bl * bl = n := by
    by_contra hne'
    have hlast := congrFun (h fun a => copies word (a - curAddr) + 1) (curAddr + n)
    rw [hstart, overlay_of_mem _ _ (Nat.le_add_right ..) (by omega),
      overlay_of_not_mem _ _ (by omega)] at hlast
    exact hne _ hlast
  exact Dvd.intro_left _ hend

/-- The blocks around a range inside a flash of `hi` blocks are blocks of the flash. -/
theorem div_add_blocksUp_le {bl hi pos size : ℕ} (hbl : 0 < bl) (hroom : pos + size ≤ hi * bl) :
    pos / bl + blocksUp size bl ≤ hi := by
  have hfirst : pos / bl ≤ hi := Nat.div_le_of_le_mul (by rw [Nat.mul_comm]; omega)
  have hdiv := Nat.div_mul_le_self pos bl
  have hrest : blocksUp size bl ≤ hi - pos / bl := by
    rw [blocksUp_le_iff _ _ hbl, Nat.sub_mul]
    omega
  omega

/-- A fill is right on every flash that holds its range if and only if it is empty, or the byte
count is below 4 GiB and the range is whole blocks. -/
theorem fillRight_iff (noDdr : Bool) {bl hi len curAddr : ℕ} (hbl : bl ∣ 512) (hhi : hi < 2 ^ 32)
    (hroom : curAddr + 4 * len ≤ hi * bl) (word : ℕ) :
    FillRight noDdr bl hi word len curAddr ↔
      len = 0 ∨ len < 2 ^ 30 ∧ bl ∣ curAddr ∧ bl ∣ 4 * len := by
  have hpos : 0 < bl := Nat.pos_of_dvd_of_pos hbl (by decide)
  have hle : bl ≤ 512 := Nat.le_of_dvd (by decide) hbl
  have haddr : curAddr + 4 * len < 2 ^ 64 :=
    calc curAddr + 4 * len ≤ hi * bl := hroom
      _ ≤ 2 ^ 32 * 512 := Nat.mul_le_mul hhi.le hle
      _ < 2 ^ 64 := by norm_num
  have hblocks := div_add_blocksUp_le hpos hroom
  constructor
  · intro h
    rw [or_iff_not_imp_left]
    intro hlen
    have hfilled := h Mem (flatEnv noDdr false bl 0) (fun _ => True) id rfl rfl
      (flatEnv_flat noDdr false hpos (by omega) 0 hhi) fun _ => 0
    have hsmall : len < 2 ^ 30 := by
      by_contra hlarge
      obtain ⟨pieces, -, -, hends⟩ := (hfilled (fun _ => 0) trivial).ends
      rw [fillLoop_of_ge (not_lt.mp hlarge)] at hends
      exact absurd hends (by simp)
    refine ⟨hsmall, @dvd_of_overlay_eq bl curAddr (4 * len) word hpos (by omega) fun m => ?_⟩
    obtain ⟨pieces, -, -, hends⟩ := (hfilled m trivial).ends
    have ⟨_, hcontent⟩ := fillLoop_content (flatEnv_flat noDdr false hpos (by omega) 0 hhi) hbl word
      (fun _ => 0) hsmall haddr hblocks trivial hends
    exact hcontent.symm.trans ((hfilled m trivial).written _ hends)
  · rintro hfits σ env Ok content rfl rfl hflat tmp dev hdev
    have hsmall : len < 2 ^ 30 := by omega
    refine ⟨fillLoop_ends hsmall haddr dev, fun r hr => ?_, by omega, haddr⟩
    rw [(fillLoop_content hflat hbl word tmp hsmall haddr hblocks hdev hr).2]
    rcases hfits with rfl | ⟨-, hcur, hlen⟩
    · rw [Nat.mul_zero, blocksUp_zero, Nat.zero_mul, overlay_zero, overlay_zero]
    · rw [Nat.div_mul_cancel hcur, blocksUp_mul_eq _ hpos,
        if_pos (Nat.mod_eq_zero_of_dvd hlen), Nat.add_zero]

/-- A block of zeros at the start of a small flash. -/
theorem one_block_filled : FillRight false 512 8 0 128 512 :=
  (fillRight_iff false (by decide) (by decide) (by decide) 0).mpr
    (.inr ⟨by decide, by decide, by decide⟩)

/-- A count of 2^30 words, on a flash that has room for them. -/
theorem fill_of_four_gigabytes_hangs : ¬ ∀ (noDdr : Bool) (bl hi word len curAddr : ℕ),
    bl ∣ 512 → hi < 2 ^ 32 → len < 2 ^ 32 → curAddr + 4 * len ≤ hi * bl →
    FillRight noDdr bl hi word len curAddr := by
  intro hall
  have hfilled := hall false 512 8388609 0 (2 ^ 30) 512 (by decide) (by decide) (by decide)
    (by decide) Mem (flatEnv false false 512 0) (fun _ => True) id rfl rfl
    (flatEnv_flat false false (by decide) (by decide) 0 (by decide)) (fun _ => 0) (fun _ => 0)
    trivial
  exact absurd hfilled.product (by decide)

end UBoot.Loader
