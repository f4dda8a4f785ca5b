import UBoot.Library.LittleEndian
import UBoot.Word

/-!
# The data paths of the host controller

`comip_mmc.c`: the descriptors that are handed to the internal DMA controller, and the loops
that move words between the FIFO and a buffer.
-/
namespace UBoot.Mmc
open ByteStore

/-- `IDMAC_DES_BS`. -/
def idmacDesBs : ℕ := 2 ^ 13

/-- `struct mmc_dmac_des`. -/
structure Descriptor where
  des0 : BitVec 32
  des1 : ℕ
  des2 : ℕ
  des3 : ℕ

/-- The loop of `comip_mmc_prepare_data_dma`. -/
def prepareDataDma (sgDesc ptr blocks blocksize : ℕ) : List Descriptor :=
  let sgBlkNum := 1 + u32 (blocks * blocksize) / idmacDesBs
  let sgBlkLen := u32 (blocks * blocksize) % idmacDesBs
  (List.range sgBlkNum).map fun i =>
    { des0 := 0x80000010 ||| (if i = 0 then 0x8 else 0) ||| (if sgBlkNum - 1 = i then 0x4 else 0)
      des1 := if sgBlkNum - 1 = i ∧ sgBlkLen ≠ 0 then sgBlkLen else idmacDesBs
      des2 := u32 (ptr + i * idmacDesBs)
      des3 := u32 (sgDesc + 16 * (i + 1)) }

def Descriptor.First (d : Descriptor) : Prop := d.des0.getLsbD 3 = true

def Descriptor.Last (d : Descriptor) : Prop := d.des0.getLsbD 2 = true

/-- The segments are the buffer of `size` bytes from `buf` on. -/
structure ChainCovers (buf size : ℕ) (ds : List Descriptor) : Prop where
  sum : (ds.map Descriptor.des1).sum = size
  short : ∀ d ∈ ds, d.des1 ≤ idmacDesBs
  adjacent : ∀ i, (h : i < ds.length) →
    ds[i].des2 = u32 (buf + ((ds.take i).map Descriptor.des1).sum)
  first : ∀ i, (h : i < ds.length) → (ds[i].First ↔ i = 0)
  last : ∀ i, (h : i < ds.length) → (ds[i].Last ↔ i + 1 = ds.length)

variable {sgDesc ptr blocks blocksize : ℕ}

theorem length_prepareDataDma : (prepareDataDma sgDesc ptr blocks blocksize).length =
    1 + u32 (blocks * blocksize) / idmacDesBs := by
  simp [prepareDataDma]

/-- All segments before the last are whole. -/
theorem sum_take_prepareDataDma {i : ℕ} (h : i ≤ u32 (blocks * blocksize) / idmacDesBs) :
    (((prepareDataDma sgDesc ptr blocks blocksize).take i).map Descriptor.des1).sum =
      i * idmacDesBs := by
  have hmap : ((prepareDataDma sgDesc ptr blocks blocksize).take i).map Descriptor.des1 =
      (List.range i).map fun _ => idmacDesBs := by
    rw [prepareDataDma, ← List.map_take, List.take_range, min_eq_left (by omega), List.map_map]
    refine List.map_congr_left fun j hj => ?_
    have hlt := List.mem_range.mp hj
    exact if_neg fun hlast => by omega
  rw [hmap, List.map_const', List.sum_replicate, List.length_range, smul_eq_mul]

theorem getElem_prepareDataDma {i : ℕ}
    (h : i < (prepareDataDma sgDesc ptr blocks blocksize).length) :
    (prepareDataDma sgDesc ptr blocks blocksize)[i] =
      { des0 := 0x80000010 ||| (if i = 0 then 0x8 else 0) |||
          (if u32 (blocks * blocksize) / idmacDesBs = i then 0x4 else 0)
        des1 := if u32 (blocks * blocksize) / idmacDesBs = i ∧
          u32 (blocks * blocksize) % idmacDesBs ≠ 0 then u32 (blocks * blocksize) % idmacDesBs
          else idmacDesBs
        des2 := u32 (ptr + i * idmacDesBs)
        des3 := u32 (sgDesc + 16 * (i + 1)) } := by
  simp [prepareDataDma]

theorem sum_prepareDataDma :
    ((prepareDataDma sgDesc ptr blocks blocksize).map Descriptor.des1).sum =
      u32 (blocks * blocksize) / idmacDesBs * idmacDesBs +
        if u32 (blocks * blocksize) % idmacDesBs ≠ 0 then u32 (blocks * blocksize) % idmacDesBs
        else idmacDesBs := by
  have hq : u32 (blocks * blocksize) / idmacDesBs <
      (prepareDataDma sgDesc ptr blocks blocksize).length := by
    rw [length_prepareDataDma]
    omega
  have hall : (prepareDataDma sgDesc ptr blocks blocksize).take
      (u32 (blocks * blocksize) / idmacDesBs + 1) = prepareDataDma sgDesc ptr blocks blocksize :=
    List.take_of_length_le (by rw [length_prepareDataDma]; omega)
  rw [← hall, List.take_succ_eq_append_getElem hq, List.map_append, List.sum_append,
    sum_take_prepareDataDma le_rfl, List.map_singleton, List.sum_singleton,
    getElem_prepareDataDma hq]
  by_cases hr : u32 (blocks * blocksize) % idmacDesBs ≠ 0
  · rw [if_pos hr]
    exact congrArg (_ + ·) (if_pos ⟨rfl, hr⟩)
  · rw [if_neg hr]
    exact congrArg (_ + ·) (if_neg fun h => hr h.2)

theorem prepareDataDma_adjacent {i : ℕ}
    (h : i < (prepareDataDma sgDesc ptr blocks blocksize).length) :
    (prepareDataDma sgDesc ptr blocks blocksize)[i].des2 = u32 (ptr +
      (((prepareDataDma sgDesc ptr blocks blocksize).take i).map Descriptor.des1).sum) := by
  have hi := h
  rw [length_prepareDataDma] at hi
  rw [sum_take_prepareDataDma (by omega), getElem_prepareDataDma h]

theorem flags_iff (q i : ℕ) :
    ((0x80000010 ||| (if i = 0 then 0x8 else 0) ||| (if q = i then 0x4 else 0) :
      BitVec 32).getLsbD 3 = true ↔ i = 0) ∧
    ((0x80000010 ||| (if i = 0 then 0x8 else 0) ||| (if q = i then 0x4 else 0) :
      BitVec 32).getLsbD 2 = true ↔ q = i) := by
  by_cases hfirst : i = 0
  · by_cases hlast : q = i
    · simp [hfirst, hlast]
    · subst hfirst
      simp [hlast]
  · by_cases hlast : q = i
    · simp [hfirst, hlast]
    · simp [hfirst, hlast]

theorem prepareDataDma_flags {i : ℕ}
    (h : i < (prepareDataDma sgDesc ptr blocks blocksize).length) :
    ((prepareDataDma sgDesc ptr blocks blocksize)[i].First ↔ i = 0) ∧
      ((prepareDataDma sgDesc ptr blocks blocksize)[i].Last ↔
        i + 1 = (prepareDataDma sgDesc ptr blocks blocksize).length) := by
  obtain ⟨hfirst, hlast⟩ := flags_iff (u32 (blocks * blocksize) / idmacDesBs) i
  rw [getElem_prepareDataDma h, length_prepareDataDma, Nat.add_comm 1, Nat.add_right_cancel_iff]
  exact ⟨hfirst, hlast.trans eq_comm⟩

/-- The descriptors are the buffer exactly if its length fits 32 bits and is no multiple of a
whole segment. -/
theorem prepareDataDma_covers_iff (sgDesc buf blocks blocksize : ℕ) :
    ChainCovers buf (blocks * blocksize) (prepareDataDma sgDesc buf blocks blocksize) ↔
      blocks * blocksize < 2 ^ 32 ∧ ¬ idmacDesBs ∣ blocks * blocksize := by
  have hdiv := Nat.div_add_mod (u32 (blocks * blocksize)) idmacDesBs
  have hmod := Nat.mod_lt (u32 (blocks * blocksize)) (show 0 < idmacDesBs by decide)
  rw [Nat.mul_comm] at hdiv
  constructor
  · intro h
    have hsum := h.sum
    rw [sum_prepareDataDma] at hsum
    have hfits : blocks * blocksize < 2 ^ 32 := by
      unfold u32 idmacDesBs at hsum hdiv
      split_ifs at hsum
      · omega
      · omega
    refine ⟨hfits, fun hdvd => ?_⟩
    rw [u32_of_lt hfits, Nat.mod_eq_zero_of_dvd hdvd, if_neg (not_not_intro rfl),
      Nat.div_mul_cancel hdvd] at hsum
    exact absurd (Nat.add_eq_left.mp hsum) (by decide)
  · rintro ⟨hfits, hpart⟩
    have hr : u32 (blocks * blocksize) % idmacDesBs ≠ 0 := by
      rw [u32_of_lt hfits]
      exact fun hzero => hpart (Nat.dvd_of_mod_eq_zero hzero)
    refine ⟨?_, ?_, fun i hi => prepareDataDma_adjacent hi,
      fun i hi => (prepareDataDma_flags hi).1, fun i hi => (prepareDataDma_flags hi).2⟩
    · rw [sum_prepareDataDma, if_pos hr, hdiv, u32_of_lt hfits]
    · intro d hd
      obtain ⟨i, hi, rfl⟩ := List.getElem_of_mem hd
      rw [getElem_prepareDataDma hi]
      dsimp only
      split_ifs
      · exact hmod.le
      · exact le_rfl

/-- Sixteen blocks of 512 bytes are one whole segment, and a second one is added. -/
theorem whole_segment_gets_a_second :
    ¬ ChainCovers 0x1000 (16 * 512) (prepareDataDma 0x10000 0x1000 16 512) := fun h =>
  absurd h.sum (by decide)

/-- The stores of the byte loop for one word: as many of its bytes as are left to transfer. -/
def storeBytes (mem : Mem) (dest dataLen fifoData : ℕ) : Mem :=
  let mem := if 0 < dataLen then Function.update mem dest (digits fifoData 0) else mem
  let mem := if 1 < dataLen then Function.update mem (dest + 1) (digits fifoData 1) else mem
  let mem := if 2 < dataLen then Function.update mem (dest + 2) (digits fifoData 2) else mem
  if 3 < dataLen then Function.update mem (dest + 3) (digits fifoData 3) else mem

/-- The loop at `copy_one_by_one`; `n` words of the FIFO are read before it. -/
def copyOneByOne (fifo : ℕ → ℕ) (mem : Mem) (dest dataLen n : ℕ) : Mem × ℕ :=
  if dataLen = 0 then (mem, n)
  else copyOneByOne fifo (storeBytes mem dest dataLen (fifo n)) (dest + min dataLen 4)
    (dataLen - min dataLen 4) (n + 1)
termination_by dataLen
decreasing_by omega

/-- The loop over whole words. -/
def copyWords (fifo : ℕ → ℕ) (mem : Mem) (dest dataLen n : ℕ) : Mem × ℕ × ℕ :=
  if dataLen < 4 then (mem, dest, n)
  else copyWords fifo (overlay mem dest 4 (digits (fifo n))) (dest + 4) (dataLen - 4) (n + 1)
termination_by dataLen
decreasing_by omega

/-- The stores for the last bytes of an aligned buffer. -/
def storeRemain (mem : Mem) (dest remain fifoData : ℕ) : Mem :=
  if remain = 3 then
    Function.update (overlay mem dest 2 (digits (fifoData % 2 ^ 16))) (dest + 2)
      (digits fifoData 2)
  else if remain = 2 then overlay mem dest 2 (digits (fifoData % 2 ^ 16))
  else Function.update mem dest (digits fifoData 0)

/-- The read direction of `comip_mmc_transfer`: the memory and the words read from the FIFO. -/
def transferRead (fifo : ℕ → ℕ) (mem : Mem) (dest dataLen : ℕ) : Mem × ℕ :=
  if dataLen ≠ 0 ∧ dest % 4 = 0 then
    let r := copyWords fifo mem dest dataLen 0
    if dataLen % 4 ≠ 0 then (storeRemain r.1 r.2.1 (dataLen % 4) (fifo r.2.2), r.2.2 + 1)
    else (r.1, r.2.2)
  else copyOneByOne fifo mem dest dataLen 0

/-- One word of the write direction. -/
def packWord (src : Mem) (dataLen : ℕ) : ℕ :=
  let fifoData := if 0 < dataLen then (src 0).toNat <<< 0 else 0
  let fifoData := if 1 < dataLen then fifoData ||| (src 1).toNat <<< 8 else fifoData
  let fifoData := if 2 < dataLen then fifoData ||| (src 2).toNat <<< 16 else fifoData
  if 3 < dataLen then fifoData ||| (src 3).toNat <<< 24 else fifoData

/-- The write direction: the words pushed into the FIFO. -/
def transferWrite (src : Mem) (dataLen : ℕ) : List ℕ :=
  if dataLen = 0 then []
  else packWord src dataLen :: transferWrite (advance src (min dataLen 4)) (dataLen - min dataLen 4)
termination_by dataLen
decreasing_by omega

/-- The bytes that the FIFO delivers, four in each word. -/
def fifoBytes (fifo : ℕ → ℕ) : Mem := fun i => digits (fifo (i / 4)) (i % 4)

theorem update_eq_overlay (mem src : Mem) (dest : ℕ) :
    Function.update mem dest (src 0) = overlay mem dest 1 src := by
  have h := update_overlay mem src dest 0
  rwa [overlay_zero] at h

theorem storeBytes_eq (mem : Mem) (dest dataLen fifoData : ℕ) :
    storeBytes mem dest dataLen fifoData = overlay mem dest (min dataLen 4) (digits fifoData) := by
  unfold storeBytes
  match dataLen with
  | 0 => simp
  | 1 => simp [update_eq_overlay]
  | 2 => simp [update_eq_overlay, update_overlay]
  | 3 => simp [update_eq_overlay, update_overlay]
  | n + 4 =>
    rw [if_pos (by omega), if_pos (by omega), if_pos (by omega), if_pos (by omega),
      update_eq_overlay, update_overlay, update_overlay, update_overlay, min_eq_right (by omega)]

/-- The bytes of a word are the next four that the FIFO delivers. -/
theorem fifoBytes_word (fifo : ℕ → ℕ) {n i : ℕ} (h : i < 4) :
    advance (fifoBytes fifo) (4 * n) i = digits (fifo n) i := by
  rw [advance_apply, fifoBytes, show (4 * n + i) / 4 = n by omega,
    show (4 * n + i) % 4 = i by omega]

theorem overlay_word (fifo : ℕ → ℕ) (mem : Mem) (dest n : ℕ) {len : ℕ} (h : len ≤ 4) :
    overlay mem dest len (digits (fifo n)) =
      overlay mem dest len (advance (fifoBytes fifo) (4 * n)) :=
  overlay_congr mem fun _ hi => (fifoBytes_word fifo (by omega)).symm

/-- The byte loop takes the bytes in order. -/
theorem copyOneByOne_eq (fifo : ℕ → ℕ) (mem : Mem) (dest dataLen n : ℕ) :
    copyOneByOne fifo mem dest dataLen n =
      (overlay mem dest dataLen (advance (fifoBytes fifo) (4 * n)), n + blocksUp dataLen 4) := by
  induction dataLen using Nat.strong_induction_on generalizing mem dest n with
  | _ dataLen ih =>
    rw [copyOneByOne]
    split
    · next hzero =>
      rw [hzero, overlay_zero, blocksUp_zero, Nat.add_zero]
    · have hsplit := overlay_append mem (advance (fifoBytes fifo) (4 * n)) dest (min dataLen 4)
        (dataLen - min dataLen 4)
      rw [Nat.add_sub_cancel' (min_le_left _ _)] at hsplit
      rw [ih _ (by omega), storeBytes_eq, overlay_word fifo mem dest n (min_le_right _ _), ← hsplit]
      have hcount : n + 1 + blocksUp (dataLen - min dataLen 4) 4 = n + blocksUp dataLen 4 := by
        unfold blocksUp
        split_ifs <;> omega
      have hrest : 4 * (n + 1) = 4 * n + min dataLen 4 ∨ dataLen - min dataLen 4 = 0 := by omega
      refine Prod.ext ?_ hcount
      rcases hrest with hnext | hdone
      · rw [hnext, advance_advance]
      · rw [hdone, overlay_zero, overlay_zero]

/-- The word loop takes the whole words. -/
theorem copyWords_eq (fifo : ℕ → ℕ) (mem : Mem) (dest dataLen n : ℕ) :
    copyWords fifo mem dest dataLen n =
      (overlay mem dest (dataLen / 4 * 4) (advance (fifoBytes fifo) (4 * n)),
        dest + dataLen / 4 * 4, n + dataLen / 4) := by
  induction dataLen using Nat.strong_induction_on generalizing mem dest n with
  | _ dataLen ih =>
    rw [copyWords]
    split
    · next hlt =>
      rw [Nat.div_eq_of_lt hlt, Nat.zero_mul, overlay_zero, Nat.add_zero, Nat.add_zero]
    · have hsplit := overlay_append mem (advance (fifoBytes fifo) (4 * n)) dest 4
        ((dataLen - 4) / 4 * 4)
      have hlen : 4 + (dataLen - 4) / 4 * 4 = dataLen / 4 * 4 := by omega
      rw [hlen, advance_advance] at hsplit
      rw [ih _ (by omega), overlay_word fifo mem dest n le_rfl, ← hsplit]
      exact Prod.ext rfl (Prod.ext (by dsimp only; omega) (by dsimp only; omega))

theorem storeRemain_eq (mem : Mem) (dest fifoData : ℕ) {remain : ℕ} (hpos : remain ≠ 0)
    (hlt : remain < 4) :
    storeRemain mem dest remain fifoData = overlay mem dest remain (digits fifoData) := by
  have hhalf : overlay mem dest 2 (digits (fifoData % 2 ^ 16)) =
      overlay mem dest 2 (digits fifoData) := by
    refine overlay_congr mem fun i hi => ?_
    have hbyte : fifoData % 2 ^ 16 / 256 ^ i % 256 = fifoData / 256 ^ i % 256 := by
      interval_cases i <;> omega
    unfold digits
    rw [← UInt8.ofNat_mod_size, ← UInt8.ofNat_mod_size (x := fifoData / 256 ^ i)]
    exact congrArg UInt8.ofNat hbyte
  unfold storeRemain
  rw [hhalf]
  interval_cases remain
  · exact absurd rfl hpos
  · exact update_eq_overlay mem (digits fifoData) dest
  · rfl
  · exact update_overlay mem (digits fifoData) dest 2

/-- Whatever the alignment, the bytes that the FIFO delivers are stored. -/
theorem transferRead_eq (fifo : ℕ → ℕ) (mem : Mem) (dest dataLen : ℕ) :
    transferRead fifo mem dest dataLen =
      (overlay mem dest dataLen (fifoBytes fifo), blocksUp dataLen 4) := by
  unfold transferRead
  split
  · rw [copyWords_eq]
    dsimp only
    have hsplit := overlay_append mem (fifoBytes fifo) dest (dataLen / 4 * 4) (dataLen % 4)
    rw [Nat.div_add_mod'] at hsplit
    rw [Nat.mul_zero, advance_zero, Nat.zero_add]
    split
    · next hrem =>
      rw [storeRemain_eq _ _ _ hrem (Nat.mod_lt _ (by norm_num)),
        overlay_word fifo _ _ _ (Nat.mod_lt _ (by norm_num)).le, ← hsplit, blocksUp, if_pos hrem,
        Nat.mul_comm 4]
    · next hrem =>
      rw [not_not.mp hrem, overlay_zero] at hsplit
      rw [hsplit, blocksUp, if_neg hrem]
  · rw [copyOneByOne_eq, Nat.mul_zero, advance_zero, Nat.zero_add]

theorem shiftLeft_or {x b k : ℕ} (hx : x < 2 ^ k) : x ||| b <<< k = x + b * 2 ^ k := by
  rw [Nat.or_comm, Nat.shiftLeft_eq, Nat.mul_comm, ← Nat.two_pow_add_eq_or_of_lt hx, Nat.add_comm]

theorem packWord_eq (src : Mem) (dataLen : ℕ) :
    packWord src dataLen = fetch src 0 (min dataLen 4) := by
  have h0 := (src 0).toNat_lt
  have h1 := (src 1).toNat_lt
  have h2 := (src 2).toNat_lt
  have two : (src 0).toNat ||| (src 1).toNat <<< 8 = (src 0).toNat + (src 1).toNat * 2 ^ 8 :=
    shiftLeft_or h0
  have three : (src 0).toNat ||| (src 1).toNat <<< 8 ||| (src 2).toNat <<< 16 =
      (src 0).toNat + (src 1).toNat * 2 ^ 8 + (src 2).toNat * 2 ^ 16 := by
    rw [two, shiftLeft_or (by omega)]
  have four : (src 0).toNat ||| (src 1).toNat <<< 8 ||| (src 2).toNat <<< 16 |||
      (src 3).toNat <<< 24 = (src 0).toNat + (src 1).toNat * 2 ^ 8 + (src 2).toNat * 2 ^ 16 +
        (src 3).toNat * 2 ^ 24 := by
    rw [three, shiftLeft_or (by omega)]
  unfold packWord
  match dataLen with
  | 0 => simp [fetch]
  | 1 => simp [fetch]
  | 2 =>
    simp [fetch, two]
    omega
  | 3 =>
    simp [fetch, three]
    omega
  | n + 4 =>
    rw [min_eq_right (by omega)]
    simp [fetch, four]
    omega

theorem digits_fetch (m : Mem) {off n i : ℕ} (hi : i < n) :
    digits (fetch m off n) i = m (off + i) := by
  induction n generalizing off i with
  | zero => exact absurd hi (Nat.not_lt_zero i)
  | succ n ih =>
    have hbyte := (m off).toNat_lt
    cases i with
    | zero =>
      rw [digits, fetch, Nat.pow_zero, Nat.div_one, Nat.add_zero, ← UInt8.ofNat_mod_size]
      have hmod : ((m off).toNat + 256 * fetch m (off + 1) n) % 256 = (m off).toNat := by omega
      exact (congrArg UInt8.ofNat hmod).trans (UInt8.ofNat_toNat)
    | succ i =>
      have hdiv : ((m off).toNat + 256 * fetch m (off + 1) n) / 256 = fetch m (off + 1) n := by
        omega
      rw [digits, fetch, Nat.pow_succ', ← Nat.div_div_eq_div_mul, hdiv,
        show off + (i + 1) = off + 1 + i by omega]
      exact ih (by omega)

/-- The bytes of the words that are pushed are those of the buffer. -/
theorem fifoBytes_transferWrite (src : Mem) {dataLen i : ℕ} (hi : i < dataLen) :
    fifoBytes (fun n => (transferWrite src dataLen).getD n 0) i = src i := by
  induction dataLen using Nat.strong_induction_on generalizing src i with
  | _ dataLen ih =>
    rw [transferWrite, if_neg (by omega)]
    by_cases hfirst : i < 4
    · rw [fifoBytes, Nat.div_eq_of_lt hfirst, Nat.mod_eq_of_lt hfirst, List.getD_cons_zero,
        packWord_eq, digits_fetch _ (by omega), Nat.zero_add]
    · have hrest := ih (dataLen - min dataLen 4) (by omega) (advance src (min dataLen 4))
        (i := i - 4) (by omega)
      rw [advance_apply, show min dataLen 4 + (i - 4) = i by omega] at hrest
      rw [← hrest, fifoBytes, fifoBytes, show i / 4 = (i - 4) / 4 + 1 by omega,
        show i % 4 = (i - 4) % 4 by omega, List.getD_cons_succ]

theorem length_transferWrite (src : Mem) (dataLen : ℕ) :
    (transferWrite src dataLen).length = blocksUp dataLen 4 := by
  induction dataLen using Nat.strong_induction_on generalizing src with
  | _ dataLen ih =>
    rw [transferWrite]
    split
    · next hzero =>
      rw [hzero, blocksUp_zero]
      rfl
    · rw [List.length_cons, ih _ (by omega)]
      unfold blocksUp
      split_ifs <;> omega

/-- Both ways of reading store what the FIFO delivers, exactly `dataLen` bytes of it, and what
was pushed for a buffer is read back as the buffer. -/
theorem transfer_paths_agree (fifo : ℕ → ℕ) (mem src : Mem) (dest dataLen : ℕ) :
    transferRead fifo mem dest dataLen =
        (overlay mem dest dataLen (fifoBytes fifo), blocksUp dataLen 4) ∧
      copyOneByOne fifo mem dest dataLen 0 = transferRead fifo mem dest dataLen ∧
      (transferWrite src dataLen).length = blocksUp dataLen 4 ∧
      (transferRead (fun n => (transferWrite src dataLen).getD n 0) mem dest dataLen).1 =
        overlay mem dest dataLen src := by
  refine ⟨transferRead_eq fifo mem dest dataLen, ?_, length_transferWrite src dataLen, ?_⟩
  · rw [transferRead_eq, copyOneByOne_eq, Nat.mul_zero, advance_zero, Nat.zero_add]
  · rw [transferRead_eq]
    exact overlay_congr mem fun i hi => fifoBytes_transferWrite src hi

end UBoot.Mmc
