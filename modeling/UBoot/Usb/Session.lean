import UBoot.Library.Footprint
import UBoot.Usb.Downloaded

/-!
# What a session of fastboot leaves on the card

A command changes the card only where its partition lies: a flash in the partition and the block
behind it, an erase in as many blocks as the partition has bytes. What no command of a session
reaches is as it was before, and an image that was downloaded and flashed stays.
-/
namespace UBoot.Usb
open ByteStore Flash

/-- The bytes of these blocks. -/
def blockBytes (bl blk cnt : ℕ) : Set ℕ := Set.Ico (blk * bl) ((blk + cnt) * bl)

/-- What a session relies on, from block `lo` on: a write and an erase change the blocks they
name at most, and keep the card as good as it was. `bytes` is what the card holds. -/
structure CardKeeps {δ : Type} (env : FastbootEnv δ) (good : δ → Prop) (bytes : δ → Mem)
    (lo : ℕ) : Prop where
  readBlLen : env.eraseDev.readBlLen = env.dev.blLen
  write : ∀ blk cnt src d, lo ≤ blk → blk + cnt < 2 ^ 32 →
    ChangesOnly good bytes (blockBytes env.dev.blLen blk cnt) d
      (env.dev.blockWrite blk cnt src d).2
  erase : ∀ start cnt d, lo ≤ start → 0 < cnt → start + cnt ≤ 2 ^ 32 →
    ChangesOnly good bytes (blockBytes env.dev.blLen start cnt) d
      (env.eraseDev.mmcEraseT start cnt d).2

/-- A write that reports blocks has stored all of them. -/
structure CardStores {δ : Type} (env : FastbootEnv δ) (good : δ → Prop) (bytes : δ → Mem)
    (lo : ℕ) : Prop extends CardKeeps env good bytes lo where
  stored : ∀ blk cnt src d, lo ≤ blk → blk + cnt < 2 ^ 32 → good d →
    0 < (env.dev.blockWrite blk cnt src d).1 → ∀ i < cnt * env.dev.blLen,
      bytes (env.dev.blockWrite blk cnt src d).2 (blk * env.dev.blLen + i) = src i

/-- A partition of whole blocks from block `lo` on, below 4 GiB. It can be written with one block
more than it has, and as many blocks as it has bytes can be erased, before the numbers of the
blocks wrap. -/
structure Laid (bl lo : ℕ) (pt : Partition) : Prop where
  low : pt.firstByte < 2 ^ 32
  first : bl ∣ pt.firstByte
  whole : bl ∣ pt.bytes
  above : lo ≤ pt.firstByte / bl
  written : (pt.firstByte + pt.bytes) / bl + 1 < 2 ^ 32
  erased : pt.firstByte / bl + u32 pt.bytes ≤ 2 ^ 32

section Reach
variable {δ : Type} (env : FastbootEnv δ)

/-- The bytes that a handler may change on the card. -/
def reachOf (cmd : Command × List UInt8) : Set ℕ :=
  (partitionFindByName env.partitions (some (text cmd.2))).elim ∅ fun pt =>
    match cmd.1 with
    | .flash => Set.Ico pt.firstByte (pt.firstByte + pt.bytes + env.dev.blLen)
    | .erase => Set.Ico pt.firstByte (pt.firstByte + u32 pt.bytes * env.dev.blLen)
    | _ => ∅

/-- The bytes that a command may change on the card. -/
def reach (r : Round) : Set ℕ := (findCommand r.command).elim ∅ (reachOf env)

end Reach

section Commands
variable {δ : Type} {env : FastbootEnv δ} {good : δ → Prop} {bytes : δ → Mem} {lo : ℕ}
  {pt : Partition}

theorem blockBytes_subset {bl blk cnt blk' cnt' : ℕ} (hlo : blk ≤ blk')
    (hhi : blk' + cnt' ≤ blk + cnt) : blockBytes bl blk' cnt' ⊆ blockBytes bl blk cnt :=
  Set.Ico_subset_Ico (Nat.mul_le_mul_right _ hlo) (Nat.mul_le_mul_right _ hhi)

/-- The blocks of a raw chunk, in the partition. -/
theorem Laid.chunkBlocks {bl : ℕ} (h : Laid bl lo pt) (hbl : 0 < bl) (hbl' : bl < 2 ^ 32)
    {buffer : Mem} {c : Cursor} (hc : c.InStep pt.firstByte pt.bytes)
    (hraw : acceptedChunk buffer pt.bytes c = some .raw) :
    lo ≤ u32 (c.start / bl) ∧
      u32 (c.start / bl) + u32 (blocksUp (chunkLen buffer c.off) bl) < 2 ^ 32 ∧
      blockBytes bl (u32 (c.start / bl)) (u32 (blocksUp (chunkLen buffer c.off) bl)) ⊆
        Set.Ico pt.firstByte (pt.firstByte + pt.bytes) := by
  have hwritten := h.written
  have hinside := rawRequest_inside hbl hbl' hc h.first h.whole (by omega) hraw
  have hlow : pt.firstByte / bl ≤ c.start / bl :=
    Nat.div_le_div_right (hc.start_eq ▸ Nat.le_add_right ..)
  have hhigh : c.start / bl ≤ (pt.firstByte + pt.bytes) / bl :=
    Nat.div_le_div_right (hc.start_eq ▸ Nat.add_le_add_left hc.outlen_le _)
  have hblk : u32 (c.start / bl) = c.start / bl := u32_of_lt (by omega)
  have habove := h.above
  rw [hblk] at hinside ⊢
  generalize u32 (blocksUp (chunkLen buffer c.off) bl) = cnt at hinside ⊢
  have hend : c.start / bl + cnt ≤ (pt.firstByte + pt.bytes) / bl := by
    rcases Nat.eq_zero_or_pos cnt with h0 | hpos
    · omega
    · have hlast := (hinside (c.start / bl + (cnt - 1)) (Nat.le_add_right ..)
        (by dsimp only; omega)).2
      omega
  refine ⟨by omega, by omega, Set.Ico_subset_Ico ?_ ?_⟩
  · exact (Nat.div_mul_cancel h.first).symm.trans_le (Nat.mul_le_mul_right bl hlow)
  · exact (Nat.mul_le_mul_right bl hend).trans (Nat.div_mul_le_self _ _)

/-- A chunk of a sparse image changes the partition only. -/
theorem CardKeeps.unsparseChunk (h : CardKeeps env good bytes lo)
    (hlaid : Laid env.dev.blLen lo pt) {buffer : Mem} {c : Cursor}
    (hc : c.InStep pt.firstByte pt.bytes) (s : Session δ) :
    ChangesOnly good bytes (Set.Ico pt.firstByte (pt.firstByte + pt.bytes)) s.dev
      (unsparseChunk env.dev buffer pt.bytes c s).2.dev := by
  cases hk : acceptedChunk buffer pt.bytes c with
  | none => exact .of_eq (unsparseChunk_of_none env.dev s hk).2.dev
  | some kind =>
    cases kind with
    | dontCare => exact .of_eq (unsparseChunk_of_dontCare env.dev s hk).2.dev
    | raw =>
      obtain ⟨s₁, hs₁, heq⟩ := unsparseChunk_of_raw env.dev s hk
      obtain ⟨hlo, hend, hsub⟩ :=
        hlaid.chunkBlocks env.dev.blLen_pos env.dev.blLen_lt hc hk
      rw [heq, ← hs₁.dev]
      exact (h.write _ _ _ _ hlo hend).mono hsub

/-- So does the whole image. -/
theorem CardKeeps.writeUnsparse (h : CardKeeps env good bytes lo)
    (hlaid : Laid env.dev.blLen lo pt) (buffer : Mem) (size : ℕ) (s : Session δ) :
    ChangesOnly good bytes (Set.Ico pt.firstByte (pt.firstByte + pt.bytes)) s.dev
      (writeUnsparse env.dev buffer size (u32 pt.firstByte) pt.bytes s).2.dev := by
  have hhead := (headerAccepted_sameDevice buffer pt.bytes s).dev
  have hend : pt.firstByte + pt.bytes < 2 ^ 64 :=
    end_lt_of_fit hlaid.first hlaid.whole (by have := hlaid.written; omega)
  unfold Flash.writeUnsparse
  dsimp only
  split
  · have hfirst : Cursor.InStep pt.firstByte pt.bytes
        ⟨headerFileHdrSz buffer, u32 pt.firstByte, 0⟩ := ⟨Nat.zero_le _, u32_of_lt hlaid.low⟩
    exact @unsparseLoop_rule _ buffer pt.bytes _ env.dev
      (fun s' => ChangesOnly good bytes (Set.Ico pt.firstByte (pt.firstByte + pt.bytes)) s.dev
        s'.dev) (fun _ hs => hs) (fun c s' hs hc => hs.trans (h.unsparseChunk hlaid hc s'))
      (headerTotalChunks buffer) _ _ (.of_eq hhead)
      (hfirst.everyChunk buffer _ hend)
  · exact .of_eq hhead

/-- The blocks of a raw image. -/
theorem Laid.rawBlocks {bl : ℕ} (h : Laid bl lo pt) (hbl : 0 < bl) {size : ℕ}
    (hsize : size ≤ pt.bytes) :
    u32 (u32 pt.firstByte / bl) = pt.firstByte / bl ∧ u32 (size / bl + 1) = size / bl + 1 ∧
      pt.firstByte / bl + (size / bl + 1) < 2 ^ 32 ∧ size < (size / bl + 1) * bl ∧
      blockBytes bl (pt.firstByte / bl) (size / bl + 1) ⊆
        Set.Ico pt.firstByte (pt.firstByte + pt.bytes + bl) := by
  have hend : pt.firstByte / bl + (size / bl + 1) < 2 ^ 32 := by
    have hsum : pt.firstByte / bl + size / bl ≤ (pt.firstByte + pt.bytes) / bl := by
      rw [← Nat.add_div_of_dvd_right h.first]
      exact Nat.div_le_div_right (Nat.add_le_add_left hsize _)
    rw [← Nat.add_assoc]
    exact (Nat.add_le_add_right hsum 1).trans_lt h.written
  have hfirst := Nat.div_mul_cancel h.first
  refine ⟨?_, u32_of_lt ((Nat.le_add_left ..).trans_lt hend), hend, ?_,
    Set.Ico_subset_Ico hfirst.ge ?_⟩
  · rw [u32_of_lt h.low, u32_of_lt ((Nat.div_le_self _ _).trans_lt h.low)]
  · rw [Nat.succ_mul]
    exact Nat.lt_div_mul_add hbl
  · rw [Nat.add_mul, Nat.succ_mul, hfirst, ← Nat.add_assoc]
    exact Nat.add_le_add_right
      (Nat.add_le_add_left ((Nat.div_mul_le_self size bl).trans hsize) _) bl

/-- A raw image changes the partition and the block behind it. -/
theorem CardKeeps.flashBlocks (h : CardKeeps env good bytes lo)
    (hlaid : Laid env.dev.blLen lo pt) (buffer : Mem) {size : ℕ} (hsize : size ≤ pt.bytes)
    (s : Session δ) :
    ChangesOnly good bytes (Set.Ico pt.firstByte (pt.firstByte + pt.bytes + env.dev.blLen)) s.dev
      (s.blockWrite env.dev (u32 pt.firstByte / env.dev.blLen) (size / env.dev.blLen + 1)
        buffer).2.dev := by
  obtain ⟨hblk, hcnt, hend, -, hsub⟩ := hlaid.rawBlocks env.dev.blLen_pos hsize
  have hwrite := h.write _ _ buffer s.dev hlaid.above hend
  rw [Session.blockWrite, hblk, hcnt]
  exact hwrite.mono hsub

/-- A flash changes the partition and the block behind it. -/
theorem CardKeeps.flash (h : CardKeeps env good bytes lo) {name : Option String}
    (hfind : partitionFindByName env.partitions name = some pt)
    (hlaid : Laid env.dev.blLen lo pt) (buffer : Mem) (size : UInt32) (s : Session δ) :
    ChangesOnly good bytes (Set.Ico pt.firstByte (pt.firstByte + pt.bytes + env.dev.blLen)) s.dev
      (flashPartitionEraseWrite env.dev env.partitions name buffer size s).2.dev := by
  have hbytes : u64 (pt.sectorSize * pt.length) = pt.bytes := u64_of_lt (bytes_lt pt)
  rw [flashPartitionEraseWrite, hfind]
  dsimp only
  rw [hbytes]
  split
  · exact .refl _ _
  · next hsize =>
    split
    · exact (h.writeUnsparse hlaid buffer _ (checkSparseImage buffer s).2).mono
        (Set.Ico_subset_Ico_right (Nat.le_add_right ..))
    · exact h.flashBlocks hlaid buffer (not_lt.mp hsize) (checkSparseImage buffer s).2

/-- The groups of an erase lie in its range. -/
theorem CardKeeps.eraseLoop (h : CardKeeps env good bytes lo) {start blkcnt : ℕ}
    (hlo : lo ≤ start) (hend : start + blkcnt ≤ 2 ^ 32) (fuel blk : ℕ) (s : EraseSession δ) :
    ChangesOnly good bytes (blockBytes env.dev.blLen start blkcnt) s.dev
      (mmcBeraseLoop env.eraseDev start blkcnt fuel blk s).2.dev := by
  induction fuel generalizing blk s with
  | zero => exact .refl _ _
  | succ fuel ih =>
    rw [mmcBeraseLoop]
    split
    · next hblk =>
      have hgrp := env.eraseDev.eraseGrpSize_pos
      dsimp only
      generalize hcnt : (if blkcnt - blk > env.eraseDev.eraseGrpSize then
        env.eraseDev.eraseGrpSize else blkcnt - blk) = cnt
      have hle : 0 < cnt ∧ blk + cnt ≤ blkcnt := by
        rw [← hcnt]
        split <;> omega
      have hgroup : ChangesOnly good bytes (blockBytes env.dev.blLen start blkcnt) s.dev
          (s.eraseT env.eraseDev (u32 (start + blk)) cnt).2.dev := by
        rw [u32_of_lt (by omega)]
        exact (h.erase (start + blk) cnt s.dev (by omega) hle.1 (by omega)).mono
          (blockBytes_subset (Nat.le_add_right ..) (by omega))
      split
      · exact hgroup.trans (ih _ _)
      · exact hgroup
    · exact .refl _ _

/-- An erase changes its blocks. -/
theorem CardKeeps.eraseName (h : CardKeeps env good bytes lo) {name : Option String}
    (hfind : partitionFindByName env.partitions name = some pt)
    (hlaid : Laid env.dev.blLen lo pt) (s : EraseSession δ) :
    ChangesOnly good bytes (Set.Ico pt.firstByte (pt.firstByte + u32 pt.bytes * env.dev.blLen))
      s.dev (flashPartitionErase env.eraseDev env.partitions name s).2.dev := by
  have hfirst : u32 (pt.sectorSize * pt.start) / env.eraseDev.readBlLen =
      pt.firstByte / env.dev.blLen := by
    rw [h.readBlLen, show pt.sectorSize * pt.start = pt.firstByte from rfl, u32_of_lt hlaid.low]
  have hloop := h.eraseLoop hlaid.above hlaid.erased (u32 pt.bytes + 1) 0 s
  rw [blockBytes, Nat.add_mul, Nat.div_mul_cancel hlaid.first] at hloop
  simp only [flashPartitionErase, hfind, hfirst, mmcBerase]
  exact hloop

theorem cmdDownload_card (arg data : List UInt8) (s : Fastboot δ) :
    (cmdDownload env arg data s).card = s.card := by
  simp only [cmdDownload, usbWrite, usbReadData, fastbootFail, fastbootOkay]
  split_ifs <;> first | rfl | exact fastbootAck_card _ _ _

/-- A handler changes what it reaches. -/
theorem CardKeeps.handle (h : CardKeeps env good bytes lo)
    (hlaid : ∀ pt ∈ env.partitions, Laid env.dev.blLen lo pt) (cmd : Command)
    (arg data : List UInt8) (s : Fastboot δ) :
    ChangesOnly good bytes (reachOf env (cmd, arg)) s.card
      (Usb.handle env cmd arg data s).card := by
  cases cmd with
  | download =>
    exact .of_eq (cmdDownload_card arg data s)
  | reboot | getvar | boot | powerdown | «continue» | rebootBootloader =>
    exact .of_eq (fastbootAck_card _ _ s)
  | flash =>
    have hcard : (cmdFlash env arg s).card = (flashPartitionEraseWrite env.dev env.partitions
        (some (text arg)) s.downloadBase s.downloadSize (Session.initial s.card)).2.dev := by
      simp only [cmdFlash]
      split <;> exact fastbootAck_card _ _ _
    rw [Usb.handle, hcard]
    cases hfind : partitionFindByName env.partitions (some (text arg)) with
    | none =>
      simp only [flashPartitionEraseWrite, hfind]
      exact .refl _ _
    | some pt =>
      rw [reachOf, hfind]
      exact h.flash hfind (hlaid pt (List.mem_of_find?_eq_some hfind)) _ _
        (Session.initial s.card)
  | erase =>
    have hcard : (cmdErase env arg s).card = (flashPartitionErase env.eraseDev env.partitions
        (some (text arg)) (EraseSession.initial s.card)).2.dev := by
      simp only [cmdErase]
      split <;> exact fastbootAck_card _ _ _
    rw [Usb.handle, hcard]
    cases hfind : partitionFindByName env.partitions (some (text arg)) with
    | none =>
      simp only [flashPartitionErase, hfind]
      exact .refl _ _
    | some pt =>
      rw [reachOf, hfind]
      exact h.eraseName hfind (hlaid pt (List.mem_of_find?_eq_some hfind))
        (EraseSession.initial s.card)

/-- A turn changes what its command reaches. -/
theorem CardKeeps.turn (h : CardKeeps env good bytes lo)
    (hlaid : ∀ pt ∈ env.partitions, Laid env.dev.blLen lo pt) (r : Round) (s : Fastboot δ) :
    ChangesOnly good bytes (reach env r) s.card (Usb.turn env s r).card := by
  cases hhalted : s.halted with
  | true =>
    rw [turn_halted env hhalted]
    exact .refl _ _
  | false =>
    cases hfind : findCommand r.command with
    | none =>
      have hcard : (Usb.turn env s r).card = s.card := by
        rw [Usb.turn, if_neg (by simp [hhalted]), hfind]
        exact fastbootAck_card ..
      exact .of_eq hcard
    | some cmd =>
      rw [turn_known env hhalted hfind, reach, hfind]
      exact h.handle hlaid cmd.1 cmd.2 r.data { reading s with state := .command }

end Commands

section Sessions
variable {δ : Type} {env : FastbootEnv δ} {good : δ → Prop} {bytes : δ → Mem} {lo : ℕ}

/-- A session changes what its commands reach. -/
theorem CardKeeps.session (h : CardKeeps env good bytes lo)
    (hlaid : ∀ pt ∈ env.partitions, Laid env.dev.blLen lo pt) (s : Fastboot δ)
    (rounds : List Round) :
    ChangesOnly (good ∘ Fastboot.card) (bytes ∘ Fastboot.card) (⋃ r ∈ rounds, reach env r) s
      ((fastboot env).run s rounds) :=
  ChangesOnly.run (fastboot env) (fun s r => h.turn hlaid r s) s rounds

/-- With the record of what is written the card is the same. -/
theorem CardStores.recorded (h : CardStores env good bytes lo) :
    CardStores env.recorded (good ∘ Prod.fst) (bytes ∘ Prod.fst) lo where
  readBlLen := h.readBlLen
  write blk cnt src d := h.write blk cnt src d.1
  erase start cnt d := h.erase start cnt d.1
  stored blk cnt src d := h.stored blk cnt src d.1

end Sessions

end UBoot.Usb
