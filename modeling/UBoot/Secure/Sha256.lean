import UBoot.Library.ByteStore
import UBoot.Library.Octets
import UBoot.Word

/-!
# The SHA-256 driver

`secure_verify/sha256.c`: the hash is computed by an engine that takes blocks of 16 words.
The driver cuts messages into blocks, pads the last one, and tells the engine with each
block whether a new message starts. What the engine computes is a parameter.
-/
namespace UBoot.Secure
open ByteStore Octets

/-- The hash engine: the registers `SHA_H0` to `SHA_H7` after a block with which a message
starts, and after one that continues a message. -/
structure Engine where
  start : List UInt32 → List UInt32
  restart : List UInt32 → List UInt32 → List UInt32

/-- What the driver does to the engine. -/
inductive Event where
  /-- The words are stored, and then `SHA_CTL`. -/
  | command (ctl : ℕ) (w : List UInt32)
  /-- The registers are read. -/
  | result (h : List UInt32)
  deriving DecidableEq

/-- The registers of the engine, the counter `updateNum`, and all that was done so far. -/
structure Hw where
  updateNum : ℕ
  h : List UInt32
  trace : List Event

/-- The words read from the eight registers. -/
def Hw.registers (hw : Hw) : List UInt32 := (List.range 8).map fun i => hw.h.getD i 0

section Driver
variable (engine : Engine)

/-- A word from four bytes, highest first. -/
def beWord (b : ℕ → UInt8) : UInt32 :=
  (b 0).toUInt32 <<< 24 ||| (b 1).toUInt32 <<< 16 ||| (b 2).toUInt32 <<< 8 ||| (b 3).toUInt32

/-- The end of `SHA256_Transform`: start with the first block, restart with the others. -/
def issue (hw : Hw) (w : List UInt32) : Hw :=
  { updateNum := u32 (hw.updateNum + 1)
    h := if hw.updateNum = 0 then engine.start w else engine.restart hw.h w
    trace := hw.trace ++ [.command (if hw.updateNum = 0 then 1 else 2) w] }

/-- `SHA256_Transform`. -/
def sha256Transform (buf : Mem) (hw : Hw) : Hw :=
  issue engine hw ((List.range 16).map fun t => beWord (advance buf (4 * t)))

/-- `SHA256_CTX`, as far as it is used. -/
structure Ctx where
  count : ℕ
  buf : Mem

/-- The loop of `SHA256_update`. -/
def updateLoop : List UInt8 → ℕ → Mem → Hw → Mem × Hw
  | [], _, buf, hw => (buf, hw)
  | b :: data, i, buf, hw =>
    let buf := Function.update buf i b
    if i + 1 = 64 then updateLoop data 0 buf (sha256Transform engine buf hw)
    else updateLoop data (i + 1) buf hw

/-- `SHA256_init`; the buffer keeps what was on the stack. -/
def sha256Init (buf : Mem) : Ctx := ⟨0, buf⟩

/-- `SHA256_update`. -/
def sha256Update (s : Ctx × Hw) (data : List UInt8) : Ctx × Hw :=
  let r := updateLoop engine data (s.1.count % 64) s.1.buf s.2
  (⟨u64 (s.1.count + data.length), r.1⟩, r.2)

/-- The loop of `SHA256_final` that appends zeros. -/
def padLoop (s : Ctx × Hw) : Ctx × Hw :=
  if s.1.count % 64 ≠ 56 then padLoop (sha256Update engine s [0]) else s
termination_by (120 - s.1.count % 64) % 64
decreasing_by
  rename_i h
  simp only [sha256Update, List.length_singleton, u64]
  omega

/-- The bytes of words, highest first. -/
def bytesOf (words : List UInt32) : List UInt8 :=
  words.flatMap fun tmp : UInt32 =>
    [(tmp >>> 24).toUInt8, (tmp >>> 16).toUInt8, (tmp >>> 8).toUInt8, tmp.toUInt8]

/-- `SHA256_final`: the 32 bytes it leaves at the start of the buffer. -/
def sha256Final (s : Ctx × Hw) : List UInt8 × Hw :=
  let cnt := u64 (s.1.count * 8)
  let s := padLoop engine (sha256Update engine s [0x80])
  let s := (List.range 8).foldl
    (fun s i => sha256Update engine s [UInt8.ofNat (cnt / 2 ^ ((7 - i) * 8))]) s
  (bytesOf s.2.registers, { s.2 with trace := s.2.trace ++ [.result s.2.registers] })

/-- `SHA256_hash`. -/
def sha256Hash (buf : Mem) (data : List UInt8) (hw : Hw) : List UInt8 × Hw :=
  sha256Final engine (sha256Update engine (sha256Init buf, hw) data)

end Driver

/-- The padded message: a one bit, the fewest zeros, and the length in bits. -/
def fipsPad (m : List UInt8) : List UInt8 :=
  m ++ [0x80] ++ List.replicate ((119 - m.length % 64) % 64) 0 ++ i2osp 8 (8 * m.length)

/-- The words of 64 bytes. -/
def blockWords (bytes : List UInt8) : List UInt32 :=
  (List.range 16).map fun t => beWord fun k => bytes.getD (4 * t + k) 0

/-- The whole blocks of a string. -/
def blocksOf (bytes : List UInt8) : List (List UInt32) :=
  (List.range (bytes.length / 64)).map fun j => blockWords (bytes.drop (64 * j))

theorem beWord_congr {b b' : ℕ → UInt8} (h : ∀ k < 4, b k = b' k) : beWord b = beWord b' := by
  unfold beWord
  rw [h 0 (by norm_num), h 1 (by norm_num), h 2 (by norm_num), h 3 (by norm_num)]

/-- The words of a block are made of its 64 bytes. -/
theorem blockWords_eq {m : Mem} {bytes : List UInt8} (h : ∀ k < 64, m k = bytes.getD k 0) :
    ((List.range 16).map fun t => beWord (advance m (4 * t))) = blockWords bytes := by
  apply List.map_congr_left
  intro t ht
  have ht := List.mem_range.mp ht
  apply beWord_congr
  intro k hk
  exact h (4 * t + k) (by omega)

theorem blockWords_congr {bytes bytes' : List UInt8}
    (h : ∀ k < 64, bytes.getD k 0 = bytes'.getD k 0) : blockWords bytes = blockWords bytes' :=
  (blockWords_eq fun _ _ => rfl).symm.trans (blockWords_eq h)

theorem blocksOf_append {full rest : List UInt8} {n : ℕ} (hfull : full.length = 64 * n)
    (hrest : rest.length = 64) : blocksOf (full ++ rest) = blocksOf full ++ [blockWords rest] := by
  have hlen : (full ++ rest).length / 64 = n + 1 := by
    rw [List.length_append]
    omega
  have hlen' : full.length / 64 = n := by omega
  rw [blocksOf, blocksOf, hlen, hlen', List.range_succ, List.map_append, List.map_singleton]
  refine congrArg₂ (· ++ ·) ?_ ?_
  · apply List.map_congr_left
    intro j hj
    have hj := List.mem_range.mp hj
    apply blockWords_congr
    intro k hk
    rw [List.drop_append_of_le_length (by omega), List.getD_eq_getElem?_getD,
      List.getD_eq_getElem?_getD, List.getElem?_append_left]
    rw [List.length_drop]
    omega
  · rw [← hfull, List.drop_left]

/-- The padded message consists of whole blocks. -/
theorem length_fipsPad (m : List UInt8) : 64 ∣ (fipsPad m).length := by
  simp only [fipsPad, List.length_append, List.length_singleton, List.length_replicate,
    length_i2osp]
  omega

section Issued
variable {engine : Engine} {hw₀ : Hw}

/-- After the bytes `full ++ tail`: the blocks of `full` were issued, `tail` is in the buffer. -/
structure Fed (engine : Engine) (hw₀ : Hw) (full tail : List UInt8) (buf : Mem) (hw : Hw) :
    Prop where
  whole : 64 ∣ full.length
  short : tail.length < 64
  pending : ∀ k < tail.length, buf k = tail.getD k 0
  issued : hw = (blocksOf full).foldl (issue engine) hw₀

theorem Fed.empty (engine : Engine) (hw₀ : Hw) (buf : Mem) : Fed engine hw₀ [] [] buf hw₀ :=
  ⟨Nat.dvd_zero _, by norm_num, by simp, rfl⟩

/-- One byte, which may fill the buffer. -/
theorem Fed.byte {full tail : List UInt8} {buf : Mem} {hw : Hw}
    (h : Fed engine hw₀ full tail buf hw) (b : UInt8) :
    if tail.length + 1 = 64 then Fed engine hw₀ (full ++ (tail ++ [b])) []
        (Function.update buf tail.length b)
        (sha256Transform engine (Function.update buf tail.length b) hw)
    else Fed engine hw₀ full (tail ++ [b]) (Function.update buf tail.length b) hw := by
  have hpending : ∀ k < (tail ++ [b]).length,
      Function.update buf tail.length b k = (tail ++ [b]).getD k 0 := by
    intro k hk
    rw [List.length_append, List.length_singleton] at hk
    rw [List.getD_eq_getElem?_getD]
    by_cases hlast : k = tail.length
    · subst hlast
      simp
    · rw [Function.update_of_ne hlast, h.pending k (by omega), List.getD_eq_getElem?_getD,
        List.getElem?_append_left (by omega)]
  split
  · rename_i hfull
    obtain ⟨n, hn⟩ := h.whole
    have hlen : (tail ++ [b]).length = 64 := by simpa using hfull
    refine ⟨?_, by norm_num, by simp, ?_⟩
    · rw [List.length_append, hlen, hn]
      exact ⟨n + 1, by ring⟩
    · rw [blocksOf_append hn hlen, List.foldl_append, ← h.issued, List.foldl_cons, List.foldl_nil,
        sha256Transform]
      exact congrArg (issue engine hw) (blockWords_eq fun k hk => hpending k (by omega))
  · rename_i hroom
    refine ⟨h.whole, ?_, hpending, h.issued⟩
    have := h.short
    rw [List.length_append, List.length_singleton]
    omega

theorem Fed.loop {full tail : List UInt8} {buf : Mem} {hw : Hw}
    (h : Fed engine hw₀ full tail buf hw) (data : List UInt8) :
    ∃ full' tail', full' ++ tail' = full ++ tail ++ data ∧
      Fed engine hw₀ full' tail' (updateLoop engine data tail.length buf hw).1
        (updateLoop engine data tail.length buf hw).2 := by
  induction data generalizing full tail buf hw with
  | nil => exact ⟨full, tail, by simp, h⟩
  | cons b data ih =>
    have hbyte := h.byte b
    rw [updateLoop]
    by_cases hfull : tail.length + 1 = 64
    · rw [if_pos hfull] at hbyte ⊢
      obtain ⟨full', tail', heq, hfed⟩ := ih hbyte
      exact ⟨full', tail', by rw [heq]; simp, hfed⟩
    · rw [if_neg hfull] at hbyte ⊢
      obtain ⟨full', tail', heq, hfed⟩ := ih hbyte
      rw [List.length_append, List.length_singleton] at hfed
      exact ⟨full', tail', by rw [heq]; simp, hfed⟩

/-- The state of the driver after the bytes `fed` of a message. -/
structure Absorbed (engine : Engine) (hw₀ : Hw) (fed : List UInt8) (s : Ctx × Hw) : Prop where
  count : s.1.count = u64 fed.length
  fed : ∃ full tail, full ++ tail = fed ∧ Fed engine hw₀ full tail s.1.buf s.2

theorem Absorbed.init (engine : Engine) (hw₀ : Hw) (buf : Mem) :
    Absorbed engine hw₀ [] (sha256Init buf, hw₀) :=
  ⟨rfl, [], [], rfl, Fed.empty engine hw₀ buf⟩

/-- An update adds its bytes, wherever in a block it starts and ends. -/
theorem Absorbed.update {fed : List UInt8} {s : Ctx × Hw} (h : Absorbed engine hw₀ fed s)
    (data : List UInt8) : Absorbed engine hw₀ (fed ++ data) (sha256Update engine s data) := by
  obtain ⟨full, tail, rfl, hfed⟩ := h.fed
  obtain ⟨n, hn⟩ := hfed.whole
  have hcount := h.count
  have hshort := hfed.short
  rw [List.length_append] at hcount
  have hindex : s.1.count % 64 = tail.length := by
    rw [hcount]
    unfold u64
    omega
  obtain ⟨full', tail', heq, hfed'⟩ := hfed.loop data
  refine ⟨?_, full', tail', heq, ?_⟩
  · have hsum : u64 (u64 (full.length + tail.length) + data.length) =
        u64 (full.length + tail.length + data.length) := by
      unfold u64
      omega
    rw [List.length_append, List.length_append, ← hsum, ← hcount]
    rfl
  · rw [sha256Update, hindex]
    exact hfed'

theorem Absorbed.updates {fed : List UInt8} {s : Ctx × Hw} (h : Absorbed engine hw₀ fed s)
    (pieces : List (List UInt8)) :
    Absorbed engine hw₀ (fed ++ pieces.flatten) (pieces.foldl (sha256Update engine) s) := by
  induction pieces generalizing fed s with
  | nil => simpa using h
  | cons piece pieces ih =>
    have := ih (h.update piece)
    rwa [List.append_assoc] at this

/-- The zeros that are appended are the fewest that leave room for the length. -/
theorem Absorbed.pad {fed : List UInt8} {s : Ctx × Hw} (h : Absorbed engine hw₀ fed s) :
    Absorbed engine hw₀ (fed ++ List.replicate ((120 - fed.length % 64) % 64) 0)
      (padLoop engine s) := by
  induction hk : (120 - fed.length % 64) % 64 generalizing fed s with
  | zero =>
    have hcount : s.1.count % 64 = 56 := by
      rw [h.count]
      unfold u64
      omega
    rw [padLoop, if_neg (by simpa using hcount)]
    simpa using h
  | succ k ih =>
    have hcount : s.1.count % 64 ≠ 56 := by
      rw [h.count]
      unfold u64
      omega
    rw [padLoop, if_pos hcount]
    have hrest := ih (h.update [0]) (by
      rw [List.length_append, List.length_singleton]
      omega)
    rwa [List.append_assoc, List.singleton_append, ← List.replicate_succ] at hrest

theorem lengthBytes (cnt : ℕ) :
    ((List.range 8).map fun i => UInt8.ofNat (cnt / 2 ^ ((7 - i) * 8))) = i2osp 8 cnt := by
  simp [i2osp, List.range_succ, Nat.div_div_eq_div_mul]

/-- At the end exactly the blocks of the padded message were issued. -/
theorem Absorbed.final {m : List UInt8} {s : Ctx × Hw} (h : Absorbed engine hw₀ m s)
    (hlen : m.length < 2 ^ 61) :
    let hw := (blocksOf (fipsPad m)).foldl (issue engine) hw₀
    sha256Final engine s =
      (bytesOf hw.registers, { hw with trace := hw.trace ++ [.result hw.registers] }) := by
  intro hw
  have hcnt : u64 (s.1.count * 8) = 8 * m.length := by
    rw [h.count]
    unfold u64
    omega
  have hzeros : (120 - (m ++ [0x80]).length % 64) % 64 = (119 - m.length % 64) % 64 := by
    rw [List.length_append, List.length_singleton]
    omega
  have hpadded := ((h.update [0x80]).pad).updates
    ((List.range 8).map fun i => [UInt8.ofNat (8 * m.length / 2 ^ ((7 - i) * 8))])
  have hflat : ((List.range 8).map fun i =>
      [UInt8.ofNat (8 * m.length / 2 ^ ((7 - i) * 8))]).flatten = i2osp 8 (8 * m.length) := by
    rw [← lengthBytes, ← List.flatMap_def, ← List.map_eq_flatMap]
  rw [hflat, hzeros, ← fipsPad, List.foldl_map] at hpadded
  obtain ⟨full, tail, heq, hfed⟩ := hpadded.fed
  -- nothing is left in the buffer
  have htail : tail = [] := by
    have hwhole := length_fipsPad m
    rw [← heq, List.length_append, Nat.dvd_add_right hfed.whole] at hwhole
    exact List.length_eq_zero_iff.mp (Nat.eq_zero_of_dvd_of_lt hwhole hfed.short)
  rw [htail, List.append_nil] at heq
  have hissued := hfed.issued
  rw [heq] at hissued
  rw [sha256Final, hcnt, hissued]

end Issued

/-- The registers after the blocks of a message. -/
def Engine.hash (engine : Engine) : List (List UInt32) → List UInt32
  | [] => []
  | w :: ws => ws.foldl engine.restart (engine.start w)

/-- The eight words that the engine computes for a message. -/
def Engine.digest (engine : Engine) (m : List UInt8) : List UInt32 :=
  (List.range 8).map fun i => (engine.hash (blocksOf (fipsPad m))).getD i 0

/-- The hash of a message: what the engine computes, as 32 bytes. -/
def Engine.sha256 (engine : Engine) (m : List UInt8) : List UInt8 := bytesOf (engine.digest m)

/-- The commands for the blocks of one message. -/
def commands : List (List UInt32) → List Event
  | [] => []
  | w :: ws => .command 1 w :: ws.map (.command 2)

/-- All that is done to the engine for one message. -/
def messageTrace (engine : Engine) (m : List UInt8) : List Event :=
  commands (blocksOf (fipsPad m)) ++ [.result (engine.digest m)]

theorem foldl_issue_restart (engine : Engine) {blocks : List (List UInt32)} {hw : Hw}
    (hpos : hw.updateNum ≠ 0) (hlt : hw.updateNum + blocks.length < 2 ^ 32) :
    blocks.foldl (issue engine) hw = ⟨hw.updateNum + blocks.length,
      blocks.foldl engine.restart hw.h, hw.trace ++ blocks.map (.command 2)⟩ := by
  induction blocks generalizing hw with
  | nil => simp
  | cons w ws ih =>
    rw [List.length_cons] at hlt
    have hstep : issue engine hw w =
        ⟨hw.updateNum + 1, engine.restart hw.h w, hw.trace ++ [.command 2 w]⟩ := by
      rw [issue, if_neg hpos, if_neg hpos, u32_of_lt (by omega)]
    rw [List.foldl_cons, hstep, ih (Nat.succ_ne_zero _) (by simp only; omega)]
    simp [Nat.add_comm, Nat.add_left_comm]

/-- From a counter of zero on, the first block is a start and the others are restarts. -/
theorem foldl_issue_fresh (engine : Engine) {blocks : List (List UInt32)} {hw : Hw}
    (hzero : hw.updateNum = 0) (hne : blocks ≠ []) (hlt : blocks.length < 2 ^ 32) :
    blocks.foldl (issue engine) hw =
      ⟨blocks.length, engine.hash blocks, hw.trace ++ commands blocks⟩ := by
  cases blocks with
  | nil => exact absurd rfl hne
  | cons w ws =>
    rw [List.length_cons] at hlt
    have hstep : issue engine hw w = ⟨1, engine.start w, hw.trace ++ [.command 1 w]⟩ := by
      rw [issue, if_pos hzero, if_pos hzero, hzero, u32_of_lt (by norm_num)]
    rw [List.foldl_cons, hstep, foldl_issue_restart engine (by norm_num) (by simp only; omega)]
    simp [commands, Engine.hash, Nat.add_comm]

theorem length_blocksOf_fipsPad (m : List UInt8) :
    0 < (blocksOf (fipsPad m)).length ∧ (blocksOf (fipsPad m)).length ≤ m.length / 64 + 2 := by
  simp only [blocksOf, fipsPad, List.length_map, List.length_range, List.length_append,
    List.length_singleton, List.length_replicate, length_i2osp]
  omega

/-- A message that is hashed with the counter at zero: the digest is that of the message,
whatever the engine did before. -/
theorem sha256Hash_fresh (engine : Engine) (buf : Mem) {m : List UInt8} {hw : Hw}
    (hzero : hw.updateNum = 0) (hlen : m.length < 2 ^ 31) :
    (sha256Hash engine buf m hw).1 = engine.sha256 m ∧
      (sha256Hash engine buf m hw).2.trace = hw.trace ++ messageTrace engine m := by
  have habsorbed := (Absorbed.init engine hw buf).update m
  rw [List.nil_append] at habsorbed
  have hfinal := habsorbed.final (by omega)
  obtain ⟨hpos, hle⟩ := length_blocksOf_fipsPad m
  have hne : blocksOf (fipsPad m) ≠ [] := List.length_pos_iff.mp hpos
  rw [foldl_issue_fresh engine hzero hne (by omega)] at hfinal
  rw [sha256Hash, hfinal]
  refine ⟨rfl, ?_⟩
  rw [messageTrace, ← List.append_assoc]
  rfl

/-- The block of a command. -/
def Event.block : Event → Option (List UInt32)
  | .command _ w => some w
  | .result _ => none

theorem blocks_foldl_issue (engine : Engine) (blocks : List (List UInt32)) (hw : Hw) :
    (blocks.foldl (issue engine) hw).trace.filterMap Event.block =
      hw.trace.filterMap Event.block ++ blocks := by
  induction blocks generalizing hw with
  | nil => simp
  | cons w ws ih =>
    rw [List.foldl_cons, ih]
    simp [issue, Event.block]

/-- A message given in any pieces: the blocks issued are those of its padding. -/
theorem blocks_of_pieces (engine : Engine) (buf : Mem) (hw : Hw) {pieces : List (List UInt8)}
    (hlen : pieces.flatten.length < 2 ^ 31) :
    (sha256Final engine (pieces.foldl (sha256Update engine)
        (sha256Init buf, hw))).2.trace.filterMap Event.block =
      hw.trace.filterMap Event.block ++ blocksOf (fipsPad pieces.flatten) := by
  have habsorbed := (Absorbed.init engine hw buf).updates pieces
  rw [List.nil_append] at habsorbed
  rw [habsorbed.final (by omega)]
  simp [blocks_foldl_issue, Event.block]

end UBoot.Secure
