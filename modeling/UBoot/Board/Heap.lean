import UBoot.Library.ByteStore
import UBoot.Library.Machine
import UBoot.Word

/-!
# The boot-time allocator

`calloc` moves one pointer down, from below the stack towards address 0, and never gives
memory back. The pointer at 0 means that there was no call yet. As long as no product wraps
and no request takes the last kilobyte, the regions lie one below the other.
-/
namespace UBoot.Board
open ByteStore

def alignSize : ℕ := 1024
def configStacksize : ℕ := 16 * 1024

/-- The memory, and the static variable of `calloc`. -/
structure Arena where
  mem : Mem
  memAddrStart : ℕ

section Functions
variable (startAddrSp : ℕ)

/-- `gd->start_addr_sp - CONFIG_STACKSIZE`. -/
def initialTop : ℕ := u32 (startAddrSp + 2 ^ 32 - configStacksize)

/-- `mem_addr_start` behind the first `if` of `calloc`: what is left. -/
def addrLeft (s : Arena) : ℕ :=
  if s.memAddrStart = 0 then initialTop startAddrSp else s.memAddrStart

/-- `calloc`: the pointer, 0 for `NULL`, and the state. -/
def calloc (n size : ℕ) (s : Arena) : ℕ × Arena :=
  let memAddrStart := addrLeft startAddrSp s
  if u32 (n * size) > memAddrStart then (0, { s with memAddrStart := memAddrStart })
  else
    let memAddrStart := memAddrStart - u32 (n * size)
    let memAddrStart := memAddrStart - memAddrStart % alignSize
    (memAddrStart, ⟨overlay s.mem memAddrStart (u32 (n * size)) fun _ => 0, memAddrStart⟩)

/-- What happens to the memory: a call of `calloc`, or a store by the program. -/
inductive HeapAction where
  | calloc (n size : ℕ)
  | store (addr len : ℕ) (src : Mem)

def heapStep (s : Arena) : HeapAction → ℕ × Arena
  | .calloc n size => calloc startAddrSp n size s
  | .store addr len src => (0, { s with mem := overlay s.mem addr len src })

def heap : Machine Arena HeapAction ℕ := ⟨heapStep startAddrSp⟩

end Functions

/-- The bytes from `base` on that a caller asked for. -/
structure Region where
  base : ℕ
  len : ℕ
  deriving DecidableEq

/-- No byte is in both regions. -/
def Region.Disjoint (r q : Region) : Prop :=
  ∀ a, ¬ ((r.base ≤ a ∧ a < r.base + r.len) ∧ q.base ≤ a ∧ a < q.base + q.len)

/-- A call of `calloc`, by the pointer and the memory it leaves and what was handed out
before. -/
structure CallocRight (startAddrSp n size : ℕ) (s : Arena) (earlier : List Region) : Prop where
  aligned : (calloc startAddrSp n size s).1 ≠ 0 →
    (calloc startAddrSp n size s).1 % alignSize = 0
  belowTop : (calloc startAddrSp n size s).1 ≠ 0 →
    (calloc startAddrSp n size s).1 + n * size ≤ initialTop startAddrSp
  zeroed : (calloc startAddrSp n size s).1 ≠ 0 → ∀ i < n * size,
    (calloc startAddrSp n size s).2.mem ((calloc startAddrSp n size s).1 + i) = 0
  disjoint : (calloc startAddrSp n size s).1 ≠ 0 → ∀ r ∈ earlier,
    Region.Disjoint ⟨(calloc startAddrSp n size s).1, n * size⟩ r
  refused : n * size > addrLeft startAddrSp s → (calloc startAddrSp n size s).1 = 0

/-- The regions handed out once an action has been taken. -/
def handedOut (startAddrSp : ℕ) (s : Arena) (earlier : List Region) : HeapAction → List Region
  | .calloc n size =>
    if (calloc startAddrSp n size s).1 = 0 then earlier
    else ⟨(calloc startAddrSp n size s).1, n * size⟩ :: earlier
  | .store _ _ _ => earlier

/-- Every call of a run is right. -/
def CallsRight (startAddrSp : ℕ) : Arena → List Region → List HeapAction → Prop
  | _, _, [] => True
  | s, earlier, a :: rest =>
    (match a with
      | .calloc n size => CallocRight startAddrSp n size s earlier
      | .store _ _ _ => True) ∧
    CallsRight startAddrSp (heapStep startAddrSp s a).2 (handedOut startAddrSp s earlier a) rest

/-- The product of the call is more than what is left, as 32 bits hold it, or it does not wrap
and leaves a kilobyte. -/
def HeapAction.Fits (startAddrSp : ℕ) (s : Arena) : HeapAction → Prop
  | .calloc n size => u32 (n * size) > addrLeft startAddrSp s ∨
      n * size < 2 ^ 32 ∧ n * size + alignSize ≤ addrLeft startAddrSp s
  | .store _ _ _ => True

section Calls
variable {startAddrSp n size : ℕ} {s : Arena}

/-- A call that fits refuses and changes nothing, or hands out zeroed bytes below what was
left. -/
theorem calloc_cases (h : (HeapAction.calloc n size).Fits startAddrSp s) :
    ((calloc startAddrSp n size s).1 = 0 ∧
      addrLeft startAddrSp (calloc startAddrSp n size s).2 = addrLeft startAddrSp s) ∨
    ∃ base, calloc startAddrSp n size s = (base, ⟨overlay s.mem base (n * size) fun _ => 0, base⟩) ∧
      base ≠ 0 ∧ base % alignSize = 0 ∧ base + n * size ≤ addrLeft startAddrSp s := by
  unfold calloc
  rcases h with hmore | ⟨hwrap, hfits⟩
  · rw [if_pos hmore]
    refine .inl ⟨rfl, ?_⟩
    rw [addrLeft]
    split
    · rename_i hzero
      unfold addrLeft at hzero ⊢
      split at hzero
      · rename_i hfirst
        rw [if_pos hfirst]
      · exact absurd hzero ‹_›
    · rfl
  · have hwrapped : u32 (n * size) = n * size := u32_of_lt hwrap
    rw [if_neg (by omega), hwrapped]
    simp only [alignSize] at hfits ⊢
    refine .inr ⟨_, rfl, ?_, ?_, ?_⟩ <;> omega

end Calls

/-- What every call that fits keeps: all regions lie between what is left and the top. -/
structure HeapInv (startAddrSp : ℕ) (s : Arena) (earlier : List Region) : Prop where
  leftLe : addrLeft startAddrSp s ≤ initialTop startAddrSp
  above : ∀ r ∈ earlier, addrLeft startAddrSp s ≤ r.base

section Runs
variable {startAddrSp : ℕ} {s : Arena} {earlier : List Region}

theorem HeapInv.start (startAddrSp : ℕ) (mem : Mem) : HeapInv startAddrSp ⟨mem, 0⟩ [] := by
  constructor
  · rw [addrLeft, if_pos rfl]
  · exact fun _ hr => absurd hr List.not_mem_nil

theorem HeapInv.callocRight (h : HeapInv startAddrSp s earlier) {n size : ℕ}
    (hfits : (HeapAction.calloc n size).Fits startAddrSp s) :
    CallocRight startAddrSp n size s earlier := by
  rcases calloc_cases hfits with ⟨hnull, -⟩ | ⟨base, heq, hne, halign, hle⟩
  · constructor <;> intro hp
    · exact absurd hnull hp
    · exact absurd hnull hp
    · exact absurd hnull hp
    · exact absurd hnull hp
    · exact hnull
  · have hleft := h.leftLe
    constructor
    · intro _
      rw [heq]
      exact halign
    · intro _
      rw [heq]
      exact hle.trans hleft
    · intro _ i hi
      rw [heq]
      exact overlay_add s.mem (fun _ => 0) hi
    · intro _ r hr a hboth
      rw [heq] at hboth
      have habove := h.above r hr
      dsimp only at hboth
      omega
    · intro hmore
      omega

theorem HeapInv.step (h : HeapInv startAddrSp s earlier) {a : HeapAction}
    (hfits : a.Fits startAddrSp s) :
    HeapInv startAddrSp (heapStep startAddrSp s a).2 (handedOut startAddrSp s earlier a) := by
  cases a with
  | store addr len src => exact ⟨h.leftLe, h.above⟩
  | calloc n size =>
    rw [heapStep, handedOut]
    rcases calloc_cases hfits with ⟨hnull, hleft⟩ | ⟨base, heq, hne, -, hle⟩
    · rw [if_pos hnull]
      exact ⟨hleft.trans_le h.leftLe, fun r hr => hleft.trans_le (h.above r hr)⟩
    · have hbase : addrLeft startAddrSp (calloc startAddrSp n size s).2 = base := by
        rw [heq, addrLeft, if_neg hne]
      have hptr : (calloc startAddrSp n size s).1 = base := by rw [heq]
      rw [hptr, if_neg hne]
      constructor
      · have := h.leftLe
        omega
      · intro r hr
        rw [hbase]
        rcases List.mem_cons.mp hr with rfl | hr
        · exact le_rfl
        · have := h.above r hr
          omega

theorem HeapInv.callsRight {actions : List HeapAction} (h : HeapInv startAddrSp s earlier)
    (hfits : (heap startAddrSp).Guarded (fun s a => a.Fits startAddrSp s) s actions) :
    CallsRight startAddrSp s earlier actions := by
  induction actions generalizing s earlier with
  | nil => trivial
  | cons a rest ih =>
    refine ⟨?_, ih (h.step hfits.1) hfits.2⟩
    cases a with
    | calloc n size => exact h.callocRight hfits.1
    | store addr len src => trivial

end Runs

/-- On every run whose calls fit, every call of `calloc` is right. -/
theorem callsRight_of_fits (startAddrSp : ℕ) (mem : Mem) (actions : List HeapAction)
    (hfits : (heap startAddrSp).Guarded (fun s a => a.Fits startAddrSp s) ⟨mem, 0⟩ actions) :
    CallsRight startAddrSp ⟨mem, 0⟩ [] actions :=
  HeapInv.callsRight (HeapInv.start startAddrSp mem) hfits

/-- Two allocations below a stack pointer, with a store in between. -/
theorem callsRight_two : CallsRight 0x9000000 ⟨fun _ => 0, 0⟩ []
    [.calloc 1 512, .store 0x8FFB000 4 fun _ => 7, .calloc 16 512] :=
  callsRight_of_fits 0x9000000 (fun _ => 0)
    [.calloc 1 512, .store 0x8FFB000 4 fun _ => 7, .calloc 16 512]
    ⟨.inr (by decide +kernel), trivial, .inr (by decide +kernel), trivial⟩

/-- The second call takes the last bytes: it returns `NULL`, and the third call gets memory
from the top again, which the first call got. -/
theorem exhausted_heap_starts_over : ¬ CallsRight 0x9000000 ⟨fun _ => 0, 0⟩ []
    [.calloc 1 (0x8FFC000 - 1024), .calloc 1 512, .calloc 1 512] := by
  intro ⟨_, _, hthird, _⟩
  have hdisjoint := hthird.disjoint (by decide +kernel) ⟨1024, 0x8FFC000 - 1024⟩
    (by decide +kernel) 0x8FFBC00
  exact hdisjoint (by decide +kernel)

end UBoot.Board
