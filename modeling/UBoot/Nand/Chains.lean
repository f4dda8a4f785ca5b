import UBoot.Nand.RelocationMap

/-!
# Chains of relocations

`__nand_core_relocate_block` takes its block by reference and leaves the replacement in the
caller's variable, so relocating a user block again moves its last replacement. Each such
call appends one item. Whatever the calls, and whatever happened to the part in between, the
search for the real block ends for every block, at the end of the block's chain.
-/
namespace UBoot.Nand
open ByteStore

/-- The driver, and for each user block the variable its callers pass: the block itself, or
what `__nand_core_relocate_block` left in it. -/
structure Relocating where
  driver : Driver
  block : ℕ → ℕ

/-- The user block to relocate, and the part as the call finds it. -/
structure Relocation where
  userBlock : ℕ
  part : Part

section Functions
variable (chip : NandChip) (f : Faults)

/-- `__nand_core_relocate_block(chip, &block)` for the variable of a user block. -/
def relocateStep (s : Relocating) (x : Relocation) : ℤ × Relocating :=
  let r := coreRelocateBlock chip f (s.block x.userBlock) { s.driver with part := x.part }
  (r.1, ⟨r.2.2, Function.update s.block x.userBlock r.2.1⟩)

def relocating : Machine Relocating Relocation ℤ := ⟨relocateStep chip f⟩

end Functions

section Runs
variable {chip : NandChip} {f : Faults} {limit : ℕ}

/-- What the search finds on a table: it ends for every block, at the end of the block's
chain of items, which for a user block is its last replacement. -/
structure ChainsFound (limit : ℕ) (s : Relocating) : Prop where
  terminates : ∀ b, ∃ fuel, (findLoop s.driver.reloc fuel 0 b).isSome
  endOfChain : ∀ b, s.driver.reloc.log.Ends b (findRealBlock s.driver.reloc b)
  lastReplacement : ∀ b < limit, findRealBlock s.driver.reloc b = s.block b

/-- What every call keeps. -/
structure ChainInv (chip : NandChip) (limit : ℕ) (s : Relocating) : Prop where
  reserve : chip.maxBlocks - s.driver.gmaxRelocEntry = limit
  tos : RelocTable.TosOk chip limit s.driver.reloc
  froms : RelocTable.FromsOk limit s.driver.reloc
  real : ∀ b < limit, findRealBlock s.driver.reloc b = s.block b

theorem ChainInv.chainsFound {s : Relocating} (h : ChainInv chip limit s) :
    ChainsFound limit s where
  terminates b := ⟨_, by rw [RelocTable.findRealBlock_total h.tos h.froms b]; rfl⟩
  endOfChain b := RelocTable.findRealBlock_ends h.tos h.froms b
  lastReplacement := h.real

theorem ChainInv.empty {s : Driver} (h : s.reloc.total = 0) :
    ChainInv chip (chip.maxBlocks - s.gmaxRelocEntry) ⟨s, id⟩ where
  reserve := rfl
  tos := by constructor <;> dsimp only <;> omega
  froms := by
    constructor
    · dsimp only
      omega
    · intro i hi
      have : i < s.reloc.total := hi
      omega
  real b _ := by
    show findRealBlock s.reloc b = b
    rw [findRealBlock, findFuel, h]
    simp [findLoop, h]

/-- A call that succeeds sends the chain of its user block on to a fresh reserve block, and
no other chain; one that fails leaves the table and the variable. -/
theorem ChainInv.step {s : Relocating} {x : Relocation} (h : ChainInv chip limit s)
    (hx : x.userBlock < limit) : ChainInv chip limit (relocateStep chip f s x).2 := by
  have hreal := h.real x.userBlock hx
  rw [relocateStep]
  rcases coreRelocateBlock_cases (f := f) (s := { s.driver with part := x.part })
    (s.block x.userBlock) (h.tos.last_ne_zero (by omega)) with
    ⟨b', F, heq, hlt, hfound⟩ | ⟨F, heq, -⟩
  · have hlimit : limit ≤ b' := h.reserve ▸ hfound.limit_le
    have hb' : b' < lastLeftOff chip s.driver.reloc s.driver.reloc.total := hfound.lt_start
    have hblocks := lastLeftOff_le chip s.driver.reloc s.driver.reloc.total
    have horigin : s.block x.userBlock < limit ∨
        s.driver.reloc.log.Target (s.block x.userBlock) := by
      rw [← hreal]
      rcases RelocTable.findRealBlock_eq_or_target h.tos hx with hself | htarget
      · exact .inl (by rw [hself]; exact hx)
      · exact .inr htarget
    have hmoved : ¬ s.driver.reloc.log.Moved (s.block x.userBlock) := by
      rw [← hreal]
      exact (RelocTable.findRealBlock_ends h.tos h.froms _).2
    rw [heq]
    constructor
    · exact h.reserve
    · exact h.tos.addItem hlimit hb'
    · exact h.froms.addItem h.tos hlt (hb'.trans_le hblocks) horigin hmoved
    · intro c hc
      dsimp only
      rw [RelocTable.findRealBlock_addItem h.tos h.froms hlt hlimit hb' horigin hmoved]
      by_cases hcx : c = x.userBlock
      · rw [hcx, if_pos hreal, Function.update_self]
      · have hne : findRealBlock s.driver.reloc c ≠ s.block x.userBlock := by
          rw [← hreal]
          exact fun he => hcx (RelocTable.findRealBlock_injective h.tos hc hx he)
        rw [if_neg hne, Function.update_of_ne hcx, h.real c hc]
  · rw [heq]
    refine ⟨h.reserve, h.tos, h.froms, ?_⟩
    intro c hc
    dsimp only
    rw [Function.update_eq_self]
    exact h.real c hc

/-- On every table that calls for user blocks reach from the empty one, in any order, the
search ends for every block, at its last replacement. -/
theorem chainsFound_of_relocations (chip : NandChip) (f : Faults) (s : Driver)
    (calls : List Relocation) (hempty : s.reloc.total = 0)
    (huser : ∀ x ∈ calls, x.userBlock < chip.maxBlocks - s.gmaxRelocEntry) :
    ChainsFound (chip.maxBlocks - s.gmaxRelocEntry)
      ((relocating chip f).run ⟨s, id⟩ calls) := by
  apply ChainInv.chainsFound
  apply (relocating chip f).run_invariant _ (@ChainInv.empty chip s hempty)
    ((relocating chip f).guarded_of_forall _ calls huser)
  intro s' x hinv hx
  exact hinv.step hx

/-- A good part; block 1 is relocated, then block 2, then block 1 again. -/
theorem chainsFound_micron :
    ChainsFound (micron4GbX16.maxBlocks - nandMaxRelocEntry)
      ((relocating micron4GbX16 wornFaults).run ⟨(powerOff freshPart).driver, id⟩
        [⟨1, freshPart⟩, ⟨2, freshPart⟩, ⟨1, freshPart⟩]) :=
  chainsFound_of_relocations micron4GbX16 wornFaults (powerOff freshPart).driver
    [⟨1, freshPart⟩, ⟨2, freshPart⟩, ⟨1, freshPart⟩] (by decide) (by decide)

end Runs
end UBoot.Nand
