import Ext4Fsd.Extent.Insert

/-! # Mapping logical blocks

`ext4_extent_get_blocks` looks a logical block up. With `create` a block in a hole is allocated and
inserted, and the part of an unwritten extent that is asked for is zeroed and converted. -/

namespace Ext4Fsd.Extent.Blocks

open Ext4Fsd.Lib.CInt Ext4Fsd.Lib.Fallible Ext4Fsd.Extent.Layout Ext4Fsd.Extent.Store
open Ext4Fsd.Extent.Search Ext4Fsd.Extent.Insert

/-- `IN_RANGE` of three signed values. -/
def inRange (b first len : ℤ) : Prop := first ≤ b ∧ b < first + len

instance (b first len : ℤ) : Decidable (inRange b first len) := by
  unfold inRange
  infer_instance

def extMaxBlocks : ℕ := 2 ^ 32 - 1

/-! ### Converting an unwritten extent -/

/-- `ext4_ext_split_extent_at`, with the flags `EXT4_EXT_MARK_UNWRIT1` and `EXT4_EXT_MARK_UNWRIT2`.
The result after a failed insertion is that of `ext4_ext_dirty`. -/
def ext4ExtSplitExtentAt (env : Env) (split : ℕ) (unwrit1 unwrit2 : Bool) (turns : ℕ) :
    Ext Unit := do
  let s ← get
  let depth := extDepth s
  let h := (s.path depth).header
  let p ← deref (s.path depth).extent
  let ex := (s.nodes h).slots p
  let eeBlock := ex.firstBlock
  let eeLen : ℤ := ext4ExtGetActualLen ex
  let newblock := toI32 (split - eeBlock) + ext4ExtPblock ex
  if split = eeBlock then do
    setSlot h p fun ex =>
      if unwrit2 then ext4ExtMarkUnwritten ex else ext4ExtMarkInitialized ex
    ext4ExtDirty depth
  else do
    setSlot h p fun ex =>
      let ex := { ex with blockCount := half (split - eeBlock) }
      if unwrit1 then ext4ExtMarkUnwritten ex else ex
    ext4ExtDirty depth
    let newex := ext4ExtStorePblock ⟨split, half (eeLen - toI32 (split - eeBlock)), 0, 0⟩ newblock
    let newex := if unwrit2 then ext4ExtMarkUnwritten newex else newex
    let ret ← attempt (ext4ExtInsertExtent env newex true turns)
    match ret with
    | .ok _ => pure ()
    | .error _ =>
      setSlot h p fun ex => { ex with blockCount := half eeLen }
      let s ← get
      if s.pathLive then ext4ExtDirty depth else fail .fault

def ext4ExtConvertToInitialized (env : Env) (split : ℕ) (blocks : ℤ) (turns : ℕ) : Ext Unit := do
  let s ← get
  let depth := extDepth s
  let p ← deref (s.path depth).extent
  let ex := (s.nodes (s.path depth).header).slots p
  if word (split + blocks) = word (ex.firstBlock + ext4ExtGetActualLen ex) then
    ext4ExtSplitExtentAt env split true false turns
  else if ex.firstBlock = split then
    ext4ExtSplitExtentAt env (word (split + blocks)) false true turns
  else do
    ext4ExtSplitExtentAt env (word (split + blocks)) true true turns
    ext4ExtSplitExtentAt env split true false turns

/-! ### Holes -/

/-- The entry after the path's one at level `depth`; the leaf is at level `leaf`. -/
def nextAt (s : St) (leaf depth : ℕ) : Option ℕ :=
  let e := s.path depth
  let eh := s.nodes e.header
  let pos := if depth = leaf then e.extent else e.index
  (pos.filter fun p => p + 1 ≠ eh.entriesCount).map fun p => (eh.slots (p + 1)).firstBlock

/-- The loop of `ext4_ext_next_allocated_block`, from level `depth` up. -/
def nextAllocatedLoop (s : St) (leaf : ℕ) : ℕ → ℕ
  | 0 => (nextAt s leaf 0).getD extMaxBlocks
  | depth + 1 => (nextAt s leaf (depth + 1)).getD (nextAllocatedLoop s leaf depth)

def ext4ExtNextAllocatedBlock (s : St) : ℕ :=
  let depth := (s.path 0).depth
  if depth = 0 ∧ (s.path 0).extent = none then extMaxBlocks
  else nextAllocatedLoop s depth depth

/-- A block of zeros, read as a node. -/
def zeroNode : Node := ⟨0, 0, 0, 0, fun _ => ⟨0, 0, 0, 0⟩⟩

/-- `n` blocks from `block` on. -/
def zeroLoop (env : Env) : ℕ → ℕ → Ext Unit
  | 0, _ => pure ()
  | n + 1, block => do
    ext4TransBlockGet env block
    modify fun s => s.setNode (.block block) zeroNode
    ext4TransSetBlockDirty block
    zeroLoop env n (block + 1)

def ext4ExtZeroUnwrittenRange (env : Env) (block : ℕ) (blocksCount : ℤ) : Ext Unit :=
  zeroLoop env blocksCount.toNat block

/-! ### `ext4_extent_get_blocks` -/

/-- The smaller of two signed counts. -/
def capped (allocated maxBlocks : ℤ) : ℤ := if maxBlocks < allocated then maxBlocks else allocated

/-- An unwritten extent covers the block, with `allocated` blocks left from it on. -/
def createUnwritten (env : Env) (iblock : ℕ) (newblock allocated maxBlocks : ℤ) (turns : ℕ) :
    Ext (ℤ × ℤ) := do
  let zeroRange := capped allocated maxBlocks
  ext4ExtZeroUnwrittenRange env newblock.toNat zeroRange
  ext4ExtConvertToInitialized env iblock zeroRange turns
  pure (newblock, capped allocated maxBlocks)

/-- No extent covers the block: a new one is allocated, and given back when it cannot be
inserted. -/
def createInHole (env : Env) (iblock : ℕ) (maxBlocks : ℤ) (turns : ℕ) : Ext (ℤ × ℤ) := do
  let s ← get
  let next := ext4ExtNextAllocatedBlock s
  let allocated := capped (toI32 (next - iblock)) maxBlocks
  let new ← ext4NewMetaBlocks env (ext4ExtFindGoal env iblock s) (some allocated)
  let allocated := new.2.getD allocated
  let newex := ext4ExtStorePblock ⟨iblock, half allocated, 0, 0⟩ new.1
  let ret ← attempt (ext4ExtInsertExtent env newex false turns)
  match ret with
  | .ok _ => pure (ext4ExtPblock newex, capped allocated maxBlocks)
  | .error e =>
    ext4ExtFreeBlocks (ext4ExtPblock newex) newex.blockCount
    fail e

def holeFound (env : Env) (iblock : ℕ) (maxBlocks : ℤ) (create : Bool) (turns : ℕ) :
    Ext (ℤ × ℤ) :=
  if create then createInHole env iblock maxBlocks turns else pure (0, 0)

/-- The part of `ext4_extent_get_blocks` after the lookup; the result is `*result` and
`*blocks_count`. -/
def getFound (env : Env) (iblock : ℕ) (maxBlocks : ℤ) (create : Bool) (turns : ℕ) :
    Ext (ℤ × ℤ) := do
  let s ← get
  let depth := extDepth s
  match (s.path depth).extent with
  | none => holeFound env iblock maxBlocks create turns
  | some p =>
    let ex := (s.nodes (s.path depth).header).slots p
    let eeBlock := toI32 ex.firstBlock
    let eeLen := toI16 (ext4ExtGetActualLen ex)
    if inRange (toI32 iblock) eeBlock eeLen then
      let allocated := eeLen - (toI32 iblock - eeBlock)
      let newblock := toI32 iblock - eeBlock + ext4ExtPblock ex
      if ¬ ext4ExtIsUnwritten ex then pure (newblock, capped allocated maxBlocks)
      else if ¬ create then pure (0, capped allocated maxBlocks)
      else createUnwritten env iblock newblock allocated maxBlocks turns
    else holeFound env iblock maxBlocks create turns

/-- `ext4_extent_get_blocks` of the block `iblock`. -/
def ext4ExtentGetBlocks (env : Env) (iblock : ℕ) (maxBlocks : ℤ) (create : Bool) (turns : ℕ) :
    Ext (ℤ × ℤ) := do
  modify fun s => { s with pathLive := false }
  ext4FindExtent env iblock
  let ret ← attempt (getFound env iblock maxBlocks create turns)
  let s ← get
  runIf s.pathLive (ext4ExtDropRefs env 0 false)
  modify fun s => { s with pathLive := false }
  match ret with
  | .ok r => pure r
  | .error e => fail e

end Ext4Fsd.Extent.Blocks
