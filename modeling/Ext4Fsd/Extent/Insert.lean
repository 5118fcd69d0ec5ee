import Ext4Fsd.Extent.Search

/-! # Inserting an extent

`ext4_ext_insert_extent` puts an extent into the leaf of the path. A full leaf is split, with every
full index node above it, after the current entry; when all of them are full the root first moves
into a block of its own and the path is looked up again. -/

namespace Ext4Fsd.Extent.Insert

open Ext4Fsd.Lib.CInt Ext4Fsd.Lib.Fallible
open Ext4Fsd.Extent.Layout Ext4Fsd.Extent.Store Ext4Fsd.Extent.Search

/-- `ext4_ext_find_goal` on a path. -/
def ext4ExtFindGoal (env : Env) (block : ℕ) (s : St) : ℤ :=
  let depth := (s.path 0).depth
  match (s.path depth).extent with
  | some p =>
    let ex := (s.nodes (s.path depth).header).slots p
    let extPblk : ℤ := ext4ExtPblock ex
    let extBlock := ex.firstBlock
    if toI32 extBlock < toI32 block then extPblk + toI32 (toI32 block - toI32 extBlock)
    else extPblk - toI32 (toI32 extBlock - toI32 block)
  | none => if (s.path depth).block ≠ 0 then (s.path depth).block else env.goalBlock

def ext4ExtNewMetaBlock (env : Env) (ex : Slot) : Ext ℕ := do
  let s ← get
  let new ← ext4NewMetaBlocks env (ext4ExtFindGoal env ex.firstBlock s) none
  pure new.1

/-! ### Entries of one node -/

/-- `path[i].index->first_block = border`. -/
def setKey (i border : ℕ) : Ext Unit := do
  let s ← get
  let ix ← deref (s.path i).index
  setSlot (s.path i).header ix fun slot => { slot with firstBlock := border }
  ext4ExtDirty i

/-- The `while (k--)` loop of `ext4_ext_correct_indexes`. -/
def correctLoop (border : ℕ) : ℕ → Ext Unit
  | 0 => pure ()
  | k + 1 => do
    let s ← get
    if (s.path (k + 1)).index ≠ some 0 then pure ()
    else do
      setKey k border
      correctLoop border k

def ext4ExtCorrectIndexes : Ext Unit := do
  let s ← get
  let depth := extDepth s
  match (s.path depth).extent with
  | none => fail .eio
  | some ex =>
    if depth = 0 then pure ()
    else if ex ≠ 0 then pure ()
    else do
      let border := ((s.nodes (s.path depth).header).slots ex).firstBlock
      setKey (depth - 1) border
      correctLoop border (depth - 1)

/-- The node with the entries from `ix` on moved up by one. -/
def makeGap (eh : Node) (ix : ℕ) : Node :=
  { eh with slots := memmove eh.slots (ix + 1) eh.slots ix (eh.entriesCount - ix) }

/-- The node with one entry more, written at `ix`. -/
def fillGap (eh : Node) (ix : ℕ) (write : Slot → Slot) : Node :=
  { eh with
    slots := Function.update eh.slots ix (write (eh.slots ix))
    entriesCount := half (eh.entriesCount + 1) }

def ext4ExtInsertIndex (i insertIndex insertBlock : ℕ) (setToIx : Bool) : Ext Unit := do
  let s ← get
  let curp := s.path i
  let eh := s.nodes curp.header
  let firstOf := fun p => (eh.slots p).firstBlock
  if curp.index.any fun p => insertIndex = firstOf p then fail .eio
  else if eh.entriesCount = eh.maxEntriesCount then fail .eio
  else do
    let ix := match curp.index with
      | none => 0
      | some p => if firstOf p < insertIndex then p + 1 else p
    modify fun s => s.setPath i { curp with index := some (curp.index.getD ix) }
    if eh.maxEntriesCount < ix + 1 then fail .eio
    else do
      modify fun s => s.setNode curp.header
        (fillGap (makeGap eh ix) ix fun slot =>
          ext4IdxStorePblock { slot with firstBlock := insertIndex } insertBlock)
      if half (eh.entriesCount + 1) < ix + 1 then fail .eio
      else do
        ext4ExtDirty i
        runIf setToIx (modify fun s =>
          s.setPath i { s.path i with index := some ix, pBlock := insertBlock })

/-! ### Merging -/

/-- The length limit of an extent in the state of `ex1`. -/
def maxLenOf (ex1 : Slot) : ℕ :=
  if ext4ExtIsUnwritten ex1 then extUnwrittenMaxLen else extInitMaxLen

def ext4ExtCanPrepend (ex1 ex2 : Slot) : Bool :=
  ext4ExtPblock ex2 + ext4ExtGetActualLen ex2 = ext4ExtPblock ex1 ∧
    ext4ExtGetActualLen ex1 + ext4ExtGetActualLen ex2 ≤ maxLenOf ex1 ∧
    (ex2.firstBlock + ext4ExtGetActualLen ex2) % 2 ^ 32 = ex1.firstBlock

def ext4ExtCanAppend (ex1 ex2 : Slot) : Bool :=
  ext4ExtPblock ex1 + ext4ExtGetActualLen ex1 = ext4ExtPblock ex2 ∧
    ext4ExtGetActualLen ex1 + ext4ExtGetActualLen ex2 ≤ maxLenOf ex1 ∧
    (ex1.firstBlock + ext4ExtGetActualLen ex1) % 2 ^ 32 = ex2.firstBlock

/-- The length of both, in the state of `ex1`. -/
def addLen (ex1 ex2 : Slot) : Slot :=
  let ex := { ex1 with blockCount := half (ext4ExtGetActualLen ex1 + ext4ExtGetActualLen ex2) }
  if ext4ExtIsUnwritten ex1 then ext4ExtMarkUnwritten ex else ex

/-- The physical start of the merged extent stays that of `ex1`, also in front. -/
def prepended (ex1 ex2 : Slot) : Slot := { addLen ex1 ex2 with firstBlock := ex2.firstBlock }

/-! ### The leaf -/

/-- The end of `ext4_ext_insert_leaf`: the path points to the entry `ex`. -/
def setExtent (i ex : ℕ) : Ext Unit :=
  modify fun s =>
    s.setPath i { s.path i with
      extent := some ex
      pBlock := ext4ExtPblock ((s.nodes (s.path i).header).slots ex) }

/-- `newext` as it is written over the entry `slot`. -/
def copyExtent (newext slot : Slot) : Slot :=
  ext4ExtStorePblock
    { slot with firstBlock := newext.firstBlock, blockCount := newext.blockCount }
    (ext4ExtPblock newext)

/-- The insertion proper, into a leaf that is not full. -/
def insertEntry (i : ℕ) (newext : Slot) : Ext Unit := do
  let s ← get
  let curp := s.path i
  let eh := s.nodes curp.header
  let ex := match curp.extent with
    | none => 0
    | some p => if (eh.slots p).firstBlock < newext.firstBlock then p + 1 else p
  modify fun s => s.setPath i { curp with extent := some (curp.extent.getD ex) }
  modify fun s => s.setNode curp.header (makeGap eh ex)
  if eh.maxEntriesCount < ex + 1 then fail .eio
  else do
    modify fun s => s.setNode curp.header (fillGap (makeGap eh ex) ex (copyExtent newext))
    if half (eh.entriesCount + 1) < ex + 1 then fail .eio
    else do
      ext4ExtCorrectIndexes
      ext4ExtDirty i
      setExtent i ex

/-- `ext4_ext_insert_leaf`. The result `true` is `EIO` with `*need_split` set. -/
def ext4ExtInsertLeaf (i : ℕ) (newext : Slot) (noCombine : Bool) : Ext Bool := do
  let s ← get
  let curp := s.path i
  let eh := s.nodes curp.header
  if curp.extent.any fun p => newext.firstBlock = (eh.slots p).firstBlock then fail .eio
  else
    let canAppend := curp.extent.any fun p => ext4ExtCanAppend (eh.slots p) newext
    let canPrepend := curp.extent.any fun p => ext4ExtCanPrepend (eh.slots p) newext
    if ¬ noCombine ∧ canAppend then do
      let p ← deref curp.extent
      setSlot curp.header p fun ex => addLen ex newext
      ext4ExtDirty i
      setExtent i p
      pure false
    else if ¬ noCombine ∧ canPrepend then do
      let p ← deref curp.extent
      setSlot curp.header p fun ex => prepended ex newext
      ext4ExtDirty i
      setExtent i p
      pure false
    else if eh.entriesCount = eh.maxEntriesCount then pure true
    else do
      insertEntry i newext
      pure false

/-! ### Splitting -/

def ext4ExtInitHeader (env : Env) (s : St) (eh : Node) (depth : ℕ) : Node :=
  { eh with
    entriesCount := 0
    maxEntriesCount := ext4ExtMaxEntries env s depth
    magic := ext4ExtentMagic
    depth := depth }

/-- The new leaf: the entries after the current one move there. -/
def splitLeaf (env : Env) (i newblock npathAt : ℕ) : Ext Unit := do
  let s ← get
  let curp := s.path i
  let eh := s.nodes curp.header
  let p ← deref curp.extent
  let m := eh.maxEntriesCount - 1 - p
  let neh := ext4ExtInitHeader env s (s.nodes (.block newblock)) 0
  let neh := { neh with slots := memmove neh.slots 0 eh.slots (p + 1) m, entriesCount := half m }
  modify fun s => s.setNode (.block newblock) neh
  runIf (m ≠ 0) do
    modify fun s => s.setNode curp.header { eh with entriesCount := half (eh.entriesCount - m) }
    ext4ExtDirty i
  modify fun s => s.setNpath npathAt
    { pBlock := if m ≠ 0 then ext4ExtPblock (neh.slots 0) else 0
      block := newblock
      depth := neh.depth
      maxdepth := 0
      header := .block newblock
      index := none
      extent := if m ≠ 0 then some 0 else none }
  ext4TransSetBlockDirty newblock

/-- The new index node: an entry for the node split off below, then the entries after the current
one. -/
def splitIndex (env : Env) (insertIndex depth i newblock npathAt : ℕ) : Ext Unit := do
  let s ← get
  let curp := s.path i
  let eh := s.nodes curp.header
  let p ← deref curp.index
  let m := eh.maxEntriesCount - 1 - p
  let neh := ext4ExtInitHeader env s (s.nodes (.block newblock)) (depth - i)
  let ix := ext4IdxStorePblock { neh.slots 0 with firstBlock := insertIndex }
    (s.npath (npathAt + 1)).block
  let slots := memmove (Function.update neh.slots 0 ix) 1 eh.slots (p + 1) m
  let neh := { neh with slots := slots, entriesCount := half (1 + m) }
  modify fun s => s.setNode (.block newblock) neh
  runIf (m ≠ 0) do
    modify fun s => s.setNode curp.header { eh with entriesCount := half (eh.entriesCount - m) }
    ext4ExtDirty i
  modify fun s => s.setNpath npathAt
    { pBlock := ext4IdxPblock ix
      block := newblock
      depth := neh.depth
      maxdepth := 0
      header := .block newblock
      index := some 0
      extent := none }
  ext4TransSetBlockDirty newblock

/-- A block for the right half of a node; it is given back when it cannot be had for writing. -/
def splitBlock (env : Env) (newext : Slot) : Ext ℕ := do
  let newblock ← ext4ExtNewMetaBlock env newext
  let ret ← attempt (ext4TransBlockGet env newblock)
  match ret with
  | .ok _ => pure newblock
  | .error e =>
    ext4ExtFreeBlocks newblock 1
    fail e

/-- The loop of `ext4_ext_split_node`: `n` levels, from level `i` upwards. -/
def splitLoop (env : Env) (newext : Slot) (insertIndex depth lo : ℕ) : ℕ → ℕ → Ext Unit
  | 0, _ => pure ()
  | n + 1, i => do
    let newblock ← splitBlock env newext
    if i = depth then splitLeaf env i newblock (i - lo)
    else splitIndex env insertIndex depth i newblock (i - lo)
    splitLoop env newext insertIndex depth lo n (i - 1)

/-- The cleanup of `ext4_ext_split_node`: the blocks of the `n` first new nodes are given back. -/
def splitCleanup : ℕ → Ext Unit
  | 0 => pure ()
  | n + 1 => do
    let s ← get
    let e := s.npath n
    runIf (e.block ≠ 0) do
      ext4ExtFreeBlocks e.block 1
      modify fun s => s.setNpath n { e with block := 0 }
    splitCleanup n

/-- The key the new nodes are entered under. -/
def splitKey (s : St) (newext : Slot) : Ext ℕ := do
  let curp := s.path (extDepth s)
  let eh := s.nodes curp.header
  let p ← deref curp.extent
  if p + 1 ≠ eh.maxEntriesCount then pure (eh.slots (p + 1)).firstBlock
  else pure newext.firstBlock

/-- `ext4_ext_split_node`; the result is `*ins_right_leaf`. -/
def ext4ExtSplitNode (env : Env) (lo : ℕ) (newext : Slot) : Ext Bool := do
  let s ← get
  let depth := extDepth s
  let insertIndex ← splitKey s newext
  let insRightLeaf : Bool := ¬ newext.firstBlock < insertIndex
  let ret ← attempt do
    splitLoop env newext insertIndex depth lo (depth - lo + 1) depth
    let s ← get
    ext4ExtInsertIndex (lo - 1) insertIndex (s.npath 0).block insRightLeaf
  match ret with
  | .ok _ => pure insRightLeaf
  | .error e =>
    splitCleanup (depth - lo + 1)
    fail e

/-! ### Growing -/

def ext4ExtGrowIndepth (env : Env) : Ext Unit := do
  let s ← get
  let root := s.nodes .inode
  let goal : ℤ := if root.depth ≠ 0 then ext4IdxPblock (root.slots 0) else env.goalBlock
  let new ← ext4NewMetaBlocks env goal none
  let newblock := new.1
  let ret ← attempt (ext4TransBlockGet env newblock)
  match ret with
  | .error e =>
    ext4ExtFreeBlocks newblock 1
    fail e
  | .ok _ =>
    -- the sixty bytes of the inode are the header and the entries it has room for
    let old := s.nodes (.block newblock)
    let neh := { root with
      slots := memmove old.slots 0 root.slots 0 ext4ExtSpaceRoot
      maxEntriesCount :=
        if root.depth ≠ 0 then ext4ExtSpaceBlockIdx env else ext4ExtSpaceBlock env
      magic := ext4ExtentMagic }
    modify fun s => s.setNode (.block newblock) neh
    ext4ExtentBlockCsumSet env newblock neh
    modify fun s => s.setNode .inode
      { root with
        entriesCount := 1
        slots := Function.update root.slots 0 (ext4IdxStorePblock (root.slots 0) newblock)
        maxEntriesCount :=
          if root.depth = 0 then ext4ExtSpaceRootIdx else root.maxEntriesCount
        depth := half (root.depth + 1) }
    ext4TransSetBlockDirty newblock
    modify fun s => { s with inodeDirty := true }

/-! ### The whole insertion -/

/-- `ext4_ext_replace_path` with the new node `level`. -/
def ext4ExtReplacePath (env : Env) (level i : ℕ) : Ext Unit := do
  ext4ExtDropRefs env i true
  modify fun s => (s.setPath i (s.npath level)).setNpath level .zero

/-- The path after a split: the new nodes take its place, or are released. -/
def afterSplit (env : Env) (insRightLeaf : Bool) (i : ℕ) : ℕ → Ext Unit
  | 0 => pure ()
  | level + 1 => do
    if insRightLeaf then ext4ExtReplacePath env level (i + level)
    else do
      let s ← get
      let e ← dropRef env (s.npath level)
      modify fun s => s.setNpath level e
    afterSplit env insRightLeaf i level

/-- How many levels of the path are full, from the leaf at `i` up; `i + 1` when all are. -/
def fullLevels (s : St) : ℕ → ℕ
  | 0 => if (s.nodes (s.path 0).header).entriesCount <
      (s.nodes (s.path 0).header).maxEntriesCount then 0 else 1
  | i + 1 => if (s.nodes (s.path (i + 1)).header).entriesCount <
      (s.nodes (s.path (i + 1)).header).maxEntriesCount then 0 else fullLevels s i + 1

/-- The path is used after a lookup has failed and freed it. -/
def relookup (env : Env) (newext : Slot) : Ext Unit := do
  let ret ← attempt (ext4FindExtent env newext.firstBlock)
  match ret with
  | .ok _ => pure ()
  | .error _ => fail .fault

/-- Room for `newext` on the path. -/
def makeRoom (env : Env) (newext : Slot) : Ext Unit := do
  let s ← get
  let depth := extDepth s
  let level := fullLevels s depth
  let grow := depth < level
  runIf grow do
    ext4ExtGrowIndepth env
    relookup env newext
  let level := if grow then level - 1 else level
  let depth := if grow then depth + 1 else depth
  let i := depth - (level - 1)
  runIf (0 < level) do
    callocPath env
    modify fun s => { s with npath := fun _ => .zero }
    let insRightLeaf ← ext4ExtSplitNode env i newext
    afterSplit env insRightLeaf i level

/-- The rounds of `goto again`. -/
def insertRounds (env : Env) (newext : Slot) (noCombine : Bool) : ℕ → Ext Unit
  | 0 => fail .running
  | n + 1 => do
    let s ← get
    let needSplit ← ext4ExtInsertLeaf (extDepth s) newext noCombine
    if needSplit then do
      makeRoom env newext
      insertRounds env newext noCombine n
    else pure ()

/-- `ext4_ext_insert_extent`. On an error the path is released. -/
def ext4ExtInsertExtent (env : Env) (newext : Slot) (noCombine : Bool) (turns : ℕ) : Ext Unit := do
  let ret ← attempt (insertRounds env newext noCombine turns)
  match ret with
  | .ok _ => pure ()
  | .error e =>
    ext4ExtDropRefs env 0 false
    fail e

end Ext4Fsd.Extent.Insert
