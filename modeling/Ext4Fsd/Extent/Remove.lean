import Ext4Fsd.Lib.Levels
import Ext4Fsd.Extent.Insert

/-! # Removing a range

`ext4_extent_remove_space` looks up the first block of the range. When one extent reaches past both
ends of the range it is cut in two; otherwise the path is used as the stack of a recursive walk that
deletes leaf by leaf and takes emptied nodes out of their parents. -/

namespace Ext4Fsd.Extent.Remove

open Ext4Fsd.Lib.CInt Ext4Fsd.Lib.Fallible Ext4Fsd.Lib.Levels Ext4Fsd.Extent.Layout
  Ext4Fsd.Extent.Store
open Ext4Fsd.Extent.Search Ext4Fsd.Extent.Insert

/-- The blocks `lo` to `hi` of `ex` are freed. -/
def ext4ExtRemoveBlocks (ex : Slot) (lo hi : ℕ) : Ext Unit :=
  let len := toI32 (hi - lo + 1)
  let num := toI32 (lo - ex.firstBlock)
  ext4ExtFreeBlocks (ext4ExtPblock ex + num) len

/-- The loop of `ext4_ext_remove_idx`: a node whose first entry went hands its new key up. -/
def removeIdxLoop : ℕ → Ext Unit
  | 0 => pure ()
  | i + 1 => do
    let s ← get
    if (s.path (i + 1)).index ≠ some 0 then pure ()
    else do
      setKey i ((s.nodes (s.path (i + 1)).header).slots 0).firstBlock
      removeIdxLoop i

/-- The node without its entry `p`. -/
def closeGap (eh : Node) (p : ℕ) : Node :=
  { eh with
    slots := memmove eh.slots p eh.slots (p + 1) (eh.entriesCount - 1 - p)
    entriesCount := half (eh.entriesCount - 1) }

def ext4ExtRemoveIdx (depth : ℕ) : Ext Unit := do
  let s ← get
  let h := (s.path depth).header
  let eh := s.nodes h
  let p ← deref (s.path depth).index
  let leaf := ext4IdxPblock (eh.slots p)
  modify fun s => s.setNode h (closeGap eh p)
  ext4ExtDirty depth
  ext4ExtFreeBlocks leaf 1
  removeIdxLoop depth

/-! ### One leaf -/

/-- The locals of a turn of `ext4_ext_remove_leaf`: the run `start`, `len` that goes, and what is
left of the extent. -/
structure Cut where
  start : ℕ
  len : ℤ
  newLen : ℤ
  newStart : ℕ
  newblock : ℤ
  /-- The range starts inside the extent. -/
  first : Bool
  /-- The range ends inside the extent. -/
  second : Bool

/-- The two cases of the loop body, for the range from `lo` to `hi`. -/
def cutExtent (ex : Slot) (lo hi : ℕ) : Cut :=
  let start := ex.firstBlock
  let len : ℤ := ext4ExtGetActualLen ex
  let newblock : ℤ := ext4ExtPblock ex
  if toI32 start < toI32 lo then
    ⟨lo, toI32 (len - (lo - start)), toI32 (lo - start), start, newblock, true, false⟩
  else if toI32 hi < toI32 (start + len - 1) then
    let newLen := toI32 (start + len - 1 - hi)
    ⟨start, toI32 (len - newLen), newLen, word (hi + 1), newblock + toI32 (hi + 1 - start), false,
      true⟩
  else ⟨start, len, 0, start, newblock, false, false⟩

/-- The entry after the turn. -/
def keptSlot (ex : Slot) (c : Cut) : Slot :=
  let kept := { ex with firstBlock := c.newStart }
  if c.newLen = 0 then kept
  else
    let kept := ext4ExtStorePblock { kept with blockCount := half c.newLen } c.newblock
    if ext4ExtIsUnwritten ex then ext4ExtMarkUnwritten kept else kept

/-- What the loop carries: the entry at hand, the entry the later ones will move to, the number of
entries left, and the entry they move from. -/
structure LeafCursor where
  ex : ℕ
  startEx : ℕ
  newEntries : ℕ
  ex2 : Option ℕ

def LeafCursor.next (cur : LeafCursor) (c : Cut) : LeafCursor :=
  { ex := cur.ex + 1
    startEx := if c.first then cur.startEx + 1 else cur.startEx
    newEntries := if c.newLen = 0 then cur.newEntries - 1 else cur.newEntries
    ex2 := if c.second then some cur.ex else cur.ex2 }

/-- The loop of `ext4_ext_remove_leaf` on the leaf `h`, over at most `n` entries. -/
def removeLeafLoop (h : Hdr) (lo hi : ℕ) : ℕ → LeafCursor → Ext LeafCursor
  | 0, cur => pure cur
  | n + 1, cur => do
    let s ← get
    let ex := (s.nodes h).slots cur.ex
    if cur.ex < (s.nodes h).entriesCount ∧ ex.firstBlock ≤ hi then do
      let c := cutExtent ex lo hi
      ext4ExtRemoveBlocks ex c.start (word (c.start + c.len - 1))
      setSlot h cur.ex fun _ => keptSlot ex c
      removeLeafLoop h lo hi n (cur.next c)
    else pure cur

/-- The entries from `ex2` on move to `startEx`. -/
def closeLeaf (eh : Node) (cur : LeafCursor) : Node :=
  let ex2 := cur.ex2.getD cur.ex
  { eh with
    slots := memmove eh.slots cur.startEx eh.slots ex2 (eh.entriesCount - ex2)
    entriesCount := half cur.newEntries }

/-- `path[depth - 1].index++`. -/
def nextIndex (i : ℕ) : Ext Unit :=
  modify fun s => s.setPath i { s.path i with index := (s.path i).index.map (· + 1) }

def ext4ExtRemoveLeaf (lo hi : ℕ) : Ext Unit := do
  let s ← get
  let depth := extDepth s
  let h := (s.path depth).header
  let ex ← deref (s.path depth).extent
  let n := (s.nodes h).entriesCount
  let cur ← removeLeafLoop h lo hi (n - ex) ⟨ex, ex, n, none⟩
  modify fun s => s.setNode h (closeLeaf (s.nodes h) cur)
  ext4ExtDirty depth
  let s ← get
  runIf (ex = 0 ∧ (s.nodes h).entriesCount ≠ 0) ext4ExtCorrectIndexes
  if (s.nodes h).entriesCount = 0 ∧ (s.path depth).block ≠ 0 then ext4ExtRemoveIdx (depth - 1)
  else runIf (0 < depth) (nextIndex (depth - 1))

/-! ### The walk -/

def ext4ExtMoreToRm (s : St) (i hi : ℕ) : Bool :=
  let eh := s.nodes (s.path i).header
  eh.entriesCount ≠ 0 ∧
    (s.path i).index.any fun p => p < eh.entriesCount ∧ (eh.slots p).firstBlock ≤ hi

/-- A turn of the loop at the leaf. What `ext4_ext_remove_leaf` returns is not looked at. -/
def leafTurn (env : Env) (depth lo hi : ℕ) : Ext Unit := do
  let s ← get
  let eh := s.nodes (s.path depth).header
  let lastEx := eh.slots (eh.entriesCount - 1)
  let leafFrom := (eh.slots 0).firstBlock
  let leafTo := word (lastEx.firstBlock + ext4ExtGetActualLen lastEx - 1)
  let leafFrom := if toI32 leafFrom < toI32 lo then lo else leafFrom
  let leafTo := if toI32 hi < toI32 leafTo then hi else leafTo
  let _ ← attempt (ext4ExtRemoveLeaf leafFrom leafTo)
  ext4ExtDropRefs env depth false

/-- A turn that goes down to the child at the cursor of level `i`. -/
def descendTurn (env : Env) (depth i : ℕ) : Ext Unit := do
  let s ← get
  runIf ((s.path (i + 1)).block ≠ 0) (ext4ExtDropRefs env (i + 1) false)
  let p ← deref (s.path i).index
  let blk := ext4IdxPblock ((s.nodes (s.path i).header).slots p)
  readExtentTreeBlock env blk (depth - i - 1)
  modify fun s => s.setPath i { s.path i with pBlock := blk }
  modify fun s =>
    let e := { s.path (i + 1) with block := blk, header := .block blk, depth := depth - i - 1 }
    s.setPath (i + 1)
      (if i + 1 = depth then { e with extent := some 0 } else { e with index := some 0 })

/-- A turn that leaves the node of level `i`. -/
def ascendTurn (i : ℕ) : Ext Unit := do
  let s ← get
  runIf (0 < i) do
    if (s.nodes (s.path i).header).entriesCount = 0 then ext4ExtRemoveIdx (i - 1)
    else nextIndex (i - 1)
    modify fun s => s.setPath i { s.path i with block := 0 }

/-- `i--`, with `none` for `-1`. -/
def levelUp : ℕ → Option ℕ
  | 0 => none
  | i + 1 => some i

/-- A turn of the loop of `ext4_extent_remove_space` at level `i`, and the level it goes on with. -/
def removeTurn (env : Env) (depth lo hi i : ℕ) : Ext (Option ℕ) := do
  let s ← get
  if i = depth then do
    leafTurn env depth lo hi
    pure (levelUp i)
  else if ext4ExtMoreToRm s i hi then do
    descendTurn env depth i
    pure (some (i + 1))
  else do
    ascendTurn i
    pure (levelUp i)

/-- The loop of `ext4_extent_remove_space`, from the level it is started at. -/
def removeLoop (env : Env) (depth lo hi : ℕ) : ℕ → Option ℕ → Ext Unit :=
  levelLoop (removeTurn env depth lo hi) .running

/-! ### The whole removal -/

/-- The range lies strictly inside the extent: both ends are kept. -/
def removeInside (env : Env) (lo hi turns : ℕ) : Ext Unit := do
  let s ← get
  let depth := extDepth s
  let h := (s.path depth).header
  let p ← deref (s.path depth).extent
  let ex := (s.nodes h).slots p
  let unwritten := ext4ExtIsUnwritten ex
  let eeBlock := ex.firstBlock
  let len : ℤ := ext4ExtGetActualLen ex
  let newblock := toI32 (hi + 1 - eeBlock) + ext4ExtPblock ex
  let mark := fun slot => if unwritten then ext4ExtMarkUnwritten slot else slot
  setSlot h p fun slot => mark { slot with blockCount := half (lo - eeBlock) }
  ext4ExtDirty depth
  let newex := ext4ExtStorePblock ⟨word (hi + 1), half (eeBlock + len - 1 - hi), 0, 0⟩ newblock
  ext4ExtInsertExtent env (mark newex) false turns

/-- A root without entries becomes an empty leaf again. -/
def resetRoot : Ext Unit := do
  let s ← get
  let root := s.nodes (s.path 0).header
  runIf (root.entriesCount = 0) do
    modify fun s => s.setNode .inode
      { s.nodes .inode with depth := 0, maxEntriesCount := ext4ExtSpaceRoot }
    ext4ExtDirty 0

/-- The part of `ext4_extent_remove_space` after the lookup. -/
def removeFound (env : Env) (lo hi turns : ℕ) : Ext Unit := do
  let s ← get
  let depth := extDepth s
  match (s.path depth).extent with
  | none => pure ()
  | some p =>
    let ex := (s.nodes (s.path depth).header).slots p
    let len := ext4ExtGetActualLen ex
    if ¬ (ex.firstBlock ≤ lo ∧ lo < ex.firstBlock + len) then pure ()
    else if ex.firstBlock < lo ∧ hi < word (ex.firstBlock + len - 1) then
      removeInside env lo hi turns
    else do
      removeLoop env depth lo hi turns (some depth)
      resetRoot

/-- `ext4_extent_remove_space` of the blocks from `lo` to `hi`. -/
def ext4ExtentRemoveSpace (env : Env) (lo hi turns : ℕ) : Ext Unit := do
  modify fun s => { s with pathLive := false }
  ext4FindExtent env lo
  let ret ← attempt (removeFound env lo hi turns)
  ext4ExtDropRefs env 0 false
  modify fun s => { s with pathLive := false }
  match ret with
  | .ok _ => pure ()
  | .error e => fail e

end Ext4Fsd.Extent.Remove
