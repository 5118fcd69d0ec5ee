import Ext4Fsd.Extent.Store

/-! # Searching the tree

`ext4_find_extent` walks from the inode to a leaf and records the way in `*ppath`; at each node a
binary search picks the last entry that starts at or before the block, or the first entry. -/

namespace Ext4Fsd.Extent.Search

open Ext4Fsd.Lib.CInt Ext4Fsd.Lib.Fallible Ext4Fsd.Extent.Layout Ext4Fsd.Extent.Store

/-- The loop of both binary searches, between the positions `l` and `r`. -/
def binsearchLoop (firstBlock : ℕ → ℕ) (block : ℕ) : ℕ → ℕ → ℕ → ℕ
  | 0, l, _ => l
  | n + 1, l, r =>
    if l ≤ r then
      let m := l + (r - l) / 2
      if block < firstBlock m then binsearchLoop firstBlock block n l (m - 1)
      else binsearchLoop firstBlock block n (m + 1) r
    else l

/-- The entry both searches settle on. With no entry at all, `EXT_LAST_EXTENT` lies before the first
one, so that the loop is not entered; the subtraction gives position `0` for it, to the same
effect. -/
def binsearch (eh : Node) (block : ℕ) : ℕ :=
  binsearchLoop (fun m => (eh.slots m).firstBlock) block eh.entriesCount 1 (eh.entriesCount - 1) - 1

def ext4ExtBinsearchIdx (i block : ℕ) : Ext Unit :=
  modify fun s =>
    s.setPath i { s.path i with index := some (binsearch (s.nodes (s.path i).header) block) }

def ext4ExtBinsearch (i block : ℕ) : Ext Unit :=
  modify fun s =>
    let eh := s.nodes (s.path i).header
    if eh.entriesCount = 0 then s
    else s.setPath i { s.path i with extent := some (binsearch eh block) }

/-- The walk down from level `ppos`, with `i` levels below it. -/
def findLoop (env : Env) (block depth : ℕ) : ℕ → ℕ → Ext Unit
  | 0, _ => pure ()
  | i + 1, ppos => do
    ext4ExtBinsearchIdx ppos block
    let s ← get
    let ix ← deref (s.path ppos).index
    let bufBlock := ext4IdxPblock ((s.nodes (s.path ppos).header).slots ix)
    modify fun s =>
      s.setPath ppos { s.path ppos with pBlock := bufBlock, depth := i + 1, extent := none }
    let s ← get
    runIf ((s.path (ppos + 1)).block = 0 ∨ (s.path (ppos + 1)).block ≠ bufBlock) do
      readExtentTreeBlock env bufBlock i
      runIf (depth < ppos + 1) (fail .eio)
      modify fun s =>
        s.setPath (ppos + 1)
          { s.path (ppos + 1) with block := bufBlock, header := .block bufBlock }
    findLoop env block depth i (ppos + 1)

/-- Where the walk has ended: the leaf's extent is looked up. -/
def findLeaf (block depth : ℕ) : Ext Unit := do
  modify fun s => s.setPath depth { s.path depth with depth := 0, extent := none, index := none }
  ext4ExtBinsearch depth block
  let s ← get
  match (s.path depth).extent with
  | some ex =>
    modify fun s => s.setPath depth
      { s.path depth with
        pBlock := ext4ExtPblock ((s.nodes (s.path depth).header).slots ex) }
  | none => pure ()

/-- The path array: the old one when it is long enough, else a new one from `calloc`. -/
def findPath (env : Env) : Ext Unit := do
  let s ← get
  let depth := extDepth s
  runIf s.pathLive do
    ext4ExtDropRefs env 0 false
    runIf ((s.path 0).maxdepth < depth) (modify fun s => { s with pathLive := false })
  let s ← get
  runIf (¬ s.pathLive) do
    callocPath env
    modify fun s =>
      { s with
        path := fun i => if i = 0 then { PathEnt.zero with maxdepth := depth + 1 } else .zero
        pathLive := true }
  modify fun s => s.setPath 0 { s.path 0 with header := .inode, block := 0 }

/-- `ext4_find_extent`. An error leaves `*ppath` at `NULL`. -/
def ext4FindExtent (env : Env) (block : ℕ) : Ext Unit := do
  findPath env
  let s ← get
  let depth := extDepth s
  let ret ← attempt (findLoop env block depth depth 0)
  match ret with
  | .ok _ => findLeaf block depth
  | .error e =>
    ext4ExtDropRefs env 0 false
    modify fun s => { s with pathLive := false }
    fail e

end Ext4Fsd.Extent.Search
