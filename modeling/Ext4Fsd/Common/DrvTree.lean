import Ext4Fsd.Lib.RbTree

/-! # The red-black tree macros

`RB_GENERATE` and the macros around it, on nodes with addresses. A pointer is an address or null; an
access through a null pointer, or to an address where there is no node, is a fault. `RB_LEFT` and
`RB_RIGHT` are `child .left` and `child .right`, and the two mirror images of a branch are one
definition with a side. `cmp` compares two nodes by address. A loop takes the turns it is given.

`RB_AUGMENT` does nothing and is left out, with the reads that only guard it. -/

namespace Ext4Fsd.Common.DrvTree

open Ext4Fsd.Lib.RbTree

/-! ### Nodes in memory -/

/-- `RB_ENTRY`. -/
structure Entry where
  rbeLeft : Option ℕ
  rbeRight : Option ℕ
  rbeParent : Option ℕ
  rbeColor : Color
  deriving DecidableEq

/-- `RB_HEAD`, and the entries of the nodes in memory. -/
structure Heap where
  rbhRoot : Option ℕ
  node : ℕ → Option Entry

/-- Why a run does not return: an access to no node, or turns left out. -/
inductive Stop
  | fault
  | running
  deriving DecidableEq, Repr

def Entry.child (d : Side) (e : Entry) : Option ℕ :=
  match d with
  | .left => e.rbeLeft
  | .right => e.rbeRight

def Entry.setChild (d : Side) (q : Option ℕ) (e : Entry) : Entry :=
  match d with
  | .left => { e with rbeLeft := q }
  | .right => { e with rbeRight := q }

def Entry.setParent (q : Option ℕ) (e : Entry) : Entry := { e with rbeParent := q }

def Entry.setColor (c : Color) (e : Entry) : Entry := { e with rbeColor := c }

/-- The heap with the entry `e` at `a`. -/
def Heap.set (a : ℕ) (e : Entry) (h : Heap) : Heap :=
  { h with node := Function.update h.node a (some e) }

/-- Read the entry behind a pointer. -/
def entry (p : Option ℕ) (h : Heap) : Except Stop Entry :=
  match p.bind h.node with
  | some e => .ok e
  | none => .error .fault

/-- Change the entry behind a pointer. -/
def store (p : Option ℕ) (f : Entry → Entry) (h : Heap) : Except Stop Heap :=
  match p with
  | none => .error .fault
  | some a =>
    match h.node a with
    | some e => .ok (h.set a (f e))
    | none => .error .fault

/-- `RB_INIT`. -/
def rbInit (h : Heap) : Heap := { h with rbhRoot := none }

/-- `RB_SET`. -/
def rbSet (elm parent : Option ℕ) (h : Heap) : Except Stop Heap :=
  store elm (fun _ => ⟨none, none, parent, .red⟩) h

/-- An assignment to `RB_COLOR`. -/
def setColor (p : Option ℕ) (c : Color) (h : Heap) : Except Stop Heap :=
  store p (Entry.setColor c) h

/-- `RB_SET_BLACKRED`. -/
def rbSetBlackred (black red : Option ℕ) (h : Heap) : Except Stop Heap := do
  let h ← setColor black .black h
  setColor red .red h

/-- `if (p) RB_COLOR(p) = RB_BLACK`. -/
def blacken (p : Option ℕ) (h : Heap) : Except Stop Heap :=
  if p ≠ none then setColor p .black h else pure h

/-- `if (p) RB_PARENT(p) = q`. -/
def setParentOf (p q : Option ℕ) (h : Heap) : Except Stop Heap :=
  if p ≠ none then store p (Entry.setParent q) h else pure h

/-- `tmp` takes the place of `elm` as a child of `parent`, or as the root. -/
def replaceChild (parent elm tmp : Option ℕ) (h : Heap) : Except Stop Heap :=
  if parent ≠ none then do
    if (← entry parent h).rbeLeft = elm then store parent (Entry.setChild .left tmp) h
    else store parent (Entry.setChild .right tmp) h
  else pure { h with rbhRoot := tmp }

/-- A rotation that puts `elm` on side `d` of its child on the other side. -/
def rbRotate (d : Side) (elm : Option ℕ) (h : Heap) : Except Stop Heap := do
  let tmp := (← entry elm h).child d.flip
  let q := (← entry tmp h).child d
  let h ← store elm (Entry.setChild d.flip q) h
  let h ← setParentOf q elm h
  let parent := (← entry elm h).rbeParent
  let h ← store tmp (Entry.setParent parent) h
  let h ← replaceChild parent elm tmp h
  let h ← store tmp (Entry.setChild d elm) h
  store elm (Entry.setParent tmp) h

/-- `RB_ROTATE_LEFT`. -/
def rbRotateLeft (elm : Option ℕ) (h : Heap) : Except Stop Heap := rbRotate .left elm h

/-- `RB_ROTATE_RIGHT`. -/
def rbRotateRight (elm : Option ℕ) (h : Heap) : Except Stop Heap := rbRotate .right elm h

/-! ### Insertion -/

/-- `p && RB_COLOR(p) == RB_RED`. -/
def isRed (p : Option ℕ) (h : Heap) : Except Stop Bool :=
  if p ≠ none then do pure ((← entry p h).rbeColor = .red) else pure false

/-- The end of a turn of `RB_INSERT_COLOR` whose uncle is black: `elm` becomes the child away from
side `d`'s uncle, and the grandparent is rotated down. The result is the `elm` of the next turn. -/
def insertColorRotate (d : Side) (elm parent gparent : Option ℕ) (h : Heap) :
    Except Stop (Option ℕ × Heap) := do
  if (← entry parent h).child d.flip = elm then do
    let h ← rbRotate d parent h
    let h ← rbSetBlackred elm gparent h
    let h ← rbRotate d.flip gparent h
    pure (parent, h)
  else do
    let h ← rbSetBlackred parent gparent h
    let h ← rbRotate d.flip gparent h
    pure (elm, h)

/-- A turn of `RB_INSERT_COLOR` whose parent is the child on side `d`. -/
def insertColorSide (d : Side) (elm parent gparent : Option ℕ) (h : Heap) :
    Except Stop (Option ℕ × Heap) := do
  let tmp := (← entry gparent h).child d.flip
  if ← isRed tmp h then do
    let h ← setColor tmp .black h
    let h ← rbSetBlackred parent gparent h
    pure (gparent, h)
  else insertColorRotate d elm parent gparent h

/-- `RB_INSERT_COLOR`. -/
def rbInsertColor : ℕ → Option ℕ → Heap → Except Stop Heap
  | 0, _, _ => .error .running
  | n + 1, elm, h => do
    let parent := (← entry elm h).rbeParent
    if ← isRed parent h then do
      let gparent := (← entry parent h).rbeParent
      let (elm, h) ←
        if (← entry gparent h).rbeLeft = parent then insertColorSide .left elm parent gparent h
        else insertColorSide .right elm parent gparent h
      rbInsertColor n elm h
    else setColor h.rbhRoot .black h

section
variable (cmp : ℕ → ℕ → ℤ)

/-- The search of `RB_INSERT`: the node with the key of `elm`, or null with the last node and how it
compared. -/
def insertSearch (elm : ℕ) (h : Heap) :
    ℕ → Option ℕ → Option ℕ → ℤ → Except Stop (Option ℕ × Option ℕ × ℤ)
  | _, none, parent, comp => .ok (none, parent, comp)
  | 0, some _, _, _ => .error .running
  | n + 1, some tmp, _, _ => do
    let comp := cmp elm tmp
    if comp < 0 then insertSearch elm h n (← entry (some tmp) h).rbeLeft (some tmp) comp
    else if comp > 0 then insertSearch elm h n (← entry (some tmp) h).rbeRight (some tmp) comp
    else pure (some tmp, some tmp, comp)

/-- `elm` becomes a child of the last node of the search, on the side that `comp` says, or the
root. -/
def linkChild (comp : ℤ) (parent elm : Option ℕ) (h : Heap) : Except Stop Heap :=
  if parent ≠ none then
    if comp < 0 then store parent (Entry.setChild .left elm) h
    else store parent (Entry.setChild .right elm) h
  else pure { h with rbhRoot := elm }

/-- `RB_INSERT`: null after inserting, or the node that has the key. -/
def rbInsert (turns : ℕ) (elm : ℕ) (h : Heap) : Except Stop (Option ℕ × Heap) := do
  let (tmp, parent, comp) ← insertSearch cmp elm h turns h.rbhRoot none 0
  if tmp ≠ none then pure (tmp, h)
  else do
    let h ← rbSet (some elm) parent h
    let h ← linkChild comp parent (some elm) h
    let h ← rbInsertColor turns (some elm) h
    pure (none, h)

/-- `RB_FIND`. -/
def rbFind (elm : ℕ) (h : Heap) : ℕ → Option ℕ → Except Stop (Option ℕ)
  | _, none => .ok none
  | 0, some _ => .error .running
  | n + 1, some tmp => do
    let comp := cmp elm tmp
    if comp < 0 then rbFind elm h n (← entry (some tmp) h).rbeLeft
    else if comp > 0 then rbFind elm h n (← entry (some tmp) h).rbeRight
    else pure (some tmp)

/-- `RB_NFIND`, from `tmp` with the result so far. -/
def rbNfind (elm : ℕ) (h : Heap) : ℕ → Option ℕ → Option ℕ → Except Stop (Option ℕ)
  | _, none, res => .ok res
  | 0, some _, _ => .error .running
  | n + 1, some tmp, res => do
    let comp := cmp elm tmp
    if comp < 0 then rbNfind elm h n (← entry (some tmp) h).rbeLeft (some tmp)
    else if comp > 0 then rbNfind elm h n (← entry (some tmp) h).rbeRight res
    else pure (some tmp)

end

/-! ### Removal -/

/-- `p == NULL || RB_COLOR(p) == RB_BLACK`. -/
def isBlack (p : Option ℕ) (h : Heap) : Except Stop Bool :=
  if p ≠ none then do pure ((← entry p h).rbeColor = .black) else pure true

/-- The sibling in a turn of `RB_REMOVE_COLOR`, after a rotation if it was red. -/
def blackSibling (d : Side) (parent : Option ℕ) (h : Heap) : Except Stop (Option ℕ × Heap) := do
  let tmp := (← entry parent h).child d.flip
  if (← entry tmp h).rbeColor = .red then do
    let h ← rbSetBlackred tmp parent h
    let h ← rbRotate d parent h
    pure ((← entry parent h).child d.flip, h)
  else pure (tmp, h)

/-- Both children of `tmp` are black. -/
def blackChildren (tmp : Option ℕ) (h : Heap) : Except Stop Bool := do
  if ← isBlack (← entry tmp h).rbeLeft h then isBlack (← entry tmp h).rbeRight h else pure false

/-- The sibling `tmp` with a red child away from side `d`, after a rotation if it had none. -/
def redFarChild (d : Side) (parent tmp : Option ℕ) (h : Heap) : Except Stop (Option ℕ × Heap) := do
  if ← isBlack ((← entry tmp h).child d.flip) h then do
    let h ← blacken ((← entry tmp h).child d) h
    let h ← setColor tmp .red h
    let h ← rbRotate d.flip tmp h
    pure ((← entry parent h).child d.flip, h)
  else pure (tmp, h)

/-- A turn of `RB_REMOVE_COLOR` whose `elm` is the child on side `d`: the next `elm` and `parent`,
and whether the loop is left. -/
def removeColorSide (d : Side) (parent : Option ℕ) (h : Heap) :
    Except Stop (Option ℕ × Option ℕ × Bool × Heap) := do
  let (tmp, h) ← blackSibling d parent h
  if ← blackChildren tmp h then do
    let h ← setColor tmp .red h
    pure (parent, (← entry parent h).rbeParent, false, h)
  else do
    let (tmp, h) ← redFarChild d parent tmp h
    let h ← setColor tmp (← entry parent h).rbeColor h
    let h ← setColor parent .black h
    let h ← blacken ((← entry tmp h).child d.flip) h
    let h ← rbRotate d parent h
    pure (h.rbhRoot, parent, true, h)

/-- `RB_REMOVE_COLOR`. -/
def rbRemoveColor : ℕ → Option ℕ → Option ℕ → Heap → Except Stop Heap
  | 0, _, _, _ => .error .running
  | n + 1, parent, elm, h => do
    if (← isBlack elm h) ∧ elm ≠ h.rbhRoot then do
      let (elm, parent, brk, h) ←
        if (← entry parent h).rbeLeft = elm then removeColorSide .left parent h
        else removeColorSide .right parent h
      if brk then blacken elm h else rbRemoveColor n parent elm h
    else blacken elm h

/-- The last node on the way down side `d` from `elm`. -/
def extreme (d : Side) (h : Heap) : ℕ → Option ℕ → Except Stop (Option ℕ)
  | 0, _ => .error .running
  | n + 1, elm => do
    let q := (← entry elm h).child d
    if q ≠ none then extreme d h n q else pure elm

/-- The way up that `RB_REMOVE` takes for `RB_AUGMENT`. -/
def augmentUp (h : Heap) : ℕ → Option ℕ → Except Stop Unit
  | _, none => .ok ()
  | 0, some _ => .error .running
  | n + 1, some left => do augmentUp h n (← entry (some left) h).rbeParent

/-- Put `child` in the place of `elm` below `parent`. -/
def unlink (elm parent child : Option ℕ) (h : Heap) : Except Stop Heap := do
  let h ← setParentOf child parent h
  replaceChild parent elm child h

/-- `color:` in `RB_REMOVE`. -/
def removeEnd (turns : ℕ) (color : Color) (parent child : Option ℕ) (h : Heap) :
    Except Stop Heap :=
  if color = .black then rbRemoveColor turns parent child h else pure h

/-- `RB_REMOVE` of a node with at most one child. -/
def removeSpine (turns : ℕ) (elm child : Option ℕ) (h : Heap) : Except Stop Heap := do
  let parent := (← entry elm h).rbeParent
  let color := (← entry elm h).rbeColor
  let h ← unlink elm parent child h
  removeEnd turns color parent child h

/-- `elm` is put in the place of `old`, which has a left child. -/
def takePlace (old elm : Option ℕ) (h : Heap) : Except Stop Heap := do
  let e ← entry old h
  let h ← store elm (fun _ => e) h
  let h ← replaceChild (← entry old h).rbeParent old elm h
  let h ← store (← entry old h).rbeLeft (Entry.setParent elm) h
  setParentOf (← entry old h).rbeRight elm h

/-- `RB_REMOVE` of a node with two children: its successor takes its place. -/
def removeInner (turns : ℕ) (old : Option ℕ) (h : Heap) : Except Stop Heap := do
  let elm ← extreme .left h turns (← entry old h).rbeRight
  let child := (← entry elm h).rbeRight
  let parent := (← entry elm h).rbeParent
  let color := (← entry elm h).rbeColor
  let h ← unlink elm parent child h
  let parent := if (← entry elm h).rbeParent = old then elm else parent
  let h ← takePlace old elm h
  let _ ← augmentUp h turns parent
  removeEnd turns color parent child h

/-- `RB_REMOVE`. -/
def rbRemove (turns : ℕ) (elm : ℕ) (h : Heap) : Except Stop (ℕ × Heap) := do
  let e ← entry (some elm) h
  let h ←
    if e.rbeLeft = none then removeSpine turns (some elm) e.rbeRight h
    else if e.rbeRight = none then removeSpine turns (some elm) e.rbeLeft h
    else removeInner turns (some elm) h
  pure (elm, h)

/-! ### Walks -/

/-- The way up of `RB_NEXT` and `RB_PREV`: past every parent whose child on side `d` it comes
from. -/
def stepUp (d : Side) (h : Heap) : ℕ → ℕ → Except Stop (Option ℕ)
  | 0, _ => .error .running
  | n + 1, elm => do
    match (← entry (some elm) h).rbeParent with
    | none => pure none
    | some parent =>
      if (← entry (some parent) h).child d = some elm then stepUp d h n parent
      else pure (some parent)

/-- The next node on side `d`. -/
def rbStep (d : Side) (turns : ℕ) (elm : ℕ) (h : Heap) : Except Stop (Option ℕ) := do
  let e ← entry (some elm) h
  if e.child d ≠ none then extreme d.flip h turns (e.child d)
  else
    match e.rbeParent with
    | none => stepUp d h turns elm
    | some parent =>
      if (← entry (some parent) h).child d.flip = some elm then pure (some parent)
      else stepUp d h turns elm

/-- `RB_NEXT`. -/
def rbNext (turns : ℕ) (elm : ℕ) (h : Heap) : Except Stop (Option ℕ) := rbStep .right turns elm h

/-- `RB_PREV`. -/
def rbPrev (turns : ℕ) (elm : ℕ) (h : Heap) : Except Stop (Option ℕ) := rbStep .left turns elm h

/-- `RB_MINMAX`, from `tmp` with its parent. -/
def rbMinmax (val : ℤ) (h : Heap) : ℕ → Option ℕ → Option ℕ → Except Stop (Option ℕ)
  | _, none, parent => .ok parent
  | 0, some _, _ => .error .running
  | n + 1, some tmp, _ => do
    if val < 0 then rbMinmax val h n (← entry (some tmp) h).rbeLeft (some tmp)
    else rbMinmax val h n (← entry (some tmp) h).rbeRight (some tmp)

/-- `RB_MIN`. -/
def rbMin (turns : ℕ) (h : Heap) : Except Stop (Option ℕ) := rbMinmax (-1) h turns h.rbhRoot none

/-- `RB_MAX`. -/
def rbMax (turns : ℕ) (h : Heap) : Except Stop (Option ℕ) := rbMinmax 1 h turns h.rbhRoot none

section
variable {σ : Type} (heap : σ → Heap) (turns : ℕ) (body : ℕ → σ → Except Stop σ)

/-- The loop of `RB_FOREACH`, from `x`. The heap is part of a state that the body changes. -/
def foreachFrom : ℕ → Option ℕ → σ → Except Stop σ
  | _, none, s => .ok s
  | 0, some _, _ => .error .running
  | n + 1, some x, s => do
    let s ← body x s
    let x ← rbNext turns x (heap s)
    foreachFrom n x s

/-- `RB_FOREACH`. -/
def rbForeach (n : ℕ) (s : σ) : Except Stop σ := do
  let x ← rbMin turns (heap s)
  foreachFrom heap turns body n x s

/-- The loop of `RB_FOREACH_SAFE`, from `x`: the next node is looked up before the body runs. -/
def foreachSafeFrom : ℕ → Option ℕ → σ → Except Stop σ
  | _, none, s => .ok s
  | 0, some _, _ => .error .running
  | n + 1, some x, s => do
    let y ← rbNext turns x (heap s)
    let s ← body x s
    foreachSafeFrom n y s

/-- `RB_FOREACH_SAFE`. -/
def rbForeachSafe (n : ℕ) (s : σ) : Except Stop σ := do
  let x ← rbMin turns (heap s)
  foreachSafeFrom heap turns body n x s

/-- The loop of `RB_FOREACH_REVERSE`, from `x`. -/
def foreachReverseFrom : ℕ → Option ℕ → σ → Except Stop σ
  | _, none, s => .ok s
  | 0, some _, _ => .error .running
  | n + 1, some x, s => do
    let s ← body x s
    let x ← rbPrev turns x (heap s)
    foreachReverseFrom n x s

/-- `RB_FOREACH_REVERSE`. -/
def rbForeachReverse (n : ℕ) (s : σ) : Except Stop σ := do
  let x ← rbMax turns (heap s)
  foreachReverseFrom heap turns body n x s

end

end Ext4Fsd.Common.DrvTree
