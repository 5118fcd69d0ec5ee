import Ext4Fsd.Extent.Blocks
import Ext4Fsd.Extent.Tree

/-! # When the second half cannot be inserted

`ext4_ext_split_extent_at` shortens the extent on the path and inserts the rest as an extent of its
own. When that insertion fails it goes to `restore_extent_len`, which writes the length back and
then assigns the result of `ext4_ext_dirty` to `err`. The error is gone, and the length that is
written back no longer carries the mark of an unwritten extent. -/

namespace Ext4Fsd.Extent.FailedSplit

open Ext4Fsd.Lib.CInt Ext4Fsd.Lib.Fallible Ext4Fsd.Extent.Layout Ext4Fsd.Extent.Store
open Ext4Fsd.Extent.Search Ext4Fsd.Extent.Insert Ext4Fsd.Extent.Blocks Ext4Fsd.Extent.Tree

/-- The leaf of the path. -/
def leafHdr (s : St) : Hdr := (s.path (extDepth s)).header

/-- The extent at position `p` of the path's leaf. -/
def leafSlot (s : St) (p : ℕ) : Slot := (s.nodes (leafHdr s)).slots p

/-- The extent as it is left in the leaf. -/
def firstPart (split : ℕ) (unwrit1 : Bool) (ex : Slot) : Slot :=
  let ex' := { ex with blockCount := half (split - ex.firstBlock) }
  if unwrit1 then ext4ExtMarkUnwritten ex' else ex'

/-- The extent that is inserted behind it. -/
def secondPart (split : ℕ) (unwrit2 : Bool) (ex : Slot) : Slot :=
  let newex := ext4ExtStorePblock
    ⟨split, half (ext4ExtGetActualLen ex - toI32 (split - ex.firstBlock)), 0, 0⟩
    (toI32 (split - ex.firstBlock) + ext4ExtPblock ex)
  if unwrit2 then ext4ExtMarkUnwritten newex else newex

/-- The state the second part is inserted in. -/
def shortened (s : St) (p split : ℕ) (unwrit1 : Bool) : St :=
  dirtied (s.setNode (leafHdr s)
    (editSlot (s.nodes (leafHdr s)) p (firstPart split unwrit1))) (extDepth s)

/-- The insertion of the second part, with its outcome. -/
def innerInsert (env : Env) (s : St) (p split : ℕ) (unwrit1 unwrit2 : Bool) (turns : ℕ) :
    Except Errno Unit × St :=
  ext4ExtInsertExtent env (secondPart split unwrit2 (leafSlot s p)) true turns
    (shortened s p split unwrit1)

/-- The length is written back over the slot. -/
def restoreLen (ex slot : Slot) : Slot := { slot with blockCount := half (ext4ExtGetActualLen ex) }

/-- **The failure `e` of the insertion is undone and reported.** -/
structure UndoneAndReported (env : Env) (s : St) (p split : ℕ) (unwrit1 unwrit2 : Bool) (turns : ℕ)
    (e : Errno) : Prop where
  reported : (ext4ExtSplitExtentAt env split unwrit1 unwrit2 turns s).1 = .error e
  /-- The extent is at its place with its first block, length, physical start and state. -/
  undone : ((ext4ExtSplitExtentAt env split unwrit1 unwrit2 turns s).2.nodes (leafHdr s)).slots p =
    leafSlot s p

section
variable {env : Env} {s t : St} {p split turns : ℕ} {unwrit1 unwrit2 : Bool} {e : Errno}

/-- A failure of `x` is answered by `y`. -/
theorem orElse_run (x y : Ext Unit) (u : St) : (do
    let ret ← attempt x
    match ret with
    | .ok _ => pure ()
    | .error _ => y : Ext Unit) u = match x u with
      | (.ok _, t) => (.ok (), t)
      | (.error _, t) => y t := by
  rw [bind_of_ok (attempt_apply x u)]
  rcases x u with ⟨_ | _, t⟩ <;> rfl

/-- A split inside the extent, up to the insertion. -/
theorem splitExtentAt_eq (hp : (s.path (extDepth s)).extent = some p)
    (hne : split ≠ (leafSlot s p).firstBlock) :
    ext4ExtSplitExtentAt env split unwrit1 unwrit2 turns s =
      match innerInsert env s p split unwrit1 unwrit2 turns with
      | (.ok _, t) => (.ok (), t)
      | (.error _, t) =>
        (do setSlot (leafHdr s) p (restoreLen (leafSlot s p))
            let s' ← get
            if s'.pathLive then ext4ExtDirty (extDepth s) else fail .fault : Ext Unit) t := by
  unfold ext4ExtSplitExtentAt
  rw [get_bind, hp, deref_some, pure_bind_apply,
    if_neg (show ¬ split = ((s.nodes (s.path (extDepth s)).header).slots p).firstBlock from hne),
    setSlot_bind, dirty_bind]
  unfold innerInsert
  exact orElse_run _ _ _

/-- What is returned after a failed insertion, and the slot that is written back. -/
theorem failedSplit_run (hp : (s.path (extDepth s)).extent = some p)
    (hne : split ≠ (leafSlot s p).firstBlock)
    (hfail : innerInsert env s p split unwrit1 unwrit2 turns = (.error e, t)) :
    (ext4ExtSplitExtentAt env split unwrit1 unwrit2 turns s).1 =
        (if t.pathLive then .ok () else .error .fault) ∧
      ((ext4ExtSplitExtentAt env split unwrit1 unwrit2 turns s).2.nodes (leafHdr s)).slots p =
        restoreLen (leafSlot s p) ((t.nodes (leafHdr s)).slots p) := by
  rw [splitExtentAt_eq hp hne, hfail]
  dsimp only
  rw [setSlot_bind, get_bind, setNode_pathLive]
  by_cases hlive : t.pathLive = true
  · rw [if_pos hlive, if_pos hlive, dirty_run]
    refine ⟨rfl, ?_⟩
    rw [dirtied_nodes, setNode_nodes, Function.update_self]
    simp [editSlot]
  · rw [if_neg hlive, if_neg hlive]
    refine ⟨rfl, ?_⟩
    rw [fail_apply, setNode_nodes, Function.update_self]
    simp [editSlot]

/-- **No failure of the inner insertion is reported.** -/
theorem failedSplit_never (hp : (s.path (extDepth s)).extent = some p)
    (hne : split ≠ (leafSlot s p).firstBlock)
    (hfail : (innerInsert env s p split unwrit1 unwrit2 turns).1 = .error e)
    (he : e ≠ .fault) : ¬ UndoneAndReported env s p split unwrit1 unwrit2 turns e := by
  intro hundone
  have hrun := (failedSplit_run (t := (innerInsert env s p split unwrit1 unwrit2 turns).2) hp
    hne (Prod.ext hfail rfl)).1
  rw [hundone.reported] at hrun
  by_cases hlive : (innerInsert env s p split unwrit1 unwrit2 turns).2.pathLive = true
  · rw [if_pos hlive] at hrun
    simp at hrun
  · rw [if_neg hlive] at hrun
    exact he (Except.error.inj hrun)

end

/-! ### A disk without free blocks -/

/-- No block can be allocated. -/
def fullDisk : Env where
  blockSize := 1024
  goalBlock := 0
  blockCsum := fun _ => 0
  alloc := fun _ _ _ => .error .enospc
  blockGet := fun _ _ => none
  calloc := fun _ => true

/-- A full root with an unwritten extent of ten blocks in front. -/
def fullRoot : St :=
  stateOf (fun _ => nodeOf 0 4 [⟨0, 32778, 0, 100⟩, ⟨20, 1, 0, 200⟩, ⟨30, 1, 0, 300⟩,
    ⟨40, 1, 0, 400⟩]) fun _ => false

/-- The full root with the path to its first extent. -/
def fullRootAt5 : St := (ext4FindExtent fullDisk 5 fullRoot).2

/-- The split at block 5 of a full root on a full disk returns success. -/
theorem fullRoot_lost : ¬ ∀ (env : Env) (s₀ s : St) (p split : ℕ) (unwrit1 unwrit2 : Bool)
    (turns : ℕ) (e : Errno), AllocOk env → TreeOk env s₀ →
      ext4FindExtent env split s₀ = (.ok (), s) → (s.path (extDepth s)).extent = some p →
      (leafSlot s p).firstBlock < split → split < extEnd (leafSlot s p) →
      (innerInsert env s p split unwrit1 unwrit2 turns).1 = .error e → e ≠ .fault →
      UndoneAndReported env s p split unwrit1 unwrit2 turns e := by
  intro hall
  have hundone := hall fullDisk fullRoot fullRootAt5 0 5 true false 2 .enospc
    (fun n used goal b hb => by simp [fullDisk] at hb) (by decide +kernel)
    (Prod.ext (by decide +kernel) rfl) (by decide +kernel) (by decide +kernel) (by decide +kernel)
    (by decide +kernel) (by decide)
  have hok : (ext4ExtSplitExtentAt fullDisk 5 true false 2 fullRootAt5).1 = .ok () := by
    decide +kernel
  rw [hundone.reported] at hok
  simp at hok

/-- There the insertion fails for want of a block, and that is not reported. -/
theorem failedSplit_never_fullRoot :
    (innerInsert fullDisk fullRootAt5 0 5 true false 2).1 = .error .enospc ∧
      ¬ UndoneAndReported fullDisk fullRootAt5 0 5 true false 2 .enospc :=
  ⟨by decide +kernel, failedSplit_never (by decide +kernel) (by decide +kernel)
    (by decide +kernel) (by decide)⟩

end Ext4Fsd.Extent.FailedSplit
