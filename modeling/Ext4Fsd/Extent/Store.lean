import Ext4Fsd.Lib.Fallible
import Ext4Fsd.Extent.Layout

/-! # The state of an extent operation

`St` is what the functions read and change: the nodes, the buffers' dirty flags, the checksums in
the block tails, the allocation bitmap and the runs given back to it, and the path array behind
`*ppath`. `Env` is what lies outside: the block allocator, block reads and `calloc`, each of which
may fail at any request, and the checksum over a node.

An `ext4_lblk_t` is kept as its 32-bit pattern. It is a signed type: `toI32` is its value, and two
of them are compared by value. A comparison with an entry's `first_block`, which is unsigned, is one
of patterns. -/

namespace Ext4Fsd.Extent.Store

open Ext4Fsd.Lib.Fallible Ext4Fsd.Extent.Layout

/-- The error numbers, and two outcomes the C code has no number for: memory that is gone is used
(`fault`), and the turns granted to a loop of the model ran out (`running`). -/
inductive Errno
  | eio
  | enomem
  | enospc
  | fault
  | running
deriving DecidableEq, Repr

/-- `struct ext4_extent_path`: `block` is the `lb_id` of the block held, `0` for none. -/
structure PathEnt where
  pBlock : ℤ
  block : ℕ
  depth : ℕ
  maxdepth : ℕ
  header : Hdr
  index : Option ℕ
  extent : Option ℕ
deriving DecidableEq, Repr

/-- A path entry as `calloc` leaves it. -/
def PathEnt.zero : PathEnt := ⟨0, 0, 0, 0, .inode, none, none⟩

/-- What an operation runs against. Requests are numbered, so that each may have its own outcome. -/
structure Env where
  blockSize : ℕ
  /-- `ext4_fs_inode_to_goal_block`. -/
  goalBlock : ℤ
  /-- `ext4_ext_block_csum` of a node. -/
  blockCsum : Node → ℕ
  /-- The block the allocator picks, given the bitmap and the goal. -/
  alloc : ℕ → (ℕ → Bool) → ℤ → Except Errno ℕ
  /-- The error of a block get, if it has one. -/
  blockGet : ℕ → ℕ → Option Errno
  /-- Whether `calloc` finds memory. -/
  calloc : ℕ → Bool

/-- The allocator hands out unused blocks other than block zero, within the 48 bits of an entry. -/
def AllocOk (env : Env) : Prop :=
  ∀ n used goal b, env.alloc n used goal = .ok b → b ≠ 0 ∧ b < 2 ^ 48 ∧ used b = false

structure St where
  nodes : Hdr → Node
  /-- `et_checksum` in the tail of each block. -/
  tails : ℕ → ℕ
  /-- `BC_DIRTY` of each block's buffer. -/
  dirty : ℕ → Bool
  inodeDirty : Bool
  used : ℕ → Bool
  /-- The runs given to `ext4_balloc_free_blocks`, first block and count. -/
  freed : List (ℤ × ℤ)
  /-- Requests made so far. -/
  calls : ℕ
  /-- `*ppath`, and whether it points to a path. -/
  path : ℕ → PathEnt
  pathLive : Bool
  /-- The array for the right-hand nodes of a split. -/
  npath : ℕ → PathEnt

abbrev Ext (α : Type) := Prog St Errno α

/-- `ext_depth` of the inode. -/
def extDepth (s : St) : ℕ := (s.nodes .inode).depth

/-! ### Memory -/

def St.setNode (s : St) (h : Hdr) (eh : Node) : St :=
  { s with nodes := Function.update s.nodes h eh }

def St.setPath (s : St) (i : ℕ) (e : PathEnt) : St :=
  { s with path := Function.update s.path i e }

def St.setNpath (s : St) (i : ℕ) (e : PathEnt) : St :=
  { s with npath := Function.update s.npath i e }

/-- Follow a pointer into an entry array. -/
def deref : Option ℕ → Ext ℕ
  | some p => pure p
  | none => fail .fault

/-- Rewrite one entry of a node in place. -/
def setSlot (h : Hdr) (p : ℕ) (f : Slot → Slot) : Ext Unit :=
  modify fun s =>
    let eh := s.nodes h
    s.setNode h { eh with slots := Function.update eh.slots p (f (eh.slots p)) }

/-! ### The parts outside -/

/-- `ext4_balloc_alloc_block`. -/
def ext4BallocAllocBlock (env : Env) (goal : ℤ) : Ext ℕ := fun s =>
  match env.alloc s.calls s.used goal with
  | .ok b => (.ok b, { s with calls := s.calls + 1, used := Function.update s.used b true })
  | .error e => (.error e, { s with calls := s.calls + 1 })

/-- `ext4_balloc_free_blocks`. -/
def ext4BallocFreeBlocks (block count : ℤ) : Ext Unit :=
  modify fun s => { s with
    freed := s.freed ++ [(block, count)]
    used := fun b => if block ≤ b ∧ b < block + count then false else s.used b }

/-- `ext4_trans_block_get`, and the same without reading. -/
def ext4TransBlockGet (env : Env) (b : ℕ) : Ext Unit := fun s =>
  match env.blockGet s.calls b with
  | none => (.ok (), { s with calls := s.calls + 1 })
  | some e => (.error e, { s with calls := s.calls + 1 })

/-- `calloc` of a path array. -/
def callocPath (env : Env) : Ext Unit := fun s =>
  if env.calloc s.calls then (.ok (), { s with calls := s.calls + 1 })
  else (.error .enomem, { s with calls := s.calls + 1 })

def ext4TransSetBlockDirty (b : ℕ) : Ext Unit :=
  modify fun s => { s with dirty := Function.update s.dirty b true }

/-! ### Blocks of the tree -/

/-- `ext4_new_meta_blocks` with `ext4_allocate_single_block`: one block, and a count of one whatever
the count was. -/
def ext4NewMetaBlocks (env : Env) (goal : ℤ) (count : Option ℤ) : Ext (ℕ × Option ℤ) := do
  let block ← ext4BallocAllocBlock env goal
  pure (block, count.map fun _ => 1)

def ext4ExtFreeBlocks (block count : ℤ) : Ext Unit := ext4BallocFreeBlocks block count

def ext4ExtSpaceBlock (env : Env) : ℕ := (env.blockSize - 12) / 12

def ext4ExtSpaceBlockIdx (env : Env) : ℕ := (env.blockSize - 12) / 12

/-- `sizeof(inode->blocks)` is sixty bytes. -/
def ext4ExtSpaceRoot : ℕ := (60 - 12) / 12

def ext4ExtSpaceRootIdx : ℕ := (60 - 12) / 12

def ext4ExtMaxEntries (env : Env) (s : St) (depth : ℕ) : ℕ :=
  if depth = extDepth s then
    if depth = 0 then ext4ExtSpaceRoot else ext4ExtSpaceRootIdx
  else if depth = 0 then ext4ExtSpaceBlock env else ext4ExtSpaceBlockIdx env

/-- `ext4_ext_dirty` on the path entry `i`. -/
def ext4ExtDirty (i : ℕ) : Ext Unit := do
  let s ← get
  if (s.path i).block ≠ 0 then ext4TransSetBlockDirty (s.path i).block
  else modify fun s => { s with inodeDirty := true }

/-- `ext4_extent_block_csum_set` on the block `b` that holds the node `eh`. -/
def ext4ExtentBlockCsumSet (env : Env) (b : ℕ) (eh : Node) : Ext Unit :=
  modify fun s => { s with tails := Function.update s.tails b (env.blockCsum eh) }

/-- Release the block of one path entry; its checksum is brought up to date if it is dirty. -/
def dropRef (env : Env) (e : PathEnt) : Ext PathEnt := do
  if e.block ≠ 0 then
    let s ← get
    runIf (s.dirty e.block) (ext4ExtentBlockCsumSet env e.block (s.nodes e.header))
    pure { e with block := 0 }
  else
    pure e

/-- `n` entries of the path from `i` on. -/
def dropRefsLoop (env : Env) : ℕ → ℕ → Ext Unit
  | 0, _ => pure ()
  | n + 1, i => do
    let s ← get
    let e ← dropRef env (s.path i)
    modify fun s => s.setPath i e
    dropRefsLoop env n (i + 1)

/-- `ext4_ext_drop_refs` on `path + i`. -/
def ext4ExtDropRefs (env : Env) (i : ℕ) (keepOther : Bool) : Ext Unit := do
  let s ← get
  dropRefsLoop env (if keepOther then 1 else (s.path i).depth + 1) i

/-- `ext4_ext_check`; a checksum that does not match is only reported. -/
def ext4ExtCheck (eh : Node) (depth : ℕ) : Bool :=
  eh.magic = ext4ExtentMagic ∧ eh.depth = depth ∧ eh.maxEntriesCount ≠ 0 ∧
    eh.entriesCount ≤ eh.maxEntriesCount

/-- `read_extent_tree_block`: on success the block is held. -/
def readExtentTreeBlock (env : Env) (pblk depth : ℕ) : Ext Unit := do
  ext4TransBlockGet env pblk
  let s ← get
  if ext4ExtCheck (s.nodes (.block pblk)) depth then pure () else fail .eio

/-! ### What they do to the state -/

/-- The part of the state that belongs to the tree and the allocator. -/
def core (s : St) : (Hdr → Node) × (ℕ → Bool) × List (ℤ × ℤ) × (ℕ → PathEnt) :=
  (s.nodes, s.used, s.freed, s.npath)

section
variable {env : Env} {s t : St} {i n : ℕ}

@[simp] theorem setNode_nodes (h : Hdr) (eh : Node) :
    (s.setNode h eh).nodes = Function.update s.nodes h eh := rfl

@[simp] theorem setNode_path (h : Hdr) (eh : Node) : (s.setNode h eh).path = s.path := rfl

@[simp] theorem setNode_npath (h : Hdr) (eh : Node) : (s.setNode h eh).npath = s.npath := rfl

@[simp] theorem setNode_used (h : Hdr) (eh : Node) : (s.setNode h eh).used = s.used := rfl

@[simp] theorem setNode_freed (h : Hdr) (eh : Node) : (s.setNode h eh).freed = s.freed := rfl

@[simp] theorem setNode_calls (h : Hdr) (eh : Node) : (s.setNode h eh).calls = s.calls := rfl

@[simp] theorem setNode_tails (h : Hdr) (eh : Node) : (s.setNode h eh).tails = s.tails := rfl

@[simp] theorem setNode_dirty (h : Hdr) (eh : Node) : (s.setNode h eh).dirty = s.dirty := rfl

@[simp] theorem setPath_npath (e : PathEnt) : (s.setPath i e).npath = s.npath := rfl

@[simp] theorem setPath_used (e : PathEnt) : (s.setPath i e).used = s.used := rfl

@[simp] theorem setPath_freed (e : PathEnt) : (s.setPath i e).freed = s.freed := rfl

@[simp] theorem setPath_calls (e : PathEnt) : (s.setPath i e).calls = s.calls := rfl

@[simp] theorem setPath_tails (e : PathEnt) : (s.setPath i e).tails = s.tails := rfl

@[simp] theorem setPath_dirty (e : PathEnt) : (s.setPath i e).dirty = s.dirty := rfl

@[simp] theorem setNpath_nodes (e : PathEnt) : (s.setNpath i e).nodes = s.nodes := rfl

@[simp] theorem setNpath_dirty (e : PathEnt) : (s.setNpath i e).dirty = s.dirty := rfl

@[simp] theorem setNpath_path (e : PathEnt) : (s.setNpath i e).path = s.path := rfl

@[simp] theorem setNpath_npath (e : PathEnt) :
    (s.setNpath i e).npath = Function.update s.npath i e := rfl

@[simp] theorem setPath_pathLive (e : PathEnt) : (s.setPath i e).pathLive = s.pathLive := rfl

@[simp] theorem setNode_pathLive (h : Hdr) (eh : Node) :
    (s.setNode h eh).pathLive = s.pathLive := rfl

@[simp] theorem setPath_nodes (e : PathEnt) : (s.setPath i e).nodes = s.nodes := rfl

@[simp] theorem setPath_path (e : PathEnt) :
    (s.setPath i e).path = Function.update s.path i e := rfl

/-- The path with the blocks of `n` entries from `i` on released. -/
def released (path : ℕ → PathEnt) (i n : ℕ) : ℕ → PathEnt :=
  fun x => if i ≤ x ∧ x < i + n then { path x with block := 0 } else path x

theorem dropRef_run (e : PathEnt) :
    ∃ T, dropRef env e s = (.ok { e with block := 0 }, { s with tails := T }) := by
  unfold dropRef
  by_cases hb : e.block ≠ 0
  · rw [if_pos hb, get_bind]
    by_cases hd : s.dirty e.block = true
    · rw [runIf_pos hd]
      exact ⟨_, rfl⟩
    · rw [runIf_neg hd]
      exact ⟨_, rfl⟩
  · rw [if_neg hb]
    refine ⟨s.tails, ?_⟩
    rw [not_not] at hb
    rw [← hb]
    rfl

theorem dropRefsLoop_run : ∃ T, dropRefsLoop env n i s =
    (.ok (), { s with tails := T, path := released s.path i n }) := by
  induction n generalizing i s with
  | zero =>
    refine ⟨s.tails, ?_⟩
    have : released s.path i 0 = s.path := by
      funext x
      unfold released
      rw [if_neg (by omega)]
    rw [this]
    rfl
  | succ n ih =>
    unfold dropRefsLoop
    rw [get_bind]
    obtain ⟨T, hT⟩ := @dropRef_run env s (s.path i)
    rw [bind_of_ok hT, modify_bind]
    obtain ⟨T', hT'⟩ := ih (i := i + 1)
      (s := St.setPath { s with tails := T } i { s.path i with block := 0 })
    refine ⟨T', hT'.trans ?_⟩
    have : released (Function.update s.path i { s.path i with block := 0 }) (i + 1) n =
        released s.path i (n + 1) := by
      funext x
      unfold released
      by_cases hx : x = i
      · subst hx
        rw [if_neg (by omega), if_pos (by omega), Function.update_self]
      · rw [Function.update_of_ne hx]
        by_cases hin : i + 1 ≤ x ∧ x < i + 1 + n
        · rw [if_pos hin, if_pos (by omega)]
        · rw [if_neg hin, if_neg (by omega)]
    rw [← this]
    rfl

theorem dropRefs_run (keepOther : Bool) : ∃ T, ext4ExtDropRefs env i keepOther s =
    (.ok (), { s with
      tails := T
      path := released s.path i (if keepOther then 1 else (s.path i).depth + 1) }) :=
  dropRefsLoop_run

/-- The state with the buffer of the path's node `i` marked dirty. -/
def dirtied (s : St) (i : ℕ) : St := (ext4ExtDirty i s).2

theorem dirtied_eq : ∃ D I, dirtied s i = { s with dirty := D, inodeDirty := I } := by
  unfold dirtied ext4ExtDirty
  rw [get_bind]
  by_cases hb : (s.path i).block ≠ 0
  · rw [if_pos hb]
    exact ⟨_, _, rfl⟩
  · rw [if_neg hb]
    exact ⟨_, _, rfl⟩

theorem dirty_run : ext4ExtDirty i s = (.ok (), dirtied s i) := by
  unfold dirtied ext4ExtDirty
  rw [get_bind]
  by_cases hb : (s.path i).block ≠ 0
  · rw [if_pos hb]
    rfl
  · rw [if_neg hb]
    rfl

@[simp] theorem dirtied_nodes : (dirtied s i).nodes = s.nodes := by
  obtain ⟨D, I, h⟩ := @dirtied_eq s i
  rw [h]

@[simp] theorem dirtied_path : (dirtied s i).path = s.path := by
  obtain ⟨D, I, h⟩ := @dirtied_eq s i
  rw [h]

@[simp] theorem dirtied_npath : (dirtied s i).npath = s.npath := by
  obtain ⟨D, I, h⟩ := @dirtied_eq s i
  rw [h]

@[simp] theorem dirtied_used : (dirtied s i).used = s.used := by
  obtain ⟨D, I, h⟩ := @dirtied_eq s i
  rw [h]

@[simp] theorem dirtied_freed : (dirtied s i).freed = s.freed := by
  obtain ⟨D, I, h⟩ := @dirtied_eq s i
  rw [h]

@[simp] theorem dirtied_pathLive : (dirtied s i).pathLive = s.pathLive := by
  obtain ⟨D, I, h⟩ := @dirtied_eq s i
  rw [h]

@[simp] theorem dirtied_calls : (dirtied s i).calls = s.calls := by
  obtain ⟨D, I, h⟩ := @dirtied_eq s i
  rw [h]

theorem dirty_bind {α : Type} (f : Unit → Ext α) :
    (ext4ExtDirty i >>= f) s = f () (dirtied s i) := bind_of_ok dirty_run

/-- The node with the entry `p` rewritten. -/
def editSlot (eh : Node) (p : ℕ) (f : Slot → Slot) : Node :=
  { eh with slots := Function.update eh.slots p (f (eh.slots p)) }

theorem setSlot_bind {α : Type} (h : Hdr) (p : ℕ) (f : Slot → Slot) (g : Unit → Ext α) :
    (setSlot h p f >>= g) s = g () (s.setNode h (editSlot (s.nodes h) p f)) := rfl

@[simp] theorem deref_some (p : ℕ) : deref (some p) = pure p := rfl

theorem blockGet_ok {b : ℕ} {u : Unit} (h : ext4TransBlockGet env b s = (.ok u, t)) :
    t = { s with calls := s.calls + 1 } := by
  unfold ext4TransBlockGet at h
  split at h
  · exact (Prod.mk.inj h).2.symm
  · simp at h

theorem read_ok {b d : ℕ} {u : Unit} (h : readExtentTreeBlock env b d s = (.ok u, t)) :
    t = { s with calls := s.calls + 1 } ∧ ext4ExtCheck (s.nodes (.block b)) d = true := by
  obtain ⟨_, v, h1, h2⟩ := bind_ok h
  rw [get_bind] at h2
  rw [blockGet_ok h1] at h2
  by_cases hc : ext4ExtCheck (s.nodes (.block b)) d = true
  · rw [if_pos hc] at h2
    exact ⟨(Prod.mk.inj h2).2.symm, hc⟩
  · rw [if_neg hc] at h2
    simp at h2

theorem calloc_ok {u : Unit} (h : callocPath env s = (.ok u, t)) :
    t = { s with calls := s.calls + 1 } := by
  unfold callocPath at h
  split at h
  · exact (Prod.mk.inj h).2.symm
  · simp at h

/-! ### What they leave alone -/

theorem keeps_dropRefs (i : ℕ) (keepOther : Bool) :
    Keeps core (ext4ExtDropRefs env i keepOther) := by
  intro s
  obtain ⟨T, hT⟩ := @dropRefs_run env s i keepOther
  rw [hT]
  rfl

theorem keeps_blockGet (b : ℕ) : Keeps core (ext4TransBlockGet env b) := by
  intro s
  unfold ext4TransBlockGet
  split <;> rfl

theorem keeps_calloc : Keeps core (callocPath env) := by
  intro s
  unfold callocPath
  split <;> rfl

theorem keeps_deref (p : Option ℕ) : Keeps core (deref p) := by
  cases p
  · exact keeps_fail _
  · exact keeps_pure _

theorem keeps_read (b d : ℕ) : Keeps core (readExtentTreeBlock env b d) :=
  keeps_bind (keeps_blockGet b) fun _ => keeps_bind keeps_get fun _ =>
    keeps_ite (keeps_pure ()) (keeps_fail _)

/-! ### Changes to nodes -/

/-- The blocks of the nodes that have changed are marked dirty. -/
structure Marked (s t : St) : Prop where
  dirty : ∀ b, s.dirty b = true → t.dirty b = true
  marked : ∀ b, t.nodes (.block b) ≠ s.nodes (.block b) → t.dirty b = true

theorem Marked.trans {u : St} (h1 : Marked s t) (h2 : Marked t u) : Marked s u := by
  refine ⟨fun b hb => h2.dirty b (h1.dirty b hb), fun b hb => ?_⟩
  by_cases h : t.nodes (.block b) = s.nodes (.block b)
  · exact h2.marked b (h ▸ hb)
  · exact h2.dirty b (h1.marked b h)

theorem marked_of_eq (hn : t.nodes = s.nodes) (hd : t.dirty = s.dirty) : Marked s t :=
  ⟨fun b hb => by rwa [hd], fun b hb => absurd (by rw [hn]) hb⟩

/-- Beside the path array only nodes have changed. -/
structure Marks (s t : St) : Prop extends Marked s t where
  npath : t.npath = s.npath
  used : t.used = s.used
  freed : t.freed = s.freed
  calls : t.calls = s.calls
  pathLive : t.pathLive = s.pathLive
  tails : t.tails = s.tails

theorem Marks.refl (s : St) : Marks s s := ⟨marked_of_eq rfl rfl, rfl, rfl, rfl, rfl, rfl, rfl⟩

theorem Marks.trans {u : St} (h1 : Marks s t) (h2 : Marks t u) : Marks s u :=
  ⟨h1.toMarked.trans h2.toMarked, h2.npath.trans h1.npath, h2.used.trans h1.used,
    h2.freed.trans h1.freed, h2.calls.trans h1.calls, h2.pathLive.trans h1.pathLive,
    h2.tails.trans h1.tails⟩

theorem marks_setPath (e : PathEnt) : Marks s (s.setPath i e) :=
  ⟨marked_of_eq rfl rfl, rfl, rfl, rfl, rfl, rfl, rfl⟩

/-- The path array has not changed either. -/
structure Edits (s t : St) : Prop extends Marks s t where
  path : t.path = s.path

theorem Edits.refl (s : St) : Edits s s := ⟨.refl s, rfl⟩

theorem Edits.trans {u : St} (h1 : Edits s t) (h2 : Edits t u) : Edits s u :=
  ⟨h1.toMarks.trans h2.toMarks, h2.path.trans h1.path⟩

@[simp] theorem dirtied_tails : (dirtied s i).tails = s.tails := by
  obtain ⟨D, I, h⟩ := @dirtied_eq s i
  rw [h]

/-- Marking a node's buffer marks its block, and nothing else of the blocks. -/
theorem dirtied_dirty (b : ℕ) : (dirtied s i).dirty b =
    if (s.path i).block ≠ 0 ∧ b = (s.path i).block then true else s.dirty b := by
  unfold dirtied ext4ExtDirty
  rw [get_bind]
  by_cases hb : (s.path i).block ≠ 0
  · rw [if_pos hb]
    by_cases h : b = (s.path i).block
    · rw [if_pos ⟨hb, h⟩, h]
      simp [ext4TransSetBlockDirty]
    · rw [if_neg (fun hc => h hc.2)]
      simp [ext4TransSetBlockDirty, h]
  · rw [if_neg hb, if_neg (fun hc => hb hc.1)]
    rfl

/-- The header of a path entry is the node of the block it holds, or the root. -/
def HeldAt (e : PathEnt) : Prop :=
  (e.header = .inode ∧ e.block = 0) ∨ (e.header = .block e.block ∧ e.block ≠ 0)

/-- A node of the path is rewritten and marked. -/
theorem edits_setNode {eh : Node} (hheld : HeldAt (s.path i)) :
    Edits s (dirtied (s.setNode (s.path i).header eh) i) := by
  refine ⟨⟨⟨fun b hb => ?_, fun b hb => ?_⟩, by simp, by simp, by simp, by simp, by simp, by simp⟩,
    by simp⟩
  · rw [dirtied_dirty]
    by_cases h : (s.path i).block ≠ 0 ∧ b = (s.path i).block
    · exact if_pos h
    · exact (if_neg h).trans hb
  · rw [dirtied_nodes, setNode_nodes] at hb
    rw [dirtied_dirty]
    rcases hheld with ⟨h1, h2⟩ | ⟨h1, h2⟩
    · rw [h1] at hb
      simp at hb
    · refine if_pos ⟨h2, ?_⟩
      by_contra hne
      rw [h1, Function.update_of_ne (by simpa using hne)] at hb
      exact hb rfl

/-- A node may be marked dirty after more has been done than to rewrite it. -/
theorem marks_dirtied {v : St} {e : PathEnt} {h : Hdr} {eh : Node}
    (hv : Marks ((s.setPath i e).setNode h eh) v) (hh : (v.path i).header = h)
    (hheld : HeldAt (v.path i)) : Marks s (dirtied v i) := by
  refine ⟨⟨fun b hb => ?_, fun b hb => ?_⟩, by simpa using hv.npath, by simpa using hv.used,
    by simpa using hv.freed, by simpa using hv.calls, by simpa using hv.pathLive,
    by simpa using hv.tails⟩
  · rw [dirtied_dirty]
    have := hv.dirty b hb
    split_ifs
    · rfl
    · exact this
  · rw [dirtied_nodes] at hb
    rw [dirtied_dirty]
    by_cases hvb : v.nodes (.block b) = ((s.setPath i e).setNode h eh).nodes (.block b)
    · have hbh : Hdr.block b = h := by
        by_contra hne
        rw [hvb, setNode_nodes, Function.update_of_ne hne] at hb
        exact hb rfl
      rcases hheld with ⟨h1, -⟩ | ⟨h1, h2⟩
      · rw [h1] at hh
        rw [← hh] at hbh
        simp at hbh
      · rw [h1, ← hbh] at hh
        exact if_pos ⟨h2, by simpa using hh.symm⟩
    · have := hv.marked b hvb
      split_ifs
      · rfl
      · exact this

end

end Ext4Fsd.Extent.Store
