import Ext4Fsd.Extent.Insertion

/-! # Rewriting the path's extent

The extent the path leads to is rewritten where it is when another one is merged into it, when it is
cut short and when its state changes. While its first block stays, the tree stays sound along the
path (`rewritten_of`). -/

namespace Ext4Fsd.Extent.InPlace

open Ext4Fsd.Lib.Fallible Ext4Fsd.Lib.Intervals Ext4Fsd.Extent.Layout Ext4Fsd.Extent.Store
open Ext4Fsd.Extent.Search Ext4Fsd.Extent.Insert Ext4Fsd.Extent.Tree Ext4Fsd.Extent.Way
open Ext4Fsd.Extent.Lookup Ext4Fsd.Extent.Keys Ext4Fsd.Extent.Focus Ext4Fsd.Extent.MakeRoom
open Ext4Fsd.Extent.Insertion

/-- The extent the path leads to. -/
abbrev pathExtent (s : St) (hdr : ℕ → Hdr) (pos : ℕ → ℕ) : Slot :=
  (leafNode s hdr).slots (pos (extDepth s))

/-- The state with the path's extent rewritten and its buffer marked. -/
def rewritten (s : St) (h : Hdr) (p : ℕ) (f : Slot → Slot) : St :=
  dirtied (s.setNode h (editSlot (s.nodes h) p f)) (extDepth s)

/-- **In `t` the path's extent is `ex`, and nothing else of the tree has changed.** -/
structure Rewritten (env : Env) (s t : St) (hdr : ℕ → Hdr) (pos : ℕ → ℕ) (b : ℕ) (ex : Slot) :
    Prop where
  depth : extDepth t = extDepth s
  focused : Focused env t hdr pos b
  left : leftExts t hdr pos = leftExts s hdr pos
  right : rightExts t hdr pos = rightExts s hdr pos
  refs : wayRefs t hdr pos = wayRefs s hdr pos
  entries : (leafNode t hdr).entries = (leafNode s hdr).entries.take (pos (extDepth s)) ++
    ex :: (leafNode s hdr).entries.drop (pos (extDepth s) + 1)
  first : ((leafNode t hdr).slots 0).firstBlock = ((leafNode s hdr).slots 0).firstBlock

section
variable {env : Env} {s t : St} {hdr : ℕ → Hdr} {pos : ℕ → ℕ} {b p n : ℕ} {f : Slot → Slot}
  {newext : Slot} {eh : Node}

theorem editSlot_entries (hp : p < eh.entriesCount) : (editSlot eh p f).entries =
    eh.entries.take p ++ f (eh.slots p) :: eh.entries.drop (p + 1) := by
  refine entries_set hp rfl ?_ fun j hj => ?_
  · simp [editSlot]
  · simp [editSlot, hj]

theorem editSlot_first (hf : (f (eh.slots p)).firstBlock = (eh.slots p).firstBlock) (j : ℕ) :
    ((editSlot eh p f).slots j).firstBlock = (eh.slots j).firstBlock := by
  show (Function.update eh.slots p (f (eh.slots p)) j).firstBlock = (eh.slots j).firstBlock
  by_cases h : j = p
  · rw [h, Function.update_self, hf]
  · rw [Function.update_of_ne h]

theorem editSlot_header {nodes : Nodes} {k : ℕ} {h : Hdr} (hh : HeaderOk env nodes k h) :
    HeaderOk env (Function.update nodes h (editSlot (nodes h) p f)) k h := by
  obtain ⟨h1, h2, h3, h4, h5⟩ := hh
  constructor <;> rw [Function.update_self]
  · exact h1
  · exact h2
  · exact h3
  · exact h4
  · exact h5

/-- The extents of the tree around the path's one. -/
theorem pathExtent_exts (hf : Focused env s hdr pos b) (h0 : (leafNode s hdr).entriesCount ≠ 0) :
    treeExts s = leftExts s hdr pos ++ (leafNode s hdr).entries.take (pos (extDepth s)) ++
      pathExtent s hdr pos ::
        ((leafNode s hdr).entries.drop (pos (extDepth s) + 1) ++ rightExts s hdr pos) := by
  rw [hf.exts]
  conv_lhs => rw [entries_split (hf.pos_lt h0)]
  simp

/-- The extents of the tree with the path's one rewritten. -/
theorem rewritten_exts (hf : Focused env s hdr pos b) (h0 : (leafNode s hdr).entriesCount ≠ 0)
    (hn : t.nodes = Function.update s.nodes (hdr (extDepth s))
      (editSlot (leafNode s hdr) (pos (extDepth s)) f)) :
    treeExts t = leftExts s hdr pos ++ (leafNode s hdr).entries.take (pos (extDepth s)) ++
      f (pathExtent s hdr pos) ::
        ((leafNode s hdr).entries.drop (pos (extDepth s) + 1) ++ rightExts s hdr pos) := by
  obtain ⟨ha, -⟩ := hf.along_leaf (editSlot (leafNode s hdr) (pos (extDepth s)) f)
  rw [← hn] at ha
  have hleaf : t.nodes (hdr (extDepth s)) = editSlot (leafNode s hdr) (pos (extDepth s)) f := by
    rw [hn, Function.update_self]
  have hD : extDepth t = extDepth s := by
    rcases Nat.eq_zero_or_pos (extDepth s) with h | h
    · have hroot : hdr (extDepth s) = .inode := by rw [h, hf.path.root]
      rw [hroot] at hleaf
      rw [extDepth, hleaf, leafNode, hroot]
      rfl
    · exact ha.depth h
  have hexts := exts_spine (g := 0) ha.spine.onPath
  rw [hf.path.root, Nat.zero_add, ha.lefts, ha.rights, exts, hleaf,
    editSlot_entries (hf.pos_lt h0)] at hexts
  rw [treeExts, hD, hexts]
  simp

/-- **The path's extent may be rewritten when its first block stays.** -/
theorem rewritten_of (hf : Focused env s hdr pos b) (h0 : (leafNode s hdr).entriesCount ≠ 0)
    (hfirst : (f (pathExtent s hdr pos)).firstBlock = (pathExtent s hdr pos).firstBlock)
    (hn : t.nodes = Function.update s.nodes (hdr (extDepth s))
      (editSlot (leafNode s hdr) (pos (extDepth s)) f))
    (hpath : ∀ i, i ≠ extDepth s → t.path i = s.path i)
    (hhdr : (t.path (extDepth s)).header = (s.path (extDepth s)).header)
    (hblock : (t.path (extDepth s)).block = (s.path (extDepth s)).block)
    (hdepth : (t.path (extDepth s)).depth = (s.path (extDepth s)).depth)
    (hext : (t.path (extDepth s)).extent = (s.path (extDepth s)).extent)
    (hlive : t.pathLive = s.pathLive) (hused : t.used = s.used) :
    Rewritten env s t hdr pos b (f (pathExtent s hdr pos)) := by
  obtain ⟨h1, h2⟩ := hf.along_leaf (editSlot (leafNode s hdr) (pos (extDepth s)) f)
  have hlt := hf.pos_lt h0
  have hleaf : t.nodes (hdr (extDepth s)) = editSlot (leafNode s hdr) (pos (extDepth s)) f := by
    rw [hn, Function.update_self]
  rw [← hn] at h1 h2
  have hh : HeaderOk env t.nodes 0 (hdr (extDepth s)) := by
    rw [hn]
    exact editSlot_header hf.leaf
  obtain ⟨hD, h3, h4, h5, h6⟩ := h1.focused (h2 h0) hf hh hpath
    (hhdr.trans (hf.path.header _ le_rfl)) hblock hdepth
    (hext.trans (by rw [hf.path.leaf, if_neg h0])) (by rw [hleaf]; exact hlt) hlive hused
  rw [Function.update_eq_self] at h3 h4 h5 h6
  refine ⟨hD, h3, h4, h5, h6, ?_, ?_⟩
  · rw [leafNode, hD, hleaf]
    exact editSlot_entries hlt
  · rw [leafNode, hD, hleaf]
    exact editSlot_first hfirst 0

/-- The extents of the tree afterwards. -/
theorem Rewritten.exts {ex : Slot} (hr : Rewritten env s t hdr pos b ex) :
    treeExts t = leftExts s hdr pos ++ (leafNode s hdr).entries.take (pos (extDepth s)) ++
      ex :: ((leafNode s hdr).entries.drop (pos (extDepth s) + 1) ++ rightExts s hdr pos) := by
  rw [hr.focused.exts, hr.left, hr.right, hr.entries]
  simp

theorem Rewritten.treeRefs {ex : Slot} (hr : Rewritten env s t hdr pos b ex)
    (hf : Focused env s hdr pos b) : (treeRefs t).Perm (treeRefs s) :=
  hr.focused.refs.trans (hr.refs ▸ hf.refs.symm)

theorem Rewritten.head {ex : Slot} (hr : Rewritten env s t hdr pos b ex)
    (hb : ((leafNode s hdr).slots 0).firstBlock = b) :
    (leafNode t hdr).entries.head?.map Slot.firstBlock = some b := by
  have hne : (leafNode t hdr).entries ≠ [] := by rw [hr.entries]; simp
  rw [Ne, entries_eq_nil] at hne
  rw [head_entries (Nat.pos_of_ne_zero hne), Option.map_some, hr.first, hb]

/-- **The tree stays well-formed with an extent that fits in its place.** -/
theorem Rewritten.treeOk {ex : Slot} (hr : Rewritten env s t hdr pos b ex)
    (hb : ((leafNode s hdr).slots 0).firstBlock = b) (hok : ∀ x ∈ treeExts t, ExtOk x)
    (hsorted : Sorted (treeExts t)) : TreeOk env t :=
  hr.focused.treeOk (hr.head hb) hok hsorted

/-! ### Merging -/

/-- The state after a merge: the path's extent is rewritten by `f`. -/
def merged (s : St) (h : Hdr) (p : ℕ) (f : Slot → Slot) : St :=
  let u := rewritten s h p f
  u.setPath (extDepth s) { u.path (extDepth s) with
    extent := some p
    pBlock := ext4ExtPblock ((u.nodes (u.path (extDepth s)).header).slots p) }

theorem merged_spec (hf : Focused env s hdr pos b) (h0 : (leafNode s hdr).entriesCount ≠ 0)
    (hfirst : (f (pathExtent s hdr pos)).firstBlock = (pathExtent s hdr pos).firstBlock) :
    Rewritten env s (merged s (hdr (extDepth s)) (pos (extDepth s)) f) hdr pos b
      (f (pathExtent s hdr pos)) := by
  have hleaf := hf.path.leaf
  rw [if_neg h0] at hleaf
  refine rewritten_of hf h0 hfirst ?_ (fun i hi => ?_) ?_ ?_ ?_ ?_ ?_ ?_ <;>
    simp_all [merged, rewritten]

theorem merged_exts (hf : Focused env s hdr pos b) (h0 : (leafNode s hdr).entriesCount ≠ 0) :
    treeExts (merged s (hdr (extDepth s)) (pos (extDepth s)) f) =
      leftExts s hdr pos ++ (leafNode s hdr).entries.take (pos (extDepth s)) ++
        f (pathExtent s hdr pos) ::
          ((leafNode s hdr).entries.drop (pos (extDepth s) + 1) ++ rightExts s hdr pos) :=
  rewritten_exts hf h0 (by simp [merged, rewritten])

theorem merged_congr {h : Hdr} {g : Slot → Slot}
    (heq : f ((s.nodes h).slots p) = g ((s.nodes h).slots p)) :
    merged s h p f = merged s h p g := by
  unfold merged rewritten editSlot
  rw [heq]

theorem merge_run (h : Hdr) : (do
    setSlot h p f
    ext4ExtDirty (extDepth s)
    setExtent (extDepth s) p
    pure false : Ext Bool) s = (.ok false, merged s h p f) := by
  rw [setSlot_bind, dirty_bind]
  rfl

/-- The rewriting a merge makes. -/
def mergeInto (newext ex : Slot) : Slot :=
  if ext4ExtCanAppend ex newext then addLen ex newext else prepended ex newext

/-- **A merge ends the insertion.** -/
theorem insertRounds_merge {noCombine : Bool} (hf : Focused env s hdr pos b)
    (hne : (leafNode s hdr).entriesCount ≠ 0 →
      (pathExtent s hdr pos).firstBlock ≠ newext.firstBlock)
    (hm : ¬ NoMerge (leafNode s hdr) (pos (extDepth s)) newext noCombine) :
    insertRounds env newext noCombine (n + 1) s =
      (.ok (), merged s (hdr (extDepth s)) (pos (extDepth s)) (mergeInto newext)) := by
  unfold NoMerge at hm
  push Not at hm
  obtain ⟨h1, h0, h2⟩ := hm
  have hhdr : (s.path (extDepth s)).header = hdr (extDepth s) := hf.path.header _ le_rfl
  have hleaf : ext4ExtInsertLeaf (extDepth s) newext noCombine s =
      (.ok false, merged s (hdr (extDepth s)) (pos (extDepth s)) (mergeInto newext)) := by
    unfold ext4ExtInsertLeaf
    rw [get_bind, hhdr, hf.path.leaf, if_neg h0]
    simp only [Option.any_some, decide_eq_true_eq]
    rw [if_neg (fun h => hne h0 h.symm)]
    by_cases ha : ext4ExtCanAppend ((leafNode s hdr).slots (pos (extDepth s))) newext = true
    · rw [if_pos ⟨h1, ha⟩, @merged_congr s (pos (extDepth s)) (mergeInto newext)
        (hdr (extDepth s)) (fun ex => addLen ex newext) (if_pos ha), deref_some, pure_bind_apply]
      exact merge_run _
    · rw [if_neg (fun h => ha h.2), if_pos ⟨h1, by simpa using h2 (by simpa using ha)⟩,
        @merged_congr s (pos (extDepth s)) (mergeInto newext) (hdr (extDepth s))
          (fun ex => prepended ex newext) (if_neg ha), deref_some, pure_bind_apply]
      exact merge_run _
  unfold insertRounds
  rw [get_bind, bind_of_ok hleaf, if_neg (by simp)]
  rfl

end

end Ext4Fsd.Extent.InPlace
