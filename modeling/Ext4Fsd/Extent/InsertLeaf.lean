import Ext4Fsd.Extent.Focus

/-! # Into a leaf with room

`insertEntry` is `ext4_ext_insert_leaf` past its checks. The entries from the place on move up, the
extent is written there, and a new first entry hands its key up. -/

namespace Ext4Fsd.Extent.InsertLeaf

open Ext4Fsd.Lib.Fallible Ext4Fsd.Lib.Intervals Ext4Fsd.Extent.Layout Ext4Fsd.Extent.Store
open Ext4Fsd.Extent.Search Ext4Fsd.Extent.Insert Ext4Fsd.Extent.Tree Ext4Fsd.Extent.Way
open Ext4Fsd.Extent.Found Ext4Fsd.Extent.Lookup Ext4Fsd.Extent.Keys Ext4Fsd.Extent.Focus

/-- The position a new extent takes beside the entry `p` of the path. -/
def placeFor (eh : Node) (p : ℕ) (newext : Slot) : ℕ :=
  if eh.entriesCount = 0 then 0
  else if (eh.slots p).firstBlock < newext.firstBlock then p + 1 else p

/-- The leaf with `newext` at position `x`. -/
def filled (eh : Node) (x : ℕ) (newext : Slot) : Node :=
  fillGap (makeGap eh x) x (copyExtent newext)

section
variable {env : Env} {s t : St} {hdr : ℕ → Hdr} {pos : ℕ → ℕ} {b x : ℕ} {newext : Slot} {eh : Node}

theorem copyExtent_eq (hfits : Fits newext) (slot : Slot) : copyExtent newext slot = newext :=
  extStore_self hfits rfl rfl

theorem gap_slots_lt {w : Slot → Slot} {j : ℕ} (hj : j < x) :
    (fillGap (makeGap eh x) x w).slots j = eh.slots j := by
  simp only [fillGap, makeGap]
  rw [Function.update_of_ne (by omega), memmove_out (Or.inl (by omega))]

/-- The entries of a node with one written into a gap. -/
theorem gap_entries {w : Slot → Slot} (hx : x ≤ eh.entriesCount)
    (hcount : eh.entriesCount + 1 < 2 ^ 16) : (fillGap (makeGap eh x) x w).entries =
      eh.entries.take x ++ w ((makeGap eh x).slots x) :: eh.entries.drop x := by
  refine entries_insert hx (half_of_eq rfl hcount) (fun j hj => gap_slots_lt hj) ?_
    fun j hj hj' => ?_
  · simp [fillGap]
  · simp only [fillGap, makeGap]
    rw [Function.update_of_ne (by omega), memmove_in (by omega) (by omega)]
    congr 1
    omega

theorem filled_entries (hfits : Fits newext) (hx : x ≤ eh.entriesCount)
    (hcount : eh.entriesCount + 1 < 2 ^ 16) :
    (filled eh x newext).entries = eh.entries.take x ++ newext :: eh.entries.drop x := by
  unfold filled
  rw [gap_entries hx hcount, copyExtent_eq hfits]

theorem filled_slots_lt {j : ℕ} (hj : j < x) : (filled eh x newext).slots j = eh.slots j :=
  gap_slots_lt hj

theorem filled_count (hcount : eh.entriesCount + 1 < 2 ^ 16) :
    (filled eh x newext).entriesCount = eh.entriesCount + 1 :=
  half_of_eq rfl hcount

theorem filled_header {nodes : Nodes} {k : ℕ} {h : Hdr} (hh : HeaderOk env nodes k h)
    (hroom : (nodes h).entriesCount < (nodes h).maxEntriesCount)
    (hmax : (nodes h).maxEntriesCount < 2 ^ 16) :
    HeaderOk env (Function.update nodes h (filled (nodes h) x newext)) k h := by
  obtain ⟨h1, h2, h3, h4, h5⟩ := hh
  constructor <;> rw [Function.update_self]
  · exact h1
  · exact h2
  · exact h3
  · exact h4
  · rw [filled_count (by omega)]
    exact hroom

theorem le_placeFor {p : ℕ} (hne : eh.entriesCount ≠ 0) : p ≤ placeFor eh p newext := by
  unfold placeFor
  rw [if_neg hne]
  split_ifs <;> omega

theorem placeFor_le {p : ℕ} (hp : eh.entriesCount ≠ 0 → p < eh.entriesCount) :
    placeFor eh p newext ≤ eh.entriesCount := by
  unfold placeFor
  split_ifs with h1 h2
  · omega
  · have := hp h1
    omega
  · have := hp h1
    omega

/-! ### The run -/

/-- The nodes after the insertion. -/
def insertedNodes (s : St) (hdr : ℕ → Hdr) (pos : ℕ → ℕ) (newext : Slot) : Nodes :=
  let eh := leafNode s hdr
  let eh' := filled eh (placeFor eh (pos (extDepth s)) newext) newext
  let nodes := Function.update s.nodes (hdr (extDepth s)) eh'
  if eh.entriesCount = 0 ∨ pos (extDepth s) = 0 then
    rekey hdr pos (eh'.slots 0).firstBlock (extDepth s) nodes
  else nodes

theorem extDepth_setNode {h : Hdr} (hd : eh.depth = (s.nodes h).depth) :
    extDepth (s.setNode h eh) = extDepth s := by
  unfold extDepth
  rw [setNode_nodes]
  by_cases hi : h = .inode
  · rw [← hi, Function.update_self, hd]
  · rw [Function.update_of_ne (Ne.symm hi)]

theorem setNode_setNode {h : Hdr} {eh' : Node} :
    (s.setNode h eh).setNode h eh' = s.setNode h eh' := by
  unfold St.setNode
  simp only [Function.update_idem]

/-- The state the insertion has reached before the keys are handed up. -/
def entered (s : St) (hdr : ℕ → Hdr) (x p : ℕ) (newext : Slot) : St :=
  (s.setPath (extDepth s) { s.path (extDepth s) with extent := some p }).setNode
    (hdr (extDepth s)) (filled (leafNode s hdr) x newext)

/-- The insertion with its position worked out. -/
theorem insertEntry_eq {D p : ℕ} {h : Hdr} (hh : (s.path D).header = h) (heh : s.nodes h = eh)
    (hx : ((s.path D).extent.elim 0 fun q =>
      if (eh.slots q).firstBlock < newext.firstBlock then q + 1 else q) = x)
    (hp : (s.path D).extent.getD x = p) : insertEntry D newext s = (do
      modify fun s' => s'.setPath D { s.path D with extent := some p }
      modify fun s' => s'.setNode h (makeGap eh x)
      if eh.maxEntriesCount < x + 1 then fail .eio
      else do
        modify fun s' => s'.setNode h (filled eh x newext)
        if half (eh.entriesCount + 1) < x + 1 then fail .eio
        else do
          ext4ExtCorrectIndexes
          ext4ExtDirty D
          setExtent D x : Ext Unit) s := by
  subst hh heh hx hp
  unfold insertEntry
  rw [get_bind]
  cases (s.path D).extent <;> rfl

theorem insertEntry_run (hf : Focused env s hdr pos b)
    (hroom : (leafNode s hdr).entriesCount < (leafNode s hdr).maxEntriesCount)
    (hmax : (leafNode s hdr).maxEntriesCount < 2 ^ 16) :
    ∃ t, insertEntry (extDepth s) newext s = (.ok (), t) ∧ Marks s t ∧
      t.nodes = insertedNodes s hdr pos newext ∧
      (∀ i, i ≠ extDepth s → t.path i = s.path i) ∧
      (t.path (extDepth s)).header = hdr (extDepth s) ∧
      (t.path (extDepth s)).block = (s.path (extDepth s)).block ∧
      (t.path (extDepth s)).depth = (s.path (extDepth s)).depth ∧
      (t.path (extDepth s)).extent =
        some (placeFor (leafNode s hdr) (pos (extDepth s)) newext) := by
  have hhdr : (s.path (extDepth s)).header = hdr (extDepth s) := hf.path.header _ le_rfl
  have hleaf := hf.path.leaf
  have hplace := @placeFor_le newext (leafNode s hdr) _ hf.pos_lt
  have hx : ((s.path (extDepth s)).extent.elim 0 fun q =>
      if ((leafNode s hdr).slots q).firstBlock < newext.firstBlock then q + 1 else q) =
      placeFor (leafNode s hdr) (pos (extDepth s)) newext := by
    rw [hleaf]
    unfold placeFor
    by_cases h0 : (leafNode s hdr).entriesCount = 0
    · rw [if_pos h0, if_pos h0]
      rfl
    · rw [if_neg h0, if_neg h0]
      rfl
  have hp : (s.path (extDepth s)).extent.getD
      (placeFor (leafNode s hdr) (pos (extDepth s)) newext) =
      if (leafNode s hdr).entriesCount = 0 then 0 else pos (extDepth s) := by
    rw [hleaf]
    unfold placeFor
    by_cases h0 : (leafNode s hdr).entriesCount = 0
    · rw [if_pos h0, if_pos h0, if_pos h0]
      rfl
    · rw [if_neg h0, if_neg h0, if_neg h0]
      rfl
  have hzero : (if (leafNode s hdr).entriesCount = 0 then 0 else pos (extDepth s)) = 0 ↔
      (leafNode s hdr).entriesCount = 0 ∨ pos (extDepth s) = 0 := by
    split_ifs with h0 <;> simp [h0]
  rw [insertEntry_eq hhdr (show s.nodes (hdr (extDepth s)) = leafNode s hdr from rfl) hx hp]
  unfold insertedNodes
  dsimp only
  generalize placeFor (leafNode s hdr) (pos (extDepth s)) newext = x at hplace ⊢
  generalize (if (leafNode s hdr).entriesCount = 0 then 0 else pos (extDepth s)) = p at hzero ⊢
  have hcount : half ((leafNode s hdr).entriesCount + 1) = (leafNode s hdr).entriesCount + 1 :=
    half_of_eq rfl (by omega)
  rw [modify_bind, modify_bind, if_neg (by omega), modify_bind, hcount, if_neg (by omega),
    setNode_setNode]
  change ∃ t, (do
    ext4ExtCorrectIndexes
    ext4ExtDirty (extDepth s)
    setExtent (extDepth s) x : Ext Unit) (entered s hdr x p newext) = (.ok (), t) ∧ _
  have hDu : extDepth (entered s hdr x p newext) = extDepth s := extDepth_setNode rfl
  have hpu : ((entered s hdr x p newext).path (extDepth s)) =
      { s.path (extDepth s) with extent := some p } := by simp [entered]
  have hway : OnWay (entered s hdr x p newext) hdr pos (extDepth s) := by
    intro i hi
    have hne : i ≠ extDepth s := by omega
    rw [show (entered s hdr x p newext).path i = s.path i by simp [entered, hne]]
    exact hf.onWay i hi
  have hhu : ((entered s hdr x p newext).path (extDepth s)).header = hdr (extDepth s) := by
    rw [hpu]
    exact hhdr
  have hnu : (entered s hdr x p newext).nodes =
      Function.update s.nodes (hdr (extDepth s)) (filled (leafNode s hdr) x newext) := by
    simp [entered]
  obtain ⟨v, hv, hed, hvn⟩ := correctIndexes_run hDu (by rw [hpu]) hway
  have hvp : v.path = (entered s hdr x p newext).path := hed.path
  rw [bind_of_ok hv, dirty_bind]
  refine ⟨_, rfl, ?_, ?_, fun i hi => ?_, ?_, ?_, ?_, ?_⟩
  · refine Marks.trans (marks_dirtied hed.toMarks (by rw [hvp, hhu]) ?_) (marks_setPath _)
    rw [hvp, hpu]
    exact hf.heldAt le_rfl
  · change (dirtied v (extDepth s)).nodes = _
    rw [dirtied_nodes, hvn, hhu, hnu, Function.update_self]
    by_cases h0 : p = 0
    · rw [if_pos h0, if_pos (hzero.mp h0)]
    · rw [if_neg h0, if_neg fun h => h0 (hzero.mpr h)]
  · simp [hi, hvp, entered]
  · simp [hvp, hhu]
  · simp [hvp, hpu]
  · simp [hvp, hpu]
  · simp

/-! ### The tree after it -/

/-- The state after an insertion into the leaf: the tree is sound along the same way, the leaf holds
`newext` at position `x`, and its first entry is the key above it. -/
structure Inserted (env : Env) (s t : St) (hdr : ℕ → Hdr) (pos : ℕ → ℕ) (x b : ℕ)
    (newext : Slot) : Prop where
  depth : extDepth t = extDepth s
  focused : Focused env t hdr (Function.update pos (extDepth s) x) b
  left : leftExts t hdr (Function.update pos (extDepth s) x) = leftExts s hdr pos
  right : rightExts t hdr (Function.update pos (extDepth s) x) = rightExts s hdr pos
  refs : wayRefs t hdr (Function.update pos (extDepth s) x) = wayRefs s hdr pos
  entries : (leafNode t hdr).entries =
    (leafNode s hdr).entries.take x ++ newext :: (leafNode s hdr).entries.drop x
  head : (leafNode t hdr).entries.head?.map Slot.firstBlock = some b

/-- **A new entry of a leaf with room.** -/
theorem insertEntry_ok (hf : Focused env s hdr pos b)
    (hroom : (leafNode s hdr).entriesCount < (leafNode s hdr).maxEntriesCount)
    (hmax : (leafNode s hdr).maxEntriesCount < 2 ^ 16) (hfits : Fits newext)
    (hb : (leafNode s hdr).entriesCount ≠ 0 → ((leafNode s hdr).slots 0).firstBlock = b) :
    ∃ t b', insertEntry (extDepth s) newext s = (.ok (), t) ∧ Marks s t ∧
      Inserted env s t hdr pos (placeFor (leafNode s hdr) (pos (extDepth s)) newext) b' newext := by
  obtain ⟨t, ht, hmarks, hnodes, hpath, hhdr, hblock, hdepth, hext⟩ :=
    @insertEntry_run env s hdr pos b newext hf hroom hmax
  have hplace := @placeFor_le newext (leafNode s hdr) _ hf.pos_lt
  have hd := hf.distinct
  have hleaf : t.nodes (hdr (extDepth s)) =
      filled (leafNode s hdr) (placeFor (leafNode s hdr) (pos (extDepth s)) newext) newext := by
    rw [hnodes]
    unfold insertedNodes
    split_ifs
    · rw [rekey_other fun i hi => hd.ne (by omega) (by omega) (by omega), Function.update_self]
    · rw [Function.update_self]
  have hentries := @filled_entries _ newext (leafNode s hdr) hfits hplace (by omega)
  have hcount := @filled_count (placeFor (leafNode s hdr) (pos (extDepth s)) newext) newext
    (leafNode s hdr) (by omega)
  have hheader : HeaderOk env t.nodes 0 (hdr (extDepth s)) := by
    refine headerOk_congr ?_ (@filled_header env
      (placeFor (leafNode s hdr) (pos (extDepth s)) newext) newext _ _ _ hf.leaf hroom hmax)
    rw [hleaf, Function.update_self]
  have hfirst := @le_placeFor newext (leafNode s hdr) (pos (extDepth s))
  unfold insertedNodes at hnodes
  dsimp only at hnodes
  generalize placeFor (leafNode s hdr) (pos (extDepth s)) newext = x at *
  have halong : Along env s t.nodes hdr pos ∧ KeysFocus t.nodes hdr pos 0
      ((filled (leafNode s hdr) x newext).slots 0).firstBlock (extDepth s) 0 := by
    obtain ⟨h1, h2⟩ := hf.along_leaf (filled (leafNode s hdr) x newext)
    rw [hnodes]
    by_cases h0 : (leafNode s hdr).entriesCount = 0 ∨ pos (extDepth s) = 0
    · rw [if_pos h0]
      exact h1.rekey hf
    · rw [not_or] at h0
      have hx0 : 0 < x := by
        have := hfirst h0.1
        omega
      rw [if_neg (not_or.mpr h0), filled_slots_lt hx0, hb h0.1]
      exact ⟨h1, h2 h0.1⟩
  have hlt : x < (t.nodes (hdr (extDepth s))).entriesCount := by
    rw [hleaf, hcount]
    omega
  obtain ⟨hD, h1, h2, h3, h4⟩ := halong.1.focused halong.2 hf hheader hpath hhdr hblock hdepth hext
    hlt hmarks.pathLive hmarks.used
  have hleaf' : leafNode t hdr = filled (leafNode s hdr) x newext := by
    rw [leafNode, hD, hleaf]
  refine ⟨t, _, ht, hmarks, hD, h1, h2, h3, h4, ?_, ?_⟩
  · rw [hleaf', hentries]
  · rw [hleaf', head_entries (by omega)]
    rfl

end

end Ext4Fsd.Extent.InsertLeaf
