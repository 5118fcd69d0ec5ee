import Ext4Fsd.Extent.Keys
import Ext4Fsd.Extent.Pending

/-! # Getting past a child

Whatever a removal does at a node, the level above it ends up past the child: `path[i].index++`
moves on, and `ext4_ext_remove_idx` takes the entry out under the cursor. Handing keys up on the way
changes nothing but keys (`Touched`). Nothing here depends on the keys, so none of it asks for a
well-formed tree. -/

namespace Ext4Fsd.Extent.Passing

open Ext4Fsd.Lib.Fallible Ext4Fsd.Extent.Layout Ext4Fsd.Extent.Store Ext4Fsd.Extent.Insert
open Ext4Fsd.Extent.Remove Ext4Fsd.Extent.Tree Ext4Fsd.Extent.Way Ext4Fsd.Extent.Keys
open Ext4Fsd.Extent.Pending

/-- The node at level `i` of the path. -/
def headerAt (s : St) (i : ℕ) : Hdr := (s.path i).header

/-- The position at level `i` of the path. -/
def cursorAt (s : St) (i : ℕ) : ℕ := (s.path i).index.getD 0

/-- The path has a position at each of its first `n` levels, and no node twice down to level `n`. -/
structure Steady (s : St) (n : ℕ) : Prop where
  index : ∀ j, j < n → (s.path j).index = some (cursorAt s j)
  distinct : ∀ j j', j ≤ n → j' ≤ n → j ≠ j' → headerAt s j ≠ headerAt s j'

/-- Only keys at the cursors of the first `n` levels have changed. -/
structure Touched (s t : St) (n : ℕ) : Prop where
  path : t.path = s.path
  keys : ∀ j, j < n → SameBeside (s.nodes (headerAt s j)) (t.nodes (headerAt s j)) (cursorAt s j)
  off : ∀ h, (∀ j, j < n → h ≠ headerAt s j) → t.nodes h = s.nodes h

/-- Only the node `h` has changed, and its depth has not. -/
structure Rewrites (s t : St) (h : Hdr) : Prop where
  path : t.path = s.path
  off : ∀ h', h' ≠ h → t.nodes h' = s.nodes h'
  depth : (t.nodes h).depth = (s.nodes h).depth

/-- Level `i` of the path has got past its child. -/
structure Moved (s t : St) (i : ℕ) : Prop where
  passed : Passed s.nodes t.nodes (headerAt s) (headerAt t) (cursorAt s) (cursorAt t) i
  index : ∀ j, j ≤ i → (t.path j).index = some (cursorAt t j)
  depth : ∀ h, (t.nodes h).depth = (s.nodes h).depth

section
variable {s t u : St} {h : Hdr} {n i k p border : ℕ}

theorem cursorAt_of_index (hp : (s.path i).index = some p) : cursorAt s i = p := by
  rw [cursorAt, hp]
  rfl

theorem headerAt_congr (hp : t.path = s.path) : headerAt t = headerAt s := by
  unfold headerAt
  rw [hp]

theorem cursorAt_congr (hp : t.path = s.path) : cursorAt t = cursorAt s := by
  unfold cursorAt
  rw [hp]

theorem Steady.congr (hs : Steady s n) (hp : t.path = s.path) : Steady t n := by
  obtain ⟨h1, h2⟩ := hs
  constructor
  · rwa [cursorAt_congr hp, hp]
  · rwa [headerAt_congr hp]

theorem Steady.mono {m : ℕ} (hs : Steady s n) (hm : m ≤ n) : Steady s m :=
  ⟨fun j hj => hs.index j (by omega), fun j j' hj hj' => hs.distinct j j' (by omega) (by omega)⟩

theorem Touched.refl (s : St) (n : ℕ) : Touched s s n :=
  ⟨rfl, fun _ _ => .refl _ _, fun _ _ => rfl⟩

theorem Touched.trans (h1 : Touched s t n) (h2 : Touched t u n) : Touched s u n := by
  have hh := headerAt_congr h1.path
  have hc := cursorAt_congr h1.path
  refine ⟨h2.path.trans h1.path, fun j hj => ?_, fun h hne => ?_⟩
  · have hkeys := h2.keys j hj
    rw [hh, hc] at hkeys
    exact (h1.keys j hj).trans hkeys
  · rw [h2.off h (by rwa [hh]), h1.off h hne]

theorem Touched.depth (ht : Touched s t n) (h : Hdr) : (t.nodes h).depth = (s.nodes h).depth := by
  by_cases hon : ∃ j, j < n ∧ h = headerAt s j
  · obtain ⟨j, hj, rfl⟩ := hon
    exact (ht.keys j hj).depth
  · rw [ht.off h fun j hj heq => hon ⟨j, hj, heq⟩]

theorem Rewrites.refl (s : St) (h : Hdr) : Rewrites s s h := ⟨rfl, fun _ _ => rfl, rfl⟩

theorem Rewrites.trans (h1 : Rewrites s t h) (h2 : Rewrites t u h) : Rewrites s u h :=
  ⟨h2.path.trans h1.path, fun h' hne => (h2.off h' hne).trans (h1.off h' hne),
    h2.depth.trans h1.depth⟩

theorem rewrites_setNode (eh : Node) (hd : eh.depth = (s.nodes h).depth) :
    Rewrites s (s.setNode h eh) h := by
  refine ⟨rfl, fun h' hne => ?_, ?_⟩
  · rw [setNode_nodes, Function.update_of_ne hne]
  · rw [setNode_nodes, Function.update_self, hd]

/-- A state that differs neither in its nodes nor in its path. -/
theorem Rewrites.congr (ht : Rewrites s t h) (hn : u.nodes = t.nodes) (hp : u.path = t.path) :
    Rewrites s u h := by
  obtain ⟨h1, h2, h3⟩ := ht
  constructor
  · rw [hp, h1]
  · rwa [hn]
  · rwa [hn]

/-! ### Keys -/

theorem setKey_touched (hs : Steady s n) (hi : i < n) :
    ∃ t, setKey i border s = (.ok (), t) ∧ Touched s t n := by
  have hrun : setKey i border s = (.ok (), dirtied (s.setNode (headerAt s i)
      (editSlot (s.nodes (headerAt s i)) (cursorAt s i) (withKey border))) i) := by
    unfold setKey
    rw [get_bind, hs.index i hi, deref_some, pure_bind_apply, setSlot_bind]
    exact dirty_run
  refine ⟨_, hrun, by simp, fun j hj => ?_, fun h hne => ?_⟩
  · rw [dirtied_nodes, setNode_nodes]
    by_cases hij : j = i
    · subst hij
      rw [Function.update_self]
      exact sameBeside_edit _ _
    · rw [Function.update_of_ne (hs.distinct j i (by omega) (by omega) hij)]
      exact .refl _ _
  · rw [dirtied_nodes, setNode_nodes, Function.update_of_ne (hne i hi)]

theorem removeIdxLoop_touched (hs : Steady s n) (hk : k ≤ n) :
    ∃ t, removeIdxLoop k s = (.ok (), t) ∧ Touched s t n := by
  induction k generalizing s with
  | zero => exact ⟨s, rfl, .refl s n⟩
  | succ k ih =>
    unfold removeIdxLoop
    rw [get_bind]
    by_cases h0 : (s.path (k + 1)).index ≠ some 0
    · rw [if_pos h0]
      exact ⟨s, rfl, .refl s n⟩
    · rw [if_neg h0]
      obtain ⟨t, ht, htouch⟩ := @setKey_touched s n k
        ((s.nodes (s.path (k + 1)).header).slots 0).firstBlock hs (by omega)
      obtain ⟨u, hu, htouch'⟩ := ih (hs.congr htouch.path) (by omega)
      exact ⟨u, (bind_of_ok ht).trans hu, htouch.trans htouch'⟩

theorem correctLoop_touched (hs : Steady s n) (hk : k ≤ n) :
    ∃ t, correctLoop border k s = (.ok (), t) ∧ Touched s t n := by
  induction k generalizing s with
  | zero => exact ⟨s, rfl, .refl s n⟩
  | succ k ih =>
    unfold correctLoop
    rw [get_bind]
    by_cases h0 : (s.path (k + 1)).index ≠ some 0
    · rw [if_pos h0]
      exact ⟨s, rfl, .refl s n⟩
    · rw [if_neg h0]
      obtain ⟨t, ht, htouch⟩ := @setKey_touched s n k border hs (by omega)
      obtain ⟨u, hu, htouch'⟩ := ih (hs.congr htouch.path) (by omega)
      exact ⟨u, (bind_of_ok ht).trans hu, htouch.trans htouch'⟩

theorem correctIndexes_touched (hs : Steady s n) (hD : extDepth s = n)
    (hp : (s.path n).extent = some p) :
    ∃ t, ext4ExtCorrectIndexes s = (.ok (), t) ∧ Touched s t n := by
  unfold ext4ExtCorrectIndexes
  rw [get_bind, hD, hp]
  dsimp only
  by_cases h0 : n = 0
  · rw [if_pos h0]
    exact ⟨s, rfl, .refl s n⟩
  rw [if_neg h0]
  by_cases hp0 : p ≠ 0
  · rw [if_pos hp0]
    exact ⟨s, rfl, .refl s n⟩
  rw [if_neg hp0]
  obtain ⟨t, ht, htouch⟩ := @setKey_touched s n (n - 1)
    ((s.nodes (s.path n).header).slots p).firstBlock hs (by omega)
  obtain ⟨u, hu, htouch'⟩ := @correctLoop_touched t n (n - 1)
    ((s.nodes (s.path n).header).slots p).firstBlock (hs.congr htouch.path) (by omega)
  exact ⟨u, (bind_of_ok ht).trans hu, htouch.trans htouch'⟩

/-! ### Cursors -/

theorem nextIndex_moved (hs : Steady s (i + 1)) :
    ∃ t, nextIndex i s = (.ok (), t) ∧ Moved s t i := by
  obtain ⟨t, hrun, hn, hh, hx, hoff⟩ : ∃ t, nextIndex i s = (.ok (), t) ∧ t.nodes = s.nodes ∧
      (t.path i).header = (s.path i).header ∧ (t.path i).index = some (cursorAt s i + 1) ∧
      ∀ j, j ≠ i → t.path j = s.path j := by
    refine ⟨_, rfl, rfl, by simp, ?_, fun j hj => by simp [hj]⟩
    rw [setPath_path, Function.update_self, hs.index i (by omega)]
    rfl
  have hheader : ∀ j, headerAt t j = headerAt s j := fun j => by
    by_cases hij : j = i
    · rw [hij]
      exact hh
    · rw [headerAt, headerAt, hoff j hij]
  have hcursor : ∀ j, j ≠ i → cursorAt t j = cursorAt s j := fun j hj => by
    rw [cursorAt, cursorAt, hoff j hj]
  refine ⟨t, hrun, ⟨⟨fun j _ => hheader j, fun j hj => hcursor j (by omega), fun j _ => ?_, ?_, ?_,
    fun h _ => by rw [hn]⟩, fun j hj => ?_, fun h => by rw [hn]⟩⟩
  · rw [hn]
    exact .refl _ _
  · rw [hn, cursorAt_of_index hx]
  · rw [hn]
  · by_cases hij : j = i
    · rw [hij, hx, cursorAt_of_index hx]
    · rw [hoff j hij, hcursor j hij]
      exact hs.index j (by omega)

/-- What is left after the entry at the cursor was taken out. -/
theorem closeGap_entries {eh : Node} (hp : p < eh.entriesCount) (hw : eh.entriesCount < 2 ^ 16) :
    (closeGap eh p).entriesCount = eh.entriesCount - 1 ∧
      (closeGap eh p).entries = eh.entries.take p ++ eh.entries.drop (p + 1) := by
  have hcount : (closeGap eh p).entriesCount = eh.entriesCount - 1 :=
    half_of_eq (by omega) (by omega)
  refine ⟨hcount, entries_erase (by omega) (by omega) (by omega) (fun j hj => ?_)
    fun j h1 h2 => ?_⟩
  · exact memmove_out (by omega)
  · refine (memmove_in (by omega) (by omega)).trans ?_
    congr 1
    omega

theorem removeIdx_moved (hs : Steady s (i + 1))
    (hp : cursorAt s i < (s.nodes (headerAt s i)).entriesCount)
    (hw : (s.nodes (headerAt s i)).entriesCount < 2 ^ 16) :
    ∃ t, ext4ExtRemoveIdx i s = (.ok (), t) ∧ t.path = s.path ∧ Moved s t i := by
  obtain ⟨hcount, hentries⟩ := closeGap_entries hp hw
  generalize hs1 : s.setNode (headerAt s i) (closeGap (s.nodes (headerAt s i)) (cursorAt s i)) = s1
  have hp1 : s1.path = s.path := by rw [← hs1]; rfl
  have hat1 : s1.nodes (headerAt s i) = closeGap (s.nodes (headerAt s i)) (cursorAt s i) := by
    rw [← hs1, setNode_nodes, Function.update_self]
  have hoff1 : ∀ h, h ≠ headerAt s i → s1.nodes h = s.nodes h := fun h hne => by
    rw [← hs1, setNode_nodes, Function.update_of_ne hne]
  obtain ⟨s2, hfree, hn2, hp2⟩ : ∃ s2, ext4ExtFreeBlocks (ext4IdxPblock
      ((s.nodes (headerAt s i)).slots (cursorAt s i))) 1 (dirtied s1 i) = (.ok (), s2) ∧
      s2.nodes = s1.nodes ∧ s2.path = s.path :=
    ⟨_, rfl, by simp, by simp [hp1]⟩
  obtain ⟨t, ht, htouch⟩ := @removeIdxLoop_touched s2 i i
    ((hs.mono (by omega)).congr hp2) le_rfl
  have hrun : ext4ExtRemoveIdx i s = (.ok (), t) := by
    unfold ext4ExtRemoveIdx
    rw [get_bind, hs.index i (by omega), deref_some, pure_bind_apply, modify_bind]
    have hs1' : s.setNode (s.path i).header
      (closeGap (s.nodes (s.path i).header) (cursorAt s i)) = s1 := hs1
    rw [hs1', dirty_bind]
    exact (bind_of_ok hfree).trans ht
  have hpath : t.path = s.path := htouch.path.trans hp2
  have hh := headerAt_congr hpath
  have hc := cursorAt_congr hpath
  have hh2 := headerAt_congr hp2
  have hkeys : ∀ j, j < i →
      SameBeside (s.nodes (headerAt s j)) (t.nodes (headerAt s j)) (cursorAt s j) := fun j hj => by
    have := htouch.keys j hj
    rwa [hh2, cursorAt_congr hp2, hn2,
      hoff1 _ (hs.distinct j i (by omega) (by omega) (by omega))] at this
  have hat : t.nodes (headerAt s i) = closeGap (s.nodes (headerAt s i)) (cursorAt s i) := by
    rw [htouch.off _ fun j hj => ?_, hn2, hat1]
    rw [hh2]
    exact hs.distinct i j (by omega) (by omega) (by omega)
  refine ⟨t, hrun, hpath, ⟨⟨fun j _ => by rw [hh], fun j _ => by rw [hc], hkeys, ?_, ?_,
    fun h hne => ?_⟩, fun j hj => ?_, fun h => ?_⟩⟩
  · have hlen : ((s.nodes (headerAt s i)).entries.take (cursorAt s i)).length = cursorAt s i := by
      rw [List.length_take, length_entries]
      omega
    rw [hc, hat, hentries, List.drop_append_of_le_length (by omega), List.drop_eq_nil_of_le
      (by omega), List.nil_append]
  · rw [hat, hcount]
    omega
  · rw [htouch.off h fun j hj => ?_, hn2, hoff1 h (hne i (by omega))]
    rw [hh2]
    exact hne j (by omega)
  · rw [hc, hpath]
    exact hs.index j (by omega)
  · rw [htouch.depth h, hn2]
    by_cases hon : h = headerAt s i
    · rw [hon, hat1]
      rfl
    · rw [hoff1 h hon]

/-! ### Before and after -/

/-- What is done to the child before counts for nothing. -/
theorem Moved.of_rewrites (hs : Steady s (i + 1)) (hr : Rewrites s t (headerAt s (i + 1)))
    (hm : Moved t u i) : Moved s u i := by
  have hh := headerAt_congr hr.path
  have hc := cursorAt_congr hr.path
  have hsame : ∀ j, j ≤ i → t.nodes (headerAt s j) = s.nodes (headerAt s j) := fun j hj =>
    hr.off _ (hs.distinct j (i + 1) (by omega) (by omega) (by omega))
  obtain ⟨⟨h1, h2, h3, h4, h5, h6⟩, h7, h8⟩ := hm
  rw [hh] at h1 h3 h4 h5 h6
  rw [hc] at h2 h3
  refine ⟨⟨h1, h2, fun j hj => ?_, ?_, ?_, fun h hne => ?_⟩, h7, fun h => ?_⟩
  · rw [← hsame j (by omega)]
    exact h3 j hj
  · rw [h4, after, after, hc, hsame i le_rfl]
  · rwa [← hsame i le_rfl]
  · rw [h6 h hne, hr.off h (hne (i + 1) le_rfl)]
  · rw [h8]
    by_cases hon : h = headerAt s (i + 1)
    · rw [hon, hr.depth]
    · rw [hr.off h hon]

/-- So do keys handed up before. -/
theorem Moved.of_touched (ht : Touched s t (i + 1)) (hm : Moved t u i) : Moved s u i := by
  have hh := headerAt_congr ht.path
  have hc := cursorAt_congr ht.path
  obtain ⟨⟨h1, h2, h3, h4, h5, h6⟩, h7, h8⟩ := hm
  rw [hh] at h1 h3 h4 h5 h6
  rw [hc] at h2 h3
  refine ⟨⟨h1, h2, fun j hj => ?_, ?_, ?_, fun h hne => ?_⟩, h7, fun h => ?_⟩
  · exact (ht.keys j (by omega)).trans (h3 j hj)
  · rw [h4, after, after, hc, (ht.keys i (by omega)).drop]
  · rwa [← (ht.keys i (by omega)).entries]
  · rw [h6 h hne, ht.off h fun j hj => hne j (by omega)]
  · rw [h8, ht.depth]

/-- Blocks of the path may be released afterwards. -/
theorem Moved.of_path (hm : Moved s t i) (hn : u.nodes = t.nodes)
    (hp : ∀ j, (u.path j).header = (t.path j).header ∧ (u.path j).index = (t.path j).index) :
    Moved s u i := by
  have hh : headerAt u = headerAt t := funext fun j => (hp j).1
  have hc : cursorAt u = cursorAt t := funext fun j => by unfold cursorAt; rw [(hp j).2]
  obtain ⟨h1, h2, h3⟩ := hm
  refine ⟨?_, fun j hj => ?_, ?_⟩
  · rwa [hn, hh, hc]
  · rw [(hp j).2, hc]
    exact h2 j hj
  · rwa [hn]

end

end Ext4Fsd.Extent.Passing
