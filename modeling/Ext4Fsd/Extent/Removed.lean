import Ext4Fsd.Extent.RemoveSpace

/-! # A removal from the outside

`RemovedTo` is what a call of `ext4_extent_remove_space` leaves: a well-formed tree, the extents it
has come past with their part of the range gone, the others as they were, and freed what is gone. It
holds whatever the block layer refuses. When nothing is refused and the first block of the range is
mapped the whole range is gone (`removeSpace_unmaps`); when that block is not mapped nothing is
removed, even where the rest of the range is mapped. -/

namespace Ext4Fsd.Extent.Removed

open Ext4Fsd.Lib.CInt Ext4Fsd.Lib.Fallible Ext4Fsd.Lib.Intervals Ext4Fsd.Lib.Levels
open Ext4Fsd.Extent.Layout Ext4Fsd.Extent.Store Ext4Fsd.Extent.Search Ext4Fsd.Extent.Insert
open Ext4Fsd.Extent.Remove Ext4Fsd.Extent.Tree Ext4Fsd.Extent.Mapping Ext4Fsd.Extent.Way
open Ext4Fsd.Extent.Found Ext4Fsd.Extent.Lookup Ext4Fsd.Extent.Prepared Ext4Fsd.Extent.Pending
open Ext4Fsd.Extent.Passing Ext4Fsd.Extent.ReadBlocks Ext4Fsd.Extent.RemoveEnds
open Ext4Fsd.Extent.Linked Ext4Fsd.Extent.LeafCut Ext4Fsd.Extent.Sweep Ext4Fsd.Extent.RemoveSpace

/-- The node lies apart from the blocks of the extent. -/
def ApartFrom (x : Slot) : Hdr → Prop
  | .inode => True
  | .block b => b < ext4ExtPblock x ∨ ext4ExtPblock x + ext4ExtGetActualLen x ≤ b

/-- No block of the tree is a data block of the file. -/
def DataApart (s : St) : Prop := ∀ x ∈ treeExts s, ∀ h ∈ treeRefs s, ApartFrom x h

instance (x : Slot) : ∀ h, Decidable (ApartFrom x h)
  | .inode => isTrue trivial
  | .block b => inferInstanceAs (Decidable (b < ext4ExtPblock x ∨
      ext4ExtPblock x + ext4ExtGetActualLen x ≤ b))

instance (s : St) : Decidable (DataApart s) := by
  unfold DataApart
  infer_instance

/-- **From `s` to `t` the range is removed from the extents `past`**, and the blocks `removed` of
the tree are freed. -/
structure RemovedTo (env : Env) (lo hi : ℕ) (s t : St) (past rest : List Slot) (removed : List ℕ) :
    Prop where
  tree : TreeOk env t
  split : treeExts s = past ++ rest
  exts : treeExts t = past.flatMap (keep lo hi) ++ rest
  refs : (treeRefs s).Perm (treeRefs t ++ removed.map Hdr.block)
  freed : Freed s t (past.flatMap (gone lo hi)) removed

section
variable {env : Env} {lo hi i g D b turns : ℕ} {s₀ s t u : St} {past rest done l r : List Slot}
  {live : List Hdr} {removed : List ℕ} {hdr : ℕ → Hdr} {pos : ℕ → ℕ}

/-! ### What is left is a tree -/

theorem extOk_kept (hl : ∀ x ∈ past ++ rest, ExtOk x) :
    ∀ x ∈ past.flatMap (keep lo hi) ++ rest, ExtOk x := by
  intro x hx
  rcases List.mem_append.mp hx with hx | hx
  · obtain ⟨y, hy, hx⟩ := List.mem_flatMap.mp hx
    exact (keep_spec (hl y (List.mem_append_left _ hy)) hx).1
  · exact hl x (List.mem_append_right _ hx)

theorem sorted_kept (hlh : lo ≤ hi) (hl : ∀ x ∈ past ++ rest, ExtOk x)
    (hs : Sorted (past ++ rest)) :
    Sorted (past.flatMap (keep lo hi) ++ rest) := by
  obtain ⟨h1, h2, h3⟩ := ordered_append.mp hs
  refine ordered_append.mpr ⟨sorted_flatMap_keep hlh (fun x hx => hl x
    (List.mem_append_left _ hx)) h1, h2, fun x hx y hy => ?_⟩
  obtain ⟨z, hz, hx⟩ := List.mem_flatMap.mp hx
  obtain ⟨-, -, hend, -⟩ := keep_spec (hl z (List.mem_append_left _ hz)) hx
  exact hend.trans (h3 z hz y hy)

/-- What was freed is not a block of the tree that is left. -/
theorem freed_not_tree (hf : Freed s t (past.flatMap (gone lo hi)) removed)
    (hpast : ∀ x ∈ past, x ∈ treeExts s) (hapart : DataApart s) (hnd : (treeRefs s).Nodup)
    (hrefs : (treeRefs s).Perm (live ++ removed.map Hdr.block)) (hb : Hdr.block b ∈ live) :
    t.used b = s.used b := by
  obtain ⟨runs, hperm, -, hused⟩ := hf
  rw [hused]
  refine if_neg ?_
  rintro ⟨r, hr, h1, h2⟩
  rcases List.mem_append.mp (hperm.subset hr) with hr | hr
  · obtain ⟨x, hx, hr⟩ := List.mem_flatMap.mp hr
    obtain ⟨h3, h4⟩ := gone_within hr
    have hb' := hapart x (hpast x hx) _ (hrefs.mem_iff.mpr (List.mem_append_left _ hb))
    unfold ApartFrom at hb'
    omega
  · obtain ⟨c, hc, rfl⟩ := List.mem_map.mp hr
    dsimp only at h1 h2
    obtain rfl : c = b := by omega
    exact (List.nodup_append.mp (hrefs.nodup_iff.mp hnd)).2.2 _ hb _
      (List.mem_map.mpr ⟨c, hc, rfl⟩) rfl

/-- A tree that is read as the account says. -/
theorem removedTo_of_account (ht : TreeOk env s₀) (hapart : DataApart s₀) (hlh : lo ≤ hi)
    (ha : Account lo hi s₀ t done rest live past removed)
    (hshape : Tree.Sub env t.nodes (extDepth t) .inode ∨ EmptyRoot env t.nodes)
    (he : treeExts t = done ++ rest) (hr : (treeRefs t).Perm live) :
    RemovedTo env lo hi s₀ t past rest removed := by
  obtain ⟨h1, h2, h3, h4⟩ := ha
  rw [h2] at he
  have hrefs := h4.trans (hr.symm.append_right _)
  have hok := ht.extOk
  have hsorted := ht.sorted
  rw [h1] at hok hsorted
  refine ⟨⟨hshape, ?_, ?_, ?_, fun b hb => ?_⟩, h1, he, hrefs, h3⟩
  · rw [he]
    exact extOk_kept hok
  · rw [he]
    exact sorted_kept hlh hok hsorted
  · exact (List.nodup_append.mp (hrefs.nodup_iff.mp ht.nodup)).1
  · rw [freed_not_tree h3 (fun x hx => by rw [h1]; exact List.mem_append_left _ hx) hapart ht.nodup
      hrefs hb]
    exact ht.used b (hrefs.mem_iff.mpr (List.mem_append_left _ hb))

/-- Where the removal has stopped. -/
theorem halted_removedTo (hw : Halted env lo hi s₀ s) (ht : TreeOk env s₀) (hapart : DataApart s₀)
    (hlh : lo ≤ hi) : ∃ past rest removed, RemovedTo env lo hi s₀ s past rest removed := by
  obtain ⟨i, g, front, back, hw, hl, hne⟩ := hw
  obtain ⟨hsub, hexts, hrefs⟩ := hw.read hl (by simp [hne])
  obtain ⟨past, removed, ha⟩ := hw.account
  exact ⟨past, _, removed, removedTo_of_account ht hapart hlh ha (Or.inl hsub) hexts hrefs⟩

/-- When the removal is over a root without entries becomes a leaf again. -/
theorem resetRoot_removedTo (hw : Swept env lo hi s₀ s) (ht : TreeOk env s₀) (hapart : DataApart s₀)
    (hlh : lo ≤ hi) :
    ∃ t past removed, resetRoot s = (.ok (), t) ∧ RemovedTo env lo hi s₀ t past [] removed := by
  obtain ⟨g, front, hw⟩ := hw
  have htodo : todoExts s 0 g [] = [] := by
    unfold todoExts
    rw [below_nil]
    rfl
  have hroot : s.nodes (s.path 0).header = s.nodes .inode := congrArg s.nodes hw.root
  have hentries := hw.entries
  rw [hw.root, List.append_nil] at hentries
  have hcount : (s.nodes .inode).entriesCount = front.length := by
    rw [← length_entries, hentries]
  obtain ⟨past, removed, ha⟩ := hw.account
  unfold resetRoot
  rw [get_bind, hroot]
  by_cases h0 : (s.nodes .inode).entriesCount = 0
  · obtain rfl : front = [] := List.length_eq_zero_iff.mp (hcount ▸ h0)
    rw [runIf_pos h0, modify_bind]
    generalize hv : dirtied (s.setNode .inode { s.nodes .inode with
      depth := 0, maxEntriesCount := ext4ExtSpaceRoot }) 0 = v
    have hn : v.nodes .inode = { s.nodes .inode with
        depth := 0, maxEntriesCount := ext4ExtSpaceRoot } := by
      rw [← hv, dirtied_nodes, setNode_nodes, Function.update_self]
    have hD : extDepth v = 0 := by
      unfold extDepth
      rw [hn]
    have hempty : (v.nodes .inode).entries = [] := by
      rw [entries_eq_nil, hn]
      exact h0
    have hdone : doneExts s 0 g [] = [] := by
      unfold doneExts
      rw [below_nil]
      rfl
    have hlive : liveRefs s 0 g ([] ++ []) = [.inode] := by
      unfold liveRefs
      rw [hdrs_last, hw.root]
      cases g <;> rfl
    obtain ⟨h1, h2, ⟨runs, h3, h4, h5⟩, h6⟩ := ha
    rw [hlive] at h6
    rw [htodo] at h1
    have hheader := hw.header
    rw [hw.root] at hheader
    refine ⟨v, past, removed, by rw [← hv]; exact dirty_run, removedTo_of_account ht hapart hlh
      ⟨h1, h2, ⟨runs, h3, ?_, ?_⟩, h6⟩ (Or.inr ⟨⟨?_, ?_, ?_, ?_, ?_⟩, hempty⟩) ?_ ?_⟩
    · rw [← hv, dirtied_freed]
      exact h4
    · rw [← hv, dirtied_used]
      exact h5
    · rw [hn]
      exact hheader.magic
    · rw [hn]
    · rw [hn]
      simp [ext4ExtSpaceRoot]
    · rw [hn]
      rfl
    · rw [hn]
      show (s.nodes .inode).entriesCount ≤ _
      omega
    · unfold treeExts
      rw [hD, hdone]
      exact hempty
    · unfold treeRefs
      rw [hD]
      rfl
  · rw [runIf_neg h0]
    have hne : front ++ [] ≠ [] := by
      rw [List.append_nil]
      exact fun hnil => h0 (by rw [hcount, hnil]; rfl)
    obtain ⟨hsub, hexts, hrefs⟩ := hw.read (fun j hj => by omega) hne
    rw [htodo] at ha hexts
    exact ⟨s, past, removed, rfl, removedTo_of_account ht hapart hlh ha (Or.inl hsub) hexts hrefs⟩

/-! ### The start -/

/-- The tree cut along the path of a lookup. -/
theorem located_open (hloc : Located env s b hdr pos)
    (hne : (s.nodes (hdr (extDepth s))).entriesCount ≠ 0) :
    Tree.Sub env s.nodes 0 (hdr (extDepth s)) ∧
      (∀ j, j < extDepth s → (cur s.nodes hdr pos j).firstBlock =
        ((s.nodes (hdr (j + 1))).slots 0).firstBlock) ∧
      (treeRefs s).Perm (hdrs hdr (extDepth s) 0 ++ sibRefs s.nodes hdr pos 0 (extDepth s) 0 ++
        [hdr (extDepth s)]) := by
  have hroot : hdr 0 = .inode := hloc.path.root
  have hsub : Tree.Sub env s.nodes (0 + extDepth s) (hdr 0) := by
    rw [hroot, Nat.zero_add]
    rcases hloc.tree.shape with hs | ⟨hh, hnil⟩
    · exact hs
    · rw [show extDepth s = 0 from hh.depth, hroot] at hne
      exact absurd (entries_eq_nil.mp hnil) hne
  obtain ⟨hspine, hkeys, hleaf⟩ := spine_open hloc.onPath hsub
  have hlinks := (keys_iff_first hspine hleaf).mp hkeys
  have hrefs := refs_spine (g := 0) hloc.onPath
  rw [Nat.zero_add] at hleaf hrefs
  rw [hroot] at hrefs
  exact ⟨hleaf, fun j hj => hlinks j (by omega) (by omega), hrefs⟩

/-- The extents before the one the block lies in, and those from it on. -/
theorem located_split (hloc : Located env s b hdr pos)
    (hne : (s.nodes (hdr (extDepth s))).entriesCount ≠ 0)
    (hin : Holds (cur s.nodes hdr pos (extDepth s)) b) :
    treeExts s = (lefts s.nodes hdr pos 0 (extDepth s) 0 ++ before s.nodes hdr pos (extDepth s)) ++
        ((s.nodes (hdr (extDepth s))).entries.drop (pos (extDepth s)) ++
          rights s.nodes hdr pos 0 (extDepth s) 0) ∧
      (∀ x ∈ lefts s.nodes hdr pos 0 (extDepth s) 0 ++ before s.nodes hdr pos (extDepth s),
        extEnd x ≤ b) ∧
      ∀ x ∈ (s.nodes (hdr (extDepth s))).entries.drop (pos (extDepth s)) ++
        rights s.nodes hdr pos 0 (extDepth s) 0, b < extEnd x := by
  obtain ⟨-, hexts, hright, -⟩ := hloc.around hne
  have hsorted := hloc.tree.sorted
  have hok := hloc.tree.extOk
  have hcons : (s.nodes (hdr (extDepth s))).entries.drop (pos (extDepth s)) =
      cur s.nodes hdr pos (extDepth s) :: after s.nodes hdr pos (extDepth s) :=
    drop_cons (hloc.leaf hne).lt
  rw [hexts] at hsorted hok
  rw [hcons, List.cons_append]
  refine ⟨hexts, fun x hx => ?_, fun x hx => ?_⟩
  · exact ((ordered_middle hsorted).1 x hx).trans hin.1
  · rcases List.mem_cons.mp hx with rfl | hx
    · exact hin.2
    · have := hright x hx
      have := (hok x (List.mem_append_right _ (List.mem_cons_of_mem _ hx))).lt_end
      omega

/-- **The removal starts at the extent of its first block.** -/
theorem sweeping_start (hloc : Located env s lo hdr pos)
    (hne : (s.nodes (hdr (extDepth s))).entriesCount ≠ 0)
    (hin : Holds (cur s.nodes hdr pos (extDepth s)) lo) (hlow : ∀ x ∈ treeExts s, extEnd x ≤ 2 ^ 31)
    (hone : ∀ x ∈ treeExts s, lo ≤ x.firstBlock ∨ extEnd x ≤ hi + 1) (hlh : lo ≤ hi) :
    Sweeping env lo hi s (extDepth s) 0 (before s.nodes hdr pos (extDepth s))
      ((s.nodes (hdr (extDepth s))).entries.drop (pos (extDepth s))) s := by
  obtain ⟨hleaf, -, hrefs⟩ := located_open hloc hne
  obtain ⟨hsplit, hpast, hahead⟩ := located_split hloc hne hin
  obtain ⟨hspine, -⟩ := hloc.around hne
  have hpath := hloc.path
  have hok := hloc.tree.extOk
  have hsorted := hloc.tree.sorted
  have hheader : ∀ j, j ≤ extDepth s → headerAt s j = hdr j := hpath.header
  have hcursor : ∀ j, j < extDepth s → cursorAt s j = pos j := fun j hj =>
    cursorAt_of_index (hpath.index j hj)
  obtain ⟨hl, hr, hsib, hhdrs⟩ := @reads_congr s.nodes hdr pos 0 (extDepth s) 0 (headerAt s)
    (cursorAt s) (fun j _ hj => hheader j (by omega)) fun j _ hj => hcursor j (by omega)
  have htodo : ∀ back, todoExts s (extDepth s) 0 back =
      back ++ rights s.nodes hdr pos 0 (extDepth s) 0 := fun back => by
    unfold todoExts
    rw [hr]
    rfl
  rw [hsplit] at hok hsorted hlow hone
  obtain ⟨hkeep, hgone⟩ := flatMap_keep_before (fun x hx => hok x (List.mem_append_left _ hx)) hlh
    hpast
  refine ⟨(hheader 0 (by omega)).trans hpath.root, fun j hj => ?_, ?_, ?_, ?_, trivial,
    fun x hx => ?_, ?_,
    lefts s.nodes hdr pos 0 (extDepth s) 0 ++ before s.nodes hdr pos (extDepth s), [], ?_, ?_,
    ⟨[], ?_, ?_, ?_⟩, ?_⟩
  · rw [hpath.index j hj, hcursor j hj]
  · exact (spine_congr_way (fun j _ hj => hheader j (by omega)) fun j _ hj =>
      hcursor j (by omega)).mpr hspine
  · rw [hheader _ le_rfl]
    exact hleaf.header
  · rw [hheader _ le_rfl, List.take_append_drop]
  · rw [htodo] at hx
    have hmem := List.mem_append_right (lefts s.nodes hdr pos 0 (extDepth s) 0 ++
      before s.nodes hdr pos (extDepth s)) hx
    exact ⟨⟨hok x hmem, hlow x hmem⟩, hahead x hx, hone x hmem⟩
  · rw [htodo]
    exact (ordered_append.mp hsorted).2.1
  · rw [htodo]
    exact hsplit
  · rw [hkeep]
    unfold doneExts
    rw [hl]
    rfl
  · rw [hgone]
    rfl
  · rw [freeRuns_nil]
  · rw [freeRuns_nil]
  · refine hrefs.trans ?_
    unfold liveRefs
    rw [hsib, hdrs_last, hhdrs, hheader _ le_rfl, ← Multiset.coe_eq_coe]
    simp only [belowRefs, List.map_nil, ← Multiset.coe_add, Multiset.coe_nil, add_zero]
    abel

theorem atLeaf_start (hloc : Located env s lo hdr pos)
    (hne : (s.nodes (hdr (extDepth s))).entriesCount ≠ 0)
    (hin : Holds (cur s.nodes hdr pos (extDepth s)) lo) (hlow : ∀ x ∈ treeExts s, extEnd x ≤ 2 ^ 31)
    (hone : ∀ x ∈ treeExts s, lo ≤ x.firstBlock ∨ extEnd x ≤ hi + 1) (hlh : lo ≤ hi) :
    AtLeaf env lo hi s (extDepth s) s := by
  obtain ⟨-, hlinks, hrefs⟩ := located_open hloc hne
  obtain ⟨hsplit, -⟩ := located_split hloc hne hin
  have hpath := hloc.path
  have hlt := (hloc.leaf hne).lt
  have hsublist : (before s.nodes hdr pos (extDepth s) ++
      (s.nodes (hdr (extDepth s))).entries.drop (pos (extDepth s))).Sublist (treeExts s) := by
    rw [hsplit, List.append_assoc]
    exact (List.Sublist.append_left (List.sublist_append_left _ _) _).trans
      (List.sublist_append_right _ _)
  refine ⟨_, _, sweeping_start hloc hne hin hlow hone hlh, fun j hj => ?_, ?_, ?_,
    hloc.tree.sorted.sublist hsublist, fun x hx => ⟨hloc.tree.extOk x (hsublist.subset hx),
    hlow x (hsublist.subset hx)⟩, _, _, drop_cons hlt, hin.1.trans hlh⟩
  · have hlink := hlinks j hj
    unfold LinkedAt firstKey cur at *
    rw [show headerAt s j = hdr j from hpath.header j (by omega),
      show headerAt s (j + 1) = hdr (j + 1) from hpath.header (j + 1) hj,
      cursorAt_of_index (hpath.index j hj)]
    exact hlink
  · rw [hpath.leaf, if_neg hne, List.length_take, length_entries, Nat.min_eq_left hlt.le]
  · rcases Nat.eq_zero_or_pos (extDepth s) with h0 | h0
    · rw [h0]
      exact ⟨fun _ => rfl, fun _ => hpath.rootBlock⟩
    · have hheld := hpath.held _ h0 le_rfl
      have hmem : hdr (extDepth s) ∈ treeRefs s := hrefs.mem_iff.mpr (by simp)
      rw [hheld] at hmem
      have := (hloc.tree.used _ hmem).2
      exact ⟨fun h => absurd h this, fun h => by omega⟩

/-! ### The whole call -/

theorem checked_of_sub {nodes : Nodes} {k : ℕ} {h : Hdr} (hsize : SizeOk env)
    (hs : Tree.Sub env nodes k h) : Checked nodes k h := by
  have hnode : ∀ {k h}, Tree.Sub env nodes k h → NodeChecked nodes k h := fun hs =>
    ⟨HeaderOk.check hs.header, hs.entriesCount_pos, by
      have := max_lt hsize hs.header
      have := hs.header.entries_le
      omega⟩
  induction k generalizing h with
  | zero => exact hnode hs
  | succ k ih => exact ⟨hnode hs, fun ix hix => ih (hs.2.2 ix hix).1⟩

/-- The loop leaves a tree that is swept, or halts at a block that is refused. -/
theorem removeLoop_leaves (ht : TreeOk env s) (hsize : SizeOk env) (hlh : lo ≤ hi)
    (hhi : hi < 2 ^ 31) (hw : OnWalk (extDepth s) (extDepth s) s)
    (hat : AtLeaf env lo hi s (extDepth s) s)
    (hn : extDepth s + 1 + 2 * (todo (extDepth s) (extDepth s) s).length ≤ turns) :
    (∃ t, removeLoop env (extDepth s) lo hi turns (some (extDepth s)) s = (.ok (), t) ∧
        Swept env lo hi s t) ∨
      ∃ e t, removeLoop env (extDepth s) lo hi turns (some (extDepth s)) s = (.error e, t) ∧
        ReadRefused env e ∧ Halted env lo hi s t := by
  have hafter : ∀ i u, AtTurn env lo hi s (extDepth s) i u →
      After env lo hi s (extDepth s) (removeTurn env (extDepth s) lo hi i u) := fun i u hu =>
    removeTurn_after hu ht.nodup (fun b hb => (ht.used b hb).2) hsize hlh hhi
  unfold removeLoop
  refine @levelLoop_leaves _ _ _ _ Errno.running (readAt (extDepth s) hi)
    (fun i u l => (OnWalk (extDepth s) i u ∧ l = todo (extDepth s) i u) ∧
      AtTurn env lo hi s (extDepth s) i u) (ReadRefused env) (Swept env lo hi s)
    (fun e u => ReadRefused env e ∧ Halted env lo hi s u) ?_ ?_ ?_ turns (extDepth s) s _
    ⟨⟨hw, rfl⟩, Or.inr ⟨rfl, hat⟩⟩ hn
  · rintro i u l ⟨⟨hu, rfl⟩, hau⟩
    refine (removeTurn_progress hu).and fun j t hj => ?_
    have := hafter i u hau
    rw [hj] at this
    exact this
  · rintro i u l t ⟨-, hau⟩ hrun
    have := hafter i u hau
    rw [hrun] at this
    exact this
  · rintro i u l e t ⟨-, hau⟩ hrun
    have := hafter i u hau
    rw [hrun] at this
    exact this

/-- The block is mapped. -/
def Mapped (s : St) (n : ℕ) : Prop := ∃ x ∈ treeExts s, Holds x n

theorem RemovedTo.refl (ht : TreeOk env s) : RemovedTo env lo hi s s [] (treeExts s) [] :=
  ⟨ht, rfl, rfl, by simp, [], by simp, by simp, by simp⟩

theorem RemovedTo.congr (h : RemovedTo env lo hi s₀ t past rest removed)
    (hs : core s₀ = core s) (hu : core u = core t) : RemovedTo env lo hi s u past rest removed := by
  obtain ⟨h1, h2, h3, h4, runs, h5, h6, h7⟩ := h
  have hn : s₀.nodes = s.nodes := congrArg Prod.fst hs
  have hn' : u.nodes = t.nodes := congrArg Prod.fst hu
  have hused : s₀.used = s.used := congrArg (fun x => x.2.1) hs
  have hused' : u.used = t.used := congrArg (fun x => x.2.1) hu
  have hfreed : s₀.freed = s.freed := congrArg (fun x => x.2.2.1) hs
  have hfreed' : u.freed = t.freed := congrArg (fun x => x.2.2.1) hu
  unfold treeExts treeRefs extDepth freeRuns at *
  rw [hn] at h2 h4
  rw [hfreed] at h6
  rw [hused] at h7
  refine ⟨TreeOk.of_core h1 hn' hused', h2, ?_, ?_, runs, h5, hfreed'.trans h6, hused'.trans h7⟩
  · unfold treeExts extDepth
    rwa [hn']
  · unfold treeRefs extDepth
    rwa [hn']

/-- What a removal may come to: the mapped first block decides whether anything is removed, and only
the block layer stops it. -/
structure Outcome (env : Env) (lo : ℕ) (s : St) (r : Except Errno Unit) (past rest : List Slot)
    (removed : List ℕ) : Prop where
  mapped : Mapped s lo → r = .ok () → rest = []
  unmapped : ¬ Mapped s lo → past = [] ∧ removed = []
  noFail : NoFail env → r = .ok ()

/-- **The part after the lookup.** -/
theorem removeFound_spec (hloc : Located env s lo hdr pos) (hsize : SizeOk env)
    (hapart : DataApart s) (hlow : ∀ x ∈ treeExts s, extEnd x ≤ 2 ^ 31)
    (hone : ∀ x ∈ treeExts s, lo ≤ x.firstBlock ∨ extEnd x ≤ hi + 1) (hlh : lo ≤ hi)
    (hhi : hi < 2 ^ 31) (hw : treeExts s ≠ [] → OnWalk (extDepth s) (extDepth s) s ∧
      extDepth s + 1 + 2 * (todo (extDepth s) (extDepth s) s).length ≤ turns) :
    ∃ r t past rest removed, removeFound env lo hi turns s = (r, t) ∧
      RemovedTo env lo hi s t past rest removed ∧ Outcome env lo s r past rest removed := by
  have ht := hloc.tree
  have hleaf := hloc.path.leaf
  have hheader := hloc.path.header (extDepth s) le_rfl
  unfold removeFound
  rw [get_bind]
  dsimp only
  by_cases hne : (s.nodes (hdr (extDepth s))).entriesCount = 0
  · -- a file without extents
    rw [if_pos hne] at hleaf
    rw [hleaf]
    refine ⟨_, _, [], _, [], rfl, .refl ht, ?_, fun _ => ⟨rfl, rfl⟩, fun _ => rfl⟩
    rintro ⟨x, hx, -⟩
    rw [(hloc.empty hne).2] at hx
    simp at hx
  rw [if_neg hne] at hleaf
  rw [hleaf, hheader]
  dsimp only
  obtain ⟨-, hexts, hright, hleft⟩ := hloc.around hne
  generalize hex : (s.nodes (hdr (extDepth s))).slots (pos (extDepth s)) = ex at *
  have hmem : ex ∈ treeExts s := by
    rw [hexts, ← hex]
    exact List.mem_append_right _ List.mem_cons_self
  have hlt := (ht.extOk ex hmem).lt_end
  by_cases hin : ex.firstBlock ≤ lo ∧ lo < ex.firstBlock + ext4ExtGetActualLen ex
  swap
  · rw [if_pos hin]
    refine ⟨_, _, [], _, [], rfl, .refl ht, ?_, fun _ => ⟨rfl, rfl⟩, fun _ => rfl⟩
    rintro ⟨x, hx, hhx⟩
    have hsorted := ht.sorted
    rw [hexts] at hsorted hx
    rw [eq_of_covers hsorted hright hleft hx hhx, cur, hex] at hhx
    exact absurd hhx hin
  have hend := hlow ex hmem
  have hlast : word (ex.firstBlock + ext4ExtGetActualLen ex - 1) = extEnd ex - 1 := by
    unfold extEnd at hlt hend ⊢
    exact word_of_eq (by omega) (by omega)
  have hone' := hone ex hmem
  rw [if_neg (not_not.mpr hin), hlast, if_neg (by omega)]
  obtain ⟨hwalk, hturns⟩ := hw (List.ne_nil_of_mem hmem)
  have hat : AtLeaf env lo hi s (extDepth s) s :=
    atLeaf_start hloc hne (by rw [cur, hex]; exact hin) hlow hone hlh
  have hmapped : Mapped s lo := ⟨ex, hmem, hin⟩
  rcases removeLoop_leaves ht hsize hlh hhi hwalk hat hturns with ⟨u, hu, hswept⟩ | ⟨e, u, hu, he,
    hhalt⟩
  · obtain ⟨t, past, removed, hrun, hr⟩ := resetRoot_removedTo hswept ht hapart hlh
    exact ⟨_, t, past, [], removed, (bind_of_ok hu).trans hrun, hr, fun _ _ => rfl,
      fun h => absurd hmapped h, fun _ => rfl⟩
  · obtain ⟨past, rest, removed, hr⟩ := halted_removedTo hhalt ht hapart hlh
    refine ⟨_, u, past, rest, removed, bind_of_error hu, hr, fun _ h => by simp at h,
      fun h => absurd hmapped h, fun hnf => ?_⟩
    obtain ⟨n, c, hc⟩ := he
    rw [hnf.blockGet] at hc
    simp at hc

/-- **What a call of `ext4_extent_remove_space` leaves**, whatever its outcome. -/
theorem removeSpace_to (ht : TreeOk env s) (hsize : SizeOk env) (hapart : DataApart s)
    (hlow : ∀ x ∈ treeExts s, extEnd x ≤ 2 ^ 31)
    (hone : ∀ x ∈ treeExts s, lo ≤ x.firstBlock ∨ extEnd x ≤ hi + 1) (hlh : lo ≤ hi)
    (hhi : hi < 2 ^ 31) (hturns : extDepth s + 1 + 2 * (treeRefs s).length ≤ turns) :
    ∃ r t past rest removed, ext4ExtentRemoveSpace env lo hi turns s = (r, t) ∧
      RemovedTo env lo hi s t past rest removed ∧ Outcome env lo s r past rest removed := by
  have hheld : HeldWithin { s with pathLive := false } := fun hlive => by simp at hlive
  have ht' : TreeOk env { s with pathLive := false } := TreeOk.of_core ht rfl rfl
  unfold ext4ExtentRemoveSpace
  rw [modify_bind]
  rcases hfind : ext4FindExtent env lo { s with pathLive := false } with ⟨e | ⟨⟩, u⟩
  · -- the lookup fails and has changed nothing
    have hcore : core u = core { s with pathLive := false } := keeps_ok keeps_find hfind
    refine ⟨_, u, [], _, [], bind_of_error hfind, (RemovedTo.refl ht).congr rfl hcore,
      fun _ h => by simp at h, fun _ => ⟨rfl, rfl⟩, fun hnf => ?_⟩
    obtain ⟨v, hv⟩ := @find_succeeds env { s with pathLive := false } lo hnf ht' hheld
    rw [hv] at hfind
    simp at hfind
  obtain ⟨hcore, hloc⟩ := find_ok ht' hheld hfind
  have hn : u.nodes = s.nodes := congrArg Prod.fst hcore
  have hD : extDepth u = extDepth s := by unfold extDepth; rw [hn]
  have he : treeExts u = treeExts s := by unfold treeExts; rw [hn, hD]
  have hr : treeRefs u = treeRefs s := by unfold treeRefs; rw [hn, hD]
  obtain ⟨r, v, past, rest', removed, hrun, hto, hout⟩ :=
    @removeFound_spec env lo hi turns u _ _ hloc hsize (by unfold DataApart; rwa [he, hr])
      (by rwa [he]) (by rwa [he]) hlh hhi fun hne => by
        rw [he] at hne
        have hsub : Tree.Sub env s.nodes (extDepth s) .inode := by
          refine ht.shape.resolve_right fun ⟨hh, hnil⟩ => hne ?_
          rw [treeExts, show extDepth s = 0 from hh.depth]
          exact hnil
        obtain ⟨hwalk, hsub'⟩ : OnWalk (extDepth s) (extDepth s) u ∧
            (todo (extDepth s) (extDepth s) u).Sublist (treeRefs s) :=
          @onWalk_of_find env { s with pathLive := false } u lo (checked_of_sub hsize hsub) ht.nodup
            hheld hfind
        have := hsub'.length_le
        rw [hD]
        exact ⟨hwalk, by omega⟩
  rw [bind_of_ok hfind, bind_of_ok (attempt_apply _ u), hrun]
  obtain ⟨T, hT⟩ := @dropRefs_run env v 0 false
  rw [bind_of_ok hT, modify_bind]
  have hout' : Outcome env lo s r past rest' removed := by
    obtain ⟨h1, h2, h3⟩ := hout
    unfold Mapped at h1 h2
    rw [he] at h1 h2
    exact ⟨h1, h2, h3⟩
  rcases r with e | ⟨⟩
  · exact ⟨_, _, past, rest', removed, rfl, hto.congr hcore rfl, hout'⟩
  · exact ⟨_, _, past, rest', removed, rfl, hto.congr hcore rfl, hout'⟩

end

end Ext4Fsd.Extent.Removed
