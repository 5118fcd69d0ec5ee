import Ext4Fsd.Lib.Levels
import Ext4Fsd.Extent.Passing
import Ext4Fsd.Extent.ReadBlocks

/-! # The removal ends

The loop of `ext4_extent_remove_space` is a walk in the sense of `Walking`, on every tree whose
nodes are checked and listed once; its keys need not be in order. A turn at the leaf and a turn that
leaves an index node get the level above past its child, and a turn that goes down reads a node that
was pending. So the loop ends, and it reads no node twice (`removeLoop_ends`). That the reads are
those of `removeReads` is in `removeLoop_regotten`: the loop does not depend on any other block
get. -/

namespace Ext4Fsd.Extent.RemoveEnds

open Ext4Fsd.Lib.Fallible Ext4Fsd.Lib.Levels Ext4Fsd.Extent.Layout Ext4Fsd.Extent.Store
open Ext4Fsd.Extent.Search Ext4Fsd.Extent.Insert Ext4Fsd.Extent.Remove Ext4Fsd.Extent.Tree
open Ext4Fsd.Extent.Way Ext4Fsd.Extent.Found Ext4Fsd.Extent.Lookup Ext4Fsd.Extent.Pending
open Ext4Fsd.Extent.Passing Ext4Fsd.Extent.ReadBlocks

/-- The node that the turn at level `i` reads. -/
def readAt (depth hi i : ℕ) (s : St) : Option Hdr :=
  if i = depth then none
  else if ext4ExtMoreToRm s i hi then
    (s.path i).index.map fun p => child ((s.nodes (s.path i).header).slots p)
  else none

/-- The nodes that the loop of `ext4_extent_remove_space` reads, in order. -/
def removeReads (env : Env) (depth lo hi : ℕ) : ℕ → Option ℕ → St → List Hdr :=
  visits (removeTurn env depth lo hi) (readAt depth hi)

/-- The block layer may refuse a block with this error. -/
def ReadRefused (env : Env) (e : Errno) : Prop := ∃ n b, env.blockGet n b = some e

/-- The path of the state is a walk at level `i`. -/
structure OnWalk (D i : ℕ) (s : St) : Prop where
  depth : extDepth s = D
  walk : Walking s.nodes (headerAt s) (cursorAt s) D i
  index : ∀ j, j ≤ i → j < D → (s.path j).index = some (cursorAt s j)
  extent : i = D → ∃ p, (s.path D).extent = some p

/-- What the walk of the state has still to read. -/
abbrev todo (D i : ℕ) (s : St) : List Hdr := pending s.nodes (headerAt s) (cursorAt s) D i

section
variable {env : Env} {s t u : St} {D i n lo hi b : ℕ} {h : Hdr}

theorem OnWalk.steady (hw : OnWalk D i s) : Steady s i :=
  ⟨fun j hj => hw.index j (by omega) (by have := hw.walk.le; omega),
    fun _ _ hj hj' => hw.walk.distinct hj hj'⟩

/-- A turn after which the level above is past its child. -/
theorem OnWalk.up (hw : OnWalk D (i + 1) s) (hm : Moved s t i) :
    OnWalk D i t ∧ (todo D i t).Sublist (todo D (i + 1) s) := by
  obtain ⟨hwalk, hsub⟩ := hw.walk.up hm.passed
  have hi := hw.walk.le
  refine ⟨⟨?_, hwalk, fun j hj _ => hm.index j hj, fun hD => by omega⟩, hsub⟩
  rw [← hw.depth]
  exact hm.depth .inode

/-! ### The turn at the leaf -/

theorem removeLeafLoop_run (cur : LeafCursor) : ∃ cur' t,
    removeLeafLoop h lo hi n cur s = (.ok cur', t) ∧ Rewrites s t h := by
  induction n generalizing s cur with
  | zero => exact ⟨cur, s, rfl, .refl s h⟩
  | succ n ih =>
    unfold removeLeafLoop
    rw [get_bind]
    dsimp only
    split
    · generalize cutExtent ((s.nodes h).slots cur.ex) lo hi = c
      obtain ⟨v, hfree, hn, hp⟩ : ∃ v, ext4ExtRemoveBlocks ((s.nodes h).slots cur.ex) c.start
          (word (c.start + c.len - 1)) s = (.ok (), v) ∧ v.nodes = s.nodes ∧ v.path = s.path :=
        ⟨_, rfl, rfl, rfl⟩
      rw [bind_of_ok hfree, setSlot_bind]
      obtain ⟨cur', t, ht, hr⟩ := @ih (v.setNode h (editSlot (v.nodes h) cur.ex
        fun _ => keptSlot ((s.nodes h).slots cur.ex) c)) (cur.next c)
      have hfirst := (Rewrites.refl s h).congr hn hp
      exact ⟨cur', t, ht,
        (hfirst.trans (rewrites_setNode (editSlot (v.nodes h) cur.ex _) rfl)).trans
        hr⟩
    · exact ⟨cur, s, rfl, .refl s h⟩

theorem removeLeaf_moved (hw : OnWalk (i + 1) (i + 1) s) :
    ∃ t, ext4ExtRemoveLeaf lo hi s = (.ok (), t) ∧ Moved s t i := by
  obtain ⟨p, hp⟩ := hw.extent rfl
  have hs := hw.steady
  have hvalid := hw.walk.valid i (by omega)
  have hwidth := hw.walk.width i (by omega)
  unfold ext4ExtRemoveLeaf
  rw [get_bind]
  dsimp only
  rw [hw.depth, hp, deref_some, pure_bind_apply]
  obtain ⟨cur, s1, hloop, hr1⟩ :=
    @removeLeafLoop_run s ((s.nodes (s.path (i + 1)).header).entriesCount
    - p) lo hi (s.path (i + 1)).header ⟨p, p, (s.nodes (s.path (i + 1)).header).entriesCount, none⟩
  rw [bind_of_ok hloop, modify_bind, dirty_bind, get_bind]
  generalize hs2 : dirtied (s1.setNode (s.path (i + 1)).header
    (closeLeaf (s1.nodes (s.path (i + 1)).header) cur)) (i + 1) = s2
  have hr2 : Rewrites s s2 (headerAt s (i + 1)) := by
    refine (hr1.trans (rewrites_setNode (closeLeaf (s1.nodes (s.path (i + 1)).header) cur)
      rfl)).congr ?_ ?_
    · rw [← hs2, dirtied_nodes]
    · rw [← hs2, dirtied_path]
  have hD2 : extDepth s2 = i + 1 := by
    rw [← hw.depth]
    unfold extDepth
    by_cases hon : Hdr.inode = headerAt s (i + 1)
    · rw [hon]
      exact hr2.depth
    · rw [hr2.off _ hon]
  obtain ⟨s3, hcorrect, ht3⟩ : ∃ s3, runIf (p = 0 ∧
      (s2.nodes (s.path (i + 1)).header).entriesCount ≠ 0) ext4ExtCorrectIndexes s2 = (.ok (), s3) ∧
      Touched s2 s3 (i + 1) := by
    by_cases hc : p = 0 ∧ (s2.nodes (s.path (i + 1)).header).entriesCount ≠ 0
    · rw [runIf_pos hc]
      exact correctIndexes_touched (hs.congr hr2.path) hD2 (by rw [hr2.path, hp])
    · rw [runIf_neg hc]
      exact ⟨s2, rfl, .refl s2 _⟩
  rw [bind_of_ok hcorrect]
  have hs3 : Steady s3 (i + 1) := (hs.congr hr2.path).congr ht3.path
  have hback : ∀ {v : St}, Moved s3 v i → Moved s v i := fun hm =>
    Moved.of_rewrites hs hr2 (Moved.of_touched ht3 hm)
  -- Neither the leaf's change nor the keys handed up have changed how many entries level `i` has.
  have hcount :
      (s3.nodes (headerAt s3 i)).entriesCount = (s.nodes (headerAt s i)).entriesCount := by
    rw [headerAt_congr ht3.path, (ht3.keys i (by omega)).entries, headerAt_congr hr2.path,
      hr2.off _ (hs.distinct i (i + 1) (by omega) (by omega) (by omega))]
  have hcur : cursorAt s3 i = cursorAt s i := by
    rw [cursorAt_congr ht3.path, cursorAt_congr hr2.path]
  rw [Nat.add_sub_cancel]
  split
  · obtain ⟨t, ht, -, hm⟩ := removeIdx_moved hs3 (by rw [hcount, hcur]; exact hvalid)
      (by rwa [hcount])
    exact ⟨t, ht, hback hm⟩
  · rw [runIf_pos (by omega)]
    obtain ⟨t, ht, hm⟩ := nextIndex_moved hs3
    exact ⟨t, ht, hback hm⟩

/-- Releasing blocks of the path always succeeds. -/
theorem dropRefs_kept (keepOther : Bool) : ∃ t, ext4ExtDropRefs env i keepOther s = (.ok (), t) ∧
    t.nodes = s.nodes ∧ t.calls = s.calls ∧
    ∀ j, (t.path j).header = (s.path j).header ∧ (t.path j).index = (s.path j).index := by
  obtain ⟨T, hT⟩ := @dropRefs_run env s i keepOther
  refine ⟨_, hT, rfl, rfl, fun j => ?_⟩
  generalize (if keepOther then 1 else (s.path i).depth + 1) = n
  by_cases hj : i ≤ j ∧ j < i + n
  · simp [released, hj]
  · simp only [released, if_neg hj, and_self]

theorem dropIf_kept (c : Prop) [Decidable c] : ∃ t,
    runIf c (ext4ExtDropRefs env i false) s = (.ok (), t) ∧ t.nodes = s.nodes ∧
    t.calls = s.calls ∧
    ∀ j, (t.path j).header = (s.path j).header ∧ (t.path j).index = (s.path j).index := by
  by_cases hc : c
  · rw [runIf_pos hc]
    exact dropRefs_kept false
  · rw [runIf_neg hc]
    exact ⟨s, rfl, rfl, rfl, fun j => ⟨rfl, rfl⟩⟩

/-- A turn at the leaf removes some range from it and releases it. -/
theorem leafTurn_eq : ∃ a c, leafTurn env D lo hi s =
    (attempt (ext4ExtRemoveLeaf a c) >>= fun _ => ext4ExtDropRefs env D false) s := ⟨_, _, rfl⟩

theorem leafTurn_returns : ∃ t, leafTurn env D lo hi s = (.ok (), t) := by
  obtain ⟨a, c, hrun⟩ := @leafTurn_eq env s D lo hi
  obtain ⟨t, ht, -⟩ := @dropRefs_kept env (ext4ExtRemoveLeaf a c s).2 D false
  rw [hrun, bind_of_ok (attempt_apply _ s)]
  exact ⟨t, ht⟩

theorem leafTurn_moved (hw : OnWalk (i + 1) (i + 1) s) :
    ∃ t, leafTurn env (i + 1) lo hi s = (.ok (), t) ∧ Moved s t i := by
  obtain ⟨a, c, hrun⟩ := @leafTurn_eq env s (i + 1) lo hi
  obtain ⟨v, hv, hm⟩ := @removeLeaf_moved s i a c hw
  obtain ⟨t, ht, hn, -, hp⟩ := @dropRefs_kept env v (i + 1) false
  rw [hrun, bind_of_ok (attempt_apply _ s), hv]
  exact ⟨t, ht, hm.of_path hn hp⟩

/-! ### The turns at an index node -/

theorem ascendTurn_moved (hw : OnWalk D (i + 1) s) :
    ∃ t, ascendTurn (i + 1) s = (.ok (), t) ∧ Moved s t i := by
  have hs := hw.steady
  have hlast : ∀ v : St, Moved s v i →
      Moved s (v.setPath (i + 1) { v.path (i + 1) with block := 0 }) i := fun v hm => by
    refine hm.of_path rfl fun j => ?_
    by_cases hj : j = i + 1 <;> simp [hj]
  unfold ascendTurn
  rw [get_bind, runIf_pos (by omega), Nat.add_sub_cancel]
  by_cases h0 : (s.nodes (s.path (i + 1)).header).entriesCount = 0
  · obtain ⟨v, hv, -, hm⟩ := removeIdx_moved hs (hw.walk.valid i (by omega))
      (hw.walk.width i (by omega))
    rw [if_pos h0, bind_of_ok hv]
    exact ⟨_, rfl, hlast v hm⟩
  · obtain ⟨v, hv, hm⟩ := nextIndex_moved hs
    rw [if_neg h0, bind_of_ok hv]
    exact ⟨_, rfl, hlast v hm⟩

theorem ascendTurn_root : ascendTurn 0 s = (.ok (), s) := rfl

theorem more_index (hm : ext4ExtMoreToRm s i hi = true) :
    ∃ p, (s.path i).index = some p ∧ p < (s.nodes (s.path i).header).entriesCount := by
  unfold ext4ExtMoreToRm at hm
  simp only [decide_eq_true_eq, Option.any_eq_true] at hm
  obtain ⟨-, p, hp, hlt, -⟩ := hm
  exact ⟨p, hp, hlt⟩

theorem blockGet_cases : ext4TransBlockGet env b s = (.ok (), { s with calls := s.calls + 1 }) ∨
    ∃ e, ReadRefused env e ∧
      ext4TransBlockGet env b s = (.error e, { s with calls := s.calls + 1 }) := by
  unfold ext4TransBlockGet
  rcases hg : env.blockGet s.calls b with _ | e
  · exact Or.inl rfl
  · exact Or.inr ⟨e, ⟨_, _, hg⟩, rfl⟩

theorem read_cases {d : ℕ} (hc : ext4ExtCheck (s.nodes (.block b)) d = true) :
    readExtentTreeBlock env b d s = (.ok (), { s with calls := s.calls + 1 }) ∨
      ∃ e, ReadRefused env e ∧
        readExtentTreeBlock env b d s = (.error e, { s with calls := s.calls + 1 }) := by
  unfold readExtentTreeBlock
  rcases @blockGet_cases env s b with hget | ⟨e, he, hget⟩
  · left
    rw [bind_of_ok hget, get_bind, if_pos hc]
    rfl
  · exact Or.inr ⟨e, he, bind_of_error hget⟩

theorem read_calls {d : ℕ} : (readExtentTreeBlock env b d s).2.calls = s.calls + 1 := by
  unfold readExtentTreeBlock
  rcases @blockGet_cases env s b with hget | ⟨e, -, hget⟩
  · rw [bind_of_ok hget, get_bind]
    split <;> rfl
  · rw [bind_of_error hget]

/-- The end of `descendTurn`: the path takes in the block that was read. -/
theorem entered_run (blk : ℕ) : ∃ t,
    (do
      modify fun s => s.setPath i { s.path i with pBlock := blk }
      modify fun s =>
        let e := { s.path (i + 1) with block := blk, header := .block blk, depth := D - i - 1 }
        s.setPath (i + 1)
          (if i + 1 = D then { e with extent := some 0 } else { e with index := some 0 }) :
      Ext Unit) s = (.ok (), t) ∧ t.nodes = s.nodes ∧
      (∀ j, j ≤ i → (t.path j).header = (s.path j).header ∧ (t.path j).index = (s.path j).index) ∧
      (t.path (i + 1)).header = .block blk ∧
      (i + 1 ≠ D → (t.path (i + 1)).index = some 0) ∧
      (i + 1 = D → (t.path (i + 1)).extent = some 0) := by
  refine ⟨_, rfl, rfl, fun j hj => ?_, ?_, fun hD => ?_, fun hD => ?_⟩
  · by_cases hji : j = i
    · simp [hji]
    · simp [hji, show j ≠ i + 1 by omega]
  · by_cases hD : i + 1 = D <;> simp [hD]
  · simp [hD]
  · simp [hD]

/-- A turn that goes down asks for the child at the cursor. -/
theorem descendTurn_down (hw : OnWalk D i s) (hi : i < D)
    (hpos : cursorAt s i < (s.nodes (headerAt s i)).entriesCount) :
    (∃ t, descendTurn env D i s = (.ok (), t) ∧ OnWalk D (i + 1) t ∧
        (child (cur s.nodes (headerAt s) (cursorAt s) i) :: todo D (i + 1) t).Sublist
          (todo D i s)) ∨
      ∃ e t, ReadRefused env e ∧ descendTurn env D i s = (.error e, t) := by
  obtain ⟨v, hv, hn, -, hp⟩ := @dropIf_kept env s (i + 1) ((s.path (i + 1)).block ≠ 0) _
  have hchild := hw.walk.child_checked hi hpos
  have hcheck : ext4ExtCheck (v.nodes (child (cur s.nodes (headerAt s) (cursorAt s) i)))
      (D - i - 1) = true := by
    rw [hn, Nat.sub_sub]
    exact hchild.node.check
  rcases @read_cases env _ _ _ hcheck with hread | ⟨e, he, hread⟩
  · left
    obtain ⟨t, ht, htn, hkeep, hh, hx, hex⟩ := @entered_run { v with calls := v.calls + 1 } D i
      (ext4IdxPblock (cur s.nodes (headerAt s) (cursorAt s) i))
    have hrun : descendTurn env D i s = (.ok (), t) := by
      unfold descendTurn
      rw [get_bind, bind_of_ok hv, hw.index i le_rfl hi, deref_some, pure_bind_apply]
      exact (bind_of_ok hread).trans ht
    have hkeep' : ∀ j, j ≤ i → (t.path j).header = (s.path j).header ∧
        (t.path j).index = (s.path j).index := fun j hj =>
      ⟨(hkeep j hj).1.trans (hp j).1, (hkeep j hj).2.trans (hp j).2⟩
    have htn' : t.nodes = s.nodes := htn.trans hn
    have hc : ∀ j, j ≤ i → cursorAt t j = cursorAt s j := fun j hj => by
      rw [cursorAt, (hkeep' j hj).2, cursorAt]
    have hheader : ∀ j, j ≤ i → headerAt t j = headerAt s j := fun j hj => (hkeep' j hj).1
    have hnext : headerAt t (i + 1) = child (cur s.nodes (headerAt s) (cursorAt s) i) := hh
    obtain ⟨hwalk, hsub⟩ := hw.walk.down hi hpos hheader hc hnext
    rw [hnext] at hsub
    refine ⟨t, hrun,
      ⟨?_, by rwa [htn'], fun j hj hjD => ?_, fun hD => ⟨0, ?_⟩⟩, by rwa [todo, htn']⟩
    · rw [← hw.depth]
      unfold extDepth
      rw [htn']
    · rcases Nat.eq_or_lt_of_le hj with rfl | hj
      · rw [cursorAt_of_index (hx (by omega)), hx (by omega)]
      · rw [(hkeep' j (by omega)).2, hc j (by omega)]
        exact hw.index j (by omega) hjD
    · rw [← hD]
      exact hex hD
  · right
    refine ⟨e, { v with calls := v.calls + 1 }, he, ?_⟩
    unfold descendTurn
    rw [get_bind, bind_of_ok hv, hw.index i le_rfl hi, deref_some, pure_bind_apply]
    exact bind_of_error hread

/-! ### The loop -/

/-- **Every turn of the loop makes progress.** -/
theorem removeTurn_progress (hw : OnWalk D i s) :
    Progress (fun i s l => OnWalk D i s ∧ l = todo D i s) (ReadRefused env) i (todo D i s)
      (readAt D hi i s) (removeTurn env D lo hi i s) := by
  have hle := hw.walk.le
  unfold removeTurn readAt
  rw [get_bind]
  by_cases hD : i = D
  · subst hD
    rw [if_pos rfl, if_pos rfl]
    rcases i with _ | i
    · obtain ⟨t, ht⟩ := @leafTurn_returns env s 0 lo hi
      rw [bind_of_ok ht]
      exact .leave
    · obtain ⟨t, ht, hm⟩ := @leafTurn_moved env s i lo hi hw
      obtain ⟨hw', hsub⟩ := hw.up hm
      rw [bind_of_ok ht]
      exact .up rfl hsub ⟨hw', rfl⟩
  rw [if_neg hD, if_neg hD]
  by_cases hmore : ext4ExtMoreToRm s i hi = true
  · obtain ⟨p, hp, hlt⟩ := more_index hmore
    have hc := cursorAt_of_index hp
    have hread : (s.path i).index.map (fun p => child ((s.nodes (s.path i).header).slots p)) =
        some (child (cur s.nodes (headerAt s) (cursorAt s) i)) := by
      rw [cur, hc, hp]
      rfl
    rw [if_pos hmore, if_pos hmore, hread]
    rcases @descendTurn_down env s D i hw (by omega) (by rwa [hc]) with
      ⟨t, ht, hw', hsub⟩ | ⟨e, t, he, ht⟩
    · rw [bind_of_ok ht]
      exact .down hsub ⟨hw', rfl⟩
    · rw [bind_of_error ht]
      refine .stop ?_ he
      rw [todo, pending, ahead_cur (by omega) (by rwa [hc])]
      exact List.mem_append_left _ (List.mem_append_left _ (mem_refs_self _ _ _))
  · rw [if_neg hmore, if_neg hmore]
    rcases i with _ | i
    · exact .leave
    · obtain ⟨t, ht, hm⟩ := ascendTurn_moved hw
      obtain ⟨hw', hsub⟩ := hw.up hm
      rw [bind_of_ok ht]
      exact .up rfl hsub ⟨hw', rfl⟩

/-- A successful lookup leaves a walk at the leaf, whatever the keys of the tree are. -/
theorem onWalk_of_find (hc : Checked s.nodes (extDepth s) .inode) (hnd : (treeRefs s).Nodup)
    (hheld : HeldWithin s) (h : ext4FindExtent env b s = (.ok (), t)) :
    OnWalk (extDepth s) (extDepth s) t ∧
      (todo (extDepth s) (extDepth s) t).Sublist (treeRefs s) := by
  have hn : t.nodes = s.nodes := congrArg Prod.fst (keeps_ok keeps_find h)
  have hpath := find_path hheld h
  have hh : ∀ j, j ≤ extDepth s → headerAt t j = findHdr s.nodes b .inode j := hpath.header
  have hp : ∀ j, j < extDepth s → cursorAt t j = findPos s.nodes b .inode j := fun j hj =>
    cursorAt_of_index (hpath.index j hj)
  -- Going down, the node reached is checked, so the search finds an entry in it.
  have hreach : ∀ i, i ≤ extDepth s →
      Walking s.nodes (headerAt t) (cursorAt t) (extDepth s) i ∧
        Checked s.nodes (extDepth s - i) (headerAt t i) ∧
        (pending s.nodes (headerAt t) (cursorAt t) (extDepth s) i).Sublist (treeRefs s) := by
    intro i
    induction i with
    | zero =>
      intro _
      have h0 : headerAt t 0 = .inode := hh 0 (by omega)
      obtain ⟨hwalk, hsub⟩ := @Walking.start s.nodes (headerAt t) (cursorAt t) (extDepth s)
        (by rwa [h0]) (by rwa [h0])
      rw [h0] at hsub
      exact ⟨hwalk, by rwa [h0], hsub⟩
    | succ i ih =>
      intro hi
      obtain ⟨hwalk, hchk, hsub⟩ := ih (by omega)
      have hpos : cursorAt t i < (s.nodes (headerAt t i)).entriesCount := by
        rw [hp i hi, findPos, ← hh i (by omega)]
        exact binsearch_lt b hchk.node.nonempty
      have hnext : headerAt t (i + 1) = child (cur s.nodes (headerAt t) (cursorAt t) i) := by
        rw [hh (i + 1) hi, findHdr, cur, hh i (by omega), hp i hi]
        rfl
      obtain ⟨hwalk', hsub'⟩ := hwalk.down hi hpos (fun _ _ => rfl) (fun _ _ => rfl) hnext
      refine ⟨hwalk', ?_, ((List.sublist_cons_self _ _).trans hsub').trans hsub⟩
      rw [hnext]
      exact hwalk.child_checked hi hpos
  obtain ⟨hwalk, hchk, hsub⟩ := hreach (extDepth s) le_rfl
  refine ⟨⟨by unfold extDepth; rw [hn], by rwa [hn], fun j _ hj => ?_, fun _ => ?_⟩,
    by rwa [todo, hn]⟩
  · rw [hpath.index j hj, hp j hj]
  · have hne := hchk.node.nonempty
    rw [hh _ le_rfl] at hne
    refine ⟨_, hpath.leaf.trans (if_neg ?_)⟩
    rw [hn]
    omega

/-! ### Requests -/

theorem keeps_calls_dirty : Keeps St.calls (ext4ExtDirty i) := fun s => by
  rw [dirty_run]
  exact dirtied_calls

theorem keeps_calls_setKey (border : ℕ) : Keeps St.calls (setKey i border) :=
  keeps_bind keeps_get fun s => keeps_bind (by
    cases (s.path i).index
    · exact keeps_fail _
    · exact keeps_pure _) fun _ => keeps_bind (keeps_modify fun _ => rfl) fun _ => keeps_calls_dirty

theorem keeps_calls_removeIdxLoop : Keeps St.calls (removeIdxLoop n) := by
  induction n with
  | zero => exact keeps_pure ()
  | succ n ih =>
    exact keeps_bind keeps_get fun s => keeps_ite (keeps_pure ())
      (keeps_bind (keeps_calls_setKey _) fun _ => ih)

theorem keeps_calls_correctLoop (border : ℕ) : Keeps St.calls (correctLoop border n) := by
  induction n with
  | zero => exact keeps_pure ()
  | succ n ih =>
    exact keeps_bind keeps_get fun s => keeps_ite (keeps_pure ())
      (keeps_bind (keeps_calls_setKey _) fun _ => ih)

theorem keeps_calls_deref (p : Option ℕ) : Keeps St.calls (deref p) := by
  cases p
  · exact keeps_fail _
  · exact keeps_pure _

theorem keeps_calls_removeIdx : Keeps St.calls (ext4ExtRemoveIdx i) :=
  keeps_bind keeps_get fun _ => keeps_bind (keeps_calls_deref _) fun _ =>
    keeps_bind (keeps_modify fun _ => rfl) fun _ => keeps_bind keeps_calls_dirty fun _ =>
      keeps_bind (keeps_modify fun _ => rfl) fun _ => keeps_calls_removeIdxLoop

theorem keeps_calls_correctIndexes : Keeps St.calls ext4ExtCorrectIndexes := by
  refine keeps_bind keeps_get fun s => ?_
  dsimp only
  cases (s.path (extDepth s)).extent with
  | none => exact keeps_fail _
  | some p =>
    exact keeps_ite (keeps_pure ()) (keeps_ite (keeps_pure ())
      (keeps_bind (keeps_calls_setKey _) fun _ => keeps_calls_correctLoop _))

theorem keeps_calls_removeLeaf : Keeps St.calls (ext4ExtRemoveLeaf lo hi) := by
  refine keeps_bind keeps_get fun s => keeps_bind (keeps_calls_deref _) fun p =>
    keeps_bind ?_ fun cur => keeps_bind (keeps_modify fun _ => rfl) fun _ =>
      keeps_bind keeps_calls_dirty fun _ => keeps_bind keeps_get fun s' =>
        keeps_bind (keeps_runIf keeps_calls_correctIndexes) fun _ =>
          keeps_ite keeps_calls_removeIdx (keeps_runIf (keeps_modify fun _ => rfl))
  generalize (s.nodes (s.path (extDepth s)).header).entriesCount - p = n
  generalize (⟨p, p, _, none⟩ : LeafCursor) = c
  induction n generalizing c with
  | zero => exact keeps_pure c
  | succ n ih =>
    exact keeps_bind keeps_get fun s' => keeps_ite (keeps_bind (keeps_modify fun _ => rfl) fun _ =>
      keeps_bind (keeps_modify fun _ => rfl) fun _ => ih _) (keeps_pure c)

theorem keeps_calls_dropRefs : Keeps St.calls (ext4ExtDropRefs env i false) := fun s => by
  obtain ⟨t, ht, -, hc, -⟩ := @dropRefs_kept env s i false
  rw [ht, hc]

theorem keeps_calls_leafTurn : Keeps St.calls (leafTurn env D lo hi) :=
  keeps_bind keeps_get fun _ => keeps_bind (keeps_attempt keeps_calls_removeLeaf) fun _ =>
    keeps_calls_dropRefs

theorem keeps_calls_ascendTurn : Keeps St.calls (ascendTurn i) :=
  keeps_bind keeps_get fun _ => keeps_runIf (keeps_ite
    (keeps_bind keeps_calls_removeIdx fun _ => keeps_modify fun _ => rfl)
    (keeps_bind (keeps_modify fun _ => rfl) fun _ => keeps_modify fun _ => rfl))

theorem descendTurn_calls {p : ℕ} (hp : (s.path i).index = some p) :
    (descendTurn env D i s).2.calls = s.calls + 1 := by
  obtain ⟨v, hv, -, hc, -⟩ := @dropIf_kept env s (i + 1) ((s.path (i + 1)).block ≠ 0) _
  unfold descendTurn
  rw [get_bind, bind_of_ok hv, hp, deref_some, pure_bind_apply, ← hc]
  refine (view_bind (v := St.calls) (fun _ => ?_) v).trans read_calls
  exact keeps_bind (keeps_modify fun _ => rfl) fun _ => keeps_modify fun _ => rfl

/-- **A turn asks the block layer for what it reads, and for nothing else.** -/
theorem removeTurn_calls : (removeTurn env D lo hi i s).2.calls =
    s.calls + (readAt D hi i s).toList.length := by
  unfold removeTurn readAt
  rw [get_bind]
  by_cases hD : i = D
  · rw [if_pos hD, if_pos hD]
    exact keeps_bind keeps_calls_leafTurn (fun _ => keeps_pure _) s
  rw [if_neg hD, if_neg hD]
  by_cases hmore : ext4ExtMoreToRm s i hi = true
  · obtain ⟨p, hp, -⟩ := more_index hmore
    rw [if_pos hmore, if_pos hmore, hp]
    exact (view_bind (fun _ => keeps_pure _) s).trans (descendTurn_calls hp)
  · rw [if_neg hmore, if_neg hmore]
    exact keeps_bind keeps_calls_ascendTurn (fun _ => keeps_pure _) s

/-- **The removal of a range ends, and reads no block of the tree twice.** The tree is any whose
nodes pass the check for their level and are listed once. After the lookup the loop returns, or
stops with the error of a block that the block layer refused, within one turn for each level of the
path and two for each node of the tree. It asks for nothing but nodes of the tree, each at most
once. -/
theorem removeLoop_ends (hc : Checked s.nodes (extDepth s) .inode) (hnd : (treeRefs s).Nodup)
    (hfind : ext4FindExtent env lo { s with pathLive := false } = (.ok (), t))
    (hn : extDepth s + 1 + 2 * (treeRefs s).length ≤ n) :
    ((removeLoop env (extDepth s) lo hi n (some (extDepth s)) t).1 = .ok () ∨
        ∃ e, ReadRefused env e ∧
          (removeLoop env (extDepth s) lo hi n (some (extDepth s)) t).1 = .error e) ∧
      (removeReads env (extDepth s) lo hi n (some (extDepth s)) t).Nodup ∧
      (∀ h ∈ removeReads env (extDepth s) lo hi n (some (extDepth s)) t, h ∈ treeRefs s) ∧
      (removeLoop env (extDepth s) lo hi n (some (extDepth s)) t).2.calls =
        t.calls + (removeReads env (extDepth s) lo hi n (some (extDepth s)) t).length := by
  have hheld : HeldWithin { s with pathLive := false } := fun hlive => by simp at hlive
  obtain ⟨hw, hsub⟩ : OnWalk (extDepth s) (extDepth s) t ∧
      (todo (extDepth s) (extDepth s) t).Sublist (treeRefs s) :=
    @onWalk_of_find env { s with pathLive := false } t lo hc hnd hheld hfind
  have hlen := hsub.length_le
  have hprog : ∀ i u l, OnWalk (extDepth s) i u ∧ l = todo (extDepth s) i u →
      Progress (fun i u l => OnWalk (extDepth s) i u ∧ l = todo (extDepth s) i u)
        (ReadRefused env) i l
        (readAt (extDepth s) hi i u) (removeTurn env (extDepth s) lo hi i u) := by
    rintro i u l ⟨hu, rfl⟩
    exact removeTurn_progress hu
  obtain ⟨hends, hreads⟩ := @levelLoop_ends _ _ _ _ Errno.running _ _ _ hprog n (extDepth s) t _
    ⟨hw, rfl⟩ (by omega)
  have hreads' := hreads.trans hsub
  refine ⟨hends, hnd.sublist hreads', fun h hh => hreads'.subset hh, ?_⟩
  exact levelLoop_count (c := St.calls) (fun _ _ => removeTurn_calls) n _ t

/-! ### The list of reads is the reads -/

/-- The environment with other outcomes of the block gets. -/
def regotten (env : Env) (get : ℕ → ℕ → Option Errno) : Env := { env with blockGet := get }

variable {get : ℕ → ℕ → Option Errno}

theorem dropRefsLoop_regotten :
    ∀ n i, dropRefsLoop (regotten env get) n i = dropRefsLoop env n i := by
  intro n
  induction n with
  | zero => intro i; rfl
  | succ n ih =>
    intro i
    unfold dropRefsLoop
    simp only [ih]
    rfl

theorem dropRefs_regotten (keepOther : Bool) :
    ext4ExtDropRefs (regotten env get) i keepOther = ext4ExtDropRefs env i keepOther := by
  unfold ext4ExtDropRefs
  simp only [dropRefsLoop_regotten]

theorem leafTurn_regotten : leafTurn (regotten env get) D lo hi = leafTurn env D lo hi := by
  unfold leafTurn
  simp only [dropRefs_regotten]

theorem read_regotten {d : ℕ} (hget : get s.calls b = env.blockGet s.calls b) :
    readExtentTreeBlock (regotten env get) b d s = readExtentTreeBlock env b d s := by
  have hblock : ext4TransBlockGet (regotten env get) b s = ext4TransBlockGet env b s := by
    unfold ext4TransBlockGet regotten
    dsimp only
    rw [hget]
  unfold readExtentTreeBlock
  rcases @blockGet_cases env s b with hrun | ⟨e, -, hrun⟩
  · rw [bind_of_ok (hblock.trans hrun), bind_of_ok hrun]
  · rw [bind_of_error (hblock.trans hrun), bind_of_error hrun]

/-- A turn looks at the outcome of the block get for the node it reads, and at no other. -/
theorem removeTurn_regotten
    (hget : ∀ b, readAt D hi i s = some (.block b) → get s.calls b = env.blockGet s.calls b) :
    removeTurn (regotten env get) D lo hi i s = removeTurn env D lo hi i s := by
  unfold removeTurn
  unfold readAt at hget
  rw [get_bind, get_bind, leafTurn_regotten]
  by_cases hD : i = D
  · rw [if_pos hD, if_pos hD]
  rw [if_neg hD] at hget
  rw [if_neg hD, if_neg hD]
  by_cases hmore : ext4ExtMoreToRm s i hi = true
  · obtain ⟨p, hp, -⟩ := more_index hmore
    rw [if_pos hmore, hp] at hget
    obtain ⟨v, hv, hn, hc, hpath⟩ := @dropIf_kept env s (i + 1) ((s.path (i + 1)).block ≠ 0) _
    have hread := hget _ rfl
    rw [← hc] at hread
    have hdescend : descendTurn (regotten env get) D i s = descendTurn env D i s := by
      unfold descendTurn
      simp only [dropRefs_regotten]
      rw [get_bind, get_bind, bind_of_ok hv, bind_of_ok hv, hp, deref_some, pure_bind_apply,
        pure_bind_apply]
      have hsame := read_regotten (d := D - i - 1) hread
      rcases hr : readExtentTreeBlock env
          (ext4IdxPblock ((s.nodes (s.path i).header).slots p)) (D - i - 1) v with ⟨e | u, t⟩
      · rw [bind_of_error (hsame.trans hr), bind_of_error hr]
      · rw [bind_of_ok (hsame.trans hr), bind_of_ok hr]
    rw [if_pos hmore, if_pos hmore]
    rcases hr : descendTurn env D i s with ⟨e | u, t⟩
    · rw [bind_of_error (hdescend.trans hr), bind_of_error hr]
    · rw [bind_of_ok (hdescend.trans hr), bind_of_ok hr]
  · rw [if_neg hmore, if_neg hmore]

/-- **The loop depends on the outcomes of the block gets for the nodes it reads, each at its number,
and on no other.** -/
theorem removeLoop_regotten (n : ℕ) (j : Option ℕ)
    (hget : ∀ k b, (removeReads env D lo hi n j s)[k]? = some (.block b) →
      get (s.calls + k) b = env.blockGet (s.calls + k) b) :
    removeLoop (regotten env get) D lo hi n j s = removeLoop env D lo hi n j s := by
  refine levelLoop_congr (c := St.calls)
    (Q := fun k h => ∀ b, h = .block b → get k b = env.blockGet k b)
    (fun _ _ => removeTurn_calls)
      (fun i u hQ => removeTurn_regotten fun b hb => hQ _ hb b rfl) n j s
    fun k h hk b hb => hget k b (hb ▸ hk)

end

/-- Removing the blocks 5 to 40 takes eight turns at most, and no error. -/
theorem removeLoop_ends_twoLeaves :
    (removeLoop steadyDisk 1 5 40 8 (some 1)
      (ext4FindExtent steadyDisk 5 twoLeaves).2).1 = .ok () := by
  have h := (@removeLoop_ends steadyDisk twoLeaves (ext4FindExtent steadyDisk 5 twoLeaves).2 8 5 40
    (by decide +kernel) (by decide +kernel) (Prod.ext (by decide +kernel) rfl)
      (by decide +kernel)).1
  rcases h with h | ⟨e, ⟨_, _, he⟩, -⟩
  · exact h
  · cases he

end Ext4Fsd.Extent.RemoveEnds
