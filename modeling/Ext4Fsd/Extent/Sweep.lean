import Ext4Fsd.Extent.Linked
import Ext4Fsd.Extent.LeafCut

/-! # A removal under way

The walk of `ext4_extent_remove_space` keeps a node and a position in it for every level of the
path. What lies before the positions is done, and what lies from them on is as it was. `Sweep` says
this of a walk at level `i`: the node of that level has the entries `front`, which are done, and
`back`, which are not, and the levels above are read as `lefts` and `rights` of the path. The steps
of the walk keep it: down to the first child of `back` (`Sweep.down`), past the node of level `i`
(`Sweep.past`), and out of a node without entries, which is freed (`Sweep.drop`). -/

namespace Ext4Fsd.Extent.Sweep

open Ext4Fsd.Lib.Fallible Ext4Fsd.Lib.Intervals Ext4Fsd.Extent.Layout Ext4Fsd.Extent.Store
open Ext4Fsd.Extent.Remove Ext4Fsd.Extent.Tree Ext4Fsd.Extent.Mapping Ext4Fsd.Extent.Way
open Ext4Fsd.Extent.Keys Ext4Fsd.Extent.Pending Ext4Fsd.Extent.Passing Ext4Fsd.Extent.Linked
open Ext4Fsd.Extent.LeafCut Ext4Fsd.Extent.InPlace

/-! ### Below the entries of a node -/

/-- The extents below a list of entries of a node at height `g`. -/
def below (nodes : Nodes) : ℕ → List Slot → List Slot
  | 0, l => l
  | g + 1, l => extsOf nodes g l

/-- The nodes below a list of entries of a node at height `g`. -/
def belowRefs (nodes : Nodes) : ℕ → List Slot → List Hdr
  | 0, _ => []
  | g + 1, l => refsOf nodes g l

/-- What lies below a list of entries of a node at height `g` is well-formed. -/
def BelowOk (env : Env) (nodes : Nodes) : ℕ → List Slot → Prop
  | 0, _ => True
  | g + 1, l => Forest env nodes g l

section
variable {env : Env} {nodes nodes' : Nodes} {g : ℕ} {h : Hdr} {l r : List Slot}

theorem exts_below : exts nodes g h = below nodes g (nodes h).entries := by
  cases g <;> rfl

theorem refs_below : refs nodes g h = h :: belowRefs nodes g (nodes h).entries := by
  cases g <;> rfl

theorem sub_iff_below : Sub env nodes g h ↔ HeaderOk env nodes g h ∧ (nodes h).entries ≠ [] ∧
    BelowOk env nodes g (nodes h).entries := by
  cases g with
  | zero => simp [Tree.Sub, BelowOk]
  | succ g => exact sub_succ

theorem below_succ : below nodes (g + 1) l = extsOf nodes g l := rfl

@[simp] theorem below_nil : below nodes g [] = [] := by
  cases g <;> rfl

theorem below_append : below nodes g (l ++ r) = below nodes g l ++ below nodes g r := by
  cases g with
  | zero => rfl
  | succ g => exact extsOf_append

theorem BelowOk.append : BelowOk env nodes g (l ++ r) ↔
    BelowOk env nodes g l ∧ BelowOk env nodes g r := by
  cases g with
  | zero => simp [BelowOk]
  | succ g => exact Forest.append

theorem below_congr (heq : ∀ r ∈ belowRefs nodes g l, nodes' r = nodes r) :
    below nodes' g l = below nodes g l := by
  cases g with
  | zero => rfl
  | succ g => exact extsOf_congr heq

theorem belowRefs_congr (heq : ∀ r ∈ belowRefs nodes g l, nodes' r = nodes r) :
    belowRefs nodes' g l = belowRefs nodes g l := by
  cases g with
  | zero => rfl
  | succ g => exact refsOf_congr heq

theorem belowOk_congr (heq : ∀ r ∈ belowRefs nodes g l, nodes' r = nodes r)
    (hf : BelowOk env nodes g l) : BelowOk env nodes' g l := by
  cases g with
  | zero => trivial
  | succ g => exact forest_congr heq hf

/-- The first extent below a list of entries starts at the key of the first entry. -/
theorem below_head {x : Slot} (hf : BelowOk env nodes g (x :: l)) :
    (below nodes g (x :: l)).head?.map Slot.firstBlock = some x.firstBlock := by
  cases g with
  | zero => rfl
  | succ g =>
    have hkey := (Forest.cons.mp hf).1.2
    unfold KeyOk at hkey
    rw [below_succ, extsOf_cons, List.head?_append]
    rcases hx : (exts nodes g (child x)).head? with _ | y
    · rw [hx] at hkey
      simp at hkey
    · rw [hx] at hkey
      exact hkey

/-- The key of a child that is well-formed is its node's first key. -/
theorem keyOk_of_first {ix : Slot} (hs : Sub env nodes g (child ix))
    (hk : ix.firstBlock = ((nodes (child ix)).slots 0).firstBlock) : KeyOk nodes g ix := by
  obtain ⟨-, hne, hb⟩ := sub_iff_below.mp hs
  have hhead := head_entries hs.entriesCount_pos
  rcases hl : (nodes (child ix)).entries with _ | ⟨x, l⟩
  · exact absurd hl hne
  · rw [hl] at hb hhead
    unfold KeyOk
    rw [exts_below, hl, below_head hb, hk]
    simp at hhead
    rw [hhead]

theorem firstKey_of_keyOk {ix : Slot} (hs : Sub env nodes g (child ix)) (hk : KeyOk nodes g ix) :
    ix.firstBlock = ((nodes (child ix)).slots 0).firstBlock := by
  obtain ⟨-, hne, hb⟩ := sub_iff_below.mp hs
  have hhead := head_entries hs.entriesCount_pos
  rcases hl : (nodes (child ix)).entries with _ | ⟨x, l⟩
  · exact absurd hl hne
  · rw [hl] at hb hhead
    unfold KeyOk at hk
    rw [exts_below, hl, below_head hb] at hk
    simp at hhead hk
    rw [← hhead, hk]

end

/-! ### The last level of a way -/

section
variable {env : Env} {nodes : Nodes} {hdr : ℕ → Hdr} {pos : ℕ → ℕ} {g i : ℕ}

theorem spine_last : Spine env nodes hdr pos g (i + 1) 0 ↔ Spine env nodes hdr pos (g + 1) i 0 ∧
    HeaderOk env nodes (g + 1) (hdr i) ∧ pos i < (nodes (hdr i)).entriesCount ∧
    hdr (i + 1) = child (cur nodes hdr pos i) ∧ Forest env nodes g (before nodes hdr pos i) ∧
    Forest env nodes g (after nodes hdr pos i) := by
  rw [spine_split, Nat.zero_add, spine_succ]
  simp [Spine]

theorem lefts_last : lefts nodes hdr pos g (i + 1) 0 =
    lefts nodes hdr pos (g + 1) i 0 ++ extsOf nodes g (before nodes hdr pos i) := by
  rw [lefts_split, Nat.zero_add, lefts_succ]
  simp [lefts]

theorem rights_last : rights nodes hdr pos g (i + 1) 0 =
    extsOf nodes g (after nodes hdr pos i) ++ rights nodes hdr pos (g + 1) i 0 := by
  rw [rights_split, Nat.zero_add, rights_succ]
  simp [rights]

theorem sibRefs_last : sibRefs nodes hdr pos g (i + 1) 0 = sibRefs nodes hdr pos (g + 1) i 0 ++
    (refsOf nodes g (before nodes hdr pos i) ++ refsOf nodes g (after nodes hdr pos i)) := by
  rw [sibRefs_split, Nat.zero_add, sibRefs_succ]
  simp [sibRefs]

/-- The keys of a way are exact when each is the first key of the node below. -/
theorem keys_iff_first {env : Env} {n j : ℕ} (hs : Spine env nodes hdr pos g n j)
    (hg : Tree.Sub env nodes g (hdr (j + n))) : Keys nodes hdr pos g n j ↔ ∀ k, j ≤ k → k < j + n →
      (cur nodes hdr pos k).firstBlock = ((nodes (hdr (k + 1))).slots 0).firstBlock := by
  induction n generalizing j with
  | zero => exact ⟨fun _ k h1 h2 => by omega, fun _ => trivial⟩
  | succ n ih =>
    obtain ⟨-, -, hnext, -, -, hrest⟩ := hs
    rw [show j + (n + 1) = j + 1 + n by omega] at hg ⊢
    have hbelow : Keys nodes hdr pos g n (j + 1) →
        Tree.Sub env nodes (g + n) (child (cur nodes hdr pos j)) := fun hk => by
      rw [← hnext]
      exact spine_close hrest hk hg
    constructor
    · rintro ⟨hkey, hk⟩ k h1 h2
      rcases Nat.eq_or_lt_of_le h1 with rfl | h1
      · rw [hnext]
        exact firstKey_of_keyOk (hbelow hk) hkey
      · exact (ih hrest hg).mp hk k h1 h2
    · intro hall
      have hk := (ih hrest hg).mpr fun k h1 h2 => hall k (by omega) h2
      refine ⟨keyOk_of_first (hbelow hk) ?_, hk⟩
      rw [← hnext]
      exact hall j le_rfl (by omega)

end

/-! ### The invariant -/

/-- An extent that the removal has not come to: it ends in the range or behind it, and does not
reach past both ends of the range. -/
structure Ahead (lo hi : ℕ) (x : Slot) : Prop extends LowExt x where
  past : lo < extEnd x
  one : lo ≤ x.firstBlock ∨ extEnd x ≤ hi + 1

/-- From `s₀` to `s` the runs `data` and the blocks `removed` were freed, in some order. -/
def Freed (s₀ s : St) (data : List (ℤ × ℤ)) (removed : List ℕ) : Prop :=
  ∃ runs, runs.Perm (data ++ removed.map fun b : ℕ => ((b : ℤ), 1)) ∧
    s.freed = (freeRuns runs s₀).freed ∧ s.used = (freeRuns runs s₀).used

/-- The extents before the position of a walk at level `i`, whose node has the entries `front`
before it. -/
def doneExts (s : St) (i g : ℕ) (front : List Slot) : List Slot :=
  lefts s.nodes (headerAt s) (cursorAt s) g i 0 ++ below s.nodes g front

/-- The extents from its position on, where its node has the entries `back`. -/
def todoExts (s : St) (i g : ℕ) (back : List Slot) : List Slot :=
  below s.nodes g back ++ rights s.nodes (headerAt s) (cursorAt s) g i 0

/-- The nodes of the tree, with those below the entries `l` of the walk's node. -/
def liveRefs (s : St) (i g : ℕ) (l : List Slot) : List Hdr :=
  hdrs (headerAt s) (i + 1) 0 ++ sibRefs s.nodes (headerAt s) (cursorAt s) g i 0 ++
    belowRefs s.nodes g l

/-- Of the extents of `s₀` the removal has come past the first ones: what they keep is `done`, what
they lose was freed with the blocks `removed`, and the others are `todo`. -/
structure Account (lo hi : ℕ) (s₀ s : St) (done todo : List Slot) (live : List Hdr)
    (past : List Slot) (removed : List ℕ) : Prop where
  split : treeExts s₀ = past ++ todo
  kept : done = past.flatMap (keep lo hi)
  freed : Freed s₀ s (past.flatMap (gone lo hi)) removed
  refs : (treeRefs s₀).Perm (live ++ removed.map Hdr.block)

/-- **A removal that started at `s₀` is at level `i` of the path**, at a node of height `g` with the
entries `front` done and the entries `back` ahead. -/
structure Sweeping (env : Env) (lo hi : ℕ) (s₀ : St) (i g : ℕ) (front back : List Slot) (s : St) :
    Prop where
  root : headerAt s 0 = .inode
  index : ∀ j, j < i → (s.path j).index = some (cursorAt s j)
  spine : Spine env s.nodes (headerAt s) (cursorAt s) g i 0
  header : HeaderOk env s.nodes g (headerAt s i)
  entries : (s.nodes (headerAt s i)).entries = front ++ back
  sound : BelowOk env s.nodes g (front ++ back)
  ahead : ∀ x ∈ todoExts s i g back, Ahead lo hi x
  sorted : Sorted (todoExts s i g back)
  account : ∃ past removed, Account lo hi s₀ s (doneExts s i g front) (todoExts s i g back)
    (liveRefs s i g (front ++ back)) past removed

section
variable {env : Env} {lo hi i g : ℕ} {s₀ s t : St} {front back rest : List Slot} {ix : Slot}

theorem Sweeping.nodup (hw : Sweeping env lo hi s₀ i g front back s) (hnd : (treeRefs s₀).Nodup) :
    (liveRefs s i g (front ++ back)).Nodup := by
  obtain ⟨past, removed, ha⟩ := hw.account
  exact (List.nodup_append.mp (ha.refs.nodup_iff.mp hnd)).1

theorem Sweeping.steady (hw : Sweeping env lo hi s₀ i g front back s)
    (hnd : (treeRefs s₀).Nodup) : Steady s i := by
  refine ⟨hw.index, fun j j' hj hj' hne heq => hne ?_⟩
  have hlive := (List.nodup_append.mp (List.nodup_append.mp (hw.nodup hnd)).1).1
  exact Focus.hdrs_nodup hlive j j' (by omega) (by omega) (by omega) (by omega) heq

theorem Sweeping.depth (hw : Sweeping env lo hi s₀ i g front back s) : extDepth s = g + i := by
  unfold extDepth
  rw [← hw.root]
  cases i with
  | zero => exact hw.header.depth
  | succ i => exact hw.spine.1.depth

/-- The nodes beside the path and below the walk are not on the path. -/
theorem Sweeping.off_path (hw : Sweeping env lo hi s₀ i g front back s)
    (hnd : (treeRefs s₀).Nodup)
    {r : Hdr} (hr : r ∈ sibRefs s.nodes (headerAt s) (cursorAt s) g i 0 ∨
      r ∈ belowRefs s.nodes g (front ++ back)) {j : ℕ} (hj : j ≤ i) : r ≠ headerAt s j := by
  have hlive := hw.nodup hnd
  have hmem : headerAt s j ∈ hdrs (headerAt s) (i + 1) 0 :=
    mem_hdrs.mpr ⟨j, by omega, by omega, rfl⟩
  unfold liveRefs at hlive
  obtain ⟨h1, -, h3⟩ := List.nodup_append.mp hlive
  rcases hr with hr | hr
  · exact ((List.nodup_append.mp h1).2.2 _ hmem _ hr).symm
  · exact (h3 _ (List.mem_append_left _ hmem) _ hr).symm

/-- Only the nodes, the allocator and the path down to level `i` count. -/
theorem Sweeping.congr (hw : Sweeping env lo hi s₀ i g front back s) (h : SameTo s t i) :
    Sweeping env lo hi s₀ i g front back t := by
  have hc : ∀ j, j < i → cursorAt t j = cursorAt s j := fun j hj => h.cursor hj
  obtain ⟨hn, hu, hf, hh, hx⟩ := h
  have hspine := (@spine_congr_way env s.nodes (headerAt s) (cursorAt s) g i 0 (headerAt t)
    (cursorAt t) (fun j _ hj => hh j (by omega)) fun j _ hj => hc j (by omega)).mpr hw.spine
  obtain ⟨hl, hr, hsib, -⟩ := @reads_congr s.nodes (headerAt s) (cursorAt s) g i 0 (headerAt t)
    (cursorAt t) (fun j _ hj => hh j (by omega)) fun j _ hj => hc j (by omega)
  have hdone : doneExts t i g front = doneExts s i g front := by
    unfold doneExts
    rw [hn, hl]
  have htodo : todoExts t i g back = todoExts s i g back := by
    unfold todoExts
    rw [hn, hr]
  have hlive : liveRefs t i g (front ++ back) = liveRefs s i g (front ++ back) := by
    unfold liveRefs
    rw [hn, hsib, hdrs_congr fun j hj => hh j (by omega)]
  obtain ⟨past, removed, h4, h5, ⟨runs, h1, h2, h3⟩, h6⟩ := hw.account
  refine ⟨(hh 0 (by omega)).trans hw.root, fun j hj => ?_, by rwa [hn], ?_, ?_, ?_, ?_, ?_,
    past, removed, by rwa [htodo], by rwa [hdone], ⟨runs, h1, hf.trans h2, hu.trans h3⟩,
    by rwa [hlive]⟩
  · rw [hx j hj, hc j hj]
    exact hw.index j hj
  · rw [hn, hh i le_rfl]
    exact hw.header
  · rw [hn, hh i le_rfl]
    exact hw.entries
  · rw [hn]
    exact hw.sound
  · rw [htodo]
    exact hw.ahead
  · rw [htodo]
    exact hw.sorted

/-- **The tree under way is well-formed, unless a node has lost all its entries.** -/
theorem Sweeping.read (hw : Sweeping env lo hi s₀ i g front back s)
    (hl : ∀ j, j < i → LinkedAt s j) (hne : front ++ back ≠ []) :
    Tree.Sub env s.nodes (extDepth s) .inode ∧
      treeExts s = doneExts s i g front ++ todoExts s i g back ∧
      (treeRefs s).Perm (liveRefs s i g (front ++ back)) := by
  have hsub : Tree.Sub env s.nodes g (headerAt s (0 + i)) := by
    rw [Nat.zero_add]
    exact sub_iff_below.mpr ⟨hw.header, by rwa [hw.entries], by rw [hw.entries]; exact hw.sound⟩
  have hkeys := (keys_iff_first hw.spine hsub).mpr fun j _ hj => hl j (by omega)
  have hexts := exts_spine (g := g) hw.spine.onPath
  have hrefs := refs_spine (g := g) hw.spine.onPath
  have hroot := spine_close hw.spine hkeys hsub
  rw [hw.root, ← hw.depth] at hexts hrefs hroot
  refine ⟨hroot, hexts.trans ?_, hrefs.trans ?_⟩
  · unfold doneExts todoExts
    rw [Nat.zero_add, exts_below, hw.entries, below_append]
    simp only [List.append_assoc]
  · unfold liveRefs
    rw [Nat.zero_add, refs_below, hw.entries, hdrs_last, ← Multiset.coe_eq_coe]
    simp only [← Multiset.coe_add, ← Multiset.cons_coe, ← Multiset.singleton_add, Multiset.coe_nil,
      add_zero]
    abel

/-! ### Reading the walk at another level -/

/-- The entries of the node at level `i` before and behind the position. -/
theorem Sweeping.split (hw : Sweeping env lo hi s₀ i g front (ix :: rest) s)
    (hx : cursorAt s i = front.length) :
    cursorAt s i < (s.nodes (headerAt s i)).entriesCount ∧
      before s.nodes (headerAt s) (cursorAt s) i = front ∧
      cur s.nodes (headerAt s) (cursorAt s) i = ix ∧
      after s.nodes (headerAt s) (cursorAt s) i = rest := by
  have hlt : cursorAt s i < (s.nodes (headerAt s i)).entriesCount := by
    rw [← length_entries, hw.entries, hx]
    simp
  have hsplit := @entries_split (s.nodes (headerAt s i)) _ hlt
  rw [hw.entries] at hsplit
  obtain ⟨h1, h2⟩ := List.append_inj hsplit (by
    rw [List.length_take, ← hw.entries, length_entries, hx]
    omega)
  obtain ⟨h3, h4⟩ := List.cons.inj h2
  rw [← hw.entries] at h1 h4
  exact ⟨hlt, h1.symm, h3.symm, h4.symm⟩

/-- **Down to the first child ahead.** -/
theorem Sweeping.down (hw : Sweeping env lo hi s₀ i (g + 1) front (ix :: rest) s)
    (hx : (s.path i).index = some front.length) (hnext : headerAt s (i + 1) = child ix) :
    Sweeping env lo hi s₀ (i + 1) g [] (s.nodes (child ix)).entries s := by
  have hc := cursorAt_of_index hx
  obtain ⟨hlt, hb, hcur, ha⟩ := hw.split hc
  have hforest : Forest env s.nodes g (front ++ ix :: rest) := hw.sound
  obtain ⟨hf, hcr⟩ := Forest.append.mp hforest
  obtain ⟨⟨hsub, -⟩, hr⟩ := Forest.cons.mp hcr
  obtain ⟨hh, -, hbelow⟩ := sub_iff_below.mp hsub
  have hdone : doneExts s (i + 1) g [] = doneExts s i (g + 1) front := by
    unfold doneExts
    rw [lefts_last, hb, below_nil, List.append_nil]
    rfl
  have htodo : todoExts s (i + 1) g (s.nodes (child ix)).entries =
      todoExts s i (g + 1) (ix :: rest) := by
    unfold todoExts
    rw [rights_last, ha, below_succ, extsOf_cons, exts_below, List.append_assoc]
  have hlive : (liveRefs s i (g + 1) (front ++ ix :: rest)).Perm
      (liveRefs s (i + 1) g ([] ++ (s.nodes (child ix)).entries)) := by
    unfold liveRefs
    rw [hdrs_last (i + 1), sibRefs_last, hb, ha, hnext, List.nil_append,
      show belowRefs s.nodes (g + 1) (front ++ ix :: rest) =
        refsOf s.nodes g (front ++ ix :: rest) from rfl, refsOf_append, refsOf_cons, refs_below,
      ← Multiset.coe_eq_coe]
    simp only [← Multiset.coe_add, List.cons_append, ← Multiset.cons_coe, ← Multiset.singleton_add,
      Multiset.coe_nil, add_zero]
    abel
  obtain ⟨past, removed, h1, h2, h3, h4⟩ := hw.account
  refine ⟨hw.root, fun j hj => ?_, ?_, ?_, ?_, ?_, ?_, ?_, past, removed, by rwa [htodo],
    by rwa [hdone], h3, h4.trans (hlive.append_right _)⟩
  · rcases Nat.eq_or_lt_of_le (show j ≤ i by omega) with rfl | hj
    · rw [hx, hc]
    · exact hw.index j hj
  · rw [spine_last]
    refine ⟨hw.spine, hw.header, hlt, by rw [hcur, hnext], ?_, ?_⟩
    · rwa [hb]
    · rwa [ha]
  · rwa [hnext]
  · rw [hnext]
    rfl
  · exact hbelow
  · rw [htodo]
    exact hw.ahead
  · rw [htodo]
    exact hw.sorted

/-- **Past a node that is done and has kept an entry.** -/
theorem Sweeping.past (hw : Sweeping env lo hi s₀ (i + 1) g front [] s) (hne : front ≠ [])
    (hl : LinkedAt s i) :
    Sweeping env lo hi s₀ i (g + 1) (before s.nodes (headerAt s) (cursorAt s) i ++
      [cur s.nodes (headerAt s) (cursorAt s) i]) (after s.nodes (headerAt s) (cursorAt s) i) s := by
  obtain ⟨hspine, hh, hlt, hnext, hb, ha⟩ := spine_last.mp hw.spine
  have hentries := hw.entries
  have hbelow := hw.sound
  rw [List.append_nil] at hentries hbelow
  have hsub : Sub env s.nodes g (child (cur s.nodes (headerAt s) (cursorAt s) i)) := by
    rw [← hnext]
    refine sub_iff_below.mpr ⟨hw.header, by rwa [hentries], by rwa [hentries]⟩
  have hkey : KeyOk s.nodes g (cur s.nodes (headerAt s) (cursorAt s) i) := by
    refine keyOk_of_first hsub ?_
    rw [← hnext]
    exact hl
  have hexts : exts s.nodes g (child (cur s.nodes (headerAt s) (cursorAt s) i)) =
      below s.nodes g front := by
    rw [← hnext, exts_below, hentries]
  have hdone : doneExts s i (g + 1) (before s.nodes (headerAt s) (cursorAt s) i ++
      [cur s.nodes (headerAt s) (cursorAt s) i]) = doneExts s (i + 1) g front := by
    unfold doneExts
    rw [lefts_last, below_succ, extsOf_append, extsOf_cons, hexts, extsOf_nil, List.append_nil,
      List.append_assoc]
  have htodo : todoExts s i (g + 1) (after s.nodes (headerAt s) (cursorAt s) i) =
      todoExts s (i + 1) g [] := by
    unfold todoExts
    rw [rights_last, below_nil, List.nil_append]
    rfl
  have hlive : (liveRefs s (i + 1) g (front ++ [])).Perm
      (liveRefs s i (g + 1) (before s.nodes (headerAt s) (cursorAt s) i ++
        [cur s.nodes (headerAt s) (cursorAt s) i] ++
        after s.nodes (headerAt s) (cursorAt s) i)) := by
    unfold liveRefs
    rw [hdrs_last (i + 1), sibRefs_last, List.append_nil, show ∀ l, belowRefs s.nodes (g + 1) l =
      refsOf s.nodes g l from fun _ => rfl, refsOf_append, refsOf_append, refsOf_cons, ← hnext,
      refs_below, hentries, ← Multiset.coe_eq_coe]
    simp only [← Multiset.coe_add, ← Multiset.cons_coe, ← Multiset.singleton_add, Multiset.coe_nil,
      add_zero, refsOf_nil, List.append_nil]
    abel
  obtain ⟨past, removed, h1, h2, h3, h4⟩ := hw.account
  refine ⟨hw.root, fun j hj => hw.index j (by omega), hspine, hh, ?_, ?_, ?_, ?_, past, removed,
    by rwa [htodo], by rwa [hdone], h3, h4.trans (hlive.append_right _)⟩
  · rw [entries_cur hlt, List.append_assoc]
    rfl
  · refine Forest.append.mpr
      ⟨Forest.append.mpr ⟨hb, Forest.cons.mpr ⟨⟨hsub, hkey⟩, Forest.nil⟩⟩, ha⟩
  · rw [htodo]
    exact hw.ahead
  · rw [htodo]
    exact hw.sorted

/-- **Nothing is left to do at a node whose extents ahead lie behind the range.** -/
theorem Sweeping.skip (hw : Sweeping env lo hi s₀ i g front back s) (hlh : lo ≤ hi)
    (hall : ∀ x ∈ below s.nodes g back, hi < x.firstBlock) :
    Sweeping env lo hi s₀ i g (front ++ back) [] s := by
  obtain ⟨hkeep, hgone⟩ := flatMap_keep_behind (fun x hx =>
    (hw.ahead x (List.mem_append_left _ hx)).toExtOk) hlh hall
  have hdone : doneExts s i g (front ++ back) = doneExts s i g front ++ below s.nodes g back := by
    unfold doneExts
    rw [below_append, List.append_assoc]
  have htodo : todoExts s i g back = below s.nodes g back ++ todoExts s i g [] := by
    unfold todoExts
    rw [below_nil, List.nil_append]
  have hahead := hw.ahead
  have hsorted := hw.sorted
  obtain ⟨past, removed, h1, h2, h3, h4⟩ := hw.account
  rw [htodo] at hahead hsorted h1
  refine ⟨hw.root, hw.index, hw.spine, hw.header, ?_, ?_, fun x hx =>
    hahead x (List.mem_append_right _ hx), (ordered_append.mp hsorted).2.1,
    past ++ below s.nodes g back, removed, ?_, ?_, ?_, ?_⟩
  · rw [List.append_nil]
    exact hw.entries
  · rw [List.append_nil]
    exact hw.sound
  · rw [h1, List.append_assoc]
  · rw [hdone, List.flatMap_append, hkeep, h2]
  · rwa [List.flatMap_append, hgone, List.append_nil]
  · rwa [List.append_nil]

/-! ### Changes of the nodes -/

theorem Freed.append {data data' runs : List (ℤ × ℤ)} {removed removed' : List ℕ}
    (hf : Freed s₀ s data removed) (h1 : t.freed = (freeRuns runs s).freed)
    (h2 : t.used = (freeRuns runs s).used)
    (hp : (data ++ (removed.map fun b : ℕ => ((b : ℤ), (1 : ℤ))) ++ runs).Perm
      (data' ++ removed'.map fun b : ℕ => ((b : ℤ), (1 : ℤ)))) : Freed s₀ t data' removed' := by
  obtain ⟨runs₀, h3, h4, h5⟩ := hf
  refine ⟨runs₀ ++ runs, (h3.append_right runs).trans hp, ?_, ?_⟩ <;> rw [← freeRuns_append]
  · rw [h1]
    show s.freed ++ runs = (freeRuns runs₀ s₀).freed ++ runs
    rw [h4]
  · rw [h2]
    unfold freeRuns at h5 ⊢
    rw [h5]

/-- **Handing keys up leaves the walk as it is.** -/
theorem Sweeping.handed (hw : Sweeping env lo hi s₀ i g front back s) (hnd : (treeRefs s₀).Nodup)
    (hh : Handed s t i) : Sweeping env lo hi s₀ i g front back t := by
  have hs := hw.steady hnd
  have hheader := headerAt_congr hh.path
  have hcursor := cursorAt_congr hh.path
  have hoff : ∀ r, r ∈ sibRefs s.nodes (headerAt s) (cursorAt s) g i 0 ∨
      r ∈ belowRefs s.nodes g (front ++ back) → t.nodes r = s.nodes r := fun r hr =>
    hh.off r fun j hj => hw.off_path hnd hr (by omega)
  have hbelow : ∀ l, l.Sublist (front ++ back) → below t.nodes g l = below s.nodes g l ∧
      belowRefs t.nodes g l = belowRefs s.nodes g l := fun l hl => by
    have hsub : ∀ r ∈ belowRefs s.nodes g l, t.nodes r = s.nodes r := fun r hr => by
      refine hoff r (Or.inr ?_)
      cases g with
      | zero => simp [belowRefs] at hr
      | succ g =>
        obtain ⟨x, hx, hr⟩ := List.mem_flatMap.mp hr
        exact List.mem_flatMap.mpr ⟨x, hl.subset hx, hr⟩
    exact ⟨below_congr hsub, belowRefs_congr hsub⟩
  have hnode : t.nodes (headerAt s i) = s.nodes (headerAt s i) := hh.below hs le_rfl le_rfl
  obtain ⟨hspine, hl, hr, hsib⟩ := @spine_update env s.nodes t.nodes (headerAt s) (cursorAt s) g i 0
    hw.spine (fun j _ hj => hh.keys j (by omega)) fun r hr => hoff r (Or.inl hr)
  have hdone : doneExts t i g front = doneExts s i g front := by
    unfold doneExts
    rw [hheader, hcursor, hl, (hbelow front (List.sublist_append_left _ _)).1]
  have htodo : todoExts t i g back = todoExts s i g back := by
    unfold todoExts
    rw [hheader, hcursor, hr, (hbelow back (List.sublist_append_right _ _)).1]
  have hlive : liveRefs t i g (front ++ back) = liveRefs s i g (front ++ back) := by
    unfold liveRefs
    rw [hheader, hcursor, hsib, (hbelow _ (List.Sublist.refl _)).2]
  obtain ⟨past, removed, h4, h5, ⟨runs, h1, h2, h3⟩, h6⟩ := hw.account
  refine ⟨by rw [hheader]; exact hw.root, fun j hj => ?_, by rwa [hheader, hcursor], ?_, ?_,
    belowOk_congr (fun r hr => hoff r (Or.inr hr)) hw.sound, ?_, ?_, past, removed, by rwa [htodo],
    by rwa [hdone], ⟨runs, h1, hh.freed.trans h2, hh.used.trans h3⟩, by rwa [hlive]⟩
  · rw [hh.path, hcursor]
    exact hw.index j hj
  · rw [hheader]
    exact headerOk_congr hnode hw.header
  · rw [hheader, hnode]
    exact hw.entries
  · rw [htodo]
    exact hw.ahead
  · rw [htodo]
    exact hw.sorted

theorem refilled_header {nodes : Nodes} {h : Hdr} {eh' : Node} {l : List Slot}
    (hh : HeaderOk env nodes g h) (hr : Refilled (nodes h) eh' l)
    (hl : l.length ≤ (nodes h).entriesCount) :
    HeaderOk env (Function.update nodes h eh') g h := by
  obtain ⟨h1, h2, h3, h4, h5⟩ := hh
  have hcount : eh'.entriesCount = l.length := by rw [← hr.entries, length_entries]
  constructor <;> rw [Function.update_self]
  · rw [hr.magic, h1]
  · rw [hr.depth, h2]
  · rwa [hr.max]
  · rwa [hr.max]
  · rw [hr.max, hcount]
    omega

/-- **The leaf has lost what it has in the range.** -/
theorem Sweeping.cut {eh' : Node} (hw : Sweeping env lo hi s₀ i 0 front back s)
    (hnd : (treeRefs s₀).Nodup)
    (hr : Refilled (s.nodes (headerAt s i)) eh' (front ++ back.flatMap (keep lo hi)))
    (hn : t.nodes = Function.update s.nodes (headerAt s i) eh') (hp : t.path = s.path)
    (hf : t.freed = (freeRuns (back.flatMap (gone lo hi)) s).freed)
    (hu : t.used = (freeRuns (back.flatMap (gone lo hi)) s).used) :
    Sweeping env lo hi s₀ i 0 (front ++ back.flatMap (keep lo hi)) [] t := by
  have hs := hw.steady hnd
  have hheader := headerAt_congr hp
  have hcursor := cursorAt_congr hp
  obtain ⟨hspine, hl, hright, hsib⟩ := @spine_update env s.nodes t.nodes (headerAt s) (cursorAt s) 0
    i 0 hw.spine (fun j _ hj => by
      rw [hn, Function.update_of_ne (hs.distinct j i (by omega) le_rfl (by omega))]
      exact .refl _ _) fun r hr => by
      rw [hn, Function.update_of_ne (hw.off_path hnd (Or.inl hr) le_rfl)]
  have hahead := hw.ahead
  have hlen : (front ++ back.flatMap (keep lo hi)).length ≤
      (s.nodes (headerAt s i)).entriesCount := by
    have hle : (back.flatMap (keep lo hi)).length ≤ back.length := by
      rw [List.length_flatMap]
      refine (List.sum_le_card_nsmul _ 1 fun n hmem => ?_).trans (by simp)
      obtain ⟨x, hx, rfl⟩ := List.mem_map.mp hmem
      exact keep_length (hahead x (List.mem_append_left _ hx)).one
    rw [← length_entries, hw.entries, List.length_append, List.length_append]
    omega
  have htodo : todoExts s i 0 back = back ++ todoExts t i 0 [] := by
    unfold todoExts
    rw [hheader, hcursor, hright]
    rfl
  have hsorted := hw.sorted
  obtain ⟨past, removed, h1, h2, h3, h4⟩ := hw.account
  rw [htodo] at hahead hsorted h1
  refine ⟨by rw [hheader]; exact hw.root, fun j hj => ?_, by rwa [hheader, hcursor], ?_, ?_,
    trivial, fun x hx => hahead x (List.mem_append_right _ hx), (ordered_append.mp hsorted).2.1,
    past ++ back, removed, ?_, ?_, h3.append hf hu ?_, ?_⟩
  · rw [hp, hcursor]
    exact hw.index j hj
  · rw [hheader, hn]
    exact refilled_header hw.header hr hlen
  · rw [hheader, hn, Function.update_self, hr.entries, List.append_nil]
  · rw [h1, List.append_assoc]
  · rw [List.flatMap_append, ← h2]
    unfold doneExts
    rw [hheader, hcursor, hl, List.append_assoc]
    rfl
  · rw [List.flatMap_append, List.append_assoc, List.append_assoc]
    exact List.perm_append_comm.append_left _
  · unfold liveRefs at h4 ⊢
    rw [hheader, hcursor, hsib]
    exact h4

/-- **A node without entries has been taken out of the node above and freed.** -/
theorem Sweeping.drop (hw : Sweeping env lo hi s₀ (i + 1) g [] [] s) (hnd : (treeRefs s₀).Nodup)
    (hwidth : (s.nodes (headerAt s i)).entriesCount < 2 ^ 16)
    (hn : t.nodes = Function.update s.nodes (headerAt s i)
      (closeGap (s.nodes (headerAt s i)) (cursorAt s i))) (hp : t.path = s.path)
    (hf : t.freed = (freeRuns [((ext4IdxPblock (cur s.nodes (headerAt s) (cursorAt s) i) : ℕ), 1)]
      s).freed)
    (hu : t.used = (freeRuns [((ext4IdxPblock (cur s.nodes (headerAt s) (cursorAt s) i) : ℕ), 1)]
      s).used) :
    Sweeping env lo hi s₀ i (g + 1) (before s.nodes (headerAt s) (cursorAt s) i)
      (after s.nodes (headerAt s) (cursorAt s) i) t := by
  have hs := hw.steady hnd
  have hheader := headerAt_congr hp
  have hcursor := cursorAt_congr hp
  obtain ⟨hspine, hh, hlt, hnext, hb, ha⟩ := spine_last.mp hw.spine
  obtain ⟨hcount, hentries⟩ := closeGap_entries hlt hwidth
  have hsame : ∀ r ∈ sibRefs s.nodes (headerAt s) (cursorAt s) g (i + 1) 0,
      t.nodes r = s.nodes r := fun r hr => by
    rw [hn, Function.update_of_ne (hw.off_path hnd (Or.inl hr) (by omega))]
  rw [sibRefs_last] at hsame
  have hB : ∀ r ∈ refsOf s.nodes g (before s.nodes (headerAt s) (cursorAt s) i),
      t.nodes r = s.nodes r := fun r hr => hsame r (by simp only [List.mem_append]; tauto)
  have hA : ∀ r ∈ refsOf s.nodes g (after s.nodes (headerAt s) (cursorAt s) i),
      t.nodes r = s.nodes r := fun r hr => hsame r (by simp only [List.mem_append]; tauto)
  obtain ⟨hspine', hl, hright, hsib⟩ := @spine_update env s.nodes t.nodes (headerAt s) (cursorAt s)
    (g + 1) i 0 hspine (fun j _ hj => by
      rw [hn, Function.update_of_ne (hs.distinct j i (by omega) (by omega) (by omega))]
      exact .refl _ _) fun r hr => hsame r (List.mem_append_left _ hr)
  have hdone : doneExts t i (g + 1) (before s.nodes (headerAt s) (cursorAt s) i) =
      doneExts s (i + 1) g [] := by
    unfold doneExts
    rw [hheader, hcursor, hl, lefts_last, below_nil, List.append_nil, below_succ, extsOf_congr hB]
  have htodo : todoExts t i (g + 1) (after s.nodes (headerAt s) (cursorAt s) i) =
      todoExts s (i + 1) g [] := by
    unfold todoExts
    rw [hheader, hcursor, hright, rights_last, below_nil, List.nil_append, below_succ,
      extsOf_congr hA]
  have hlive : (liveRefs s (i + 1) g ([] ++ [])).Perm (liveRefs t i (g + 1)
      (before s.nodes (headerAt s) (cursorAt s) i ++ after s.nodes (headerAt s) (cursorAt s) i) ++
        [child (cur s.nodes (headerAt s) (cursorAt s) i)]) := by
    unfold liveRefs
    rw [hheader, hcursor, hsib, hdrs_last (i + 1), sibRefs_last, hnext,
      show ∀ l, belowRefs t.nodes (g + 1) l = refsOf t.nodes g l from fun _ => rfl, refsOf_append,
      refsOf_congr hB, refsOf_congr hA, List.append_nil,
      show belowRefs s.nodes g [] = [] by cases g <;> rfl, ← Multiset.coe_eq_coe]
    simp only [← Multiset.coe_add, Multiset.coe_nil, add_zero]
    abel
  obtain ⟨past, removed, h1, h2, h3, h4⟩ := hw.account
  refine ⟨by rw [hheader]; exact hw.root, fun j hj => ?_, by rwa [hheader, hcursor], ?_, ?_,
    Forest.append.mpr ⟨forest_congr hB hb, forest_congr hA ha⟩, ?_, ?_,
    past, removed ++ [ext4IdxPblock (cur s.nodes (headerAt s) (cursorAt s) i)], by rwa [htodo],
    by rwa [hdone], h3.append hf hu (by simp), ?_⟩
  · rw [hp, hcursor]
    exact hw.index j (by omega)
  · rw [hheader]
    obtain ⟨k1, k2, k3, k4, k5⟩ := hh
    constructor <;> rw [hn, Function.update_self]
    · exact k1
    · exact k2
    · exact k3
    · exact k4
    · rw [hcount]
      show _ ≤ (s.nodes (headerAt s i)).maxEntriesCount
      omega
  · rw [hheader, hn, Function.update_self, hentries]
  · rw [htodo]
    exact hw.ahead
  · rw [htodo]
    exact hw.sorted
  · refine h4.trans ((hlive.append_right _).trans ?_)
    rw [List.map_append, List.append_assoc]
    exact List.perm_append_comm.append_left _

end

end Ext4Fsd.Extent.Sweep
