import Ext4Fsd.Extent.RemoveEnds
import Ext4Fsd.Extent.Sweep

/-! # What a removal leaves

`ext4_extent_remove_space` starts at the leaf that its lookup has found and sweeps over the tree
from there (`Sweeping`). Each turn of its loop keeps this (`removeTurn_after`): the turn at a leaf
cuts the leaf and gets past it, a turn at an index node goes down to the next child or gets past the
node. So the removal leaves a well-formed tree, with what its extents keep of the range and nothing
else changed. It does so also when the block layer refuses a block on the way: then the extents from
there on are as they were. -/

namespace Ext4Fsd.Extent.RemoveSpace

open Ext4Fsd.Lib.CInt Ext4Fsd.Lib.Fallible Ext4Fsd.Lib.Intervals Ext4Fsd.Lib.Levels
open Ext4Fsd.Extent.Layout Ext4Fsd.Extent.Store Ext4Fsd.Extent.Search Ext4Fsd.Extent.Insert
open Ext4Fsd.Extent.Remove Ext4Fsd.Extent.Tree Ext4Fsd.Extent.Mapping Ext4Fsd.Extent.Way
open Ext4Fsd.Extent.Found Ext4Fsd.Extent.Lookup Ext4Fsd.Extent.Prepared Ext4Fsd.Extent.Pending
open Ext4Fsd.Extent.Passing Ext4Fsd.Extent.ReadBlocks Ext4Fsd.Extent.RemoveEnds
open Ext4Fsd.Extent.Linked Ext4Fsd.Extent.LeafCut Ext4Fsd.Extent.Sweep

/-- The removal is at an index node, and its cursor is behind what is done there. -/
def AtIndex (env : Env) (lo hi : ℕ) (s₀ : St) (i g : ℕ) (s : St) : Prop :=
  ∃ front back, Sweeping env lo hi s₀ i (g + 1) front back s ∧ (∀ j, j < i → LinkedAt s j) ∧
    (s.path i).index = some front.length

/-- The removal is about to work on a leaf: its cursor is behind what is done there, and what comes
next starts in the range or before it. -/
structure LeafReady (hi i : ℕ) (front back : List Slot) (s : St) : Prop where
  extent : (s.path i).extent = some front.length
  block : (s.path i).block = 0 ↔ i = 0
  sorted : Sorted (front ++ back)
  low : ∀ x ∈ front ++ back, LowExt x
  first : ∃ y rest, back = y :: rest ∧ y.firstBlock ≤ hi

def AtLeaf (env : Env) (lo hi : ℕ) (s₀ : St) (i : ℕ) (s : St) : Prop :=
  ∃ front back, Sweeping env lo hi s₀ i 0 front back s ∧ (∀ j, j < i → LinkedAt s j) ∧
    LeafReady hi i front back s

/-- The removal is about to take the turn at level `i`. -/
def AtTurn (env : Env) (lo hi : ℕ) (s₀ : St) (D i : ℕ) (s : St) : Prop :=
  (∃ g, D = i + (g + 1) ∧ AtIndex env lo hi s₀ i g s) ∨ (i = D ∧ AtLeaf env lo hi s₀ i s)

/-- The removal is over. -/
def Swept (env : Env) (lo hi : ℕ) (s₀ s : St) : Prop :=
  ∃ g front, Sweeping env lo hi s₀ 0 g front [] s

/-- The removal has stopped with something ahead. -/
def Halted (env : Env) (lo hi : ℕ) (s₀ s : St) : Prop :=
  ∃ i g front back, Sweeping env lo hi s₀ i g front back s ∧ (∀ j, j < i → LinkedAt s j) ∧ back ≠ []

/-- What a turn may come to: the removal is over, or it is about to take another turn, or a block
was refused. -/
def After (env : Env) (lo hi : ℕ) (s₀ : St) (D : ℕ) : Except Errno (Option ℕ) × St → Prop
  | (.ok none, t) => Swept env lo hi s₀ t
  | (.ok (some j), t) => AtTurn env lo hi s₀ D j t
  | (.error e, t) => ReadRefused env e ∧ Halted env lo hi s₀ t

section
variable {env : Env} {lo hi i g D : ℕ} {s₀ s t u : St} {front back rest : List Slot} {ix : Slot}

theorem AtIndex.congr (ha : AtIndex env lo hi s₀ i g s) (h : SameTo s t i)
    (hx : (t.path i).index = (s.path i).index) : AtIndex env lo hi s₀ i g t := by
  obtain ⟨front, back, hw, hl, hi⟩ := ha
  exact ⟨front, back, hw.congr h, fun j hj => h.linkedAt hj (hl j hj), hx.trans hi⟩

/-! ### Up -/

/-- **`path[i].index++` gets past a node that has kept an entry.** -/
theorem nextIndex_past (hw : Sweeping env lo hi s₀ (i + 1) g front [] s) (hne : front ≠ [])
    (hl : ∀ j, j < i + 1 → LinkedAt s j) :
    ∃ t, nextIndex i s = (.ok (), t) ∧ AtIndex env lo hi s₀ i g t := by
  have hx := hw.index i (by omega)
  obtain ⟨-, -, hlt, -⟩ := spine_last.mp hw.spine
  obtain ⟨t, hrun, hsame, hnext⟩ : ∃ t, nextIndex i s = (.ok (), t) ∧ SameTo s t i ∧
      (t.path i).index = some (cursorAt s i + 1) := by
    refine ⟨_, rfl, ⟨rfl, rfl, rfl, fun j _ => ?_, fun j hj => ?_⟩, ?_⟩
    · unfold headerAt
      by_cases hj : j = i <;> simp [hj]
    · rw [setPath_path, Function.update_of_ne (by omega)]
    · rw [setPath_path, Function.update_self, hx]
      rfl
  refine ⟨t, hrun, _, _, (hw.past hne (hl i (by omega))).congr hsame, fun j hj =>
    hsame.linkedAt hj (hl j (by omega)), ?_⟩
  rw [hnext, List.length_append, List.length_take, length_entries, List.length_singleton,
    Nat.min_eq_left hlt.le]

/-- **`ext4_ext_remove_idx` gets rid of a node without entries.** -/
theorem removeIdx_drop (hw : Sweeping env lo hi s₀ (i + 1) g [] [] s) (hnd : (treeRefs s₀).Nodup)
    (hsize : SizeOk env) (hl : ∀ j, j < i → LinkedAt s j) :
    ∃ t, ext4ExtRemoveIdx i s = (.ok (), t) ∧ AtIndex env lo hi s₀ i g t := by
  have hs := hw.steady hnd
  have hx := hw.index i (by omega)
  obtain ⟨-, hh, hlt, -⟩ := spine_last.mp hw.spine
  have hwidth : (s.nodes (headerAt s i)).entriesCount < 2 ^ 16 := by
    have := max_lt hsize hh
    have := hh.entries_le
    omega
  generalize hs1 : s.setNode (headerAt s i) (closeGap (s.nodes (headerAt s i)) (cursorAt s i)) = s1
  generalize hs2 : freeRuns [((ext4IdxPblock (cur s.nodes (headerAt s) (cursorAt s) i) : ℕ), 1)]
    (dirtied s1 i) = s2
  have hp2 : s2.path = s.path := by
    rw [← hs2, ← hs1]
    show (dirtied _ i).path = _
    simp
  have hn2 : s2.nodes = Function.update s.nodes (headerAt s i)
      (closeGap (s.nodes (headerAt s i)) (cursorAt s i)) := by
    rw [← hs2, ← hs1]
    show (dirtied _ i).nodes = _
    simp
  have hdrop := hw.drop hnd hwidth hn2 hp2 (by rw [← hs2, ← hs1]; simp [freeRuns])
    (by rw [← hs2, ← hs1]; simp [freeRuns])
  have hne : ∀ j, j < i → headerAt s j ≠ headerAt s i := fun j hj =>
    hs.distinct j i (by omega) (by omega) (by omega)
  have hkeep : ∀ j, j + 1 < i → LinkedAt s2 j := fun j hj => by
    refine (hl j (by omega)).of_nodes hp2 ?_ ?_ <;>
      rw [hn2, Function.update_of_ne (hne _ (by omega))]
  have hlast : (s2.path i).index = some 0 ∨ ∀ j, j + 1 = i → LinkedAt s2 j := by
    by_cases hc : cursorAt s i = 0
    · left
      rw [hp2, hx, hc]
    · right
      intro j hj
      subst hj
      refine (hl j (by omega)).congr hp2 ?_ ?_
      · rw [hn2, Function.update_of_ne (hne _ (by omega))]
      · rw [hn2, Function.update_self]
        unfold closeGap firstKey
        dsimp only
        rw [memmove_out (by omega)]
  obtain ⟨t, ht, hhand, hlinks⟩ := removeIdxLoop_links (hdrop.steady hnd) hkeep hlast
  have hrun : ext4ExtRemoveIdx i s = (.ok (), t) := by
    unfold ext4ExtRemoveIdx
    rw [get_bind, hx, deref_some, pure_bind_apply, modify_bind, show s.setNode (s.path i).header
      (closeGap (s.nodes (s.path i).header) (cursorAt s i)) = s1 from hs1, dirty_bind]
    refine (bind_of_ok (freeBlocks_run _ _)).trans ?_
    rw [show freeRuns
      [(((ext4IdxPblock ((s.nodes (s.path i).header).slots (cursorAt s i)) : ℕ) : ℤ), 1)]
      (dirtied s1 i) = s2 from hs2]
    exact ht
  refine ⟨t, hrun, _, _, hdrop.handed hnd hhand, hlinks, ?_⟩
  rw [hhand.path, hp2, hx, List.length_take, length_entries, Nat.min_eq_left hlt.le]

/-! ### The turn at a leaf -/

/-- The leaf was replaced, and the runs were freed. -/
structure LeafWritten (s t : St) (i : ℕ) (eh : Node) (runs : List (ℤ × ℤ)) : Prop where
  nodes : t.nodes = Function.update s.nodes (headerAt s i) eh
  path : t.path = s.path
  freed : t.freed = (freeRuns runs s).freed
  used : t.used = (freeRuns runs s).used

/-- **The loop of `ext4_ext_remove_leaf` and the write of the leaf behind it.** -/
theorem leafLoop_written {a c : ℕ} (hw : Sweeping env lo hi s₀ i 0 front back s)
    (hsize : SizeOk env) (hr : LeafReady hi i front back s)
    (hsame : ∀ x ∈ back, keep a c x = keep lo hi x ∧ gone a c x = gone lo hi x) (hac : a ≤ c)
    (hc : c < 2 ^ 31) (hin : ∀ y rest, back = y :: rest →
      a < extEnd y ∧ (a ≤ y.firstBlock ∨ extEnd y ≤ c + 1)) :
    ∃ cur v eh, removeLeafLoop (headerAt s i) a c
        ((s.nodes (headerAt s i)).entriesCount - front.length)
        ⟨front.length, front.length, (s.nodes (headerAt s i)).entriesCount, none⟩ s =
        (.ok cur, v) ∧
      Refilled (s.nodes (headerAt s i)) eh (front ++ back.flatMap (keep lo hi)) ∧
      LeafWritten s (dirtied (v.setNode (headerAt s i)
        (closeLeaf (v.nodes (headerAt s i)) cur)) i) i eh (back.flatMap (gone lo hi)) := by
  obtain ⟨-, -, hsorted, hlow, y, rest, hback, -⟩ := hr
  have hentries := hw.entries
  have hwidth : (s.nodes (headerAt s i)).entriesCount < 2 ^ 16 := by
    have := max_lt hsize hw.header
    have := hw.header.entries_le
    omega
  have hp : front.length < (s.nodes (headerAt s i)).entriesCount := by
    rw [← length_entries, hentries, hback, List.length_append, List.length_cons]
    omega
  have hdrop : (s.nodes (headerAt s i)).entries.drop front.length = back := by
    rw [hentries, List.drop_left]
  have htake : (s.nodes (headerAt s i)).entries.take front.length = front := by
    rw [hentries, List.take_left]
  have hat : (s.nodes (headerAt s i)).slots front.length = y := by
    have hcons := drop_cons hp
    rw [hdrop, hback] at hcons
    exact (List.cons.inj hcons).1.symm
  obtain ⟨hin1, hin2⟩ := hin y rest hback
  obtain ⟨cur, eh, hloop, hre⟩ := @removeLeafLoop_cuts a c front.length s (headerAt s i) hp hwidth
    (by rw [hdrop]; exact fun x hx => hlow x (List.mem_append_right _ hx))
    (by rw [hdrop]; exact (ordered_append.mp hsorted).2.1) hac hc (by rwa [hat]) (by rwa [hat])
  rw [hdrop, htake, List.flatMap_congr fun x hx => (hsame x hx).1] at hre
  rw [hdrop, List.flatMap_congr fun x hx => (hsame x hx).2] at hloop
  refine ⟨cur, _, _, hloop, hre, ?_, ?_, ?_, ?_⟩
  · rw [dirtied_nodes, setNode_nodes]
    show Function.update (Function.update s.nodes _ _) _
      (closeLeaf (Function.update s.nodes (headerAt s i) eh (headerAt s i)) cur) = _
    rw [Function.update_self, Function.update_idem]
  · rw [dirtied_path]
    rfl
  · rw [dirtied_freed]
    rfl
  · rw [dirtied_used]
    rfl

/-- **The first key of the leaf goes up** when the cursor was at the first entry, and is as before
otherwise. -/
theorem firstKey_links {eh : Node} {runs : List (ℤ × ℤ)} {left kept : List Slot}
    (hw : Sweeping env lo hi s₀ i 0 front back s) (hnd : (treeRefs s₀).Nodup)
    (hl : ∀ j, j < i → LinkedAt s j) (hextent : (s.path i).extent = some front.length)
    (ht : LeafWritten s t i eh runs) (hcut : Sweeping env lo hi s₀ i 0 left [] t)
    (heh : eh.entries = left) (hleft : front ++ kept = left) :
    ∃ u, runIf (front.length = 0 ∧ (t.nodes (headerAt s i)).entriesCount ≠ 0)
        ext4ExtCorrectIndexes t = (.ok (), u) ∧
      Handed t u i ∧ (∀ j, j + 1 < i → LinkedAt u j) ∧
        (left ≠ [] → ∀ j, j < i → LinkedAt u j) := by
  have hs := hw.steady hnd
  have hat : t.nodes (headerAt s i) = eh := by rw [ht.nodes, Function.update_self]
  have hcount : (t.nodes (headerAt s i)).entriesCount = left.length := by
    rw [hat, ← length_entries, heh]
  have hne : ∀ j, j < i → headerAt s j ≠ headerAt s i := fun j hj =>
    hs.distinct j i (by omega) (by omega) (by omega)
  have habove : ∀ j, j + 1 < i → LinkedAt t j := fun j hj => by
    refine (hl j (by omega)).of_nodes ht.path ?_ ?_ <;>
      rw [ht.nodes, Function.update_of_ne (hne _ (by omega))]
  by_cases hfirst : front.length = 0 ∧ (t.nodes (headerAt s i)).entriesCount ≠ 0
  · obtain ⟨u, h1, h2, h3⟩ := correctIndexes_links (hcut.steady hnd)
      (by rw [hcut.depth, Nat.zero_add]) (by rw [ht.path, hextent, hfirst.1]) habove
    rw [runIf_pos hfirst]
    exact ⟨u, h1, h2, fun j hj => h3 j (by omega), fun _ => h3⟩
  · rw [runIf_neg hfirst]
    refine ⟨t, rfl, .refl t i, habove, fun hne' j hj => ?_⟩
    by_cases hlast : j + 1 < i
    · exact habove j hlast
    obtain rfl : i = j + 1 := by omega
    have hpos := List.length_pos_iff.mpr hne'
    have hfront : front ≠ [] := by
      rw [hcount] at hfirst
      exact List.ne_nil_of_length_pos (by omega)
    refine (hl j hj).congr ht.path (by rw [ht.nodes, Function.update_of_ne (hne j hj)]) ?_
    have h1 := @head_entries (t.nodes (headerAt s (j + 1))) (by rwa [hcount])
    have h2 := @head_entries (s.nodes (headerAt s (j + 1))) (by
      rw [← length_entries, hw.entries, List.length_append]
      have := List.length_pos_iff.mpr hfront
      omega)
    rw [hat, heh, ← hleft, List.head?_append_of_ne_nil _ hfront] at h1
    rw [hw.entries, List.head?_append_of_ne_nil _ hfront, h1] at h2
    rw [hat]
    exact congrArg Slot.firstBlock (Option.some.inj h2)

/-- What `ext4_ext_remove_leaf` does before it gets past the leaf. -/
theorem removeLeaf_cut {a c : ℕ} (hw : Sweeping env lo hi s₀ i 0 front back s)
    (hnd : (treeRefs s₀).Nodup) (hsize : SizeOk env) (hl : ∀ j, j < i → LinkedAt s j)
    (hr : LeafReady hi i front back s)
    (hsame : ∀ x ∈ back, keep a c x = keep lo hi x ∧ gone a c x = gone lo hi x) (hac : a ≤ c)
    (hc : c < 2 ^ 31) (hin : ∀ y rest, back = y :: rest →
      a < extEnd y ∧ (a ≤ y.firstBlock ∨ extEnd y ≤ c + 1)) :
    ∃ u, Sweeping env lo hi s₀ i 0 (front ++ back.flatMap (keep lo hi)) [] u ∧
      (∀ j, j + 1 < i → LinkedAt u j) ∧
      (front ++ back.flatMap (keep lo hi) ≠ [] → ∀ j, j < i → LinkedAt u j) ∧
      ext4ExtRemoveLeaf a c s =
        (if front ++ back.flatMap (keep lo hi) = [] ∧ i ≠ 0 then ext4ExtRemoveIdx (i - 1)
          else runIf (0 < i) (nextIndex (i - 1))) u := by
  obtain ⟨cur, v, eh, hloop, hre, ht⟩ := leafLoop_written hw hsize hr hsame hac hc hin
  generalize ht' : dirtied (v.setNode (headerAt s i) (closeLeaf (v.nodes (headerAt s i)) cur)) i =
    t at ht
  have hcut := hw.cut hnd hre ht.nodes ht.path ht.freed ht.used
  obtain ⟨u, hrun, hhand, hu1, hu2⟩ := firstKey_links hw hnd hl hr.extent ht hcut hre.entries rfl
  refine ⟨u, hcut.handed hnd hhand, hu1, hu2, ?_⟩
  have hempty : (t.nodes (s.path i).header).entriesCount = 0 ∧ (t.path i).block ≠ 0 ↔
      front ++ back.flatMap (keep lo hi) = [] ∧ i ≠ 0 := by
    rw [show (s.path i).header = headerAt s i from rfl, ht.nodes, Function.update_self,
      ← length_entries, hre.entries, ht.path, List.length_eq_zero_iff, Ne, hr.block]
  have hD : extDepth s = i := by rw [hw.depth, Nat.zero_add]
  unfold ext4ExtRemoveLeaf
  rw [get_bind]
  dsimp only
  rw [hD, hr.extent, deref_some, pure_bind_apply]
  refine (bind_of_ok hloop).trans ?_
  rw [modify_bind, dirty_bind, get_bind, show dirtied (v.setNode (s.path i).header
    (closeLeaf (v.nodes (s.path i).header) cur)) i = t from ht']
  refine (bind_of_ok hrun).trans ?_
  by_cases he : front ++ back.flatMap (keep lo hi) = [] ∧ i ≠ 0
  · rw [if_pos (hempty.mpr he), if_pos he]
  · rw [if_neg (fun h => he (hempty.mp h)), if_neg he]

/-- Releasing blocks of the path changes neither the tree nor the way. -/
theorem dropRefs_same (n : ℕ) (keepOther : Bool) :
    ∃ t, ext4ExtDropRefs env n keepOther s = (.ok (), t) ∧
      (∀ i, SameTo s t i) ∧ ∀ j, (t.path j).index = (s.path j).index := by
  obtain ⟨T, hT⟩ := @dropRefs_run env s n keepOther
  have hpath : ∀ m j, (released s.path n m j).header = (s.path j).header ∧
      (released s.path n m j).index = (s.path j).index := fun m j => by
    unfold released
    split_ifs <;> exact ⟨rfl, rfl⟩
  exact ⟨_, hT, fun i => ⟨rfl, rfl, rfl, fun j _ => (hpath _ j).1, fun j _ => (hpath _ j).2⟩,
    fun j => (hpath _ j).2⟩

/-- The range that is removed from a leaf comes to the same as the whole range. -/
theorem leafTurn_range (hw : Sweeping env lo hi s₀ i 0 front back s)
    (hr : LeafReady hi i front back s) (hlh : lo ≤ hi) (hhi : hi < 2 ^ 31) :
    ∃ a c, leafTurn env i lo hi s =
        (attempt (ext4ExtRemoveLeaf a c) >>= fun _ => ext4ExtDropRefs env i false) s ∧
      (∀ x ∈ back, keep a c x = keep lo hi x ∧ gone a c x = gone lo hi x) ∧ a ≤ c ∧ c < 2 ^ 31 ∧
      ∀ y rest, back = y :: rest → a < extEnd y ∧ (a ≤ y.firstBlock ∨ extEnd y ≤ c + 1) := by
  obtain ⟨-, -, hsorted, hlow, y, rest, hback, hfirst⟩ := hr
  have hentries := hw.entries
  have hpos : 0 < (s.nodes (headerAt s i)).entriesCount := by
    rw [← length_entries, hentries, hback]
    simp
  have hy : Ahead lo hi y := hw.ahead y (List.mem_append_left _ (by rw [hback]; simp [below]))
  -- the first entry of the leaf starts before all of them, the last one ends behind all of them
  obtain ⟨f, hf, hfmem, hffirst⟩ : ∃ f, (s.nodes (headerAt s i)).slots 0 = f ∧
      f ∈ front ++ back ∧ ∀ x ∈ front ++ back, f.firstBlock ≤ x.firstBlock := by
    have hhead := head_entries hpos
    rw [hentries] at hhead
    rcases hlist : front ++ back with _ | ⟨f, tail⟩
    · rw [hlist] at hhead
      simp at hhead
    · rw [hlist] at hhead hsorted hlow
      refine ⟨f, (Option.some.inj hhead).symm, List.mem_cons_self, fun x hx => ?_⟩
      have hflt := (hlow f List.mem_cons_self).lt_end
      rcases List.mem_cons.mp hx with rfl | hx
      · exact le_rfl
      · have := (ordered_cons.mp hsorted).1 x hx
        omega
  obtain ⟨l, hl, hlmem, hlend⟩ : ∃ l, (s.nodes (headerAt s i)).slots
      ((s.nodes (headerAt s i)).entriesCount - 1) = l ∧ l ∈ front ++ back ∧
      ∀ x ∈ front ++ back, extEnd x ≤ extEnd l := by
    have hsplit := @entries_split (s.nodes (headerAt s i)) _ (Nat.sub_lt hpos Nat.one_pos)
    rw [show (s.nodes (headerAt s i)).entriesCount - 1 + 1 =
      (s.nodes (headerAt s i)).entries.length by rw [length_entries]; omega, List.drop_length,
      hentries] at hsplit
    refine ⟨_, rfl, by rw [hsplit]; simp, fun x hx => ?_⟩
    rw [hsplit] at hx hsorted hlow
    have hlt := (hlow _ (List.mem_append_right _ List.mem_cons_self)).lt_end
    rcases List.mem_append.mp hx with hx | hx
    · have := (ordered_append.mp hsorted).2.2 x hx _ List.mem_cons_self
      omega
    · rw [List.mem_singleton.mp hx]
  have hflow := (hlow f hfmem).low
  have hflt := (hlow f hfmem).lt_end
  have hllow := (hlow l hlmem).low
  have hllt := (hlow l hlmem).lt_end
  have hymem : y ∈ front ++ back := by
    rw [hback]
    simp
  have hylt := hy.lt_end
  have hypast := hy.past
  have hyf := hffirst y hymem
  have hyl := hlend y hymem
  have hlast : word (l.firstBlock + ext4ExtGetActualLen l - 1) = extEnd l - 1 := by
    unfold extEnd at hllow hllt ⊢
    exact word_of_eq (by omega) (by omega)
  refine ⟨max lo f.firstBlock, min hi (extEnd l - 1), ?_, fun x hx => ?_, by omega, by omega,
    fun y' rest' heq => ?_⟩
  · have hfrom : (if toI32 f.firstBlock < toI32 lo then lo else f.firstBlock) =
        max lo f.firstBlock := by
      unfold toI32
      split_ifs <;> omega
    have hto : (if toI32 hi < toI32 (extEnd l - 1 : ℕ) then hi else extEnd l - 1) =
        min hi (extEnd l - 1) := by
      unfold toI32
      split_ifs <;> omega
    rw [← hfrom, ← hto]
    unfold leafTurn
    rw [get_bind, show (s.nodes (s.path i).header).slots 0 = f from hf,
      show (s.nodes (s.path i).header).slots ((s.nodes (s.path i).header).entriesCount - 1) = l from
        hl, hlast]
  · have hxmem := List.mem_append_right front hx
    have hxlt := (hlow x hxmem).lt_end
    exact keep_within hxlt (hffirst x hxmem) (by have := hlend x hxmem; omega)
  · rw [hback] at heq
    obtain ⟨rfl, -⟩ := List.cons.inj heq
    rcases hy.one with h | h <;> omega

/-- **The turn at a leaf cuts it and gets past it.** -/
theorem leafTurn_past (hw : AtLeaf env lo hi s₀ (i + 1) s) (hnd : (treeRefs s₀).Nodup)
    (hsize : SizeOk env) (hlh : lo ≤ hi) (hhi : hi < 2 ^ 31) :
    ∃ t, leafTurn env (i + 1) lo hi s = (.ok (), t) ∧ AtIndex env lo hi s₀ i 0 t := by
  obtain ⟨front, back, hw, hl, hr⟩ := hw
  obtain ⟨a, c, hrun, hsame, hac, hc, hin⟩ := leafTurn_range hw hr hlh hhi
  obtain ⟨u, hu, hl1, hl2, hleaf⟩ := removeLeaf_cut hw hnd hsize hl hr hsame hac hc hin
  obtain ⟨v, hv, hat⟩ : ∃ v, ext4ExtRemoveLeaf a c s = (.ok (), v) ∧
    AtIndex env lo hi s₀ i 0 v := by
    rw [hleaf, Nat.add_sub_cancel]
    by_cases he : front ++ back.flatMap (keep lo hi) = []
    · rw [if_pos ⟨he, by omega⟩]
      rw [he] at hu
      exact removeIdx_drop hu hnd hsize fun j hj => hl1 j (by omega)
    · rw [if_neg fun h => he h.1, runIf_pos (by omega)]
      exact nextIndex_past hu he (hl2 he)
  obtain ⟨t, ht, hsame, hindex⟩ := @dropRefs_same env v (i + 1) false
  refine ⟨t, ?_, hat.congr (hsame i) (hindex i)⟩
  rw [hrun, bind_of_ok (attempt_apply _ s), hv]
  exact ht

/-- In a tree of one leaf it is the last turn. -/
theorem leafTurn_root (hw : AtLeaf env lo hi s₀ 0 s) (hnd : (treeRefs s₀).Nodup)
    (hsize : SizeOk env) (hlh : lo ≤ hi) (hhi : hi < 2 ^ 31) :
    ∃ t front, leafTurn env 0 lo hi s = (.ok (), t) ∧ Sweeping env lo hi s₀ 0 0 front [] t := by
  obtain ⟨front, back, hw, hl, hr⟩ := hw
  obtain ⟨a, c, hrun, hsame, hac, hc, hin⟩ := leafTurn_range hw hr hlh hhi
  obtain ⟨u, hu, -, -, hleaf⟩ := removeLeaf_cut hw hnd hsize hl hr hsame hac hc hin
  have hv : ext4ExtRemoveLeaf a c s = (.ok (), u) := by
    rw [hleaf, if_neg fun h => h.2 rfl]
    rfl
  obtain ⟨t, ht, hsame, -⟩ := @dropRefs_same env u 0 false
  refine ⟨t, _, ?_, hu.congr (hsame 0)⟩
  rw [hrun, bind_of_ok (attempt_apply _ s), hv]
  exact ht

/-! ### The turns at an index node -/

theorem dropIf_same (c : Prop) [Decidable c] (n : ℕ) :
    ∃ t, runIf c (ext4ExtDropRefs env n false) s = (.ok (), t) ∧
      (∀ i, SameTo s t i) ∧ ∀ j, (t.path j).index = (s.path j).index := by
  by_cases hc : c
  · rw [runIf_pos hc]
    exact dropRefs_same n false
  · rw [runIf_neg hc]
    exact ⟨s, rfl, fun i => ⟨rfl, rfl, rfl, fun _ _ => rfl, fun _ _ => rfl⟩, fun _ => rfl⟩

/-- The path takes in the block that was read, and starts there at the first entry. -/
theorem entered_at (blk : ℕ) : ∃ t,
    (do
      modify fun s => s.setPath i { s.path i with pBlock := blk }
      modify fun s =>
        let e := { s.path (i + 1) with block := blk, header := .block blk, depth := D - i - 1 }
        s.setPath (i + 1)
          (if i + 1 = D then { e with extent := some 0 } else { e with index := some 0 }) :
      Ext Unit) s = (.ok (), t) ∧ SameTo s t i ∧ (t.path i).index = (s.path i).index ∧
      headerAt t (i + 1) = .block blk ∧ (t.path (i + 1)).block = blk ∧
      (i + 1 ≠ D → (t.path (i + 1)).index = some 0) ∧
      (i + 1 = D → (t.path (i + 1)).extent = some 0) := by
  refine ⟨_, rfl, ⟨rfl, rfl, rfl, fun j hj => ?_, fun j hj => ?_⟩, ?_, ?_, ?_, fun hD => ?_,
    fun hD => ?_⟩
  · unfold headerAt
    by_cases hji : j = i
    · simp [hji]
    · simp [hji, show j ≠ i + 1 by omega]
  · simp [show j ≠ i by omega, show j ≠ i + 1 by omega]
  · simp
  · unfold headerAt
    by_cases hD : i + 1 = D <;> simp [hD]
  · by_cases hD : i + 1 = D <;> simp [hD]
  · simp [hD]
  · simp [hD]

/-- There is a child to go down to. -/
theorem more_ahead (hw : Sweeping env lo hi s₀ i g front back s)
    (hx : (s.path i).index = some front.length) (hmore : ext4ExtMoreToRm s i hi = true) :
    ∃ ix rest, back = ix :: rest ∧ ix.firstBlock ≤ hi ∧
      (s.nodes (s.path i).header).slots front.length = ix := by
  unfold ext4ExtMoreToRm at hmore
  rw [hx] at hmore
  simp only [decide_eq_true_eq, Option.any_some] at hmore
  obtain ⟨-, hlt, hle⟩ := hmore
  have hcons : (s.nodes (headerAt s i)).entries.drop front.length = _ := drop_cons hlt
  rw [hw.entries, List.drop_left] at hcons
  exact ⟨_, _, hcons, hle, rfl⟩

/-- All that is ahead at the node lies behind the range. -/
theorem no_more_behind (hw : Sweeping env lo hi s₀ i g front back s)
    (hx : (s.path i).index = some front.length) (hmore : ¬ ext4ExtMoreToRm s i hi = true) :
    ∀ x ∈ below s.nodes g back, hi < x.firstBlock := by
  rcases back with _ | ⟨ix, rest⟩
  · simp
  have hlt : front.length < (s.nodes (headerAt s i)).entriesCount := by
    rw [← length_entries, hw.entries]
    simp
  have hat : (s.nodes (headerAt s i)).slots front.length = ix := by
    have hcons := drop_cons hlt
    rw [hw.entries, List.drop_left] at hcons
    exact (List.cons.inj hcons).1.symm
  have hgt : hi < ix.firstBlock := by
    unfold ext4ExtMoreToRm at hmore
    rw [hx] at hmore
    simp only [decide_eq_true_eq, Option.any_some] at hmore
    by_contra hle
    refine hmore ⟨?_, hlt, ?_⟩
    · exact (show (s.nodes (headerAt s i)).entriesCount ≠ 0 by omega)
    · show ((s.nodes (headerAt s i)).slots front.length).firstBlock ≤ hi
      rw [hat]
      omega
  have hhead := below_head (BelowOk.append.mp hw.sound).2
  have hsorted := (ordered_append.mp hw.sorted).1
  intro x hx
  have hpos : ∀ y ∈ below s.nodes g (ix :: rest), y.firstBlock < extEnd y := fun y hy =>
    (hw.ahead y (List.mem_append_left _ hy)).lt_end
  rcases hl : below s.nodes g (ix :: rest) with _ | ⟨z, l⟩
  · rw [hl] at hx
    simp at hx
  · rw [hl] at hx hhead hsorted hpos
    have hz : z.firstBlock = ix.firstBlock := Option.some.inj hhead
    have hzlt := hpos z List.mem_cons_self
    rcases List.mem_cons.mp hx with rfl | hx
    · omega
    · have := (ordered_cons.mp hsorted).1 x hx
      omega

/-- **A turn goes down to the next child, unless the block layer refuses it.** -/
theorem descendTurn_after (hw : AtIndex env lo hi s₀ i g s) (hD : D = i + (g + 1))
    (hmore : ext4ExtMoreToRm s i hi = true) (h0 : ∀ b, Hdr.block b ∈ treeRefs s₀ → b ≠ 0) :
    (∃ t, descendTurn env D i s = (.ok (), t) ∧ AtTurn env lo hi s₀ D (i + 1) t) ∨
      ∃ e t, ReadRefused env e ∧ descendTurn env D i s = (.error e, t) ∧ Halted env lo hi s₀ t := by
  obtain ⟨front, back, hw, hl, hx⟩ := hw
  obtain ⟨ix, rest, rfl, hle, hat⟩ := more_ahead hw hx hmore
  obtain ⟨v, hv, hsame, hindex⟩ := @dropIf_same env s ((s.path (i + 1)).block ≠ 0) _ (i + 1)
  obtain ⟨hsub, hkey⟩ := (Forest.cons.mp (Forest.append.mp hw.sound).2).1
  have hcheck : ext4ExtCheck (v.nodes (.block (ext4IdxPblock ix))) (D - i - 1) = true := by
    rw [(hsame i).nodes, show D - i - 1 = g by omega]
    exact HeaderOk.check hsub.header
  have hwv := hw.congr (hsame i)
  have hlv : ∀ j, j < i → LinkedAt v j := fun j hj => (hsame i).linkedAt hj (hl j hj)
  have hread : ∀ {r}, (readExtentTreeBlock env (ext4IdxPblock ix) (D - i - 1) >>= fun _ => do
      modify fun s => s.setPath i { s.path i with pBlock := ext4IdxPblock ix }
      modify fun s =>
        let e := { s.path (i + 1) with
          block := ext4IdxPblock ix, header := .block (ext4IdxPblock ix), depth := D - i - 1 }
        s.setPath (i + 1)
          (if i + 1 = D then { e with extent := some 0 } else { e with index := some 0 }) :
      Ext Unit) v = r → descendTurn env D i s = r := fun hr => by
    unfold descendTurn
    rw [get_bind, bind_of_ok hv, hx, deref_some, pure_bind_apply, hat]
    exact hr
  rcases @read_cases env v _ _ hcheck with hrun | ⟨e, he, hrun⟩
  · left
    obtain ⟨t, ht, hst, hti, hth, htb, htidx, htext⟩ :=
      @entered_at i D { v with calls := v.calls + 1 } (ext4IdxPblock ix)
    have hst' : SameTo v t i := ⟨hst.nodes, hst.used, hst.freed, hst.header, hst.index⟩
    have hxt : (t.path i).index = some front.length := hti.trans ((hindex i).trans hx)
    have hdown := (hwv.congr hst').down hxt hth
    have hnt : t.nodes = s.nodes := hst.nodes.trans (hsame i).nodes
    have hlt : ∀ j, j < i + 1 → LinkedAt t j := fun j hj => by
      rcases Nat.eq_or_lt_of_le (show j ≤ i by omega) with rfl | hj
      · have hsplit := (hwv.congr hst').split (cursorAt_of_index hxt)
        unfold LinkedAt firstKey
        rw [hsplit.2.2.1, hth, hnt]
        exact firstKey_of_keyOk hsub hkey
      · exact hst'.linkedAt hj (hlv j hj)
    refine ⟨t, hread ((bind_of_ok hrun).trans ht), ?_⟩
    rcases g with _ | g
    · -- the child is a leaf
      right
      refine ⟨by omega, [], _, hdown, hlt, htext (by omega), ?_, ?_, fun x hx => ?_, ?_⟩
      · rw [htb]
        obtain ⟨past, removed, -, -, -, hrefs⟩ := hdown.account
        have hmem : Hdr.block (ext4IdxPblock ix) ∈ treeRefs s₀ := by
          refine hrefs.mem_iff.mpr (List.mem_append_left _ (List.mem_append_left _
            (List.mem_append_left _ ?_)))
          rw [← hth]
          exact mem_hdrs.mpr ⟨i + 1, by omega, by omega, rfl⟩
        have := h0 _ hmem
        omega
      · exact (ordered_append.mp hdown.sorted).1
      · exact (hdown.ahead x (List.mem_append_left _ hx)).toLowExt
      · rw [hnt]
        have hhead := head_entries hsub.entriesCount_pos
        rcases hlist : (s.nodes (child ix)).entries with _ | ⟨y, l⟩
        · rw [hlist] at hhead
          simp at hhead
        · rw [hlist] at hhead
          refine ⟨y, l, rfl, ?_⟩
          rw [Option.some.inj hhead, ← firstKey_of_keyOk hsub hkey]
          exact hle
    · left
      exact ⟨g, by omega, [], _, hdown, hlt, htidx (by omega)⟩
  · right
    have hsv : SameTo v { v with calls := v.calls + 1 } i :=
      ⟨rfl, rfl, rfl, fun _ _ => rfl, fun _ _ => rfl⟩
    exact ⟨e, _, he, hread (bind_of_error hrun), i, g + 1, front, _, hwv.congr hsv,
      fun j hj => hsv.linkedAt hj (hlv j hj), by simp⟩

/-- **A turn gets past an index node when nothing more is to be removed below it.** -/
theorem ascendTurn_after (hw : AtIndex env lo hi s₀ (i + 1) g s) (hnd : (treeRefs s₀).Nodup)
    (hsize : SizeOk env) (hlh : lo ≤ hi) (hmore : ¬ ext4ExtMoreToRm s (i + 1) hi = true) :
    ∃ t, ascendTurn (i + 1) s = (.ok (), t) ∧ AtIndex env lo hi s₀ i (g + 1) t := by
  obtain ⟨front, back, hw, hl, hx⟩ := hw
  have hskip := hw.skip hlh (no_more_behind hw hx hmore)
  have hlast : ∀ v : St, SameTo v (v.setPath (i + 1) { v.path (i + 1) with block := 0 }) i ∧
      ((v.setPath (i + 1) { v.path (i + 1) with block := 0 }).path i).index =
        (v.path i).index := fun v => by
    refine ⟨⟨rfl, rfl, rfl, fun j hj => ?_, fun j hj => ?_⟩, ?_⟩
    · unfold headerAt
      simp [show j ≠ i + 1 by omega]
    · simp [show j ≠ i + 1 by omega]
    · simp
  have hcount : (s.nodes (s.path (i + 1)).header).entriesCount = (front ++ back).length := by
    rw [← hw.entries, length_entries]
    rfl
  unfold ascendTurn
  rw [get_bind, runIf_pos (by omega), Nat.add_sub_cancel]
  by_cases h0 : (s.nodes (s.path (i + 1)).header).entriesCount = 0
  · rw [hcount, List.length_eq_zero_iff] at h0
    rw [h0] at hskip
    obtain ⟨v, hv, hat⟩ := removeIdx_drop hskip hnd hsize fun j hj => hl j (by omega)
    rw [if_pos (by rw [hcount, h0]; rfl), bind_of_ok hv]
    exact ⟨_, rfl, hat.congr (hlast v).1 (hlast v).2⟩
  · obtain ⟨v, hv, hat⟩ := nextIndex_past hskip (fun hnil => h0 (by rw [hcount, hnil]; rfl)) hl
    rw [if_neg h0, bind_of_ok hv]
    exact ⟨_, rfl, hat.congr (hlast v).1 (hlast v).2⟩

/-- **Every turn of the loop keeps the removal going.** -/
theorem removeTurn_after (hw : AtTurn env lo hi s₀ D i s) (hnd : (treeRefs s₀).Nodup)
    (h0 : ∀ b, Hdr.block b ∈ treeRefs s₀ → b ≠ 0) (hsize : SizeOk env) (hlh : lo ≤ hi)
    (hhi : hi < 2 ^ 31) : After env lo hi s₀ D (removeTurn env D lo hi i s) := by
  unfold removeTurn
  rw [get_bind]
  rcases hw with ⟨g, hD, hw⟩ | ⟨rfl, hw⟩
  · rw [if_neg (by omega)]
    by_cases hmore : ext4ExtMoreToRm s i hi = true
    · rw [if_pos hmore]
      rcases descendTurn_after hw hD hmore h0 with ⟨t, ht, hat⟩ | ⟨e, t, he, ht, hhalt⟩
      · rw [bind_of_ok ht]
        exact hat
      · rw [bind_of_error ht]
        exact ⟨he, hhalt⟩
    rw [if_neg hmore]
    rcases i with _ | i
    · rw [bind_of_ok ascendTurn_root]
      obtain ⟨front, back, hw, -, hx⟩ := hw
      exact ⟨_, _, hw.skip hlh (no_more_behind hw hx hmore)⟩
    · obtain ⟨t, ht, hat⟩ := ascendTurn_after hw hnd hsize hlh hmore
      rw [bind_of_ok ht]
      exact Or.inl ⟨g + 1, by omega, hat⟩
  · rw [if_pos rfl]
    rcases i with _ | i
    · obtain ⟨t, front, ht, hswept⟩ := leafTurn_root hw hnd hsize hlh hhi
      rw [bind_of_ok ht]
      exact ⟨_, _, hswept⟩
    · obtain ⟨t, ht, hat⟩ := leafTurn_past hw hnd hsize hlh hhi
      rw [bind_of_ok ht]
      exact Or.inl ⟨0, by omega, hat⟩

end

end Ext4Fsd.Extent.RemoveSpace
