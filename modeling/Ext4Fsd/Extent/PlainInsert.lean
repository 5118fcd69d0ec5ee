import Ext4Fsd.Extent.Rounds

/-! # Inserting without merging

`ext4_ext_insert_extent` with `EXT4_EXT_NO_COMBINE` puts an extent into a tree. `plainInsert_iff`
says when a call that returns `EOK` has put it at its place: always, but for an extent that lies
before all others and whose leaf has room for one entry only. The full leaf is then split behind its
last entry, so that the new leaf is empty and takes the extent; its key is below that of the old
leaf, and still the entries behind the old one move into the new index node with it. -/

namespace Ext4Fsd.Extent.PlainInsert

open Ext4Fsd.Lib.Fallible Ext4Fsd.Lib.Intervals Ext4Fsd.Extent.Layout Ext4Fsd.Extent.Store
open Ext4Fsd.Extent.Search Ext4Fsd.Extent.Insert Ext4Fsd.Extent.Tree Ext4Fsd.Extent.Way
open Ext4Fsd.Extent.Found Ext4Fsd.Extent.Lookup Ext4Fsd.Extent.Keys Ext4Fsd.Extent.Focus
open Ext4Fsd.Extent.Prepared Ext4Fsd.Extent.Landing Ext4Fsd.Extent.Insertion Ext4Fsd.Extent.Rounds

/-- The extents do not overlap. -/
def Apart (x y : Slot) : Prop := extEnd x ≤ y.firstBlock ∨ extEnd y ≤ x.firstBlock

instance (x y : Slot) : Decidable (Apart x y) := by unfold Apart; infer_instance

/-- **`newext` is put between the extents of `s`, and the path leads to it.** -/
structure Inserted (env : Env) (s t : St) (newext : Slot) : Prop where
  tree : TreeOk env t
  exts : ∃ l r, treeExts s = l ++ r ∧ treeExts t = l ++ newext :: r
  entry : ∃ p, (t.path (extDepth t)).extent = some p ∧
    (t.nodes (t.path (extDepth t)).header).slots p = newext

section
variable {env : Env} {s₀ s t : St} {hdr : ℕ → Hdr} {pos : ℕ → ℕ} {newext : Slot}
    {E' l r : List Slot}
  {noCombine : Bool} {turns : ℕ}

theorem insertExtent_ok (h : ext4ExtInsertExtent env newext noCombine turns s = (.ok (), t)) :
    insertRounds env newext noCombine turns s = (.ok (), t) := by
  unfold ext4ExtInsertExtent at h
  rw [bind_of_ok (attempt_apply _ s)] at h
  rcases hr : insertRounds env newext noCombine turns s with ⟨e | _, u⟩
  · rw [hr] at h
    obtain ⟨_, w, -, h⟩ := bind_ok h
    simp at h
  · rw [hr] at h
    obtain ⟨-, rfl⟩ := Prod.mk.inj h
    rfl

theorem apart_first {x : Slot} (hx : ExtOk x) (hnew : ExtOk newext) (h : Apart x newext) :
    x.firstBlock ≠ newext.firstBlock := by
  have h1 := hx.lt_end
  have h2 := hnew.lt_end
  rcases h with h | h <;> omega

/-- In order by their first blocks, extents that are apart are sorted. -/
theorem sorted_insert (ht : TreeOk env s) (he : treeExts s = l ++ r) (hnew : ExtOk newext)
    (hapart : ∀ x ∈ treeExts s, Apart x newext) (hinc : Increasing (l ++ newext :: r)) :
    Sorted (l ++ newext :: r) := by
  have hsorted := ht.sorted
  rw [he] at hsorted hapart
  exact ordered_insert hsorted (fun x hx => (ht.extOk x (he ▸ hx)).lt_end.le) hnew.lt_end.le hinc
    hapart

/-- **A settled extent keeps the tree well-formed when the extents are in order.** -/
theorem treeOk_of_settled (h : Settled env s t newext E') (hok : ∀ x ∈ E', ExtOk x)
    (hsorted : Sorted E') : TreeOk env t := by
  obtain ⟨hdr, pos, b, news, hf, hhead, -, -, rfl, -⟩ := h
  exact hf.treeOk hhead hok hsorted

theorem entry_of_settled (h : Settled env s t newext E') :
    ∃ p, (t.path (extDepth t)).extent = some p ∧
      (t.nodes (t.path (extDepth t)).header).slots p = newext := by
  obtain ⟨hdr, pos, b, news, hf, -, hlt, hslot, -⟩ := h
  refine ⟨pos (extDepth t), ?_, ?_⟩
  · rw [hf.path.leaf, if_neg (Nat.ne_zero_of_lt hlt)]
  · rw [hf.path.header _ le_rfl]
    exact hslot

/-- An extent of a crowded tree lands before extents that start before it. -/
theorem crowded_unsorted {R₁ R₂ : List Slot} (ht : TreeOk env s) (hl : l ≠ []) (hR : R₁ ≠ [])
    (he : treeExts s = l ++ R₁ ++ R₂) : ¬ Increasing (newext :: (R₁ ++ l ++ R₂)) := by
  intro hinc
  obtain ⟨x, hx⟩ := List.exists_mem_of_ne_nil _ hl
  obtain ⟨y, hy⟩ := List.exists_mem_of_ne_nil _ hR
  have hold := ht.increasing
  rw [he] at hold
  have h1 := (List.pairwise_append.mp (List.pairwise_append.mp hold).1).2.2 x hx y hy
  have h2 := (List.pairwise_append.mp (List.pairwise_append.mp
    (List.pairwise_cons.mp hinc).2).1).2.2 y hy x hx
  omega

/-- **When an extent that has landed is at its place.** -/
theorem inserted_iff_of_landed (ht : TreeOk env s) (hs : Sought s hdr pos newext)
    (hnew : ExtOk newext) (hapart : ∀ x ∈ treeExts s, Apart x newext)
    (hland : Landed s hdr pos newext E') (hset : Settled env s t newext E') :
    Inserted env s t newext ↔ ¬ Crowded s hdr pos newext := by
  have hE : treeExts t = E' := by
    obtain ⟨-, -, -, -, -, -, -, -, h, -⟩ := hset
    exact h
  rcases hland with ⟨hno, l, r, h1, rfl, h2⟩ | ⟨hyes, l, R₁, R₂, h1, h2, h3, rfl⟩
  · refine ⟨fun _ => hno,
      fun _ => ⟨treeOk_of_settled hset (fun x hx => ?_) ?_, ⟨l, r, h1, hE⟩, entry_of_settled hset⟩⟩
    · rcases List.mem_append.mp hx with hx | hx
      · exact ht.extOk x (h1 ▸ List.mem_append_left _ hx)
      · rcases List.mem_cons.mp hx with rfl | hx
        · exact hnew
        · exact ht.extOk x (h1 ▸ List.mem_append_right _ hx)
    · exact sorted_insert ht h1 hnew hapart (h2 hs)
  · refine ⟨fun hin => ?_, fun hno => absurd hyes hno⟩
    have hinc := hin.tree.increasing
    rw [hE] at hinc
    exact absurd hinc (crowded_unsorted ht h1 h2 h3)

/-- **When a plain insertion that succeeds has put the extent at its place.** -/
theorem plainInsert_iff (ht : TreeOk env s₀) (hheld : HeldWithin s₀) (hsize : SizeOk env)
    (hal : AllocOk env) (hnew : ExtOk newext) (hapart : ∀ x ∈ treeExts s₀, Apart x newext)
    (hfind : ext4FindExtent env newext.firstBlock s₀ = (.ok (), s)) (hdeep : DepthFits s)
    (hrun : ext4ExtInsertExtent env newext true turns s = (.ok (), t)) :
    Inserted env s t newext ↔ ¬ Crowded s (findHdr s.nodes newext.firstBlock .inode)
      (findPos s.nodes newext.firstBlock .inode) newext := by
  obtain ⟨hcore, hloc⟩ := find_ok ht hheld hfind
  have hn : s.nodes = s₀.nodes := congrArg Prod.fst hcore
  have he : treeExts s = treeExts s₀ := by unfold treeExts extDepth; rw [hn]
  rw [← hn] at hloc
  rw [← he] at hapart
  have hfresh : ∀ x ∈ treeExts s, x.firstBlock ≠ newext.firstBlock := fun x hx =>
    apart_first (hloc.tree.extOk x hx) hnew (hapart x hx)
  have hr := ready_of_reached hloc.toReached hloc.tree.shaped hfresh
  have hs := sought_of_reached hloc.toReached hloc.tree.shaped hfresh
  have hrun' := @insertRounds_more env s t turns newext true 2 (insertExtent_ok hrun)
  rcases insertRounds_spec hr hs hsize hal hnew.fits hdeep (Or.inl rfl) hrun' with
    ⟨-, E', hland, hset⟩ | ⟨e, he, -⟩
  · exact inserted_iff_of_landed hloc.tree hs hnew hapart hland hset
  · simp at he

end

/-! ### A crowded tree -/

/-- A disk on which nothing fails. -/
def roomyDisk : Env where
  blockSize := 1024
  goalBlock := 0
  blockCsum := fun _ => 0
  alloc := fun n used _ =>
    if n < 100 ∧ used (500 + n) = false then .ok (500 + n) else .error .enospc
  blockGet := fun _ _ => none
  calloc := fun _ => true

theorem allocOk_roomyDisk : AllocOk roomyDisk := by
  intro n used goal b hb
  unfold roomyDisk at hb
  dsimp only at hb
  split_ifs at hb with h
  obtain rfl := Except.ok.inj hb
  exact ⟨by omega, by omega, h.2⟩

/-- Two leaves with room for one extent each, below an index node with room for two entries. -/
def narrowLeaves : St :=
  stateOf (fun h => match h with
    | .inode => nodeOf 2 4 [⟨10, 700, 0, 0⟩]
    | .block 700 => nodeOf 1 2 [⟨10, 701, 0, 0⟩, ⟨20, 702, 0, 0⟩]
    | .block 701 => nodeOf 0 1 [⟨10, 1, 0, 1000⟩]
    | .block _ => nodeOf 0 1 [⟨20, 1, 0, 2000⟩]) fun b => b = 700 ∨ b = 701 ∨ b = 702

def narrowLeavesAt (b : ℕ) : St := (ext4FindExtent roomyDisk b narrowLeaves).2

theorem find_narrowLeaves_five :
    ext4FindExtent roomyDisk 5 narrowLeaves = (.ok (), narrowLeavesAt 5) :=
  eq_ok_of_fst (by decide +kernel)

theorem find_narrowLeaves_fifteen :
    ext4FindExtent roomyDisk 15 narrowLeaves = (.ok (), narrowLeavesAt 15) :=
  eq_ok_of_fst (by decide +kernel)

/-- Block 5 goes before the others, and the leaf of block 20 comes between. -/
theorem narrowLeaves_disordered : ¬ ∀ (env : Env) (s₀ s t : St) (newext : Slot) (turns : ℕ),
    TreeOk env s₀ → HeldWithin s₀ → SizeOk env → AllocOk env → ExtOk newext →
      (∀ x ∈ treeExts s₀, Apart x newext) →
      ext4FindExtent env newext.firstBlock s₀ = (.ok (), s) → DepthFits s →
      ext4ExtInsertExtent env newext true turns s = (.ok (), t) → Inserted env s t newext := by
  intro hall
  have hin := hall roomyDisk narrowLeaves (narrowLeavesAt 5)
    (ext4ExtInsertExtent roomyDisk ⟨5, 1, 0, 3000⟩ true 2 (narrowLeavesAt 5)).2 ⟨5, 1, 0, 3000⟩ 2
    (by decide +kernel) (heldWithin_stateOf _ _) ⟨by decide, by decide⟩ allocOk_roomyDisk
    (by decide +kernel) (by decide +kernel) find_narrowLeaves_five
    (by unfold DepthFits; decide +kernel) (eq_ok_of_fst (by decide +kernel))
  have hbad : ¬ TreeOk roomyDisk
      (ext4ExtInsertExtent roomyDisk ⟨5, 1, 0, 3000⟩ true 2 (narrowLeavesAt 5)).2 := by
    decide +kernel
  exact hbad hin.tree

/-- Between the two blocks there is a place for block 15. -/
theorem plainInsert_narrowLeaves : Inserted roomyDisk (narrowLeavesAt 15)
    (ext4ExtInsertExtent roomyDisk ⟨15, 1, 0, 3000⟩ true 2 (narrowLeavesAt 15)).2
    ⟨15, 1, 0, 3000⟩ := by
  have hiff := @plainInsert_iff roomyDisk narrowLeaves (narrowLeavesAt 15)
    (ext4ExtInsertExtent roomyDisk ⟨15, 1, 0, 3000⟩ true 2 (narrowLeavesAt 15)).2 ⟨15, 1, 0, 3000⟩ 2
    (by decide +kernel) (heldWithin_stateOf _ _) ⟨by decide, by decide⟩ allocOk_roomyDisk
    (by decide +kernel) (by decide +kernel) find_narrowLeaves_fifteen
    (by unfold DepthFits; decide +kernel) (eq_ok_of_fst (by decide +kernel))
  refine hiff.mpr fun hc => ?_
  have hbefore := hc.before
  revert hbefore
  decide +kernel

end Ext4Fsd.Extent.PlainInsert
