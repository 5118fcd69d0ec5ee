import Ext4Fsd.Extent.Removed

/-! # What a removal does to the file

In terms of the map of the file and of the allocator: a removal unmaps the range up to a border, and
gives back the blocks that were mapped there and the nodes that the tree has lost (`UnmappedTo`). No
block is given back twice (`removeSpace_freesOnce`). -/

namespace Ext4Fsd.Extent.Unmapping

open Ext4Fsd.Lib.Fallible Ext4Fsd.Lib.Intervals Ext4Fsd.Extent.Layout Ext4Fsd.Extent.Store
open Ext4Fsd.Extent.Remove Ext4Fsd.Extent.Tree Ext4Fsd.Extent.Mapping Ext4Fsd.Extent.Lookup
open Ext4Fsd.Extent.ReadBlocks Ext4Fsd.Extent.LeafCut Ext4Fsd.Extent.Sweep Ext4Fsd.Extent.Removed

/-- The block `b` is mapped by a block of the range below the border. -/
def MappedIn (s : St) (lo hi border b : ℕ) : Prop :=
  ∃ n u, (lo ≤ n ∧ n ≤ hi) ∧ n < border ∧ mapOf (treeExts s) n = some (b, u)

/-- The runs have no block in common. -/
def RunsApart (r r' : ℤ × ℤ) : Prop := r.1 + r.2 ≤ r'.1 ∨ r'.1 + r'.2 ≤ r.1

/-- No block of the disk belongs to two extents of the file. -/
def DataOnce (s : St) : Prop := (treeExts s).Pairwise fun x y =>
  ext4ExtPblock x + ext4ExtGetActualLen x ≤ ext4ExtPblock y ∨
    ext4ExtPblock y + ext4ExtGetActualLen y ≤ ext4ExtPblock x

instance (s : St) : Decidable (DataOnce s) := by
  unfold DataOnce
  infer_instance

/-- **From `s` to `t` the blocks of the range are unmapped up to the border.** -/
structure UnmappedTo (env : Env) (lo hi : ℕ) (s t : St) (border : ℕ) : Prop where
  tree : TreeOk env t
  map : ∀ n, mapOf (treeExts t) n =
    if (lo ≤ n ∧ n ≤ hi) ∧ n < border then none else mapOf (treeExts s) n
  refs : ∀ h ∈ treeRefs t, h ∈ treeRefs s
  /-- Given back are the blocks that were mapped there and the nodes that are gone. -/
  used : ∀ b, t.used b = true ↔ s.used b = true ∧ ¬ MappedIn s lo hi border b ∧
    (Hdr.block b ∈ treeRefs s → Hdr.block b ∈ treeRefs t)

section
variable {env : Env} {lo hi m b turns : ℕ} {s t : St} {past rest : List Slot} {removed : List ℕ}
  {runs : List (ℤ × ℤ)}

theorem inRuns_perm {runs' : List (ℤ × ℤ)} (h : runs.Perm runs') :
    InRuns runs b ↔ InRuns runs' b := by
  unfold InRuns
  simp only [h.mem_iff]

theorem inRuns_blocks : InRuns (removed.map fun c : ℕ => ((c : ℤ), 1)) b ↔ b ∈ removed := by
  unfold InRuns
  constructor
  · rintro ⟨r, hr, h1, h2⟩
    obtain ⟨c, hc, rfl⟩ := List.mem_map.mp hr
    dsimp only at h1 h2
    rwa [show b = c by omega]
  · intro hb
    exact ⟨_, List.mem_map.mpr ⟨b, hb, rfl⟩, le_rfl, by dsimp only; omega⟩

/-- What goes of the extents before the border are the blocks mapped in the range there. -/
theorem inRuns_gone (hs : Sorted (past ++ rest)) (h1 : ∀ x ∈ past, extEnd x ≤ m)
    (h2 : ∀ y ∈ rest, m ≤ y.firstBlock) : InRuns (past.flatMap (gone lo hi)) b ↔
      ∃ n u, (lo ≤ n ∧ n ≤ hi) ∧ n < m ∧ mapOf (past ++ rest) n = some (b, u) := by
  constructor
  · rintro ⟨r, hr, h3, h4⟩
    obtain ⟨x, hx, hr⟩ := List.mem_flatMap.mp hr
    have hm := h1 x hx
    unfold gone at hr
    split_ifs at hr with hin
    · obtain rfl := List.mem_singleton.mp hr
      dsimp only at h3 h4
      -- the block of the file that is mapped to `b`
      obtain ⟨n, hn⟩ : ∃ n, n = max lo x.firstBlock + (b - physOf x (max lo x.firstBlock)) :=
        ⟨_, rfl⟩
      have hphys : physOf x n = b := by
        unfold physOf at *
        omega
      have hhold : Holds x n := ⟨by omega, by omega⟩
      refine ⟨n, ext4ExtIsUnwritten x, by omega, hhold.2.trans_le hm, ?_⟩
      exact (mapOf_eq_some hs).mpr ⟨x, List.mem_append_left _ hx, hhold, hphys, rfl⟩
    · simp at hr
  · rintro ⟨n, u, hn, hnm, hmap⟩
    obtain ⟨x, hx, hhold, hphys, -⟩ := (mapOf_eq_some hs).mp hmap
    obtain ⟨h3, h4⟩ := hhold
    rcases List.mem_append.mp hx with hx | hx
    · refine ⟨((physOf x (max lo x.firstBlock) : ℕ),
        ((min (hi + 1) (extEnd x) : ℕ) : ℤ) - (max lo x.firstBlock : ℕ)),
        List.mem_flatMap.mpr ⟨x, hx, ?_⟩, ?_, ?_⟩
      · unfold gone
        rw [if_pos (by omega)]
        exact List.mem_singleton.mpr rfl
      · unfold physOf at *
        dsimp only
        omega
      · unfold physOf at *
        dsimp only
        omega
    · have := h2 x hx
      omega

/-- The extents that a removal leaves, as a map. -/
theorem unmappedTo_of_removedTo (ht : TreeOk env s) (hlh : lo ≤ hi)
    (h : RemovedTo env lo hi s t past rest removed) (h1 : ∀ x ∈ past, extEnd x ≤ m)
    (h2 : ∀ y ∈ rest, m ≤ y.firstBlock) : UnmappedTo env lo hi s t m := by
  obtain ⟨htree, hsplit, hexts, hrefs, runs, hperm, -, hused⟩ := h
  have hok := ht.extOk
  have hs := ht.sorted
  rw [hsplit] at hok hs
  have hend : ∀ x ∈ past.flatMap (keep lo hi), extEnd x ≤ m := fun x hx => by
    obtain ⟨y, hy, hx⟩ := List.mem_flatMap.mp hx
    exact (keep_spec (hok y (List.mem_append_left _ hy)) hx).2.2.1.trans (h1 y hy)
  refine ⟨htree, fun n => ?_, fun h hh => hrefs.mem_iff.mpr (List.mem_append_left _ hh),
    fun b => ?_⟩
  · rw [hexts, hsplit, mapOf_append hend h2, mapOf_append h1 h2]
    by_cases hn : n < m
    · simp only [hn, if_true, and_true]
      exact mapOf_keep hlh (fun x hx => hok x (List.mem_append_left _ hx))
        (ordered_append.mp hs).1 n
    · simp only [hn, if_false, and_false]
  · have hruns : InRuns runs b ↔ MappedIn s lo hi m b ∨ b ∈ removed := by
      rw [inRuns_perm hperm, inRuns_append, inRuns_gone hs h1 h2, inRuns_blocks]
      unfold MappedIn
      rw [hsplit]
    have hgone : b ∈ removed ↔ ¬ (Hdr.block b ∈ treeRefs s → Hdr.block b ∈ treeRefs t) := by
      have hnd := List.nodup_append.mp (hrefs.nodup_iff.mp ht.nodup)
      have hmem : Hdr.block b ∈ removed.map Hdr.block ↔ b ∈ removed := by simp
      rw [hrefs.mem_iff, List.mem_append, hmem]
      constructor
      · intro hb himp
        exact hnd.2.2 _ (himp (Or.inr hb)) _ (hmem.mpr hb) rfl
      · intro himp
        by_contra hb
        exact himp fun h => h.resolve_right hb
    rw [hused]
    show (if InRuns runs b then false else s.used b) = true ↔ _
    by_cases hin : InRuns runs b
    · rw [if_pos hin]
      rw [hruns, hgone] at hin
      simp only [Bool.false_eq_true, false_iff]
      tauto
    · rw [if_neg hin]
      rw [hruns, hgone] at hin
      tauto

/-- The runs that a removal gives back have no block in common. -/
theorem freed_apart (hnd : (treeRefs s).Nodup) (hapart : DataApart s) (honce : DataOnce s)
    (hsplit : treeExts s = past ++ rest)
    (hrefs : (treeRefs s).Perm (treeRefs t ++ removed.map Hdr.block)) :
    (past.flatMap (gone lo hi) ++ removed.map fun c : ℕ => ((c : ℤ), (1 : ℤ))).Pairwise
      RunsApart := by
  unfold DataOnce at honce
  rw [hsplit] at honce
  have hremoved : removed.Nodup :=
    (List.nodup_append.mp (hrefs.nodup_iff.mp hnd)).2.1.of_map _
  refine List.pairwise_append.mpr ⟨List.pairwise_flatMap.mpr ⟨fun x _ => ?_, ?_⟩,
    List.pairwise_map.mpr (hremoved.imp fun hne => ?_), fun r hr r' hr' => ?_⟩
  · unfold gone
    split_ifs
    · exact List.pairwise_singleton _ _
    · exact List.Pairwise.nil
  · refine (List.pairwise_append.mp honce).1.imp fun hxy r hr r' hr' => ?_
    obtain ⟨h1, h2⟩ := gone_within hr
    obtain ⟨h3, h4⟩ := gone_within hr'
    unfold RunsApart
    omega
  · unfold RunsApart
    dsimp only
    omega
  · obtain ⟨x, hx, hr⟩ := List.mem_flatMap.mp hr
    obtain ⟨c, hc, rfl⟩ := List.mem_map.mp hr'
    obtain ⟨h1, h2⟩ := gone_within hr
    have hmem : Hdr.block c ∈ treeRefs s :=
      hrefs.mem_iff.mpr (List.mem_append_right _ (List.mem_map.mpr ⟨c, hc, rfl⟩))
    have := hapart x (by rw [hsplit]; exact List.mem_append_left _ hx) _ hmem
    unfold ApartFrom at this
    unfold RunsApart
    dsimp only
    omega

end

/-! ### A file of two leaves -/

/-- The blocks 0 to 9 of the file are at 1000, the blocks 20 to 29 at 2000. -/
def twoRuns : St :=
  stateOf (fun h => match h with
    | .inode => nodeOf 1 4 [⟨0, 700, 0, 0⟩, ⟨20, 701, 0, 0⟩]
    | .block 700 => nodeOf 0 84 [⟨0, 10, 0, 1000⟩]
    | .block _ => nodeOf 0 84 [⟨20, 10, 0, 2000⟩])
    fun b => b = 700 ∨ b = 701 ∨ (1000 ≤ b ∧ b < 1010) ∨ (2000 ≤ b ∧ b < 2010)

/-- A disk that refuses the second block that is asked for. -/
def brokenDisk : Env := { steadyDisk with blockGet := fun n _ => if n = 2 then some .eio else none }

end Ext4Fsd.Extent.Unmapping
