import Ext4Fsd.Extent.Blocks
import Ext4Fsd.Extent.Lookup
import Ext4Fsd.Extent.Mapping

/-! # Reading the map

`ext4_extent_get_blocks` without `create` answers with the extent the path leads to, when the block
lies in it. The comparison is made on signed 16- and 32-bit values: an extent of 2^15 blocks has a
negative length there, and an extent that crosses block 2^31 ends before it starts. In all other
cases the answer is the one the map gives (`lookupRight_iff`). -/

namespace Ext4Fsd.Extent.ReadBlocks

open Ext4Fsd.Lib.CInt Ext4Fsd.Lib.Fallible Ext4Fsd.Lib.Intervals Ext4Fsd.Extent.Layout
open Ext4Fsd.Extent.Store Ext4Fsd.Extent.Search Ext4Fsd.Extent.Insert Ext4Fsd.Extent.Blocks
open Ext4Fsd.Extent.Tree Ext4Fsd.Extent.Way Ext4Fsd.Extent.Found Ext4Fsd.Extent.Lookup
open Ext4Fsd.Extent.Mapping

/-- **The lookup answers as the map does.** -/
structure LookupRight (env : Env) (s : St) (iblock : ℕ) (maxBlocks : ℤ) (turns : ℕ) : Prop where
  /-- No node changes, whatever the outcome. -/
  unchanged : (ext4ExtentGetBlocks env iblock maxBlocks false turns s).2.nodes = s.nodes
  result : (ext4ExtentGetBlocks env iblock maxBlocks false turns s).1 =
    .ok (lookupResult (treeExts s) iblock maxBlocks)
  /-- The blocks that are counted are mapped one after the other. -/
  consecutive : ∀ ex ∈ treeExts s, Holds ex iblock → ∀ j : ℕ,
    (j : ℤ) < (lookupResult (treeExts s) iblock maxBlocks).2 →
      mapOf (treeExts s) (iblock + j) = some (physOf ex iblock + j, ext4ExtIsUnwritten ex)

/-- The extent of the block is found by the signed comparison, or nothing is asked for and nothing
would be returned. -/
def Reads (iblock : ℕ) (maxBlocks : ℤ) (ex : Slot) : Prop :=
  (ext4ExtGetActualLen ex < 2 ^ 15 ∧ SameHalf ex.firstBlock iblock) ∨
    (maxBlocks = 0 ∧ (ext4ExtIsUnwritten ex = true ∨ physOf ex iblock = 0))

section
variable {env : Env} {s t : St} {iblock b turns : ℕ} {maxBlocks : ℤ} {hdr : ℕ → Hdr} {pos : ℕ → ℕ}
  {l r : List Slot} {ex : Slot}

/-! ### The comparison -/

/-- The signed comparison of `ext4_extent_get_blocks`. -/
abbrev Compared (ex : Slot) (iblock : ℕ) : Prop :=
  inRange (toI32 iblock) (toI32 ex.firstBlock) (toI16 (ext4ExtGetActualLen ex))

/-- It only accepts blocks of the extent, and misses those of a long or a crossing one. -/
theorem compared_iff (hex : ExtOk ex) (hb : iblock < 2 ^ 32) : Compared ex iblock ↔
    Holds ex iblock ∧ ext4ExtGetActualLen ex < 2 ^ 15 ∧ SameHalf ex.firstBlock iblock := by
  have hlen := actualLen_le hex.fits
  have hpos := hex.pos
  have hend := hex.logical
  unfold extInitMaxLen at hlen
  unfold extEnd at hend
  unfold Compared inRange Holds Covers extEnd SameHalf toI32 toI16
  omega

theorem inRange_values (hex : ExtOk ex) (hb : iblock < 2 ^ 32) (hc : Compared ex iblock) :
    toI16 (ext4ExtGetActualLen ex) - (toI32 iblock - toI32 ex.firstBlock) =
        (extEnd ex : ℤ) - iblock ∧
      toI32 iblock - toI32 ex.firstBlock + ext4ExtPblock ex = (physOf ex iblock : ℕ) := by
  obtain ⟨⟨h1, h2⟩, h3, h4⟩ := (compared_iff hex hb).mp hc
  have hend := hex.logical
  unfold extEnd at h2 hend ⊢
  unfold physOf
  unfold SameHalf at h4
  unfold toI32 toI16
  omega

theorem capped_eq (a m : ℤ) : capped a m = min m a := by
  unfold capped
  omega

/-! ### What the lookup returns -/

/-- The answer read off the extent of the path. -/
def foundResult (s : St) (iblock : ℕ) (maxBlocks : ℤ) : ℤ × ℤ :=
  match (s.path (extDepth s)).extent with
  | none => (0, 0)
  | some p =>
    let ex := (s.nodes (s.path (extDepth s)).header).slots p
    if Compared ex iblock then
      (if ext4ExtIsUnwritten ex then 0
        else toI32 iblock - toI32 ex.firstBlock + ext4ExtPblock ex,
        capped (toI16 (ext4ExtGetActualLen ex) - (toI32 iblock - toI32 ex.firstBlock)) maxBlocks)
    else (0, 0)

theorem getFound_run :
    getFound env iblock maxBlocks false turns s = (.ok (foundResult s iblock maxBlocks), s) := by
  unfold getFound foundResult
  rw [get_bind]
  rcases (s.path (extDepth s)).extent with _ | p
  · rfl
  · dsimp only
    by_cases hc : Compared ((s.nodes (s.path (extDepth s)).header).slots p) iblock
    · rw [if_pos hc, if_pos hc]
      by_cases hu : ext4ExtIsUnwritten ((s.nodes (s.path (extDepth s)).header).slots p) = true
      · rw [if_neg (not_not.mpr hu), if_pos (by simp), if_pos hu]
        rfl
      · rw [if_pos hu, if_neg hu]
        rfl
    · rw [if_neg hc, if_neg hc]
      rfl

/-- **A lookup changes no node, whatever its outcome.** -/
theorem keeps_getBlocks : Keeps core (ext4ExtentGetBlocks env iblock maxBlocks false turns) := by
  refine keeps_bind (keeps_modify fun _ => rfl) fun _ => keeps_bind keeps_find fun _ =>
    keeps_bind (keeps_attempt fun s => by rw [getFound_run]) fun ret =>
      keeps_bind keeps_get fun s =>
    keeps_bind (keeps_runIf (keeps_dropRefs _ _)) fun _ => keeps_bind (keeps_modify fun _ => rfl)
    fun _ => ?_
  cases ret with
  | ok r => exact keeps_pure r
  | error e => exact keeps_fail e

/-- What `ext4_extent_get_blocks` returns when the lookup succeeds. -/
theorem getBlocks_of_find
    (h : ext4FindExtent env iblock { s with pathLive := false } = (.ok (), t)) :
    (ext4ExtentGetBlocks env iblock maxBlocks false turns s).1 =
      .ok (foundResult t iblock maxBlocks) := by
  unfold ext4ExtentGetBlocks
  rw [modify_bind, bind_of_ok h, bind_of_ok (attempt_apply _ t), getFound_run]
  dsimp only
  rw [get_bind]
  by_cases hl : t.pathLive = true
  · rw [runIf_pos hl]
    obtain ⟨T, hT⟩ := @dropRefs_run env t 0 false
    rw [bind_of_ok hT]
    rfl
  · rw [runIf_neg hl]
    rfl

theorem found_of_compared (hl : Located env s iblock hdr pos) (hb : iblock < 2 ^ 32)
    (hm : ex ∈ treeExts s) (hc : Compared ex iblock) :
    foundResult s iblock maxBlocks = lookupResult (treeExts s) iblock maxBlocks := by
  have hex := hl.tree.extOk ex hm
  obtain ⟨hholds, -⟩ := (compared_iff hex hb).mp hc
  obtain ⟨hallocated, hphys⟩ := inRange_values hex hb hc
  have hat : extentAt (treeExts s) iblock = some ex :=
    (extentAt_eq_some hl.tree.sorted).mpr ⟨hm, hholds⟩
  have hne : (s.nodes (hdr (extDepth s))).entriesCount ≠ 0 := fun h0 => by
    rw [(hl.empty h0).2] at hm
    simp at hm
  obtain ⟨l, r, hlr, hr, hlo⟩ := hl.place hne
  have hsort := hl.tree.sorted
  rw [hlr] at hsort hm
  obtain rfl : ex = cur s.nodes hdr pos (extDepth s) := eq_of_covers hsort hr hlo hm hholds
  have hpath := hl.path.leaf
  rw [if_neg hne] at hpath
  unfold foundResult lookupResult
  rw [hat, hpath, hl.path.header _ le_rfl]
  dsimp only
  rw [if_pos hc, hallocated, hphys, capped_eq]

theorem found_of_not (hl : Located env s iblock hdr pos)
    (hno : ∀ ex ∈ treeExts s, ¬ Compared ex iblock) : foundResult s iblock maxBlocks = (0, 0) := by
  have hpath := hl.path.leaf
  unfold foundResult
  by_cases h0 : (s.nodes (hdr (extDepth s))).entriesCount = 0
  · rw [if_pos h0] at hpath
    rw [hpath]
  · rw [if_neg h0] at hpath
    obtain ⟨l, r, hlr, -, -⟩ := hl.place h0
    rw [hpath, hl.path.header _ le_rfl]
    exact if_neg (hno _ (by rw [hlr]; simp))

/-! ### The answer and the map -/

theorem lookupResult_none (h : ∀ ex ∈ l, ¬ Holds ex b) : lookupResult l b maxBlocks = (0, 0) := by
  unfold lookupResult
  rw [show extentAt l b = none from coverOf_eq_none.mpr h]

theorem lookupResult_some (hs : Sorted l) (hm : ex ∈ l) (hh : Holds ex b) :
    lookupResult l b maxBlocks =
      ((if ext4ExtIsUnwritten ex then 0 else physOf ex b : ℤ),
        min maxBlocks (extEnd ex - b)) := by
  unfold lookupResult
  rw [(extentAt_eq_some hs).mpr ⟨hm, hh⟩]

theorem lookupResult_consecutive (hs : Sorted l) (hm : ex ∈ l) (hh : Holds ex b) (j : ℕ)
    (hj : (j : ℤ) < (lookupResult l b maxBlocks).2) :
    mapOf l (b + j) = some (physOf ex b + j, ext4ExtIsUnwritten ex) := by
  rw [lookupResult_some hs hm hh] at hj
  obtain ⟨h1, h2⟩ := hh
  dsimp only at hj
  rw [mapOf_of_holds hs hm ⟨by omega, by omega⟩]
  unfold physOf
  congr 2
  omega

/-- Nothing to return: the count is zero and so is the block. -/
theorem lookupResult_eq_zero (hs : Sorted l) (hm : ex ∈ l) (hh : Holds ex b) :
    lookupResult l b maxBlocks = (0, 0) ↔
      maxBlocks = 0 ∧ (ext4ExtIsUnwritten ex = true ∨ physOf ex b = 0) := by
  rw [lookupResult_some hs hm hh, Prod.mk.injEq]
  obtain ⟨h1, h2⟩ := hh
  by_cases hu : ext4ExtIsUnwritten ex = true
  · rw [if_pos hu]
    simp only [hu, true_or, and_true, true_and]
    omega
  · rw [if_neg hu, or_iff_right hu]
    omega

/-- **A lookup answers as the map does if and only if the extent of the block, if there is one, is
found by the signed comparison.** -/
theorem lookupRight_iff (hnf : NoFail env) (ht : TreeOk env s) (hb : iblock < 2 ^ 32) :
    LookupRight env s iblock maxBlocks turns ↔
      ∀ ex ∈ treeExts s, Holds ex iblock → Reads iblock maxBlocks ex := by
  have ht' : TreeOk env { s with pathLive := false } := TreeOk.of_core ht rfl rfl
  have hheld : HeldWithin { s with pathLive := false } := fun hf => by simp at hf
  obtain ⟨t, hfind⟩ := @find_succeeds env _ iblock hnf ht' hheld
  obtain ⟨hcore, hl⟩ := find_ok ht' hheld hfind
  have hexts : treeExts t = treeExts s := by
    unfold treeExts extDepth
    rw [show t.nodes = s.nodes from congrArg Prod.fst hcore]
  have hres := @getBlocks_of_find env s t iblock turns maxBlocks hfind
  have hsort := ht.sorted
  rw [← hexts] at hsort ⊢
  constructor
  · intro hright ex hm hh
    have hres' := hright.result
    rw [hres, Except.ok.injEq, ← hexts] at hres'
    by_cases hc : Compared ex iblock
    · exact Or.inl ((compared_iff (hl.tree.extOk ex hm) hb).mp hc).2
    · refine Or.inr ((lookupResult_eq_zero hsort hm hh).mp ?_)
      rw [← hres']
      refine found_of_not hl fun ex' hm' hc' => hc ?_
      have hh' := ((compared_iff (hl.tree.extOk ex' hm') hb).mp hc').1
      rwa [covers_unique hsort hm hm' hh hh']
  · intro hall
    refine ⟨congrArg Prod.fst (keeps_getBlocks s), ?_, fun ex hm hh j hj => ?_⟩
    · rw [hres, ← hexts, Except.ok.injEq]
      by_cases hc : ∃ ex ∈ treeExts t, Compared ex iblock
      · obtain ⟨ex, hm, hc⟩ := hc
        exact found_of_compared hl hb hm hc
      · rw [found_of_not hl fun ex hm hc' => hc ⟨ex, hm, hc'⟩]
        by_cases hh : ∃ ex ∈ treeExts t, Holds ex iblock
        · obtain ⟨ex, hm, hh⟩ := hh
          rcases hall ex hm hh with ⟨h1, h2⟩ | hzero
          · exact absurd ⟨ex, hm, (compared_iff (hl.tree.extOk ex hm) hb).mpr ⟨hh, h1, h2⟩⟩ hc
          · exact ((lookupResult_eq_zero hsort hm hh).mpr hzero).symm
        · rw [lookupResult_none fun ex hm hh' => hh ⟨ex, hm, hh'⟩]
    · rw [← hexts] at hm hj ⊢
      exact lookupResult_consecutive hsort hm hh j hj

end

/-! ### A file of one long extent -/

/-- A disk on which nothing fails; block 500 is free. -/
def steadyDisk : Env where
  blockSize := 1024
  goalBlock := 0
  blockCsum := fun _ => 0
  alloc := fun _ used _ => if used 500 then .error .enospc else .ok 500
  blockGet := fun _ _ => none
  calloc := fun _ => true

/-- A file of one written extent of 2^15 blocks. -/
def longFile : St := stateOf (fun _ => nodeOf 0 4 [⟨0, 32768, 0, 1000⟩]) fun _ => false

/-- Block 5 of the file is at 1005, and the lookup finds nothing. -/
theorem longFile_lost : ¬ ∀ (env : Env) (s : St) (iblock turns : ℕ) (maxBlocks : ℤ), NoFail env →
    TreeOk env s → iblock < 2 ^ 32 → LookupRight env s iblock maxBlocks turns := by
  intro hall
  have hright := (hall steadyDisk longFile 5 0 8 ⟨fun _ _ => rfl, fun _ => rfl⟩ (by decide +kernel)
    (by decide)).result
  have hrun : (ext4ExtentGetBlocks steadyDisk 5 8 false 0 longFile).1 = .ok (0, 0) := by
    decide +kernel
  have hmap : lookupResult (treeExts longFile) 5 8 = (1005, 8) := by decide +kernel
  rw [hrun, hmap] at hright
  simp at hright

/-- A file of two leaves, with the blocks 0 to 9 in one and 20 to 29 in the other. -/
def twoLeaves : St :=
  stateOf (fun h => match h with
    | .inode => nodeOf 1 4 [⟨0, 700, 0, 0⟩, ⟨20, 701, 0, 0⟩]
    | .block 700 => nodeOf 0 84 [⟨0, 10, 0, 1000⟩]
    | .block _ => nodeOf 0 84 [⟨20, 10, 0, 2000⟩]) fun b => b = 700 ∨ b = 701

/-- Block 25 lies in the second leaf, and five blocks are mapped from it on. -/
theorem lookupRight_twoLeaves : LookupRight steadyDisk twoLeaves 25 8 0 :=
  (lookupRight_iff ⟨fun _ _ => rfl, fun _ => rfl⟩ (by decide +kernel) (by decide)).mpr
    (by unfold Reads; decide +kernel)

end Ext4Fsd.Extent.ReadBlocks
