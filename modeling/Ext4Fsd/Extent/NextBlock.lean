import Ext4Fsd.Extent.ReadBlocks

/-! # The next allocated block

For a block in a hole, `ext4_ext_next_allocated_block` climbs the path of the lookup to the first
entry that has another one behind it. That is the first extent right of the one the lookup settled
on (`next_run`): the next one, unless the block precedes every extent. Then the lookup settled on
the next extent itself, and the code returns the one after it (`nextRight_iff`).

The length of the hole is a signed 32-bit difference. -/

namespace Ext4Fsd.Extent.NextBlock

open Ext4Fsd.Lib.CInt Ext4Fsd.Lib.Fallible Ext4Fsd.Lib.Intervals
open Ext4Fsd.Extent.Layout Ext4Fsd.Extent.Store Ext4Fsd.Extent.Search Ext4Fsd.Extent.Blocks
open Ext4Fsd.Extent.Tree Ext4Fsd.Extent.Way Ext4Fsd.Extent.Found Ext4Fsd.Extent.Lookup
open Ext4Fsd.Extent.Mapping Ext4Fsd.Extent.ReadBlocks

/-! ### What should be returned -/

/-- **`n` is the least first block after `b`**, or `EXT_MAX_BLOCKS` when no extent starts after
`b`. -/
structure IsNext (l : List Slot) (b n : ℕ) : Prop where
  least : ∀ ex ∈ l, b < ex.firstBlock → n ≤ ex.firstBlock
  attained : (∃ ex ∈ l, b < ex.firstBlock ∧ ex.firstBlock = n) ∨
    (∀ ex ∈ l, ex.firstBlock ≤ b) ∧ n = extMaxBlocks

/-- **The hole at `b` is `len` blocks long.** -/
structure HoleOf (l : List Slot) (b : ℕ) (len : ℤ) : Prop where
  nonneg : 0 ≤ len
  free : ∀ n : ℕ, b ≤ n → (n : ℤ) < b + len → ∀ ex ∈ l, ¬ Holds ex n
  ends : (∃ ex ∈ l, (ex.firstBlock : ℤ) = b + len) ∨ b + len = extMaxBlocks

/-- The next block and, as the caller computes it, the length of the hole. -/
structure NextRight (s : St) (b : ℕ) : Prop where
  next : IsNext (treeExts s) b (ext4ExtNextAllocatedBlock s)
  hole : HoleOf (treeExts s) b (toI32 (ext4ExtNextAllocatedBlock s - b))

/-- The first extent starts at or before `b` (or at `EXT_MAX_BLOCKS`), and the hole is shorter than
`2 ^ 31` blocks. -/
structure NextKnown (l : List Slot) (b : ℕ) : Prop where
  first : ∀ ex ∈ l.head?, ex.firstBlock ≤ b ∨ ex.firstBlock = extMaxBlocks
  short : (∃ ex ∈ l, b < ex.firstBlock ∧ ex.firstBlock < b + 2 ^ 31) ∨ extMaxBlocks < b + 2 ^ 31

/-! ### The climb -/

/-- The first block of the first extent of a list, or `EXT_MAX_BLOCKS`. -/
def firstOr (l : List Slot) : ℕ := (l.head?.map Slot.firstBlock).getD extMaxBlocks

/-- What the climb comes to from the levels above `d`. -/
def climbFrom (s : St) (leaf : ℕ) : ℕ → ℕ
  | 0 => extMaxBlocks
  | d + 1 => nextAllocatedLoop s leaf d

theorem nextAllocatedLoop_eq (s : St) (leaf d : ℕ) :
    nextAllocatedLoop s leaf d = (nextAt s leaf d).getD (climbFrom s leaf d) := by
  cases d <;> rfl

section
variable {env : Env} {s t : St} {b k d D : ℕ} {hdr : ℕ → Hdr} {pos : ℕ → ℕ} {nodes : Nodes}
  {l l' r : List Slot} {e : Slot}

theorem firstOr_append : firstOr (l ++ l') = (l.head?.map Slot.firstBlock).getD (firstOr l') := by
  unfold firstOr
  rw [List.head?_append, Option.map_or, Option.getD_or]

/-- The first block below a list of index entries is the first key. -/
theorem head_extsOf (hf : Forest env nodes k l) :
    (extsOf nodes k l).head?.map Slot.firstBlock = l.head?.map Slot.firstBlock := by
  rcases l with _ | ⟨ix, l⟩
  · rfl
  · obtain ⟨⟨-, hkey⟩, -⟩ := Forest.cons.mp hf
    have hne := hkey.exts_ne_nil
    unfold KeyOk at hkey
    rw [extsOf_cons, List.head?_append]
    rcases hexts : exts nodes k (child ix) with _ | ⟨e, es⟩
    · exact absurd hexts hne
    · rw [hexts] at hkey
      exact hkey

/-- The entry after the one at position `p`. -/
theorem next_entry {eh : Node} {p : ℕ} (hp : p < eh.entriesCount) :
    ((some p).filter fun p => p + 1 ≠ eh.entriesCount).map
    (fun p => (eh.slots (p + 1)).firstBlock) =
      (eh.entries.drop (p + 1)).head?.map Slot.firstBlock := by
  rw [List.head?_drop, Option.filter_some]
  by_cases hlast : p + 1 = eh.entriesCount
  · rw [if_neg (by simpa using hlast), List.getElem?_eq_none (by rw [length_entries]; omega)]
    rfl
  · have hlt : p + 1 < eh.entries.length := by
      rw [length_entries]
      omega
    rw [if_pos (by simpa using hlast), List.getElem?_eq_getElem hlt, getElem_entries]
    rfl

theorem nextAt_index (hp : PathTo s hdr pos D) (hd : d < D)
    (hlt : pos d < (s.nodes (hdr d)).entriesCount) :
    nextAt s D d = (after s.nodes hdr pos d).head?.map Slot.firstBlock := by
  unfold nextAt
  dsimp only
  rw [hp.header d hd.le, if_neg (by omega), hp.index d hd]
  exact next_entry hlt

theorem nextAt_leaf (hp : PathTo s hdr pos D) (hlt : pos D < (s.nodes (hdr D)).entriesCount) :
    nextAt s D D = (after s.nodes hdr pos D).head?.map Slot.firstBlock := by
  unfold nextAt
  dsimp only
  rw [hp.header D le_rfl, if_pos rfl, hp.leaf, if_neg (by omega)]
  exact next_entry hlt

/-- **The climb finds the first extent right of the path**: level by level, the key behind the
path's entry is the first block below it. -/
theorem climbFrom_eq (hs : Spine env s.nodes hdr pos 0 D 0) (hp : PathTo s hdr pos D) (hd : d ≤ D) :
    climbFrom s D d = firstOr (rights s.nodes hdr pos (D - d) d 0) := by
  induction d with
  | zero => rfl
  | succ d ih =>
    obtain ⟨g, rfl⟩ : ∃ g, D = d + (g + 1) := ⟨D - (d + 1), by omega⟩
    obtain ⟨-, hrest⟩ := spine_split.mp hs
    obtain ⟨-, hlt, -, -, hafter, -⟩ := spine_succ.mp hrest
    rw [Nat.zero_add] at hlt hafter
    rw [Nat.zero_add] at hafter
    have hsplit := @rights_split s.nodes hdr pos g 1 0 d
    have hone : rights s.nodes hdr pos g 1 d = extsOf s.nodes g (after s.nodes hdr pos d) := rfl
    rw [Nat.zero_add, hone] at hsplit
    rw [climbFrom, nextAllocatedLoop_eq, nextAt_index hp (by omega) hlt, ih (by omega),
      show d + (g + 1) - (d + 1) = g by omega, show d + (g + 1) - d = g + 1 by omega, hsplit,
      firstOr_append, head_extsOf hafter]

/-- **The function returns the first extent right of the one the path leads to.** -/
theorem next_run (hl : Located env s b hdr pos)
    (hne : (s.nodes (hdr (extDepth s))).entriesCount ≠ 0) :
    ext4ExtNextAllocatedBlock s = firstOr (after s.nodes hdr pos (extDepth s) ++
      rights s.nodes hdr pos 0 (extDepth s) 0) := by
  obtain ⟨hspine, -⟩ := hl.around hne
  have hp := hl.path
  have hdepth := hp.depth 0 (Nat.zero_le _)
  have hsome : ¬ (extDepth s = 0 ∧ (s.path 0).extent = none) := by
    rintro ⟨h0, hnone⟩
    have hleaf := hp.leaf
    rw [if_neg hne, h0, hnone] at hleaf
    cases hleaf
  rw [Nat.sub_zero] at hdepth
  unfold ext4ExtNextAllocatedBlock
  rw [hdepth, if_neg hsome, nextAllocatedLoop_eq, nextAt_leaf hp (hl.leaf hne).lt,
    climbFrom_eq hspine hp le_rfl, Nat.sub_self, firstOr_append]

theorem next_empty (hl : Located env s b hdr pos)
    (h0 : (s.nodes (hdr (extDepth s))).entriesCount = 0) :
    ext4ExtNextAllocatedBlock s = extMaxBlocks := by
  obtain ⟨hD, -⟩ := hl.empty h0
  have hdepth := hl.path.depth 0 (Nat.zero_le _)
  have hleaf := hl.path.leaf
  rw [if_pos h0, hD] at hleaf
  unfold ext4ExtNextAllocatedBlock
  rw [hdepth, hD, if_pos ⟨rfl, hleaf⟩]

/-! ### Against the specification -/

theorem isNext_unique {n n' : ℕ} (hn : IsNext l b n) (hn' : IsNext l b n') : n = n' := by
  rcases hn.attained with ⟨ex, hm, hlt, rfl⟩ | ⟨hall, rfl⟩
  · rcases hn'.attained with ⟨ex', hm', hlt', rfl⟩ | ⟨hall', -⟩
    · exact le_antisymm (hn.least ex' hm' hlt') (hn'.least ex hm hlt)
    · have := hall' ex hm
      omega
  · rcases hn'.attained with ⟨ex', hm', hlt', -⟩ | ⟨-, rfl⟩
    · have := hall ex' hm'
      omega
    · rfl

/-- Behind a list of extents that start at or before `b`, the next one is the first of the rest. -/
theorem isNext_firstOr (hinc : Increasing (l ++ r)) (hl : ∀ x ∈ l, x.firstBlock ≤ b)
    (hr : ∀ x ∈ r, b < x.firstBlock) : IsNext (l ++ r) b (firstOr r) := by
  rcases r with _ | ⟨e, es⟩
  · rw [List.append_nil]
    exact ⟨fun ex hm hlt => absurd (hl ex hm) (by omega), .inr ⟨hl, rfl⟩⟩
  · have he : firstOr (e :: es) = e.firstBlock := rfl
    rw [he]
    refine ⟨fun ex hm hlt => ?_, .inl ⟨e, by simp, hr e List.mem_cons_self, rfl⟩⟩
    rcases List.mem_append.mp hm with hm | hm
    · have := hl ex hm
      omega
    · rcases List.mem_cons.mp hm with rfl | hm
      · exact le_rfl
      · exact ((List.pairwise_cons.mp (List.pairwise_append.mp hinc).2.1).1 ex hm).le

/-- The hole at a block that no extent holds reaches up to the next extent. -/
theorem holeOf_next {n : ℕ} (hfree : ∀ ex ∈ l, ¬ Holds ex b) (hb : b < 2 ^ 32)
    (hn : IsNext l b n) : b ≤ n ∧ HoleOf l b (n - b) := by
  have hle : b ≤ n := by
    rcases hn.attained with ⟨ex, -, hlt, rfl⟩ | ⟨-, rfl⟩
    · exact hlt.le
    · unfold extMaxBlocks
      omega
  refine ⟨hle, ⟨by omega, fun m h1 h2 ex hm hh => ?_, ?_⟩⟩
  · -- An extent that holds a block of the hole starts after `b`, so not before `n`.
    obtain ⟨hlo, hhi⟩ := hh
    have hfirst : b < ex.firstBlock := by
      by_contra hge
      exact hfree ex hm ⟨by omega, by omega⟩
    have := hn.least ex hm hfirst
    omega
  · rcases hn.attained with ⟨ex, hm, -, rfl⟩ | ⟨-, rfl⟩
    · exact .inl ⟨ex, hm, by omega⟩
    · exact .inr (by omega)

/-- The caller has the length of the hole exactly when the next extent is near. -/
theorem holeOf_iff {n : ℕ} (hok : ∀ ex ∈ l, ExtOk ex) (hfree : ∀ ex ∈ l, ¬ Holds ex b)
    (hb : b < 2 ^ 32) (hnext : IsNext l b n) : HoleOf l b (toI32 (n - b)) ↔ n < b + 2 ^ 31 := by
  obtain ⟨hle, hhole⟩ := holeOf_next hfree hb hnext
  have hn : n < 2 ^ 32 := by
    rcases hnext.attained with ⟨ex, hm, -, rfl⟩ | ⟨-, rfl⟩
    · exact (hok ex hm).fits.firstBlock
    · decide
  constructor
  · intro hcode
    have hnonneg := hcode.nonneg
    unfold toI32 at hnonneg
    omega
  · intro hlt
    rwa [toI32_of_range (by omega) (by omega)]

/-- The hole is shorter than `2 ^ 31` exactly when the next block is that near. -/
theorem isNext_lt_iff {n : ℕ} (hok : ∀ ex ∈ l, ExtOk ex) (hn : IsNext l b n) : n < b + 2 ^ 31 ↔
    (∃ ex ∈ l, b < ex.firstBlock ∧ ex.firstBlock < b + 2 ^ 31) ∨ extMaxBlocks < b + 2 ^ 31 := by
  constructor
  · intro hlt
    rcases hn.attained with ⟨ex, hm, hafter, rfl⟩ | ⟨-, rfl⟩
    · exact .inl ⟨ex, hm, hafter, hlt⟩
    · exact .inr hlt
  · rintro (⟨ex, hm, hafter, hlt⟩ | hlt)
    · exact (hn.least ex hm hafter).trans_lt hlt
    · rcases hn.attained with ⟨ex, hm, -, rfl⟩ | ⟨-, rfl⟩
      · have hfirst := (hok ex hm).fits.firstBlock
        unfold extMaxBlocks at hlt
        omega
      · exact hlt

/-- **The next block is the right one** exactly when an extent starts at or before the block, up to
the one file in which the answer comes out all the same. -/
theorem isNext_run_iff (hl : Located env s b hdr pos) :
    IsNext (treeExts s) b (ext4ExtNextAllocatedBlock s) ↔
      ∀ ex ∈ (treeExts s).head?, ex.firstBlock ≤ b ∨ ex.firstBlock = extMaxBlocks := by
  by_cases h0 : (s.nodes (hdr (extDepth s))).entriesCount = 0
  · obtain ⟨-, hnil⟩ := hl.empty h0
    rw [next_empty hl h0, hnil]
    exact ⟨fun _ ex hm => by simp at hm, fun _ => ⟨by simp, .inr ⟨by simp, rfl⟩⟩⟩
  obtain ⟨-, hexts, hright, hleft⟩ := hl.around h0
  have hinc := hl.tree.increasing
  have hok := hl.tree.extOk
  rw [next_run hl h0]
  rw [hexts] at hinc hok ⊢
  generalize lefts s.nodes hdr pos 0 (extDepth s) 0 ++ before s.nodes hdr pos (extDepth s) = l
    at hinc hok hleft ⊢
  generalize after s.nodes hdr pos (extDepth s) ++ rights s.nodes hdr pos 0 (extDepth s) 0 = r
    at hinc hok hright ⊢
  generalize cur s.nodes hdr pos (extDepth s) = e at hinc hok hleft ⊢
  by_cases he : e.firstBlock ≤ b
  · -- The usual case: the lookup has settled on an extent at or before the block.
    have hl' : ∀ x ∈ l ++ [e], x.firstBlock ≤ b := by
      intro x hx
      rcases List.mem_append.mp hx with hx | hx
      · have := (List.pairwise_append.mp hinc).2.2 x hx e List.mem_cons_self
        omega
      · rw [List.mem_singleton.mp hx]
        exact he
    have hnext : IsNext (l ++ e :: r) b (firstOr r) := by
      rw [show l ++ e :: r = l ++ [e] ++ r by simp] at hinc ⊢
      exact isNext_firstOr hinc hl' hright
    refine iff_of_true hnext fun ex hm => .inl ?_
    rcases l with _ | ⟨x, l⟩
    · simp only [List.nil_append, List.head?_cons, Option.mem_def, Option.some.injEq] at hm
      rwa [← hm]
    · simp only [List.cons_append, List.head?_cons, Option.mem_def, Option.some.injEq] at hm
      rw [← hm]
      exact hl' x (by simp)
  · -- The block precedes every extent, and the lookup has settled on the next one.
    have hnil : l = [] := hleft.resolve_left he
    subst hnil
    rw [List.nil_append] at hinc hok ⊢
    have hdue : IsNext (e :: r) b e.firstBlock := by
      have hall : ∀ x ∈ e :: r, b < x.firstBlock := by
        intro x hx
        rcases List.mem_cons.mp hx with rfl | hx
        · omega
        · exact hright x hx
      exact @isNext_firstOr b [] (e :: r) hinc (by simp) hall
    have hiff : IsNext (e :: r) b (firstOr r) ↔ e.firstBlock = firstOr r :=
      ⟨fun hn => isNext_unique hdue hn, fun heq => heq ▸ hdue⟩
    rw [hiff]
    simp only [List.head?_cons, Option.mem_def, Option.some.injEq, forall_eq']
    rcases r with _ | ⟨x, r⟩
    · exact ⟨.inr, fun h => h.resolve_left he⟩
    · have hlt := (List.pairwise_cons.mp hinc).1 x List.mem_cons_self
      have hx := (hok x (by simp)).fits.firstBlock
      have hval : firstOr (x :: r) = x.firstBlock := rfl
      rw [hval]
      unfold extMaxBlocks
      omega

/-- **When the next allocated block and the length of the hole are right.** -/
theorem nextRight_iff (ht : TreeOk env s) (hheld : HeldWithin s) (hb : b < 2 ^ 32)
    (hfree : ∀ ex ∈ treeExts s, ¬ Holds ex b) (hfind : ext4FindExtent env b s = (.ok (), t)) :
    NextRight t b ↔ NextKnown (treeExts s) b := by
  obtain ⟨hcore, hl⟩ := find_ok ht hheld hfind
  have hexts : treeExts t = treeExts s := by
    have hn : t.nodes = s.nodes := congrArg Prod.fst hcore
    unfold treeExts extDepth
    rw [hn]
  rw [← hexts] at hfree ⊢
  have hok := hl.tree.extOk
  constructor
  · rintro ⟨hnext, hhole⟩
    exact ⟨(isNext_run_iff hl).mp hnext,
      (isNext_lt_iff hok hnext).mp ((holeOf_iff hok hfree hb hnext).mp hhole)⟩
  · rintro ⟨hfirst, hshort⟩
    have hnext := (isNext_run_iff hl).mpr hfirst
    exact ⟨hnext, (holeOf_iff hok hfree hb hnext).mpr ((isNext_lt_iff hok hnext).mpr hshort)⟩

end

/-! ### Two files -/

/-- A file of two extents, the blocks 0 to 9 and 20 to 29. -/
def twoExtents : St :=
  stateOf (fun _ => nodeOf 0 4 [⟨0, 10, 0, 1000⟩, ⟨20, 10, 0, 2000⟩]) fun _ => false

/-- A file of one extent, the blocks 10 to 19. -/
def lateFile : St := stateOf (fun _ => nodeOf 0 4 [⟨10, 10, 0, 1000⟩]) fun _ => false

/-- The hole at block 12 ends at 20. -/
theorem nextRight_twoExtents : NextRight (ext4FindExtent steadyDisk 12 twoExtents).2 12 :=
  (nextRight_iff (by decide +kernel) (heldWithin_stateOf _ _) (by decide) (by decide +kernel)
    (Prod.ext (by decide +kernel) rfl)).mpr ⟨by decide +kernel, .inl (by decide +kernel)⟩

/-- The hole at block 0 ends at 10, and the function finds no next block. -/
theorem lateFile_next : ¬ ∀ (env : Env) (s t : St) (b : ℕ), TreeOk env s → HeldWithin s →
    b < 2 ^ 32 → (∀ ex ∈ treeExts s, ¬ Holds ex b) → ext4FindExtent env b s = (.ok (), t) →
      NextRight t b := by
  intro hall
  have hnext := (hall steadyDisk lateFile (ext4FindExtent steadyDisk 0 lateFile).2 0
    (by decide +kernel) (heldWithin_stateOf _ _) (by decide) (by decide +kernel)
    (Prod.ext (by decide +kernel) rfl)).next
  have hrun :
      ext4ExtNextAllocatedBlock (ext4FindExtent steadyDisk 0 lateFile).2 = extMaxBlocks := by
    decide +kernel
  have hexts : treeExts (ext4FindExtent steadyDisk 0 lateFile).2 = [⟨10, 10, 0, 1000⟩] := by
    decide +kernel
  have hle := hnext.least ⟨10, 10, 0, 1000⟩ (by rw [hexts]; simp) (by decide)
  rw [hrun] at hle
  exact absurd hle (by decide)

end Ext4Fsd.Extent.NextBlock
