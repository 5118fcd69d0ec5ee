import Ext4Fsd.Extent.Mapping
import Ext4Fsd.Extent.Merge
import Ext4Fsd.Extent.InPlace
import Ext4Fsd.Extent.PlainInsert

/-! # Merging and plain insertion

An insertion that may merge and one that may not should give the same map. `coalesce_iff` says when
they do. A merge behind the path's extent is right unless the two adjoin around the end of the
logical blocks; a merge in front of it is never right, since the extent then starts earlier and
keeps its physical start. -/

namespace Ext4Fsd.Extent.Coalesce

open Ext4Fsd.Lib.Fallible Ext4Fsd.Lib.Intervals Ext4Fsd.Extent.Layout Ext4Fsd.Extent.Store
open Ext4Fsd.Extent.Search Ext4Fsd.Extent.Insert Ext4Fsd.Extent.Tree Ext4Fsd.Extent.Way
open Ext4Fsd.Extent.Found Ext4Fsd.Extent.Lookup Ext4Fsd.Extent.Keys Ext4Fsd.Extent.Focus
open Ext4Fsd.Extent.Mapping Ext4Fsd.Extent.Merge Ext4Fsd.Extent.Prepared Ext4Fsd.Extent.MakeRoom
open Ext4Fsd.Extent.Landing Ext4Fsd.Extent.Insertion Ext4Fsd.Extent.Rounds Ext4Fsd.Extent.InPlace
open Ext4Fsd.Extent.PlainInsert

/-- Every index key on the path is the first logical block below it. -/
def PathKeysOk (t : St) : Prop :=
  ∀ i, i < extDepth t → ∃ p, (t.path i).index = some p ∧
    KeyOk t.nodes (extDepth t - (i + 1)) ((t.nodes (t.path i).header).slots p)

/-- **The two trees denote the same map**, and the keys on both paths are exact. -/
structure Agree (t₁ t₂ : St) : Prop where
  map : ∀ n, mapOf (treeExts t₁) n = mapOf (treeExts t₂) n
  keysMerged : PathKeysOk t₁
  keysPlain : PathKeysOk t₂

/-- The path's extent is extended over the end of the logical blocks, or to the front. -/
def MergesWrong (s : St) (newext : Slot) : Prop :=
  ∃ p, (s.path (extDepth s)).extent = some p ∧
    let ex := (s.nodes (s.path (extDepth s)).header).slots p
    (ext4ExtCanAppend ex newext = true ∧ extEnd ex = 2 ^ 32) ∨
      (ext4ExtCanAppend ex newext = false ∧ ext4ExtCanPrepend ex newext = true)

section
variable {env : Env} {s₀ s t t₁ t₂ : St} {hdr : ℕ → Hdr} {pos : ℕ → ℕ} {b n : ℕ} {newext ex : Slot}
  {E' l r : List Slot} {turns₁ turns₂ : ℕ}

/-! ### The keys on a path -/

theorem keys_level {nodes : Nodes} {g m j i : ℕ} (h : Keys nodes hdr pos g m j) (hji : j ≤ i)
    (hi : i < j + m) : KeyOk nodes (g + (j + m - (i + 1))) (cur nodes hdr pos i) := by
  induction m generalizing j with
  | zero => omega
  | succ m ih =>
    obtain ⟨h1, h2⟩ := h
    rcases Nat.eq_or_lt_of_le hji with rfl | hji
    · rwa [show j + (m + 1) - (j + 1) = m by omega]
    · have := ih h2 hji (by omega)
      rwa [show j + 1 + m = j + (m + 1) by omega] at this

theorem pathKeysOk_of_focused (hf : Focused env t hdr pos b)
    (hb : (leafNode t hdr).entries.head?.map Slot.firstBlock = some b) : PathKeysOk t := by
  intro i hi
  have hk := keys_level (hf.keys hb) (Nat.zero_le i) (by omega)
  rw [Nat.zero_add, Nat.zero_add] at hk
  exact ⟨pos i, hf.path.index i hi, by rwa [hf.path.header i hi.le]⟩

theorem pathKeysOk_of_settled (h : Settled env s t newext E') : PathKeysOk t := by
  obtain ⟨hdr, pos, b, -, hf, hb, -⟩ := h
  exact pathKeysOk_of_focused hf hb

theorem pathKeysOk_of_rewritten (h : Rewritten env s t hdr pos b ex)
    (hb : ((leafNode s hdr).slots 0).firstBlock = b) : PathKeysOk t :=
  pathKeysOk_of_focused h.focused (h.head hb)

/-! ### The map after a plain insertion -/

theorem not_holds_of_apart {x y : Slot} (h : Apart x y) (hy : Holds y n) : ¬ Holds x n := by
  rintro ⟨h1, h2⟩
  obtain ⟨h3, h4⟩ := hy
  rcases h with h | h <;> omega

theorem mem_landed (h : Landed s hdr pos newext E') (x : Slot) :
    x ∈ E' ↔ x = newext ∨ x ∈ treeExts s := by
  rcases h with ⟨-, l, r, h1, rfl, -⟩ | ⟨-, l, R₁, R₂, -, -, h1, rfl⟩ <;> rw [h1] <;>
    simp only [List.mem_append, List.mem_cons] <;> tauto

/-- **Wherever an extent lands, it is put into the map.** -/
theorem mapOf_landed (hs : Sorted (treeExts s)) (hapart : ∀ x ∈ treeExts s, Apart x newext)
    (h : Landed s hdr pos newext E') (n : ℕ) :
    mapOf E' n = putIn (mapOf (treeExts s)) newext n :=
  mapOf_of_mem hs (mem_landed h) fun x hx hn => not_holds_of_apart (hapart x hx) hn

/-! ### The map after a merge -/

/-- **An extent that is two in one is put into the map.** -/
theorem mapOf_joined {ex' : Slot} (hs : Sorted (l ++ ex :: r)) (hs' : Sorted (l ++ ex' :: r))
    (hj : Joined ex newext ex') (n : ℕ) :
    mapOf (l ++ ex' :: r) n = putIn (mapOf (l ++ ex :: r)) newext n := by
  have hin : ∀ y, y ∈ l ++ y :: r := fun y => by simp
  unfold putIn
  by_cases hn : Holds newext n
  · rw [if_pos hn, mapOf_of_holds hs' (hin ex') ((hj.holds n).mpr (Or.inr hn)), (hj.snd n hn).1,
      (hj.snd n hn).2]
  rw [if_neg hn]
  by_cases he : Holds ex n
  · rw [mapOf_of_holds hs' (hin ex') ((hj.holds n).mpr (Or.inl he)), (hj.fst n he).1,
      (hj.fst n he).2, mapOf_of_holds hs (hin ex) he]
  have hrest : ∀ x y, x ∈ l ++ ex :: r → x ≠ ex → x ∈ l ++ y :: r := fun x y hx hne => by
    simp only [List.mem_append, List.mem_cons] at hx ⊢
    tauto
  have hrest' : ∀ x, x ∈ l ++ ex' :: r → x = ex' ∨ x ∈ l ++ ex :: r := fun x hx => by
    simp only [List.mem_append, List.mem_cons] at hx ⊢
    tauto
  have he' : ¬ Holds ex' n := fun h => ((hj.holds n).mp h).elim he hn
  rcases hl : extentAt (l ++ ex :: r) n with _ | y
  · have hnone := coverOf_eq_none.mp hl
    rw [mapOf_eq_none.mpr hnone, mapOf_eq_none]
    intro x hx hhx
    rcases hrest' x hx with rfl | hx
    · exact he' hhx
    · exact hnone x hx hhx
  · obtain ⟨hy, hhy⟩ := (extentAt_eq_some hs).mp hl
    rw [mapOf_of_holds hs hy hhy,
      mapOf_of_holds hs' (hrest y ex' hy fun h => he (h ▸ hhy)) hhy]

/-- The extents around the path's one. -/
theorem around_pathExtent (hf : Focused env s hdr pos b) (h0 : (leafNode s hdr).entriesCount ≠ 0)
    (f : Slot → Slot) : ∃ l r, treeExts s = l ++ pathExtent s hdr pos :: r ∧
      treeExts (merged s (hdr (extDepth s)) (pos (extDepth s)) f) =
        l ++ f (pathExtent s hdr pos) :: r :=
  ⟨_, _, pathExtent_exts hf h0, merged_exts hf h0⟩

/-- **A merge behind the path's extent is right.** -/
theorem appended_spec (hr : Ready env s hdr pos b newext) (h0 : (leafNode s hdr).entriesCount ≠ 0)
    (hok : ∀ x ∈ treeExts s, ExtOk x) (hs : Sorted (treeExts s)) (hnew : ExtOk newext)
    (hapart : ∀ x ∈ treeExts s, Apart x newext)
    (hstate : ext4ExtIsUnwritten (pathExtent s hdr pos) = ext4ExtIsUnwritten newext)
    (hcan : ext4ExtCanAppend (pathExtent s hdr pos) newext = true)
    (hend : extEnd (pathExtent s hdr pos) < 2 ^ 32)
    (ht : t = merged s (hdr (extDepth s)) (pos (extDepth s)) (mergeInto newext)) :
    TreeOk env t ∧ PathKeysOk t ∧
    ∀ n, mapOf (treeExts t) n = putIn (mapOf (treeExts s)) newext n := by
  have hf := hr.focused
  have hb := hr.head h0
  have hex : ExtOk (pathExtent s hdr pos) := hok _ (hf.slot_mem (hf.pos_lt h0))
  obtain ⟨⟨hphys, hlog⟩, hmax⟩ := canAppend_iff.mp hcan
  rw [Nat.mod_eq_of_lt hend] at hlog
  have hinto : mergeInto newext (pathExtent s hdr pos) = addLen (pathExtent s hdr pos) newext :=
    if_pos hcan
  have hfirst : (mergeInto newext (pathExtent s hdr pos)).firstBlock =
      (pathExtent s hdr pos).firstBlock := by rw [hinto, addLen_firstBlock]
  have hj : Joined (pathExtent s hdr pos) newext (mergeInto newext (pathExtent s hdr pos)) := by
    rw [hinto]
    exact joined_addLen hex.fits hex.pos hstate hmax hphys hlog
  have hlen : extEnd (mergeInto newext (pathExtent s hdr pos)) = extEnd newext := by
    rw [hinto, extEnd, addLen_firstBlock, (addLen_len hex.pos hmax).1, extEnd, ← hlog, extEnd]
    omega
  have hrw := merged_spec hf h0 hfirst
  rw [← ht] at hrw
  obtain ⟨l, r, h1, h2⟩ := around_pathExtent hf h0 (mergeInto newext)
  rw [← ht] at h2
  rw [h1] at hs hok hapart ⊢
  have hsorted : Sorted (treeExts t) := by
    rw [h2]
    refine ordered_replace hs hfirst fun y hy => ?_
    have h3 := (ordered_middle hs).2 y hy
    have h4 := (hok y (by simp [hy])).lt_end
    rw [hlen]
    rcases hapart y (by simp [hy]) with h | h
    · omega
    · exact h
  refine ⟨hrw.treeOk hb (fun x hx => ?_) hsorted, pathKeysOk_of_rewritten hrw hb, fun n => ?_⟩
  · rw [h2] at hx
    rcases List.mem_append.mp hx with hx | hx
    · exact hok x (by simp [hx])
    rcases List.mem_cons.mp hx with rfl | hx
    · refine ⟨hj.fits, ?_, hlen ▸ hnew.logical, ?_⟩
      · rw [hinto, (addLen_len hex.pos hmax).1]
        have := hex.pos
        omega
      · have := hnew.physical
        rw [hinto, addLen_pblock, (addLen_len hex.pos hmax).1]
        omega
    · exact hok x (by simp [hx])
  · rw [h2] at hsorted ⊢
    exact mapOf_joined hs hsorted hj n

/-- Over the end of the logical blocks the path's extent does not reach block zero. -/
theorem appended_wraps (hr : Ready env s hdr pos b newext) (h0 : (leafNode s hdr).entriesCount ≠ 0)
    (hapart : ∀ x ∈ treeExts s, Apart x newext) (hnew : ExtOk newext)
    (hcan : ext4ExtCanAppend (pathExtent s hdr pos) newext = true)
    (hend : extEnd (pathExtent s hdr pos) = 2 ^ 32)
    (ht : t = merged s (hdr (extDepth s)) (pos (extDepth s)) (mergeInto newext)) :
    mapOf (treeExts t) newext.firstBlock = none := by
  have hf := hr.focused
  have hzero : newext.firstBlock = 0 := by
    rw [← (canAppend_iff.mp hcan).1.logical, hend, Nat.mod_self]
  obtain ⟨l, r, h1, h2⟩ := around_pathExtent hf h0 (mergeInto newext)
  rw [← ht] at h2
  rw [h1] at hapart
  have hne : (pathExtent s hdr pos).firstBlock ≠ newext.firstBlock :=
    hr.fresh _ (hf.slot_mem (hf.pos_lt h0))
  have hholds : Holds newext newext.firstBlock := ⟨le_rfl, hnew.lt_end⟩
  rw [h2, mapOf_eq_none]
  intro x hx
  rcases List.mem_append.mp hx with hx | hx
  · exact not_holds_of_apart (hapart x (by simp [hx])) hholds
  rcases List.mem_cons.mp hx with rfl | hx
  · rintro ⟨h3, -⟩
    rw [mergeInto, if_pos hcan, addLen_firstBlock] at h3
    omega
  · exact not_holds_of_apart (hapart x (by simp [hx])) hholds

/-- **A merge in front of the path's extent moves its blocks.** -/
theorem prepended_moves (hr : Ready env s hdr pos b newext)
    (h0 : (leafNode s hdr).entriesCount ≠ 0) (hs : Sorted (treeExts s))
    (hex : ExtOk (pathExtent s hdr pos))
    (hcan : ext4ExtCanAppend (pathExtent s hdr pos) newext = false)
    (ht : t = merged s (hdr (extDepth s)) (pos (extDepth s)) (mergeInto newext)) :
    mapOf (treeExts t) (pathExtent s hdr pos).firstBlock ≠
      mapOf (treeExts s) (pathExtent s hdr pos).firstBlock := by
  have hf := hr.focused
  have hne : (pathExtent s hdr pos).firstBlock ≠ newext.firstBlock :=
    hr.fresh _ (hf.slot_mem (hf.pos_lt h0))
  have hholds : Holds (pathExtent s hdr pos) (pathExtent s hdr pos).firstBlock :=
    ⟨le_rfl, hex.lt_end⟩
  obtain ⟨l, r, h1, h2⟩ := around_pathExtent hf h0 (mergeInto newext)
  rw [← ht] at h2
  rw [h1] at hs
  obtain ⟨hl, hr'⟩ := ordered_middle hs
  have hinto : mergeInto newext (pathExtent s hdr pos) = prepended (pathExtent s hdr pos) newext :=
    if_neg (by rw [hcan]; simp)
  have hphys : ext4ExtPblock (prepended (pathExtent s hdr pos) newext) =
      ext4ExtPblock (pathExtent s hdr pos) := addLen_pblock _ _
  rw [h1, mapOf_of_holds hs (by simp) hholds, h2]
  intro hmap
  obtain ⟨x, hx, hxeq⟩ := Option.map_eq_some_iff.mp hmap
  have hmem := List.mem_of_find?_eq_some hx
  obtain ⟨h3, h4⟩ : Holds x (pathExtent s hdr pos).firstBlock := by
    simpa using List.find?_some hx
  rcases List.mem_append.mp hmem with hmem | hmem
  · have := hl x hmem
    omega
  rcases List.mem_cons.mp hmem with rfl | hmem
  · rw [hinto] at h3 hxeq
    have hp := (Prod.mk.inj hxeq).1
    unfold physOf at hp
    rw [hphys] at hp
    change newext.firstBlock ≤ _ at h3
    change _ + (_ - newext.firstBlock) = _ at hp
    omega
  · have := hr' x hmem
    have := hex.lt_end
    omega

/-! ### When the two agree -/

theorem mergesWrong_iff (hf : Focused env s hdr pos b) : MergesWrong s newext ↔
    (leafNode s hdr).entriesCount ≠ 0 ∧
      ((ext4ExtCanAppend (pathExtent s hdr pos) newext = true ∧
          extEnd (pathExtent s hdr pos) = 2 ^ 32) ∨
        (ext4ExtCanAppend (pathExtent s hdr pos) newext = false ∧
          ext4ExtCanPrepend (pathExtent s hdr pos) newext = true)) := by
  unfold MergesWrong
  rw [hf.path.leaf, hf.path.header _ le_rfl]
  by_cases h0 : (leafNode s hdr).entriesCount = 0
  · simp [h0]
  · simp [h0]

/-- What a plain insertion does, wherever the extent lands. -/
theorem plain_spec (hr : Ready env s hdr pos b newext) (hs : Sought s hdr pos newext)
    (hsize : SizeOk env) (hal : AllocOk env) (hfits : Fits newext) (hdeep : DepthFits s)
    (hsorted : Sorted (treeExts s)) (hapart : ∀ x ∈ treeExts s, Apart x newext)
    {noCombine : Bool} (hno : NoMerge (leafNode s hdr) (pos (extDepth s)) newext noCombine)
    {turns : ℕ} (h : ext4ExtInsertExtent env newext noCombine turns s = (.ok (), t)) :
    PathKeysOk t ∧ ∀ n, mapOf (treeExts t) n = putIn (mapOf (treeExts s)) newext n := by
  have hrun := @insertRounds_more env s t turns newext noCombine 2 (insertExtent_ok h)
  rcases insertRounds_spec hr hs hsize hal hfits hdeep hno hrun with
    ⟨-, E', hland, hset⟩ | ⟨e, he, -⟩
  · refine ⟨pathKeysOk_of_settled hset, fun n => ?_⟩
    obtain ⟨-, -, -, -, -, -, -, -, hE, -⟩ := hset
    rw [hE]
    exact mapOf_landed hsorted hapart hland n
  · simp at he

/-- **When merging and plain insertion agree.** -/
theorem coalesce_iff (ht : TreeOk env s₀) (hheld : HeldWithin s₀) (hsize : SizeOk env)
    (hal : AllocOk env) (hnew : ExtOk newext) (hapart : ∀ x ∈ treeExts s₀, Apart x newext)
    (hfind : ext4FindExtent env newext.firstBlock s₀ = (.ok (), s)) (hdeep : DepthFits s)
    (hstate : ∀ p, (s.path (extDepth s)).extent = some p →
      ext4ExtIsUnwritten ((s.nodes (s.path (extDepth s)).header).slots p) =
        ext4ExtIsUnwritten newext)
    (h₁ : ext4ExtInsertExtent env newext false turns₁ s = (.ok (), t₁))
    (h₂ : ext4ExtInsertExtent env newext true turns₂ s = (.ok (), t₂)) :
    Agree t₁ t₂ ↔ ¬ MergesWrong s newext := by
  obtain ⟨hcore, hloc⟩ := find_ok ht hheld hfind
  have hn : s.nodes = s₀.nodes := congrArg Prod.fst hcore
  have he : treeExts s = treeExts s₀ := by unfold treeExts extDepth; rw [hn]
  rw [← hn] at hloc
  rw [← he] at hapart
  have hfresh : ∀ x ∈ treeExts s, x.firstBlock ≠ newext.firstBlock := fun x hx =>
    apart_first (hloc.tree.extOk x hx) hnew (hapart x hx)
  have hr := ready_of_reached hloc.toReached hloc.tree.shaped hfresh
  have hs := sought_of_reached hloc.toReached hloc.tree.shaped hfresh
  generalize findHdr s.nodes newext.firstBlock .inode = hdr at hr hs
  generalize findPos s.nodes newext.firstBlock .inode = pos at hr hs
  generalize ((leafNode s hdr).slots 0).firstBlock = b at hr
  have hf := hr.focused
  have hsorted := hloc.tree.sorted
  obtain ⟨hkeys₂, hmap₂⟩ :=
    plain_spec hr hs hsize hal hnew.fits hdeep hsorted hapart (Or.inl rfl) h₂
  rw [mergesWrong_iff hf]
  by_cases hno : NoMerge (leafNode s hdr) (pos (extDepth s)) newext false
  · obtain ⟨hkeys₁, hmap₁⟩ := plain_spec hr hs hsize hal hnew.fits hdeep hsorted hapart hno h₁
    refine ⟨fun _ => ?_, fun _ => ⟨fun n => by rw [hmap₁, hmap₂], hkeys₁, hkeys₂⟩⟩
    rintro ⟨h0, hwrong⟩
    rcases hno with h | h
    · simp at h
    · obtain ⟨h3, h4⟩ := h h0
      rw [h3, h4] at hwrong
      simp at hwrong
  -- the merge
  have hrun := @insertRounds_more env s t₁ turns₁ newext false 1 (insertExtent_ok h₁)
  rw [insertRounds_merge hf (fun h0 => hfresh _ (hf.slot_mem (hf.pos_lt h0))) hno] at hrun
  have ht₁ := (Prod.mk.inj hrun).2.symm
  unfold NoMerge at hno
  push Not at hno
  obtain ⟨-, h0, hmerge⟩ := hno
  have hex : ExtOk (pathExtent s hdr pos) := hloc.tree.extOk _ (hf.slot_mem (hf.pos_lt h0))
  by_cases hcan : ext4ExtCanAppend (pathExtent s hdr pos) newext = true
  · by_cases hend : extEnd (pathExtent s hdr pos) = 2 ^ 32
    · refine iff_of_false (fun hag => ?_) fun h => h ⟨h0, Or.inl ⟨hcan, hend⟩⟩
      have hnone := appended_wraps hr h0 hapart hnew hcan hend ht₁
      rw [hag.map, hmap₂, putIn, if_pos ⟨le_rfl, hnew.lt_end⟩] at hnone
      simp at hnone
    · have hstate' : ext4ExtIsUnwritten (pathExtent s hdr pos) = ext4ExtIsUnwritten newext := by
        have := hstate (pos (extDepth s)) (by rw [hf.path.leaf, if_neg h0])
        rwa [hf.path.header _ le_rfl] at this
      obtain ⟨-, hkeys₁, hmap₁⟩ :=
        appended_spec hr h0 hloc.tree.extOk hsorted hnew hapart hstate' hcan
        (lt_of_le_of_ne hex.logical hend) ht₁
      refine iff_of_true ⟨fun n => by rw [hmap₁, hmap₂], hkeys₁, hkeys₂⟩ ?_
      rintro ⟨-, ⟨-, h⟩ | ⟨h, -⟩⟩
      · exact hend h
      · rw [h] at hcan
        simp at hcan
  · rw [Bool.not_eq_true] at hcan
    have hpre : ext4ExtCanPrepend (pathExtent s hdr pos) newext = true := by
      simpa using hmerge hcan
    refine iff_of_false (fun hag => ?_) fun h => h ⟨h0, Or.inr ⟨hcan, hpre⟩⟩
    refine prepended_moves hr h0 hsorted hex hcan ht₁ ?_
    have hout : ¬ Holds newext (pathExtent s hdr pos).firstBlock := fun h =>
      not_holds_of_apart (hapart _ (hf.slot_mem (hf.pos_lt h0))) h ⟨le_rfl, hex.lt_end⟩
    rw [hag.map, hmap₂, putIn, if_neg hout]

end

/-! ### A merge to the front -/

/-- A file with the blocks 10 and 11 alone. -/
def lateBlocks : St := stateOf (fun _ => nodeOf 0 4 [⟨10, 2, 0, 1000⟩]) fun _ => false

def lateBlocksAt8 : St := (ext4FindExtent roomyDisk 8 lateBlocks).2

theorem find_lateBlocks : ext4FindExtent roomyDisk 8 lateBlocks = (.ok (), lateBlocksAt8) :=
  eq_ok_of_fst (by decide +kernel)

/-- Block 10 moves when blocks 8 and 9 are merged into its extent. -/
theorem lateBlocks_moved : ¬ ∀ (env : Env) (s₀ s t₁ t₂ : St) (newext : Slot) (turns₁ turns₂ : ℕ),
    TreeOk env s₀ → HeldWithin s₀ → SizeOk env → AllocOk env → ExtOk newext →
      (∀ x ∈ treeExts s₀, Apart x newext) →
      ext4FindExtent env newext.firstBlock s₀ = (.ok (), s) → DepthFits s →
      (∀ p, (s.path (extDepth s)).extent = some p →
        ext4ExtIsUnwritten ((s.nodes (s.path (extDepth s)).header).slots p) =
          ext4ExtIsUnwritten newext) →
      ext4ExtInsertExtent env newext false turns₁ s = (.ok (), t₁) →
      ext4ExtInsertExtent env newext true turns₂ s = (.ok (), t₂) → Agree t₁ t₂ := by
  intro hall
  have hag := hall roomyDisk lateBlocks lateBlocksAt8
    (ext4ExtInsertExtent roomyDisk ⟨8, 2, 0, 998⟩ false 1 lateBlocksAt8).2
    (ext4ExtInsertExtent roomyDisk ⟨8, 2, 0, 998⟩ true 1 lateBlocksAt8).2 ⟨8, 2, 0, 998⟩ 1 1
    (by decide +kernel) (heldWithin_stateOf _ _) ⟨by decide, by decide⟩ allocOk_roomyDisk
    (by decide +kernel) (by decide +kernel) find_lateBlocks (by unfold DepthFits; decide +kernel)
    (fun p hp => by
      have hp0 : (lateBlocksAt8.path (extDepth lateBlocksAt8)).extent = some 0 := by decide +kernel
      obtain rfl := Option.some.inj (hp0.symm.trans hp)
      decide +kernel)
    (eq_ok_of_fst (by decide +kernel)) (eq_ok_of_fst (by decide +kernel))
  have hmap := hag.map 10
  revert hmap
  decide +kernel

def narrowLeavesAt11 : St := (ext4FindExtent roomyDisk 11 narrowLeaves).2

theorem find_narrowLeaves_eleven :
    ext4FindExtent roomyDisk 11 narrowLeaves = (.ok (), narrowLeavesAt11) :=
  eq_ok_of_fst (by decide +kernel)

/-- Block 11 is merged into the extent of block 10, or put into a leaf of its own. -/
theorem coalesce_narrowLeaves :
    Agree (ext4ExtInsertExtent roomyDisk ⟨11, 1, 0, 1001⟩ false 2 narrowLeavesAt11).2
      (ext4ExtInsertExtent roomyDisk ⟨11, 1, 0, 1001⟩ true 2 narrowLeavesAt11).2 := by
  have hp0 : (narrowLeavesAt11.path (extDepth narrowLeavesAt11)).extent = some 0 := by
    decide +kernel
  have hiff := @coalesce_iff roomyDisk narrowLeaves narrowLeavesAt11
    (ext4ExtInsertExtent roomyDisk ⟨11, 1, 0, 1001⟩ false 2 narrowLeavesAt11).2
    (ext4ExtInsertExtent roomyDisk ⟨11, 1, 0, 1001⟩ true 2 narrowLeavesAt11).2 ⟨11, 1, 0, 1001⟩ 2 2
    (by decide +kernel) (heldWithin_stateOf _ _) ⟨by decide, by decide⟩ allocOk_roomyDisk
    (by decide +kernel) (by decide +kernel) find_narrowLeaves_eleven
    (by unfold DepthFits; decide +kernel)
    (fun p hp => by
      obtain rfl := Option.some.inj (hp0.symm.trans hp)
      decide +kernel)
    (eq_ok_of_fst (by decide +kernel)) (eq_ok_of_fst (by decide +kernel))
  refine hiff.mpr ?_
  rintro ⟨p, hp, hwrong⟩
  obtain rfl := Option.some.inj (hp0.symm.trans hp)
  revert hwrong
  decide +kernel

end Ext4Fsd.Extent.Coalesce
