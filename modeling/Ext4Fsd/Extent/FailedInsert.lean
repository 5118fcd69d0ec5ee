import Ext4Fsd.Extent.Mapping
import Ext4Fsd.Extent.InPlace
import Ext4Fsd.Extent.PlainInsert

/-! # When an insertion fails

`ext4_ext_split_node` moves entries out of the nodes of the path before it knows that it gets the
blocks for the levels above; on a failure it gives the blocks back, and the entries with them. And
when the lookup in a tree that has grown fails, `ext4_ext_insert_extent` goes on with a path that
was freed. `failedInsert_iff` says that in all other cases a failed insertion loses nothing. -/

namespace Ext4Fsd.Extent.FailedInsert

open Ext4Fsd.Lib.Fallible Ext4Fsd.Lib.Intervals Ext4Fsd.Extent.Layout Ext4Fsd.Extent.Store
open Ext4Fsd.Extent.Search Ext4Fsd.Extent.Insert Ext4Fsd.Extent.Tree Ext4Fsd.Extent.Way
open Ext4Fsd.Extent.Found Ext4Fsd.Extent.Lookup Ext4Fsd.Extent.Keys Ext4Fsd.Extent.Focus
open Ext4Fsd.Extent.Mapping Ext4Fsd.Extent.InsertLeaf Ext4Fsd.Extent.Split Ext4Fsd.Extent.SplitRun
open Ext4Fsd.Extent.Prepared Ext4Fsd.Extent.MakeRoom Ext4Fsd.Extent.Grow Ext4Fsd.Extent.Landing
open Ext4Fsd.Extent.Insertion Ext4Fsd.Extent.Rounds Ext4Fsd.Extent.PlainInsert
open Ext4Fsd.Extent.InPlace

/-- Every block taken between `s` and `t` is in the tree, or it was given back once. -/
structure AccountedFor (s t : St) : Prop where
  kept : ∀ b, s.used b = true → t.used b = true
  taken : ∀ b, t.used b = true → s.used b = true ∨ Hdr.block b ∈ treeRefs t
  freed : ∃ F : List ℕ, t.freed = s.freed ++ F.map (fun b : ℕ => ((b : ℤ), 1)) ∧ F.Nodup ∧
    ∀ b ∈ F, s.used b = false ∧ t.used b = false

/-- **A failure with the error `e` has lost nothing.** -/
structure LosesNothing (s t : St) (e : Errno) : Prop where
  /-- No memory is used that is gone. -/
  returned : e ≠ .fault
  map : ∀ n, mapOf (treeExts t) n = mapOf (treeExts s) n
  blocks : AccountedFor s t

/-- The entry of the path at level `l`. -/
def pathEntry (s : St) (l : ℕ) : Option ℕ :=
  if l = extDepth s then (s.path l).extent else (s.path l).index

/-- At level `l` there are entries behind the path's one. -/
def Behind (s : St) (l : ℕ) : Prop :=
  ∃ p ∈ pathEntry s l, p + 1 < (s.nodes (s.path l).header).entriesCount

/-- The tree grows by the block `nb`: every level of the path is full, and the block is granted. -/
structure GrowsBy (env : Env) (s : St) (nb : ℕ) : Prop where
  full : extDepth s < fullLevels s (extDepth s)
  granted : env.alloc s.calls s.used (growGoal env s) = .ok nb
  gotten : env.blockGet (s.calls + 1) nb = none

/-- The request for the first block of the path in the grown tree. The growth has made two, and the
path array may be too short for it. -/
def regetFrom (s : St) : ℕ := s.calls + 2 + if (s.path 0).maxdepth ≤ extDepth s then 1 else 0

/-- **In the tree that has grown by `nb` the path is found again**: the array for it is granted, the
block `nb`, and the blocks of the path once more. -/
structure Refound (env : Env) (s : St) (nb : ℕ) : Prop where
  array : (s.path 0).maxdepth ≤ extDepth s → env.calloc (s.calls + 2) = true
  root : env.blockGet (regetFrom s) nb = none
  way : ∀ l, 0 < l → l ≤ extDepth s → env.blockGet (regetFrom s + l) (s.path l).block = none

/-- **The tree grows, and the path is not found again in it.** -/
def PathLost (env : Env) (s : St) : Prop := ∃ nb, GrowsBy env s nb ∧ ¬ Refound env s nb

/-- The blocks the disk has in a row for a split of `k` levels whose first request is `c`, the one
for a path array, with the allocation bitmap `used`. -/
def blocksForSplit (env : Env) (newext : Slot) (s : St) (k c : ℕ) (used : ℕ → Bool) : ℕ :=
  blocksHad env (ext4ExtFindGoal env newext.firstBlock s) k (c + 1) used

/-- **That split lacks a block after a level that has entries behind the path's one.** -/
structure CutShort (env : Env) (newext : Slot) (s : St) (k c : ℕ) (used : ℕ → Bool) : Prop where
  memory : env.calloc c = true
  short : blocksForSplit env newext s k c used < k
  behind : ∃ l, l ≤ extDepth s ∧ extDepth s < l + blocksForSplit env newext s k c used ∧ Behind s l

/-- **The split of the full levels is cut short**, below a level with room, or below the old root
when the tree has grown. -/
def Stranded (env : Env) (newext : Slot) (s : St) : Prop :=
  (fullLevels s (extDepth s) ≤ extDepth s ∧
    CutShort env newext s (fullLevels s (extDepth s)) s.calls s.used) ∨
  ∃ nb, GrowsBy env s nb ∧ Refound env s nb ∧
    CutShort env newext s (extDepth s) (regetFrom s + extDepth s + 1)
      (Function.update s.used nb true)

/-- The errors of the outside are not those of the model. -/
def OwnErrors (env : Env) : Prop := ∀ e, Refused env e → e ≠ .fault

section
variable {env : Env} {s₀ s t u v : St} {hdr : ℕ → Hdr} {pos : ℕ → ℕ} {b g n j k key lo : ℕ}
  {newext : Slot} {nodes nodes' : Nodes} {noCombine : Bool} {turns : ℕ}

/-! ### A tree with nodes cut along the way -/

theorem append_eq_of_sublist {α : Type} {a a' c c' : List α} (ha : a'.Sublist a)
    (hc : c'.Sublist c) :
    a' ++ c' = a ++ c ↔ a' = a ∧ c' = c := by
  constructor
  · intro h
    have hlen := congrArg List.length h
    rw [List.length_append, List.length_append] at hlen
    have h1 := ha.length_le
    have h2 := hc.length_le
    exact ⟨ha.eq_of_length (by omega), hc.eq_of_length (by omega)⟩
  · rintro ⟨rfl, rfl⟩
    rfl

/-- What a way holds when its nodes from level `k` on were cut after its entries. -/
theorem way_of_cut (hs : Spine env nodes hdr pos g n j)
    (hkept : ∀ l, j ≤ l → l < j + n → l < k → nodes' (hdr l) = nodes (hdr l))
    (hcut : ∀ l, j ≤ l → l < j + n → k ≤ l → CutAfter (nodes (hdr l)) (nodes' (hdr l)) (pos l))
    (hsib : ∀ r ∈ sibRefs nodes hdr pos g n j, nodes' r = nodes r) :
    OnPath nodes' hdr pos n j ∧ lefts nodes' hdr pos g n j = lefts nodes hdr pos g n j ∧
      (rights nodes' hdr pos g n j).Sublist (rights nodes hdr pos g n j) ∧
      (rights nodes' hdr pos g n j = rights nodes hdr pos g n j ↔
        ∀ l, j ≤ l → l < j + n → k ≤ l → pos l + 1 = (nodes (hdr l)).entriesCount) := by
  induction n generalizing j with
  | zero =>
    refine ⟨trivial, rfl, List.Sublist.refl _, fun _ l h1 h2 => ?_, fun _ => rfl⟩
    omega
  | succ n ih =>
    obtain ⟨-, hlt, hc, -, hafter, hrest⟩ := hs
    rw [sibRefs_succ] at hsib
    have hB : ∀ r ∈ refsOf nodes (g + n) (before nodes hdr pos j), nodes' r = nodes r :=
      fun r hr => hsib r (List.mem_append_left _ (List.mem_append_left _ hr))
    have hA : ∀ r ∈ refsOf nodes (g + n) (after nodes hdr pos j), nodes' r = nodes r :=
      fun r hr => hsib r (List.mem_append_left _ (List.mem_append_right _ hr))
    obtain ⟨h1, h2, h3, h4⟩ := ih hrest (fun l h5 h6 => hkept l (by omega) (by omega))
      (fun l h5 h6 => hcut l (by omega) (by omega)) fun r hr => hsib r (List.mem_append_right _ hr)
    have hlast : extsOf nodes (g + n) (after nodes hdr pos j) = [] ↔
        pos j + 1 = (nodes (hdr j)).entriesCount := by
      rw [hafter.extsOf_eq_nil, List.drop_eq_nil_iff, length_entries]
      omega
    rw [lefts_succ, lefts_succ, rights_succ, rights_succ]
    by_cases hk : k ≤ j
    · have hcutj := hcut j le_rfl (by omega) hk
      have heL : before nodes' hdr pos j = before nodes hdr pos j := by
        rw [before, hcutj.entries hlt, List.take_take, Nat.min_eq_left (by omega)]
      have haL : after nodes' hdr pos j = [] := by
        rw [after, hcutj.entries hlt]
        simp
      refine ⟨⟨by rw [hcutj.count]; omega, by rw [cur, hcutj.slots]; exact hc, h1⟩, ?_, ?_, ?_⟩
      · rw [heL, extsOf_congr hB, h2]
      · rw [haL]
        exact h3.append (List.nil_sublist _)
      · rw [haL, extsOf_nil, append_eq_of_sublist h3 (List.nil_sublist _), h4, eq_comm, hlast]
        constructor
        · rintro ⟨h5, h6⟩ l h7 h8 h9
          rcases Nat.eq_or_lt_of_le h7 with rfl | h7
          · exact h6
          · exact h5 l h7 (by omega) h9
        · intro h5
          exact ⟨fun l h6 h7 => h5 l (by omega) (by omega), h5 j le_rfl (by omega) hk⟩
    · have hsame := hkept j le_rfl (by omega) (by omega)
      have heL : before nodes' hdr pos j = before nodes hdr pos j := by rw [before, hsame]
      have haL : after nodes' hdr pos j = after nodes hdr pos j := by rw [after, hsame]
      refine ⟨⟨by rwa [hsame], by rw [cur, hsame]; exact hc, h1⟩, ?_, ?_, ?_⟩
      · rw [heL, extsOf_congr hB, h2]
      · rw [haL, extsOf_congr hA]
        exact h3.append (List.Sublist.refl _)
      · rw [haL, extsOf_congr hA, List.append_left_inj, h4]
        constructor
        · intro h5 l h6 h7 h8
          exact h5 l (by omega) (by omega) h8
        · intro h5 l h6 h7 h8
          exact h5 l (by omega) (by omega) h8

/-- **The tree after a split that failed at level `k - 1`.** -/
theorem splitFailed_tree (hf : Focused env s hdr pos b) (h0 : (leafNode s hdr).entriesCount ≠ 0)
    (hpos : 0 < k) (hk : k ≤ extDepth s + 1) (hfail : SplitFailed env s t hdr pos key lo k) :
    extDepth t = extDepth s ∧ OnPath t.nodes hdr pos (extDepth s) 0 ∧
      (treeExts t).Sublist (treeExts s) ∧
      (treeExts t = treeExts s ↔
        ∀ l, k ≤ l → l ≤ extDepth s → pos l + 1 = (s.nodes (hdr l)).entriesCount) := by
  obtain ⟨u, v, new, hd, hnot, hclean⟩ := hfail
  obtain ⟨N, U, hrun, -⟩ := @splitCleanup_run v (extDepth s - lo + 1)
  rw [hrun] at hclean
  obtain ⟨-, rfl⟩ := Prod.mk.inj hclean
  have hvn : v.nodes = u.nodes := by rw [hnot.eq]
  rw [treeExts, extDepth]
  dsimp only
  rw [hvn]
  have hfree : ∀ h ∈ wayRefs s hdr pos, ∀ l, k ≤ l → l ≤ extDepth s → h ≠ .block (new l) := by
    intro h hh l h1 h2 heq
    have := (hf.used (new l) (heq ▸ hh)).1
    rw [(hd.fresh l h1 h2).1] at this
    simp at this
  have hkept : ∀ l, l ≤ extDepth s → l < k → u.nodes (hdr l) = s.nodes (hdr l) := fun l h1 h2 =>
    hd.other _ fun m h3 h4 => ⟨hf.distinct.ne (by omega) (by omega) (by omega),
      hfree _ (hdr_mem_wayRefs h1) m h3 h4⟩
  have hD : (u.nodes .inode).depth = extDepth s := by
    rw [← hf.path.root, hkept 0 (Nat.zero_le _) hpos, hf.path.root]
    rfl
  have hsib : ∀ r ∈ sibRefs s.nodes hdr pos 0 (extDepth s) 0, u.nodes r = s.nodes r := fun r hr =>
    hd.other _ fun m h3 h4 => ⟨hf.sib_ne r hr m h4, hfree r
      (List.mem_append_left _ (List.mem_append_right _ hr)) m h3 h4⟩
  obtain ⟨h1, h2, h3, h4⟩ := way_of_cut (k := k) hf.spine (fun l _ h5 h6 => hkept l (by omega) h6)
    (fun l _ h5 h6 => hd.cut l h6 (by omega)) hsib
  have hexts := exts_spine (g := 0) h1
  rw [hf.path.root, Nat.zero_add, h2] at hexts
  rw [hD, hexts, hf.exts, List.append_assoc, List.append_assoc, List.append_right_inj]
  -- the leaf
  have hleaf : ((u.nodes (hdr (extDepth s))).entries).Sublist (leafNode s hdr).entries ∧
      ((u.nodes (hdr (extDepth s))).entries = (leafNode s hdr).entries ↔
        (k ≤ extDepth s → pos (extDepth s) + 1 = (leafNode s hdr).entriesCount)) := by
    by_cases hkD : k ≤ extDepth s
    · rw [(hd.cut _ hkD le_rfl).entries (hf.pos_lt h0)]
      refine ⟨List.take_sublist _ _, ?_⟩
      rw [List.take_eq_self_iff, length_entries]
      exact ⟨fun h _ => le_antisymm (hf.pos_lt h0) h, fun h => (h hkD).ge⟩
    · rw [hkept _ le_rfl (by omega)]
      exact ⟨List.Sublist.refl _, fun _ h => absurd h hkD, fun _ => rfl⟩
  refine ⟨rfl, h1, (List.Sublist.refl _).append (hleaf.1.append h3), ?_⟩
  rw [exts, append_eq_of_sublist hleaf.1 h3, hleaf.2, h4]
  constructor
  · rintro ⟨h5, h6⟩ l h7 h8
    rcases Nat.eq_or_lt_of_le h8 with rfl | h8
    · exact h5 h7
    · exact h6 l (Nat.zero_le l) (by omega) h7
  · intro h5
    exact ⟨fun h6 => h5 _ h6 le_rfl, fun l _ h6 h7 => h5 l h7 (by omega)⟩

/-- The runs the cleanup gives back, as blocks. -/
theorem cleanupRuns_blocks (npath : ℕ → PathEnt)
    (hinj : ∀ x y, (npath x).block ≠ 0 → (npath x).block = (npath y).block → x = y) (n : ℕ) :
    ∃ F : List ℕ, cleanupRuns npath n = F.map (fun b : ℕ => ((b : ℤ), 1)) ∧ F.Nodup ∧
      ∀ b, b ∈ F ↔ b ≠ 0 ∧ ∃ x, x < n ∧ (npath x).block = b := by
  induction n with
  | zero => exact ⟨[], rfl, List.nodup_nil, fun b => by simp⟩
  | succ n ih =>
    obtain ⟨F, h1, h2, h3⟩ := ih
    unfold cleanupRuns
    by_cases h0 : (npath n).block ≠ 0
    · rw [if_pos h0, h1]
      refine ⟨(npath n).block :: F, rfl, List.nodup_cons.mpr ⟨fun hm => ?_, h2⟩, fun b => ?_⟩
      · obtain ⟨-, x, hx, heq⟩ := (h3 _).mp hm
        have := hinj n x h0 heq.symm
        omega
      · rw [List.mem_cons, h3]
        constructor
        · rintro (rfl | ⟨h4, x, h5, h6⟩)
          · exact ⟨h0, n, by omega, rfl⟩
          · exact ⟨h4, x, by omega, h6⟩
        · rintro ⟨h4, x, h5, h6⟩
          rcases Nat.eq_or_lt_of_le (show x ≤ n by omega) with rfl | h5
          · exact Or.inl h6.symm
          · exact Or.inr ⟨h4, x, h5, h6⟩
    · rw [if_neg h0, h1]
      refine ⟨F, rfl, h2, fun b => ?_⟩
      rw [h3]
      refine and_congr_right fun h4 => ⟨?_, ?_⟩
      · rintro ⟨x, h5, h6⟩
        exact ⟨x, by omega, h6⟩
      · rintro ⟨x, h5, h6⟩
        refine ⟨x, ?_, h6⟩
        rcases Nat.eq_or_lt_of_le (show x ≤ n by omega) with rfl | h5
        · rw [h6] at h0
          exact absurd h4 h0
        · exact h5

/-- **A failed split has given back what it took.** -/
theorem splitFailed_blocks (hnp : s.npath = fun _ => .zero) (hlo : lo ≤ k)
    (hk : k ≤ extDepth s + 1) (hfail : SplitFailed env s t hdr pos key lo k) :
    t.used = s.used ∧ ∃ F : List ℕ, t.freed = s.freed ++ F.map (fun b : ℕ => ((b : ℤ), 1)) ∧
      F.Nodup ∧ ∀ b ∈ F, s.used b = false := by
  obtain ⟨u, v, new, hd, hnot, hclean⟩ := hfail
  obtain ⟨N, U, hrun, hU⟩ := @splitCleanup_run v (extDepth s - lo + 1)
  rw [hrun] at hclean
  obtain ⟨-, rfl⟩ := Prod.mk.inj hclean
  have hvnp : v.npath = u.npath := by rw [hnot.eq]
  have hvu : v.used = u.used := by rw [hnot.eq]
  -- the new path entries hold the new blocks, and no others
  have hheld : ∀ l, k ≤ l → l ≤ extDepth s → (v.npath (l - lo)).block = new l := fun l h1 h2 => by
    rw [hvnp]
    exact (hd.npath l h1 h2).block
  have hnone : ∀ x, (v.npath x).block ≠ 0 → ∃ l, k ≤ l ∧ l ≤ extDepth s ∧ x = l - lo := by
    intro x hx
    by_contra hno
    push Not at hno
    rw [hvnp, hd.npathOther x hno, hnp] at hx
    exact hx rfl
  obtain ⟨F, h1, h2, h3⟩ := cleanupRuns_blocks v.npath (fun x y hx hxy => by
    obtain ⟨l, h1, h2, rfl⟩ := hnone x hx
    obtain ⟨m, h3, h4, rfl⟩ := hnone y (by rwa [← hxy])
    rw [hheld l h1 h2, hheld m h3 h4] at hxy
    rw [hd.inj l m h1 h2 h3 h4 hxy]) (extDepth s - lo + 1)
  have hF : ∀ c, c ∈ F ↔ ∃ l, k ≤ l ∧ l ≤ extDepth s ∧ new l = c := fun c => by
    rw [h3]
    constructor
    · rintro ⟨h4, x, -, h5⟩
      obtain ⟨l, h6, h7, rfl⟩ := hnone x (by rwa [h5])
      exact ⟨l, h6, h7, by rw [← hheld l h6 h7, h5]⟩
    · rintro ⟨l, h4, h5, rfl⟩
      exact ⟨(hd.fresh l h4 h5).2.1, l - lo, by omega, hheld l h4 h5⟩
  have hfresh : ∀ c ∈ F, s.used c = false := fun c hc => by
    obtain ⟨l, h4, h5, rfl⟩ := (hF c).mp hc
    exact (hd.fresh l h4 h5).1
  refine ⟨funext fun c => ?_, ?_⟩
  · refine Bool.eq_iff_iff.mpr ((hU c).trans ?_)
    rw [hvu, hd.used]
    constructor
    · rintro ⟨h4 | ⟨l, h5, h6, rfl⟩, h7⟩
      · exact h4
      · have := h7 (l - lo) (by omega) (by rw [hheld l h5 h6]; exact (hd.fresh l h5 h6).2.1)
        exact absurd (hheld l h5 h6) this
    · intro h4
      refine ⟨Or.inl h4, fun x _ hx heq => ?_⟩
      obtain ⟨l, h5, h6, rfl⟩ := hnone x hx
      rw [hheld l h5 h6] at heq
      rw [← heq, (hd.fresh l h5 h6).1] at h4
      simp at h4
  · dsimp only
    rw [h1]
    have hfreed := hnot.freed
    rw [hd.freed] at hfreed
    rcases hfreed with h4 | ⟨c, h4, h5⟩
    · exact ⟨F, by rw [h4], h2, hfresh⟩
    · have hc : c ∉ F := fun hc => by
        obtain ⟨l, h6, h7, h8⟩ := (hF c).mp hc
        rw [(hd.used c).mpr (Or.inr ⟨l, h6, h7, h8⟩)] at h4
        simp at h4
      refine ⟨c :: F, by rw [h5]; simp, List.nodup_cons.mpr ⟨hc, h2⟩, fun x hx => ?_⟩
      rcases List.mem_cons.mp hx with rfl | hx
      · by_contra hx
        rw [(hd.used x).mpr (Or.inl (by simpa using hx))] at h4
        simp at h4
      · exact hfresh x hx

/-! ### When the map stays -/

theorem behind_iff (hp : PathTo s hdr pos (extDepth s)) (h0 : (leafNode s hdr).entriesCount ≠ 0)
    (hj : j ≤ extDepth s) : Behind s j ↔ pos j + 1 < (s.nodes (hdr j)).entriesCount := by
  have hentry : pathEntry s j = some (pos j) := by
    unfold pathEntry
    by_cases h : j = extDepth s
    · rw [if_pos h, h, hp.leaf, if_neg h0]
    · rw [if_neg h, hp.index j (by omega)]
  unfold Behind
  rw [hentry, hp.header j hj]
  simp

theorem treeRefs_of_way (hp : PathTo s hdr pos (extDepth s)) (hD : extDepth t = extDepth s)
    (hway : OnPath t.nodes hdr pos (extDepth s) 0) (hj : j ≤ extDepth s) : hdr j ∈ treeRefs t := by
  have h := refs_spine (g := 0) hway
  rw [hp.root, Nat.zero_add] at h
  rw [treeRefs, hD]
  refine h.symm.mem_iff.mp ?_
  rcases Nat.eq_or_lt_of_le hj with rfl | hj
  · exact List.mem_append_right _ (mem_refs_self _ _ _)
  · exact List.mem_append_left _
      (List.mem_append_left _ (mem_hdrs.mpr ⟨j, by omega, by omega, rfl⟩))

/-- **What a failed split has lost.** -/
theorem unfinished_spec (hr : Ready env s hdr pos b newext)
    (h0 : (leafNode s hdr).entriesCount ≠ 0) (hok : ∀ x ∈ treeExts s, ExtOk x)
    (hsorted : Sorted (treeExts s)) (hun : Unfinished env s t hdr pos newext) :
    t.used = s.used ∧
      (∃ F : List ℕ, t.freed = s.freed ++ F.map (fun b : ℕ => ((b : ℤ), 1)) ∧ F.Nodup ∧
        ∀ b ∈ F, s.used b = false) ∧
      (∀ l, l ≤ extDepth s → hdr l ∈ treeRefs t) ∧
      ((∀ n, mapOf (treeExts t) n = mapOf (treeExts s) n) ↔
        ¬ CutShort env newext s (extDepth s + 1 - splitFrom s) s.calls s.used) := by
  have hf := hr.focused
  rcases hun with ⟨hc, hsame, hfreed⟩ | ⟨hc, lo, k, rfl, h1, h2, h3, hfail⟩
  · have hD : extDepth t = extDepth s := by unfold extDepth; rw [hsame.nodes]
    have he : treeExts t = treeExts s := by unfold treeExts; rw [hsame.nodes, hD]
    refine ⟨hsame.used, ?_, fun l hl => ?_, fun _ hs => ?_, fun _ n => by rw [he]⟩
    · rcases hfreed with h | ⟨c, h1, h2⟩
      · exact ⟨[], by simp [h], List.nodup_nil, by simp⟩
      · exact ⟨[c], by simp [h2], List.nodup_singleton c, by simpa using h1⟩
    · exact treeRefs_of_way hf.path hD (by rw [hsame.nodes]; exact hf.spine.onPath) hl
    · have := hs.memory
      rw [hc] at this
      simp at this
  · have hf' := focused_of_same hf same_scratched
    have hblocks : k + blocksForSplit env newext s (extDepth s + 1 - splitFrom s) s.calls s.used =
        extDepth s + 1 := h3
    obtain ⟨h4, h5, h6, h7⟩ := splitFailed_tree hf' h0 (by omega) h2 hfail
    obtain ⟨h8, h9⟩ := @splitFailed_blocks env (scratched s) t hdr pos k _ _ rfl h1.le h2 hfail
    refine ⟨h8, h9, fun l hl => treeRefs_of_way hf.path h4 h5 hl, ?_⟩
    rw [mapOf_sublist_iff hsorted hok h6]
    refine h7.trans ⟨fun hall hs => ?_, fun hno l h10 h11 => ?_⟩
    · obtain ⟨l, h10, h11, h12⟩ := hs.behind
      rw [behind_iff hf.path h0 h10] at h12
      exact absurd (hall l (by omega) h10) (Nat.ne_of_lt h12)
    · change l ≤ extDepth s at h11
      by_contra hne
      refine hno ⟨hc, by omega, l, h11, by omega, (behind_iff hf.path h0 h11).mpr ?_⟩
      have hlt : pos l < (s.nodes (hdr l)).entriesCount := by
        rcases Nat.eq_or_lt_of_le h11 with rfl | h11
        · exact hf.pos_lt h0
        · exact (spine_level hf.spine (Nat.zero_le l) (by omega)).2
      exact lt_of_le_of_ne hlt hne

/-! ### In the tree that has grown -/

/-- What the lookup in the grown tree asks for. -/
theorem lookupGranted_iff (hr : Ready env s hdr pos b newext) (hsize : SizeOk env)
    (hfull : (leafNode s hdr).entriesCount = (leafNode s hdr).maxEntriesCount)
    (hdeep : extDepth s + 1 < 2 ^ 16) (hg : Grown env s u g) :
    firstGet u = regetFrom s ∧
      (LookupGranted env newext.firstBlock u ↔ Refound env s g) := by
  have h0 := hr.nonempty hfull
  have hsh := hr.shaped h0
  have hp := hr.focused.path
  obtain ⟨hshu, hsub, hD, -, -⟩ := grown_shaped hg hsize hsh (hr.sub h0) hdeep
  have hneeds : NeedsArray u ↔ (s.path 0).maxdepth ≤ extDepth s := by
    rw [NeedsArray, hg.pathLive, hp.live, hg.path, hD, Nat.lt_succ_iff]
    exact forall_prop_of_true rfl
  have hget : firstGet u = regetFrom s := by
    rw [firstGet, regetFrom, hg.calls, if_congr hneeds rfl rfl]
  have hinc := hshu.inc
  rw [treeExts, hD] at hinc
  obtain ⟨hon, hcl⟩ := @find_way env newext.firstBlock (extDepth s + 1) 0 u.nodes .inode hsub hinc
  obtain ⟨h1, hheader, -⟩ := grown_way hg hr (hr.closest hfull) hsh rfl hon
    fun i hi => (hcl i (Nat.zero_le i) (by omega)).1
  refine ⟨hget, ?_⟩
  constructor
  · rintro ⟨harray, hway⟩
    rw [hget, hD] at hway
    refine ⟨fun hm => ?_, hway 0 g (Nat.succ_pos _) h1, fun l hl hl' => ?_⟩
    · have := harray (hneeds.mpr hm)
      rwa [hg.calls] at this
    · refine hway l _ (by omega) ?_
      rw [Nat.zero_add, hheader l hl hl', hp.held l hl hl']
  · rintro ⟨harray, hroot, hway⟩
    refine ⟨fun hm => ?_, fun l c hl hc => ?_⟩
    · rw [hg.calls]
      exact harray (hneeds.mp hm)
    · rw [hD] at hl
      rw [Nat.zero_add] at hc
      rw [hget]
      rcases Nat.eq_zero_or_pos l with rfl | hpos
      · obtain rfl := Hdr.block.inj (h1.symm.trans hc)
        exact hroot
      · rw [hheader l hpos (by omega), hp.held l hpos (by omega)] at hc
        obtain rfl := Hdr.block.inj hc
        exact hway l hpos (by omega)

/-- **The lookup in the grown tree**: when it succeeds, and how many requests it has made then. -/
theorem find_grown (hr : Ready env s hdr pos b newext) (hsize : SizeOk env)
    (hfull : (leafNode s hdr).entriesCount = (leafNode s hdr).maxEntriesCount)
    (hdeep : extDepth s + 1 < 2 ^ 16) (hg : Grown env s u g) {r : Except Errno Unit}
    (h : ext4FindExtent env newext.firstBlock u = (r, v)) :
    (r = .ok () ↔ Refound env s g) ∧ (r = .ok () → v.calls = regetFrom s + extDepth s + 1) := by
  have h0 := hr.nonempty hfull
  obtain ⟨hshu, -, hD, -, -⟩ := grown_shaped hg hsize (hr.shaped h0) (hr.sub h0) hdeep
  obtain ⟨hget, hiff⟩ := lookupGranted_iff hr hsize hfull hdeep hg
  obtain ⟨r', v', hrun, hok, hcalls⟩ :=
    @find_run env u newext.firstBlock hshu (heldWithin_grown hr.focused.path hg)
  obtain ⟨rfl, rfl⟩ := Prod.mk.inj (h.symm.trans hrun)
  refine ⟨hok.trans hiff, fun hr' => ?_⟩
  rw [hcalls hr', hget, hD]
  rfl

theorem growsBy_of_grown (hlt : extDepth s < fullLevels s (extDepth s)) (hg : Grown env s u g) :
    GrowsBy env s g :=
  ⟨hlt, hg.granted, hg.gotten⟩

theorem GrowsBy.unique {c c' : ℕ} (h : GrowsBy env s c) (h' : GrowsBy env s c') : c = c' :=
  Except.ok.inj (h.granted.symm.trans h'.granted)

/-- What was granted when the tree has grown and its path was found again. -/
theorem regrown_granted (hr : Ready env s hdr pos b newext) (hsize : SizeOk env)
    (hal : AllocOk env)
    (hfull : (leafNode s hdr).entriesCount = (leafNode s hdr).maxEntriesCount)
    (hdeep : extDepth s + 1 < 2 ^ 16)
    (h : (do ext4ExtGrowIndepth env; relookup env newext : Ext Unit) s = (.ok (), v))
    {hdr' : ℕ → Hdr} {pos' : ℕ → ℕ} (hv : Regrown env s v hdr' pos' g newext) :
    Refound env s g ∧ v.calls = regetFrom s + extDepth s + 1 ∧
      v.used = Function.update s.used g true := by
  obtain ⟨u', hg', hcore⟩ := hv.grown
  obtain ⟨_, u, hgrow, hlook⟩ := bind_ok h
  rcases grow_spec hal hgrow with ⟨-, c, hg⟩ | ⟨e, he, -⟩
  · obtain rfl : c = g := Except.ok.inj (hg.granted.symm.trans hg'.granted)
    rcases relookup_spec hlook with ⟨-, hfind⟩ | ⟨he, -⟩
    · obtain ⟨hiff, hcalls⟩ := find_grown hr hsize hfull hdeep hg hfind
      exact ⟨hiff.mp rfl, hcalls rfl, (congrArg (fun x => x.2.1) hcore).trans hg'.used⟩
    · simp at he
  · simp at he

/-- The leaf of the grown path asks for new blocks where the old one does. -/
theorem findGoal_deeper {hdr' : ℕ → Hdr} {pos' : ℕ → ℕ} (hd : Deeper s v hdr hdr' pos pos' g)
    (hD : extDepth v = extDepth s + 1) (hf : Focused env s hdr pos b)
    (hp' : PathTo v hdr' pos' (extDepth v)) (h0 : (leafNode s hdr).entriesCount ≠ 0) (c : ℕ) :
    ext4ExtFindGoal env c v = ext4ExtFindGoal env c s := by
  have hp := hf.path
  obtain ⟨hcount, hslots⟩ := hd.leaf hD hp.root
  have h0' : (leafNode v hdr').entriesCount ≠ 0 := by rwa [hcount]
  have hslot : (v.nodes (hdr' (extDepth v))).slots (pos' (extDepth v)) =
      (s.nodes (hdr (extDepth s))).slots (pos (extDepth s)) := by
    rw [show pos' (extDepth v) = pos (extDepth s) by rw [hD, hd.position _ le_rfl]]
    exact hslots _ (hf.pos_lt h0)
  have hleaf : (s.path (extDepth s)).extent = some (pos (extDepth s)) :=
    hp.leaf.trans (if_neg h0)
  have hleaf' : (v.path (extDepth v)).extent = some (pos' (extDepth v)) :=
    hp'.leaf.trans (if_neg h0')
  unfold ext4ExtFindGoal
  rw [hp.depth 0 (Nat.zero_le _), hp'.depth 0 (Nat.zero_le _), Nat.sub_zero, Nat.sub_zero]
  dsimp only
  rw [hleaf, hleaf']
  dsimp only
  rw [hp.header _ le_rfl, hp'.header _ le_rfl, hslot]

/-- The split in the grown tree is one of the old levels. -/
theorem cutShort_deeper {hdr' : ℕ → Hdr} {pos' : ℕ → ℕ} {c : ℕ} {used : ℕ → Bool}
    (hd : Deeper s v hdr hdr' pos pos' g) (hD : extDepth v = extDepth s + 1)
    (hf : Focused env s hdr pos b) (hp' : PathTo v hdr' pos' (extDepth v))
    (hfull : FullFrom s hdr 0) (h0 : (leafNode s hdr).entriesCount ≠ 0) :
    CutShort env newext v (extDepth v + 1 - splitFrom v) c used ↔
      CutShort env newext s (extDepth s) c used := by
  have hlevels : extDepth v + 1 - splitFrom v = extDepth s := by
    rw [hd.splitFrom hD hfull hp'.header, hD]
    omega
  have hhad : blocksForSplit env newext v (extDepth s) c used =
      blocksForSplit env newext s (extDepth s) c used := by
    rw [blocksForSplit, findGoal_deeper hd hD hf hp' h0]
    rfl
  have hbehind : ∀ l, l ≤ extDepth s → (Behind v (l + 1) ↔ Behind s l) := by
    intro l hl
    rw [behind_iff hp' (by rwa [(hd.leaf hD hf.path.root).1]) (by omega),
      behind_iff hf.path h0 hl, hd.position l hl]
    rcases Nat.eq_zero_or_pos l with rfl | hpos
    · rw [Nat.zero_add, hd.moved, hd.movedCount, hf.path.root]
    · rw [hd.header l hpos hl, hd.nodes l hpos hl]
  rw [hlevels]
  constructor
  · rintro ⟨hm, hshort, l, h1, h2, h3⟩
    rw [hhad] at hshort h2
    rcases l with _ | l
    · omega
    · exact ⟨hm, hshort, l, by omega, by omega, (hbehind l (by omega)).mp h3⟩
  · rintro ⟨hm, hshort, l, h1, h2, h3⟩
    rw [← hhad] at hshort h2
    exact ⟨hm, hshort, l + 1, by omega, by omega, (hbehind l h1).mpr h3⟩

/-! ### The insertion -/

theorem insertExtent_error {e : Errno}
    (h : ext4ExtInsertExtent env newext noCombine turns s = (.error e, t)) :
    ∃ u, insertRounds env newext noCombine turns s = (.error e, u) ∧ core t = core u := by
  unfold ext4ExtInsertExtent at h
  rw [bind_of_ok (attempt_apply _ s)] at h
  rcases hr : insertRounds env newext noCombine turns s with ⟨x | _, u⟩
  · rw [hr] at h
    dsimp only at h
    obtain ⟨T, hT⟩ := @dropRefs_run env u 0 false
    rw [bind_of_ok hT] at h
    obtain ⟨h1, rfl⟩ := Prod.mk.inj h
    obtain rfl := Except.error.inj h1
    exact ⟨u, rfl, rfl⟩
  · rw [hr] at h
    simp at h

theorem losesNothing_of_core {e : Errno} (h : core t = core u) :
    LosesNothing s t e ↔ LosesNothing s u e := by
  have hn : t.nodes = u.nodes := congrArg Prod.fst h
  have hused : t.used = u.used := congrArg (fun x => x.2.1) h
  have hfreed : t.freed = u.freed := congrArg (fun x => x.2.2.1) h
  have hD : extDepth t = extDepth u := by unfold extDepth; rw [hn]
  have he : treeExts t = treeExts u := by unfold treeExts; rw [hn, hD]
  have hrefs : treeRefs t = treeRefs u := by unfold treeRefs; rw [hn, hD]
  constructor <;> rintro ⟨h1, h2, h3, h4, h5⟩
  · rw [he] at h2
    rw [hused, hrefs] at h4
    rw [hused] at h3
    rw [hused, hfreed] at h5
    exact ⟨h1, h2, h3, h4, h5⟩
  · rw [← he] at h2
    rw [← hused, ← hrefs] at h4
    rw [← hused] at h3
    rw [← hused, ← hfreed] at h5
    exact ⟨h1, h2, h3, h4, h5⟩

/-- A run that changed no node and gave back at most a block that was free has lost nothing. -/
theorem losesNothing_of_same {e : Errno} (he : e ≠ .fault) (hsame : SameTree s t)
    (hfreed : t.freed = s.freed ∨
      ∃ c : ℕ, s.used c = false ∧ t.freed = s.freed ++ [((c : ℤ), 1)]) : LosesNothing s t e := by
  have hD : extDepth t = extDepth s := by unfold extDepth; rw [hsame.nodes]
  refine ⟨he, fun m => ?_, fun c hc => ?_, fun c hc => ?_, ?_⟩
  · rw [treeExts, treeExts, hsame.nodes, hD]
  · rwa [hsame.used]
  · exact Or.inl (by rwa [← hsame.used])
  · rcases hfreed with h1 | ⟨c, h1, h2⟩
    · exact ⟨[], by simp [h1], List.nodup_nil, by simp⟩
    · refine ⟨[c], by simp [h2], List.nodup_singleton c, ?_⟩
      rw [hsame.used]
      simpa using h1

/-- **The path of the call was to be split**, below a level with room. -/
theorem losesNothing_unfinished (hr : Ready env s hdr pos b newext)
    (h0 : (leafNode s hdr).entriesCount ≠ 0) (hok : ∀ x ∈ treeExts s, ExtOk x)
    (hsorted : Sorted (treeExts s)) {e : Errno} (he : e ≠ .fault)
    (hle : fullLevels s (extDepth s) ≤ extDepth s) (hun : Unfinished env s t hdr pos newext) :
    LosesNothing s t e ↔ ¬ PathLost env s ∧ ¬ Stranded env newext s := by
  obtain ⟨h1, ⟨F, h2, h3, h4⟩, -, h5⟩ := unfinished_spec hr h0 hok hsorted hun
  have hlevels : extDepth s + 1 - splitFrom s = fullLevels s (extDepth s) := by
    rw [splitFrom, if_neg (by omega)]
    omega
  rw [hlevels] at h5
  have hno : ∀ c, ¬ GrowsBy env s c := fun c hc => absurd hc.full (by omega)
  have hstr : Stranded env newext s ↔
      CutShort env newext s (fullLevels s (extDepth s)) s.calls s.used := by
    constructor
    · rintro (⟨-, hc⟩ | ⟨c, hgrows, -⟩)
      · exact hc
      · exact absurd hgrows (hno c)
    · exact fun hc => Or.inl ⟨hle, hc⟩
  rw [hstr]
  refine ⟨fun hl => ⟨fun ⟨c, hgrows, _⟩ => hno c hgrows, h5.mp hl.map⟩, fun hc =>
    ⟨he, h5.mpr hc.2, fun c hc => by rwa [h1], fun c hc => Or.inl (by rwa [← h1]), F, h2, h3,
      fun c hc => ⟨h4 c hc, ?_⟩⟩⟩
  rw [h1]
  exact h4 c hc

/-- **The path in the grown tree was to be split.** -/
theorem losesNothing_regrown {hdr' : ℕ → Hdr} {pos' : ℕ → ℕ}
    (hr : Ready env s hdr pos b newext) (hsize : SizeOk env) (hal : AllocOk env)
    (hdeep : extDepth s + 1 < 2 ^ 16) (hok : ∀ x ∈ treeExts s, ExtOk x)
    (hsorted : Sorted (treeExts s)) {e : Errno} (he : e ≠ .fault)
    (hfull : (leafNode s hdr).entriesCount = (leafNode s hdr).maxEntriesCount)
    (hlt : extDepth s < fullLevels s (extDepth s))
    (hgrow : (do ext4ExtGrowIndepth env; relookup env newext : Ext Unit) s = (.ok (), v))
    (hv : Regrown env s v hdr' pos' g newext) (hd : Deeper s v hdr hdr' pos pos' g)
    (hun : Unfinished env v t hdr' pos' newext) :
    LosesNothing s t e ↔ ¬ PathLost env s ∧ ¬ Stranded env newext s := by
  have hf := hr.focused
  have h0 := hr.nonempty hfull
  have hfresh : ∀ x ∈ treeExts v, x.firstBlock ≠ newext.firstBlock := by
    rw [hv.exts]
    exact hr.fresh
  have hr' := ready_of_reached hv.reached hv.shaped hfresh
  have hleaf := (hd.leaf hv.depth hf.path.root).1
  obtain ⟨h1, ⟨F, h2, h3, h4⟩, h5, h6⟩ := unfinished_spec hr' (by rwa [hleaf])
    (by rwa [hv.exts]) (by rwa [hv.exts]) hun
  obtain ⟨hrefound, hcalls, hused⟩ := regrown_granted hr hsize hal hfull hdeep hgrow hv
  obtain ⟨u, hg, -⟩ := hv.grown
  have hgrows := growsBy_of_grown hlt hg
  rw [hv.exts, cutShort_deeper hd hv.depth hf hv.reached.path (allFull hf hlt) h0, hcalls,
    hused] at h6
  have hgained := hv.gained
  have hkept : ∀ c, s.used c = true → v.used c = true := fun c hc =>
    (hgained.used c).mpr (Or.inl hc)
  have hlost : ¬ PathLost env s := by
    rintro ⟨c, hgrows', hlost⟩
    rw [hgrows'.unique hgrows] at hlost
    exact hlost hrefound
  have hstr : Stranded env newext s ↔ CutShort env newext s (extDepth s)
      (regetFrom s + extDepth s + 1) (Function.update s.used g true) := by
    constructor
    · rintro (⟨hle, -⟩ | ⟨c, hgrows', -, hc⟩)
      · omega
      · rwa [hgrows'.unique hgrows] at hc
    · exact fun hc => Or.inr ⟨g, hgrows, hrefound, hc⟩
  rw [hstr]
  refine ⟨fun hl => ⟨hlost, h6.mp hl.map⟩, fun hc => ⟨he, h6.mpr hc.2, fun c hc => ?_,
    fun c hc => ?_, F, ?_, h3, fun c hc => ⟨?_, ?_⟩⟩⟩
  · rw [h1]
    exact hkept c hc
  · rw [h1] at hc
    rcases (hgained.used c).mp hc with hc | hc
    · exact Or.inl hc
    · rw [List.mem_singleton] at hc
      right
      rw [hc, ← hd.moved]
      exact h5 1 (by rw [hv.depth]; omega)
  · rw [h2, hgained.freed]
  · by_contra hcs
    have := h4 c hc
    rw [hkept c (by simpa using hcs)] at this
    simp at this
  · rw [h1]
    exact h4 c hc

/-- **When failed rounds of an insertion have lost nothing.** -/
theorem insertRounds_failed (hr : Ready env s hdr pos b newext) (hs : Sought s hdr pos newext)
    (hsize : SizeOk env) (hal : AllocOk env) (hown : OwnErrors env) (hfits : Fits newext)
    (hdeep : DepthFits s) (hok : ∀ x ∈ treeExts s, ExtOk x) (hsorted : Sorted (treeExts s))
    {e : Errno} (h : insertRounds env newext noCombine (n + 2) s = (.error e, t)) :
    LosesNothing s t e ↔ ¬ PathLost env s ∧ ¬ Stranded env newext s := by
  have hf := hr.focused
  have hne : (leafNode s hdr).entriesCount ≠ 0 →
      (pathExtent s hdr pos).firstBlock ≠ newext.firstBlock := fun h0 =>
    hr.fresh _ (hf.slot_mem (hf.pos_lt h0))
  have hno : NoMerge (leafNode s hdr) (pos (extDepth s)) newext noCombine := by
    by_contra hm
    rw [insertRounds_merge hf hne hm] at h
    simp at h
  have hfull : (leafNode s hdr).entriesCount = (leafNode s hdr).maxEntriesCount := by
    by_contra hlt
    obtain ⟨w, hw, -⟩ :=
      @settled_leaf env s hdr pos b (n + 1) newext noCombine hsize hfits hf hr.head
      (lt_of_le_of_ne hf.leaf.entries_le hlt) hne hno
    rw [hw] at h
    simp at h
  rcases insertRounds_spec hr hs hsize hal hfits hdeep hno h with ⟨h, -⟩ | ⟨x, h, hnoroom⟩
  · simp at h
  obtain rfl := Except.error.inj h
  rcases hnoroom with ⟨he, hle, hun⟩ | ⟨he, hlt, hgrow, hsame, hfreed⟩ |
    ⟨hlt, hgrow, hfind, hg, -⟩ | ⟨he, hlt, hgrow, hv, hd, hun⟩
  · exact losesNothing_unfinished hr (hr.nonempty hfull) hok hsorted (hown _ he) hle hun
  · -- the tree did not grow
    have hno : ∀ c, ¬ GrowsBy env s c := fun c hc => by
      obtain ⟨w, hw⟩ := grow_granted hc.granted hc.gotten
      rw [hgrow] at hw
      simp at hw
    refine iff_of_true (losesNothing_of_same (hown _ he) hsame hfreed)
      ⟨fun ⟨c, hgrows, _⟩ => hno c hgrows, ?_⟩
    rintro (⟨hle, -⟩ | ⟨c, hgrows, -⟩)
    · omega
    · exact hno c hgrows
  · -- the lookup in the grown tree has failed
    refine iff_of_false (fun hl => hl.returned rfl) fun hc => hc.1 ⟨_, growsBy_of_grown hlt hg, ?_⟩
    rw [← (find_grown hr hsize hfull (hdeep hlt) hg hfind).1]
    simp
  · exact losesNothing_regrown hr hsize hal (hdeep hlt) hok hsorted (hown _ he) hfull hlt hgrow hv
      hd hun

/-- **When a failed insertion loses nothing.** -/
theorem failedInsert_iff (ht : TreeOk env s₀) (hheld : HeldWithin s₀) (hsize : SizeOk env)
    (hal : AllocOk env) (hown : OwnErrors env) (hnew : ExtOk newext)
    (hapart : ∀ x ∈ treeExts s₀, Apart x newext)
    (hfind : ext4FindExtent env newext.firstBlock s₀ = (.ok (), s)) (hdeep : DepthFits s)
    {e : Errno} (hrun : ext4ExtInsertExtent env newext noCombine (turns + 2) s = (.error e, t)) :
    LosesNothing s t e ↔ ¬ PathLost env s ∧ ¬ Stranded env newext s := by
  obtain ⟨hcore, hloc⟩ := find_ok ht hheld hfind
  have hn : s.nodes = s₀.nodes := congrArg Prod.fst hcore
  have he : treeExts s = treeExts s₀ := by unfold treeExts extDepth; rw [hn]
  rw [← hn] at hloc
  rw [← he] at hapart
  have hfresh : ∀ x ∈ treeExts s, x.firstBlock ≠ newext.firstBlock := fun x hx =>
    apart_first (hloc.tree.extOk x hx) hnew (hapart x hx)
  have hr := ready_of_reached hloc.toReached hloc.tree.shaped hfresh
  have hs := sought_of_reached hloc.toReached hloc.tree.shaped hfresh
  obtain ⟨w, hrounds, hcw⟩ := insertExtent_error hrun
  rw [losesNothing_of_core hcw]
  exact insertRounds_failed hr hs hsize hal hown hnew.fits hdeep hloc.tree.extOk hloc.tree.sorted
    hrounds

end

/-! ### A disk with one free block -/

/-- Block 500 is the only free one. -/
def lastBlock : Env :=
  { roomyDisk with alloc := fun _ used _ => if used 500 then .error .enospc else .ok 500 }

theorem allocOk_lastBlock : AllocOk lastBlock := by
  intro n used goal b hb
  unfold lastBlock at hb
  dsimp only at hb
  split_ifs at hb with h
  obtain rfl := Except.ok.inj hb
  exact ⟨by omega, by omega, by simpa using h⟩

theorem ownErrors_lastBlock : OwnErrors lastBlock := by
  rintro e (rfl | ⟨n, used, goal, h⟩ | ⟨n, b, h⟩)
  · simp
  · unfold lastBlock at h
    dsimp only at h
    split_ifs at h
    obtain rfl := Except.error.inj h
    simp
  · simp [lastBlock, roomyDisk] at h

/-- A full index node with two full leaves, and room in the root. -/
def fullLeaves (taken : Bool) : St :=
  stateOf (fun h => match h with
    | .inode => nodeOf 2 4 [⟨10, 700, 0, 0⟩]
    | .block 700 => nodeOf 1 2 [⟨10, 701, 0, 0⟩, ⟨20, 702, 0, 0⟩]
    | .block 701 => nodeOf 0 2 [⟨10, 1, 0, 1000⟩, ⟨12, 1, 0, 1002⟩]
    | .block _ => nodeOf 0 2 [⟨20, 1, 0, 2000⟩, ⟨22, 1, 0, 2002⟩]) fun b =>
    b = 700 ∨ b = 701 ∨ b = 702 ∨ (b = 500 ∧ taken = true)

def fullLeavesAt11 (taken : Bool) : St := (ext4FindExtent lastBlock 11 (fullLeaves taken)).2

theorem find_fullLeaves :
    ext4FindExtent lastBlock 11 (fullLeaves false) = (.ok (), fullLeavesAt11 false) :=
  eq_ok_of_fst (by decide +kernel)

theorem find_fullLeaves_taken :
    ext4FindExtent lastBlock 11 (fullLeaves true) = (.ok (), fullLeavesAt11 true) :=
  eq_ok_of_fst (by decide +kernel)

/-- Block 11 as it is to be inserted. -/
def block11 : Slot := ⟨11, 1, 0, 3000⟩

/-- Block 12 is lost when the second block for the split is not to be had. -/
theorem fullLeaves_lost : ¬ ∀ (env : Env) (s₀ s t : St) (newext : Slot) (noCombine : Bool)
    (turns : ℕ)
    (e : Errno), TreeOk env s₀ → HeldWithin s₀ → SizeOk env → AllocOk env → OwnErrors env →
      ExtOk newext → (∀ x ∈ treeExts s₀, Apart x newext) →
      ext4FindExtent env newext.firstBlock s₀ = (.ok (), s) → DepthFits s →
      ext4ExtInsertExtent env newext noCombine (turns + 2) s = (.error e, t) →
      LosesNothing s t e := by
  intro hall
  have hlose := hall lastBlock (fullLeaves false) (fullLeavesAt11 false)
    (ext4ExtInsertExtent lastBlock block11 true 2 (fullLeavesAt11 false)).2 block11 true 0 .enospc
    (by decide +kernel) (heldWithin_stateOf _ _) ⟨by decide, by decide⟩ allocOk_lastBlock
    ownErrors_lastBlock (by decide +kernel) (by decide +kernel) find_fullLeaves
    (by unfold DepthFits; decide +kernel) (Prod.ext (by decide +kernel) rfl)
  have hmap := hlose.map 12
  revert hmap
  decide +kernel

/-- Nothing is lost when the first one is not to be had. -/
theorem failedInsert_fullLeaves : LosesNothing (fullLeavesAt11 true)
    (ext4ExtInsertExtent lastBlock block11 true 2 (fullLeavesAt11 true)).2 .enospc := by
  have hiff := @failedInsert_iff lastBlock (fullLeaves true) (fullLeavesAt11 true)
    (ext4ExtInsertExtent lastBlock block11 true 2 (fullLeavesAt11 true)).2 block11 true 0
    (by decide +kernel) (heldWithin_stateOf _ _) ⟨by decide, by decide⟩ allocOk_lastBlock
    ownErrors_lastBlock (by decide +kernel) (by decide +kernel) find_fullLeaves_taken
    (by unfold DepthFits; decide +kernel) .enospc (Prod.ext (by decide +kernel) rfl)
  have hroom : ¬ extDepth (fullLeavesAt11 true) <
      fullLevels (fullLeavesAt11 true) (extDepth (fullLeavesAt11 true)) := by decide +kernel
  have hnone : blocksForSplit lastBlock block11 (fullLeavesAt11 true)
      (fullLevels (fullLeavesAt11 true) (extDepth (fullLeavesAt11 true)))
      (fullLeavesAt11 true).calls (fullLeavesAt11 true).used = 0 := by decide +kernel
  refine hiff.mpr ⟨fun ⟨c, hc, _⟩ => hroom hc.full, ?_⟩
  rintro (⟨-, hc⟩ | ⟨c, hc, -⟩)
  · obtain ⟨l, h1, h2, -⟩ := hc.behind
    omega
  · exact hroom hc.full

end Ext4Fsd.Extent.FailedInsert
