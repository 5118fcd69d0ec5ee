import Ext4Fsd.Extent.Rejoin

/-! # The tree after a split

The level above the split ones gets an entry for the new nodes. The way then goes on in the half the
new extent belongs to: the old one (`split_left`), or the new one (`split_right`), whose leaf is
empty. The other half is a well-formed subtree beside it. -/

namespace Ext4Fsd.Extent.SplitTree

open Ext4Fsd.Lib.Intervals Ext4Fsd.Extent.Layout Ext4Fsd.Extent.Store Ext4Fsd.Extent.Tree
open Ext4Fsd.Extent.Way Ext4Fsd.Extent.Found Ext4Fsd.Extent.Keys Ext4Fsd.Extent.Split
open Ext4Fsd.Extent.Halves Ext4Fsd.Extent.Rejoin

/-- The nodes of a tree read along a way of `D` levels. -/
def nodesRefs (nodes : Nodes) (hdr : ℕ → Hdr) (pos : ℕ → ℕ) (D : ℕ) : List Hdr :=
  hdrs hdr D 0 ++ sibRefs nodes hdr pos 0 D 0 ++ [hdr D]

/-- The way that leaves the old one at level `m` and follows the new nodes. -/
def newWay (hdr : ℕ → Hdr) (new : ℕ → ℕ) (m i : ℕ) : Hdr :=
  if i ≤ m then hdr i else newHdr new i

def newPos (pos : ℕ → ℕ) (m x i : ℕ) : ℕ :=
  if i < m then pos i else if i = m then x else 0

/-- **The levels below `m` were split and the new nodes entered at position `x` of level `m`.** -/
structure SplitInto (env : Env) (nodes nodes' : Nodes) (hdr : ℕ → Hdr) (pos : ℕ → ℕ) (key m n : ℕ)
    (new : ℕ → ℕ) (x : ℕ) (ix : Slot) : Prop where
  spine : Spine env nodes hdr pos 0 (m + (n + 1)) 0
  keys : KeysHead nodes hdr pos 0 (m + (n + 1)) 0 (nodes (hdr (m + (n + 1)))).entries
  leaf : HeaderOk env nodes 0 (hdr (m + (n + 1)))
  pos_lt : pos (m + (n + 1)) < (nodes (hdr (m + (n + 1)))).entriesCount
  cuts : Cuts env nodes nodes' hdr pos (m + (n + 1)) key (m + 1) new
  above : ∀ i, i < m → nodes' (hdr i) = nodes (hdr i)
  sib : ∀ r ∈ sibRefs nodes hdr pos 0 (m + (n + 1)) 0, nodes' r = nodes r
  head : HeaderOk env nodes' (0 + n + 1) (hdr m)
  entries : (nodes' (hdr m)).entries =
    (nodes (hdr m)).entries.take x ++ ix :: (nodes (hdr m)).entries.drop x
  ixKey : ix.firstBlock = key
  ixChild : child ix = .block (new (m + 1))

/-- **A tree read along a way whose leaf holds `l`.** -/
structure HalfTree (env : Env) (nodes' : Nodes) (hdr' : ℕ → Hdr) (pos' : ℕ → ℕ) (D : ℕ)
    (L l R : List Slot) (refs : List Hdr) : Prop where
  spine : Spine env nodes' hdr' pos' 0 D 0
  keys : KeysHead nodes' hdr' pos' 0 D 0 l
  lefts : lefts nodes' hdr' pos' 0 D 0 = L
  rights : rights nodes' hdr' pos' 0 D 0 = R
  leaf : HeaderOk env nodes' 0 (hdr' D)
  entries : (nodes' (hdr' D)).entries = l
  refs : (nodesRefs nodes' hdr' pos' D).Perm refs

section
variable {env : Env} {nodes nodes' : Nodes} {hdr : ℕ → Hdr} {pos : ℕ → ℕ} {key m n x : ℕ}
  {new : ℕ → ℕ} {ix : Slot}

/-! ### A way above a level, at it and below it -/

theorem lefts_level : lefts nodes hdr pos 0 (m + (n + 1)) 0 =
    lefts nodes hdr pos (0 + (n + 1)) m 0 ++ lefts nodes hdr pos 0 (n + 1) m := by
  rw [lefts_split, Nat.zero_add m]

theorem rights_level : rights nodes hdr pos 0 (m + (n + 1)) 0 =
    rights nodes hdr pos 0 n (m + 1) ++ extsOf nodes (0 + n) (after nodes hdr pos m) ++
      rights nodes hdr pos (0 + (n + 1)) m 0 := by
  rw [rights_split, Nat.zero_add m, rights_succ]

theorem sibRefs_level : sibRefs nodes hdr pos 0 (m + (n + 1)) 0 =
    sibRefs nodes hdr pos (0 + (n + 1)) m 0 ++
      (refsOf nodes (0 + n) (before nodes hdr pos m) ++
        refsOf nodes (0 + n) (after nodes hdr pos m) ++ sibRefs nodes hdr pos 0 n (m + 1)) := by
  rw [sibRefs_split, Nat.zero_add m, sibRefs_succ]

theorem hdrs_level : hdrs hdr (m + (n + 1)) 0 = hdrs hdr m 0 ++ hdr m :: hdrs hdr n (m + 1) := by
  rw [hdrs_split, Nat.zero_add m, hdrs_succ]

theorem hdrs_last (j : ℕ) : hdrs hdr (n + 1) j = hdrs hdr n j ++ [hdr (j + n)] := hdrs_split

/-! ### The two halves -/

/-- The levels below `m`, and the two halves they were split into. -/
theorem SplitInto.ways (h : SplitInto env nodes nodes' hdr pos key m n new x ix) :
    Spine env nodes hdr pos (0 + (n + 1)) m 0 ∧ Spine env nodes hdr pos 0 (n + 1) m ∧
      SplitWays env nodes nodes' hdr pos new key n (m + 1) := by
  obtain ⟨h1, h2⟩ := spine_split.mp h.spine
  rw [Nat.zero_add m] at h2
  refine ⟨h1, h2, halves h.cuts h2.2.2.2.2.2 le_rfl (by omega) fun r hr => h.sib r ?_⟩
  rw [sibRefs_level]
  exact List.mem_append_right _ (List.mem_append_right _ hr)

/-- The nodes beside the way, level by level. -/
theorem SplitInto.sibs (h : SplitInto env nodes nodes' hdr pos key m n new x ix) :
    (∀ r ∈ sibRefs nodes hdr pos (0 + (n + 1)) m 0, nodes' r = nodes r) ∧
      (∀ r ∈ refsOf nodes (0 + n) (before nodes hdr pos m), nodes' r = nodes r) ∧
      ∀ r ∈ refsOf nodes (0 + n) (after nodes hdr pos m), nodes' r = nodes r := by
  refine ⟨fun r hr => h.sib r ?_, fun r hr => h.sib r ?_, fun r hr => h.sib r ?_⟩ <;>
    rw [sibRefs_level]
  · exact List.mem_append_left _ hr
  · exact List.mem_append_right _ (List.mem_append_left _ (List.mem_append_left _ hr))
  · exact List.mem_append_right _ (List.mem_append_left _ (List.mem_append_right _ hr))

/-- The keys down to the old half, whose leaf was cut. -/
theorem SplitInto.oldKeys (h : SplitInto env nodes nodes' hdr pos key m n new x ix) :
    (∀ e ∈ (lefts nodes hdr pos 0 n (m + 1) ++
        (nodes (hdr (m + (n + 1)))).entries.take (pos (m + (n + 1)) + 1)).head?,
      e.firstBlock = (cur nodes hdr pos m).firstBlock) ∧
    KeysHead nodes' hdr pos 0 n (m + 1)
      ((nodes (hdr (m + (n + 1)))).entries.take (pos (m + (n + 1)) + 1)) := by
  obtain ⟨-, -, hw⟩ := h.ways
  have hlow := keysHead_lower h.keys
  rw [Nat.zero_add m, keysHead_succ] at hlow
  obtain ⟨hm, hbelow⟩ := hlow
  obtain ⟨h1, h2⟩ := keysHead_iff.mp hbelow
  refine ⟨fun e he => hm e (head_of_front (List.take_prefix _ _) he),
    keysHead_iff.mpr ⟨hw.leftKeysLeft h1, fun e he => hw.leftKeysFocus _ (h2 e ?_)⟩⟩
  exact head_of_front (P := []) (List.take_prefix _ _) he

/-- The half with the old nodes, as a subtree of its own. -/
theorem SplitInto.old (h : SplitInto env nodes nodes' hdr pos key m n new x ix) :
    Sub env nodes' (0 + n) (hdr (m + 1)) ∧ KeyOk nodes' (0 + n) (cur nodes hdr pos m) ∧
      exts nodes' (0 + n) (hdr (m + 1)) = lefts nodes hdr pos 0 n (m + 1) ++
        (nodes (hdr (m + (n + 1)))).entries.take (pos (m + (n + 1)) + 1) := by
  obtain ⟨-, hs, hw⟩ := h.ways
  obtain ⟨hm, hkeys⟩ := h.oldKeys
  have hcut := h.cuts.cut (m + (n + 1)) (by omega) le_rfl
  have hent := hcut.entries h.pos_lt
  have hleaf := cut_headerOk hcut h.pos_lt h.leaf
  rcases he : (nodes (hdr (m + (n + 1)))).entries.take (pos (m + (n + 1)) + 1) with _ | ⟨e, es⟩
  · have hlt := h.pos_lt
    rw [List.take_eq_nil_iff, entries_eq_nil] at he
    omega
  · rw [he] at hm hkeys hent
    rw [show m + (n + 1) = m + 1 + n by omega] at hent hleaf
    obtain ⟨h1, h2⟩ := half_sub hw.left hkeys hleaf hent
    rw [hw.leftLefts, hw.leftRights, List.append_nil] at h2
    refine ⟨h1, ?_, h2⟩
    unfold KeyOk
    rw [← hs.2.2.1, h2]
    rcases hh : (lefts nodes hdr pos 0 n (m + 1) ++ e :: es).head? with _ | y
    · rw [List.head?_eq_none_iff] at hh
      simp at hh
    · rw [hh] at hm
      rw [Option.map_some, hm y rfl]

/-- The half with the new nodes, as a subtree of its own when its leaf is not empty. -/
theorem SplitInto.newSub (h : SplitInto env nodes nodes' hdr pos key m n new x ix) {e : Slot}
    {es : List Slot}
    (he : (nodes (hdr (m + (n + 1)))).entries.drop (pos (m + (n + 1)) + 1) = e :: es)
    (hkey : key = e.firstBlock) :
    Sub env nodes' (0 + n) (child ix) ∧ KeyOk nodes' (0 + n) ix ∧
      exts nodes' (0 + n) (child ix) = e :: es ++ rights nodes hdr pos 0 n (m + 1) := by
  obtain ⟨-, -, hw⟩ := h.ways
  have hleaf := h.cuts.right (m + (n + 1)) (by omega) le_rfl
  have hent := h.cuts.leafEntries
  rw [Nat.sub_self] at hleaf
  rw [he] at hent
  rw [show m + (n + 1) = m + 1 + n by omega] at hleaf hent
  have hk : KeysHead nodes' (newHdr new) first 0 n (m + 1) (e :: es) :=
    keysHead_iff.mpr ⟨hw.rightKeysLeft, fun e' he' => by
      obtain rfl : e = e' := by simpa using he'
      exact hkey ▸ hw.rightKeysFocus⟩
  obtain ⟨h1, h2⟩ := half_sub hw.right hk hleaf hent
  rw [hw.rightLefts, hw.rightRights, List.nil_append] at h2
  rw [h.ixChild]
  refine ⟨h1, ?_, h2⟩
  unfold KeyOk
  rw [h.ixChild, show Hdr.block (new (m + 1)) = newHdr new (m + 1) from rfl, h2, h.ixKey, hkey]
  rfl

/-- The nodes of the new half. -/
theorem SplitInto.newRefs (h : SplitInto env nodes nodes' hdr pos key m n new x ix) :
    (refs nodes' (0 + n) (child ix)).Perm (hdrs (newHdr new) (n + 1) (m + 1) ++
      sibRefs nodes' (newHdr new) first 0 n (m + 1)) := by
  obtain ⟨-, -, hw⟩ := h.ways
  have hperm := Multiset.coe_eq_coe.mpr (refs_spine (g := 0) hw.right.onPath)
  rw [hdrs_split, h.ixChild, ← Multiset.coe_eq_coe]
  simp only [← Multiset.coe_add] at hperm ⊢
  exact hperm.trans (add_right_comm _ _ _)

/-- The nodes of the old half. -/
theorem SplitInto.oldRefs (h : SplitInto env nodes nodes' hdr pos key m n new x ix) :
    (refs nodes' (0 + n) (hdr (m + 1))).Perm (hdrs hdr n (m + 1) ++
      sibRefs nodes' hdr pos 0 n (m + 1) ++ [hdr (m + (n + 1))]) := by
  obtain ⟨-, -, hw⟩ := h.ways
  have hperm := refs_spine (g := 0) hw.left.onPath
  rw [refs, show m + 1 + n = m + (n + 1) by omega] at hperm
  exact hperm

/-! ### The way goes on in one half -/

/-- **The old half.** -/
theorem SplitInto.split_left (h : SplitInto env nodes nodes' hdr pos key m n new (pos m + 1) ix)
    {e : Slot} {es : List Slot}
    (he : (nodes (hdr (m + (n + 1)))).entries.drop (pos (m + (n + 1)) + 1) = e :: es)
    (hkey : key = e.firstBlock) : HalfTree env nodes' hdr pos (m + (n + 1))
      (lefts nodes hdr pos 0 (m + (n + 1)) 0)
      ((nodes (hdr (m + (n + 1)))).entries.take (pos (m + (n + 1)) + 1))
      (e :: es ++ rights nodes hdr pos 0 (m + (n + 1)) 0)
      (nodesRefs nodes hdr pos (m + (n + 1)) ++ hdrs (newHdr new) (n + 1) (m + 1)) := by
  obtain ⟨hpre, hlevel, hw⟩ := h.ways
  obtain ⟨hs1, hs2, hs3⟩ := h.sibs
  obtain ⟨hsub, hkeyOk, hexts⟩ := h.newSub he hkey
  have hcutD := h.cuts.cut (m + (n + 1)) (by omega) le_rfl
  have hbefore := hlevel.2.2.2.1
  have hafter := hlevel.2.2.2.2.1
  have hent : (nodes' (hdr m)).entries = before nodes hdr pos m ++ cur nodes hdr pos m ::
      (ix :: after nodes hdr pos m) := by
    rw [h.entries, List.take_succ_eq_append_getElem (by simpa using hlevel.2.1), getElem_entries]
    simp
  have hj := spine_join hpre h.above hs1 (fun i _ => rfl) (fun i _ => rfl) h.head hent
    (by simp [hlevel.2.1.le]) (forest_congr hs2 hbefore)
    (Forest.cons.mpr ⟨⟨hsub, hkeyOk⟩, forest_congr hs3 hafter⟩) hlevel.2.2.1 hw.left
  have hleaf := hcutD.entries h.pos_lt
  refine ⟨hj.spine, ?_, ?_, ?_, cut_headerOk hcutD h.pos_lt h.leaf, hleaf, ?_⟩
  · obtain ⟨hm, hkeys⟩ := h.oldKeys
    refine hj.keysHead h.keys ?_ ?_ hkeys
    · rw [extsOf_congr hs2, hw.leftLefts, lefts_succ]
      exact List.prefix_append_right_inj _ |>.mpr (List.take_prefix _ _)
    · rw [hw.leftLefts]
      exact hm
  · rw [hj.lefts, extsOf_congr hs2, hw.leftLefts, lefts_level, lefts_succ]
  · rw [hj.rights, hw.leftRights, extsOf_cons, hexts, extsOf_congr hs3, rights_level]
    simp
  · have hnew := Multiset.coe_eq_coe.mpr h.newRefs
    have hold := Multiset.coe_eq_coe.mpr hw.refs
    unfold nodesRefs
    rw [hj.sibRefs, sibRefs_level, refsOf_congr hs2, refsOf_cons, refsOf_congr hs3,
      ← Multiset.coe_eq_coe]
    simp only [← Multiset.coe_add] at hnew hold ⊢
    rw [hnew, hold]
    abel

/-- The way along the new nodes, whose leaf is empty. -/
theorem SplitInto.right (h : SplitInto env nodes nodes' hdr pos key m n new x ix)
    (hlast : pos (m + (n + 1)) + 1 = (nodes (hdr (m + (n + 1)))).entriesCount) {A B : List Slot}
    (hent : (nodes' (hdr m)).entries = A ++ ix :: B) (hx : A.length = x)
    (hA : Forest env nodes' (0 + n) A) (hB : Forest env nodes' (0 + n) B)
    (hkeys : extsOf nodes' (0 + n) A <+: lefts nodes hdr pos 0 (n + 1) m ++
      (nodes (hdr (m + (n + 1)))).entries) :
    HalfTree env nodes' (newWay hdr new m) (newPos pos m x) (m + (n + 1))
      (lefts nodes hdr pos (0 + (n + 1)) m 0 ++ extsOf nodes' (0 + n) A) []
      (rights nodes hdr pos 0 n (m + 1) ++ extsOf nodes' (0 + n) B ++
        rights nodes hdr pos (0 + (n + 1)) m 0)
      (hdrs hdr (m + 1) 0 ++ hdrs (newHdr new) (n + 1) (m + 1) ++
        (sibRefs nodes hdr pos (0 + (n + 1)) m 0 ++ (refsOf nodes' (0 + n) A ++
          refsOf nodes' (0 + n) B ++ sibRefs nodes' (newHdr new) first 0 n (m + 1)))) := by
  obtain ⟨hpre, hlevel, hw⟩ := h.ways
  obtain ⟨hs1, -, -⟩ := h.sibs
  have hbelow : ∀ i, m + 1 ≤ i → newWay hdr new m i = newHdr new i ∧ newPos pos m x i = first i :=
    fun i hi => by
      unfold newWay newPos
      rw [if_neg (by omega), if_neg (by omega), if_neg (by omega)]
      exact ⟨rfl, rfl⟩
  have hway : ∀ i, i ≤ m → newWay hdr new m i = hdr i := fun i hi => by
    unfold newWay
    rw [if_pos hi]
  have hpos : ∀ i, i < m → newPos pos m x i = pos i := fun i hi => by
    unfold newPos
    rw [if_pos hi]
  obtain ⟨r1, r2, r3, r4⟩ := @reads_congr nodes' (newHdr new) first 0 n (m + 1) (newWay hdr new m)
    (newPos pos m x) (fun i hi _ => (hbelow i hi).1) fun i hi _ => (hbelow i hi).2
  have hspine := (@spine_congr_way env nodes' (newHdr new) first 0 n (m + 1) (newWay hdr new m)
    (newPos pos m x) (fun i hi _ => (hbelow i hi).1) fun i hi _ => (hbelow i hi).2).mpr hw.right
  have hkl := (@keys_congr nodes' (newHdr new) first 0 n (m + 1) (newWay hdr new m)
    (newPos pos m x) 0 (fun i hi _ => (hbelow i hi).1) fun i hi _ => (hbelow i hi).2).1.mpr
    hw.rightKeysLeft
  have hj := spine_join hpre h.above hs1 hway hpos h.head hent
    (by unfold newPos; rw [if_neg (by omega), if_pos rfl, hx]) hA hB
    (by rw [(hbelow _ le_rfl).1, h.ixChild]; rfl) hspine
  have hD : newWay hdr new m (m + (n + 1)) = newHdr new (m + (n + 1)) := (hbelow _ (by omega)).1
  have hdrop : (nodes (hdr (m + (n + 1)))).entries.drop (pos (m + (n + 1)) + 1) = [] := by
    rw [hlast, ← length_entries, List.drop_length]
  have hleaf := h.cuts.right (m + (n + 1)) (by omega) le_rfl
  rw [Nat.sub_self] at hleaf
  refine ⟨hj.spine, ?_, ?_, ?_, by rwa [hD], by rw [hD]; exact h.cuts.leafEntries.trans hdrop, ?_⟩
  · refine hj.keysHead h.keys ?_ ?_ (keysHead_iff.mpr ⟨hkl, by simp⟩)
    · rw [r1, hw.rightLefts, List.append_nil, List.append_nil]
      exact hkeys
    · rw [r1, hw.rightLefts]
      simp
  · rw [hj.lefts, r1, hw.rightLefts, List.append_nil]
  · rw [hj.rights, r2, hw.rightRights]
  · unfold nodesRefs
    rw [hj.sibRefs, hj.hdrs, r3, r4, hdrs_last 0, hdrs_last (m + 1), Nat.zero_add m, hD,
      show m + 1 + n = m + (n + 1) by omega, ← Multiset.coe_eq_coe]
    simp only [← Multiset.coe_add, ← Multiset.cons_coe, Multiset.coe_nil,
      ← Multiset.singleton_add, add_zero]
    abel

/-- **The new half, after the old one.** -/
theorem SplitInto.split_right (h : SplitInto env nodes nodes' hdr pos key m n new (pos m + 1) ix)
    (hlast : pos (m + (n + 1)) + 1 = (nodes (hdr (m + (n + 1)))).entriesCount) :
    HalfTree env nodes' (newWay hdr new m) (newPos pos m (pos m + 1)) (m + (n + 1))
      (lefts nodes hdr pos 0 (m + (n + 1)) 0 ++ (nodes (hdr (m + (n + 1)))).entries) []
      (rights nodes hdr pos 0 (m + (n + 1)) 0)
      (nodesRefs nodes hdr pos (m + (n + 1)) ++ hdrs (newHdr new) (n + 1) (m + 1)) := by
  obtain ⟨-, hlevel, hw⟩ := h.ways
  obtain ⟨-, hs2, hs3⟩ := h.sibs
  obtain ⟨hsub, hkeyOk, hexts⟩ := h.old
  have htake : (nodes (hdr (m + (n + 1)))).entries.take (pos (m + (n + 1)) + 1) =
      (nodes (hdr (m + (n + 1)))).entries := by
    rw [hlast, ← length_entries, List.take_length]
  rw [htake] at hexts
  have hent : (nodes' (hdr m)).entries = (before nodes hdr pos m ++ [cur nodes hdr pos m]) ++
      ix :: after nodes hdr pos m := by
    rw [h.entries, List.take_succ_eq_append_getElem (by simpa using hlevel.2.1), getElem_entries]
  have hA : extsOf nodes' (0 + n) (before nodes hdr pos m ++ [cur nodes hdr pos m]) =
      lefts nodes hdr pos 0 (n + 1) m ++ (nodes (hdr (m + (n + 1)))).entries := by
    rw [extsOf_append, extsOf_congr hs2, extsOf_cons, ← hlevel.2.2.1, hexts, lefts_succ]
    simp
  have htree := h.right hlast hent (by simp [hlevel.2.1.le])
    (Forest.append.mpr ⟨forest_congr hs2 hlevel.2.2.2.1,
      Forest.cons.mpr ⟨⟨hlevel.2.2.1 ▸ hsub, hkeyOk⟩, Forest.nil⟩⟩)
    (forest_congr hs3 hlevel.2.2.2.2.1) (by rw [hA])
  rw [hA, extsOf_congr hs3] at htree
  obtain ⟨t1, t2, t3, t4, t5, t6, t7⟩ := htree
  refine ⟨t1, t2, ?_, ?_, t5, t6, t7.trans ?_⟩
  · rw [t3, lefts_level, List.append_assoc]
  · rw [t4, rights_level]
  · have hold := Multiset.coe_eq_coe.mpr h.oldRefs
    have hboth := Multiset.coe_eq_coe.mpr hw.refs
    unfold nodesRefs
    rw [sibRefs_level, refsOf_append, refsOf_congr hs2, refsOf_cons, refsOf_nil, List.append_nil,
      ← hlevel.2.2.1, refsOf_congr hs3, hdrs_last (n := m) 0, hdrs_level, Nat.zero_add m,
      ← Multiset.coe_eq_coe]
    simp only [← Multiset.coe_add, ← Multiset.cons_coe, Multiset.coe_nil,
      ← Multiset.singleton_add, add_zero] at hold hboth ⊢
    rw [hold, hboth]
    abel

/-- **The new half, before the old one.** The new extent then lies before all others. -/
theorem SplitInto.split_before (h : SplitInto env nodes nodes' hdr pos key m n new (pos m) ix)
    (hlast : pos (m + (n + 1)) + 1 = (nodes (hdr (m + (n + 1)))).entriesCount)
    (hfirst : lefts nodes hdr pos 0 (m + (n + 1)) 0 = []) :
    HalfTree env nodes' (newWay hdr new m) (newPos pos m (pos m)) (m + (n + 1)) [] []
      (rights nodes hdr pos 0 n (m + 1) ++ (nodes (hdr (m + (n + 1)))).entries ++
        (extsOf nodes (0 + n) (after nodes hdr pos m) ++ rights nodes hdr pos (0 + (n + 1)) m 0))
      (nodesRefs nodes hdr pos (m + (n + 1)) ++ hdrs (newHdr new) (n + 1) (m + 1)) := by
  obtain ⟨-, hlevel, hw⟩ := h.ways
  obtain ⟨-, hs2, hs3⟩ := h.sibs
  obtain ⟨hsub, hkeyOk, hexts⟩ := h.old
  have htake : (nodes (hdr (m + (n + 1)))).entries.take (pos (m + (n + 1)) + 1) =
      (nodes (hdr (m + (n + 1)))).entries := by
    rw [hlast, ← length_entries, List.take_length]
  rw [lefts_level, lefts_succ, List.append_eq_nil_iff, List.append_eq_nil_iff] at hfirst
  obtain ⟨hf1, hf2, hf3⟩ := hfirst
  rw [htake, hf3, List.nil_append] at hexts
  have hent : (nodes' (hdr m)).entries = before nodes hdr pos m ++
      ix :: (cur nodes hdr pos m :: after nodes hdr pos m) := by
    rw [h.entries, List.drop_eq_getElem_cons (by simpa using hlevel.2.1), getElem_entries]
  have htree := h.right hlast hent (by simp [hlevel.2.1.le]) (forest_congr hs2 hlevel.2.2.2.1)
    (Forest.cons.mpr ⟨⟨hlevel.2.2.1 ▸ hsub, hkeyOk⟩, forest_congr hs3 hlevel.2.2.2.2.1⟩)
    (by rw [extsOf_congr hs2, hf2]; exact List.nil_prefix)
  rw [extsOf_congr hs2, hf2, extsOf_cons, ← hlevel.2.2.1, hexts, extsOf_congr hs3] at htree
  obtain ⟨t1, t2, t3, t4, t5, t6, t7⟩ := htree
  refine ⟨t1, t2, ?_, ?_, t5, t6, t7.trans ?_⟩
  · rw [t3, hf1]
    rfl
  · rw [t4]
    simp
  · have hold := Multiset.coe_eq_coe.mpr h.oldRefs
    have hboth := Multiset.coe_eq_coe.mpr hw.refs
    unfold nodesRefs
    rw [sibRefs_level, refsOf_congr hs2, refsOf_cons, ← hlevel.2.2.1, refsOf_congr hs3,
      hdrs_last (n := m) 0, hdrs_level, Nat.zero_add m, ← Multiset.coe_eq_coe]
    simp only [← Multiset.coe_add, ← Multiset.cons_coe, Multiset.coe_nil,
      ← Multiset.singleton_add, add_zero] at hold hboth ⊢
    rw [hold, hboth]
    abel

end

end Ext4Fsd.Extent.SplitTree
