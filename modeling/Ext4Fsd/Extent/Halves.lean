import Ext4Fsd.Extent.Split

/-! # The two halves of a split

Below the levels that were split lie two sound ways: the old one, which now ends at its current
entries, and the one along the new nodes, which takes first entries throughout. Between them they
hold what the old subtree held. -/

namespace Ext4Fsd.Extent.Halves

open Ext4Fsd.Lib.Fallible Ext4Fsd.Lib.Intervals Ext4Fsd.Extent.Layout Ext4Fsd.Extent.Store
open Ext4Fsd.Extent.Search Ext4Fsd.Extent.Insert Ext4Fsd.Extent.Tree Ext4Fsd.Extent.Way
open Ext4Fsd.Extent.Found Ext4Fsd.Extent.Lookup Ext4Fsd.Extent.Keys Ext4Fsd.Extent.Focus
open Ext4Fsd.Extent.Split

/-- The way along the new nodes. -/
def newHdr (new : ℕ → ℕ) (l : ℕ) : Hdr := .block (new l)

def first (_ : ℕ) : ℕ := 0

/-- **What the levels from `j` on hold after the split.** -/
structure SplitWays (env : Env) (nodes nodes' : Nodes) (hdr : ℕ → Hdr) (pos : ℕ → ℕ) (new : ℕ → ℕ)
    (key n j : ℕ) : Prop where
  left : Spine env nodes' hdr pos 0 n j
  leftLefts : lefts nodes' hdr pos 0 n j = lefts nodes hdr pos 0 n j
  leftRights : rights nodes' hdr pos 0 n j = []
  leftKeysLeft : KeysLeft nodes hdr pos 0 n j → KeysLeft nodes' hdr pos 0 n j
  leftKeysFocus : ∀ b, KeysFocus nodes hdr pos 0 b n j → KeysFocus nodes' hdr pos 0 b n j
  right : Spine env nodes' (newHdr new) first 0 n j
  rightLefts : lefts nodes' (newHdr new) first 0 n j = []
  rightRights : rights nodes' (newHdr new) first 0 n j = rights nodes hdr pos 0 n j
  rightKeysLeft : KeysLeft nodes' (newHdr new) first 0 n j
  rightKeysFocus : KeysFocus nodes' (newHdr new) first 0 key n j
  refs : (sibRefs nodes hdr pos 0 n j).Perm
    (sibRefs nodes' hdr pos 0 n j ++ sibRefs nodes' (newHdr new) first 0 n j)

/-- The nodes after a split of the levels from `lo` to `D`: the old ones cut, and the new ones. -/
structure Cuts (env : Env) (nodes nodes' : Nodes) (hdr : ℕ → Hdr) (pos : ℕ → ℕ) (D key lo : ℕ)
    (new : ℕ → ℕ) : Prop where
  cut : ∀ l, lo ≤ l → l ≤ D → CutAfter (nodes (hdr l)) (nodes' (hdr l)) (pos l)
  right : ∀ l, lo ≤ l → l ≤ D → HeaderOk env nodes' (D - l) (.block (new l))
  leafEntries : (nodes' (.block (new D))).entries = (nodes (hdr D)).entries.drop (pos D + 1)
  indexEntries : ∀ l, lo ≤ l → l < D → ∃ ix, ix.firstBlock = key ∧
    child ix = .block (new (l + 1)) ∧ (nodes' (.block (new l))).entries =
      ix :: (nodes (hdr l)).entries.drop (pos l + 1)

section
variable {env : Env} {s t : St} {hdr : ℕ → Hdr} {pos : ℕ → ℕ} {D key lo n j k : ℕ} {new : ℕ → ℕ}
  {nodes nodes' nodes'' : Nodes} {h : Hdr} {p : ℕ}

theorem cuts_of_done (hd : SplitDone env s t hdr pos D key lo lo D new) (hlo : lo ≤ D) :
    Cuts env s.nodes t.nodes hdr pos D key lo new :=
  ⟨hd.cut, hd.right, hd.leafEntries hlo le_rfl, fun l h1 h2 => hd.indexEntries l h1 (by omega) h2⟩

/-- Nodes other than the split ones do not matter. -/
theorem Cuts.congr (hc : Cuts env nodes nodes' hdr pos D key lo new) (hlo : lo ≤ D)
    (hold : ∀ l, lo ≤ l → l ≤ D → nodes'' (hdr l) = nodes' (hdr l))
    (hnew : ∀ l, lo ≤ l → l ≤ D → nodes'' (.block (new l)) = nodes' (.block (new l))) :
    Cuts env nodes nodes'' hdr pos D key lo new := by
  refine ⟨fun l h1 h2 => ?_, fun l h1 h2 => ?_, ?_, fun l h1 h2 => ?_⟩
  · rw [hold l h1 h2]
    exact hc.cut l h1 h2
  · exact headerOk_congr (hnew l h1 h2) (hc.right l h1 h2)
  · rw [hnew D hlo le_rfl]
    exact hc.leafEntries
  · rw [hnew l h1 (by omega)]
    exact hc.indexEntries l h1 h2

theorem cut_headerOk (hc : CutAfter (nodes h) (nodes' h) p) (hlt : p < (nodes h).entriesCount)
    (hh : HeaderOk env nodes k h) : HeaderOk env nodes' k h := by
  obtain ⟨h1, h2, h3, h4, h5⟩ := hh
  constructor
  · rw [hc.magic, h1]
  · rw [hc.depth, h2]
  · rwa [hc.max]
  · rwa [hc.max]
  · rw [hc.max, hc.count]
    omega

theorem halves (hd : Cuts env nodes nodes' hdr pos D key lo new)
    (hs : Spine env nodes hdr pos 0 n j) (hj : lo ≤ j) (hn : j + n = D)
    (hsib : ∀ r ∈ sibRefs nodes hdr pos 0 n j, nodes' r = nodes r) :
    SplitWays env nodes nodes' hdr pos new key n j := by
  induction n generalizing j with
  | zero =>
    exact ⟨trivial, rfl, rfl, id, fun _ => id, trivial, rfl, rfl, trivial,
      trivial, by simp [sibRefs]⟩
  | succ n ih =>
    obtain ⟨hh, hlt, hc, hbefore, hafter, hrest⟩ := hs
    rw [sibRefs_succ] at hsib
    have hB : ∀ r ∈ refsOf nodes (0 + n) (before nodes hdr pos j), nodes' r = nodes r :=
      fun r hr => hsib r (List.mem_append_left _ (List.mem_append_left _ hr))
    have hA : ∀ r ∈ refsOf nodes (0 + n) (after nodes hdr pos j), nodes' r = nodes r :=
      fun r hr => hsib r (List.mem_append_left _ (List.mem_append_right _ hr))
    have hbelow := ih hrest (by omega) (by omega) fun r hr =>
      hsib r (List.mem_append_right _ hr)
    have hcut := hd.cut j hj (by omega)
    have heL : before nodes' hdr pos j = before nodes hdr pos j := by
      rw [before, hcut.entries hlt, List.take_take, Nat.min_eq_left (by omega)]
    have haL : after nodes' hdr pos j = [] := by
      rw [after, hcut.entries hlt]
      simp
    have hcur : cur nodes' hdr pos j = cur nodes hdr pos j := by
      unfold cur
      rw [hcut.slots]
    obtain ⟨ix, hkey, hchild, hnew⟩ := hd.indexEntries j hj (by omega)
    have hpos : 0 < (nodes' (newHdr new j)).entriesCount := by
      rw [← length_entries, newHdr, hnew]
      simp
    have hcurR : cur nodes' (newHdr new) first j = ix := by
      have h0 := head_entries hpos
      rw [newHdr, hnew, List.head?_cons, Option.some.injEq] at h0
      exact h0.symm
    have haR : after nodes' (newHdr new) first j = after nodes hdr pos j := by
      rw [after, newHdr, hnew]
      rfl
    have hheadR := hd.right j hj (by omega)
    rw [show D - j = 0 + n + 1 by omega] at hheadR
    constructor
    · refine ⟨cut_headerOk hcut hlt hh, by rw [hcut.count]; omega, by rw [hcur]; exact hc, ?_, ?_,
        hbelow.left⟩
      · rw [heL]
        exact forest_congr hB hbefore
      · rw [haL]
        exact Forest.nil
    · rw [lefts_succ, lefts_succ, heL, extsOf_congr hB, hbelow.leftLefts]
    · rw [rights_succ, haL, hbelow.leftRights]
      rfl
    · rintro ⟨h1, h2⟩
      refine ⟨?_, hbelow.leftKeysLeft h2⟩
      rw [hbelow.leftLefts, hcur]
      exact h1
    · rintro b ⟨h1, h2⟩
      refine ⟨?_, hbelow.leftKeysFocus b h2⟩
      rw [hbelow.leftLefts, hcur]
      exact h1
    · refine ⟨hheadR, hpos, by rw [hcurR, hchild]; rfl, Forest.nil, ?_, hbelow.right⟩
      rw [haR]
      exact forest_congr hA hafter
    · rw [lefts_succ, hbelow.rightLefts]
      rfl
    · rw [rights_succ, rights_succ, haR, extsOf_congr hA, hbelow.rightRights]
    · refine ⟨?_, hbelow.rightKeysLeft⟩
      rw [hbelow.rightLefts]
      simp
    · refine ⟨fun _ => ?_, hbelow.rightKeysFocus⟩
      rw [hcurR, hkey]
    · rw [sibRefs_succ, sibRefs_succ, sibRefs_succ, heL, haL, haR, refsOf_congr hB, refsOf_congr hA]
      have hperm := Multiset.coe_eq_coe.mpr hbelow.refs
      generalize refsOf nodes (0 + n) (before nodes hdr pos j) = B
      generalize refsOf nodes (0 + n) (after nodes hdr pos j) = A
      rw [← Multiset.coe_eq_coe]
      simp only [← Multiset.coe_add, zero_add] at hperm ⊢
      rw [hperm]
      abel

end

end Ext4Fsd.Extent.Halves
