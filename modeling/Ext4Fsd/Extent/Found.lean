import Ext4Fsd.Extent.Search
import Ext4Fsd.Extent.Way

/-! # What the search finds

`Closest` is what the binary searches return, on entries whose first blocks increase. A path of
closest entries leads to the place of a logical block among the extents of the tree: no extent right
of the one found starts at or before the block, and the one found does unless it is the very first
(`closest_way`). `find_ok` is the lookup itself: it changes nothing but the path, and the path it
leaves is such a path. -/

namespace Ext4Fsd.Extent.Found

open Ext4Fsd.Lib.Fallible Ext4Fsd.Lib.Intervals Ext4Fsd.Extent.Layout Ext4Fsd.Extent.Store
open Ext4Fsd.Extent.Search Ext4Fsd.Extent.Tree Ext4Fsd.Extent.Way

/-! ### The binary searches -/

/-- Position `p` holds the last entry that starts at or before `b`, or else the first entry. -/
structure Closest (eh : Node) (b p : ℕ) : Prop where
  lt : p < eh.entriesCount
  le : p = 0 ∨ (eh.slots p).firstBlock ≤ b
  after : ∀ q, p < q → q < eh.entriesCount → b < (eh.slots q).firstBlock

theorem binsearchLoop_spec {f : ℕ → ℕ} {b len : ℕ} (hmono : ∀ x y, x < y → y < len → f x < f y) :
    ∀ n l r, 1 ≤ l → l ≤ r + 1 → r + 1 - l ≤ n → r < len →
      (∀ q, 1 ≤ q → q < l → f q ≤ b) → (∀ q, r < q → q < len → b < f q) →
      1 ≤ binsearchLoop f b n l r ∧ binsearchLoop f b n l r ≤ r + 1 ∧
        (∀ q, 1 ≤ q → q < binsearchLoop f b n l r → f q ≤ b) ∧
        ∀ q, binsearchLoop f b n l r ≤ q → q < len → b < f q := by
  intro n
  induction n with
  | zero =>
    intro l r hl hlr hfuel hr hlow hhigh
    have : l = r + 1 := by omega
    exact ⟨hl, hlr, hlow, fun q hq => hhigh q (by unfold binsearchLoop at hq; omega)⟩
  | succ n ih =>
    intro l r hl hlr hfuel hr hlow hhigh
    unfold binsearchLoop
    by_cases hle : l ≤ r
    · rw [if_pos hle]
      dsimp only
      have hm1 : l ≤ l + (r - l) / 2 := by omega
      have hm2 : l + (r - l) / 2 ≤ r := by omega
      have hm3 : (r - l) / 2 ≤ r - l := by omega
      generalize l + (r - l) / 2 = m at hm1 hm2 ⊢
      by_cases hb : b < f m
      · rw [if_pos hb]
        obtain ⟨h1, h2, h3, h4⟩ := ih l (m - 1) hl (by omega) (by omega) (by omega) hlow
          fun q hq hql => by
            rcases Nat.eq_or_lt_of_le (show m ≤ q by omega) with rfl | hlt
            · exact hb
            · exact hb.trans (hmono m q hlt hql)
        exact ⟨h1, by omega, h3, h4⟩
      · rw [if_neg hb]
        refine ih (m + 1) r (by omega) (by omega) (by omega) hr (fun q hq1 hq2 => ?_) hhigh
        rcases Nat.eq_or_lt_of_le (show q ≤ m by omega) with rfl | hlt
        · omega
        · have := hmono q m hlt (by omega)
          omega
    · rw [if_neg hle]
      exact ⟨hl, hlr, hlow, fun q hq => hhigh q (by omega)⟩

/-- Whatever the keys are, the loop does not get past `r + 1`. -/
theorem binsearchLoop_le {f : ℕ → ℕ} {b : ℕ} (n l r : ℕ) :
    binsearchLoop f b n l r ≤ max l (r + 1) := by
  induction n generalizing l r with
  | zero => exact le_max_left _ _
  | succ n ih =>
    unfold binsearchLoop
    by_cases hle : l ≤ r
    · rw [if_pos hle]
      dsimp only
      by_cases hb : b < f (l + (r - l) / 2)
      · rw [if_pos hb]
        have := ih l (l + (r - l) / 2 - 1)
        omega
      · rw [if_neg hb]
        have := ih (l + (r - l) / 2 + 1) r
        omega
    · rw [if_neg hle]
      exact le_max_left _ _

/-- Whatever the keys are, the search settles on a valid entry. -/
theorem binsearch_lt {eh : Node} (b : ℕ) (hpos : 0 < eh.entriesCount) :
    binsearch eh b < eh.entriesCount := by
  have := @binsearchLoop_le (fun m => (eh.slots m).firstBlock) b eh.entriesCount 1
    (eh.entriesCount - 1)
  unfold binsearch
  omega

/-- The search settles on the closest entry. -/
theorem binsearch_closest {eh : Node} (b : ℕ) (hpos : 0 < eh.entriesCount)
    (hmono : eh.entries.Pairwise fun x y => x.firstBlock < y.firstBlock) :
    Closest eh b (binsearch eh b) := by
  have hlt : ∀ x y, x < y → y < eh.entriesCount →
      (eh.slots x).firstBlock < (eh.slots y).firstBlock := by
    intro x y hxy hy
    have hx' : x < eh.entries.length := by rw [length_entries]; omega
    have hy' : y < eh.entries.length := by rw [length_entries]; omega
    have := List.pairwise_iff_getElem.mp hmono x y hx' hy' hxy
    rwa [getElem_entries, getElem_entries] at this
  obtain ⟨h1, h2, h3, h4⟩ := binsearchLoop_spec (b := b) hlt eh.entriesCount 1
    (eh.entriesCount - 1) le_rfl (by omega) (by omega) (by omega) (fun q h1 h2 => by omega)
    (fun q h1 h2 => by omega)
  unfold binsearch
  generalize binsearchLoop (fun m => (eh.slots m).firstBlock) b eh.entriesCount 1
    (eh.entriesCount - 1) = p at h1 h2 h3 h4 ⊢
  refine ⟨by omega, ?_, fun q hq => h4 q (by omega)⟩
  rcases Nat.eq_or_lt_of_le h1 with rfl | hp
  · exact Or.inl rfl
  · exact Or.inr (h3 (p - 1) (by omega) (by omega))

section
variable {env : Env} {nodes : Nodes} {hdr : ℕ → Hdr} {pos : ℕ → ℕ} {k g n j b : ℕ} {h : Hdr}
  {l : List Slot}

/-! ### Keys and extents -/

/-- In a subtree in order no extent starts before the first one. -/
theorem first_le_of_mem {ix x : Slot} (hk : KeyOk nodes k ix)
    (hinc : Increasing (exts nodes k (child ix))) (hx : x ∈ exts nodes k (child ix)) :
    ix.firstBlock ≤ x.firstBlock := by
  unfold KeyOk at hk
  rcases hl : exts nodes k (child ix) with _ | ⟨e, es⟩
  · rw [hl] at hx
    simp at hx
  · rw [hl] at hk hx hinc
    simp only [List.head?_cons, Option.map_some, Option.some.injEq] at hk
    rcases List.mem_cons.mp hx with rfl | hx
    · omega
    · have := (List.pairwise_cons.mp hinc).1 x hx
      omega

/-- The keys of an index node increase. -/
theorem keys_lt (hf : Forest env nodes k l) (hinc : Increasing (extsOf nodes k l)) :
    Increasing l := by
  induction l with
  | nil => exact List.Pairwise.nil
  | cons ix l ih =>
    obtain ⟨⟨hs, hk⟩, hf'⟩ := Forest.cons.mp hf
    rw [extsOf_cons] at hinc
    obtain ⟨h1, h2, h3⟩ := List.pairwise_append.mp hinc
    refine List.pairwise_cons.mpr ⟨fun iy hiy => ?_, ih hf' h2⟩
    obtain ⟨hsy, hky⟩ := hf' iy hiy
    rcases he : exts nodes k (child ix) with _ | ⟨e, es⟩
    · exact absurd he hs.exts_ne_nil
    rcases hey : exts nodes k (child iy) with _ | ⟨y, ys⟩
    · exact absurd hey hsy.exts_ne_nil
    unfold KeyOk at hk hky
    rw [he] at hk
    rw [hey] at hky
    simp only [List.head?_cons, Option.map_some, Option.some.injEq] at hk hky
    have hmem : e ∈ exts nodes k (child ix) := by rw [he]; exact List.mem_cons_self
    have := h3 e hmem y (List.mem_flatMap.mpr ⟨iy, hiy, by rw [hey]; exact List.mem_cons_self⟩)
    omega

/-- The entries of a node in an ordered subtree increase. -/
theorem entries_lt (hs : Sub env nodes k h) (hinc : Increasing (exts nodes k h)) :
    Increasing (nodes h).entries := by
  cases k with
  | zero => exact hinc
  | succ k => exact keys_lt (sub_succ.mp hs).2.2 hinc

theorem increasing_child {ix : Slot} (hix : ix ∈ l) (hinc : Increasing (extsOf nodes k l)) :
    Increasing (exts nodes k (child ix)) := by
  obtain ⟨l1, l2, rfl⟩ := List.append_of_mem hix
  rw [extsOf_append, extsOf_cons] at hinc
  exact (List.pairwise_append.mp (List.pairwise_append.mp hinc).2.1).1

/-- A way of closest entries leads to the place of `b`. -/
theorem closest_way {e : Slot} {es : List Slot} (hs : Spine env nodes hdr pos g n j)
    (hk : Keys nodes hdr pos g n j) (hinc : Increasing (exts nodes (g + n) (hdr j)))
    (hg : exts nodes g (hdr (j + n)) = e :: es)
    (hclose : ∀ i, j ≤ i → i < j + n → Closest (nodes (hdr i)) b (pos i)) :
    (∀ x ∈ rights nodes hdr pos g n j, b < x.firstBlock) ∧
      (lefts nodes hdr pos g n j = [] ∨ e.firstBlock ≤ b) := by
  induction n generalizing j with
  | zero => exact ⟨fun x hx => by simp [rights] at hx, Or.inl rfl⟩
  | succ n ih =>
    obtain ⟨hh, hlt, hc, hbefore, hafter, hrest⟩ := hs
    obtain ⟨hkey, hkrest⟩ := hk
    rw [show j + (n + 1) = j + 1 + n by omega] at hg
    have hmem : cur nodes hdr pos j ∈ (nodes (hdr j)).entries := mem_entries.mpr ⟨_, hlt, rfl⟩
    have hinc' : Increasing (exts nodes (g + n) (hdr (j + 1))) := by
      rw [hc]
      exact increasing_child hmem hinc
    obtain ⟨hR, hL⟩ := ih hrest hkrest hinc' hg fun i h1 h2 => hclose i (by omega) (by omega)
    have hcl := hclose j le_rfl (by omega)
    constructor
    · intro x hx
      rw [rights_succ, List.mem_append] at hx
      rcases hx with hx | hx
      · exact hR x hx
      obtain ⟨iy, hiy, hx⟩ := List.mem_flatMap.mp hx
      obtain ⟨hsy, hky⟩ := hafter iy hiy
      have hiy' : iy ∈ (nodes (hdr j)).entries := List.mem_of_mem_drop hiy
      have hle := first_le_of_mem hky (increasing_child hiy' hinc) hx
      obtain ⟨q, hq, rfl⟩ := List.getElem_of_mem hiy
      rw [List.getElem_drop, getElem_entries] at hle
      rw [List.length_drop, length_entries] at hq
      have := hcl.after (pos j + 1 + q) (by omega) (by omega)
      omega
    · rw [lefts_succ]
      rcases hL with hL | hL
      · rcases hcl.le with h0 | hle
        · left
          rw [hL, before, h0]
          rfl
        · right
          have hbelow := exts_spine (g := g) hrest.onPath
          rw [hL, hg, hc] at hbelow
          unfold KeyOk at hkey
          rw [hbelow] at hkey
          simp only [List.nil_append, List.cons_append, List.head?_cons, Option.map_some,
            Option.some.injEq] at hkey
          exact hkey.le.trans hle
      · exact Or.inr hL

end

end Ext4Fsd.Extent.Found
