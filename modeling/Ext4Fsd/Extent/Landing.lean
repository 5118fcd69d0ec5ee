import Ext4Fsd.Extent.Grow

/-! # Where an extent lands

`Landed` says where `newext` is found among the extents after an insertion: between two parts of the
old list, or, when the tree is crowded in front, before a list out of order. `Sought` is what a
lookup says of the place, and then the list is in order. -/

namespace Ext4Fsd.Extent.Landing

open Ext4Fsd.Lib.Intervals Ext4Fsd.Extent.Layout Ext4Fsd.Extent.Store Ext4Fsd.Extent.Insert
open Ext4Fsd.Extent.Tree Ext4Fsd.Extent.Way Ext4Fsd.Extent.Found Ext4Fsd.Extent.Lookup
open Ext4Fsd.Extent.Keys Ext4Fsd.Extent.Focus Ext4Fsd.Extent.InsertLeaf Ext4Fsd.Extent.Prepared
open Ext4Fsd.Extent.MakeRoom

/-- The path's entry is the one `newext` comes after, or the first of all. -/
structure Sought (s : St) (hdr : ℕ → Hdr) (pos : ℕ → ℕ) (newext : Slot) : Prop where
  none : (leafNode s hdr).entriesCount = 0 → leftExts s hdr pos = []
  low : (leafNode s hdr).entriesCount ≠ 0 →
    ((leafNode s hdr).slots (pos (extDepth s))).firstBlock < newext.firstBlock ∨
      (pos (extDepth s) = 0 ∧ leftExts s hdr pos = [])
  high : ∀ x ∈ rightExts s hdr pos, newext.firstBlock < x.firstBlock

/-- The topmost of the levels that are split with a full leaf. -/
def splitFrom (s : St) : ℕ :=
  if extDepth s < fullLevels s (extDepth s) then 1
  else extDepth s + 1 - fullLevels s (extDepth s)

/-- The extent lies before all others, in a full leaf that is split behind its last entry, and an
index node split with it has entries behind the path's one. -/
structure Crowded (s : St) (hdr : ℕ → Hdr) (pos : ℕ → ℕ) (newext : Slot) : Prop where
  full : (leafNode s hdr).entriesCount = (leafNode s hdr).maxEntriesCount
  last : pos (extDepth s) + 1 = (leafNode s hdr).entriesCount
  before : newext.firstBlock < ((leafNode s hdr).slots 0).firstBlock
  behind : ∃ i, splitFrom s ≤ i ∧ i < extDepth s ∧ pos i + 1 < (s.nodes (hdr i)).entriesCount

/-- **Where `newext` has landed.** -/
def Landed (s : St) (hdr : ℕ → Hdr) (pos : ℕ → ℕ) (newext : Slot) (E' : List Slot) : Prop :=
  (¬ Crowded s hdr pos newext ∧ ∃ l r, treeExts s = l ++ r ∧ E' = l ++ newext :: r ∧
      (Sought s hdr pos newext → Increasing E')) ∨
    (Crowded s hdr pos newext ∧ ∃ l R₁ R₂, l ≠ [] ∧ R₁ ≠ [] ∧ treeExts s = l ++ R₁ ++ R₂ ∧
      E' = newext :: (R₁ ++ l ++ R₂))

section
variable {env : Env} {s t : St} {hdr : ℕ → Hdr} {pos : ℕ → ℕ} {b x n j g : ℕ} {newext : Slot}
  {nodes : Nodes}

/-! ### States with the same tree -/

theorem ready_of_same (hr : Ready env s hdr pos b newext) (h : SameTree s t) :
    Ready env t hdr pos b newext := by
  have hD : extDepth t = extDepth s := by unfold extDepth; rw [h.nodes]
  have hl : leafNode t hdr = leafNode s hdr := by rw [leafNode, hD, h.nodes]
  have he : treeExts t = treeExts s := by unfold treeExts; rw [hD, h.nodes]
  have hL : leftExts t hdr pos = leftExts s hdr pos := by rw [leftExts, hD, h.nodes]
  refine ⟨focused_of_same hr.focused h, ?_, ?_, ?_, ?_, ?_, ?_⟩
  · rw [hl]
    exact hr.head
  · rw [he]
    exact hr.inc
  · rw [he]
    exact hr.fresh
  · rw [hl, hL]
    exact hr.place
  · rw [hl, hD]
    exact hr.next
  · rw [hl, hD, h.nodes]
    exact hr.closest

theorem fullLevels_of_same (h : SameTree s t) (i : ℕ) : fullLevels t i = fullLevels s i := by
  induction i with
  | zero => rw [fullLevels, fullLevels, h.nodes, h.path]
  | succ i ih => rw [fullLevels, fullLevels, h.nodes, h.path, ih]

theorem splitFrom_of_same (h : SameTree s t) : splitFrom t = splitFrom s := by
  have hD : extDepth t = extDepth s := by unfold extDepth; rw [h.nodes]
  unfold splitFrom
  rw [hD, fullLevels_of_same h]

theorem landed_of_same {E' : List Slot} (h : SameTree s t) (hl : Landed t hdr pos newext E') :
    Landed s hdr pos newext E' := by
  have hD : extDepth t = extDepth s := by unfold extDepth; rw [h.nodes]
  have hleaf : leafNode t hdr = leafNode s hdr := by rw [leafNode, hD, h.nodes]
  have he : treeExts t = treeExts s := by unfold treeExts; rw [hD, h.nodes]
  have hL : leftExts t hdr pos = leftExts s hdr pos := by rw [leftExts, hD, h.nodes]
  have hR : rightExts t hdr pos = rightExts s hdr pos := by rw [rightExts, hD, h.nodes]
  have hc : Crowded t hdr pos newext ↔ Crowded s hdr pos newext := by
    constructor <;> rintro ⟨h1, h2, h3, h4⟩
    · rw [hleaf] at h1 h2 h3
      rw [hD] at h2 h4
      rw [splitFrom_of_same h, h.nodes] at h4
      exact ⟨h1, h2, h3, h4⟩
    · rw [← hleaf] at h1 h2 h3
      rw [← hD] at h2 h4
      rw [← splitFrom_of_same h, ← h.nodes] at h4
      exact ⟨h1, h2, h3, h4⟩
  have hs : Sought s hdr pos newext → Sought t hdr pos newext := by
    rintro ⟨h1, h2, h3⟩
    rw [← hleaf] at h1 h2
    rw [← hL] at h1 h2
    rw [← hD] at h2
    rw [← hR] at h3
    exact ⟨h1, h2, h3⟩
  unfold Landed at hl ⊢
  rw [hc, he] at hl
  rcases hl with ⟨h1, l, r, h2, h3, h4⟩ | hl
  · exact Or.inl ⟨h1, l, r, h2, h3, fun h => h4 (hs h)⟩
  · exact Or.inr hl

/-! ### The place among the extents -/

/-- Nothing is right of the focus exactly when the way takes last entries only. -/
theorem rights_eq_nil (hs : Spine env nodes hdr pos g n j) :
    rights nodes hdr pos g n j = [] ↔
      ∀ i, j ≤ i → i < j + n → pos i + 1 = (nodes (hdr i)).entriesCount := by
  induction n generalizing j with
  | zero =>
    refine ⟨fun _ i h1 h2 => ?_, fun _ => rfl⟩
    omega
  | succ n ih =>
    obtain ⟨-, hlt, -, -, hafter, hrest⟩ := hs
    have hlast : after nodes hdr pos j = [] ↔ pos j + 1 = (nodes (hdr j)).entriesCount := by
      rw [List.drop_eq_nil_iff, length_entries]
      omega
    rw [rights_succ, List.append_eq_nil_iff, hafter.extsOf_eq_nil, hlast, ih hrest]
    constructor
    · rintro ⟨hall, h0⟩ i h1 h2
      rcases Nat.eq_or_lt_of_le h1 with rfl | h1
      · exact h0
      · exact hall i (by omega) (by omega)
    · intro hall
      exact ⟨fun i h1 h2 => hall i (by omega) (by omega), hall j le_rfl (by omega)⟩

/-- A lookup seeks the place of its block. -/
theorem sought_of_reached (hr : Reached s newext.firstBlock hdr pos) (hsh : Shaped env s)
    (hfresh : ∀ x ∈ treeExts s, x.firstBlock ≠ newext.firstBlock) : Sought s hdr pos newext := by
  have hf := focused_of_reached hr hsh
  by_cases hne : (leafNode s hdr).entriesCount = 0
  · have hD : extDepth s = 0 := by
      rcases hsh.shape with hs | ⟨hh, -⟩
      · have hs' : Sub env s.nodes (0 + extDepth s) (hdr 0) := by rwa [hr.path.root, Nat.zero_add]
        have hpos := (spine_open hr.onPath hs').2.2.entriesCount_pos
        rw [Nat.zero_add] at hpos
        exact absurd hne (Nat.ne_zero_of_lt hpos)
      · exact hh.depth
    refine ⟨fun _ => by rw [leftExts, hD]; rfl, fun h => absurd hne h, fun x hx => ?_⟩
    rw [rightExts, hD] at hx
    simp [rights] at hx
  have hent : exts s.nodes 0 (hdr (0 + extDepth s)) = (leafNode s hdr).slots 0 ::
      (leafNode s hdr).entries.drop 1 := by
    rw [exts, Nat.zero_add]
    have := entries_split (Nat.pos_of_ne_zero hne)
    rwa [List.take_zero, List.nil_append] at this
  have hkeys := (keys_iff hf.spine hent).mpr ⟨hf.keysLeft, hf.keysFocus hne⟩
  have hinc : Increasing (exts s.nodes (0 + extDepth s) (hdr 0)) := by
    rw [hr.path.root, Nat.zero_add]
    exact hsh.inc
  obtain ⟨hR, hL⟩ := closest_way hf.spine hkeys hinc hent fun i _ hi => hr.closest i (by omega)
  refine ⟨fun h => absurd h hne, fun _ => ?_, hR⟩
  have hcl := hr.leaf hne
  have hmem : (leafNode s hdr).slots (pos (extDepth s)) ∈ treeExts s :=
    hf.slot_mem hcl.lt
  rcases hcl.le with h0 | hle
  · rcases hL with hL | hL
    · exact Or.inr ⟨h0, hL⟩
    · left
      have := hfresh _ hmem
      rw [h0] at this ⊢
      omega
  · exact Or.inl (lt_of_le_of_ne hle (hfresh _ hmem))

/-- The position in the leaf is the one a search finds. -/
theorem Sought.closest (hs : Sought s hdr pos newext) (hr : Ready env s hdr pos b newext)
    (h0 : (leafNode s hdr).entriesCount ≠ 0) :
    Closest (leafNode s hdr) newext.firstBlock (pos (extDepth s)) := by
  refine ⟨hr.focused.pos_lt h0, ?_, hr.next⟩
  rcases hs.low h0 with h | ⟨h, -⟩
  · exact Or.inr h.le
  · exact Or.inl h

theorem increasing_insert {l r : List Slot} (h : Increasing (l ++ r))
    (hl : ∀ y ∈ l, y.firstBlock < newext.firstBlock)
    (hr : ∀ y ∈ r, newext.firstBlock < y.firstBlock) : Increasing (l ++ newext :: r) := by
  obtain ⟨h1, h2, h3⟩ := List.pairwise_append.mp h
  refine List.pairwise_append.mpr ⟨h1, List.pairwise_cons.mpr ⟨hr, h2⟩, fun x hx y hy => ?_⟩
  rcases List.mem_cons.mp hy with rfl | hy
  · exact hl x hx
  · exact h3 x hx y hy

/-- What starts before a sought extent, and what starts behind it. -/
theorem sought_place (hr : Ready env s hdr pos b newext) (hs : Sought s hdr pos newext) :
    (∀ y ∈ leftExts s hdr pos, y.firstBlock < newext.firstBlock) ∧
      (∀ q, q < placeFor (leafNode s hdr) (pos (extDepth s)) newext →
        q < (leafNode s hdr).entriesCount →
        ((leafNode s hdr).slots q).firstBlock < newext.firstBlock) ∧
      ∀ q, placeFor (leafNode s hdr) (pos (extDepth s)) newext ≤ q →
        q < (leafNode s hdr).entriesCount →
        newext.firstBlock < ((leafNode s hdr).slots q).firstBlock := by
  have hinc := hr.inc
  rw [hr.focused.exts, List.append_assoc] at hinc
  unfold placeFor
  by_cases h0 : (leafNode s hdr).entriesCount = 0
  · rw [hs.none h0]
    exact ⟨fun y hy => by simp at hy, fun q _ hq => by omega, fun q _ hq => by omega⟩
  rw [if_neg h0]
  have hlt := hr.focused.pos_lt h0
  have hmem : ∀ q, q < (leafNode s hdr).entriesCount → (leafNode s hdr).slots q ∈
      (leafNode s hdr).entries := fun q hq => mem_entries.mpr ⟨q, hq, rfl⟩
  by_cases hslot : ((leafNode s hdr).slots (pos (extDepth s))).firstBlock < newext.firstBlock
  · rw [if_pos hslot]
    refine ⟨fun y hy => ?_, fun q h1 h2 => ?_, fun q h1 h2 => hr.next q (by omega) h2⟩
    · have := (List.pairwise_append.mp hinc).2.2 y hy _ (List.mem_append_left _ (hmem _ hlt))
      exact this.trans hslot
    · rcases Nat.eq_or_lt_of_le (show q ≤ pos (extDepth s) by omega) with rfl | h3
      · exact hslot
      · exact (hr.slots_lt h3 hlt).trans hslot
  · rw [if_neg hslot]
    rcases hs.low h0 with h1 | ⟨h1, h2⟩
    · exact absurd h1 hslot
    · rw [h1, h2]
      refine ⟨fun y hy => by simp at hy, fun q h3 => by omega, fun q _ h4 => ?_⟩
      rcases Nat.eq_zero_or_pos q with rfl | h5
      · have hne := hr.fresh ((leafNode s hdr).slots 0) (by
          rw [hr.focused.exts]
          exact List.mem_append_left _ (List.mem_append_right _ (hmem 0 h4)))
        rw [h1] at hslot
        omega
      · exact hr.next q (by omega) h4

/-- At its place between the extents a sought extent keeps them in order. -/
theorem increasing_place (hr : Ready env s hdr pos b newext) (hs : Sought s hdr pos newext) :
    Increasing (leftExts s hdr pos ++
      ((leafNode s hdr).entries.take (placeFor (leafNode s hdr) (pos (extDepth s)) newext) ++
        newext :: (leafNode s hdr).entries.drop
          (placeFor (leafNode s hdr) (pos (extDepth s)) newext)) ++ rightExts s hdr pos) := by
  have hinc := hr.inc
  rw [hr.focused.exts] at hinc
  have hle := @placeFor_le newext (leafNode s hdr) _ hr.focused.pos_lt
  have hsplit : leftExts s hdr pos ++
      ((leafNode s hdr).entries.take (placeFor (leafNode s hdr) (pos (extDepth s)) newext) ++
        newext :: (leafNode s hdr).entries.drop
          (placeFor (leafNode s hdr) (pos (extDepth s)) newext)) ++ rightExts s hdr pos =
      (leftExts s hdr pos ++ (leafNode s hdr).entries.take
        (placeFor (leafNode s hdr) (pos (extDepth s)) newext)) ++ newext ::
      ((leafNode s hdr).entries.drop (placeFor (leafNode s hdr) (pos (extDepth s)) newext) ++
        rightExts s hdr pos) := by
    simp
  have hplace := sought_place hr hs
  rw [hsplit]
  refine increasing_insert ?_ (fun y hy => ?_) fun y hy => ?_
  · rw [List.append_assoc, ← List.append_assoc (List.take _ _), List.take_append_drop,
      ← List.append_assoc]
    exact hinc
  · rcases List.mem_append.mp hy with hy | hy
    · exact (hplace).1 y hy
    · obtain ⟨q, hq, rfl⟩ := List.getElem_of_mem hy
      rw [List.length_take, length_entries] at hq
      rw [List.getElem_take, getElem_entries]
      exact hplace.2.1 q (by omega) (by omega)
  · rcases List.mem_append.mp hy with hy | hy
    · obtain ⟨q, hq, rfl⟩ := List.getElem_of_mem hy
      rw [List.length_drop, length_entries] at hq
      rw [List.getElem_drop, getElem_entries]
      exact hplace.2.2 _ (by omega) (by omega)
    · exact hs.high y hy

/-- In its leaf an extent lands where the path's entry says. -/
theorem landed_place (hr : Ready env s hdr pos b newext) (hc : ¬ Crowded s hdr pos newext) :
    Landed s hdr pos newext (leftExts s hdr pos ++
      ((leafNode s hdr).entries.take (placeFor (leafNode s hdr) (pos (extDepth s)) newext) ++
        newext :: (leafNode s hdr).entries.drop
          (placeFor (leafNode s hdr) (pos (extDepth s)) newext)) ++ rightExts s hdr pos) := by
  refine Or.inl ⟨hc, leftExts s hdr pos ++ (leafNode s hdr).entries.take
    (placeFor (leafNode s hdr) (pos (extDepth s)) newext), (leafNode s hdr).entries.drop
      (placeFor (leafNode s hdr) (pos (extDepth s)) newext) ++ rightExts s hdr pos, ?_, by simp,
    increasing_place hr⟩
  rw [hr.focused.exts]
  conv_lhs => rw [← List.take_append_drop
    (placeFor (leafNode s hdr) (pos (extDepth s)) newext) (leafNode s hdr).entries]
  simp only [List.append_assoc]

/-- After a split with entries behind the path's one the extent lands in the old leaf. -/
theorem landed_left (hr : Ready env s hdr pos b newext)
    (hlt : pos (extDepth s) + 1 < (leafNode s hdr).entriesCount)
    (hxl : x ≤ pos (extDepth s) + 1)
    (hx : x = placeFor (leafNode s hdr) (pos (extDepth s)) newext) :
    Landed s hdr pos newext (leftExts s hdr pos ++
      (((leafNode s hdr).entries.take (pos (extDepth s) + 1)).take x ++
        newext :: ((leafNode s hdr).entries.take (pos (extDepth s) + 1)).drop x) ++
      ((leafNode s hdr).entries.drop (pos (extDepth s) + 1) ++ rightExts s hdr pos)) := by
  have hc : ¬ Crowded s hdr pos newext := fun hc => by
    have := hc.last
    omega
  have hland := landed_place hr hc
  rw [← hx] at hland
  have hlist : (leafNode s hdr).entries.drop x =
      ((leafNode s hdr).entries.take (pos (extDepth s) + 1)).drop x ++
        (leafNode s hdr).entries.drop (pos (extDepth s) + 1) := by
    conv_lhs => rw [← List.take_append_drop (pos (extDepth s) + 1) (leafNode s hdr).entries]
    rw [List.drop_append_of_le_length (by rw [List.length_take, length_entries]; omega)]
  rw [List.take_take, Nat.min_eq_left (by omega)]
  rw [hlist] at hland
  simpa using hland

/-- Behind the last entry of its leaf the extent lands in a new leaf. -/
theorem landed_right (hr : Ready env s hdr pos b newext)
    (h0 : (leafNode s hdr).entriesCount ≠ 0)
    (hlast : pos (extDepth s) + 1 = (leafNode s hdr).entriesCount)
    (hafter : ((leafNode s hdr).slots 0).firstBlock < newext.firstBlock) :
    Landed s hdr pos newext (leftExts s hdr pos ++ (leafNode s hdr).entries ++ [newext] ++
      rightExts s hdr pos) := by
  refine Or.inl ⟨fun hc => ?_, leftExts s hdr pos ++ (leafNode s hdr).entries, rightExts s hdr pos,
    hr.focused.exts, by simp, fun hs => ?_⟩
  · have := hc.before
    omega
  · have hp : placeFor (leafNode s hdr) (pos (extDepth s)) newext =
        (leafNode s hdr).entries.length := by
      unfold placeFor
      rw [if_neg h0, length_entries]
      rcases hs.low h0 with h5 | ⟨h5, -⟩
      · rw [if_pos h5, hlast]
      · rw [h5] at hlast ⊢
        rw [if_pos hafter, hlast]
    have hinc := increasing_place hr hs
    rw [hp, List.take_length, List.drop_length] at hinc
    simpa using hinc

/-- An extent before all others lands in a new leaf before the old one, and behind what lies right
of the old one below the split. -/
theorem landed_before {m : ℕ} {R₂ : List Slot} (hr : Ready env s hdr pos b newext)
    (hfull : (leafNode s hdr).entriesCount = (leafNode s hdr).maxEntriesCount)
    (h0 : (leafNode s hdr).entriesCount ≠ 0) (hD : extDepth s = m + (n + 1))
    (hfrom : splitFrom s = m + 1)
    (hlast : pos (extDepth s) + 1 = (leafNode s hdr).entriesCount)
    (hbefore : newext.firstBlock < ((leafNode s hdr).slots 0).firstBlock)
    (hnil : leftExts s hdr pos = [])
    (hright : rightExts s hdr pos = rights s.nodes hdr pos 0 n (m + 1) ++ R₂) :
    Landed s hdr pos newext
      (newext :: (rights s.nodes hdr pos 0 n (m + 1) ++ (leafNode s hdr).entries ++ R₂)) := by
  have hf := hr.focused
  have hsp := hf.spine
  rw [hD, show m + (n + 1) = m + 1 + n by omega] at hsp
  have hnone : rights s.nodes hdr pos 0 n (m + 1) = [] ↔ ∀ i, m + 1 ≤ i → i < m + 1 + n →
      pos i + 1 = (s.nodes (hdr i)).entriesCount := by
    have h := rights_eq_nil (spine_split.mp hsp).2
    rwa [Nat.zero_add] at h
  rcases hR : rights s.nodes hdr pos 0 n (m + 1) with _ | ⟨y, R₁⟩
  · rw [hR, List.nil_append] at hright
    refine Or.inl ⟨fun hc => ?_, [], (leafNode s hdr).entries ++ rightExts s hdr pos, ?_, ?_,
      fun hs => ?_⟩
    · obtain ⟨i, h5, h6, h7⟩ := hc.behind
      have := hnone.mp hR i (by omega) (by omega)
      omega
    · rw [hf.exts, hnil]
      rfl
    · rw [hright]
      simp
    · have hp : placeFor (leafNode s hdr) (pos (extDepth s)) newext = 0 := by
        unfold placeFor
        rw [if_neg h0]
        rcases hs.low h0 with h5 | ⟨h5, -⟩
        · rcases Nat.eq_zero_or_pos (pos (extDepth s)) with h6 | h6
          · rw [h6] at h5
            omega
          · have h7 := hr.slots_lt h6 (hf.pos_lt h0)
            omega
        · rw [h5, if_neg (by omega)]
      have hinc := increasing_place hr hs
      rw [hp, hnil, hright] at hinc
      simpa [hright] using hinc
  · rw [hR] at hright
    refine Or.inr ⟨⟨hfull, hlast, hbefore, ?_⟩, (leafNode s hdr).entries, y :: R₁, R₂, ?_, by simp,
      ?_, by simp⟩
    · by_contra hno
      push Not at hno
      have hall := hnone.mpr fun i h5 h6 => by
        have h7 := hno i (by omega) (by omega)
        have h8 := (spine_level hf.spine (Nat.zero_le i) (by omega)).2
        omega
      rw [hR] at hall
      simp at hall
    · rwa [Ne, entries_eq_nil]
    · rw [hf.exts, hnil, hright]
      simp

/-- **Where an extent lands after a split.** -/
theorem landed_half {m : ℕ} {L l R : List Slot} (hr : Ready env s hdr pos b newext)
    (hfull : (leafNode s hdr).entriesCount = (leafNode s hdr).maxEntriesCount)
    (hD : extDepth s = m + (n + 1)) (hfrom : splitFrom s = m + 1)
    (hhalf : HalfTaken s hdr pos newext (rights s.nodes hdr pos 0 n (m + 1)) L l R)
    (hxl : x ≤ l.length)
    (hx : l ≠ [] → x = placeFor (leafNode s hdr) (pos (extDepth s)) newext) :
    Landed s hdr pos newext (L ++ (l.take x ++ newext :: l.drop x) ++ R) := by
  have h0 : (leafNode s hdr).entriesCount ≠ 0 := by
    rw [hfull]
    exact Nat.ne_zero_of_lt hr.focused.leaf.max_pos
  rcases hhalf
    with ⟨h1, rfl, rfl, rfl⟩ | ⟨h1, h2, rfl, rfl, rfl⟩ | ⟨h1, h2, h3, rfl, rfl, R₂, h4, rfl⟩
  · rw [List.length_take] at hxl
    refine landed_left hr h1 (by omega) (hx ?_)
    rw [Ne, List.take_eq_nil_iff, entries_eq_nil]
    omega
  · simpa using landed_right hr h0 h1 h2
  · simpa using landed_before hr hfull h0 hD hfrom h1 h2 h3 h4

end

end Ext4Fsd.Extent.Landing
