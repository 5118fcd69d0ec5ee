import Ext4Fsd.Extent.Way

/-! # What a walk has still to read

A walk over the tree keeps a node and a position in it for every level down to the one it is at.
`pending` lists the nodes it has not come to yet, the nearest first: those from the position of its
own level on, then those behind the positions above. `Walking` is what holds of the walk at any
time, whatever the keys are: the pending nodes are checked, and no node is listed twice. It survives
a step down to the child at the position (`Walking.down`) and a step up after which the level above
is past its child, because the position was advanced or because the entry was taken out
(`Walking.up`). -/

namespace Ext4Fsd.Extent.Pending

open Ext4Fsd.Extent.Layout Ext4Fsd.Extent.Store Ext4Fsd.Extent.Tree Ext4Fsd.Extent.Way

/-- The node passes `ext4_ext_check` for its level and has an entry. Its count is a 16-bit field. -/
structure NodeChecked (nodes : Nodes) (k : ℕ) (h : Hdr) : Prop where
  check : ext4ExtCheck (nodes h) k = true
  nonempty : 0 < (nodes h).entriesCount
  width : (nodes h).entriesCount < 2 ^ 16

/-- All nodes of the subtree of height `k` at `h` are checked. -/
def Checked (nodes : Nodes) : ℕ → Hdr → Prop
  | 0, h => NodeChecked nodes 0 h
  | k + 1, h => NodeChecked nodes (k + 1) h ∧ ∀ ix ∈ (nodes h).entries, Checked nodes k (child ix)

/-- The subtrees of height `k` behind the entries of the list are checked. -/
abbrev CheckedAll (nodes : Nodes) (k : ℕ) (l : List Slot) : Prop :=
  ∀ ix ∈ l, Checked nodes k (child ix)

instance (nodes : Nodes) (k : ℕ) (h : Hdr) : Decidable (NodeChecked nodes k h) :=
  decidable_of_iff (ext4ExtCheck (nodes h) k = true ∧ 0 < (nodes h).entriesCount ∧
    (nodes h).entriesCount < 2 ^ 16) ⟨fun ⟨h1, h2, h3⟩ => ⟨h1, h2, h3⟩, fun ⟨h1, h2, h3⟩ =>
    ⟨h1, h2, h3⟩⟩

instance decidableChecked (nodes : Nodes) : ∀ k h, Decidable (Checked nodes k h)
  | 0, h => inferInstanceAs (Decidable (NodeChecked nodes 0 h))
  | k + 1, h =>
    have : ∀ ix, Decidable (Checked nodes k (child ix)) :=
      fun ix => decidableChecked nodes k (child ix)
    inferInstanceAs (Decidable (NodeChecked nodes (k + 1) h ∧
      ∀ ix ∈ (nodes h).entries, Checked nodes k (child ix)))

section
variable (nodes : Nodes) (hdr : ℕ → Hdr) (pos : ℕ → ℕ) (D : ℕ)

/-- The nodes behind the positions of the levels above `i`, in a tree of depth `D`. -/
def beside : ℕ → List Hdr
  | 0 => []
  | i + 1 => refsOf nodes (D - (i + 1)) (after nodes hdr pos i) ++ beside i

/-- The nodes from the position of level `i` on. There are none below a leaf. -/
def ahead (i : ℕ) : List Hdr :=
  if i < D then refsOf nodes (D - (i + 1)) ((nodes (hdr i)).entries.drop (pos i)) else []

def pending (i : ℕ) : List Hdr := ahead nodes hdr pos D i ++ beside nodes hdr pos D i

/-- The walk is at level `i`. -/
structure Walking (i : ℕ) : Prop where
  le : i ≤ D
  valid : ∀ j, j < i → pos j < (nodes (hdr j)).entriesCount
  width : ∀ j, j ≤ i → (nodes (hdr j)).entriesCount < 2 ^ 16
  checkedBeside : ∀ j, j < i → CheckedAll nodes (D - (j + 1)) (after nodes hdr pos j)
  checkedAhead : i < D → CheckedAll nodes (D - (i + 1)) ((nodes (hdr i)).entries.drop (pos i))
  nodup : (hdrs hdr (i + 1) 0 ++ pending nodes hdr pos D i).Nodup

end

/-- From `nodes`, `hdr`, `pos` to the primed ones, level `i` has got past its child. Above it only
keys on the way have changed, and beside the way down to level `i + 1` nothing has. -/
structure Passed (nodes nodes' : Nodes) (hdr hdr' : ℕ → Hdr) (pos pos' : ℕ → ℕ) (i : ℕ) : Prop where
  header : ∀ j, j ≤ i → hdr' j = hdr j
  position : ∀ j, j < i → pos' j = pos j
  keys : ∀ j, j < i → SameBeside (nodes (hdr j)) (nodes' (hdr j)) (pos j)
  past : (nodes' (hdr i)).entries.drop (pos' i) = after nodes hdr pos i
  count : (nodes' (hdr i)).entriesCount ≤ (nodes (hdr i)).entriesCount
  off : ∀ h, (∀ j, j ≤ i + 1 → h ≠ hdr j) → nodes' h = nodes h

section
variable {nodes nodes' : Nodes} {hdr hdr' : ℕ → Hdr} {pos pos' : ℕ → ℕ} {D i k : ℕ} {h : Hdr}
  {l : List Slot}

theorem Checked.node (hc : Checked nodes k h) : NodeChecked nodes k h := by
  cases k with
  | zero => exact hc
  | succ k => exact hc.1

theorem NodeChecked.congr (hc : NodeChecked nodes k h) (hh : nodes' h = nodes h) :
    NodeChecked nodes' k h := by
  obtain ⟨h1, h2, h3⟩ := hc
  constructor <;> rwa [hh]

theorem checked_congr (heq : ∀ r ∈ refs nodes k h, nodes' r = nodes r) (hc : Checked nodes k h) :
    Checked nodes' k h := by
  have hh := heq h (mem_refs_self nodes _ h)
  induction k generalizing h with
  | zero => exact NodeChecked.congr hc hh
  | succ k ih =>
    refine ⟨hc.1.congr hh, ?_⟩
    rw [hh]
    intro ix hix
    have hbelow : ∀ r ∈ refs nodes k (child ix), nodes' r = nodes r := fun r hr =>
      heq r (List.mem_cons_of_mem _ (List.mem_flatMap.mpr ⟨ix, hix, hr⟩))
    exact ih hbelow (hc.2 ix hix) (hbelow _ (mem_refs_self nodes _ _))

theorem checkedAll_congr (heq : ∀ r ∈ refsOf nodes k l, nodes' r = nodes r)
    (hc : CheckedAll nodes k l) : CheckedAll nodes' k l := fun ix hix =>
  checked_congr (fun r hr => heq r (List.mem_flatMap.mpr ⟨ix, hix, hr⟩)) (hc ix hix)

theorem refsOf_drop_sublist (p : ℕ) :
    (refsOf nodes k (l.drop p)).Sublist (refsOf nodes k l) := by
  have hsplit := @refsOf_append nodes k (l.take p) (l.drop p)
  rw [List.take_append_drop] at hsplit
  rw [hsplit]
  exact List.sublist_append_right _ _

/-! ### The lists -/

theorem mem_beside {r : Hdr} {j : ℕ} (hj : j < i)
    (hr : r ∈ refsOf nodes (D - (j + 1)) (after nodes hdr pos j)) :
    r ∈ beside nodes hdr pos D i := by
  induction i with
  | zero => omega
  | succ i ih =>
    rcases Nat.eq_or_lt_of_le (show j ≤ i by omega) with rfl | hji
    · exact List.mem_append_left _ hr
    · exact List.mem_append_right _ (ih hji)

theorem beside_congr (hafter : ∀ j, j < i → after nodes' hdr' pos' j = after nodes hdr pos j)
    (hsame : ∀ r ∈ beside nodes hdr pos D i, nodes' r = nodes r) :
    beside nodes' hdr' pos' D i = beside nodes hdr pos D i := by
  induction i with
  | zero => rfl
  | succ i ih =>
    rw [beside, beside, hafter i (by omega),
      refsOf_congr fun r hr => hsame r (List.mem_append_left _ hr),
      ih (fun j hj => hafter j (by omega)) fun r hr => hsame r (List.mem_append_right _ hr)]

/-- What lies at and below a child that a walk is about to enter at whatever position. -/
theorem child_ahead_sublist (hi : i < D) :
    (hdr (i + 1) :: ahead nodes hdr pos D (i + 1)).Sublist
      (refs nodes (D - (i + 1)) (hdr (i + 1))) := by
  unfold ahead
  by_cases hleaf : i + 1 < D
  · rw [if_pos hleaf, show D - (i + 1) = D - (i + 1 + 1) + 1 by omega, refs_succ]
    exact (refsOf_drop_sublist _).cons_cons _
  · rw [if_neg hleaf, show D - (i + 1) = 0 by omega]
    exact List.Sublist.refl _

/-- The child at the position comes first of what is ahead. -/
theorem ahead_cur (hi : i < D) (hpos : pos i < (nodes (hdr i)).entriesCount) :
    ahead nodes hdr pos D i = refs nodes (D - (i + 1)) (child (cur nodes hdr pos i)) ++
      refsOf nodes (D - (i + 1)) (after nodes hdr pos i) := by
  have hp : pos i < (nodes (hdr i)).entries.length := by rwa [length_entries]
  rw [ahead, if_pos hi, List.drop_eq_getElem_cons hp, getElem_entries, refsOf_cons]

theorem hdrs_last (n : ℕ) : hdrs hdr (n + 1) 0 = hdrs hdr n 0 ++ [hdr n] := by
  rw [hdrs_split, Nat.zero_add]
  rfl

theorem hdrs_congr {n : ℕ} (hh : ∀ j, j < n → hdr' j = hdr j) : hdrs hdr' n 0 = hdrs hdr n 0 := by
  induction n with
  | zero => rfl
  | succ n ih => rw [hdrs_last, hdrs_last, ih fun j hj => hh j (by omega), hh n (by omega)]

/-! ### Steps -/

theorem Walking.distinct (hw : Walking nodes hdr pos D i) {j j' : ℕ} (hj : j ≤ i) (hj' : j' ≤ i)
    (hne : j ≠ j') : hdr j ≠ hdr j' := by
  have hlist : ∀ n a b, (hdrs hdr n 0).Nodup → a < b → b < n → hdr a ≠ hdr b := by
    intro n
    induction n with
    | zero => omega
    | succ n ih =>
      intro a b hnd hab hb
      rw [hdrs_last, List.nodup_append] at hnd
      rcases Nat.eq_or_lt_of_le (show b ≤ n by omega) with rfl | hbn
      · exact hnd.2.2 _ (mem_hdrs.mpr ⟨a, by omega, by omega, rfl⟩) _ List.mem_cons_self
      · exact ih a b hnd.1 hab hbn
  have hnd := (List.nodup_append.mp hw.nodup).1
  rcases Nat.lt_or_gt_of_ne hne with hlt | hlt
  · exact hlist _ j j' hnd hlt (by omega)
  · exact (hlist _ j' j hnd hlt (by omega)).symm

/-- A walk starts at the root. -/
theorem Walking.start (hc : Checked nodes D (hdr 0)) (hnd : (refs nodes D (hdr 0)).Nodup) :
    Walking nodes hdr pos D 0 ∧
      (pending nodes hdr pos D 0).Sublist (refs nodes D (hdr 0)) := by
  have hsub : (hdr 0 :: pending nodes hdr pos D 0).Sublist (refs nodes D (hdr 0)) := by
    rw [pending, ahead, beside, List.append_nil]
    by_cases hD : 0 < D
    · rw [if_pos hD, show D = D - (0 + 1) + 1 by omega, refs_succ]
      exact (refsOf_drop_sublist _).cons_cons _
    · rw [if_neg hD, show D = 0 by omega]
      exact List.Sublist.refl _
  refine ⟨⟨by omega, fun j hj => by omega, fun j hj => ?_, fun j hj => by omega, fun hD => ?_,
    hnd.sublist hsub⟩, (List.sublist_cons_self _ _).trans hsub⟩
  · rw [show j = 0 by omega]
    exact hc.node.width
  · intro ix hix
    rw [show D = D - (0 + 1) + 1 by omega] at hc
    exact hc.2 ix (List.mem_of_mem_drop hix)

/-- What is pending is not on the way. -/
theorem Walking.pending_off (hw : Walking nodes hdr pos D i) {r : Hdr}
    (hr : r ∈ pending nodes hdr pos D i) {j : ℕ} (hj : j ≤ i) : r ≠ hdr j := fun heq =>
  (List.nodup_append.mp hw.nodup).2.2 _ (mem_hdrs.mpr ⟨j, by omega, by omega, rfl⟩) r hr heq.symm

/-- The node a walk is about to read is checked. -/
theorem Walking.child_checked (hw : Walking nodes hdr pos D i) (hi : i < D)
    (hpos : pos i < (nodes (hdr i)).entriesCount) :
    Checked nodes (D - (i + 1)) (child (cur nodes hdr pos i)) := by
  refine hw.checkedAhead hi _ ?_
  rw [List.drop_eq_getElem_cons (by rwa [length_entries]), getElem_entries]
  exact List.mem_cons_self

/-- **A walk goes down to the child at its position, and may start there at any position.** -/
theorem Walking.down (hw : Walking nodes hdr pos D i) (hi : i < D)
    (hpos : pos i < (nodes (hdr i)).entriesCount) (hh : ∀ j, j ≤ i → hdr' j = hdr j)
    (hp : ∀ j, j ≤ i → pos' j = pos j) (hnext : hdr' (i + 1) = child (cur nodes hdr pos i)) :
    Walking nodes hdr' pos' D (i + 1) ∧
      (hdr' (i + 1) :: pending nodes hdr' pos' D (i + 1)).Sublist (pending nodes hdr pos D i) := by
  have hafter : ∀ j, j ≤ i → after nodes hdr' pos' j = after nodes hdr pos j := fun j hj => by
    unfold after
    rw [hh j hj, hp j hj]
  have hsub : (hdr' (i + 1) :: pending nodes hdr' pos' D (i + 1)).Sublist
      (pending nodes hdr pos D i) := by
    rw [pending, pending, ahead_cur hi hpos, beside, hafter i le_rfl, ← hnext, ← List.cons_append,
      beside_congr (fun j hj => hafter j (by omega)) (fun _ _ => rfl), List.append_assoc]
    exact (child_ahead_sublist hi).append_right _
  have hchild : Checked nodes (D - (i + 1)) (hdr' (i + 1)) := by
    rw [hnext]
    exact hw.child_checked hi hpos
  refine ⟨⟨by omega, fun j hj => ?_, fun j hj => ?_, fun j hj => ?_, fun hi' => ?_, ?_⟩, hsub⟩
  · rw [hh j (by omega), hp j (by omega)]
    rcases Nat.eq_or_lt_of_le (show j ≤ i by omega) with rfl | hji
    · exact hpos
    · exact hw.valid j hji
  · rcases Nat.eq_or_lt_of_le hj with rfl | hj
    · exact hchild.node.width
    · rw [hh j (by omega)]
      exact hw.width j (by omega)
  · rw [hafter j (by omega)]
    rcases Nat.eq_or_lt_of_le (show j ≤ i by omega) with rfl | hji
    · intro ix hix
      refine hw.checkedAhead hi ix ?_
      rw [List.drop_eq_getElem_cons (by rwa [length_entries])]
      exact List.mem_cons_of_mem _ hix
    · exact hw.checkedBeside j hji
  · intro ix hix
    rw [show D - (i + 1) = D - (i + 1 + 1) + 1 by omega] at hchild
    exact hchild.2 ix (List.mem_of_mem_drop hix)
  · rw [hdrs_last, List.append_assoc, List.singleton_append,
      hdrs_congr fun j hj => hh j (by omega)]
    exact hw.nodup.sublist (hsub.append_left _)

/-- **A walk goes up to a level that has got past its child.** -/
theorem Walking.up (hw : Walking nodes hdr pos D (i + 1))
    (hpass : Passed nodes nodes' hdr hdr' pos pos' i) :
    Walking nodes' hdr' pos' D i ∧
      (pending nodes' hdr' pos' D i).Sublist (pending nodes hdr pos D (i + 1)) := by
  have hi : i < D := hw.le
  have hsame : ∀ r ∈ beside nodes hdr pos D (i + 1), nodes' r = nodes r := fun r hr =>
    hpass.off r fun j hj => hw.pending_off (List.mem_append_right _ hr) hj
  have hafter : ∀ j, j < i → after nodes' hdr' pos' j = after nodes hdr pos j := fun j hj => by
    unfold after
    rw [hpass.header j (by omega), hpass.position j hj]
    exact (hpass.keys j hj).drop
  have hat := hpass.past
  rw [← hpass.header i le_rfl] at hat
  have hsub : (pending nodes' hdr' pos' D i).Sublist (pending nodes hdr pos D (i + 1)) := by
    have hpend : pending nodes' hdr' pos' D i = beside nodes hdr pos D (i + 1) := by
      rw [pending, ahead, if_pos hi, hat, beside_congr hafter fun r hr =>
        hsame r (List.mem_append_right _ hr),
        refsOf_congr fun r hr => hsame r (List.mem_append_left _ hr)]
      rfl
    rw [hpend]
    exact List.sublist_append_right _ _
  refine ⟨⟨by omega, fun j hj => ?_, fun j hj => ?_, fun j hj => ?_, fun _ => ?_, ?_⟩, hsub⟩
  · rw [hpass.header j (by omega), hpass.position j hj, (hpass.keys j hj).entries]
    exact hw.valid j (by omega)
  · rw [hpass.header j hj]
    rcases Nat.eq_or_lt_of_le hj with rfl | hji
    · exact lt_of_le_of_lt hpass.count (hw.width j (by omega))
    · rw [(hpass.keys j hji).entries]
      exact hw.width j (by omega)
  · rw [hafter j hj]
    exact checkedAll_congr (fun r hr => hsame r (mem_beside (by omega) hr))
      (hw.checkedBeside j (by omega))
  · rw [hat]
    exact checkedAll_congr (fun r hr => hsame r (mem_beside (j := i) (by omega) hr))
      (hw.checkedBeside i (by omega))
  · have hnd := hw.nodup
    rw [hdrs_last] at hnd
    rw [hdrs_congr fun j hj => hpass.header j (by omega)]
    exact hnd.sublist ((List.sublist_append_left _ _).append hsub)

end

end Ext4Fsd.Extent.Pending
