import Ext4Fsd.Extent.Passing

/-! # The keys on the path

While a removal is under way, the key at the cursor of each level is the first key of the node below
it (`LinkedAt`), also when that node has just lost all its entries and its first key is what was
left there. `ext4_ext_remove_idx` and `ext4_ext_correct_indexes` put the keys right in this sense
after they have been wrong at the lowest level (`removeIdxLoop_links`, `correctIndexes_links`). -/

namespace Ext4Fsd.Extent.Linked

open Ext4Fsd.Lib.Fallible Ext4Fsd.Extent.Layout Ext4Fsd.Extent.Store Ext4Fsd.Extent.Insert
open Ext4Fsd.Extent.Remove Ext4Fsd.Extent.Tree Ext4Fsd.Extent.Way Ext4Fsd.Extent.Keys
open Ext4Fsd.Extent.Pending Ext4Fsd.Extent.Passing

/-- The first key of the node at level `j` of the path, whether the entry is valid or not. -/
def firstKey (s : St) (j : ℕ) : ℕ := ((s.nodes (headerAt s j)).slots 0).firstBlock

/-- The key at the cursor of level `j` is the first key of the node below. -/
def LinkedAt (s : St) (j : ℕ) : Prop :=
  (cur s.nodes (headerAt s) (cursorAt s) j).firstBlock = firstKey s (j + 1)

/-- Only keys at the cursors of the first `n` levels have changed; nothing was freed. -/
structure Handed (s t : St) (n : ℕ) : Prop extends Touched s t n where
  used : t.used = s.used
  freed : t.freed = s.freed

section
variable {s t u : St} {n m k i j border : ℕ}

theorem Handed.refl (s : St) (n : ℕ) : Handed s s n := ⟨.refl s n, rfl, rfl⟩

theorem Handed.trans (h1 : Handed s t n) (h2 : Handed t u n) : Handed s u n :=
  ⟨h1.toTouched.trans h2.toTouched, h2.used.trans h1.used, h2.freed.trans h1.freed⟩

theorem Handed.mono (hs : Steady s m) (ht : Handed s t n) (hnm : n ≤ m) : Handed s t m := by
  refine ⟨⟨ht.path, fun j hj => ?_, fun h hne => ht.off h fun j hj => hne j (by omega)⟩, ht.used,
    ht.freed⟩
  by_cases hjn : j < n
  · exact ht.keys j hjn
  · rw [ht.off _ fun j' hj' => hs.distinct j j' (by omega) (by omega) (by omega)]
    exact .refl _ _

/-- Nodes of the path below the levels that were touched are what they were. -/
theorem Handed.below (hs : Steady s m) (ht : Handed s t n) (hj : n ≤ j) (hm : j ≤ m) :
    t.nodes (headerAt s j) = s.nodes (headerAt s j) :=
  ht.off _ fun j' hj' => hs.distinct j j' hm (by omega) (by omega)

theorem LinkedAt.congr (hl : LinkedAt s j) (hp : t.path = s.path)
    (hcur : (t.nodes (headerAt s j)).slots (cursorAt s j) =
      (s.nodes (headerAt s j)).slots (cursorAt s j))
    (hfirst : ((t.nodes (headerAt s (j + 1))).slots 0).firstBlock = firstKey s (j + 1)) :
    LinkedAt t j := by
  unfold LinkedAt firstKey cur at *
  rw [headerAt_congr hp, cursorAt_congr hp, hcur, hfirst]
  exact hl

/-- A link holds on when neither of its two nodes changes. -/
theorem LinkedAt.of_nodes (hl : LinkedAt s j) (hp : t.path = s.path)
    (h1 : t.nodes (headerAt s j) = s.nodes (headerAt s j))
    (h2 : t.nodes (headerAt s (j + 1)) = s.nodes (headerAt s (j + 1))) : LinkedAt t j :=
  hl.congr hp (by rw [h1]) (by rw [h2]; rfl)

/-- The two states agree but for the path from level `i` on, whose node is the same. -/
structure SameTo (s t : St) (i : ℕ) : Prop where
  nodes : t.nodes = s.nodes
  used : t.used = s.used
  freed : t.freed = s.freed
  header : ∀ j, j ≤ i → headerAt t j = headerAt s j
  index : ∀ j, j < i → (t.path j).index = (s.path j).index

theorem SameTo.cursor (h : SameTo s t i) (hj : j < i) : cursorAt t j = cursorAt s j := by
  unfold cursorAt
  rw [h.index j hj]

theorem SameTo.mono (h : SameTo s t i) (hj : j ≤ i) : SameTo s t j :=
  ⟨h.nodes, h.used, h.freed, fun k hk => h.header k (by omega), fun k hk => h.index k (by omega)⟩

theorem SameTo.trans (h1 : SameTo s t i) (h2 : SameTo t u i) : SameTo s u i :=
  ⟨h2.nodes.trans h1.nodes, h2.used.trans h1.used, h2.freed.trans h1.freed,
    fun j hj => (h2.header j hj).trans (h1.header j hj),
    fun j hj => (h2.index j hj).trans (h1.index j hj)⟩

theorem SameTo.linkedAt (h : SameTo s t i) (hj : j < i) (hl : LinkedAt s j) : LinkedAt t j := by
  unfold LinkedAt firstKey cur at *
  rw [h.nodes, h.cursor hj, h.header j (by omega), h.header (j + 1) (by omega)]
  exact hl

/-! ### One key -/

/-- The state with the key at the cursor of level `i` set. -/
abbrev keyed (s : St) (i border : ℕ) : St := keySet s (headerAt s) (cursorAt s) border i

theorem keyed_nodes : (keyed s i border).nodes = Function.update s.nodes (headerAt s i)
    (editSlot (s.nodes (headerAt s i)) (cursorAt s i) (withKey border)) := by
  simp [keySet]

theorem keyed_path : (keyed s i border).path = s.path := by
  simp [keySet]

theorem setKey_keyed (hs : Steady s n) (hi : i < n) :
    setKey i border s = (.ok (), keyed s i border) := by
  unfold setKey
  rw [get_bind, hs.index i hi, deref_some, pure_bind_apply, setSlot_bind]
  exact dirty_run

theorem keyed_handed (hs : Steady s n) (hi : i < n) : Handed s (keyed s i border) n := by
  obtain ⟨t, ht, htouch⟩ := @setKey_touched s n i border hs hi
  obtain rfl : keyed s i border = t := (Prod.mk.inj ((setKey_keyed hs hi).symm.trans ht)).2
  exact ⟨htouch, by simp [keySet], by simp [keySet]⟩

/-- Links that do not start or end at level `i` are kept. -/
theorem keyed_keeps (hs : Steady s n) (hi : i ≤ n) (hj : j + 1 ≤ n) (h1 : j ≠ i) (h2 : j + 1 ≠ i)
    (hl : LinkedAt s j) : LinkedAt (keyed s i border) j := by
  refine hl.of_nodes keyed_path ?_ ?_ <;> rw [keyed_nodes, Function.update_of_ne]
  · exact hs.distinct _ _ (by omega) hi h1
  · exact hs.distinct _ _ hj hi h2

/-- The link below the key that was set. -/
theorem keyed_links (hs : Steady s (i + 1)) (hb : border = firstKey s (i + 1)) :
    LinkedAt (keyed s i border) i := by
  have hne : headerAt s (i + 1) ≠ headerAt s i :=
    hs.distinct _ _ le_rfl (by omega) (by omega)
  unfold LinkedAt firstKey cur
  rw [headerAt_congr keyed_path, cursorAt_congr keyed_path, keyed_nodes, Function.update_self,
    Function.update_of_ne hne]
  simp [editSlot, withKey, hb, firstKey]

/-- The link above it, when the key was not the first one. -/
theorem keyed_above (hs : Steady s (i + 1)) (hj : j + 1 = i) (h0 : cursorAt s i ≠ 0)
    (hl : LinkedAt s j) : LinkedAt (keyed s i border) j := by
  subst hj
  refine hl.congr keyed_path ?_ ?_ <;> rw [keyed_nodes]
  · rw [Function.update_of_ne (hs.distinct _ _ (by omega) (by omega) (by omega))]
  · rw [Function.update_self]
    simp [editSlot, h0.symm, firstKey]

/-! ### Keys handed up -/

/-- **A key handed up from level `k` links all levels above.** -/
theorem handUp (hs : Steady s (k + 1)) (hb : border = firstKey s (k + 1))
    (hl : ∀ j, j < k → LinkedAt s j) :
    ∃ t, (setKey k border >>= fun _ => removeIdxLoop k) s = (.ok (), t) ∧ Handed s t (k + 1) ∧
      ∀ j, j ≤ k → LinkedAt t j := by
  induction k generalizing s border with
  | zero =>
    refine ⟨keyed s 0 border, bind_of_ok (setKey_keyed hs (by omega)),
      keyed_handed hs (by omega), fun j hj => ?_⟩
    rw [show j = 0 by omega]
    exact keyed_links hs hb
  | succ k ih =>
    have hk1 := @keyed_handed s _ _ border hs (show k + 1 < k + 1 + 1 by omega)
    have hs1 := hs.congr hk1.path
    have hkeep : ∀ j, j < k → LinkedAt (keyed s (k + 1) border) j := fun j hj =>
      keyed_keeps hs (by omega) (by omega) (by omega) (by omega) (hl j (by omega))
    have hlast := keyed_links hs hb
    rw [bind_of_ok (setKey_keyed hs (by omega)), removeIdxLoop, get_bind, keyed_path]
    by_cases h0 : (s.path (k + 1)).index ≠ some 0
    · rw [if_pos h0]
      have hc : cursorAt s (k + 1) ≠ 0 := fun hc => h0 (by rw [hs.index (k + 1) (by omega), hc])
      refine ⟨_, rfl, hk1, fun j hj => ?_⟩
      rcases Nat.lt_trichotomy j k with h | rfl | h
      · exact hkeep j h
      · exact keyed_above hs rfl hc (hl j (by omega))
      · rw [show j = k + 1 by omega]
        exact hlast
    · rw [if_neg h0]
      obtain ⟨t, ht, hk2, hlinks⟩ := @ih (keyed s (k + 1) border)
        (firstKey (keyed s (k + 1) border) (k + 1)) (hs1.mono (by omega)) rfl hkeep
      have hrun : ((s.path (k + 1)).header) = (((keyed s (k + 1) border).path (k + 1)).header) := by
        rw [keyed_path]
      rw [hrun]
      refine ⟨t, ht, hk1.trans (hk2.mono hs1 (by omega)), fun j hj => ?_⟩
      rcases Nat.eq_or_lt_of_le hj with rfl | hj
      · exact hlast.of_nodes hk2.path (hk2.below hs1 le_rfl (by omega))
          (hk2.below hs1 (by omega) le_rfl)
      · exact hlinks j (by omega)

/-- **`ext4_ext_remove_idx` hands a key up when the first entry went.** -/
theorem removeIdxLoop_links (hs : Steady s k) (hl : ∀ j, j + 1 < k → LinkedAt s j)
    (hlast : (s.path k).index = some 0 ∨ ∀ j, j + 1 = k → LinkedAt s j) :
    ∃ t, removeIdxLoop k s = (.ok (), t) ∧ Handed s t k ∧ ∀ j, j < k → LinkedAt t j := by
  rcases k with _ | k
  · exact ⟨s, rfl, .refl s 0, fun j hj => by omega⟩
  rw [removeIdxLoop, get_bind]
  by_cases h0 : (s.path (k + 1)).index ≠ some 0
  · rw [if_pos h0]
    refine ⟨s, rfl, .refl s _, fun j hj => ?_⟩
    rcases Nat.eq_or_lt_of_le (show j ≤ k by omega) with rfl | hj
    · exact hlast.resolve_left h0 j rfl
    · exact hl j (by omega)
  · rw [if_neg h0]
    obtain ⟨t, ht, hh, hlinks⟩ := @handUp s k (firstKey s (k + 1)) hs rfl fun j hj =>
      hl j (by omega)
    exact ⟨t, ht, hh, fun j hj => hlinks j (by omega)⟩

/-- The loop of `ext4_ext_correct_indexes` carries the key along that the other loop reads again. -/
theorem correctLoop_eq (hs : Steady s n) (hk : k < n)
    (hb : (s.path k).index = some 0 → firstKey s k = border) :
    correctLoop border k s = removeIdxLoop k s := by
  induction k generalizing s with
  | zero => rfl
  | succ k ih =>
    rw [correctLoop, removeIdxLoop, get_bind, get_bind]
    by_cases h0 : (s.path (k + 1)).index ≠ some 0
    · rw [if_pos h0, if_pos h0]
    · have hkey : ((s.nodes (s.path (k + 1)).header).slots 0).firstBlock = border :=
        hb (not_not.mp h0)
      rw [if_neg h0, if_neg h0, hkey, bind_of_ok (setKey_keyed hs (by omega)),
        bind_of_ok (setKey_keyed hs (by omega))]
      refine ih (hs.congr keyed_path) (by omega) fun hz => ?_
      rw [keyed_path] at hz
      unfold firstKey
      rw [headerAt_congr keyed_path, keyed_nodes, Function.update_self]
      simp [editSlot, withKey, cursorAt_of_index hz]

/-- **`ext4_ext_correct_indexes` hands the first key of a leaf up.** -/
theorem correctIndexes_links (hs : Steady s n) (hD : extDepth s = n)
    (hp : (s.path n).extent = some 0) (hl : ∀ j, j + 1 < n → LinkedAt s j) :
    ∃ t, ext4ExtCorrectIndexes s = (.ok (), t) ∧ Handed s t n ∧ ∀ j, j < n → LinkedAt t j := by
  unfold ext4ExtCorrectIndexes
  rw [get_bind, hD, hp]
  dsimp only
  rcases n with _ | k
  · exact ⟨s, rfl, .refl s 0, fun j hj => by omega⟩
  rw [if_neg (by omega), if_neg (by simp), Nat.add_sub_cancel]
  obtain ⟨t, ht, hh, hlinks⟩ := @handUp s k (firstKey s (k + 1)) hs rfl fun j hj => hl j (by omega)
  refine ⟨t, ?_, hh, fun j hj => hlinks j (by omega)⟩
  rw [← ht, bind_of_ok (setKey_keyed hs (by omega)), show
    ((s.nodes (s.path (k + 1)).header).slots 0).firstBlock = firstKey s (k + 1) from rfl,
    bind_of_ok (setKey_keyed hs (by omega))]
  refine correctLoop_eq (hs.congr keyed_path) (by omega) fun hz => ?_
  rw [keyed_path] at hz
  unfold firstKey
  rw [headerAt_congr keyed_path, keyed_nodes, Function.update_self]
  simp [editSlot, withKey, cursorAt_of_index hz]

end

end Ext4Fsd.Extent.Linked
