import Ext4Fsd.Extent.Remove
import Ext4Fsd.Extent.Lookup

/-! # Handing a key up

When the first entry of a node changes, its key in the node above changes too, and so on upwards
while the way takes first entries. `rekey` is that on the nodes; `rekey_run` says that
`ext4_ext_correct_indexes` does it. -/

namespace Ext4Fsd.Extent.Keys

open Ext4Fsd.Lib.Fallible Ext4Fsd.Extent.Layout Ext4Fsd.Extent.Store Ext4Fsd.Extent.Search
open Ext4Fsd.Extent.Insert Ext4Fsd.Extent.Tree Ext4Fsd.Extent.Way Ext4Fsd.Extent.Lookup

/-! ### On the nodes -/

def withKey (border : ℕ) (slot : Slot) : Slot := { slot with firstBlock := border }

/-- The keys on the way above level `k` are set to `border`, from below, while the way takes first
entries. -/
def rekey (hdr : ℕ → Hdr) (pos : ℕ → ℕ) (border : ℕ) : ℕ → Nodes → Nodes
  | 0, nodes => nodes
  | k + 1, nodes =>
    let nodes' := Function.update nodes (hdr k)
      (editSlot (nodes (hdr k)) (pos k) (withKey border))
    if pos k = 0 then rekey hdr pos border k nodes' else nodes'

section
variable {env : Env} {nodes : Nodes} {hdr : ℕ → Hdr} {pos : ℕ → ℕ} {border k i j n g : ℕ} {h : Hdr}

theorem rekey_other (hne : ∀ i, i < k → h ≠ hdr i) :
    rekey hdr pos border k nodes h = nodes h := by
  induction k generalizing nodes with
  | zero => rfl
  | succ k ih =>
    have hk := hne k (by omega)
    unfold rekey
    dsimp only
    by_cases h0 : pos k = 0
    · rw [if_pos h0, ih fun i hi => hne i (by omega), Function.update_of_ne hk]
    · rw [if_neg h0, Function.update_of_ne hk]

/-- The headers of the first `n` levels differ. -/
def Distinct (hdr : ℕ → Hdr) (n : ℕ) : Prop := ∀ i j, i < n → j < n → hdr i = hdr j → i = j

theorem Distinct.mono {m : ℕ} (hd : Distinct hdr n) (hm : m ≤ n) : Distinct hdr m :=
  fun i j hi hj => hd i j (by omega) (by omega)

theorem Distinct.ne (hd : Distinct hdr n) (hi : i < n) (hj : j < n) (hij : i ≠ j) :
    hdr i ≠ hdr j := fun h => hij (hd i j hi hj h)

theorem sameBeside_edit (eh : Node) (p : ℕ) :
    SameBeside eh (editSlot eh p (withKey border)) p := by
  refine ⟨rfl, rfl, rfl, rfl, fun q hq => ?_, ?_⟩
  · simp [editSlot, hq]
  · simp [editSlot, withKey, child, ext4IdxPblock]

/-- The lowest of the levels is always rewritten. -/
theorem rekey_self (hd : Distinct hdr (k + 1)) : rekey hdr pos border (k + 1) nodes (hdr k) =
    editSlot (nodes (hdr k)) (pos k) (withKey border) := by
  unfold rekey
  dsimp only
  by_cases h0 : pos k = 0
  · rw [if_pos h0, rekey_other fun l hl => hd.ne (by omega) (by omega) (show k ≠ l by omega),
      Function.update_self]
  · rw [if_neg h0, Function.update_self]

/-- The levels above it are rewritten as if it had been rewritten first. -/
theorem rekey_above (hd : Distinct hdr (k + 1)) (hi : i < k) :
    rekey hdr pos border (k + 1) nodes (hdr i) =
      if pos k = 0 then rekey hdr pos border k (Function.update nodes (hdr k)
        (editSlot (nodes (hdr k)) (pos k) (withKey border))) (hdr i) else nodes (hdr i) := by
  have hne : hdr i ≠ hdr k := hd.ne (by omega) (by omega) (by omega)
  rw [rekey]
  by_cases h0 : pos k = 0
  · rw [if_pos h0, if_pos h0]
  · rw [if_neg h0, if_neg h0, Function.update_of_ne hne]

theorem rekey_same (hd : Distinct hdr k) (hi : i < k) :
    SameBeside (nodes (hdr i)) (rekey hdr pos border k nodes (hdr i)) (pos i) := by
  induction k generalizing nodes with
  | zero => omega
  | succ k ih =>
    rcases Nat.eq_or_lt_of_le (show i ≤ k by omega) with rfl | hik
    · rw [rekey_self hd]
      exact sameBeside_edit _ _
    · have hne : hdr i ≠ hdr k := hd.ne (by omega) (by omega) (by omega)
      have hbelow := @ih (Function.update nodes (hdr k)
        (editSlot (nodes (hdr k)) (pos k) (withKey border))) (hd.mono (by omega)) hik
      rw [Function.update_of_ne hne] at hbelow
      rw [rekey_above hd hik]
      by_cases h0 : pos k = 0
      · rwa [if_pos h0]
      · rw [if_neg h0]
        exact .refl _ _

/-- Above a level that does not take its first entry nothing changes. -/
theorem rekey_stop (hd : Distinct hdr k) (hi : i < k) (hl : ∃ l, i < l ∧ l < k ∧ pos l ≠ 0) :
    rekey hdr pos border k nodes (hdr i) = nodes (hdr i) := by
  induction k generalizing nodes with
  | zero => omega
  | succ k ih =>
    obtain ⟨l, h1, h2, h3⟩ := hl
    have hne : hdr i ≠ hdr k := hd.ne (by omega) (by omega) (by omega)
    rw [rekey_above hd (by omega)]
    by_cases h0 : pos k = 0
    · have hlk : l ≠ k := fun h => h3 (h ▸ h0)
      rw [if_pos h0, ih (hd.mono (by omega)) (by omega) ⟨l, h1, by omega, h3⟩,
        Function.update_of_ne hne]
    · rw [if_neg h0]

/-- The key is set where all levels below take their first entries. -/
theorem rekey_key (hd : Distinct hdr k) (hi : i < k) (hl : ∀ l, i < l → l < k → pos l = 0) :
    (cur (rekey hdr pos border k nodes) hdr pos i).firstBlock = border := by
  induction k generalizing nodes with
  | zero => omega
  | succ k ih =>
    unfold cur
    rcases Nat.eq_or_lt_of_le (show i ≤ k by omega) with rfl | hik
    · rw [rekey_self hd]
      simp [editSlot, withKey]
    · rw [rekey_above hd hik, if_pos (hl k hik (by omega))]
      exact ih (hd.mono (by omega)) hik fun l h1 h2 => hl l h1 (by omega)

/-! ### Exact keys -/

/-- The keys that are not decided left of the focus are those above first entries. -/
theorem keysFocus_iff {b : ℕ} (hs : Spine env nodes hdr pos g n j) :
    KeysFocus nodes hdr pos g b n j ↔ ∀ i, j ≤ i → i < j + n →
      (∀ l, i < l → l < j + n → pos l = 0) → (cur nodes hdr pos i).firstBlock = b := by
  induction n generalizing j with
  | zero => exact ⟨fun _ i h1 h2 => by omega, fun _ => trivial⟩
  | succ n ih =>
    obtain ⟨-, -, -, -, -, hrest⟩ := hs
    rw [KeysFocus, ih hrest, lefts_eq_nil hrest]
    constructor
    · rintro ⟨hj, hbelow⟩ i h1 h2 hl
      rcases Nat.eq_or_lt_of_le h1 with rfl | h1
      · exact hj fun l h3 h4 => hl l (by omega) (by omega)
      · exact hbelow i h1 (by omega) fun l h3 h4 => hl l h3 (by omega)
    · intro hall
      exact ⟨fun hl => hall j le_rfl (by omega) fun l h1 h2 => hl l (by omega) (by omega),
        fun i h1 h2 hl => hall i (by omega) (by omega) fun l h3 h4 => hl l h3 (by omega)⟩

/-- Keys decided left of the focus stay exact when their nodes do not change. -/
theorem keysLeft_congr {nodes' : Nodes} (hs : Spine env nodes hdr pos g n j)
    (hway : ∀ i, j ≤ i → i < j + n → SameBeside (nodes (hdr i)) (nodes' (hdr i)) (pos i))
    (hsib : ∀ r ∈ sibRefs nodes hdr pos g n j, nodes' r = nodes r)
    (hstop : ∀ i, j ≤ i → i < j + n → (∃ l, i < l ∧ l < j + n ∧ pos l ≠ 0) →
      (cur nodes' hdr pos i).firstBlock = (cur nodes hdr pos i).firstBlock)
    (hk : KeysLeft nodes hdr pos g n j) : KeysLeft nodes' hdr pos g n j := by
  induction n generalizing j with
  | zero => trivial
  | succ n ih =>
    obtain ⟨-, -, -, -, -, hrest⟩ := hs
    obtain ⟨hj, hkrest⟩ := hk
    have hway' : ∀ i, j + 1 ≤ i → i < j + 1 + n →
        SameBeside (nodes (hdr i)) (nodes' (hdr i)) (pos i) := fun i h1 h2 =>
      hway i (by omega) (by omega)
    have hsib' : ∀ r ∈ sibRefs nodes hdr pos g n (j + 1), nodes' r = nodes r := fun r hr =>
      hsib r (by rw [sibRefs_succ]; simp [hr])
    refine ⟨fun e he => ?_, ih hrest hway' hsib' (fun i h1 h2 ⟨l, h3, h4, h5⟩ =>
      hstop i (by omega) (by omega) ⟨l, h3, by omega, h5⟩) hkrest⟩
    rw [(spine_update hrest hway' hsib').2.1] at he
    rw [hj e he, hstop j le_rfl (by omega)]
    by_contra hno
    have hnil : lefts nodes hdr pos g n (j + 1) = [] := (lefts_eq_nil hrest).mpr fun l h1 h2 => by
      by_contra hl
      exact hno ⟨l, by omega, by omega, hl⟩
    rw [hnil] at he
    simp at he

/-- **After the keys were handed up they are exact for a focus that starts at `border`.** -/
theorem spine_rekey (hs : Spine env nodes hdr pos g n 0) (hd : Distinct hdr n)
    (hsib : ∀ r ∈ sibRefs nodes hdr pos g n 0, ∀ i, i < n → r ≠ hdr i)
    (hk : KeysLeft nodes hdr pos g n 0) :
    let nodes' := rekey hdr pos border n nodes
    Spine env nodes' hdr pos g n 0 ∧ lefts nodes' hdr pos g n 0 = lefts nodes hdr pos g n 0 ∧
      rights nodes' hdr pos g n 0 = rights nodes hdr pos g n 0 ∧
      sibRefs nodes' hdr pos g n 0 = sibRefs nodes hdr pos g n 0 ∧
      KeysLeft nodes' hdr pos g n 0 ∧ KeysFocus nodes' hdr pos g border n 0 := by
  have hway : ∀ i, 0 ≤ i → i < 0 + n →
      SameBeside (nodes (hdr i)) (rekey hdr pos border n nodes (hdr i)) (pos i) := fun i _ hi =>
    rekey_same hd (by omega)
  have hsame : ∀ r ∈ sibRefs nodes hdr pos g n 0, rekey hdr pos border n nodes r = nodes r :=
    fun r hr => rekey_other (hsib r hr)
  obtain ⟨h1, h2, h3, h4⟩ := spine_update hs hway hsame
  refine ⟨h1, h2, h3, h4, keysLeft_congr hs hway hsame (fun i _ hi ⟨l, h5, h6, h7⟩ => ?_) hk,
    (keysFocus_iff h1).mpr fun i _ hi hl => ?_⟩
  · unfold cur
    rw [rekey_stop hd (by omega) ⟨l, h5, by omega, h7⟩]
  · exact rekey_key hd (by omega) fun l h5 h6 => hl l h5 (by omega)

/-! ### The functions that do it -/

/-- The first `n` entries of the path array follow the way. -/
def OnWay (s : St) (hdr : ℕ → Hdr) (pos : ℕ → ℕ) (n : ℕ) : Prop :=
  ∀ i, i < n → (s.path i).header = hdr i ∧ (s.path i).index = some (pos i) ∧ HeldAt (s.path i)

theorem OnWay.congr {s t : St} (hw : OnWay s hdr pos n) (hp : t.path = s.path) :
    OnWay t hdr pos n := by
  unfold OnWay
  rw [hp]
  exact hw

theorem OnWay.mono {s : St} {m : ℕ} (hw : OnWay s hdr pos n) (hm : m ≤ n) : OnWay s hdr pos m :=
  fun i hi => hw i (by omega)

/-- The state with the key of level `i` set. -/
def keySet (s : St) (hdr : ℕ → Hdr) (pos : ℕ → ℕ) (border i : ℕ) : St :=
  dirtied (s.setNode (hdr i) (editSlot (s.nodes (hdr i)) (pos i) (withKey border))) i

theorem setKey_run {s : St} (hw : OnWay s hdr pos n) (hi : i < n) :
    setKey i border s = (.ok (), keySet s hdr pos border i) := by
  obtain ⟨hh, hx, -⟩ := hw i hi
  unfold setKey
  rw [get_bind, hx, deref_some, pure_bind_apply, hh, setSlot_bind]
  exact dirty_run

theorem keySet_edits {s : St} (hw : OnWay s hdr pos n) (hi : i < n) :
    Edits s (keySet s hdr pos border i) := by
  obtain ⟨hh, -, hheld⟩ := hw i hi
  unfold keySet
  rw [← hh]
  exact edits_setNode hheld

theorem correctLoop_run {s : St} (hw : OnWay s hdr pos (k + 1)) :
    ∃ t, correctLoop border k s = (.ok (), t) ∧ Edits s t ∧
      t.nodes = if pos k = 0 then rekey hdr pos border k s.nodes else s.nodes := by
  induction k generalizing s with
  | zero =>
    refine ⟨s, rfl, .refl s, ?_⟩
    split <;> rfl
  | succ k ih =>
    unfold correctLoop
    rw [get_bind, (hw (k + 1) (by omega)).2.1]
    by_cases h0 : pos (k + 1) = 0
    · rw [if_neg (by simp [h0]), bind_of_ok (setKey_run hw (by omega))]
      have hed := @keySet_edits hdr pos border k (k + 1 + 1) s hw (by omega)
      obtain ⟨t, ht, hed', hn⟩ := ih (s := keySet s hdr pos border k)
        ((hw.mono (by omega)).congr hed.path)
      refine ⟨t, ht, hed.trans hed', ?_⟩
      rw [if_pos h0, hn]
      simp only [rekey, keySet, dirtied_nodes, setNode_nodes]
    · rw [if_neg h0, if_pos (by simpa using h0)]
      exact ⟨s, rfl, .refl s, rfl⟩

/-- The key of the level above the leaf, and the keys above it. -/
theorem rekey_run {s : St} (hw : OnWay s hdr pos (k + 1)) :
    ∃ t, (do setKey k border; correctLoop border k : Ext Unit) s = (.ok (), t) ∧ Edits s t ∧
      t.nodes = rekey hdr pos border (k + 1) s.nodes := by
  have hed := @keySet_edits hdr pos border k (k + 1) s hw (by omega)
  obtain ⟨t, ht, hed', hn⟩ := @correctLoop_run hdr pos border k _ (hw.congr hed.path)
  refine ⟨t, (bind_of_ok (setKey_run hw (by omega))).trans ht, hed.trans hed', ?_⟩
  rw [hn]
  simp only [rekey, keySet, dirtied_nodes, setNode_nodes]

/-- **`ext4_ext_correct_indexes` hands the leaf's first key up when the path points to the first
entry.** -/
theorem correctIndexes_run {s : St} {p : ℕ} (hD : extDepth s = n)
    (hp : (s.path n).extent = some p) (hw : OnWay s hdr pos n) :
    ∃ t, ext4ExtCorrectIndexes s = (.ok (), t) ∧ Edits s t ∧
      t.nodes = if p = 0 then
        rekey hdr pos ((s.nodes (s.path n).header).slots 0).firstBlock n s.nodes else s.nodes := by
  unfold ext4ExtCorrectIndexes
  rw [get_bind, hD, hp]
  dsimp only
  rcases n with _ | d
  · refine ⟨s, rfl, .refl s, ?_⟩
    split <;> rfl
  · rw [if_neg (by omega)]
    by_cases h0 : p = 0
    · subst h0
      rw [if_neg (by simp), if_pos rfl]
      exact rekey_run hw
    · rw [if_pos h0, if_neg h0]
      exact ⟨s, rfl, .refl s, rfl⟩

end

end Ext4Fsd.Extent.Keys
