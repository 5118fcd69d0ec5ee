import Ext4Fsd.Extent.Keys

/-! # A tree with its leaf in hand

While an extent is put in, the tree is sound but for the leaf the path leads to: `Focused` says so,
with the key `b` that stands above the leaf where nothing lies left of it. A lookup on a well-formed
tree gives such a state (`Located.focused`), and with a leaf that starts at `b` the tree is
well-formed (`Focused.treeOk`). In between `Focused.update` carries it over a change of the leaf and
of keys on the way. -/

namespace Ext4Fsd.Extent.Focus

open Ext4Fsd.Lib.Fallible Ext4Fsd.Lib.Intervals Ext4Fsd.Extent.Layout Ext4Fsd.Extent.Store
open Ext4Fsd.Extent.Search Ext4Fsd.Extent.Tree Ext4Fsd.Extent.Way Ext4Fsd.Extent.Found
open Ext4Fsd.Extent.Lookup Ext4Fsd.Extent.Keys

/-- The nodes of the tree, read along the way. -/
def wayRefs (s : St) (hdr : ℕ → Hdr) (pos : ℕ → ℕ) : List Hdr :=
  hdrs hdr (extDepth s) 0 ++ sibRefs s.nodes hdr pos 0 (extDepth s) 0 ++ [hdr (extDepth s)]

/-- The leaf of the way. -/
abbrev leafNode (s : St) (hdr : ℕ → Hdr) : Node := s.nodes (hdr (extDepth s))

/-- **The tree of `s` is sound along its path, but for the contents of the leaf.** -/
structure Focused (env : Env) (s : St) (hdr : ℕ → Hdr) (pos : ℕ → ℕ) (b : ℕ) : Prop where
  path : PathTo s hdr pos (extDepth s)
  spine : Spine env s.nodes hdr pos 0 (extDepth s) 0
  leaf : HeaderOk env s.nodes 0 (hdr (extDepth s))
  pos_lt : (leafNode s hdr).entriesCount ≠ 0 →
    pos (extDepth s) < (leafNode s hdr).entriesCount
  keysLeft : KeysLeft s.nodes hdr pos 0 (extDepth s) 0
  keysFocus : (leafNode s hdr).entriesCount ≠ 0 →
    KeysFocus s.nodes hdr pos 0 b (extDepth s) 0
  nodup : (wayRefs s hdr pos).Nodup
  used : ∀ c, Hdr.block c ∈ wayRefs s hdr pos → s.used c = true ∧ c ≠ 0

/-- The extents left and right of the leaf. -/
abbrev leftExts (s : St) (hdr : ℕ → Hdr) (pos : ℕ → ℕ) : List Slot :=
  lefts s.nodes hdr pos 0 (extDepth s) 0

abbrev rightExts (s : St) (hdr : ℕ → Hdr) (pos : ℕ → ℕ) : List Slot :=
  rights s.nodes hdr pos 0 (extDepth s) 0

section
variable {env : Env} {s t : St} {hdr : ℕ → Hdr} {pos : ℕ → ℕ} {b : ℕ}

theorem hdr_mem_wayRefs {i : ℕ} (hi : i ≤ extDepth s) : hdr i ∈ wayRefs s hdr pos := by
  unfold wayRefs
  rcases Nat.eq_or_lt_of_le hi with rfl | hi
  · simp
  · rw [List.append_assoc]
    exact List.mem_append_left _ (mem_hdrs.mpr ⟨i, by omega, by omega, rfl⟩)

theorem hdrs_nodup {n j : ℕ} (h : (hdrs hdr n j).Nodup) :
    ∀ i l, j ≤ i → i < j + n → j ≤ l → l < j + n → hdr i = hdr l → i = l := by
  induction n generalizing j with
  | zero =>
    intro i l h1 h2
    omega
  | succ n ih =>
    rw [hdrs_succ, List.nodup_cons] at h
    obtain ⟨hj, hrest⟩ := h
    intro i l h1 h2 h3 h4 heq
    rcases Nat.eq_or_lt_of_le h1 with rfl | h1
    · rcases Nat.eq_or_lt_of_le h3 with rfl | h3
      · rfl
      · exact absurd (mem_hdrs.mpr ⟨l, h3, by omega, heq.symm⟩) hj
    · rcases Nat.eq_or_lt_of_le h3 with rfl | h3
      · exact absurd (mem_hdrs.mpr ⟨i, h1, by omega, heq⟩) hj
      · exact ih hrest i l h1 (by omega) h3 (by omega) heq

/-- The nodes on the way and the leaf all differ. -/
theorem Focused.distinct (hf : Focused env s hdr pos b) : Distinct hdr (extDepth s + 1) := by
  have hnd := hf.nodup
  unfold wayRefs at hnd
  obtain ⟨h1, -, h3⟩ := List.nodup_append.mp hnd
  have hway := hdrs_nodup (List.nodup_append.mp h1).1
  have hleaf : ∀ i, i < extDepth s → hdr i ≠ hdr (extDepth s) := fun i hi =>
    h3 _ (List.mem_append_left _ (mem_hdrs.mpr ⟨i, by omega, by omega, rfl⟩)) _ (by simp)
  intro i l hi hl heq
  rcases Nat.eq_or_lt_of_le (show i ≤ extDepth s by omega) with rfl | hi'
  · rcases Nat.eq_or_lt_of_le (show l ≤ extDepth s by omega) with rfl | hl'
    · rfl
    · exact absurd heq.symm (hleaf l hl')
  · rcases Nat.eq_or_lt_of_le (show l ≤ extDepth s by omega) with rfl | hl'
    · exact absurd heq (hleaf i hi')
    · exact hway i l (by omega) (by omega) (by omega) (by omega) heq

/-- No node beside the way is on it. -/
theorem Focused.sib_ne (hf : Focused env s hdr pos b) :
    ∀ r ∈ sibRefs s.nodes hdr pos 0 (extDepth s) 0, ∀ i, i ≤ extDepth s → r ≠ hdr i := by
  intro r hr i hi
  have hnd := hf.nodup
  unfold wayRefs at hnd
  obtain ⟨h1, -, h3⟩ := List.nodup_append.mp hnd
  rcases Nat.eq_or_lt_of_le hi with rfl | hi
  · exact h3 r (List.mem_append_right _ hr) _ (by simp)
  · exact ((List.nodup_append.mp h1).2.2 _ (mem_hdrs.mpr ⟨i, by omega, by omega, rfl⟩) r hr).symm

theorem Focused.heldAt (hf : Focused env s hdr pos b) {i : ℕ} (hi : i ≤ extDepth s) :
    HeldAt (s.path i) := by
  unfold HeldAt
  rw [hf.path.header i hi]
  by_cases h0 : i = 0
  · rw [h0]
    exact Or.inl ⟨hf.path.root, hf.path.rootBlock⟩
  · have hheld := hf.path.held i (by omega) hi
    refine Or.inr ⟨hheld, ?_⟩
    have := @hdr_mem_wayRefs s hdr pos i hi
    rw [hheld] at this
    exact (hf.used _ this).2

theorem Focused.onWay (hf : Focused env s hdr pos b) : OnWay s hdr pos (extDepth s) := fun i hi =>
  ⟨hf.path.header i (by omega), hf.path.index i hi, hf.heldAt (by omega)⟩

/-- The extents of the tree around the leaf. -/
theorem Focused.exts (hf : Focused env s hdr pos b) :
    treeExts s = leftExts s hdr pos ++ (leafNode s hdr).entries ++ rightExts s hdr pos := by
  have h := exts_spine (g := 0) hf.spine.onPath
  rw [hf.path.root, Nat.zero_add] at h
  exact h

theorem Focused.slot_mem (hf : Focused env s hdr pos b) {q : ℕ}
    (hq : q < (leafNode s hdr).entriesCount) : (leafNode s hdr).slots q ∈ treeExts s := by
  rw [hf.exts]
  exact List.mem_append_left _ (List.mem_append_right _ (mem_entries.mpr ⟨q, hq, rfl⟩))

theorem Focused.refs (hf : Focused env s hdr pos b) : (treeRefs s).Perm (wayRefs s hdr pos) := by
  have h := refs_spine (g := 0) hf.spine.onPath
  rw [hf.path.root, Nat.zero_add] at h
  exact h

/-- With a leaf that starts at the key above it all keys on the way are exact. -/
theorem Focused.keys (hf : Focused env s hdr pos b)
    (hb : (leafNode s hdr).entries.head?.map Slot.firstBlock = some b) :
    Keys s.nodes hdr pos 0 (extDepth s) 0 := by
  rcases he : (leafNode s hdr).entries with _ | ⟨e, es⟩
  · rw [he] at hb
    simp at hb
  rw [he] at hb
  simp only [List.head?_cons, Option.map_some, Option.some.injEq] at hb
  have hg : Tree.exts s.nodes 0 (hdr (0 + extDepth s)) = e :: es := by
    rw [Nat.zero_add]
    exact he
  refine (keys_iff hf.spine hg).mpr ⟨hf.keysLeft, hb ▸ hf.keysFocus fun h0 => ?_⟩
  rw [entries_eq_nil.mpr h0] at he
  simp at he

/-- And the tree has its shape. -/
theorem Focused.sub (hf : Focused env s hdr pos b)
    (hb : (leafNode s hdr).entries.head?.map Slot.firstBlock = some b) :
    Sub env s.nodes (extDepth s) .inode := by
  have hsub := spine_close hf.spine (hf.keys hb)
    (show Sub env s.nodes 0 (hdr (0 + extDepth s)) by
      rw [Nat.zero_add]
      refine ⟨hf.leaf, fun h => ?_⟩
      rw [h] at hb
      simp at hb)
  rwa [hf.path.root, Nat.zero_add] at hsub

/-- **With a leaf that starts at the key above it the tree is well-formed.** -/
theorem Focused.treeOk (hf : Focused env s hdr pos b)
    (hb : (leafNode s hdr).entries.head?.map Slot.firstBlock = some b)
    (hok : ∀ ex ∈ treeExts s, ExtOk ex) (hs : Sorted (treeExts s)) : TreeOk env s :=
  ⟨Or.inl (hf.sub hb), hok, hs, hf.refs.nodup_iff.mpr hf.nodup,
    fun c hc => hf.used c (hf.refs.mem_iff.mp hc)⟩

/-! ### Changing the leaf and the keys -/

/-- What a new set of nodes has in common with the tree of `s` along the way. -/
structure Along (env : Env) (s : St) (nodes : Nodes) (hdr : ℕ → Hdr) (pos : ℕ → ℕ) : Prop where
  spine : Spine env nodes hdr pos 0 (extDepth s) 0
  lefts : lefts nodes hdr pos 0 (extDepth s) 0 = leftExts s hdr pos
  rights : rights nodes hdr pos 0 (extDepth s) 0 = rightExts s hdr pos
  sibRefs : sibRefs nodes hdr pos 0 (extDepth s) 0 = sibRefs s.nodes hdr pos 0 (extDepth s) 0
  keysLeft : KeysLeft nodes hdr pos 0 (extDepth s) 0
  /-- The root keeps its depth unless it is the leaf. -/
  depth : 0 < extDepth s → (nodes .inode).depth = extDepth s

/-- The leaf may be anything. -/
theorem Focused.along_leaf (hf : Focused env s hdr pos b) (eh : Node) :
    Along env s (Function.update s.nodes (hdr (extDepth s)) eh) hdr pos ∧
      ((leafNode s hdr).entriesCount ≠ 0 →
        KeysFocus (Function.update s.nodes (hdr (extDepth s)) eh) hdr pos 0 b (extDepth s) 0) := by
  have hd := hf.distinct
  have hne : ∀ i, i < extDepth s →
      Function.update s.nodes (hdr (extDepth s)) eh (hdr i) = s.nodes (hdr i) := fun i hi =>
    Function.update_of_ne (hd.ne (by omega) (by omega) (by omega)) _ _
  have hway : ∀ i, 0 ≤ i → i < 0 + extDepth s → SameBeside (s.nodes (hdr i))
      (Function.update s.nodes (hdr (extDepth s)) eh (hdr i)) (pos i) := fun i _ hi => by
    rw [hne i (by omega)]
    exact .refl _ _
  have hsib : ∀ r ∈ Way.sibRefs s.nodes hdr pos 0 (extDepth s) 0,
      Function.update s.nodes (hdr (extDepth s)) eh r = s.nodes r := fun r hr =>
    Function.update_of_ne (hf.sib_ne r hr _ le_rfl) _ _
  obtain ⟨h1, h2, h3, h4⟩ := spine_update hf.spine hway hsib
  refine ⟨⟨h1, h2, h3, h4, keysLeft_congr hf.spine hway hsib (fun i _ hi _ => ?_) hf.keysLeft,
    fun h0 => ?_⟩, fun h0 => (keysFocus_iff h1).mpr fun i h5 hi hl => ?_⟩
  · unfold cur
    rw [hne i (by omega)]
  · rw [← hf.path.root, hne 0 h0, hf.path.root]
    rfl
  · unfold cur
    rw [hne i (by omega)]
    exact (keysFocus_iff hf.spine).mp (hf.keysFocus h0) i h5 hi hl

/-- The keys may be handed up from a leaf that starts at `border`. -/
theorem Along.rekey {nodes : Nodes} {border : ℕ} (ha : Along env s nodes hdr pos)
    (hf : Focused env s hdr pos b) :
    Along env s (rekey hdr pos border (extDepth s) nodes) hdr pos ∧
      KeysFocus (Keys.rekey hdr pos border (extDepth s) nodes) hdr pos 0 border (extDepth s) 0 := by
  have hd := hf.distinct.mono (show extDepth s ≤ extDepth s + 1 by omega)
  obtain ⟨h1, h2, h3, h4, h5, h6⟩ := @spine_rekey env nodes hdr pos border
    (extDepth s) 0 ha.spine hd (fun r hr i hi => hf.sib_ne r (ha.sibRefs ▸ hr) i (by omega))
    ha.keysLeft
  refine ⟨⟨h1, h2.trans ha.lefts, h3.trans ha.rights, h4.trans ha.sibRefs, h5, fun h0 => ?_⟩, h6⟩
  rw [← hf.path.root, (rekey_same hd h0).depth, hf.path.root]
  exact ha.depth h0

/-- **A state whose nodes go along with the tree of `s` is focused as well.** -/
theorem Along.focused {b' x : ℕ} (ha : Along env s t.nodes hdr pos)
    (hk : KeysFocus t.nodes hdr pos 0 b' (extDepth s) 0) (hf : Focused env s hdr pos b)
    (hleaf : HeaderOk env t.nodes 0 (hdr (extDepth s)))
    (hpath : ∀ i, i ≠ extDepth s → t.path i = s.path i)
    (hhdr : (t.path (extDepth s)).header = hdr (extDepth s))
    (hblock : (t.path (extDepth s)).block = (s.path (extDepth s)).block)
    (hdepth : (t.path (extDepth s)).depth = (s.path (extDepth s)).depth)
    (hext : (t.path (extDepth s)).extent = some x)
    (hlt : x < (t.nodes (hdr (extDepth s))).entriesCount) (hlive : t.pathLive = s.pathLive)
    (hused : t.used = s.used) :
    extDepth t = extDepth s ∧ Focused env t hdr (Function.update pos (extDepth s) x) b' ∧
      leftExts t hdr (Function.update pos (extDepth s) x) = leftExts s hdr pos ∧
      rightExts t hdr (Function.update pos (extDepth s) x) = rightExts s hdr pos ∧
      wayRefs t hdr (Function.update pos (extDepth s) x) = wayRefs s hdr pos := by
  have hD : extDepth t = extDepth s := by
    rcases Nat.eq_zero_or_pos (extDepth s) with h0 | h0
    · have := hleaf.depth
      rw [h0, hf.path.root] at this
      rw [h0]
      exact this
    · exact ha.depth h0
  have hp : ∀ i, 0 ≤ i → i < 0 + extDepth s →
      Function.update pos (extDepth s) x i = pos i := fun i _ hi =>
    Function.update_of_ne (by omega) _ _
  obtain ⟨h1, h2, h3, -⟩ := @reads_congr t.nodes hdr pos 0 (extDepth s) 0 hdr _
    (fun i _ _ => rfl) hp
  obtain ⟨k1, k2⟩ := @keys_congr t.nodes hdr pos 0 (extDepth s) 0 hdr _ b'
    (fun i _ _ => rfl) hp
  have hrefs : wayRefs t hdr (Function.update pos (extDepth s) x) = wayRefs s hdr pos := by
    unfold wayRefs
    rw [hD, h3, ha.sibRefs]
  refine ⟨hD, ⟨⟨by rw [hlive]; exact hf.path.live, ?_, ?_, ?_, hf.path.root, ?_, ?_, ?_, ?_⟩, ?_,
    by rwa [hD], ?_, ?_, ?_, by rw [hrefs]; exact hf.nodup, ?_⟩, ?_, ?_, hrefs⟩
  · intro i hi
    rw [hD] at hi
    by_cases h : i = extDepth s
    · rw [h, hhdr]
    · rw [hpath i h, hf.path.header i hi]
  · intro i hi
    rw [hD] at hi
    rw [hpath i (by omega), hf.path.index i hi, hp i (by omega) (by omega)]
  · intro i hi
    rw [hD] at hi ⊢
    by_cases h : i = extDepth s
    · rw [h, hdepth, hf.path.depth _ le_rfl]
    · rw [hpath i h, hf.path.depth i hi]
  · by_cases h : 0 = extDepth s
    · rw [h, hblock, ← h, hf.path.rootBlock]
    · rw [hpath 0 h, hf.path.rootBlock]
  · intro i h0 hi
    rw [hD] at hi
    rw [hf.path.held i h0 hi]
    by_cases h : i = extDepth s
    · rw [h, hblock]
    · rw [hpath i h]
  · intro i hi
    rw [hD] at hi
    rw [hpath i (by omega), hf.path.beyond i hi]
  · rw [hD, hext, if_neg (by omega), Function.update_self]
  · rw [hD]
    exact (spine_congr_way (fun i _ _ => rfl) hp).mpr ha.spine
  · intro _
    rw [leafNode, hD, Function.update_self]
    exact hlt
  · rw [hD]
    exact k1.mpr ha.keysLeft
  · intro _
    rw [hD]
    exact k2.mpr hk
  · rw [hrefs, hused]
    exact hf.used
  · rw [leftExts, hD, h1]
    exact ha.lefts
  · rw [rightExts, hD, h2]
    exact ha.rights

end

end Ext4Fsd.Extent.Focus
