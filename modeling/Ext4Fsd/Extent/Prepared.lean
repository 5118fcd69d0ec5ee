import Ext4Fsd.Extent.SplitRun

/-! # Ready for an insertion

`Ready` is what an insertion needs of the tree and the path: the tree is sound along the path, and
the path leads to a leaf where the new extent may go. A lookup of its first block leads to such a
state (`ready_of_reached`). The rest of the module is what a full leaf then comes to: which levels
are split, and that the level above them takes the new entry. -/

namespace Ext4Fsd.Extent.Prepared

open Ext4Fsd.Lib.Fallible Ext4Fsd.Lib.Intervals Ext4Fsd.Extent.Layout Ext4Fsd.Extent.Store
open Ext4Fsd.Extent.Search Ext4Fsd.Extent.Insert Ext4Fsd.Extent.Tree Ext4Fsd.Extent.Way
open Ext4Fsd.Extent.Found Ext4Fsd.Extent.Lookup Ext4Fsd.Extent.Keys Ext4Fsd.Extent.Focus
open Ext4Fsd.Extent.Split Ext4Fsd.Extent.Rejoin Ext4Fsd.Extent.SplitRun

/-- **The path of `s` leads to a leaf for `newext`.** -/
structure Ready (env : Env) (s : St) (hdr : ℕ → Hdr) (pos : ℕ → ℕ) (b : ℕ) (newext : Slot) :
    Prop where
  focused : Focused env s hdr pos b
  head : (leafNode s hdr).entriesCount ≠ 0 → ((leafNode s hdr).slots 0).firstBlock = b
  inc : Increasing (treeExts s)
  fresh : ∀ x ∈ treeExts s, x.firstBlock ≠ newext.firstBlock
  place : (leafNode s hdr).entriesCount ≠ 0 → b < newext.firstBlock ∨ leftExts s hdr pos = []
  next : ∀ q, pos (extDepth s) < q → q < (leafNode s hdr).entriesCount →
    newext.firstBlock < ((leafNode s hdr).slots q).firstBlock
  /-- The way to a full leaf is that of a lookup. -/
  closest : (leafNode s hdr).entriesCount = (leafNode s hdr).maxEntriesCount →
    ∀ i, i < extDepth s → Closest (s.nodes (hdr i)) newext.firstBlock (pos i)

section
variable {env : Env} {s t : St} {hdr : ℕ → Hdr} {pos : ℕ → ℕ} {b i m n : ℕ} {newext : Slot}

/-- A lookup makes the tree sound along its path. -/
theorem focused_of_reached (hr : Reached s b hdr pos) (hsh : Shaped env s) :
    Focused env s hdr pos ((leafNode s hdr).slots 0).firstBlock := by
  have hroot := hr.path.root
  have hrefs := refs_spine (g := 0) hr.onPath
  rw [hroot, Nat.zero_add] at hrefs
  rcases hsh.shape with hs | ⟨hh, hnil⟩
  · have hs' : Sub env s.nodes (0 + extDepth s) (hdr 0) := by rwa [hroot, Nat.zero_add]
    obtain ⟨h1, h2, h3⟩ := spine_open hr.onPath hs'
    have hpos := h3.entriesCount_pos
    have hent : exts s.nodes 0 (hdr (0 + extDepth s)) = (leafNode s hdr).slots 0 ::
        (leafNode s hdr).entries.drop 1 := by
      rw [exts, Nat.zero_add]
      rw [Nat.zero_add] at hpos
      have := entries_split hpos
      rwa [List.take_zero, List.nil_append] at this
    obtain ⟨h4, h5⟩ := (keys_iff h1 hent).mp h2
    rw [Nat.zero_add] at hpos h3
    exact ⟨hr.path, h1, h3.header, fun h0 => (hr.leaf h0).lt, h4, fun _ => h5,
      hrefs.nodup_iff.mp hsh.nodup, fun c hc => hsh.used c (hrefs.mem_iff.mpr hc)⟩
  · have hD : extDepth s = 0 := hh.depth
    refine ⟨hr.path, ?_, ?_, fun h0 => (hr.leaf h0).lt, ?_, fun _ => ?_,
      hrefs.nodup_iff.mp hsh.nodup, fun c hc => hsh.used c (hrefs.mem_iff.mpr hc)⟩ <;> rw [hD]
    · trivial
    · rw [hroot]
      exact hh
    · trivial
    · trivial

/-- **A lookup of its first block makes the tree ready for an extent.** -/
theorem ready_of_reached (hr : Reached s newext.firstBlock hdr pos) (hsh : Shaped env s)
    (hfresh : ∀ x ∈ treeExts s, x.firstBlock ≠ newext.firstBlock) :
    Ready env s hdr pos ((leafNode s hdr).slots 0).firstBlock newext := by
  have hf := focused_of_reached hr hsh
  refine ⟨hf, fun _ => rfl, hsh.inc, hfresh, fun h0 => ?_, fun q h1 h2 =>
    (hr.leaf (Nat.ne_zero_of_lt h2)).after q h1 h2, fun _ i hi => hr.closest i hi⟩
  have hslot : (leafNode s hdr).slots 0 ∈ treeExts s := hf.slot_mem (Nat.pos_of_ne_zero h0)
  have hent : exts s.nodes 0 (hdr (0 + extDepth s)) = (leafNode s hdr).slots 0 ::
      (leafNode s hdr).entries.drop 1 := by
    rw [exts, Nat.zero_add]
    have := entries_split (Nat.pos_of_ne_zero h0)
    rwa [List.take_zero, List.nil_append] at this
  have hkeys := (keys_iff hf.spine hent).mpr ⟨hf.keysLeft, hf.keysFocus h0⟩
  have hinc : Increasing (exts s.nodes (0 + extDepth s) (hdr 0)) := by
    rw [hr.path.root, Nat.zero_add]
    exact hsh.inc
  obtain ⟨-, hl⟩ := closest_way hf.spine hkeys hinc hent fun i _ hi => hr.closest i (by omega)
  rcases hl with hl | hl
  · exact Or.inr hl
  · exact Or.inl (lt_of_le_of_ne hl (hfresh _ hslot))

theorem Ready.nonempty (hr : Ready env s hdr pos b newext)
    (hfull : (leafNode s hdr).entriesCount = (leafNode s hdr).maxEntriesCount) :
    (leafNode s hdr).entriesCount ≠ 0 := by
  rw [hfull]
  exact Nat.ne_of_gt hr.focused.leaf.max_pos

/-- With a leaf that is not empty the tree has its shape. -/
theorem Ready.sub (hr : Ready env s hdr pos b newext) (h0 : (leafNode s hdr).entriesCount ≠ 0) :
    Sub env s.nodes (extDepth s) .inode := by
  refine hr.focused.sub ?_
  rw [head_entries (Nat.pos_of_ne_zero h0), Option.map_some, hr.head h0]

theorem Ready.shaped (hr : Ready env s hdr pos b newext) (h0 : (leafNode s hdr).entriesCount ≠ 0) :
    Shaped env s :=
  ⟨Or.inl (hr.sub h0), hr.inc, hr.focused.refs.nodup_iff.mpr hr.focused.nodup,
    fun c hc => hr.focused.used c (hr.focused.refs.mem_iff.mp hc)⟩

/-! ### The levels of a path -/

theorem fullLevels_spec (i : ℕ) : fullLevels s i ≤ i + 1 ∧
    (∀ l, l ≤ i → i < l + fullLevels s i → ¬ (s.nodes (s.path l).header).entriesCount <
      (s.nodes (s.path l).header).maxEntriesCount) ∧
    (fullLevels s i ≤ i → (s.nodes (s.path (i - fullLevels s i)).header).entriesCount <
      (s.nodes (s.path (i - fullLevels s i)).header).maxEntriesCount) := by
  induction i with
  | zero =>
    unfold fullLevels
    split_ifs with h
    · exact ⟨by omega, fun l h1 h2 => by omega, fun _ => h⟩
    · refine ⟨le_rfl, fun l h1 _ => ?_, fun h1 => by omega⟩
      obtain rfl : l = 0 := by omega
      exact h
  | succ i ih =>
    obtain ⟨h1, h2, h3⟩ := ih
    unfold fullLevels
    split_ifs with h
    · exact ⟨by omega, fun l h4 h5 => by omega, fun _ => h⟩
    · refine ⟨by omega, fun l h4 h5 => ?_, fun h4 => ?_⟩
      · rcases Nat.eq_or_lt_of_le h4 with rfl | h4
        · exact h
        · exact h2 l (by omega) (by omega)
      · rw [show i + 1 - (fullLevels s i + 1) = i - fullLevels s i by omega]
        exact h3 (by omega)

/-- The node of any level of the way. -/
theorem spine_level {nodes : Nodes} {g j : ℕ} (hs : Spine env nodes hdr pos g n j) (h1 : j ≤ i)
    (h2 : i < j + n) : HeaderOk env nodes (g + (j + n - i)) (hdr i) ∧
      pos i < (nodes (hdr i)).entriesCount := by
  induction n generalizing j with
  | zero => omega
  | succ n ih =>
    obtain ⟨hh, hlt, -, -, -, hrest⟩ := hs
    rcases Nat.eq_or_lt_of_le h1 with rfl | h1
    · rw [show g + (j + (n + 1) - j) = g + n + 1 by omega]
      exact ⟨hh, hlt⟩
    · rw [show j + (n + 1) - i = j + 1 + n - i by omega]
      exact ih hrest h1 (by omega)

/-- A node's entries fit a 16-bit count. -/
theorem max_lt (hsize : SizeOk env) {nodes : Nodes} {k : ℕ} {h : Hdr}
    (hh : HeaderOk env nodes k h) : (nodes h).maxEntriesCount < 2 ^ 16 := by
  have h1 := hh.max_le
  have h2 := hsize.2
  unfold capOf at h1
  unfold ext4ExtSpaceRoot ext4ExtSpaceBlock at h1
  cases h <;> dsimp only at h1 <;> omega

theorem level_header (hf : Focused env s hdr pos b) (hi : i ≤ extDepth s) :
    HeaderOk env s.nodes (extDepth s - i) (hdr i) := by
  rcases Nat.eq_or_lt_of_le hi with rfl | hi
  · rw [Nat.sub_self]
    exact hf.leaf
  · have := (spine_level hf.spine (Nat.zero_le i) (by omega)).1
    rwa [show 0 + (0 + extDepth s - i) = extDepth s - i by omega] at this

/-- The levels from `lo` to the leaf are full. -/
def FullFrom (s : St) (hdr : ℕ → Hdr) (lo : ℕ) : Prop :=
  ∀ l, lo ≤ l → l ≤ extDepth s →
    (s.nodes (hdr l)).entriesCount = (s.nodes (hdr l)).maxEntriesCount

theorem FullFrom.fullAt {lo : ℕ} (hfull : FullFrom s hdr lo) (hf : Focused env s hdr pos b)
    (hsize : SizeOk env) {l : ℕ} (h1 : lo ≤ l) (h2 : l ≤ extDepth s) :
    FullAt (s.nodes (hdr l)) (pos l) := by
  have hh := level_header hf h2
  have heq := hfull l h1 h2
  have hpos := hh.max_pos
  refine ⟨heq, ?_, heq ▸ max_lt hsize hh⟩
  rcases Nat.eq_or_lt_of_le h2 with rfl | h2
  · exact hf.pos_lt (by show (s.nodes _).entriesCount ≠ 0; omega)
  · exact (spine_level hf.spine (Nat.zero_le l) (by omega)).2

theorem FullFrom.splittable {lo : ℕ} (hfull : FullFrom s hdr lo) (hf : Focused env s hdr pos b)
    (hsize : SizeOk env) (hlo : 0 < lo) (hle : lo ≤ extDepth s) :
    Splittable env s hdr pos (extDepth s) lo (extDepth s) := by
  have hD := hfull.fullAt hf hsize hle le_rfl
  refine ⟨rfl, hlo, le_rfl, hf.path.root, hf.distinct, fun l hl c hc => ?_, fun l _ hl =>
    hf.path.header l hl, fun l _ hl => hf.heldAt hl, fun l _ _ hl => hf.path.index l hl,
    fun _ => ?_, fun l h1 h2 => hfull.fullAt hf hsize h1 h2, fun l _ h2 => level_header hf h2⟩
  · have hmem := @hdr_mem_wayRefs s hdr pos l hl
    rw [hc] at hmem
    exact (hf.used c hmem).1
  · have hlt := hD.lt
    rw [hf.path.leaf, if_neg (by omega)]

/-! ### The keys -/

/-- The keys of the way in one statement. -/
theorem Ready.keysHead (hr : Ready env s hdr pos b newext) :
    KeysHead s.nodes hdr pos 0 (extDepth s) 0 (leafNode s hdr).entries := by
  have hf := hr.focused
  refine keysHead_iff.mpr ⟨hf.keysLeft, fun e he => ?_⟩
  have h0 : (leafNode s hdr).entriesCount ≠ 0 := by
    intro h0
    rw [entries_eq_nil.mpr h0] at he
    simp at he
  rw [head_entries (Nat.pos_of_ne_zero h0), Option.mem_some_iff] at he
  rw [← he, hr.head h0]
  exact hf.keysFocus h0

theorem Ready.slots_lt (hr : Ready env s hdr pos b newext) {j : ℕ} (hij : i < j)
    (hj : j < (leafNode s hdr).entriesCount) :
    ((leafNode s hdr).slots i).firstBlock < ((leafNode s hdr).slots j).firstBlock := by
  have hinc := hr.inc
  rw [hr.focused.exts] at hinc
  have hleaf := (List.pairwise_append.mp (List.pairwise_append.mp hinc).1).2.1
  have h1 : i < (leafNode s hdr).entries.length := by rw [length_entries]; omega
  have h2 : j < (leafNode s hdr).entries.length := by rw [length_entries]; omega
  have := List.pairwise_iff_getElem.mp hleaf i j h1 h2 hij
  rwa [getElem_entries, getElem_entries] at this

/-- A key on the way is not above the leaf's first block, and it is that block when nothing lies
left of the leaf. -/
theorem Ready.key_le (hr : Ready env s hdr pos b newext) (h0 : (leafNode s hdr).entriesCount ≠ 0)
    (hi : i < extDepth s) :
    (cur s.nodes hdr pos i).firstBlock ≤ ((leafNode s hdr).slots 0).firstBlock ∧
      (leftExts s hdr pos = [] →
        (cur s.nodes hdr pos i).firstBlock = ((leafNode s hdr).slots 0).firstBlock) := by
  have hk := hr.keysHead i (by omega) (by omega)
  have hhead := head_entries (Nat.pos_of_ne_zero h0)
  have hsplit : leftExts s hdr pos = lefts s.nodes hdr pos (0 + (0 + extDepth s - (i + 1))) (i + 1)
      0 ++ lefts s.nodes hdr pos 0 (0 + extDepth s - (i + 1)) (i + 1) := by
    have := @lefts_split s.nodes hdr pos 0 (0 + extDepth s - (i + 1)) 0 (i + 1)
    rwa [show i + 1 + (0 + extDepth s - (i + 1)) = extDepth s by omega,
      show 0 + (i + 1) = i + 1 by omega] at this
  rcases hl : lefts s.nodes hdr pos 0 (0 + extDepth s - (i + 1)) (i + 1) with _ | ⟨y, L⟩
  · rw [hl, List.nil_append] at hk
    have := hk _ hhead
    exact ⟨this.ge, fun _ => this.symm⟩
  · rw [hl] at hk hsplit
    have hy := hk y rfl
    have hinc := hr.inc
    rw [hr.focused.exts, List.append_assoc] at hinc
    have hlt := (List.pairwise_append.mp hinc).2.2 y (by rw [hsplit]; simp)
      ((leafNode s hdr).slots 0) (List.mem_append_left _
        (mem_entries.mpr ⟨0, Nat.pos_of_ne_zero h0, rfl⟩))
    refine ⟨by omega, fun hnil => ?_⟩
    rw [hnil] at hsplit
    simp at hsplit

/-- The key of the new nodes lies beyond those on the way, unless the new extent lies before all
others. -/
theorem Ready.key_cases (hr : Ready env s hdr pos b newext) (hi : i < extDepth s)
    (hlt : pos (extDepth s) < (leafNode s hdr).entriesCount)
    (hfull : (leafNode s hdr).entriesCount = (leafNode s hdr).maxEntriesCount) :
    (cur s.nodes hdr pos i).firstBlock < keyOf (leafNode s hdr) (pos (extDepth s)) newext ∨
      (keyOf (leafNode s hdr) (pos (extDepth s)) newext < (cur s.nodes hdr pos i).firstBlock ∧
        pos (extDepth s) + 1 = (leafNode s hdr).maxEntriesCount ∧ leftExts s hdr pos = [] ∧
        newext.firstBlock < ((leafNode s hdr).slots 0).firstBlock) := by
  have h0 : (leafNode s hdr).entriesCount ≠ 0 := by omega
  obtain ⟨hle, heq⟩ := hr.key_le h0 hi
  unfold keyOf
  by_cases hlast : pos (extDepth s) + 1 = (leafNode s hdr).maxEntriesCount
  · rw [if_neg (not_not.mpr hlast)]
    have hb := hr.head h0
    have hslot : ((leafNode s hdr).slots 0).firstBlock ≠ newext.firstBlock :=
      hr.fresh _ (hr.focused.slot_mem (Nat.pos_of_ne_zero h0))
    rcases Nat.lt_or_ge ((leafNode s hdr).slots 0).firstBlock newext.firstBlock with hn | hn
    · exact Or.inl (by omega)
    · rcases hr.place h0 with h1 | h1
      · omega
      · have := heq h1
        exact Or.inr ⟨by omega, hlast, h1, by omega⟩
  · rw [if_pos hlast]
    have := hr.slots_lt (show 0 < pos (extDepth s) + 1 by omega) (by omega)
    exact Or.inl (by omega)

/-- **The level above the full ones takes the entry for the new nodes.** -/
theorem Ready.takes (hr : Ready env s hdr pos b newext) (hsize : SizeOk env) (hi : i < extDepth s)
    (hroom : (s.nodes (hdr i)).entriesCount < (s.nodes (hdr i)).maxEntriesCount)
    (hlt : pos (extDepth s) < (leafNode s hdr).entriesCount)
    (hfull : (leafNode s hdr).entriesCount = (leafNode s hdr).maxEntriesCount) :
    TakesIndex s hdr pos i (keyOf (leafNode s hdr) (pos (extDepth s)) newext) := by
  have hf := hr.focused
  refine ⟨hf.path.header i (by omega), hf.heldAt (by omega), hf.path.index i hi,
    (spine_level hf.spine (Nat.zero_le i) (by omega)).2, hroom,
    max_lt hsize (level_header hf (by omega)), ?_⟩
  have := hr.key_cases hi hlt hfull
  rcases this with h | ⟨h, -⟩ <;> exact fun heq => by
    rw [heq] at h
    exact lt_irrefl _ h

end

end Ext4Fsd.Extent.Prepared
