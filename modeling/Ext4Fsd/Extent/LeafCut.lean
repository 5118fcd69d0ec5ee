import Ext4Fsd.Extent.InPlace
import Ext4Fsd.Extent.Mapping

/-! # Removing a range from one leaf

Of an extent a removal keeps the part before the range and the part behind it (`keep`), and it frees
the run between them (`gone`). `removeLeafLoop_cut` says that the loop of `ext4_ext_remove_leaf`
does this to the entries of a leaf from its cursor on, as long as everything lies below block 2^31
and at most the first extent starts before the range. -/

namespace Ext4Fsd.Extent.LeafCut

open Ext4Fsd.Lib.CInt Ext4Fsd.Lib.Fallible Ext4Fsd.Lib.Intervals Ext4Fsd.Extent.Layout
open Ext4Fsd.Extent.Store Ext4Fsd.Extent.Remove Ext4Fsd.Extent.Tree Ext4Fsd.Extent.Mapping
open Ext4Fsd.Extent.InPlace

/-- The blocks from `a` up to `c` of an extent, as an extent of their own. -/
def clip (ex : Slot) (a c : ℕ) : Slot :=
  let part := ext4ExtStorePblock ⟨a, c - a, 0, 0⟩ (physOf ex a)
  if ext4ExtIsUnwritten ex then ext4ExtMarkUnwritten part else part

/-- What is left of an extent outside of the range from `lo` to `hi`. -/
def keep (lo hi : ℕ) (ex : Slot) : List Slot :=
  (if ex.firstBlock < lo then [clip ex ex.firstBlock (min lo (extEnd ex))] else []) ++
    if hi + 1 < extEnd ex then [clip ex (max (hi + 1) ex.firstBlock) (extEnd ex)] else []

/-- The run of physical blocks that an extent has in the range. -/
def gone (lo hi : ℕ) (ex : Slot) : List (ℤ × ℤ) :=
  if ex.firstBlock ≤ hi ∧ lo < extEnd ex then
    [(physOf ex (max lo ex.firstBlock),
      (min (hi + 1) (extEnd ex) : ℕ) - (max lo ex.firstBlock : ℕ))]
  else []

/-- The block is in one of the runs. -/
def InRuns (runs : List (ℤ × ℤ)) (b : ℕ) : Prop := ∃ r ∈ runs, r.1 ≤ b ∧ (b : ℤ) < r.1 + r.2

/-- The node has the entries `l`, and the rest of its header from `eh`. -/
structure Refilled (eh eh' : Node) (l : List Slot) : Prop where
  magic : eh'.magic = eh.magic
  depth : eh'.depth = eh.depth
  max : eh'.maxEntriesCount = eh.maxEntriesCount
  entries : eh'.entries = l

instance (runs : List (ℤ × ℤ)) (b : ℕ) : Decidable (InRuns runs b) := by
  unfold InRuns
  infer_instance

/-- The runs are given back, one after the other. -/
def freeRuns (runs : List (ℤ × ℤ)) (s : St) : St :=
  { s with
    freed := s.freed ++ runs
    used := fun b => if InRuns runs b then false else s.used b }

/-- An extent that lies below block 2^31, where a signed block number is the number itself. -/
structure LowExt (ex : Slot) : Prop extends ExtOk ex where
  low : extEnd ex ≤ 2 ^ 31

section
variable {ex y : Slot} {l r : List Slot} {a b c lo hi n p st k : ℕ} {s t : St} {h : Hdr} {eh : Node}
  {runs runs' : List (ℤ × ℤ)}

/-! ### Parts of an extent -/

theorem or_top {m : ℕ} (hm : m < 2 ^ 15) : m ||| 2 ^ 15 = m + 2 ^ 15 := by
  have hsplit := Nat.two_pow_add_eq_or_of_lt hm 1
  rw [mul_one] at hsplit
  rw [Nat.or_comm, ← hsplit, Nat.add_comm]

theorem clip_self (hf : Fits ex) : clip ex ex.firstBlock (extEnd ex) = ex := by
  have hphys : physOf ex ex.firstBlock = ext4ExtPblock ex := by simp [physOf]
  have hlen : extEnd ex - ex.firstBlock = ext4ExtGetActualLen ex := by
    unfold extEnd
    omega
  unfold clip
  rw [hphys, hlen]
  dsimp only
  by_cases hu : ext4ExtIsUnwritten ex = true
  · obtain ⟨h1, h2, h3⟩ := actualLen_of_unwritten hf hu
    have hor : ext4ExtGetActualLen ex ||| extInitMaxLen = ext4ExtGetActualLen ex + extInitMaxLen :=
      or_top (by unfold extUnwrittenMaxLen extInitMaxLen at h2; omega)
    rw [if_pos hu]
    exact @extStore_self ex (ext4ExtMarkUnwritten ⟨ex.firstBlock, ext4ExtGetActualLen ex, 0, 0⟩) hf
      rfl (hor.trans h1.symm)
  · rw [if_neg hu]
    exact extStore_self hf rfl (actualLen_of_written (by simpa using hu))

/-- The length field of a part, with the mark of an unwritten extent. -/
theorem clip_blockCount (hac : c - a < 2 ^ 15 ∨ ext4ExtIsUnwritten ex = false) :
    (clip ex a c).blockCount = if ext4ExtIsUnwritten ex then c - a + 2 ^ 15 else c - a := by
  unfold clip
  by_cases hu : ext4ExtIsUnwritten ex = true
  · rw [if_pos hu, if_pos hu]
    rw [hu] at hac
    exact or_top (by simpa using hac)
  · rw [if_neg hu, if_neg hu]
    rfl

/-- **A part of an extent** has its blocks where the extent has them, in the same state. -/
theorem clip_spec (hex : ExtOk ex) (ha : ex.firstBlock ≤ a) (hac : a < c) (hc : c ≤ extEnd ex) :
    ExtOk (clip ex a c) ∧ (clip ex a c).firstBlock = a ∧ extEnd (clip ex a c) = c ∧
      ext4ExtIsUnwritten (clip ex a c) = ext4ExtIsUnwritten ex ∧
      ∀ n, a ≤ n → physOf (clip ex a c) n = physOf ex n := by
  have hlen := actualLen_le hex.fits
  have hphys := hex.physical
  have hlog := hex.logical
  have hend : extEnd ex = ex.firstBlock + ext4ExtGetActualLen ex := rfl
  have hstart : physOf ex a < 2 ^ 48 := by
    unfold physOf
    omega
  unfold extInitMaxLen at hlen
  -- the length field holds the length, and the mark of an unwritten extent
  have hcount : ext4ExtGetActualLen (clip ex a c) = c - a ∧
      ext4ExtIsUnwritten (clip ex a c) = ext4ExtIsUnwritten ex ∧
      (clip ex a c).blockCount < 2 ^ 16 := by
    by_cases hu : ext4ExtIsUnwritten ex = true
    · have hlt := (actualLen_of_unwritten hex.fits hu).2.1
      unfold extUnwrittenMaxLen extInitMaxLen at hlt
      have hbc := @clip_blockCount ex a c (Or.inl (by omega))
      rw [if_pos hu] at hbc
      rw [hu]
      unfold ext4ExtGetActualLen ext4ExtIsUnwritten extInitMaxLen
      rw [hbc, if_neg (by omega), decide_eq_true_eq]
      omega
    · have hbc := @clip_blockCount ex a c (Or.inr (by simpa using hu))
      rw [if_neg hu] at hbc
      rw [Bool.eq_false_of_not_eq_true hu]
      unfold ext4ExtGetActualLen ext4ExtIsUnwritten extInitMaxLen
      rw [hbc, if_pos (by omega), decide_eq_false_iff_not]
      omega
  have hp : ext4ExtPblock (clip ex a c) = physOf ex a := by
    rw [← @extPblock_store ⟨a, c - a, 0, 0⟩ _ hstart]
    unfold clip
    dsimp only
    split_ifs <;> rfl
  have hfirst : (clip ex a c).firstBlock = a := by
    unfold clip
    dsimp only
    split_ifs <;> rfl
  have hwords : (clip ex a c).startHi < 2 ^ 16 ∧ (clip ex a c).startLo < 2 ^ 32 := by
    have h1 : (clip ex a c).startHi = half ((physOf ex a : ℤ) / 2 ^ 32) ∧
        (clip ex a c).startLo = word (physOf ex a : ℤ) := by
      unfold clip
      dsimp only
      split_ifs <;> exact ⟨rfl, rfl⟩
    rw [h1.1, h1.2]
    unfold half word
    omega
  obtain ⟨h1, h2, h3⟩ := hcount
  have hend' : extEnd (clip ex a c) = c := by
    unfold extEnd
    omega
  refine ⟨⟨⟨by omega, h3, hwords.1, hwords.2⟩, by omega, by omega, ?_⟩, hfirst, hend', h2,
    fun n hn => ?_⟩
  · rw [hp, h1]
    unfold physOf
    omega
  · unfold physOf at hp ⊢
    rw [hp, hfirst]
    omega

/-! ### What is left of an extent -/

theorem keep_before (hf : Fits ex) (hlh : lo ≤ hi) (hpos : ex.firstBlock < extEnd ex)
    (h1 : extEnd ex ≤ lo) : keep lo hi ex = [ex] := by
  unfold keep
  rw [if_pos (by omega), if_neg (by omega), Nat.min_eq_right h1, clip_self hf]
  rfl

theorem keep_behind (hf : Fits ex) (hlh : lo ≤ hi) (hpos : ex.firstBlock < extEnd ex)
    (h1 : hi < ex.firstBlock) : keep lo hi ex = [ex] := by
  unfold keep
  rw [if_neg (by omega), if_pos (by omega), Nat.max_eq_right (by omega), clip_self hf]
  rfl

/-- What goes of an extent is a part of it. -/
theorem gone_within {r : ℤ × ℤ} (hr : r ∈ gone lo hi ex) : (ext4ExtPblock ex : ℤ) ≤ r.1 ∧
    r.1 + r.2 ≤ ext4ExtPblock ex + ext4ExtGetActualLen ex := by
  unfold gone at hr
  split_ifs at hr with h
  · obtain rfl := List.mem_singleton.mp hr
    unfold physOf extEnd at *
    dsimp only
    omega
  · simp at hr

theorem gone_outside (h1 : extEnd ex ≤ lo ∨ hi < ex.firstBlock) : gone lo hi ex = [] :=
  if_neg (by omega)

theorem flatMap_keep_behind (hf : ∀ x ∈ l, ExtOk x) (hlh : lo ≤ hi)
    (h1 : ∀ x ∈ l, hi < x.firstBlock) : l.flatMap (keep lo hi) = l ∧
    l.flatMap (gone lo hi) = [] := by
  constructor
  · have h2 : l.flatMap (keep lo hi) = l.flatMap fun x => [x] := List.flatMap_congr fun x hx =>
      keep_behind (hf x hx).fits hlh (hf x hx).lt_end (h1 x hx)
    rw [h2, List.flatMap_singleton']
  · rw [List.flatMap_eq_nil_iff]
    exact fun x hx => gone_outside (Or.inr (h1 x hx))

theorem flatMap_keep_before (hf : ∀ x ∈ l, ExtOk x) (hlh : lo ≤ hi)
    (h1 : ∀ x ∈ l, extEnd x ≤ lo) : l.flatMap (keep lo hi) = l ∧ l.flatMap (gone lo hi) = [] := by
  constructor
  · have h2 : l.flatMap (keep lo hi) = l.flatMap fun x => [x] := List.flatMap_congr fun x hx =>
      keep_before (hf x hx).fits hlh (hf x hx).lt_end (h1 x hx)
    rw [h2, List.flatMap_singleton']
  · rw [List.flatMap_eq_nil_iff]
    exact fun x hx => gone_outside (Or.inl (h1 x hx))

/-- An extent that does not reach past both ends of the range leaves one part at most. -/
theorem keep_length (h : lo ≤ ex.firstBlock ∨ extEnd ex ≤ hi + 1) :
    (keep lo hi ex).length ≤ 1 := by
  unfold keep
  split_ifs <;> simp
  omega

/-- Only the part of the range that lies around the extent counts. -/
theorem keep_within (hpos : ex.firstBlock < extEnd ex) (ha : a ≤ ex.firstBlock)
    (hc : extEnd ex ≤ c + 1) : keep (max lo a) (min hi c) ex = keep lo hi ex ∧
      gone (max lo a) (min hi c) ex = gone lo hi ex := by
  have hfront : ex.firstBlock < max lo a ↔ ex.firstBlock < lo := by omega
  have hbehind : min hi c + 1 < extEnd ex ↔ hi + 1 < extEnd ex := by omega
  have hin : ex.firstBlock ≤ min hi c ∧ max lo a < extEnd ex ↔
      ex.firstBlock ≤ hi ∧ lo < extEnd ex := by omega
  constructor
  · unfold keep
    simp only [hfront, hbehind]
    congr 1
    · split_ifs with h
      · rw [Nat.max_eq_left (show a ≤ lo by omega)]
      · rfl
    · split_ifs with h
      · rw [Nat.min_eq_left (show hi ≤ c by omega)]
      · rfl
  · unfold gone
    simp only [hin]
    rw [show max (max lo a) ex.firstBlock = max lo ex.firstBlock by omega,
      show min (min hi c + 1) (extEnd ex) = min (hi + 1) (extEnd ex) by omega]

/-- The parts that are kept are parts, and they lie outside of the range. -/
theorem keep_spec (hex : ExtOk ex) (hy : y ∈ keep lo hi ex) :
    ExtOk y ∧ ex.firstBlock ≤ y.firstBlock ∧ extEnd y ≤ extEnd ex ∧
      (extEnd y ≤ lo ∨ hi < y.firstBlock) ∧ ext4ExtIsUnwritten y = ext4ExtIsUnwritten ex ∧
      ∀ n, y.firstBlock ≤ n → physOf y n = physOf ex n := by
  have hpos := hex.lt_end
  unfold keep at hy
  rw [List.mem_append] at hy
  rcases hy with hy | hy
  · split_ifs at hy with h1
    · obtain rfl := List.mem_singleton.mp hy
      obtain ⟨h2, h3, h4, h5, h6⟩ := clip_spec (c := min lo (extEnd ex)) hex le_rfl (by omega)
        (by omega)
      exact ⟨h2, h3.ge, by omega, by omega, h5, fun n hn => h6 n (by omega)⟩
    · simp at hy
  · split_ifs at hy with h1
    · obtain rfl := List.mem_singleton.mp hy
      obtain ⟨h2, h3, h4, h5, h6⟩ := clip_spec (a := max (hi + 1) ex.firstBlock) hex (by omega)
        (show _ < extEnd ex by omega) le_rfl
      exact ⟨h2, by omega, h4.le, by omega, h5, fun n hn => h6 n (by omega)⟩
    · simp at hy

/-- Outside of the range every block is in one of the parts that are kept. -/
theorem exists_keep (hex : ExtOk ex) (hn : Holds ex n) (hout : n < lo ∨ hi < n) :
    ∃ y ∈ keep lo hi ex, Holds y n := by
  obtain ⟨h1, h2⟩ := hn
  rcases hout with hlt | hgt
  · obtain ⟨-, h3, h4, -⟩ := clip_spec (c := min lo (extEnd ex)) hex le_rfl (by omega) (by omega)
    refine ⟨clip ex ex.firstBlock (min lo (extEnd ex)), ?_, by omega, by omega⟩
    unfold keep
    rw [if_pos (by omega)]
    simp
  · obtain ⟨-, h3, h4, -⟩ := clip_spec (a := max (hi + 1) ex.firstBlock) hex (by omega)
      (show _ < extEnd ex by omega) le_rfl
    refine ⟨clip ex (max (hi + 1) ex.firstBlock) (extEnd ex), ?_, by omega, by omega⟩
    unfold keep
    rw [if_pos (show hi + 1 < extEnd ex by omega)]
    simp

theorem sorted_keep (hlh : lo ≤ hi) (hex : ExtOk ex) : Sorted (keep lo hi ex) := by
  unfold keep
  split_ifs with h1 h2
  · obtain ⟨-, -, h3, -⟩ := clip_spec (c := min lo (extEnd ex)) hex le_rfl (by omega) (by omega)
    obtain ⟨-, h4, -⟩ := clip_spec (a := max (hi + 1) ex.firstBlock) hex (by omega)
      (show _ < extEnd ex by omega) le_rfl
    refine ordered_cons.mpr ⟨fun y hy => ?_, List.pairwise_singleton _ _⟩
    obtain rfl := List.mem_singleton.mp hy
    omega
  · exact List.pairwise_singleton _ _
  · exact List.pairwise_singleton _ _
  · exact List.Pairwise.nil

/-- What is left of a list of extents is in order. -/
theorem sorted_flatMap_keep (hlh : lo ≤ hi) (hex : ∀ x ∈ l, ExtOk x) (hs : Sorted l) :
    Sorted (l.flatMap (keep lo hi)) := by
  induction l with
  | nil => exact List.Pairwise.nil
  | cons x l ih =>
    obtain ⟨h1, h2⟩ := ordered_cons.mp hs
    rw [List.flatMap_cons]
    refine ordered_append.mpr ⟨sorted_keep hlh (hex x (by simp)),
      ih (fun y hy => hex y (by simp [hy])) h2, fun y hy z hz => ?_⟩
    obtain ⟨w, hw, hz⟩ := List.mem_flatMap.mp hz
    obtain ⟨-, -, h3, -⟩ := keep_spec (hex x (by simp)) hy
    obtain ⟨-, h4, -⟩ := keep_spec (hex w (by simp [hw])) hz
    exact h3.trans ((h1 w hw).trans h4)

/-- **The map of what is left of a list of extents.** -/
theorem mapOf_keep (hlh : lo ≤ hi) (hex : ∀ x ∈ l, ExtOk x) (hs : Sorted l) (n : ℕ) :
    mapOf (l.flatMap (keep lo hi)) n = if lo ≤ n ∧ n ≤ hi then none else mapOf l n := by
  have hs' := sorted_flatMap_keep hlh hex hs
  by_cases hn : lo ≤ n ∧ n ≤ hi
  · rw [if_pos hn, mapOf_eq_none]
    rintro y hy ⟨h1, h2⟩
    obtain ⟨x, hx, hy⟩ := List.mem_flatMap.mp hy
    obtain ⟨-, -, -, h3, -⟩ := keep_spec (hex x hx) hy
    omega
  rw [if_neg hn]
  rcases hl : extentAt l n with _ | x
  · have hnone := coverOf_eq_none.mp hl
    rw [mapOf_eq_none.mpr hnone, mapOf_eq_none]
    rintro y hy ⟨h1, h2⟩
    obtain ⟨x, hx, hy⟩ := List.mem_flatMap.mp hy
    obtain ⟨-, h3, h4, -⟩ := keep_spec (hex x hx) hy
    exact hnone x hx ⟨by omega, by omega⟩
  · obtain ⟨hx, hhx⟩ := (extentAt_eq_some hs).mp hl
    obtain ⟨y, hy, hhy⟩ := @exists_keep x lo hi n (hex x hx) hhx (by omega)
    obtain ⟨-, -, -, -, h1, h2⟩ := keep_spec (hex x hx) hy
    rw [mapOf_of_holds hs hx hhx, mapOf_of_holds hs' (List.mem_flatMap.mpr ⟨x, hx, hy⟩) hhy, h1,
      h2 n hhy.1]

/-! ### One turn -/

@[simp] theorem freeRuns_nil : freeRuns [] s = s := by
  simp [freeRuns, InRuns]

theorem inRuns_append : InRuns (runs ++ runs') b ↔ InRuns runs b ∨ InRuns runs' b := by
  simp only [InRuns, List.mem_append, or_and_right, exists_or]

theorem freeRuns_append : freeRuns runs' (freeRuns runs s) = freeRuns (runs ++ runs') s := by
  unfold freeRuns
  simp only [List.append_assoc, inRuns_append]
  congr 1
  funext b
  by_cases h1 : InRuns runs b
  · simp [h1]
  · simp [h1]

theorem freeBlocks_run (x m : ℤ) : ext4ExtFreeBlocks x m s = (.ok (), freeRuns [(x, m)] s) := by
  have hin : ∀ b : ℕ, InRuns [(x, m)] b ↔ x ≤ b ∧ (b : ℤ) < x + m := fun b => by simp [InRuns]
  unfold ext4ExtFreeBlocks ext4BallocFreeBlocks freeRuns
  rw [modify_apply]
  simp only [hin]

theorem setNode_self : s.setNode h (s.nodes h) = s := by
  unfold St.setNode
  rw [Function.update_eq_self]

theorem setNode_setNode {eh' : Node} : (s.setNode h eh).setNode h eh' = s.setNode h eh' := by
  unfold St.setNode
  rw [Function.update_idem]

theorem editSlot_self : editSlot eh p (fun _ => eh.slots p) = eh := by
  unfold editSlot
  rw [Function.update_eq_self]

theorem drop_cons (hp : p < eh.entriesCount) :
    eh.entries.drop p = eh.slots p :: eh.entries.drop (p + 1) := by
  rw [List.drop_eq_getElem_cons (by rwa [length_entries]), getElem_entries]

/-- What a turn does when the extent lies in the range. -/
theorem cutExtent_whole (hex : LowExt ex) (h1 : lo ≤ ex.firstBlock) (h2 : extEnd ex ≤ hi + 1)
    (hhi : hi < 2 ^ 31) :
    cutExtent ex lo hi =
      ⟨ex.firstBlock, ext4ExtGetActualLen ex, 0, ex.firstBlock, ext4ExtPblock ex,
        false, false⟩ := by
  have hlow := hex.low
  have hpos := hex.pos
  unfold extEnd at h2 hlow
  unfold cutExtent toI32
  rw [if_neg (by omega), if_neg (by omega)]

/-- What a turn does when the extent reaches past the end of the range. -/
theorem cutExtent_behind (hex : LowExt ex) (h1 : lo ≤ ex.firstBlock) (h2 : ex.firstBlock ≤ hi)
    (h3 : hi + 1 < extEnd ex) : cutExtent ex lo hi =
      ⟨ex.firstBlock, (hi + 1 - ex.firstBlock : ℕ), (extEnd ex - (hi + 1) : ℕ), hi + 1,
        physOf ex (hi + 1), false, true⟩ := by
  have hlow := hex.low
  unfold extEnd at h3 hlow ⊢
  unfold cutExtent toI32 word physOf
  rw [if_neg (by omega), if_pos (by omega)]
  simp only [Cut.mk.injEq, true_and, and_true]
  omega

/-- What a turn does when the extent starts before the range. -/
theorem cutExtent_front (hex : LowExt ex) (h1 : ex.firstBlock < lo) (h2 : lo < extEnd ex) :
    cutExtent ex lo hi =
      ⟨lo, (extEnd ex - lo : ℕ), (lo - ex.firstBlock : ℕ), ex.firstBlock, ext4ExtPblock ex, true,
        false⟩ := by
  have hlow := hex.low
  unfold extEnd at h2 hlow ⊢
  unfold cutExtent toI32
  rw [if_pos (by omega)]
  simp only [Cut.mk.injEq, true_and, and_true]
  omega

/-- The entry that a turn leaves is the part it says. -/
theorem keptSlot_clip (hac : a < c) (hc : c - a < 2 ^ 16) (start : ℕ) (len : ℤ)
    (first second : Bool) :
    keptSlot ex ⟨start, len, (c - a : ℕ), a, physOf ex a, first, second⟩ = clip ex a c := by
  have hlen : half ((c - a : ℕ) : ℤ) = c - a := half_of_eq rfl hc
  unfold keptSlot clip
  dsimp only
  rw [if_neg (by omega), hlen]
  rfl

/-! ### The loop -/

/-- The entries that stay when a leaf is closed. -/
theorem closeLeaf_refilled {cur : LeafCursor} {q : ℕ} (hq : cur.ex2.getD cur.ex = q)
    (hst : cur.startEx ≤ q) (hqn : q ≤ eh.entriesCount)
    (hne : cur.newEntries = eh.entriesCount - (q - cur.startEx)) (hw : eh.entriesCount < 2 ^ 16) :
    Refilled eh (closeLeaf eh cur) (eh.entries.take cur.startEx ++ eh.entries.drop q) := by
  have hcount : (closeLeaf eh cur).entriesCount = eh.entriesCount - (q - cur.startEx) := by
    show half (cur.newEntries : ℤ) = _
    exact half_of_eq (by rw [hne]) (by omega)
  have hslots : (closeLeaf eh cur).slots =
      memmove eh.slots cur.startEx eh.slots q (eh.entriesCount - q) := by
    rw [← hq]
    rfl
  refine ⟨rfl, rfl, rfl, entries_erase hst hqn hcount (fun j hj => ?_) fun j h1 h2 => ?_⟩
  · rw [hslots]
    exact memmove_out (by omega)
  · rw [hslots, memmove_in (by omega) (by omega)]
    congr 1
    omega

theorem Refilled.of_edit {eh' : Node} {f : Slot → Slot} (hr : Refilled (editSlot eh p f) eh' l) :
    Refilled eh eh' l := by
  obtain ⟨h1, h2, h3, h4⟩ := hr
  exact ⟨h1, h2, h3, h4⟩

/-- The loop stops at an entry behind the range. -/
theorem removeLeafLoop_stop {cur : LeafCursor} (hstop : cur.ex < (s.nodes h).entriesCount →
      hi < ((s.nodes h).slots cur.ex).firstBlock) :
    removeLeafLoop h lo hi k cur s = (.ok cur, s) := by
  cases k with
  | zero => rfl
  | succ k =>
    unfold removeLeafLoop
    rw [get_bind]
    dsimp only
    rw [if_neg]
    · rfl
    · rintro ⟨h1, h2⟩
      have := hstop h1
      omega

theorem removeBlocks_run (hex : LowExt ex) (h1 : ex.firstBlock ≤ a) (h2 : a < c)
    (h3 : c ≤ extEnd ex) {x : ℤ} (hx : x = (c : ℤ) - 1) :
    ext4ExtRemoveBlocks ex a (word x) s =
      (.ok (), freeRuns [((physOf ex a : ℕ), (c : ℤ) - a)] s) := by
  have hlow := hex.low
  have hmax := actualLen_le hex.fits
  unfold extInitMaxLen at hmax
  unfold extEnd at h3 hlow
  have hword : word x = c - 1 := word_of_eq (by omega) (by omega)
  have hlen : toI32 (((c - 1 : ℕ) : ℤ) - (a : ℤ) + 1) = (c : ℤ) - a := by
    unfold toI32
    omega
  have hnum : (ext4ExtPblock ex : ℤ) + toI32 (a - ex.firstBlock) = (physOf ex a : ℕ) := by
    unfold toI32 physOf
    omega
  unfold ext4ExtRemoveBlocks
  rw [hword]
  show ext4ExtFreeBlocks (ext4ExtPblock ex + toI32 (a - ex.firstBlock))
    (toI32 (((c - 1 : ℕ) : ℤ) - a + 1)) s = _
  rw [hlen, hnum]
  exact freeBlocks_run _ _

/-- A turn of the loop. -/
theorem removeLeafLoop_turn {cur : LeafCursor} {x : Cut} (hy : (s.nodes h).slots cur.ex = y)
    (hlt : cur.ex < (s.nodes h).entriesCount) (hle : y.firstBlock ≤ hi)
    (hcut : cutExtent y lo hi = x)
    (hfree : ext4ExtRemoveBlocks y x.start (word (x.start + x.len - 1)) s =
      (.ok (), freeRuns runs s)) :
    removeLeafLoop h lo hi (k + 1) cur s = removeLeafLoop h lo hi k (cur.next x) (freeRuns runs
      (s.setNode h (editSlot (s.nodes h) cur.ex fun _ => keptSlot y x))) := by
  rw [removeLeafLoop, get_bind]
  dsimp only
  rw [hy, if_pos ⟨hlt, hle⟩, hcut, bind_of_ok hfree, setSlot_bind]
  rfl

/-- What the loop of `ext4_ext_remove_leaf` comes to from a cursor on: the runs that go, and the
entries that stay. -/
def Cuts (h : Hdr) (lo hi k : ℕ) (cur : LeafCursor) (s : St) (runs : List (ℤ × ℤ)) (l : List Slot) :
    Prop :=
  ∃ cur' eh', removeLeafLoop h lo hi k cur s = (.ok cur', freeRuns runs (s.setNode h eh')) ∧
    Refilled (s.nodes h) (closeLeaf eh' cur') l

/-- A turn whose entry is rewritten, and the turns after it. -/
theorem Cuts.of_turn {cur : LeafCursor} {x : Cut} {f : Slot → Slot}
    (hturn : removeLeafLoop h lo hi (k + 1) cur s = removeLeafLoop h lo hi k (cur.next x)
      (freeRuns runs (s.setNode h (editSlot (s.nodes h) p f))))
    (hrest : Cuts h lo hi k (cur.next x) (freeRuns runs (s.setNode h (editSlot (s.nodes h) p f)))
      runs' l) : Cuts h lo hi (k + 1) cur s (runs ++ runs') l := by
  obtain ⟨cur', eh', hrun, hr⟩ := hrest
  have hnode : (freeRuns runs (s.setNode h (editSlot (s.nodes h) p f))).nodes h =
      editSlot (s.nodes h) p f := Function.update_self _ _ _
  rw [hnode] at hr
  refine ⟨cur', eh', ?_, hr.of_edit⟩
  rw [hturn, hrun, ← freeRuns_append]
  have hset : (freeRuns runs (s.setNode h (editSlot (s.nodes h) p f))).setNode h eh' =
      freeRuns runs (s.setNode h eh') := by
    rw [← @setNode_setNode s h (editSlot (s.nodes h) p f) eh']
    rfl
  rw [hset]

/-- Where the loop stops. -/
theorem cuts_stop {cur : LeafCursor} {q : ℕ} (hstop : cur.ex < (s.nodes h).entriesCount →
    hi < ((s.nodes h).slots cur.ex).firstBlock) (hq : cur.ex2.getD cur.ex = q)
    (hst : cur.startEx ≤ q) (hqn : q ≤ (s.nodes h).entriesCount)
    (hne : cur.newEntries = (s.nodes h).entriesCount - (q - cur.startEx))
    (hw : (s.nodes h).entriesCount < 2 ^ 16) :
    Cuts h lo hi k cur s []
      ((s.nodes h).entries.take cur.startEx ++ (s.nodes h).entries.drop q) := by
  refine ⟨cur, s.nodes h, ?_, closeLeaf_refilled hq hst hqn hne hw⟩
  rw [freeRuns_nil, setNode_self]
  exact removeLeafLoop_stop hstop

/-- The loop ends where all entries lie behind the range. -/
theorem cuts_behind {ne : ℕ} (hp : p ≤ (s.nodes h).entriesCount) (hst : st ≤ p)
    (hne : ne + (p - st) = (s.nodes h).entriesCount) (hw : (s.nodes h).entriesCount < 2 ^ 16)
    (hex : ∀ x ∈ (s.nodes h).entries.drop p, ExtOk x) (hlh : lo ≤ hi)
    (hall : ∀ x ∈ (s.nodes h).entries.drop p, hi < x.firstBlock) :
    Cuts h lo hi k ⟨p, st, ne, none⟩ s (((s.nodes h).entries.drop p).flatMap (gone lo hi))
      ((s.nodes h).entries.take st ++ ((s.nodes h).entries.drop p).flatMap (keep lo hi)) := by
  obtain ⟨h1, h2⟩ := flatMap_keep_behind hex hlh hall
  rw [h1, h2]
  refine cuts_stop (fun hlt => hall _ ?_) rfl hst hp (by dsimp only; omega) hw
  rw [drop_cons hlt]
  exact List.mem_cons_self

theorem take_editSlot {f : Slot → Slot} (hp : p < eh.entriesCount) (hst : st ≤ p) :
    (editSlot eh p f).entries.take st = eh.entries.take st := by
  have hlen : (eh.entries.take p).length = p := by
    rw [List.length_take, length_entries]
    omega
  rw [editSlot_entries hp, List.take_append_of_le_length (by omega), List.take_take,
    Nat.min_eq_left hst]

theorem drop_editSlot {f : Slot → Slot} (hp : p < eh.entriesCount) :
    (editSlot eh p f).entries.drop p = f (eh.slots p) :: eh.entries.drop (p + 1) := by
  have hlen : (eh.entries.take p).length = p := by
    rw [List.length_take, length_entries]
    omega
  rw [editSlot_entries hp, List.drop_append_of_le_length (by omega), List.drop_eq_nil_of_le
    (by omega), List.nil_append]

/-- A turn at an extent inside the range: the whole extent goes, and its entry stays as it is for
now. -/
theorem Cuts.whole {cur : LeafCursor} (hy : (s.nodes h).slots cur.ex = y)
    (hp : cur.ex < (s.nodes h).entriesCount) (hex : LowExt y) (hlo : lo ≤ y.firstBlock)
    (hend : extEnd y ≤ hi + 1) (hhi : hi < 2 ^ 31)
    (hrest : Cuts h lo hi k (cur.next ⟨y.firstBlock, ext4ExtGetActualLen y, 0, y.firstBlock,
      ext4ExtPblock y, false, false⟩) (freeRuns (gone lo hi y) s) runs' l) :
    Cuts h lo hi (k + 1) cur s (gone lo hi y ++ runs') l := by
  have hpos := hex.lt_end
  have hgone : gone lo hi y =
      [(((physOf y y.firstBlock : ℕ) : ℤ), (extEnd y : ℤ) - y.firstBlock)] := by
    unfold gone
    rw [if_pos (by omega), Nat.max_eq_right hlo, Nat.min_eq_right hend]
  have hfree := @removeBlocks_run y y.firstBlock (extEnd y) s hex le_rfl hpos le_rfl
    ((y.firstBlock : ℤ) + ext4ExtGetActualLen y - 1) (by unfold extEnd; push_cast; ring)
  rw [← hgone] at hfree
  have hturn := @removeLeafLoop_turn y lo hi k s h (gone lo hi y) cur _ hy hp (by omega)
    (cutExtent_whole hex hlo hend hhi) hfree
  have hsame : editSlot (s.nodes h) cur.ex (fun _ => y) = s.nodes h := by
    rw [← hy]
    exact editSlot_self
  have hslot : keptSlot y ⟨y.firstBlock, ext4ExtGetActualLen y, 0, y.firstBlock,
      ext4ExtPblock y, false, false⟩ = y := rfl
  refine Cuts.of_turn hturn ?_
  rw [hslot, hsame, setNode_self]
  exact hrest

/-- **An extent that reaches behind the range**: the part behind the range stays, and the loop is
over. -/
theorem cuts_tail {ne : ℕ} (hp : p < (s.nodes h).entriesCount) (hst : st ≤ p)
    (hne : ne + (p - st) = (s.nodes h).entriesCount) (hw : (s.nodes h).entriesCount < 2 ^ 16)
    (hy : (s.nodes h).slots p = y) (hex : LowExt y) (hlo : lo ≤ y.firstBlock)
    (hle : y.firstBlock ≤ hi) (hend : hi + 1 < extEnd y)
    (hafter : ∀ x ∈ (s.nodes h).entries.drop (p + 1), hi < x.firstBlock) :
    Cuts h lo hi (k + 1) ⟨p, st, ne, none⟩ s (gone lo hi y)
      ((s.nodes h).entries.take st ++ keep lo hi y ++ (s.nodes h).entries.drop (p + 1)) := by
  have hmax := actualLen_le hex.fits
  unfold extInitMaxLen at hmax
  have hlen : extEnd y = y.firstBlock + ext4ExtGetActualLen y := rfl
  have hgone : gone lo hi y =
      [(((physOf y y.firstBlock : ℕ) : ℤ), ((hi + 1 : ℕ) : ℤ) - y.firstBlock)] := by
    unfold gone
    rw [if_pos (by omega), Nat.max_eq_right hlo, Nat.min_eq_left (by omega)]
  have hkeep : keep lo hi y = [clip y (hi + 1) (extEnd y)] := by
    unfold keep
    rw [if_neg (by omega), if_pos (by omega), Nat.max_eq_left (by omega)]
    rfl
  have hfree := @removeBlocks_run y y.firstBlock (hi + 1) s hex le_rfl (by omega) (by omega)
    ((y.firstBlock : ℤ) + (hi + 1 - y.firstBlock : ℕ) - 1) (by omega)
  rw [← hgone] at hfree
  have hturn := @removeLeafLoop_turn y lo hi k s h (gone lo hi y) ⟨p, st, ne, none⟩ _ hy hp hle
    (cutExtent_behind hex hlo hle (by omega)) hfree
  rw [keptSlot_clip (by omega) (by omega)] at hturn
  rw [hkeep, ← List.append_nil (gone lo hi y)]
  refine Cuts.of_turn hturn ?_
  generalize hs2 : freeRuns (gone lo hi y) (s.setNode h (editSlot (s.nodes h) p
    fun _ => clip y (hi + 1) (extEnd y))) = s2
  have hnode : s2.nodes h = editSlot (s.nodes h) p fun _ => clip y (hi + 1) (extEnd y) := by
    rw [← hs2]
    exact Function.update_self _ _ _
  have hcount : (s2.nodes h).entriesCount = (s.nodes h).entriesCount := by rw [hnode]; rfl
  generalize hc2 : (⟨p, st, ne, none⟩ : LeafCursor).next ⟨y.firstBlock,
    (hi + 1 - y.firstBlock : ℕ), (extEnd y - (hi + 1) : ℕ), hi + 1, physOf y (hi + 1), false,
    true⟩ = c2
  obtain ⟨he, hst2, hne2, hq2⟩ : c2.ex = p + 1 ∧ c2.startEx = st ∧ c2.newEntries = ne ∧
      c2.ex2 = some p := by
    rw [← hc2]
    exact ⟨rfl, rfl, if_neg (by dsimp only; omega), rfl⟩
  have hstop := @cuts_stop lo hi k s2 h c2 p (fun hlt => ?_) (by rw [hq2]; rfl) (by omega)
    (by omega) (by omega) (by omega)
  · rw [hst2, hnode, take_editSlot hp hst, drop_editSlot hp] at hstop
    simpa using hstop
  · rw [he, hcount] at hlt
    rw [he, hnode]
    refine hafter _ ?_
    rw [drop_cons hlt]
    simp [editSlot]

/-- **The loop of `ext4_ext_remove_leaf`** from the entry `p` on, with the entries from `st` up to
it removed, when none of the rest starts before the range. -/
theorem removeLeafLoop_cut {ne : ℕ} (hk : p + k = (s.nodes h).entriesCount) (hst : st ≤ p)
    (hne : ne + (p - st) = (s.nodes h).entriesCount) (hw : (s.nodes h).entriesCount < 2 ^ 16)
    (hex : ∀ x ∈ (s.nodes h).entries.drop p, LowExt x) (hs : Sorted ((s.nodes h).entries.drop p))
    (hlo : ∀ x ∈ (s.nodes h).entries.drop p, lo ≤ x.firstBlock) (hlh : lo ≤ hi)
    (hhi : hi < 2 ^ 31) :
    Cuts h lo hi k ⟨p, st, ne, none⟩ s (((s.nodes h).entries.drop p).flatMap (gone lo hi))
      ((s.nodes h).entries.take st ++ ((s.nodes h).entries.drop p).flatMap (keep lo hi)) := by
  induction k generalizing s p ne with
  | zero =>
    refine cuts_behind (by omega) hst hne hw (fun x hx => (hex x hx).toExtOk) hlh fun x hx => ?_
    rw [List.drop_eq_nil_of_le (by rw [length_entries]; omega)] at hx
    simp at hx
  | succ k ih =>
    have hp : p < (s.nodes h).entriesCount := by omega
    have hdrop := drop_cons hp
    generalize hy : (s.nodes h).slots p = y at hdrop
    have hex' := hex
    rw [hdrop] at hex' hs hlo
    have hyex := hex' y (by simp)
    have hylo := hlo y (by simp)
    have hpos := hyex.lt_end
    obtain ⟨hafter, hrest⟩ := ordered_cons.mp hs
    by_cases hle : y.firstBlock ≤ hi
    swap
    · refine cuts_behind (by omega) hst hne hw (fun x hx => (hex x hx).toExtOk) hlh fun x hx => ?_
      rw [hdrop] at hx
      rcases List.mem_cons.mp hx with rfl | hx
      · omega
      · have := hafter x hx
        omega
    rw [hdrop, List.flatMap_cons, List.flatMap_cons]
    by_cases hwhole : extEnd y ≤ hi + 1
    · have hk' : p + 1 + k = (s.nodes h).entriesCount := by omega
      have hne' : ne - 1 + (p + 1 - st) = (s.nodes h).entriesCount := by omega
      have hbehind := @ih (p + 1) (freeRuns (gone lo hi y) s) (ne - 1) hk' (by omega) hne' hw
        (fun x hx => hex' x (List.mem_cons_of_mem _ hx)) hrest
        (fun x hx => hlo x (List.mem_cons_of_mem _ hx))
      have hkeep : keep lo hi y = [] := by
        unfold keep
        rw [if_neg (by omega), if_neg (by omega)]
        rfl
      rw [hkeep, List.nil_append]
      exact Cuts.whole hy hp hyex hylo hwhole hhi hbehind
    · have hafter' : ∀ x ∈ (s.nodes h).entries.drop (p + 1), hi < x.firstBlock := fun x hx => by
        have := hafter x hx
        omega
      obtain ⟨hk1, hk2⟩ := flatMap_keep_behind
        (fun x hx => (hex' x (List.mem_cons_of_mem _ hx)).toExtOk) hlh hafter'
      rw [hk1, hk2, List.append_nil, ← List.append_assoc]
      exact cuts_tail hp hst hne hw hy hyex hylo hle (by omega) hafter'

/-- **An extent that starts before the range**: the part before the range stays, and the loop goes
on with the next entry. -/
theorem Cuts.front {rest : List Slot} (hp : p < (s.nodes h).entriesCount)
    (hy : (s.nodes h).slots p = y) (hex : LowExt y) (hlo : y.firstBlock < lo) (hin : lo < extEnd y)
    (hend : extEnd y ≤ hi + 1) (hrest : ∀ s2 : St,
      (s2.nodes h).entriesCount = (s.nodes h).entriesCount →
      (s2.nodes h).entries.drop (p + 1) = (s.nodes h).entries.drop (p + 1) →
      Cuts h lo hi k ⟨p + 1, p + 1, (s2.nodes h).entriesCount, none⟩ s2 runs'
        ((s2.nodes h).entries.take (p + 1) ++ rest)) :
    Cuts h lo hi (k + 1) ⟨p, p, (s.nodes h).entriesCount, none⟩ s (gone lo hi y ++ runs')
      ((s.nodes h).entries.take p ++ (keep lo hi y ++ rest)) := by
  have hmax := actualLen_le hex.fits
  unfold extInitMaxLen at hmax
  have hlen : extEnd y = y.firstBlock + ext4ExtGetActualLen y := rfl
  have hgone : gone lo hi y = [(((physOf y lo : ℕ) : ℤ), (extEnd y : ℤ) - lo)] := by
    unfold gone
    rw [if_pos (by omega), Nat.max_eq_left (by omega), Nat.min_eq_right hend]
  have hkeep : keep lo hi y = [clip y y.firstBlock lo] := by
    unfold keep
    rw [if_pos (by omega), if_neg (by omega), Nat.min_eq_left (by omega)]
    rfl
  have hfree := @removeBlocks_run y lo (extEnd y) s hex (by omega) hin le_rfl
    ((lo : ℤ) + (extEnd y - lo : ℕ) - 1) (by omega)
  rw [← hgone] at hfree
  have hturn := @removeLeafLoop_turn y lo hi k s h (gone lo hi y)
    ⟨p, p, (s.nodes h).entriesCount, none⟩ _ hy hp (by omega)
    (cutExtent_front hex (by omega) hin) hfree
  have hphys : ext4ExtPblock y = physOf y y.firstBlock := by simp [physOf]
  rw [hphys, keptSlot_clip (by omega) (by omega)] at hturn
  rw [hkeep]
  refine Cuts.of_turn hturn ?_
  generalize hs2 : freeRuns (gone lo hi y) (s.setNode h (editSlot (s.nodes h) p
    fun _ => clip y y.firstBlock lo)) = s2
  have hnode : s2.nodes h = editSlot (s.nodes h) p fun _ => clip y y.firstBlock lo := by
    rw [← hs2]
    exact Function.update_self _ _ _
  have hcount : (s2.nodes h).entriesCount = (s.nodes h).entriesCount := by rw [hnode]; rfl
  have hentries := @editSlot_entries p (fun _ => clip y y.firstBlock lo) (s.nodes h) hp
  rw [← hnode] at hentries
  have hlen' : ((s.nodes h).entries.take p).length = p := by
    rw [List.length_take, length_entries]
    omega
  have htake : (s2.nodes h).entries.take (p + 1) =
      (s.nodes h).entries.take p ++ [clip y y.firstBlock lo] := by
    rw [hentries, List.take_append, hlen', List.take_of_length_le (by omega),
      Nat.add_sub_cancel_left]
    rfl
  have hdrop : (s2.nodes h).entries.drop (p + 1) = (s.nodes h).entries.drop (p + 1) := by
    rw [hentries, List.drop_append, hlen', List.drop_eq_nil_of_le (by omega),
      Nat.add_sub_cancel_left]
    rfl
  have hnext : (⟨p, p, (s.nodes h).entriesCount, none⟩ : LeafCursor).next ⟨lo,
      (extEnd y - lo : ℕ), (lo - y.firstBlock : ℕ), y.firstBlock, physOf y y.firstBlock, true,
      false⟩ = ⟨p + 1, p + 1, (s2.nodes h).entriesCount, none⟩ := by
    have hne : ((lo - y.firstBlock : ℕ) : ℤ) ≠ 0 := by omega
    simp only [LeafCursor.next, hne, hcount, if_true, if_false, Bool.false_eq_true]
  have hcuts := hrest s2 hcount hdrop
  rw [hnext]
  rwa [htake, List.append_assoc] at hcuts

/-- **The loop of `ext4_ext_remove_leaf`** from the entry `p` on, which ends in the range or behind
it: unless it reaches past both ends of the range, the loop frees what the entries have in the range
and keeps what they have outside of it. -/
theorem removeLeafLoop_cuts (hp : p < (s.nodes h).entriesCount)
    (hw : (s.nodes h).entriesCount < 2 ^ 16) (hex : ∀ x ∈ (s.nodes h).entries.drop p, LowExt x)
    (hs : Sorted ((s.nodes h).entries.drop p)) (hlh : lo ≤ hi) (hhi : hi < 2 ^ 31)
    (hin : lo < extEnd ((s.nodes h).slots p))
    (hone : lo ≤ ((s.nodes h).slots p).firstBlock ∨ extEnd ((s.nodes h).slots p) ≤ hi + 1) :
    Cuts h lo hi ((s.nodes h).entriesCount - p) ⟨p, p, (s.nodes h).entriesCount, none⟩ s
      (((s.nodes h).entries.drop p).flatMap (gone lo hi))
      ((s.nodes h).entries.take p ++ ((s.nodes h).entries.drop p).flatMap (keep lo hi)) := by
  have hdrop := drop_cons hp
  generalize hy : (s.nodes h).slots p = y at hdrop hin hone
  have hex' := hex
  have hs' := hs
  rw [hdrop] at hex' hs'
  obtain ⟨hafter, hrest⟩ := ordered_cons.mp hs'
  by_cases hlo : lo ≤ y.firstBlock
  · refine removeLeafLoop_cut (by omega) le_rfl (by omega) hw hex hs (fun x hx => ?_) hlh hhi
    rw [hdrop] at hx
    rcases List.mem_cons.mp hx with rfl | hx
    · exact hlo
    · have := hafter x hx
      omega
  · obtain ⟨k, hk⟩ : ∃ k, (s.nodes h).entriesCount - p = k + 1 :=
      ⟨(s.nodes h).entriesCount - p - 1, by omega⟩
    rw [hk, hdrop, List.flatMap_cons, List.flatMap_cons]
    refine Cuts.front hp hy (hex' y (by simp)) (by omega) hin (hone.resolve_left hlo)
      fun s2 hcount hdrop2 => ?_
    rw [← hdrop2]
    refine removeLeafLoop_cut (by omega) le_rfl (by omega) (by omega) ?_ ?_ ?_ hlh hhi <;>
      rw [hdrop2]
    · exact fun x hx => hex' x (List.mem_cons_of_mem _ hx)
    · exact hrest
    · intro x hx
      have := hafter x hx
      omega

end

end Ext4Fsd.Extent.LeafCut
