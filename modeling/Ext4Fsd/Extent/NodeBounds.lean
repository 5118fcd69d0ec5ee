import Ext4Fsd.Lib.Recording
import Ext4Fsd.Extent.ReadBlocks

/-! # What an accepted node makes the search touch

A tree block is bytes: `nodeAt` reads its header and its entries. `read_extent_tree_block` accepts
it on the header alone, and `ext4_ext_check` does not compare `eh_max` with the size of the block,
nor does it ask an index node for an entry. `probes` is the binary search with the entries it looks
at written down.

So the search of an accepted node stays inside its block exactly when the checksum tail, which lies
behind `eh_max` entries, does, and what it selects is a valid entry exactly when an index node has
one (`searchedSafely_iff`). -/

namespace Ext4Fsd.Extent.NodeBounds

open Ext4Fsd.Lib.Fallible Ext4Fsd.Lib.Recording Ext4Fsd.Extent.Layout Ext4Fsd.Extent.Store
open Ext4Fsd.Extent.Search Ext4Fsd.Extent.Tree Ext4Fsd.Extent.Found Ext4Fsd.Extent.Lookup
open Ext4Fsd.Extent.ReadBlocks

/-! ### A node in a block -/

/-- The little-endian 16-bit word at an offset. -/
def word16At (bytes : ℕ → UInt8) (off : ℕ) : ℕ :=
  (bytes off).toNat + 2 ^ 8 * (bytes (off + 1)).toNat

def word32At (bytes : ℕ → UInt8) (off : ℕ) : ℕ :=
  word16At bytes off + 2 ^ 16 * word16At bytes (off + 2)

/-- The offset of the entry at position `p`. Position `-1` is what `EXT_LAST_EXTENT` gives for a
node without entries. -/
def entryOffset (p : ℤ) : ℤ := 12 + 12 * p

/-- The entry at position `p`, whose offset is `entryOffset p`. -/
def slotAt (bytes : ℕ → UInt8) (p : ℕ) : Slot :=
  { firstBlock := word32At bytes (12 + 12 * p)
    blockCount := word16At bytes (12 + 12 * p + 4)
    startHi := word16At bytes (12 + 12 * p + 6)
    startLo := word32At bytes (12 + 12 * p + 8) }

/-- The node in a block with these bytes. -/
def nodeAt (bytes : ℕ → UInt8) : Node :=
  { magic := word16At bytes 0
    entriesCount := word16At bytes 2
    maxEntriesCount := word16At bytes 4
    depth := word16At bytes 6
    slots := slotAt bytes }

/-- `EXT4_EXTENT_TAIL_OFFSET`, where `find_ext4_extent_tail` puts `et_checksum`. -/
def tailOffset (eh : Node) : ℕ := 12 + 12 * eh.maxEntriesCount

/-- The entry at position `p` lies inside a block of `bs` bytes. -/
def Inside (bs : ℕ) (p : ℤ) : Prop := 0 ≤ entryOffset p ∧ entryOffset p + 12 ≤ bs

/-! ### The search, with its probes -/

/-- `binsearchLoop`, with the entries it compares with. -/
def probeLoop (firstBlock : ℕ → ℕ) (block : ℕ) : ℕ → ℕ → ℕ → Traced ℕ ℕ
  | 0, l, _ => pure l
  | n + 1, l, r =>
    if l ≤ r then do
      let m := l + (r - l) / 2
      emit m
      if block < firstBlock m then probeLoop firstBlock block n l (m - 1)
      else probeLoop firstBlock block n (m + 1) r
    else pure l

/-- The loop of both searches on the node `eh`. -/
def probes (eh : Node) (block : ℕ) : Traced ℕ ℕ :=
  probeLoop (fun m => (eh.slots m).firstBlock) block eh.entriesCount 1 (eh.entriesCount - 1)

/-- What the search selects in the node at level `i`, which is `k` levels above the leaves. -/
def selectedAt (s : St) (i k block : ℕ) : Option ℕ :=
  if k = 0 then ((findLeaf block i s).2.path i).extent
  else ((ext4ExtBinsearchIdx i block s).2.path i).index

/-- The path takes in the block `b` at level `i`. -/
def heldAt (s : St) (i b : ℕ) : St :=
  s.setPath i { s.path i with block := b, header := .block b }

/-- The search of the node `eh` at height `k`, in a block of `bs` bytes, has selected `sel`. -/
structure SearchedSafely (bs : ℕ) (eh : Node) (k block : ℕ) (sel : Option ℕ) : Prop where
  probes : ∀ m ∈ (probes eh block).log, Inside bs m
  last : Inside bs (eh.entriesCount - 1)
  maximal : Inside bs (eh.maxEntriesCount - 1)
  tail : tailOffset eh + 4 ≤ bs
  /-- What is selected is one of the valid entries. -/
  selected : ∀ p, sel = some p → p < eh.entriesCount ∧ Inside bs p
  /-- Nothing is selected only in an empty leaf. -/
  null : sel = none → k = 0 ∧ eh.entriesCount = 0

section
variable {env : Env} {s t : St} {eh : Node} {f : ℕ → ℕ} {bs b block i k n l r p : ℕ}

theorem probeLoop_succ : probeLoop f block (n + 1) l r = if l ≤ r then (do
    emit (l + (r - l) / 2)
    if block < f (l + (r - l) / 2) then probeLoop f block n l (l + (r - l) / 2 - 1)
    else probeLoop f block n (l + (r - l) / 2 + 1) r) else pure l := rfl

/-- The probes are those of the search itself. -/
theorem val_probeLoop : (probeLoop f block n l r).val = binsearchLoop f block n l r := by
  induction n generalizing l r with
  | zero => rfl
  | succ n ih =>
    rw [probeLoop_succ, binsearchLoop, val_ite, val_bind, val_ite, ih, ih, val_pure]

theorem val_probes : (probes eh block).val - 1 = binsearch eh block :=
  congrArg (· - 1) val_probeLoop

/-- The turns granted to the loop are enough: one more makes no difference. -/
theorem probeLoop_enough (hl : 1 ≤ l) (hn : r + 1 - l ≤ n) :
    probeLoop f block (n + 1) l r = probeLoop f block n l r := by
  induction n generalizing l r with
  | zero =>
    rw [probeLoop_succ, if_neg (by omega)]
    rfl
  | succ n ih =>
    rw [probeLoop_succ]
    conv_rhs => rw [probeLoop_succ]
    by_cases hle : l ≤ r
    · rw [if_pos hle, if_pos hle, ih hl (by omega), ih (by omega) (by omega)]
    · rw [if_neg hle, if_neg hle]

/-- The probes lie between the bounds of the loop. -/
theorem logs_probeLoop : Logs (fun m => l ≤ m ∧ m ≤ r) (probeLoop f block n l r) := by
  induction n generalizing l r with
  | zero => exact logs_pure l
  | succ n ih =>
    rw [probeLoop_succ]
    refine logs_ite (fun hle => logs_bind (logs_emit (by omega)) (logs_ite (fun _ m hm => ?_)
      fun _ m hm => ?_)) fun _ => logs_pure l
    · have := ih m hm
      omega
    · have := ih m hm
      omega

theorem inside_iff : Inside bs p ↔ 24 + 12 * p ≤ bs := by
  unfold Inside entryOffset
  omega

/-- With the tail inside the block, every entry up to `eh_max` is. -/
theorem inside_of_tail (ht : tailOffset eh + 4 ≤ bs) (hp : p < eh.maxEntriesCount) :
    Inside bs p := by
  rw [inside_iff]
  unfold tailOffset at ht
  omega

/-! ### Accepted nodes -/

theorem check_bounds (hc : ext4ExtCheck eh k = true) :
    0 < eh.maxEntriesCount ∧ eh.entriesCount ≤ eh.maxEntriesCount := by
  unfold ext4ExtCheck at hc
  rw [decide_eq_true_eq] at hc
  exact ⟨by omega, hc.2.2.2⟩

theorem selected_index (hk : k ≠ 0) (hn : s.nodes (.block b) = eh) :
    selectedAt (heldAt s i b) i k block = some (binsearch eh block) := by
  rw [selectedAt, if_neg hk]
  simp [ext4ExtBinsearchIdx, heldAt, hn]

theorem selected_extent (hn : s.nodes (.block b) = eh) : selectedAt (heldAt s i b) i 0 block =
    if eh.entriesCount = 0 then none else some (binsearch eh block) := by
  obtain ⟨t, ht, -, -, -, -, -, -, -, hex⟩ := @findLeaf_run (heldAt s i b) block i
  have hheader : ((heldAt s i b).path i).header = .block b := by simp [heldAt]
  have hnodes : (heldAt s i b).nodes (.block b) = eh := hn
  rw [selectedAt, if_pos rfl, ht, hex, hheader, hnodes]

/-- **The search of an accepted node is safe exactly when the tail lies inside the block and an
index node has an entry.** -/
theorem searchedSafely_iff {bytes : ℕ → UInt8}
    (hread : readExtentTreeBlock env b k s = (.ok (), t))
    (hbytes : s.nodes (.block b) = nodeAt bytes) :
    SearchedSafely env.blockSize (nodeAt bytes) k block (selectedAt (heldAt t i b) i k block) ↔
      tailOffset (nodeAt bytes) + 4 ≤ env.blockSize ∧
        (0 < k → 0 < (nodeAt bytes).entriesCount) := by
  obtain ⟨ht, hc⟩ := read_ok hread
  have htn : t.nodes (.block b) = nodeAt bytes := by rw [ht, ← hbytes]
  rw [hbytes] at hc
  generalize nodeAt bytes = eh at hc htn
  obtain ⟨hmax, hle⟩ := check_bounds hc
  constructor
  · intro hs
    refine ⟨hs.tail, fun hk => ?_⟩
    have := (hs.selected _ (selected_index (by omega) htn)).1
    omega
  · rintro ⟨htail, hindex⟩
    have hvalid : ∀ p, p < eh.entriesCount → p < eh.entriesCount ∧ Inside env.blockSize p :=
      fun p hp => ⟨hp, inside_of_tail htail (by omega)⟩
    unfold tailOffset at htail
    refine ⟨fun m hm => ?_, ?_, ?_, htail, fun p hp => ?_, fun hnone => ?_⟩
    · have := logs_probeLoop m hm
      exact (hvalid m (by omega)).2
    · unfold Inside entryOffset
      omega
    · unfold Inside entryOffset
      omega
    · refine hvalid p ?_
      by_cases hk : k = 0
      · subst hk
        rw [selected_extent htn] at hp
        split at hp
        · cases hp
        · cases hp
          exact binsearch_lt block (by omega)
      · rw [selected_index hk htn] at hp
        cases hp
        exact binsearch_lt block (hindex (by omega))
    · by_cases hk : k = 0
      · subst hk
        rw [selected_extent htn] at hnone
        split at hnone
        · exact ⟨rfl, by assumption⟩
        · cases hnone
      · rw [selected_index hk htn] at hnone
        cases hnone

end

/-- A leaf header of 1024 bytes that claims `n` entries and room for `n`. -/
def claimsEntries (n : UInt8) : ℕ → UInt8 := fun off =>
  if off = 0 then 0x0a else if off = 1 then 0xf3 else if off = 2 ∨ off = 4 then n else 0

/-- A store whose blocks all hold these bytes. -/
def blocksOf (bytes : ℕ → UInt8) : St := stateOf (fun _ => nodeAt bytes) fun _ => false

/-- The 84 entries there is room for are searched inside the block. -/
theorem searchedSafely_full : SearchedSafely 1024 (nodeAt (claimsEntries 84)) 0 7
    (selectedAt (heldAt (readExtentTreeBlock steadyDisk 9 0 (blocksOf (claimsEntries 84))).2 0 9)
      0 0 7) :=
  (@searchedSafely_iff steadyDisk (blocksOf (claimsEntries 84)) _ 9 7 0 0 (claimsEntries 84)
    (Prod.ext (by decide +kernel) rfl) rfl).mpr ⟨by decide +kernel, by decide⟩

/-- With 85 entries the last one ends behind the block, and the block is accepted. -/
theorem overfull_accepted : ¬ ∀ (env : Env) (s t : St) (bytes : ℕ → UInt8) (b block i k : ℕ),
    SizeOk env → s.nodes (.block b) = nodeAt bytes →
    readExtentTreeBlock env b k s = (.ok (), t) →
    SearchedSafely env.blockSize (nodeAt bytes) k block
      (selectedAt (heldAt t i b) i k block) := by
  intro hall
  have hlast := (hall steadyDisk (blocksOf (claimsEntries 85)) _ (claimsEntries 85) 9 7 0 0
    (by unfold SizeOk; decide) rfl (Prod.ext (by decide +kernel) rfl)).last
  have hcount : (nodeAt (claimsEntries 85)).entriesCount = 85 := by decide +kernel
  rw [hcount] at hlast
  exact absurd hlast.2 (by decide +kernel)

end Ext4Fsd.Extent.NodeBounds
