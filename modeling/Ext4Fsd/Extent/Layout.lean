import Ext4Fsd.Lib.CInt

/-! # Nodes of the extent tree

A node is a header and an array of twelve-byte entries. An entry is read as `struct ext4_extent` in
a leaf and as `struct ext4_extent_idx` above, on the same bytes: the index's `ei_leaf_lo` lies over
`ee_len` and `ee_start_hi`, its `ei_leaf_hi` over the low half of `ee_start_lo`. The fields are the
unsigned little-endian words of the disk, also inside `ext4_ext_get_actual_len` and
`ext4_ext_is_unwritten`: this is the reading that the comments of `ext4_fs.h` describe. `Fields` has
these accessors on the signed types that the driver declares, and says where the two agree.

A pointer into the entry array is a position. With `n` entries, `p <= EXT_LAST_EXTENT(eh)` is
`p < n` and `p == EXT_LAST_EXTENT(eh)` is `p + 1 = n`; likewise for `EXT_MAX_EXTENT` and the
capacity. -/

namespace Ext4Fsd.Extent.Layout

open Ext4Fsd.Lib.CInt

/-- The 16-bit word a value is stored as. -/
def half (x : ℤ) : ℕ := (x % 2 ^ 16).toNat

/-- The 32-bit word a value is stored as. -/
def word (x : ℤ) : ℕ := (x % 2 ^ 32).toNat

theorem half_natCast {n : ℕ} (h : n < 2 ^ 16) : half n = n := by unfold half; omega

theorem word_natCast {n : ℕ} (h : n < 2 ^ 32) : word n = n := by unfold word; omega

theorem half_of_eq {x : ℤ} {n : ℕ} (hx : x = n) (h : n < 2 ^ 16) : half x = n := by
  rw [hx, half_natCast h]

theorem word_of_eq {x : ℤ} {n : ℕ} (hx : x = n) (h : n < 2 ^ 32) : word x = n := by
  rw [hx, word_natCast h]

/-! ### Entries -/

/-- Twelve bytes of an entry array, under the names by which `ext4_extent.c` reads an extent. -/
structure Slot where
  firstBlock : ℕ
  blockCount : ℕ
  startHi : ℕ
  startLo : ℕ
deriving DecidableEq, Inhabited, Repr

def extInitMaxLen : ℕ := 2 ^ 15

def extUnwrittenMaxLen : ℕ := extInitMaxLen - 1

def ext4ExtIsUnwritten (ex : Slot) : Bool := extInitMaxLen < ex.blockCount

def ext4ExtGetActualLen (ex : Slot) : ℕ :=
  if ex.blockCount ≤ extInitMaxLen then ex.blockCount else ex.blockCount - extInitMaxLen

def ext4ExtMarkUnwritten (ex : Slot) : Slot :=
  { ex with blockCount := ex.blockCount ||| extInitMaxLen }

def ext4ExtMarkInitialized (ex : Slot) : Slot := { ex with blockCount := ext4ExtGetActualLen ex }

def ext4ExtPblock (ex : Slot) : ℕ := ex.startLo + 2 ^ 32 * ex.startHi

def ext4ExtStorePblock (ex : Slot) (pb : ℤ) : Slot :=
  { ex with startLo := word pb, startHi := half (pb / 2 ^ 32) }

/-- `ei_leaf_lo` and `ei_leaf_hi` of the entry read as an index. -/
def ext4IdxPblock (ix : Slot) : ℕ :=
  ix.blockCount + 2 ^ 16 * ix.startHi + 2 ^ 32 * (ix.startLo % 2 ^ 16)

/-- The two bytes of `ei_unused` keep their contents. -/
def ext4IdxStorePblock (ix : Slot) (pb : ℤ) : Slot :=
  { ix with
    blockCount := half pb
    startHi := half (pb / 2 ^ 16)
    startLo := half (pb / 2 ^ 32) + 2 ^ 16 * (ix.startLo / 2 ^ 16) }

/-- The fields of a slot fit their widths. -/
structure Fits (ex : Slot) : Prop where
  firstBlock : ex.firstBlock < 2 ^ 32
  blockCount : ex.blockCount < 2 ^ 16
  startHi : ex.startHi < 2 ^ 16
  startLo : ex.startLo < 2 ^ 32

section
variable {ex : Slot} {p : ℕ}

@[simp] theorem idxPblock_store (h : p < 2 ^ 48) :
    ext4IdxPblock (ext4IdxStorePblock ex p) = p := by
  unfold ext4IdxPblock ext4IdxStorePblock half
  dsimp only
  omega

@[simp] theorem extPblock_store (h : p < 2 ^ 48) :
    ext4ExtPblock (ext4ExtStorePblock ex p) = p := by
  unfold ext4ExtPblock ext4ExtStorePblock half word
  dsimp only
  omega

@[simp] theorem firstBlock_idxStore (pb : ℤ) :
    (ext4IdxStorePblock ex pb).firstBlock = ex.firstBlock := rfl

@[simp] theorem firstBlock_extStore (pb : ℤ) :
    (ext4ExtStorePblock ex pb).firstBlock = ex.firstBlock := rfl

@[simp] theorem blockCount_extStore (pb : ℤ) :
    (ext4ExtStorePblock ex pb).blockCount = ex.blockCount := rfl

/-- Storing the physical block a slot has gives the slot back. -/
theorem extStore_self {ex' : Slot} (h : Fits ex) (hf : ex'.firstBlock = ex.firstBlock)
    (hc : ex'.blockCount = ex.blockCount) : ext4ExtStorePblock ex' (ext4ExtPblock ex) = ex := by
  have hlo := h.startLo
  have hhi := h.startHi
  cases ex
  unfold ext4ExtStorePblock ext4ExtPblock word half
  simp only [Slot.mk.injEq]
  dsimp only at *
  refine ⟨hf, hc, ?_, ?_⟩ <;> omega

theorem actualLen_le (h : Fits ex) : ext4ExtGetActualLen ex ≤ extInitMaxLen := by
  have hc := h.blockCount
  unfold ext4ExtGetActualLen extInitMaxLen
  split_ifs <;> omega

theorem actualLen_of_unwritten (h : Fits ex) (hu : ext4ExtIsUnwritten ex = true) :
    ex.blockCount = ext4ExtGetActualLen ex + extInitMaxLen ∧
      ext4ExtGetActualLen ex ≤ extUnwrittenMaxLen ∧ 0 < ext4ExtGetActualLen ex := by
  have hc := h.blockCount
  unfold ext4ExtIsUnwritten at hu
  unfold ext4ExtGetActualLen extUnwrittenMaxLen
  unfold extInitMaxLen at *
  simp only [decide_eq_true_eq] at hu
  rw [if_neg (by omega)]
  omega

theorem actualLen_of_written (hu : ext4ExtIsUnwritten ex = false) :
    ext4ExtGetActualLen ex = ex.blockCount := by
  unfold ext4ExtIsUnwritten at hu
  unfold ext4ExtGetActualLen
  simp only [decide_eq_false_iff_not, not_lt] at hu
  rw [if_pos hu]

end

/-! ### Nodes -/

/-- A node: the header's fields and the entry array behind it. -/
structure Node where
  magic : ℕ
  depth : ℕ
  entriesCount : ℕ
  maxEntriesCount : ℕ
  slots : ℕ → Slot

def ext4ExtentMagic : ℕ := 0xf30a

/-- Where a node lies: in the inode, or in a block of the store. -/
inductive Hdr
  | inode
  | block (lb : ℕ)
deriving DecidableEq, Repr

/-- The valid entries, in order. -/
def Node.entries (eh : Node) : List Slot := (List.range eh.entriesCount).map eh.slots

/-- `memmove` of `len` entries from position `s` of `src` to position `d` of `dst`. -/
def memmove (dst : ℕ → Slot) (d : ℕ) (src : ℕ → Slot) (s len : ℕ) : ℕ → Slot :=
  fun j => if d ≤ j ∧ j < d + len then src (s + (j - d)) else dst j

theorem memmove_in {dst src : ℕ → Slot} {d s len j : ℕ} (h1 : d ≤ j) (h2 : j < d + len) :
    memmove dst d src s len j = src (s + (j - d)) := if_pos ⟨h1, h2⟩

theorem memmove_out {dst src : ℕ → Slot} {d s len j : ℕ} (h : j < d ∨ d + len ≤ j) :
    memmove dst d src s len j = dst j := if_neg (by omega)

section
variable {eh : Node} {p : ℕ}

@[simp] theorem length_entries : eh.entries.length = eh.entriesCount := by
  simp [Node.entries]

theorem getElem_entries (h : p < eh.entries.length) : eh.entries[p] = eh.slots p := by
  simp [Node.entries]

theorem mem_entries {s : Slot} : s ∈ eh.entries ↔ ∃ p < eh.entriesCount, eh.slots p = s := by
  simp [Node.entries]

/-- The entries around position `p`. -/
theorem entries_split (h : p < eh.entriesCount) :
    eh.entries = eh.entries.take p ++ eh.slots p :: eh.entries.drop (p + 1) := by
  have hp : p < eh.entries.length := by simpa using h
  rw [← getElem_entries hp, ← List.drop_eq_getElem_cons hp, List.take_append_drop]

theorem entries_eq_nil : eh.entries = [] ↔ eh.entriesCount = 0 := by
  rw [← List.length_eq_zero_iff, length_entries]

theorem head_entries (h : 0 < eh.entriesCount) : eh.entries.head? = some (eh.slots 0) := by
  have hp : 0 < eh.entries.length := by simpa using h
  rw [List.head?_eq_getElem?, List.getElem?_eq_getElem hp, getElem_entries]

/-- Two nodes whose slots agree on the valid positions have the same entries. -/
theorem entries_congr {eh' : Node} (hc : eh'.entriesCount = eh.entriesCount)
    (hs : ∀ j < eh.entriesCount, eh'.slots j = eh.slots j) : eh'.entries = eh.entries := by
  unfold Node.entries
  rw [hc]
  refine List.map_congr_left fun j hj => hs j (List.mem_range.mp hj)

/-- A prefix of the entries: only the count was lowered. -/
theorem entries_take {eh' : Node} {m : ℕ} (hc : eh'.entriesCount = m) (hm : m ≤ eh.entriesCount)
    (hs : ∀ j < m, eh'.slots j = eh.slots j) : eh'.entries = eh.entries.take m := by
  refine List.ext_getElem (by simp [hc]; omega) fun j h1 h2 => ?_
  rw [List.getElem_take, getElem_entries, getElem_entries, hs j (by simpa [hc] using h1)]

/-- A suffix of the entries, behind one more or not. -/
theorem entries_drop {eh' : Node} {a : ℕ} (hc : eh'.entriesCount = eh.entriesCount - a)
    (hs : ∀ j < eh.entriesCount - a, eh'.slots j = eh.slots (a + j)) :
    eh'.entries = eh.entries.drop a := by
  refine List.ext_getElem (by simp [hc]) fun j h1 h2 => ?_
  rw [List.getElem_drop, getElem_entries, getElem_entries, hs j (by simpa [hc] using h1)]

theorem entries_cons_drop {eh' : Node} {a : ℕ} (hc : eh'.entriesCount = eh.entriesCount - a + 1)
    (hs : ∀ j < eh.entriesCount - a, eh'.slots (j + 1) = eh.slots (a + j)) :
    eh'.entries = eh'.slots 0 :: eh.entries.drop a := by
  refine List.ext_getElem (by simp [hc]) fun j h1 h2 => ?_
  rw [getElem_entries]
  rcases j with _ | j
  · rfl
  · rw [List.getElem_cons_succ, List.getElem_drop, getElem_entries,
      hs j (by simpa [hc] using h1)]

/-- The entries after one was put in at position `p` and the later ones moved up. -/
theorem entries_insert {eh' : Node} {s : Slot} (hp : p ≤ eh.entriesCount)
    (hc : eh'.entriesCount = eh.entriesCount + 1) (hlo : ∀ j < p, eh'.slots j = eh.slots j)
    (hat : eh'.slots p = s)
    (hhi : ∀ j, p ≤ j → j < eh.entriesCount → eh'.slots (j + 1) = eh.slots j) :
    eh'.entries = eh.entries.take p ++ s :: eh.entries.drop p := by
  have hlen : (eh.entries.take p).length = p := by simp; omega
  refine List.ext_getElem (by simp [hc]; omega) fun j h1 h2 => ?_
  rw [getElem_entries]
  rw [length_entries, hc] at h1
  rcases Nat.lt_trichotomy j p with hj | rfl | hj
  · rw [List.getElem_append_left (by omega), List.getElem_take, getElem_entries, hlo j hj]
  · rw [List.getElem_append_right (by omega)]
    simp [hlen, hat]
  · obtain ⟨i, rfl⟩ : ∃ i, j = i + 1 := ⟨j - 1, by omega⟩
    rw [List.getElem_append_right (by omega)]
    simp only [hlen, show i + 1 - p = i - p + 1 by omega, List.getElem_cons_succ,
      List.getElem_drop, getElem_entries, show p + (i - p) = i by omega]
    exact hhi i (by omega) (by omega)

/-- The entries after the positions from `a` to `b` were taken out and the later ones moved down. -/
theorem entries_erase {eh' : Node} {a b : ℕ} (hab : a ≤ b) (hb : b ≤ eh.entriesCount)
    (hc : eh'.entriesCount = eh.entriesCount - (b - a)) (hlo : ∀ j < a, eh'.slots j = eh.slots j)
    (hhi : ∀ j, b ≤ j → j < eh.entriesCount → eh'.slots (a + (j - b)) = eh.slots j) :
    eh'.entries = eh.entries.take a ++ eh.entries.drop b := by
  have hlen : (eh.entries.take a).length = a := by simp; omega
  refine List.ext_getElem (by simp [hc]; omega) fun j h1 h2 => ?_
  rw [getElem_entries]
  rw [length_entries, hc] at h1
  by_cases hj : j < a
  · rw [List.getElem_append_left (by omega), List.getElem_take, getElem_entries, hlo j hj]
  · rw [List.getElem_append_right (by omega)]
    simp only [hlen, List.getElem_drop, getElem_entries]
    rw [← hhi (b + (j - a)) (by omega) (by omega)]
    congr 1
    omega

/-- The entries after the one at position `p` was rewritten. -/
theorem entries_set {eh' : Node} {s : Slot} (hp : p < eh.entriesCount)
    (hc : eh'.entriesCount = eh.entriesCount) (hat : eh'.slots p = s)
    (hne : ∀ j, j ≠ p → eh'.slots j = eh.slots j) :
    eh'.entries = eh.entries.take p ++ s :: eh.entries.drop (p + 1) := by
  have hlen : (eh.entries.take p).length = p := by simp; omega
  refine List.ext_getElem (by simp [hc]; omega) fun j h1 h2 => ?_
  rw [getElem_entries]
  rcases Nat.lt_trichotomy j p with hj | rfl | hj
  · rw [List.getElem_append_left (by omega), List.getElem_take, getElem_entries, hne j (by omega)]
  · rw [List.getElem_append_right (by omega)]
    simp [hlen, hat]
  · obtain ⟨i, rfl⟩ : ∃ i, j = i + 1 := ⟨j - 1, by omega⟩
    rw [List.getElem_append_right (by omega)]
    simp only [hlen, show i + 1 - p = i - p + 1 by omega, List.getElem_cons_succ,
      List.getElem_drop, getElem_entries, show p + 1 + (i - p) = i + 1 by omega]
    exact hne _ (by omega)

end

end Ext4Fsd.Extent.Layout
