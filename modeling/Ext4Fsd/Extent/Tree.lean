import Ext4Fsd.Lib.Intervals
import Ext4Fsd.Extent.Store

/-! # The tree in the store

The subtree of height `k` at a header is read off the nodes by recursion on `k`: `exts` lists its
extents in order and `refs` its nodes. `Sub` is the shape of a subtree: checked headers, no node
without entries, and in front of each child the first logical block below it. `TreeOk` is the
well-formed tree of an inode: its extents are sound and in order, and its nodes are distinct used
blocks. -/

namespace Ext4Fsd.Extent.Tree

open Ext4Fsd.Lib.Intervals Ext4Fsd.Extent.Layout Ext4Fsd.Extent.Store

abbrev Nodes := Hdr → Node

/-- The node an index entry points to. -/
def child (ix : Slot) : Hdr := .block (ext4IdxPblock ix)

/-- The extents of the subtree of height `k` at `h`, in order. -/
def exts (nodes : Nodes) : ℕ → Hdr → List Slot
  | 0, h => (nodes h).entries
  | k + 1, h => (nodes h).entries.flatMap fun ix => exts nodes k (child ix)

/-- The extents below a list of index entries. -/
abbrev extsOf (nodes : Nodes) (k : ℕ) (l : List Slot) : List Slot :=
  l.flatMap fun ix => exts nodes k (child ix)

/-- The nodes of the subtree of height `k` at `h`. -/
def refs (nodes : Nodes) : ℕ → Hdr → List Hdr
  | 0, h => [h]
  | k + 1, h => h :: (nodes h).entries.flatMap fun ix => refs nodes k (child ix)

abbrev refsOf (nodes : Nodes) (k : ℕ) (l : List Slot) : List Hdr :=
  l.flatMap fun ix => refs nodes k (child ix)

theorem exts_succ (nodes : Nodes) (k : ℕ) (h : Hdr) :
    exts nodes (k + 1) h = extsOf nodes k (nodes h).entries := rfl

theorem refs_succ (nodes : Nodes) (k : ℕ) (h : Hdr) :
    refs nodes (k + 1) h = h :: refsOf nodes k (nodes h).entries := rfl

section
variable {nodes : Nodes} {k : ℕ} {ix : Slot} {l l' : List Slot}

@[simp] theorem extsOf_nil : extsOf nodes k [] = [] := rfl

@[simp] theorem refsOf_nil : refsOf nodes k [] = [] := rfl

theorem extsOf_append : extsOf nodes k (l ++ l') = extsOf nodes k l ++ extsOf nodes k l' :=
  List.flatMap_append

theorem refsOf_append : refsOf nodes k (l ++ l') = refsOf nodes k l ++ refsOf nodes k l' :=
  List.flatMap_append

theorem extsOf_cons : extsOf nodes k (ix :: l) = exts nodes k (child ix) ++ extsOf nodes k l :=
  List.flatMap_cons

theorem refsOf_cons : refsOf nodes k (ix :: l) = refs nodes k (child ix) ++ refsOf nodes k l :=
  List.flatMap_cons

end

theorem mem_refs_self (nodes : Nodes) (k : ℕ) (h : Hdr) : h ∈ refs nodes k h := by
  cases k <;> simp [refs]

/-! ### Shape -/

/-- The first logical block after an extent. -/
def extEnd (ex : Slot) : ℕ := ex.firstBlock + ext4ExtGetActualLen ex

/-- The extents of the list are in order and disjoint. -/
abbrev Sorted (l : List Slot) : Prop := Ordered Slot.firstBlock extEnd l

/-- The extents of the list start one after the other. -/
abbrev Increasing (l : List Slot) : Prop := l.Pairwise fun x y => x.firstBlock < y.firstBlock

/-- A stored extent: not empty, within the logical blocks of a file and the blocks of a disk. -/
structure ExtOk (ex : Slot) : Prop where
  fits : Fits ex
  pos : 0 < ext4ExtGetActualLen ex
  logical : extEnd ex ≤ 2 ^ 32
  physical : ext4ExtPblock ex + ext4ExtGetActualLen ex ≤ 2 ^ 48

/-- The entries a node has room for. -/
def capOf (env : Env) : Hdr → ℕ
  | .inode => ext4ExtSpaceRoot
  | .block _ => ext4ExtSpaceBlock env

/-- The header of a node at height `k`. -/
structure HeaderOk (env : Env) (nodes : Nodes) (k : ℕ) (h : Hdr) : Prop where
  magic : (nodes h).magic = ext4ExtentMagic
  depth : (nodes h).depth = k
  max_pos : 0 < (nodes h).maxEntriesCount
  max_le : (nodes h).maxEntriesCount ≤ capOf env h
  entries_le : (nodes h).entriesCount ≤ (nodes h).maxEntriesCount

/-- The key in front of a child is its first logical block. -/
def KeyOk (nodes : Nodes) (k : ℕ) (ix : Slot) : Prop :=
  (exts nodes k (child ix)).head?.map Slot.firstBlock = some ix.firstBlock

/-- The subtree of height `k` at `h` is well-formed. -/
def Sub (env : Env) (nodes : Nodes) : ℕ → Hdr → Prop
  | 0, h => HeaderOk env nodes 0 h ∧ (nodes h).entries ≠ []
  | k + 1, h => HeaderOk env nodes (k + 1) h ∧ (nodes h).entries ≠ [] ∧
      ∀ ix ∈ (nodes h).entries, Sub env nodes k (child ix) ∧ KeyOk nodes k ix

/-- The children behind the entries of the list are well-formed, and their keys exact. -/
def Forest (env : Env) (nodes : Nodes) (k : ℕ) (l : List Slot) : Prop :=
  ∀ ix ∈ l, Sub env nodes k (child ix) ∧ KeyOk nodes k ix

/-- The block sizes of the file system. -/
def SizeOk (env : Env) : Prop := 1024 ≤ env.blockSize ∧ env.blockSize ≤ 65536

/-- The extents of the inode. -/
def treeExts (s : St) : List Slot := exts s.nodes (extDepth s) .inode

/-- The nodes of the inode's tree. -/
def treeRefs (s : St) : List Hdr := refs s.nodes (extDepth s) .inode

/-- A root without entries is a leaf. -/
def EmptyRoot (env : Env) (nodes : Nodes) : Prop :=
  HeaderOk env nodes 0 .inode ∧ (nodes .inode).entries = []

/-- **A well-formed extent tree.** -/
structure TreeOk (env : Env) (s : St) : Prop where
  shape : Sub env s.nodes (extDepth s) .inode ∨ EmptyRoot env s.nodes
  extOk : ∀ ex ∈ treeExts s, ExtOk ex
  sorted : Sorted (treeExts s)
  nodup : (treeRefs s).Nodup
  /-- The allocator knows the tree's blocks, and block zero is not one of them. -/
  used : ∀ b, Hdr.block b ∈ treeRefs s → s.used b = true ∧ b ≠ 0

section
variable {env : Env} {nodes nodes' : Nodes} {k : ℕ} {h : Hdr} {ix : Slot} {l l' : List Slot}

theorem sub_succ : Sub env nodes (k + 1) h ↔
    HeaderOk env nodes (k + 1) h ∧ (nodes h).entries ≠ [] ∧ Forest env nodes k (nodes h).entries :=
  Iff.rfl

theorem Sub.header (hs : Sub env nodes k h) : HeaderOk env nodes k h := by
  cases k <;> exact hs.1

theorem Sub.entries_ne_nil (hs : Sub env nodes k h) : (nodes h).entries ≠ [] := by
  cases k with
  | zero => exact hs.2
  | succ k => exact hs.2.1

theorem Sub.entriesCount_pos (hs : Sub env nodes k h) : 0 < (nodes h).entriesCount := by
  have hne := hs.entries_ne_nil
  rw [Ne, entries_eq_nil] at hne
  omega

theorem Forest.append : Forest env nodes k (l ++ l') ↔
    Forest env nodes k l ∧ Forest env nodes k l' := by
  unfold Forest
  simp only [List.mem_append]
  constructor
  · intro hf
    exact ⟨fun ix hx => hf ix (Or.inl hx), fun ix hx => hf ix (Or.inr hx)⟩
  · rintro ⟨h1, h2⟩ ix (hx | hx)
    · exact h1 ix hx
    · exact h2 ix hx

theorem Forest.cons : Forest env nodes k (ix :: l) ↔
    (Sub env nodes k (child ix) ∧ KeyOk nodes k ix) ∧ Forest env nodes k l := by
  unfold Forest
  simp

theorem Forest.nil : Forest env nodes k [] := by
  unfold Forest
  simp

theorem KeyOk.exts_ne_nil (hk : KeyOk nodes k ix) : exts nodes k (child ix) ≠ [] := by
  intro hnil
  unfold KeyOk at hk
  rw [hnil] at hk
  simp at hk

/-- A well-formed subtree has an extent. -/
theorem Sub.exts_ne_nil (hs : Sub env nodes k h) : exts nodes k h ≠ [] := by
  cases k with
  | zero => exact hs.2
  | succ k =>
    obtain ⟨-, hne, hf⟩ := sub_succ.mp hs
    obtain ⟨ix, hix⟩ := List.exists_mem_of_ne_nil _ hne
    rw [exts_succ, Ne, List.flatMap_eq_nil_iff]
    intro hall
    exact (hf ix hix).2.exts_ne_nil (hall ix hix)

theorem Forest.extsOf_eq_nil (hf : Forest env nodes k l) :
    extsOf nodes k l = [] ↔ l = [] := by
  constructor
  · intro hnil
    rcases l with _ | ⟨ix, l⟩
    · rfl
    · rw [extsOf_cons, List.append_eq_nil_iff] at hnil
      exact absurd hnil.1 (hf ix List.mem_cons_self).2.exts_ne_nil
  · rintro rfl
    rfl

theorem ExtOk.lt_end {ex : Slot} (hex : ExtOk ex) : ex.firstBlock < extEnd ex := by
  have := hex.pos
  unfold extEnd
  omega

theorem increasing_of_sorted (hs : Sorted l) (hok : ∀ ex ∈ l, ExtOk ex) : Increasing l :=
  ordered_lo hs fun x hx => (hok x hx).lt_end

theorem TreeOk.increasing {s : St} (ht : TreeOk env s) : Increasing (treeExts s) :=
  increasing_of_sorted ht.sorted ht.extOk

/-- A tree whose extents need only start in order. -/
structure Shaped (env : Env) (s : St) : Prop where
  shape : Sub env s.nodes (extDepth s) .inode ∨ EmptyRoot env s.nodes
  inc : Increasing (treeExts s)
  nodup : (treeRefs s).Nodup
  used : ∀ b, Hdr.block b ∈ treeRefs s → s.used b = true ∧ b ≠ 0

theorem TreeOk.shaped {s : St} (ht : TreeOk env s) : Shaped env s :=
  ⟨ht.shape, ht.increasing, ht.nodup, ht.used⟩

/-! ### Dependence on the nodes -/

theorem refs_congr (heq : ∀ r ∈ refs nodes k h, nodes' r = nodes r) :
    refs nodes' k h = refs nodes k h := by
  induction k generalizing h with
  | zero => rfl
  | succ k ih =>
    have hh := heq h (mem_refs_self nodes _ h)
    rw [refs_succ, refs_succ, hh]
    congr 1
    refine List.flatMap_congr fun ix hix => ih fun r hr => heq r ?_
    exact List.mem_cons_of_mem _ (List.mem_flatMap.mpr ⟨ix, hix, hr⟩)

theorem exts_congr (heq : ∀ r ∈ refs nodes k h, nodes' r = nodes r) :
    exts nodes' k h = exts nodes k h := by
  induction k generalizing h with
  | zero => rw [exts, exts, heq h (mem_refs_self nodes _ h)]
  | succ k ih =>
    have hh := heq h (mem_refs_self nodes _ h)
    rw [exts_succ, exts_succ, hh]
    refine List.flatMap_congr fun ix hix => ih fun r hr => heq r ?_
    exact List.mem_cons_of_mem _ (List.mem_flatMap.mpr ⟨ix, hix, hr⟩)

theorem headerOk_congr (heq : nodes' h = nodes h) (hh : HeaderOk env nodes k h) :
    HeaderOk env nodes' k h := by
  obtain ⟨h1, h2, h3, h4, h5⟩ := hh
  constructor <;> rw [heq] <;> assumption

theorem sub_congr (heq : ∀ r ∈ refs nodes k h, nodes' r = nodes r) (hs : Sub env nodes k h) :
    Sub env nodes' k h := by
  induction k generalizing h with
  | zero =>
    have hh := heq h (mem_refs_self nodes _ h)
    exact ⟨headerOk_congr hh hs.1, by rw [hh]; exact hs.2⟩
  | succ k ih =>
    have hh := heq h (mem_refs_self nodes _ h)
    obtain ⟨h1, h2, h3⟩ := hs
    refine ⟨headerOk_congr hh h1, by rwa [hh], ?_⟩
    rw [hh]
    intro ix hix
    have hbelow : ∀ r ∈ refs nodes k (child ix), nodes' r = nodes r := fun r hr =>
      heq r (List.mem_cons_of_mem _ (List.mem_flatMap.mpr ⟨ix, hix, hr⟩))
    refine ⟨ih hbelow (h3 ix hix).1, ?_⟩
    unfold KeyOk
    rw [exts_congr hbelow]
    exact (h3 ix hix).2

theorem extsOf_congr (heq : ∀ r ∈ refsOf nodes k l, nodes' r = nodes r) :
    extsOf nodes' k l = extsOf nodes k l :=
  List.flatMap_congr fun ix hix => exts_congr fun r hr =>
    heq r (List.mem_flatMap.mpr ⟨ix, hix, hr⟩)

theorem refsOf_congr (heq : ∀ r ∈ refsOf nodes k l, nodes' r = nodes r) :
    refsOf nodes' k l = refsOf nodes k l :=
  List.flatMap_congr fun ix hix => refs_congr fun r hr =>
    heq r (List.mem_flatMap.mpr ⟨ix, hix, hr⟩)

theorem forest_congr (heq : ∀ r ∈ refsOf nodes k l, nodes' r = nodes r)
    (hf : Forest env nodes k l) : Forest env nodes' k l := by
  intro ix hix
  have hbelow : ∀ r ∈ refs nodes k (child ix), nodes' r = nodes r := fun r hr =>
    heq r (List.mem_flatMap.mpr ⟨ix, hix, hr⟩)
  refine ⟨sub_congr hbelow (hf ix hix).1, ?_⟩
  unfold KeyOk
  rw [exts_congr hbelow]
  exact (hf ix hix).2

end

/-! ### Deciding well-formedness -/

instance (ex : Slot) : Decidable (Fits ex) :=
  decidable_of_iff (ex.firstBlock < 2 ^ 32 ∧ ex.blockCount < 2 ^ 16 ∧ ex.startHi < 2 ^ 16 ∧
    ex.startLo < 2 ^ 32) ⟨fun ⟨h1, h2, h3, h4⟩ => ⟨h1, h2, h3, h4⟩, fun ⟨h1, h2, h3, h4⟩ =>
    ⟨h1, h2, h3, h4⟩⟩

instance (ex : Slot) : Decidable (ExtOk ex) :=
  decidable_of_iff (Fits ex ∧ 0 < ext4ExtGetActualLen ex ∧ extEnd ex ≤ 2 ^ 32 ∧
    ext4ExtPblock ex + ext4ExtGetActualLen ex ≤ 2 ^ 48) ⟨fun ⟨h1, h2, h3, h4⟩ =>
    ⟨h1, h2, h3, h4⟩, fun ⟨h1, h2, h3, h4⟩ => ⟨h1, h2, h3, h4⟩⟩

section
variable (env : Env) (nodes : Nodes) (k : ℕ)

instance (h : Hdr) : Decidable (HeaderOk env nodes k h) :=
  decidable_of_iff ((nodes h).magic = ext4ExtentMagic ∧ (nodes h).depth = k ∧
    0 < (nodes h).maxEntriesCount ∧ (nodes h).maxEntriesCount ≤ capOf env h ∧
    (nodes h).entriesCount ≤ (nodes h).maxEntriesCount) ⟨fun ⟨h1, h2, h3, h4, h5⟩ =>
    ⟨h1, h2, h3, h4, h5⟩, fun ⟨h1, h2, h3, h4, h5⟩ => ⟨h1, h2, h3, h4, h5⟩⟩

instance (ix : Slot) : Decidable (KeyOk nodes k ix) := by
  unfold KeyOk
  infer_instance

instance decidableSub : ∀ k h, Decidable (Sub env nodes k h)
  | 0, h => inferInstanceAs (Decidable (HeaderOk env nodes 0 h ∧ (nodes h).entries ≠ []))
  | k + 1, h =>
    have : ∀ ix, Decidable (Sub env nodes k (child ix)) := fun ix => decidableSub k (child ix)
    inferInstanceAs (Decidable (HeaderOk env nodes (k + 1) h ∧ (nodes h).entries ≠ [] ∧
      ∀ ix ∈ (nodes h).entries, Sub env nodes k (child ix) ∧ KeyOk nodes k ix))

end

/-- The allocator knows the node's block. -/
def UsedOk (s : St) : Hdr → Prop
  | .inode => True
  | .block b => s.used b = true ∧ b ≠ 0

instance (s : St) : ∀ h, Decidable (UsedOk s h)
  | .inode => isTrue trivial
  | .block b => inferInstanceAs (Decidable (s.used b = true ∧ b ≠ 0))

instance (env : Env) (s : St) : Decidable (TreeOk env s) :=
  decidable_of_iff ((Sub env s.nodes (extDepth s) .inode ∨
      (HeaderOk env s.nodes 0 .inode ∧ (s.nodes .inode).entries = [])) ∧
    (∀ ex ∈ treeExts s, ExtOk ex) ∧
    (treeExts s).Pairwise (fun a b => extEnd a ≤ b.firstBlock) ∧ (treeRefs s).Nodup ∧
    ∀ h ∈ treeRefs s, UsedOk s h)
      ⟨fun ⟨h1, h2, h3, h4, h5⟩ => ⟨h1, h2, h3, h4, fun _ hb => h5 _ hb⟩,
    fun ⟨h1, h2, h3, h4, h5⟩ => ⟨h1, h2, h3, h4, fun h hh => match h with
      | .inode => trivial
      | .block b => h5 b hh⟩⟩

/-- A state with the given nodes and used blocks, before any request. -/
def stateOf (nodes : Nodes) (used : ℕ → Bool) : St where
  nodes := nodes
  tails := fun _ => 0
  dirty := fun _ => false
  inodeDirty := false
  used := used
  freed := []
  calls := 0
  path := fun _ => .zero
  pathLive := false
  npath := fun _ => .zero

/-- A node with the entries `l` and room for `max`. -/
def nodeOf (depth max : ℕ) (l : List Slot) : Node :=
  ⟨ext4ExtentMagic, depth, l.length, max, fun i => l.getD i default⟩

end Ext4Fsd.Extent.Tree
