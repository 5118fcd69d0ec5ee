import Ext4Fsd.Extent.InsertLeaf

/-! # Splitting full nodes

`ext4_ext_split_node` splits the leaf and the full nodes above it after the current entry, from the
leaf upwards. The entries after the current one move to a new node; above the leaf they stand there
behind an entry for the new node below. `splitLoop_spec` says what the loop has done when it
returns, and how far it has come when it fails. -/

namespace Ext4Fsd.Extent.Split

open Ext4Fsd.Lib.Fallible Ext4Fsd.Lib.Intervals Ext4Fsd.Extent.Layout Ext4Fsd.Extent.Store
open Ext4Fsd.Extent.Search Ext4Fsd.Extent.Insert Ext4Fsd.Extent.Tree Ext4Fsd.Extent.Way
open Ext4Fsd.Extent.Found Ext4Fsd.Extent.Lookup Ext4Fsd.Extent.Keys Ext4Fsd.Extent.Focus

/-! ### One node -/

/-- `eh'` is `eh` cut off after its entry `p`. -/
structure CutAfter (eh eh' : Node) (p : ℕ) : Prop where
  magic : eh'.magic = eh.magic
  depth : eh'.depth = eh.depth
  max : eh'.maxEntriesCount = eh.maxEntriesCount
  count : eh'.entriesCount = p + 1
  slots : eh'.slots = eh.slots

/-- A full node with a current entry `p`, of a count that fits its field. -/
structure FullAt (eh : Node) (p : ℕ) : Prop where
  full : eh.entriesCount = eh.maxEntriesCount
  lt : p < eh.entriesCount
  fits : eh.entriesCount < 2 ^ 16

/-- What stays of a node after `m` entries have left it. -/
def keptNode (eh : Node) (m : ℕ) : Node :=
  if m ≠ 0 then { eh with entriesCount := half (eh.entriesCount - m) } else eh

/-- The leaf split off. -/
def newLeaf (env : Env) (s : St) (eh : Node) (p newblock : ℕ) : Node :=
  let m := eh.maxEntriesCount - 1 - p
  let neh := ext4ExtInitHeader env s (s.nodes (.block newblock)) 0
  { neh with slots := memmove neh.slots 0 eh.slots (p + 1) m, entriesCount := half m }

/-- The entry of a new index node for the node split off below. -/
def newIdx (s : St) (insertIndex below newblock : ℕ) : Slot :=
  ext4IdxStorePblock { (s.nodes (.block newblock)).slots 0 with firstBlock := insertIndex } below

/-- The index node split off. -/
def newIndex (env : Env) (s : St) (eh : Node) (p depth insertIndex below newblock : ℕ) : Node :=
  let m := eh.maxEntriesCount - 1 - p
  let neh := ext4ExtInitHeader env s (s.nodes (.block newblock)) depth
  { neh with
    slots := memmove (Function.update neh.slots 0 (newIdx s insertIndex below newblock)) 1 eh.slots
      (p + 1) m
    entriesCount := half (1 + m) }

section
variable {env : Env} {s t u : St} {hdr : ℕ → Hdr} {pos : ℕ → ℕ} {eh eh' : Node}
  {p key below newblock D lo i n : ℕ} {newext : Slot}

theorem CutAfter.entries (hc : CutAfter eh eh' p) (hlt : p < eh.entriesCount) :
    eh'.entries = eh.entries.take (p + 1) :=
  entries_take hc.count hlt fun j _ => by rw [hc.slots]

theorem keptNode_cut (hf : FullAt eh p) :
    CutAfter eh (keptNode eh (eh.maxEntriesCount - 1 - p)) p := by
  obtain ⟨h1, h2, h3⟩ := hf
  unfold keptNode
  by_cases hm : eh.maxEntriesCount - 1 - p ≠ 0
  · rw [if_pos hm]
    exact ⟨rfl, rfl, rfl, half_of_eq (by omega) (by omega), rfl⟩
  · rw [if_neg hm]
    exact ⟨rfl, rfl, rfl, by omega, rfl⟩

theorem newLeaf_entries (hf : FullAt eh p) :
    (newLeaf env s eh p newblock).entries = eh.entries.drop (p + 1) := by
  obtain ⟨h1, h2, h3⟩ := hf
  have hcount : half ((eh.maxEntriesCount - 1 - p : ℕ) : ℤ) = eh.maxEntriesCount - 1 - p :=
    half_natCast (by omega)
  refine entries_drop ?_ fun j hj => ?_
  · exact hcount.trans (by omega)
  · exact memmove_in (by omega) (by omega)

theorem newIndex_entries (hf : FullAt eh p) :
    (newIndex env s eh p n key below newblock).entries =
      newIdx s key below newblock :: eh.entries.drop (p + 1) := by
  obtain ⟨h1, h2, h3⟩ := hf
  have hcount : half (1 + (eh.maxEntriesCount - 1 - p : ℕ)) = 1 + (eh.maxEntriesCount - 1 - p) :=
    half_of_eq (by push_cast; rfl) (by omega)
  have hzero :
      (newIndex env s eh p n key below newblock).slots 0 = newIdx s key below newblock := by
    simp only [newIndex]
    rw [memmove_out (Or.inl (by omega)), Function.update_self]
  rw [← hzero]
  refine entries_cons_drop (hcount.trans (by omega)) fun j hj => ?_
  exact (memmove_in (by omega) (by omega)).trans (by rw [show j + 1 - 1 = j by omega])

/-! ### One level -/

/-- The level `i` of the path was split: `neh` is the new node in `newblock`, and `e` the path entry
made for it. -/
structure LevelDone (s t : St) (i p newblock at' : ℕ) (neh : Node) (e : PathEnt) : Prop
    extends Marked s t where
  nodes : t.nodes = Function.update (Function.update s.nodes (.block newblock) neh)
    (s.path i).header (keptNode (s.nodes (s.path i).header)
      ((s.nodes (s.path i).header).maxEntriesCount - 1 - p))
  npath : t.npath = Function.update s.npath at' e
  path : t.path = s.path
  used : t.used = s.used
  freed : t.freed = s.freed
  calls : t.calls = s.calls
  pathLive : t.pathLive = s.pathLive
  tails : t.tails = s.tails

/-- The common end of both kinds of split: the old node is cut, and the new one noted. -/
def finishSplit (i m newblock at' : ℕ) (curp : PathEnt) (eh : Node) (e : PathEnt) : Ext Unit := do
  runIf (m ≠ 0) do
    modify fun s => s.setNode curp.header { eh with entriesCount := half (eh.entriesCount - m) }
    ext4ExtDirty i
  modify fun s => s.setNpath at' e
  ext4TransSetBlockDirty newblock

theorem finishSplit_run {neh : Node} {at' : ℕ} {e : PathEnt} (hheld : HeldAt (s.path i))
    (hne : (s.path i).header ≠ .block newblock) :
    ∃ t, finishSplit i ((s.nodes (s.path i).header).maxEntriesCount - 1 - p) newblock at' (s.path i)
        (s.nodes (s.path i).header) e (s.setNode (.block newblock) neh) = (.ok (), t) ∧
      LevelDone s t i p newblock at' neh e := by
  generalize hm : (s.nodes (s.path i).header).maxEntriesCount - 1 - p = m
  have hcut : ∃ v, (runIf (m ≠ 0) (do
      modify fun s' => s'.setNode (s.path i).header
        { s.nodes (s.path i).header with
          entriesCount := half ((s.nodes (s.path i).header).entriesCount - m) }
      ext4ExtDirty i) : Ext Unit) (s.setNode (.block newblock) neh) = (.ok (), v) ∧
      Edits (s.setNode (.block newblock) neh) v ∧ v.nodes = Function.update
        (Function.update s.nodes (.block newblock) neh) (s.path i).header
        (keptNode (s.nodes (s.path i).header) m) := by
    unfold keptNode
    by_cases h0 : m ≠ 0
    · rw [runIf_pos h0, if_pos h0, modify_bind, dirty_run]
      exact ⟨_, rfl, edits_setNode (s := s.setNode (.block newblock) neh) hheld, by simp⟩
    · rw [runIf_neg h0, if_neg h0]
      refine ⟨_, rfl, .refl _, ?_⟩
      have := Function.update_eq_self (s.path i).header
        (Function.update s.nodes (.block newblock) neh)
      rw [Function.update_of_ne hne] at this
      exact this.symm
  obtain ⟨v, hv, hed, hn⟩ := hcut
  unfold finishSplit
  rw [bind_of_ok hv, modify_bind]
  refine ⟨_, rfl, ⟨fun b hb => ?_, fun b hb => ?_⟩, by rw [← hm] at hn; exact hn,
    (setNpath_npath e).trans (by rw [hed.npath]; rfl), hed.path, hed.used, hed.freed, hed.calls,
    hed.pathLive, hed.tails⟩
  · have hvb := hed.dirty b hb
    by_cases h : b = newblock
    · simp [h]
    · simpa [h] using hvb
  · by_cases h : b = newblock
    · simp [h]
    · have hvn : v.nodes (.block b) ≠ (s.setNode (.block newblock) neh).nodes (.block b) := by
        rw [setNode_nodes, Function.update_of_ne (by simpa using h)]
        exact hb
      simpa [h] using hed.marked b hvn

/-- The path entry of a node split off: its index for an index node, and the first extent for a leaf
that has one. -/
structure NewEnt (e : PathEnt) (newblock d : ℕ) (index extent : Option ℕ) : Prop where
  block : e.block = newblock
  header : e.header = .block newblock
  depth : e.depth = d
  index : e.index = index
  extent : e.extent = extent

theorem splitLeaf_run {at' : ℕ} (hheld : HeldAt (s.path i)) (hp : (s.path i).extent = some p)
    (hne : (s.path i).header ≠ .block newblock) :
    ∃ t e, splitLeaf env i newblock at' s = (.ok (), t) ∧
      LevelDone s t i p newblock at' (newLeaf env s (s.nodes (s.path i).header) p newblock) e ∧
      NewEnt e newblock 0 none
        (if (s.nodes (s.path i).header).maxEntriesCount - 1 - p ≠ 0 then some 0 else none) := by
  obtain ⟨t, ht, hdone⟩ := @finishSplit_run s p newblock i
    (newLeaf env s (s.nodes (s.path i).header) p newblock) at'
    { pBlock := if (s.nodes (s.path i).header).maxEntriesCount - 1 - p ≠ 0 then
        ext4ExtPblock ((newLeaf env s (s.nodes (s.path i).header) p newblock).slots 0) else 0
      block := newblock
      depth := (newLeaf env s (s.nodes (s.path i).header) p newblock).depth
      maxdepth := 0
      header := .block newblock
      index := none
      extent := if (s.nodes (s.path i).header).maxEntriesCount - 1 - p ≠ 0 then some 0 else none }
    hheld hne
  refine ⟨t, _, ?_, hdone, rfl, rfl, rfl, rfl, rfl⟩
  unfold splitLeaf
  rw [get_bind, hp, deref_some, pure_bind_apply, modify_bind]
  exact ht

theorem splitIndex_run {at' : ℕ} (hheld : HeldAt (s.path i)) (hp : (s.path i).index = some p)
    (hne : (s.path i).header ≠ .block newblock) :
    ∃ t e, splitIndex env key D i newblock at' s = (.ok (), t) ∧
      LevelDone s t i p newblock at' (newIndex env s (s.nodes (s.path i).header) p (D - i) key
        (s.npath (at' + 1)).block newblock) e ∧
      NewEnt e newblock (D - i) (some 0) none := by
  obtain ⟨t, ht, hdone⟩ := @finishSplit_run s p newblock i
    (newIndex env s (s.nodes (s.path i).header) p (D - i) key
      (s.npath (at' + 1)).block newblock) at'
    { pBlock := ext4IdxPblock (newIdx s key (s.npath (at' + 1)).block newblock)
      block := newblock
      depth := (newIndex env s (s.nodes (s.path i).header) p (D - i) key
        (s.npath (at' + 1)).block newblock).depth
      maxdepth := 0
      header := .block newblock
      index := some 0
      extent := none } hheld hne
  refine ⟨t, _, ?_, hdone, rfl, rfl, rfl, rfl, rfl⟩
  unfold splitIndex
  rw [get_bind, hp, deref_some, pure_bind_apply, modify_bind]
  exact ht

/-! ### A block for a new node -/

/-- Only the bitmap has changed: `b` was free and is in use. -/
structure Taken (s t : St) (b : ℕ) : Prop where
  free : s.used b = false
  ne_zero : b ≠ 0
  lt : b < 2 ^ 48
  eq : t = { s with calls := t.calls, used := Function.update s.used b true }

/-- Memory, a block or the read of a block was refused with `e`. -/
def Refused (env : Env) (e : Errno) : Prop :=
  e = .enomem ∨ (∃ n used goal, env.alloc n used goal = .error e) ∨ ∃ n b, env.blockGet n b = some e

/-- A request has failed. A block that was taken for it was given back. -/
structure NotTaken (s t : St) : Prop where
  eq : t = { s with calls := t.calls, freed := t.freed }
  freed : t.freed = s.freed ∨ ∃ b : ℕ, s.used b = false ∧ t.freed = s.freed ++ [((b : ℤ), 1)]

theorem newMetaBlock_spec (hal : AllocOk env) {r : Except Errno ℕ} {goal : ℤ}
    (h : ext4BallocAllocBlock env goal s = (r, t)) :
    match r with
    | .ok b => Taken s t b
    | .error _ => NotTaken s t := by
  unfold ext4BallocAllocBlock at h
  rcases ha : env.alloc s.calls s.used goal with e | b
  · rw [ha] at h
    obtain ⟨rfl, rfl⟩ := Prod.mk.inj h
    exact ⟨rfl, Or.inl rfl⟩
  · rw [ha] at h
    obtain ⟨rfl, rfl⟩ := Prod.mk.inj h
    obtain ⟨h1, h2, h3⟩ := hal _ _ _ _ ha
    exact ⟨h3, h1, h2, rfl⟩

/-- Taking a block and giving it back leaves the bitmap as it was. -/
theorem free_taken {b : ℕ} (hf : s.used b = false) :
    (fun c : ℕ => if (b : ℤ) ≤ (c : ℤ) ∧ (c : ℤ) < (b : ℤ) + 1 then false
      else Function.update s.used b true c) = s.used := by
  funext c
  by_cases hc : c = b
  · rw [hc, if_pos ⟨le_rfl, by omega⟩, hf]
  · rw [if_neg (by omega), Function.update_of_ne hc]

/-- What a block get that follows an allocation comes to. -/
theorem getOrFree_spec {b : ℕ} {r : Except Errno ℕ} (htaken : Taken s u b)
    (h : (do
      let ret ← attempt (ext4TransBlockGet env b)
      match ret with
      | .ok _ => pure b
      | .error e =>
        ext4ExtFreeBlocks b 1
        fail e : Ext ℕ) u = (r, t)) :
    match r with
    | .ok b' => b' = b ∧ Taken s t b
    | .error _ => NotTaken s t := by
  rw [bind_of_ok (attempt_apply _ u)] at h
  obtain ⟨h1, h2, h3, h4⟩ := htaken
  unfold ext4TransBlockGet at h
  rcases hg : env.blockGet u.calls b with _ | e
  · rw [hg] at h
    obtain ⟨rfl, rfl⟩ := Prod.mk.inj h
    refine ⟨rfl, h1, h2, h3, ?_⟩
    rw [h4]
  · rw [hg] at h
    obtain ⟨rfl, rfl⟩ := Prod.mk.inj h
    refine ⟨?_, Or.inr ⟨b, h1, ?_⟩⟩
    · have := free_taken h1
      rw [h4]
      simp only [this]
    · rw [h4]

theorem newMetaBlock_run : ext4ExtNewMetaBlock env newext s =
    ext4BallocAllocBlock env (ext4ExtFindGoal env newext.firstBlock s) s := by
  unfold ext4ExtNewMetaBlock ext4NewMetaBlocks
  rw [get_bind, bind_assoc_apply]
  rcases ha : ext4BallocAllocBlock env (ext4ExtFindGoal env newext.firstBlock s) s with ⟨e | b, u⟩
  · rw [bind_of_error ha]
  · rw [bind_of_ok ha]
    rfl

theorem splitBlock_spec (hal : AllocOk env) {r : Except Errno ℕ}
    (h : splitBlock env newext s = (r, t)) :
    match r with
    | .ok b => Taken s t b
    | .error _ => NotTaken s t := by
  unfold splitBlock at h
  rcases ha : ext4ExtNewMetaBlock env newext s with ⟨e | b, u⟩
  · rw [bind_of_error ha] at h
    obtain ⟨rfl, rfl⟩ := Prod.mk.inj h
    rw [newMetaBlock_run] at ha
    exact newMetaBlock_spec hal ha
  · rw [bind_of_ok ha] at h
    rw [newMetaBlock_run] at ha
    have hget := getOrFree_spec (newMetaBlock_spec hal ha) h
    rcases r with e | b'
    · exact hget
    · obtain ⟨rfl, ht⟩ := hget
      exact ht

end

/-! ### Several levels -/

/-- The levels `lo` to `i` of the path are full, and lead down to level `i`. -/
structure Splittable (env : Env) (s : St) (hdr : ℕ → Hdr) (pos : ℕ → ℕ) (D lo i : ℕ) : Prop where
  depth : extDepth s = D
  lo_pos : 0 < lo
  le : i ≤ D
  root : hdr 0 = .inode
  distinct : Distinct hdr (D + 1)
  used : ∀ l, l ≤ D → ∀ c, hdr l = .block c → s.used c = true
  header : ∀ l, lo ≤ l → l ≤ i → (s.path l).header = hdr l
  held : ∀ l, lo ≤ l → l ≤ i → HeldAt (s.path l)
  index : ∀ l, lo ≤ l → l ≤ i → l < D → (s.path l).index = some (pos l)
  leaf : i = D → (s.path D).extent = some (pos D)
  full : ∀ l, lo ≤ l → l ≤ i → FullAt (s.nodes (hdr l)) (pos l)
  headerOk : ∀ l, lo ≤ l → l ≤ i → HeaderOk env s.nodes (D - l) (hdr l)

/-- The first extent of a leaf split off, if it has one. -/
def newExtent (s : St) (hdr : ℕ → Hdr) (pos : ℕ → ℕ) (l : ℕ) : Option ℕ :=
  if (s.nodes (hdr l)).maxEntriesCount - 1 - pos l ≠ 0 then some 0 else none

/-- **The levels `k` to `i` have been split, with new nodes in the blocks `new`.** -/
structure SplitDone (env : Env) (s t : St) (hdr : ℕ → Hdr) (pos : ℕ → ℕ) (D key lo k i : ℕ)
    (new : ℕ → ℕ) : Prop extends Marked s t where
  cut : ∀ l, k ≤ l → l ≤ i → CutAfter (s.nodes (hdr l)) (t.nodes (hdr l)) (pos l)
  right : ∀ l, k ≤ l → l ≤ i → HeaderOk env t.nodes (D - l) (.block (new l))
  leafEntries : k ≤ D → D ≤ i → (t.nodes (.block (new D))).entries =
    (s.nodes (hdr D)).entries.drop (pos D + 1)
  indexEntries : ∀ l, k ≤ l → l ≤ i → l < D → ∃ ix, ix.firstBlock = key ∧
    child ix = .block (new (l + 1)) ∧ (t.nodes (.block (new l))).entries =
      ix :: (s.nodes (hdr l)).entries.drop (pos l + 1)
  other : ∀ h, (∀ l, k ≤ l → l ≤ i → h ≠ hdr l ∧ h ≠ .block (new l)) → t.nodes h = s.nodes h
  fresh : ∀ l, k ≤ l → l ≤ i → s.used (new l) = false ∧ new l ≠ 0 ∧ new l < 2 ^ 48
  inj : ∀ l m, k ≤ l → l ≤ i → k ≤ m → m ≤ i → new l = new m → l = m
  used : ∀ b, t.used b = true ↔ s.used b = true ∨ ∃ l, k ≤ l ∧ l ≤ i ∧ new l = b
  npath : ∀ l, k ≤ l → l ≤ i → NewEnt (t.npath (l - lo)) (new l) (D - l)
    (if l < D then some 0 else none) (if l < D then none else newExtent s hdr pos l)
  npathOther : ∀ x, (∀ l, k ≤ l → l ≤ i → x ≠ l - lo) → t.npath x = s.npath x
  top : i < D → new (i + 1) = (s.npath (i + 1 - lo)).block
  path : t.path = s.path
  freed : t.freed = s.freed
  pathLive : t.pathLive = s.pathLive
  tails : t.tails = s.tails

section
variable {env : Env} {s t u v : St} {hdr : ℕ → Hdr} {pos : ℕ → ℕ} {eh eh' : Node}
  {p key below newblock D lo i n k : ℕ} {newext : Slot} {new new' : ℕ → ℕ}

theorem splitDone_refl (h : i < k) : SplitDone env s s hdr pos D key lo k i
    fun _ => (s.npath (i + 1 - lo)).block :=
  ⟨marked_of_eq rfl rfl, fun l h1 h2 => by omega, fun l h1 h2 => by omega, fun h1 h2 => by omega,
    fun l h1 h2 => by omega, fun _ _ => rfl, fun l h1 h2 => by omega, fun l m h1 h2 => by omega,
    fun b => ⟨Or.inl, fun hb => by
      rcases hb with hb | ⟨l, h1, h2, -⟩
      · exact hb
      · omega⟩, fun l h1 h2 => by omega, fun _ _ => rfl, fun _ => rfl, rfl, rfl, rfl, rfl⟩

/-- A header on the way is not a block that was free. -/
theorem Splittable.hdr_ne (hs : Splittable env s hdr pos D lo i) {l c : ℕ} (hl : l ≤ D)
    (hc : s.used c = false) : hdr l ≠ .block c := fun h => by
  rw [hs.used l hl c h] at hc
  simp at hc

/-- The split of the levels `k` to `i` and the one of level `i + 1` before it do not touch each
other's nodes. -/
structure SplitsApart (s u v : St) (hdr : ℕ → Hdr) (new new' : ℕ → ℕ) (k i : ℕ) : Prop where
  fresh : ∀ l, k ≤ l → l ≤ i → s.used (new' l) = false
  new_ne : ∀ l, k ≤ l → l ≤ i → new' l ≠ new (i + 1)
  above : ∀ l, l ≤ i → u.nodes (hdr l) = s.nodes (hdr l)
  level : v.nodes (hdr (i + 1)) = u.nodes (hdr (i + 1))
  node : v.nodes (.block (new (i + 1))) = u.nodes (.block (new (i + 1)))

theorem splitsApart (hs : Splittable env s hdr pos D lo (i + 1))
    (h1 : SplitDone env s u hdr pos D key lo (i + 1) (i + 1) new)
    (h2 : SplitDone env u v hdr pos D key lo k i new') : SplitsApart s u v hdr new new' k i := by
  have hiD := hs.le
  have hfresh1 := h1.fresh (i + 1) le_rfl le_rfl
  have hused : u.used (new (i + 1)) = true :=
    (h1.used _).mpr (Or.inr ⟨i + 1, le_rfl, le_rfl, rfl⟩)
  have hne2 : ∀ l, k ≤ l → l ≤ i → new' l ≠ new (i + 1) := fun l h3 h4 h5 => by
    have := (h2.fresh l h3 h4).1
    rw [h5, hused] at this
    simp at this
  have hfresh2 : ∀ l, k ≤ l → l ≤ i → s.used (new' l) = false := fun l h3 h4 => by
    have h5 := (h2.fresh l h3 h4).1
    by_contra hc
    rw [(h1.used _).mpr (Or.inl (by simpa using hc))] at h5
    simp at h5
  refine ⟨hfresh2, hne2, fun l hl => h1.other _ fun m h3 h4 => ?_, h2.other _ fun m h3 h4 => ?_,
    h2.other _ fun m h3 h4 => ?_⟩
  · obtain rfl : m = i + 1 := by omega
    exact ⟨hs.distinct.ne (by omega) (by omega) (by omega), hs.hdr_ne (by omega) hfresh1.1⟩
  · exact ⟨hs.distinct.ne (by omega) (by omega) (by omega),
      hs.hdr_ne (by omega) (hfresh2 m h3 h4)⟩
  · exact ⟨(hs.hdr_ne (by omega) hfresh1.1).symm, by simpa using (hne2 m h3 h4).symm⟩

/-- The new nodes of both splits: those of the levels up to `i`, and the others below. -/
def newBelow (new new' : ℕ → ℕ) (i l : ℕ) : ℕ := if l ≤ i then new' l else new l

theorem newBelow_le {l : ℕ} (h : l ≤ i) : newBelow new new' i l = new' l := if_pos h

theorem newBelow_gt {l : ℕ} (h : i < l) : newBelow new new' i l = new l := if_neg (by omega)

theorem newBelow_inj (hap : SplitsApart s u v hdr new new' k i)
    (hinj : ∀ l m, k ≤ l → l ≤ i → k ≤ m → m ≤ i → new' l = new' m → l = m) {l m : ℕ}
    (h1 : k ≤ l) (h2 : l ≤ i + 1) (h3 : k ≤ m) (h4 : m ≤ i + 1)
    (heq : newBelow new new' i l = newBelow new new' i m) : l = m := by
  rcases Nat.le_succ_iff.mp h2 with h2 | rfl <;> rcases Nat.le_succ_iff.mp h4 with h4 | rfl
  · rw [newBelow_le h2, newBelow_le h4] at heq
    exact hinj l m h1 h2 h3 h4 heq
  · rw [newBelow_le h2, newBelow_gt (Nat.lt_succ_self i)] at heq
    exact absurd heq (hap.new_ne l h1 h2)
  · rw [newBelow_gt (Nat.lt_succ_self i), newBelow_le h4] at heq
    exact absurd heq.symm (hap.new_ne m h3 h4)
  · rfl

/-- The blocks in use after both splits. -/
theorem used_newBelow (h1 : SplitDone env s u hdr pos D key lo (i + 1) (i + 1) new)
    (h2 : SplitDone env u v hdr pos D key lo k i new') (hk : k ≤ i + 1) (b : ℕ) :
    v.used b = true ↔
      s.used b = true ∨ ∃ l, k ≤ l ∧ l ≤ i + 1 ∧ newBelow new new' i l = b := by
  rw [h2.used, h1.used]
  constructor
  · rintro ((hb | ⟨l, h3, h4, rfl⟩) | ⟨l, h3, h4, rfl⟩)
    · exact Or.inl hb
    · obtain rfl : l = i + 1 := by omega
      exact Or.inr ⟨i + 1, hk, le_rfl, newBelow_gt (Nat.lt_succ_self i)⟩
    · exact Or.inr ⟨l, h3, by omega, newBelow_le h4⟩
  · rintro (hb | ⟨l, h3, h4, rfl⟩)
    · exact Or.inl (Or.inl hb)
    · rcases Nat.le_succ_iff.mp h4 with h4 | rfl
      · exact Or.inr ⟨l, h3, h4, (newBelow_le h4).symm⟩
      · exact Or.inl (Or.inr ⟨i + 1, le_rfl, le_rfl, (newBelow_gt (Nat.lt_succ_self i)).symm⟩)

/-- The new index nodes of both splits lead to the new nodes below them. -/
theorem index_newBelow (hap : SplitsApart s u v hdr new new' k i)
    (h1 : SplitDone env s u hdr pos D key lo (i + 1) (i + 1) new)
    (h2 : SplitDone env u v hdr pos D key lo k i new') {l : ℕ} (h3 : k ≤ l) (h4 : l ≤ i + 1)
    (h5 : l < D) : ∃ ix, ix.firstBlock = key ∧ child ix = .block (newBelow new new' i (l + 1)) ∧
      (v.nodes (.block (newBelow new new' i l))).entries =
        ix :: (s.nodes (hdr l)).entries.drop (pos l + 1) := by
  rcases Nat.le_succ_iff.mp h4 with h4 | rfl
  · obtain ⟨ix, h6, h7, h8⟩ := h2.indexEntries l h3 h4 h5
    refine ⟨ix, h6, h7.trans (congrArg Hdr.block ?_), by rw [newBelow_le h4, h8, hap.above l h4]⟩
    rcases Nat.eq_or_lt_of_le h4 with rfl | h4
    · rw [newBelow_gt (Nat.lt_succ_self l), h2.top h5, (h1.npath (l + 1) le_rfl le_rfl).block]
    · rw [newBelow_le h4]
  · obtain ⟨ix, h6, h7, h8⟩ := h1.indexEntries (i + 1) le_rfl le_rfl h5
    refine ⟨ix, h6, ?_, by rw [newBelow_gt (Nat.lt_succ_self i), hap.node, h8]⟩
    rw [h7, newBelow_gt (by omega)]

/-- The split of the level above goes on from the split of the levels below. -/
theorem SplitDone.comp (hs : Splittable env s hdr pos D lo (i + 1)) (hlo : lo ≤ k)
    (h1 : SplitDone env s u hdr pos D key lo (i + 1) (i + 1) new)
    (h2 : SplitDone env u v hdr pos D key lo k i new') (hk : k ≤ i + 1) :
    SplitDone env s v hdr pos D key lo k (i + 1) fun l => if l ≤ i then new' l else new l := by
  change SplitDone env s v hdr pos D key lo k (i + 1) (newBelow new new' i)
  have hiD := hs.le
  have hap := splitsApart hs h1 h2
  have hgt : newBelow new new' i (i + 1) = new (i + 1) := newBelow_gt (Nat.lt_succ_self i)
  constructor
  · exact h1.toMarked.trans h2.toMarked
  · intro l h3 h4
    rcases Nat.le_succ_iff.mp h4 with h4 | rfl
    · rw [← hap.above l h4]
      exact h2.cut l h3 h4
    · rw [hap.level]
      exact h1.cut _ le_rfl le_rfl
  · intro l h3 h4
    rcases Nat.le_succ_iff.mp h4 with h4 | rfl
    · rw [newBelow_le h4]
      exact h2.right l h3 h4
    · rw [hgt]
      exact headerOk_congr hap.node (h1.right _ le_rfl le_rfl)
  · intro h3 h4
    obtain rfl : D = i + 1 := by omega
    rw [hgt, hap.node]
    exact h1.leafEntries le_rfl le_rfl
  · exact fun l h3 h4 h5 => index_newBelow hap h1 h2 h3 h4 h5
  · intro h hh
    rw [h2.other h fun l h3 h4 => by simpa only [newBelow_le h4] using hh l h3 (by omega),
      h1.other h fun l h3 h4 => by
        obtain rfl : l = i + 1 := by omega
        simpa only [hgt] using hh (i + 1) hk le_rfl]
  · intro l h3 h4
    rcases Nat.le_succ_iff.mp h4 with h4 | rfl
    · rw [newBelow_le h4]
      exact ⟨hap.fresh l h3 h4, (h2.fresh l h3 h4).2⟩
    · rw [hgt]
      exact h1.fresh (i + 1) le_rfl le_rfl
  · exact fun l m h3 h4 h5 h6 => newBelow_inj hap h2.inj h3 h4 h5 h6
  · exact used_newBelow h1 h2 hk
  · intro l h3 h4
    rcases Nat.le_succ_iff.mp h4 with h4 | rfl
    · have h5 := h2.npath l h3 h4
      rw [newBelow_le h4]
      rw [if_pos (by omega), if_pos (by omega)] at h5 ⊢
      exact h5
    · rw [hgt, h2.npathOther _ fun l h5 h6 => by omega]
      exact h1.npath (i + 1) le_rfl le_rfl
  · intro x hx
    rw [h2.npathOther x fun l h3 h4 => hx l h3 (by omega),
      h1.npathOther x fun l h3 h4 => hx l (by omega) (by omega)]
  · intro h3
    rw [newBelow_gt (by omega)]
    exact h1.top h3
  · exact h2.path.trans h1.path
  · exact h2.freed.trans h1.freed
  · exact h2.pathLive.trans h1.pathLive
  · exact h2.tails.trans h1.tails

theorem maxEntries_below {d : ℕ} (hd : d ≠ extDepth s) :
    ext4ExtMaxEntries env s d = ext4ExtSpaceBlock env := by
  unfold ext4ExtMaxEntries
  rw [if_neg hd]
  split <;> rfl

/-- The new node has a sound header when the old one has. -/
theorem newNode_header {nodes : Nodes} {b c d : ℕ} {node : Node} {h : Hdr} (hb : h = .block b)
    (hh : HeaderOk env s.nodes d h) (hn : nodes (.block c) = node)
    (hmagic : node.magic = ext4ExtentMagic) (hdepth : node.depth = d)
    (hmax : node.maxEntriesCount = ext4ExtSpaceBlock env)
    (hcount : node.entriesCount ≤ (s.nodes h).maxEntriesCount) :
    HeaderOk env nodes d (.block c) := by
  have h1 := hh.max_pos
  have h2 := hh.max_le
  rw [hb, capOf, ← hb] at h2
  constructor <;> rw [hn]
  · exact hmagic
  · exact hdepth
  · omega
  · exact hmax.le
  · omega

theorem Splittable.hdr_block (hs : Splittable env s hdr pos D lo i) (hi : lo ≤ i) :
    ∃ b, hdr i = .block b := by
  have hpos := hs.lo_pos
  have hle := hs.le
  rcases h : hdr i with _ | b
  · have := hs.distinct i 0 (by omega) (by omega) (h.trans hs.root.symm)
    omega
  · exact ⟨b, rfl⟩

/-- The split of one level. -/
def splitLevel (env : Env) (key D lo i newblock : ℕ) : Ext Unit :=
  if i = D then splitLeaf env i newblock (i - lo) else splitIndex env key D i newblock (i - lo)

/-- **What either kind of split leaves, given the new node.** -/
theorem splitDone_level {neh : Node} {e : PathEnt} (hs : Splittable env s hdr pos D lo i)
    (hi : lo ≤ i) (htaken : Taken s u newblock)
    (hd : LevelDone u t i (pos i) newblock (i - lo) neh e)
    (hh : HeaderOk env t.nodes (D - i) (.block newblock))
    (hleaf : D ≤ i → neh.entries = (s.nodes (hdr D)).entries.drop (pos D + 1))
    (hindex : i < D → ∃ ix, ix.firstBlock = key ∧ child ix = .block (s.npath (i + 1 - lo)).block ∧
      neh.entries = ix :: (s.nodes (hdr i)).entries.drop (pos i + 1))
    (hent : NewEnt e newblock (D - i) (if i < D then some 0 else none)
      (if i < D then none else newExtent s hdr pos i)) :
    SplitDone env s t hdr pos D key lo i i
      fun l => if l = i then newblock else (s.npath (i + 1 - lo)).block := by
  obtain ⟨hfree, hne0, hlt, hu⟩ := htaken
  have hun : u.nodes = s.nodes := by rw [hu]
  have hup : u.path = s.path := by rw [hu]
  have htn := hd.nodes
  rw [hup, hs.header i hi le_rfl, hun] at htn
  have hlevel : ∀ l, i ≤ l → l ≤ i → l = i := fun l h1 h2 => by omega
  have hnew : t.nodes (.block newblock) = neh := by
    rw [htn, Function.update_of_ne (hs.hdr_ne hs.le hfree).symm, Function.update_self]
  constructor
  · exact (marked_of_eq hun (by rw [hu])).trans hd.toMarked
  · intro l h1 h2
    rw [hlevel l h1 h2, htn, Function.update_self]
    exact keptNode_cut (hs.full i hi le_rfl)
  · intro l h1 h2
    rw [hlevel l h1 h2, if_pos rfl]
    exact hh
  · intro h1 h2
    have := hs.le
    rw [if_pos (by omega), hnew]
    exact hleaf h2
  · intro l h1 h2 h3
    obtain rfl := hlevel l h1 h2
    rw [if_neg (by omega), if_pos rfl, hnew]
    exact hindex h3
  · intro h h1
    obtain ⟨h2, h3⟩ := h1 i le_rfl le_rfl
    rw [if_pos rfl] at h3
    rw [htn, Function.update_of_ne h2, Function.update_of_ne h3]
  · intro l h1 h2
    rw [hlevel l h1 h2, if_pos rfl]
    exact ⟨hfree, hne0, hlt⟩
  · intro l m h1 h2 h3 h4 _
    omega
  · intro c
    rw [hd.used, hu]
    dsimp only
    by_cases hc : c = newblock
    · rw [hc, Function.update_self]
      exact ⟨fun _ => Or.inr ⟨i, le_rfl, le_rfl, if_pos rfl⟩, fun _ => rfl⟩
    · rw [Function.update_of_ne hc]
      refine ⟨Or.inl, fun hor => ?_⟩
      rcases hor with hor | ⟨l, h1, h2, h3⟩
      · exact hor
      · rw [hlevel l h1 h2, if_pos rfl] at h3
        exact absurd h3.symm hc
  · intro l h1 h2
    obtain rfl := hlevel l h1 h2
    rw [hd.npath, Function.update_self, if_pos rfl]
    exact hent
  · intro x hx
    rw [hd.npath, Function.update_of_ne (hx i le_rfl le_rfl), hu]
  · intro _
    rw [if_neg (by omega)]
  · rw [hd.path, hup]
  · rw [hd.freed, hu]
  · rw [hd.pathLive, hu]
  · rw [hd.tails, hu]

theorem splitLevel_run (hs : Splittable env s hdr pos D lo i) (hi : lo ≤ i)
    (hbelow : i < D → (s.npath (i + 1 - lo)).block < 2 ^ 48) (htaken : Taken s u newblock) :
    ∃ t, splitLevel env key D lo i newblock u = (.ok (), t) ∧
      (SplitDone env s t hdr pos D key lo i i
        fun l => if l = i then newblock else (s.npath (i + 1 - lo)).block) ∧
      t.calls = u.calls ∧ t.used = u.used := by
  have hun : u.nodes = s.nodes := by rw [htaken.eq]
  have hup : u.path = s.path := by rw [htaken.eq]
  have hunp : u.npath = s.npath := by rw [htaken.eq]
  have hud : extDepth u = D := by rw [← hs.depth, extDepth, hun]; rfl
  have hhdr : (u.path i).header = hdr i := by rw [hup, hs.header i hi le_rfl]
  have hne : hdr i ≠ .block newblock := hs.hdr_ne hs.le htaken.free
  have hfull := hs.full i hi le_rfl
  have hheld : HeldAt (u.path i) := by rw [hup]; exact hs.held i hi le_rfl
  obtain ⟨b, hb⟩ := hs.hdr_block hi
  have hpos := hs.lo_pos
  have hle := hs.le
  have hcount : (s.nodes (hdr i)).maxEntriesCount - 1 - pos i + 1 ≤
      (s.nodes (hdr i)).maxEntriesCount := by
    have := hfull.full
    have := hfull.lt
    omega
  have hhalf : ∀ m : ℕ, m ≤ (s.nodes (hdr i)).maxEntriesCount → half (m : ℤ) = m := fun m hm => by
    have := hfull.full
    have := hfull.fits
    exact half_natCast (by omega)
  have hnodes : ∀ t neh e, LevelDone u t i (pos i) newblock (i - lo) neh e →
      t.nodes (.block newblock) = neh := fun t neh e hd => by
    rw [hd.nodes, hhdr, Function.update_of_ne hne.symm, Function.update_self]
  unfold splitLevel
  by_cases hD : i = D
  · subst hD
    rw [if_pos rfl]
    obtain ⟨t, e, ht, hd, hent⟩ := @splitLeaf_run env u (pos i) newblock i (i - lo) hheld
      (by rw [hup, hs.leaf rfl]) (by rwa [hhdr])
    rw [hhdr, hun] at hd hent
    refine ⟨t, ht, splitDone_level hs hi htaken hd ?_ (fun _ => newLeaf_entries hfull)
      (fun h => by omega) ?_, hd.calls, hd.used⟩
    · refine newNode_header hb (by simpa using hs.headerOk i hi le_rfl) (hnodes _ _ _ hd) rfl
        (by simp [newLeaf, ext4ExtInitHeader]) ?_ ?_
      · exact maxEntries_below (by omega)
      · exact (hhalf _ (by omega)).le.trans (by omega)
    · rw [if_neg (by omega), if_neg (by omega), Nat.sub_self]
      exact hent
  · rw [if_neg hD]
    obtain ⟨t, e, ht, hd, hent⟩ := @splitIndex_run env u (pos i) key newblock D i (i - lo) hheld
      (by rw [hup, hs.index i hi le_rfl (by omega)]) (by rwa [hhdr])
    rw [hhdr, hun, hunp, show i - lo + 1 = i + 1 - lo by omega] at hd
    refine ⟨t, ht, splitDone_level hs hi htaken hd ?_ (fun h => by omega) (fun _ => ?_) ?_,
      hd.calls, hd.used⟩
    · refine newNode_header hb (hs.headerOk i hi le_rfl) (hnodes _ _ _ hd) rfl rfl ?_ ?_
      · exact maxEntries_below (by omega)
      · have hh := hhalf (1 + ((s.nodes (hdr i)).maxEntriesCount - 1 - pos i)) (by omega)
        push_cast at hh
        exact hh.le.trans (by omega)
    · refine ⟨_, rfl, ?_, newIndex_entries hfull⟩
      exact congrArg Hdr.block (idxPblock_store (hbelow (by omega)))
    · rw [if_pos (by omega), if_pos (by omega)]
      exact hent

/-! ### The loop -/

/-- How many blocks in a row the disk has for new nodes. -/
def blocksHad (env : Env) (goal : ℤ) : ℕ → ℕ → (ℕ → Bool) → ℕ
  | 0, _, _ => 0
  | n + 1, calls, used =>
    match env.alloc calls used goal with
    | .error _ => 0
    | .ok b =>
      match env.blockGet (calls + 1) b with
      | some _ => 0
      | none => blocksHad env goal n (calls + 2) (Function.update used b true) + 1

theorem splitBlock_refused {e : Errno} (h : splitBlock env newext s = (.error e, t)) :
    Refused env e := by
  unfold splitBlock at h
  rw [bind_apply, newMetaBlock_run] at h
  unfold ext4BallocAllocBlock at h
  rcases ha : env.alloc s.calls s.used (ext4ExtFindGoal env newext.firstBlock s) with x | b
  · rw [ha] at h
    obtain rfl := Except.error.inj (Prod.mk.inj h).1
    exact Or.inr (Or.inl ⟨_, _, _, ha⟩)
  · rw [ha] at h
    dsimp only at h
    rw [bind_of_ok (attempt_apply _ _)] at h
    unfold ext4TransBlockGet at h
    dsimp only at h
    rcases hg : env.blockGet (s.calls + 1) b with _ | x
    · rw [hg] at h
      simp at h
    · rw [hg] at h
      obtain rfl := Except.error.inj (Prod.mk.inj h).1
      exact Or.inr (Or.inr ⟨_, _, hg⟩)

theorem splitBlock_had {r : Except Errno ℕ} (h : splitBlock env newext s = (r, t)) :
    blocksHad env (ext4ExtFindGoal env newext.firstBlock s) (n + 1) s.calls s.used =
      match r with
      | .ok _ => blocksHad env (ext4ExtFindGoal env newext.firstBlock s) n t.calls t.used + 1
      | .error _ => 0 := by
  unfold splitBlock at h
  rw [bind_apply, newMetaBlock_run] at h
  unfold ext4BallocAllocBlock at h
  rw [blocksHad]
  generalize ext4ExtFindGoal env newext.firstBlock s = goal at h ⊢
  rcases ha : env.alloc s.calls s.used goal with e | b
  · rw [ha] at h
    obtain ⟨rfl, rfl⟩ := Prod.mk.inj h
    rfl
  · rw [ha] at h
    dsimp only at h ⊢
    rw [bind_of_ok (attempt_apply _ _)] at h
    unfold ext4TransBlockGet at h
    dsimp only at h
    rcases hg : env.blockGet (s.calls + 1) b with _ | e
    · rw [hg] at h
      obtain ⟨rfl, rfl⟩ := Prod.mk.inj h
      rfl
    · rw [hg] at h
      obtain ⟨rfl, rfl⟩ := Prod.mk.inj h
      rfl

/-- Splitting changes no slot of an old node. -/
theorem SplitDone.slots (hd : SplitDone env s t hdr pos D key lo k i new) {h : Hdr}
    (hh : ∀ c, h = .block c → s.used c = true) : (t.nodes h).slots = (s.nodes h).slots := by
  by_cases hex : ∃ l, k ≤ l ∧ l ≤ i ∧ h = hdr l
  · obtain ⟨l, h1, h2, rfl⟩ := hex
    exact (hd.cut l h1 h2).slots
  · refine congrArg Node.slots (hd.other h fun l h1 h2 => ⟨fun heq => hex ⟨l, h1, h2, heq⟩,
      fun heq => ?_⟩)
    have := hh _ heq
    rw [(hd.fresh l h1 h2).1] at this
    simp at this

/-- The goal for a block stays the same while levels are split. -/
theorem SplitDone.findGoal (hd : SplitDone env s t hdr pos D key lo k i new)
    (hheld : ∀ c, (s.path (s.path 0).depth).header = .block c → s.used c = true) (b : ℕ) :
    ext4ExtFindGoal env b t = ext4ExtFindGoal env b s := by
  have hslots := hd.slots hheld
  unfold ext4ExtFindGoal
  dsimp only
  rw [hd.path, hslots]

/-- Splitting leaves the levels above as they were. -/
theorem SplitDone.splittable (hs : Splittable env s hdr pos D lo (i + 1))
    (hd : SplitDone env s t hdr pos D key lo (i + 1) (i + 1) new) :
    Splittable env t hdr pos D lo i := by
  have hiD := hs.le
  have hfresh := hd.fresh (i + 1) le_rfl le_rfl
  have hsame : ∀ l, l ≤ i → t.nodes (hdr l) = s.nodes (hdr l) := fun l hl =>
    hd.other _ fun m h1 h2 => by
      obtain rfl : m = i + 1 := by omega
      exact ⟨hs.distinct.ne (by omega) (by omega) (by omega), hs.hdr_ne (by omega) hfresh.1⟩
  refine ⟨?_, hs.lo_pos, by omega, hs.root, hs.distinct, fun l hl c hc => ?_, fun l h1 h2 => ?_,
    fun l h1 h2 => ?_, fun l h1 h2 h3 => ?_, fun h => by omega, fun l h1 h2 => ?_,
    fun l h1 h2 => ?_⟩
  · rw [← hs.depth]
    unfold extDepth
    rw [← hs.root, hsame 0 (by omega)]
  · exact (hd.used c).mpr (Or.inl (hs.used l hl c hc))
  · rw [hd.path, hs.header l h1 (by omega)]
  · rw [hd.path]
    exact hs.held l h1 (by omega)
  · rw [hd.path, hs.index l h1 (by omega) h3]
  · rw [hsame l h2]
    exact hs.full l h1 (by omega)
  · exact headerOk_congr (hsame l h2) (hs.headerOk l h1 (by omega))

/-- **How far the loop of `ext4_ext_split_node` has come when it ends.** -/
theorem splitLoop_spec (hal : AllocOk env) (hs : lo ≤ i → Splittable env s hdr pos D lo i)
    (hlo : 0 < lo) (hn : i + 1 = lo + n) (hbelow : i < D → (s.npath (i + 1 - lo)).block < 2 ^ 48)
    (hheld : ∀ c, (s.path (s.path 0).depth).header = .block c → s.used c = true)
    {r : Except Errno Unit} (h : splitLoop env newext key D lo n i s = (r, t)) :
    ∃ u k new, lo ≤ k ∧ k ≤ i + 1 ∧ SplitDone env s u hdr pos D key lo k i new ∧
      k + blocksHad env (ext4ExtFindGoal env newext.firstBlock s) n s.calls s.used = i + 1 ∧
      ((r = .ok () ∧ t = u ∧ k = lo) ∨
        (∃ e, r = .error e ∧ Refused env e ∧ NotTaken u t ∧ lo < k)) := by
  induction n generalizing i s with
  | zero =>
    obtain ⟨rfl, rfl⟩ := Prod.mk.inj h
    exact ⟨s, lo, _, le_rfl, by omega, splitDone_refl (by omega), by rw [blocksHad]; omega,
      Or.inl ⟨rfl, rfl, rfl⟩⟩
  | succ n ih =>
    obtain ⟨j, rfl⟩ : ∃ j, i = j + 1 := ⟨i - 1, by omega⟩
    unfold splitLoop at h
    rcases hb : splitBlock env newext s with ⟨e | b, v⟩
    · rw [bind_of_error hb] at h
      obtain ⟨rfl, rfl⟩ := Prod.mk.inj h
      exact ⟨s, j + 1 + 1, _, by omega, le_rfl, splitDone_refl (by omega),
        by rw [splitBlock_had hb]; rfl,
        Or.inr ⟨e, rfl, splitBlock_refused hb, splitBlock_spec hal hb, by omega⟩⟩
    · have hs' := hs (by omega)
      have hhad := @splitBlock_had env s v n newext _ hb
      dsimp only at hhad
      obtain ⟨w, hw, hd, hcalls, hused⟩ :=
        @splitLevel_run env s v hdr pos key b D lo (j + 1) hs' (by omega)
        hbelow (splitBlock_spec hal hb)
      rw [bind_of_ok hb] at h
      replace h : (splitLevel env key D lo (j + 1) b >>=
          fun _ => splitLoop env newext key D lo n j) v = (r, t) := by
        rw [← h]
        unfold splitLevel
        split_ifs <;> rfl
      rw [bind_of_ok hw] at h
      have hnp := hd.npath (j + 1) le_rfl le_rfl
      obtain ⟨u, k, new', h1, h2, h3, h4, h5⟩ := ih (fun _ => hd.splittable hs') (by omega)
        (fun _ => by
          rw [hnp.block]
          exact (hd.fresh _ le_rfl le_rfl).2.2)
        (fun c hc => (hd.used c).mpr (Or.inl (hheld c (by rwa [hd.path] at hc)))) h
      rw [hd.findGoal hheld, hcalls, hused] at h4
      exact ⟨u, k, _, h1, by omega, hd.comp hs' h1 h3 h2, by omega, h5⟩

end

end Ext4Fsd.Extent.Split
