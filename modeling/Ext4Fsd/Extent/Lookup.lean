import Ext4Fsd.Extent.Found

/-! # The path a lookup leaves

`PathTo` says that the path array records a way down the tree, and `At` that the tree is sound along
it. `find_ok` is `ext4_find_extent`: it changes nothing but the path, and the path it leaves takes
the closest entry at every level. `find_run` is its other half: on a well-formed tree it succeeds if
and only if `calloc` and the block gets grant what it asks for. -/

namespace Ext4Fsd.Extent.Lookup

open Ext4Fsd.Lib.Fallible Ext4Fsd.Lib.Intervals Ext4Fsd.Extent.Layout Ext4Fsd.Extent.Store
open Ext4Fsd.Extent.Search Ext4Fsd.Extent.Tree Ext4Fsd.Extent.Way Ext4Fsd.Extent.Found

/-- The path array records the way `hdr`, `pos` of `D` index levels and a leaf. -/
structure PathTo (s : St) (hdr : ℕ → Hdr) (pos : ℕ → ℕ) (D : ℕ) : Prop where
  live : s.pathLive = true
  header : ∀ i, i ≤ D → (s.path i).header = hdr i
  index : ∀ i, i < D → (s.path i).index = some (pos i)
  depth : ∀ i, i ≤ D → (s.path i).depth = D - i
  root : hdr 0 = .inode
  rootBlock : (s.path 0).block = 0
  /-- Below the root each node's block is held. -/
  held : ∀ i, 0 < i → i ≤ D → hdr i = .block (s.path i).block
  beyond : ∀ i, D < i → (s.path i).block = 0
  leaf : (s.path D).extent =
    if (s.nodes (hdr D)).entriesCount = 0 then none else some (pos D)

/-- The way the searches for block `b` take down from `h`. -/
def findHdr (nodes : Nodes) (b : ℕ) (h : Hdr) : ℕ → Hdr
  | 0 => h
  | i + 1 => child ((nodes (findHdr nodes b h i)).slots (binsearch (nodes (findHdr nodes b h i)) b))

def findPos (nodes : Nodes) (b : ℕ) (h : Hdr) (i : ℕ) : ℕ :=
  binsearch (nodes (findHdr nodes b h i)) b

section
variable {env : Env} {s t : St} {b n j D : ℕ} {hdr : ℕ → Hdr} {pos : ℕ → ℕ}

/-! ### What the lookup leaves alone -/

theorem keeps_findLoop : Keeps core (findLoop env b D n j) := by
  induction n generalizing j with
  | zero => exact keeps_pure ()
  | succ n ih =>
    refine keeps_bind (keeps_modify fun _ => rfl) fun _ => keeps_bind keeps_get fun s => ?_
    refine keeps_bind (keeps_deref _) fun ix => keeps_bind (keeps_modify fun _ => rfl) fun _ => ?_
    refine keeps_bind keeps_get fun s' => keeps_bind (keeps_runIf ?_) fun _ => ih
    exact keeps_bind (keeps_read _ _) fun _ => keeps_bind (keeps_runIf (keeps_fail _)) fun _ =>
      keeps_modify fun _ => rfl

theorem keeps_findLeaf : Keeps core (findLeaf b D) := by
  refine keeps_bind (keeps_modify fun _ => rfl) fun _ => keeps_bind (keeps_modify fun s => ?_)
    fun _ => keeps_bind keeps_get fun s => ?_
  · by_cases h : (s.nodes (s.path D).header).entriesCount = 0
    · rw [if_pos h]
    · rw [if_neg h]
      rfl
  · cases (s.path D).extent
    · exact keeps_pure ()
    · exact keeps_modify fun _ => rfl

theorem keeps_findPath : Keeps core (findPath env) := by
  refine keeps_bind keeps_get fun s => keeps_bind (keeps_runIf ?_) fun _ =>
    keeps_bind keeps_get fun s' => keeps_bind (keeps_runIf ?_) fun _ => keeps_modify fun _ => rfl
  · exact keeps_bind (keeps_dropRefs _ _) fun _ => keeps_runIf (keeps_modify fun _ => rfl)
  · exact keeps_bind keeps_calloc fun _ => keeps_modify fun _ => rfl

/-- **A lookup changes no node, allocates nothing and frees nothing, whatever its outcome.** -/
theorem keeps_find : Keeps core (ext4FindExtent env b) := by
  refine keeps_bind keeps_findPath fun _ => keeps_bind keeps_get fun s =>
    keeps_bind (keeps_attempt keeps_findLoop) fun r => ?_
  cases r with
  | ok _ => exact keeps_findLeaf
  | error e =>
    exact keeps_bind (keeps_dropRefs _ _) fun _ => keeps_bind (keeps_modify fun _ => rfl) fun _ =>
      keeps_fail _


/-! ### The walk down -/

/-- What the walk from level `j` over `n` levels leaves in the path array. -/
structure Walked (s t : St) (hdr : ℕ → Hdr) (pos : ℕ → ℕ) (n j : ℕ) : Prop where
  live : t.pathLive = s.pathLive
  above : ∀ i, i < j → t.path i = s.path i
  header : ∀ i, j ≤ i → i ≤ j + n → (t.path i).header = hdr i
  index : ∀ i, j ≤ i → i < j + n → (t.path i).index = some (pos i)
  depth : ∀ i, j ≤ i → i < j + n → (t.path i).depth = j + n - i
  block : (t.path j).block = (s.path j).block
  held : ∀ i, j < i → i ≤ j + n → hdr i = .block (t.path i).block
  below : ∀ i, j + n < i → t.path i = s.path i

/-- The node `blk` at height `n` is read into the path entry `i`. -/
def enter (env : Env) (D blk n i : ℕ) : Ext Unit := do
  readExtentTreeBlock env blk n
  runIf (D < i) (fail .eio)
  modify fun s => s.setPath i { s.path i with block := blk, header := .block blk }

/-- One level of the walk: the closest entry is recorded, and the node it points to is entered. -/
theorem findLoop_succ (hfree : (s.path (j + 1)).block = 0) :
    ∃ s' p blk, findLoop env b D (n + 1) j s =
        (enter env D blk n (j + 1) >>= fun _ => findLoop env b D n (j + 1)) s' ∧
      p = binsearch (s.nodes (s.path j).header) b ∧
      blk = ext4IdxPblock ((s.nodes (s.path j).header).slots p) ∧
      s'.nodes = s.nodes ∧ s'.pathLive = s.pathLive ∧ s'.calls = s.calls ∧
      s'.path j = { s.path j with
        index := some p, pBlock := blk, depth := n + 1, extent := none } ∧
      ∀ i, i ≠ j → s'.path i = s.path i := by
  rw [findLoop, ext4ExtBinsearchIdx, modify_bind, get_bind]
  generalize hp : binsearch (s.nodes (s.path j).header) b = p
  generalize hs1 : s.setPath j { s.path j with index := some p } = s1
  have h1 : s1.path j = { s.path j with index := some p } := by rw [← hs1]; simp
  have h1' : ∀ i, i ≠ j → s1.path i = s.path i := fun i hi => by rw [← hs1]; simp [hi]
  have hn : s1.nodes = s.nodes := by rw [← hs1]; rfl
  have hl : s1.pathLive = s.pathLive := by rw [← hs1]; rfl
  have hc : s1.calls = s.calls := by rw [← hs1]; rfl
  rw [show (s1.path j).index = some p by rw [h1], deref_some, pure_bind_apply, modify_bind,
    get_bind, runIf_pos (Or.inl (by simp [h1', hfree]))]
  refine ⟨_, p, _, rfl, rfl, ?_, hn, hl, hc, ?_, fun i h2 => ?_⟩
  · simp [h1, hn]
  · simp [St.setPath, h1, hn]
  · simp [St.setPath, h2, h1']

theorem enter_ok {blk i : ℕ} {u : Unit} (h : enter env D blk n i s = (.ok u, t)) :
    t.nodes = s.nodes ∧ t.pathLive = s.pathLive ∧
      t.path i = { s.path i with block := blk, header := .block blk } ∧
      ∀ l, l ≠ i → t.path l = s.path l := by
  obtain ⟨_, w, hget, h⟩ := bind_ok h
  obtain ⟨rfl, -⟩ := read_ok hget
  by_cases hD : D < i
  · rw [runIf_pos hD, fail_bind] at h
    simp at h
  rw [runIf_neg hD, pure_bind_apply] at h
  obtain ⟨-, rfl⟩ := Prod.mk.inj h
  exact ⟨rfl, rfl, by simp, fun l hl => by simp [hl]⟩

theorem findLoop_ok (hstep : ∀ i, hdr (i + 1) = child ((s.nodes (hdr i)).slots (pos i)))
    (hpos : ∀ i, pos i = binsearch (s.nodes (hdr i)) b) (hj : (s.path j).header = hdr j)
    (hfree : ∀ i, j < i → (s.path i).block = 0)
    (h : findLoop env b D n j s = (.ok (), t)) : Walked s t hdr pos n j := by
  induction n generalizing j s with
  | zero =>
    obtain ⟨-, rfl⟩ := Prod.mk.inj h
    exact ⟨rfl, fun _ _ => rfl, fun i h1 h2 => by rw [show i = j by omega, hj],
      fun i h1 h2 => by omega, fun i h1 h2 => by omega, rfl, fun i h1 h2 => by omega,
      fun _ _ => rfl⟩
  | succ n ih =>
    obtain ⟨u, p, blk, hrun, rfl, rfl, hun, hul, -, huat, hurest⟩ :=
      @findLoop_succ env s b n j D (hfree (j + 1) (by omega))
    obtain ⟨_, s', henter, hrest⟩ := bind_ok (hrun.symm.trans h)
    obtain ⟨hn, hl, hnext, hother'⟩ := enter_ok henter
    have hother : ∀ i, i ≠ j → i ≠ j + 1 → s'.path i = s.path i := fun i h1 h2 => by
      rw [hother' i h2, hurest i h1]
    have hat := (hother' j (by omega)).trans huat
    rw [hurest (j + 1) (by omega)] at hnext
    rw [hun] at hn
    rw [hul] at hl
    rw [hj, ← hpos] at hat hnext
    have hw := ih (s := s') (by rwa [hn]) (by rwa [hn]) (by rw [hnext, hstep]; rfl)
      (fun i hi => by rw [hother i (by omega) (by omega), hfree i (by omega)]) hrest
    have hj' : t.path j = s'.path j := hw.above j (by omega)
    refine ⟨hw.live.trans hl, fun i hi => ?_, fun i h1 h2 => ?_, fun i h1 h2 => ?_,
      fun i h1 h2 => ?_, ?_, fun i h1 h2 => ?_, fun i hi => ?_⟩
    · rw [hw.above i (by omega), hother i (by omega) (by omega)]
    · rcases Nat.eq_or_lt_of_le h1 with rfl | h1
      · rw [hj', hat]
        exact hj
      · exact hw.header i h1 (by omega)
    · rcases Nat.eq_or_lt_of_le h1 with rfl | h1
      · rw [hj', hat]
      · exact hw.index i h1 (by omega)
    · rcases Nat.eq_or_lt_of_le h1 with rfl | h1
      · rw [hj', hat]
        dsimp only
        omega
      · rw [hw.depth i h1 (by omega)]
        omega
    · rw [hj', hat]
    · rcases Nat.eq_or_lt_of_le h1 with rfl | h1
      · rw [hw.block, hnext, hstep]
        rfl
      · exact hw.held i h1 (by omega)
    · rw [hw.below i (by omega), hother i (by omega) (by omega)]

/-! ### The path array and the leaf -/

/-- The blocks a path may hold lie within its depth. -/
def HeldWithin (s : St) : Prop :=
  s.pathLive = true → ∀ i, (s.path 0).depth < i → (s.path i).block = 0

theorem heldWithin_stateOf (nodes : Nodes) (used : ℕ → Bool) : HeldWithin (stateOf nodes used) := by
  intro hlive
  cases hlive

theorem findPath_ok (hheld : HeldWithin s) (h : findPath env s = (.ok (), t)) :
    t.nodes = s.nodes ∧ t.pathLive = true ∧ (∀ i, (t.path i).block = 0) ∧
      (t.path 0).header = .inode := by
  unfold findPath at h
  rw [get_bind] at h
  obtain ⟨_, u, hdrop, h⟩ := bind_ok h
  have hu : u.nodes = s.nodes ∧ (u.pathLive = true → ∀ i, (u.path i).block = 0) := by
    by_cases hl : s.pathLive = true
    · rw [runIf_pos hl] at hdrop
      obtain ⟨T, hT⟩ := @dropRefs_run env s 0 false
      rw [bind_of_ok hT] at hdrop
      have hzero : ∀ i, (released s.path 0 ((s.path 0).depth + 1) i).block = 0 := by
        intro i
        unfold released
        by_cases hi : 0 ≤ i ∧ i < 0 + ((s.path 0).depth + 1)
        · rw [if_pos hi]
        · rw [if_neg hi]
          exact hheld hl i (by omega)
      unfold runIf at hdrop
      split at hdrop
      · obtain ⟨-, rfl⟩ := Prod.mk.inj hdrop
        exact ⟨rfl, fun hf => by simp at hf⟩
      · obtain ⟨-, rfl⟩ := Prod.mk.inj hdrop
        exact ⟨rfl, fun _ => hzero⟩
    · rw [runIf_neg hl] at hdrop
      obtain ⟨-, rfl⟩ := Prod.mk.inj hdrop
      exact ⟨rfl, fun hf => absurd hf hl⟩
  rw [get_bind] at h
  obtain ⟨_, v, hnew, h⟩ := bind_ok h
  obtain ⟨-, rfl⟩ := Prod.mk.inj h
  have hv : v.nodes = s.nodes ∧ v.pathLive = true ∧ ∀ i, (v.path i).block = 0 := by
    by_cases hl : u.pathLive = true
    · rw [runIf_neg (not_not.mpr hl)] at hnew
      obtain ⟨-, rfl⟩ := Prod.mk.inj hnew
      exact ⟨hu.1, hl, hu.2 hl⟩
    · rw [runIf_pos hl] at hnew
      obtain ⟨_, w, hc, hnew⟩ := bind_ok hnew
      obtain rfl := calloc_ok hc
      obtain ⟨-, rfl⟩ := Prod.mk.inj hnew
      refine ⟨hu.1, rfl, fun i => ?_⟩
      by_cases hi : i = 0
      · simp [hi, PathEnt.zero]
      · simp [hi, PathEnt.zero]
  refine ⟨hv.1, hv.2.1, fun i => ?_, by simp⟩
  by_cases hi : i = 0
  · simp [hi]
  · simp [hi, hv.2.2 i]

/-- The leaf's entry after the search in it. -/
theorem findLeaf_run : ∃ t, findLeaf b D s = (.ok (), t) ∧ t.nodes = s.nodes ∧
    t.pathLive = s.pathLive ∧ t.calls = s.calls ∧ (∀ i, i ≠ D → t.path i = s.path i) ∧
    (t.path D).header = (s.path D).header ∧ (t.path D).block = (s.path D).block ∧
    (t.path D).depth = 0 ∧
    (t.path D).extent = if (s.nodes (s.path D).header).entriesCount = 0 then none
      else some (binsearch (s.nodes (s.path D).header) b) := by
  unfold findLeaf ext4ExtBinsearch
  rw [modify_bind, modify_bind, get_bind]
  by_cases h0 : (s.nodes (s.path D).header).entriesCount = 0
  · rw [if_pos (by simpa using h0), if_pos h0]
    simp only [setPath_path, Function.update_self]
    refine ⟨_, rfl, rfl, rfl, rfl, fun i hi => ?_, ?_, ?_, ?_, ?_⟩ <;> simp_all [St.setPath]
  · rw [if_neg (by simpa using h0), if_neg h0]
    simp only [setPath_path, Function.update_self, setPath_nodes]
    refine ⟨_, rfl, rfl, rfl, rfl, fun i hi => ?_, ?_, ?_, ?_, ?_⟩ <;> simp_all [St.setPath]

/-! ### The whole lookup -/

/-- **The path of a successful lookup is the way of the searches.** -/
theorem find_path (hheld : HeldWithin s) (h : ext4FindExtent env b s = (.ok (), t)) :
    PathTo t (findHdr s.nodes b .inode) (findPos s.nodes b .inode) (extDepth s) := by
  unfold ext4FindExtent at h
  obtain ⟨_, u, hpath, h⟩ := bind_ok h
  obtain ⟨hn, hl, hblock, hroot⟩ := findPath_ok hheld hpath
  rw [get_bind, bind_of_ok (attempt_apply _ u), show extDepth u = extDepth s by
    unfold extDepth; rw [hn]] at h
  rcases hloop : findLoop env b (extDepth s) (extDepth s) 0 u with ⟨e | _, v⟩
  · rw [hloop] at h
    dsimp only at h
    obtain ⟨T, hT⟩ := @dropRefs_run env v 0 false
    rw [bind_of_ok hT, modify_bind] at h
    simp at h
  rw [hloop] at h
  dsimp only at h
  have hcore := keeps_ok keeps_findLoop hloop
  have hvn : v.nodes = s.nodes := (congrArg Prod.fst hcore).trans hn
  have hw := @findLoop_ok env u v b (extDepth s) 0 (extDepth s) (findHdr s.nodes b .inode)
    (findPos s.nodes b .inode) (by rw [hn]; exact fun i => rfl)
      (by rw [hn]; exact fun i => rfl) hroot
    (fun i _ => hblock i) hloop
  obtain ⟨t', hleaf, htn, htl, -, hother, h1, h2, h3, h4⟩ := @findLeaf_run v b (extDepth s)
  rw [hleaf] at h
  obtain ⟨-, rfl⟩ := Prod.mk.inj h
  have hD : (v.path (extDepth s)).header = findHdr s.nodes b .inode (extDepth s) :=
    hw.header _ (by omega) (by omega)
  refine ⟨by rw [htl, hw.live, hl], fun i hi => ?_, fun i hi => ?_, fun i hi => ?_, rfl, ?_,
    fun i h0 hi => ?_, fun i hi => ?_, ?_⟩
  · rcases Nat.eq_or_lt_of_le hi with rfl | hi
    · rw [h1, hD]
    · rw [hother i (by omega), hw.header i (by omega) (by omega)]
  · rw [hother i (by omega), hw.index i (by omega) (by omega)]
  · rcases Nat.eq_or_lt_of_le hi with rfl | hi
    · rw [h3]
      omega
    · rw [hother i (by omega), hw.depth i (by omega) (by omega)]
      omega
  · by_cases h0 : 0 = extDepth s
    · rw [h0, h2, ← h0, hw.block, hblock]
    · rw [hother 0 h0, hw.block, hblock]
  · rw [hw.held i h0 (by omega)]
    rcases Nat.eq_or_lt_of_le hi with rfl | hi
    · rw [h2]
    · rw [hother i (by omega)]
  · rw [hother i (by omega), hw.below i (by omega), hblock]
  · rw [h4, hD, htn, hvn]
    rfl

/-! ### On a well-formed tree -/

/-- The path of `s` takes the closest entries for block `b`. -/
structure Reached (s : St) (b : ℕ) (hdr : ℕ → Hdr) (pos : ℕ → ℕ) : Prop where
  path : PathTo s hdr pos (extDepth s)
  onPath : OnPath s.nodes hdr pos (extDepth s) 0
  closest : ∀ i, i < extDepth s → Closest (s.nodes (hdr i)) b (pos i)
  leaf : (s.nodes (hdr (extDepth s))).entriesCount ≠ 0 →
    Closest (s.nodes (hdr (extDepth s))) b (pos (extDepth s))

/-- The path of `s` leads to the place of block `b` in a well-formed tree. -/
structure Located (env : Env) (s : St) (b : ℕ) (hdr : ℕ → Hdr) (pos : ℕ → ℕ) : Prop
    extends Reached s b hdr pos where
  tree : TreeOk env s

/-- The searches take closest entries, and each leads to a well-formed subtree. -/
theorem find_way {nodes : Nodes} {h : Hdr}
    (hs : Sub env nodes n (findHdr nodes b h j))
    (hinc : Increasing (exts nodes n (findHdr nodes b h j))) :
    OnPath nodes (findHdr nodes b h) (findPos nodes b h) n j ∧
      ∀ i, j ≤ i → i ≤ j + n →
        Closest (nodes (findHdr nodes b h i)) b (findPos nodes b h i) ∧
          Sub env nodes (j + n - i) (findHdr nodes b h i) := by
  have hcl := binsearch_closest b hs.entriesCount_pos (entries_lt hs hinc)
  induction n generalizing j with
  | zero =>
    refine ⟨trivial, fun i h1 h2 => ?_⟩
    obtain rfl : i = j := by omega
    exact ⟨hcl, by simpa using hs⟩
  | succ n ih =>
    have hmem : (nodes (findHdr nodes b h j)).slots (findPos nodes b h j) ∈
        (nodes (findHdr nodes b h j)).entries := mem_entries.mpr ⟨_, hcl.lt, rfl⟩
    have hsub : Sub env nodes n (findHdr nodes b h (j + 1)) := ((sub_succ.mp hs).2.2 _ hmem).1
    have hinc' : Increasing (exts nodes n (findHdr nodes b h (j + 1))) :=
      increasing_child hmem hinc
    obtain ⟨h1, h2⟩ := ih hsub hinc'
      (binsearch_closest b hsub.entriesCount_pos (entries_lt hsub hinc'))
    refine ⟨⟨hcl.lt, rfl, h1⟩, fun i hi1 hi2 => ?_⟩
    rcases Nat.eq_or_lt_of_le hi1 with rfl | hi1
    · exact ⟨hcl, by simpa using hs⟩
    · rw [show j + (n + 1) = j + 1 + n by omega]
      exact h2 i hi1 (by omega)

theorem TreeOk.of_core (ht : TreeOk env s) (hn : t.nodes = s.nodes) (hu : t.used = s.used) :
    TreeOk env t := by
  have hD : extDepth t = extDepth s := by unfold extDepth; rw [hn]
  have he : treeExts t = treeExts s := by unfold treeExts; rw [hn, hD]
  have hr : treeRefs t = treeRefs s := by unfold treeRefs; rw [hn, hD]
  refine ⟨?_, ?_, ?_, ?_, ?_⟩
  · rw [hn, hD]
    exact ht.shape
  · rw [he]
    exact ht.extOk
  · rw [he]
    exact ht.sorted
  · rw [hr]
    exact ht.nodup
  · rw [hr, hu]
    exact ht.used

/-- The path of a successful lookup, on a tree whose extents need only start in order. -/
theorem find_reached (hsh : Shaped env s) (hheld : HeldWithin s)
    (h : ext4FindExtent env b s = (.ok (), t)) :
    core t = core s ∧ Reached t b (findHdr s.nodes b .inode) (findPos s.nodes b .inode) := by
  have hcore := keeps_ok keeps_find h
  have hn : t.nodes = s.nodes := congrArg Prod.fst hcore
  have hD : extDepth t = extDepth s := by unfold extDepth; rw [hn]
  have hpath := find_path hheld h
  refine ⟨hcore, by rwa [hD], ?_, ?_, ?_⟩
  · rw [hn, hD]
    rcases hsh.shape with hs | ⟨hh, hnil⟩
    · exact (@find_way env b _ 0 s.nodes .inode hs hsh.inc).1
    · rw [show extDepth s = 0 from hh.depth]
      trivial
  · intro i hi
    rw [hn]
    rw [hD] at hi
    rcases hsh.shape with hs | ⟨hh, hnil⟩
    · exact ((@find_way env b _ 0 s.nodes .inode hs hsh.inc).2 i (by omega) (by omega)).1
    · rw [show extDepth s = 0 from hh.depth] at hi
      omega
  · intro hne
    rw [hn, hD] at hne ⊢
    rcases hsh.shape with hs | ⟨hh, hnil⟩
    · exact ((@find_way env b _ 0 s.nodes .inode hs hsh.inc).2 _ (by omega) (by omega)).1
    · rw [show extDepth s = 0 from hh.depth] at hne
      exact absurd (entries_eq_nil.mp hnil) hne

/-- **The path of a successful lookup leads to the place of the block.** -/
theorem find_ok (ht : TreeOk env s) (hheld : HeldWithin s)
    (h : ext4FindExtent env b s = (.ok (), t)) :
    core t = core s ∧ Located env t b (findHdr s.nodes b .inode) (findPos s.nodes b .inode) := by
  obtain ⟨hcore, hreached⟩ := find_reached ht.shaped hheld h
  exact ⟨hcore, hreached, TreeOk.of_core ht (congrArg Prod.fst hcore)
    (congrArg (fun x => x.2.1) hcore)⟩

/-- The extents of a tree around the one the path leads to, read along the path. -/
theorem Located.around (hl : Located env s b hdr pos)
    (hne : (s.nodes (hdr (extDepth s))).entriesCount ≠ 0) :
    Spine env s.nodes hdr pos 0 (extDepth s) 0 ∧
      treeExts s = lefts s.nodes hdr pos 0 (extDepth s) 0 ++ before s.nodes hdr pos (extDepth s) ++
        cur s.nodes hdr pos (extDepth s) ::
          (after s.nodes hdr pos (extDepth s) ++ rights s.nodes hdr pos 0 (extDepth s) 0) ∧
      (∀ x ∈ after s.nodes hdr pos (extDepth s) ++ rights s.nodes hdr pos 0 (extDepth s) 0,
        b < x.firstBlock) ∧
      ((cur s.nodes hdr pos (extDepth s)).firstBlock ≤ b ∨
        lefts s.nodes hdr pos 0 (extDepth s) 0 ++ before s.nodes hdr pos (extDepth s) = []) := by
  have hcl := hl.leaf hne
  have hinc := hl.tree.increasing
  have hroot := hl.path.root
  unfold treeExts at hinc
  rw [← hroot, show extDepth s = 0 + extDepth s by omega] at hinc
  have hsub : Sub env s.nodes (0 + extDepth s) (hdr 0) := by
    rw [hroot, Nat.zero_add]
    rcases hl.tree.shape with hs | ⟨hh, hnil⟩
    · exact hs
    · rw [show extDepth s = 0 from hh.depth, hroot] at hne
      exact absurd (entries_eq_nil.mp hnil) hne
  obtain ⟨hspine, hkeys, -⟩ := spine_open hl.onPath hsub
  have hsplit := exts_spine (g := 0) hl.onPath
  rw [hroot, Nat.zero_add, exts, entries_split hcl.lt] at hsplit
  rcases hfst : (s.nodes (hdr (extDepth s))).entries with _ | ⟨e, es⟩
  · exact absurd (entries_eq_nil.mp hfst) hne
  have hg : exts s.nodes 0 (hdr (0 + extDepth s)) = e :: es := by
    rw [exts, Nat.zero_add, hfst]
  obtain ⟨hR, hL⟩ := closest_way hspine hkeys hinc hg fun i _ h2 => hl.closest i (by omega)
  refine ⟨hspine, by rw [treeExts, hsplit, List.append_assoc, List.append_assoc, List.cons_append,
    ← List.append_assoc], fun x hx => ?_, ?_⟩
  · rcases List.mem_append.mp hx with hx | hx
    · obtain ⟨q, hq, rfl⟩ := List.getElem_of_mem hx
      rw [List.length_drop, length_entries] at hq
      rw [List.getElem_drop, getElem_entries]
      exact hcl.after _ (by omega) (by omega)
    · exact hR x hx
  · rcases hcl.le with h0 | hle
    · rcases hL with hL | hL
      · right
        rw [hL, before, h0]
        rfl
      · left
        have he : e = cur s.nodes hdr pos (extDepth s) := by
          have hlen : 0 < (s.nodes (hdr (extDepth s))).entries.length := by simp [hfst]
          have h1 := getElem_entries hlen
          simp only [hfst, List.getElem_cons_zero] at h1
          rw [h1, cur, h0]
        rwa [← he]
    · exact Or.inl hle

/-- The extents of a tree around the one the path leads to. -/
theorem Located.place (hl : Located env s b hdr pos)
    (hne : (s.nodes (hdr (extDepth s))).entriesCount ≠ 0) :
    ∃ l r, treeExts s = l ++ cur s.nodes hdr pos (extDepth s) :: r ∧
      (∀ x ∈ r, b < x.firstBlock) ∧
      ((cur s.nodes hdr pos (extDepth s)).firstBlock ≤ b ∨ l = []) := by
  obtain ⟨-, hexts, hright, hleft⟩ := hl.around hne
  exact ⟨_, _, hexts, hright, hleft⟩

/-- A leaf without entries belongs to an empty file. -/
theorem Located.empty (hl : Located env s b hdr pos)
    (h0 : (s.nodes (hdr (extDepth s))).entriesCount = 0) : extDepth s = 0 ∧ treeExts s = [] := by
  have hroot := hl.path.root
  rcases hl.tree.shape with hs | ⟨hh, hnil⟩
  · obtain ⟨-, -, hleaf⟩ := spine_open (g := 0) hl.onPath (by rwa [hroot, Nat.zero_add])
    have := hleaf.entriesCount_pos
    rw [Nat.zero_add] at this
    omega
  · have hD : extDepth s = 0 := hh.depth
    refine ⟨hD, ?_⟩
    rw [treeExts, hD]
    exact hnil

/-! ### What a lookup asks for -/

/-- A lookup in `s` needs a new path array. -/
def NeedsArray (s : St) : Prop := s.pathLive = true → (s.path 0).maxdepth < extDepth s

instance : Decidable (NeedsArray s) := by unfold NeedsArray; infer_instance

/-- The number of its first block get. -/
def firstGet (s : St) : ℕ := s.calls + if NeedsArray s then 1 else 0

/-- The blocks on the way over `n` levels from level `j` are granted, from the request `c` on. -/
def WayGranted (env : Env) (nodes : Nodes) (b : ℕ) (h : Hdr) (c n j : ℕ) : Prop :=
  ∀ l blk, l < n → findHdr nodes b h (j + l + 1) = .block blk → env.blockGet (c + l) blk = none

/-- **A lookup of block `b` in `s` gets all it asks for.** -/
structure LookupGranted (env : Env) (b : ℕ) (s : St) : Prop where
  array : NeedsArray s → env.calloc s.calls = true
  way : WayGranted env s.nodes b .inode (firstGet s) (extDepth s) 0

/-- Every block get and every `calloc` succeeds. -/
structure NoFail (env : Env) : Prop where
  blockGet : ∀ n b, env.blockGet n b = none
  calloc : ∀ n, env.calloc n = true

theorem NoFail.lookup (hnf : NoFail env) : LookupGranted env b s :=
  ⟨fun _ => hnf.calloc _, fun _ _ _ _ => hnf.blockGet _ _⟩

theorem HeaderOk.check {nodes : Nodes} {k : ℕ} {h : Hdr} (hh : HeaderOk env nodes k h) :
    ext4ExtCheck (nodes h) k = true := by
  have hpos := hh.max_pos
  unfold ext4ExtCheck
  rw [decide_eq_true_eq]
  exact ⟨hh.magic, hh.depth, by omega, hh.entries_le⟩

theorem wayGranted_succ {nodes : Nodes} {h : Hdr} {c blk : ℕ}
    (hnext : findHdr nodes b h (j + 1) = .block blk) :
    WayGranted env nodes b h c (n + 1) j ↔
      env.blockGet c blk = none ∧ WayGranted env nodes b h (c + 1) n (j + 1) := by
  constructor
  · intro hw
    refine ⟨hw 0 blk n.succ_pos hnext, fun l x hl hx => ?_⟩
    rw [show c + 1 + l = c + (l + 1) by omega]
    exact hw (l + 1) x (by omega) (by rwa [show j + (l + 1) + 1 = j + 1 + l + 1 by omega])
  · rintro ⟨h0, hw⟩ l x hl hx
    rcases l with _ | l
    · rw [Nat.add_zero, hnext] at hx
      obtain rfl := Hdr.block.inj hx
      exact h0
    · rw [show c + (l + 1) = c + 1 + l by omega]
      exact hw l x (by omega) (by rwa [show j + 1 + l + 1 = j + (l + 1) + 1 by omega])

theorem enter_granted {blk i : ℕ} (hi : i ≤ D)
    (hc : ext4ExtCheck (s.nodes (.block blk)) n = true) (hg : env.blockGet s.calls blk = none) :
    ∃ t, enter env D blk n i s = (.ok (), t) ∧ t.calls = s.calls + 1 := by
  have hget : ext4TransBlockGet env blk s = (.ok (), { s with calls := s.calls + 1 }) := by
    unfold ext4TransBlockGet
    rw [hg]
  have hread : readExtentTreeBlock env blk n s = (.ok (), { s with calls := s.calls + 1 }) := by
    unfold readExtentTreeBlock
    rw [bind_of_ok hget, get_bind, if_pos hc]
    rfl
  unfold enter
  rw [bind_of_ok hread, runIf_neg (by omega), pure_bind_apply]
  exact ⟨_, rfl, rfl⟩

theorem enter_refused {blk i : ℕ} {e : Errno} (hg : env.blockGet s.calls blk = some e) :
    ∃ t, enter env D blk n i s = (.error e, t) := by
  have hget : ext4TransBlockGet env blk s = (.error e, { s with calls := s.calls + 1 }) := by
    unfold ext4TransBlockGet
    rw [hg]
  unfold enter readExtentTreeBlock
  exact ⟨_, bind_of_error (bind_of_error hget)⟩

/-- The walk down gets to the leaf if and only if the blocks on the way are granted. -/
theorem findLoop_run {h : Hdr} (hj : (s.path j).header = findHdr s.nodes b h j)
    (hfree : ∀ i, j < i → (s.path i).block = 0) (hD : j + n ≤ D)
    (hs : Sub env s.nodes n (findHdr s.nodes b h j))
    (hinc : Increasing (exts s.nodes n (findHdr s.nodes b h j))) :
    ∃ r t, findLoop env b D n j s = (r, t) ∧
      (r = .ok () ↔ WayGranted env s.nodes b h s.calls n j) ∧
      (r = .ok () → t.calls = s.calls + n) := by
  induction n generalizing j s with
  | zero => exact ⟨_, s, rfl, ⟨fun _ _ _ hl => absurd hl (Nat.not_lt_zero _), fun _ => rfl⟩,
      fun _ => rfl⟩
  | succ n ih =>
    obtain ⟨u, p, blk, hrun, hp, hblk, hun, hul, huc, huat, hurest⟩ :=
      @findLoop_succ env s b n j D (hfree (j + 1) (by omega))
    rw [hj] at hp hblk
    have hcl := binsearch_closest b hs.entriesCount_pos (entries_lt hs hinc)
    have hmem : (s.nodes (findHdr s.nodes b h j)).slots p ∈
        (s.nodes (findHdr s.nodes b h j)).entries := mem_entries.mpr ⟨p, hp ▸ hcl.lt, rfl⟩
    have hnext : findHdr s.nodes b h (j + 1) = .block blk := by
      rw [hblk, hp]
      rfl
    have hsub : Sub env s.nodes n (findHdr s.nodes b h (j + 1)) := by
      rw [hnext, hblk]
      exact ((sub_succ.mp hs).2.2 _ hmem).1
    have hinc' : Increasing (exts s.nodes n (findHdr s.nodes b h (j + 1))) := by
      rw [hnext, hblk]
      exact increasing_child hmem hinc
    rw [hrun]
    rcases hg : env.blockGet s.calls blk with _ | e
    · obtain ⟨s', henter, hcalls⟩ := @enter_granted env u n D blk (j + 1) (by omega)
        (by rw [hun, ← hnext]; exact HeaderOk.check hsub.header) (by rwa [huc])
      obtain ⟨hn, hl, hat, hother⟩ := enter_ok henter
      rw [hun] at hn
      rw [huc] at hcalls
      obtain ⟨r, t, hrest, hiff, ht⟩ := ih (s := s') (by rw [hat, hn, hnext])
        (fun i hi => by
          rw [hother i (by omega), hurest i (by omega), hfree i (by omega)])
        (by omega) (by rwa [hn]) (by rwa [hn])
      refine ⟨r, t, (bind_of_ok henter).trans hrest, ?_, fun hr => by rw [ht hr, hcalls]; omega⟩
      rw [hiff, hn, hcalls, wayGranted_succ hnext]
      exact (and_iff_right hg).symm
    · obtain ⟨s', henter⟩ := @enter_refused env u n D blk (j + 1) e (by rwa [huc])
      refine ⟨_, s', bind_of_error henter, ⟨nofun, fun hw => ?_⟩, nofun⟩
      rw [((wayGranted_succ hnext).mp hw).1] at hg
      cases hg

theorem findPath_run : ∃ r t, findPath env s = (r, t) ∧
    (r = .ok () ↔ (NeedsArray s → env.calloc s.calls = true)) ∧
    (r = .ok () → t.calls = firstGet s) := by
  have hdrop : ∃ u, runIf s.pathLive (do
      ext4ExtDropRefs env 0 false
      runIf ((s.path 0).maxdepth < extDepth s)
        (modify fun s => { s with pathLive := false }) : Ext Unit) s = (.ok (), u) ∧
      u.calls = s.calls ∧ (u.pathLive = true ↔ ¬ NeedsArray s) := by
    unfold NeedsArray
    by_cases hl : s.pathLive = true
    · rw [runIf_pos hl]
      obtain ⟨T, hT⟩ := @dropRefs_run env s 0 false
      rw [bind_of_ok hT]
      by_cases hm : (s.path 0).maxdepth < extDepth s
      · rw [runIf_pos hm]
        exact ⟨_, rfl, rfl, by simp [hm]⟩
      · rw [runIf_neg hm]
        exact ⟨_, rfl, rfl, by simp [hl, hm]⟩
    · rw [runIf_neg hl]
      exact ⟨s, rfl, rfl, by simp [hl]⟩
  obtain ⟨u, hu, hcalls, hlive⟩ := hdrop
  unfold findPath firstGet
  rw [get_bind, bind_of_ok hu, get_bind]
  by_cases hneeds : NeedsArray s
  · have hdead : ¬ u.pathLive = true := fun hl => hlive.mp hl hneeds
    rw [runIf_pos hdead, bind_assoc_apply, if_pos hneeds]
    by_cases hc : env.calloc s.calls = true
    · have hnew : callocPath env u = (.ok (), { u with calls := u.calls + 1 }) := by
        unfold callocPath
        rw [hcalls, if_pos hc]
      rw [bind_of_ok hnew]
      exact ⟨_, _, rfl, ⟨fun _ _ => hc, fun _ => rfl⟩, fun _ => congrArg (· + 1) hcalls⟩
    · have hnew : callocPath env u = (.error .enomem, { u with calls := u.calls + 1 }) := by
        unfold callocPath
        rw [hcalls, if_neg hc]
      exact ⟨_, _, bind_of_error hnew, ⟨nofun, fun h => absurd (h hneeds) hc⟩, nofun⟩
  · rw [runIf_neg (not_not.mpr (hlive.mpr hneeds)), pure_bind_apply, if_neg hneeds]
    exact ⟨_, _, rfl, ⟨fun _ h => absurd h hneeds, fun _ => rfl⟩, fun _ => hcalls⟩

/-- **On a well-formed tree a lookup succeeds if and only if it gets all it asks for.** -/
theorem find_run (hsh : Shaped env s) (hheld : HeldWithin s) :
    ∃ r t, ext4FindExtent env b s = (r, t) ∧ (r = .ok () ↔ LookupGranted env b s) ∧
      (r = .ok () → t.calls = firstGet s + extDepth s) := by
  obtain ⟨r, u, hu, harray, hget⟩ := @findPath_run env s
  unfold ext4FindExtent
  rcases r with e | ⟨⟩
  · exact ⟨_, u, bind_of_error hu, ⟨nofun, fun hg => absurd (harray.mpr hg.array) (by simp)⟩,
      nofun⟩
  obtain ⟨hn, -, hblock, hroot⟩ := findPath_ok hheld hu
  have hD : extDepth u = extDepth s := by unfold extDepth; rw [hn]
  obtain ⟨r, v, hv, hway, hcalls⟩ : ∃ r v, findLoop env b (extDepth s) (extDepth s) 0 u = (r, v) ∧
      (r = .ok () ↔ WayGranted env u.nodes b .inode u.calls (extDepth s) 0) ∧
      (r = .ok () → v.calls = u.calls + extDepth s) := by
    rcases hsh.shape with hs | ⟨hh, hnil⟩
    · have hinc := hsh.inc
      unfold treeExts at hinc
      rw [← hn] at hs hinc
      exact @findLoop_run env u b _ 0 _ .inode hroot (fun i _ => hblock i) (by omega) hs hinc
    · rw [show extDepth s = 0 from hh.depth]
      exact ⟨_, u, rfl, ⟨fun _ _ _ hl => absurd hl (Nat.not_lt_zero _), fun _ => rfl⟩,
        fun _ => rfl⟩
  rw [hn, hget rfl] at hway
  rw [bind_of_ok hu, get_bind, hD, bind_of_ok (attempt_apply _ u), hv]
  have hall : LookupGranted env b s ↔ r = .ok () :=
    ⟨fun hg => hway.mpr hg.way, fun hr => ⟨harray.mp rfl, hway.mp hr⟩⟩
  rcases r with e | ⟨⟩
  · obtain ⟨T, hT⟩ := @dropRefs_run env v 0 false
    dsimp only
    rw [bind_of_ok hT, modify_bind]
    exact ⟨_, _, rfl, ⟨nofun, fun hg => absurd (hall.mp hg) (by simp)⟩, nofun⟩
  · obtain ⟨t, hleaf, -, -, htc, -⟩ := @findLeaf_run v b (extDepth s)
    exact ⟨_, t, hleaf, ⟨fun _ => hall.mpr rfl, fun _ => rfl⟩,
      fun _ => by rw [htc, hcalls rfl, hget rfl]⟩

/-- Only a block get or `calloc` can make it fail. -/
theorem find_succeeds (hnf : NoFail env) (ht : TreeOk env s) (hheld : HeldWithin s) :
    ∃ t, ext4FindExtent env b s = (.ok (), t) := by
  obtain ⟨r, t, hrun, hiff, -⟩ := @find_run env s b ht.shaped hheld
  rw [hiff.mpr hnf.lookup] at hrun
  exact ⟨t, hrun⟩

end

end Ext4Fsd.Extent.Lookup
