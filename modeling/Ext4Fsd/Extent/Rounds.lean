import Ext4Fsd.Extent.Insertion

/-! # The rounds of an insertion

`insertRounds_spec` is the loop of `ext4_ext_insert_extent`: a leaf with room takes the extent, a
full one is split below the level that has room, and a path without room makes the tree grow first.
In the grown tree the lookup leads down the old way (`regrow_spec`), one level deeper and with room
under the new root. -/

namespace Ext4Fsd.Extent.Rounds

open Ext4Fsd.Lib.Fallible Ext4Fsd.Lib.Intervals Ext4Fsd.Extent.Layout Ext4Fsd.Extent.Store
open Ext4Fsd.Extent.Search Ext4Fsd.Extent.Insert Ext4Fsd.Extent.Tree Ext4Fsd.Extent.Way
open Ext4Fsd.Extent.Found Ext4Fsd.Extent.Lookup Ext4Fsd.Extent.Keys Ext4Fsd.Extent.Focus
open Ext4Fsd.Extent.InsertLeaf Ext4Fsd.Extent.Split Ext4Fsd.Extent.SplitRun
open Ext4Fsd.Extent.Prepared Ext4Fsd.Extent.MakeRoom Ext4Fsd.Extent.Grow Ext4Fsd.Extent.Landing
open Ext4Fsd.Extent.Insertion

/-- **The tree has grown by the block `nb`, and the path was looked up again.** -/
structure Regrown (env : Env) (s v : St) (hdr' : ℕ → Hdr) (pos' : ℕ → ℕ) (nb : ℕ) (newext : Slot) :
    Prop where
  grown : ∃ u, Grown env s u nb ∧ core v = core u
  reached : Reached v newext.firstBlock hdr' pos'
  shaped : Shaped env v
  depth : extDepth v = extDepth s + 1
  exts : treeExts v = treeExts s
  refs : (treeRefs v).Perm (treeRefs s ++ [.block nb])

/-- The levels of the path of `s` are found again one level deeper. -/
structure Deeper (s v : St) (hdr hdr' : ℕ → Hdr) (pos pos' : ℕ → ℕ) (nb : ℕ) : Prop where
  root : hdr' 0 = .inode
  moved : hdr' 1 = .block nb
  header : ∀ i, 0 < i → i ≤ extDepth s → hdr' (i + 1) = hdr i
  position : ∀ i, i ≤ extDepth s → pos' (i + 1) = pos i
  /-- The nodes below the root are what they were, and the root is in its new block. -/
  nodes : ∀ i, 0 < i → i ≤ extDepth s → v.nodes (hdr i) = s.nodes (hdr i)
  movedCount : (v.nodes (.block nb)).entriesCount = (s.nodes .inode).entriesCount
  movedSlots : ∀ j, j < (s.nodes .inode).entriesCount →
    (v.nodes (.block nb)).slots j = (s.nodes .inode).slots j
  room : (v.nodes (.block nb)).entriesCount < (v.nodes (.block nb)).maxEntriesCount

section
variable {env : Env} {s t u v : St} {hdr hdr' : ℕ → Hdr} {pos pos' : ℕ → ℕ} {b nb n : ℕ}
  {newext : Slot} {noCombine : Bool}

/-! ### The lookup in the grown tree -/

theorem heldWithin_of_path (hp : PathTo s hdr pos (extDepth s)) : HeldWithin s := by
  intro _ i hi
  rw [hp.depth 0 (by omega)] at hi
  exact hp.beyond i (by omega)

theorem heldWithin_grown (hp : PathTo s hdr pos (extDepth s)) (hg : Grown env s u nb) :
    HeldWithin u := by
  intro hlive i hi
  rw [hg.path] at hi ⊢
  exact heldWithin_of_path hp (hg.pathLive ▸ hlive) i hi

theorem relookup_spec {r : Except Errno Unit} (h : relookup env newext u = (r, t)) :
    (r = .ok () ∧ ext4FindExtent env newext.firstBlock u = (.ok (), t)) ∨
      (r = .error .fault ∧ (∃ x, ext4FindExtent env newext.firstBlock u = (.error x, t)) ∧
        core t = core u) := by
  unfold relookup at h
  rw [bind_of_ok (attempt_apply _ u)] at h
  rcases hf : ext4FindExtent env newext.firstBlock u with ⟨e | x, w⟩
  · rw [hf] at h
    obtain ⟨rfl, rfl⟩ := Prod.mk.inj h
    exact Or.inr ⟨rfl, ⟨e, rfl⟩, keeps_ok keeps_find hf⟩
  · rw [hf] at h
    obtain ⟨rfl, rfl⟩ := Prod.mk.inj h
    exact Or.inl ⟨rfl, rfl⟩

/-- **What growing the tree and looking the path up again comes to.** -/
theorem regrow_spec (hr : Ready env s hdr pos b newext) (hsize : SizeOk env) (hal : AllocOk env)
    (hfull : (leafNode s hdr).entriesCount = (leafNode s hdr).maxEntriesCount)
    (hdeep : extDepth s + 1 < 2 ^ 16) {r : Except Errno Unit}
    (h : (do ext4ExtGrowIndepth env; relookup env newext : Ext Unit) s = (r, t)) :
    (r = .ok () ∧ ∃ nb hdr' pos', Regrown env s t hdr' pos' nb newext) ∨
      (∃ e, r = .error e ∧ Refused env e ∧ ext4ExtGrowIndepth env s = (.error e, t) ∧
        NotTaken s t) ∨
      (r = .error .fault ∧ ∃ u nb x, ext4ExtGrowIndepth env s = (.ok (), u) ∧
        ext4FindExtent env newext.firstBlock u = (.error x, t) ∧ Grown env s u nb ∧
        core t = core u) := by
  have h0 := hr.nonempty hfull
  have hsh := hr.shaped h0
  rcases hg : ext4ExtGrowIndepth env s with ⟨r', u⟩
  rcases grow_spec hal hg with ⟨rfl, nb, hgrown⟩ | ⟨e, rfl, hre, hnot⟩
  · rw [bind_of_ok hg] at h
    rcases relookup_spec h with ⟨rfl, hfind⟩ | ⟨rfl, ⟨x, hfind⟩, hcore⟩
    · left
      obtain ⟨hshu, -, hDu, hex, hre⟩ := grown_shaped hgrown hsize hsh (hr.sub h0) hdeep
      obtain ⟨hcore, hreached⟩ :=
        find_reached hshu (heldWithin_grown hr.focused.path hgrown) hfind
      have hn : t.nodes = u.nodes := congrArg Prod.fst hcore
      have hused : t.used = u.used := congrArg (fun x => x.2.1) hcore
      have hD : extDepth t = extDepth u := by unfold extDepth; rw [hn]
      have hext : treeExts t = treeExts u := by unfold treeExts; rw [hn, hD]
      have href : treeRefs t = treeRefs u := by unfold treeRefs; rw [hn, hD]
      obtain ⟨h1, h2, h3, h4⟩ := hshu
      refine ⟨rfl, nb, _, _, ⟨u, hgrown, hcore⟩, hreached, ⟨?_, ?_, ?_, ?_⟩, hD.trans hDu,
        hext.trans hex, by rw [href]; exact hre⟩
      · rwa [hn, hD]
      · rwa [hext]
      · rwa [href]
      · rwa [href, hused]
    · exact Or.inr (Or.inr ⟨rfl, u, nb, x, rfl, hfind, hgrown, hcore⟩)
  · rw [bind_of_error hg] at h
    obtain ⟨rfl, rfl⟩ := Prod.mk.inj h
    exact Or.inr (Or.inl ⟨e, rfl, hre, rfl, hnot⟩)

/-- The lookup in the grown tree leads down the old way. -/
theorem Regrown.deeper (hv : Regrown env s v hdr' pos' nb newext)
    (hr : Ready env s hdr pos b newext) (hs : Sought s hdr pos newext) (hsize : SizeOk env)
    (hfull : (leafNode s hdr).entriesCount = (leafNode s hdr).maxEntriesCount) :
    Deeper s v hdr hdr' pos pos' nb := by
  have h0 := hr.nonempty hfull
  have hsh := hr.shaped h0
  obtain ⟨u, hg, hcore⟩ := hv.grown
  have hn : v.nodes = u.nodes := congrArg Prod.fst hcore
  obtain ⟨hat, -, hsame⟩ := hg.at hsh.nodup hsh.used
  have hroot : hdr' 0 = .inode := hv.reached.path.root
  have hon := hv.reached.onPath
  have hclosest := hv.reached.closest
  rw [hv.depth, hn] at hon hclosest
  obtain ⟨hmoved, hheader, hpos⟩ := grown_way hg hr (hr.closest hfull) hsh hroot hon hclosest
  have hf := hr.focused
  have hh := level_header hf (show 0 ≤ extDepth s by omega)
  rw [hf.path.root] at hh
  have hle : (s.nodes .inode).entriesCount ≤ 4 := hh.entries_le.trans hh.max_le
  have hcap : 84 ≤ ext4ExtSpaceBlock env := by
    have := hsize.1
    unfold ext4ExtSpaceBlock
    omega
  have hslots : ∀ j, j < (s.nodes .inode).entriesCount →
      (v.nodes (.block nb)).slots j = (s.nodes .inode).slots j := fun j hj => by
    rw [hn, hat]
    refine (memmove_in (Nat.zero_le j) ?_).trans (by simp)
    show j < 0 + 4
    omega
  have hcount : (v.nodes (.block nb)).entriesCount = (s.nodes .inode).entriesCount := by
    rw [hn, hat]
    rfl
  have hmax : (v.nodes (.block nb)).maxEntriesCount = ext4ExtSpaceBlock env := by
    rw [hn, hat]
    unfold movedRoot
    dsimp only
    split_ifs <;> rfl
  have hnodes : ∀ i, 0 < i → i ≤ extDepth s → v.nodes (hdr i) = s.nodes (hdr i) :=
    fun i hi hi' => by
    rw [hn]
    refine hsame _ ?_
    have hmem := hf.refs.symm.mem_iff.mp (@hdr_mem_wayRefs s hdr pos i hi')
    rw [treeRefs, refs_cons, List.mem_cons] at hmem
    rcases hmem with h | h
    · have := hf.distinct i 0 (by omega) (by omega) (h.trans hf.path.root.symm)
      omega
    · exact h
  refine ⟨hroot, hmoved, hheader, fun i hi => ?_, hnodes, hcount, hslots, by omega⟩
  rcases Nat.eq_or_lt_of_le hi with rfl | hi
  · -- in the leaf both are what a search finds among the same entries
    have hclosest := hs.closest hr h0
    have hleaf := hv.reached.leaf
    rw [hv.depth] at hleaf
    by_cases hD : extDepth s = 0
    · have hleafNode : leafNode s hdr = s.nodes .inode := by rw [leafNode, hD, hf.path.root]
      rw [hleafNode] at hclosest h0
      rw [hD, Nat.zero_add, hmoved] at hleaf
      rw [hD] at hclosest ⊢
      exact (closest_unique hcount hslots hclosest (hleaf (by rw [hcount]; exact h0))).symm
    · rw [hheader _ (by omega) le_rfl, hnodes _ (by omega) le_rfl] at hleaf
      exact (closest_unique rfl (fun _ _ => rfl) hclosest (hleaf h0)).symm
  · exact hpos i hi

/-! ### Levels -/

/-- A path of which every level is full. -/
theorem allFull (hf : Focused env s hdr pos b) (hlt : extDepth s < fullLevels s (extDepth s)) :
    FullFrom s hdr 0 := by
  intro l _ hl
  have hh := level_header hf hl
  have hle := hh.entries_le
  have hno := (@fullLevels_spec s (extDepth s)).2.1 l hl (by omega)
  rw [hf.path.header l hl] at hno
  omega

/-- The levels below one with room. -/
theorem fullBelow (hf : Focused env s hdr pos b) (hle : fullLevels s (extDepth s) ≤ extDepth s) :
    FullFrom s hdr (extDepth s + 1 - fullLevels s (extDepth s)) ∧
      (s.nodes (hdr (extDepth s - fullLevels s (extDepth s)))).entriesCount <
        (s.nodes (hdr (extDepth s - fullLevels s (extDepth s)))).maxEntriesCount := by
  obtain ⟨-, h2, h3⟩ := @fullLevels_spec s (extDepth s)
  constructor
  · intro l h4 h5
    have hle' := (level_header hf h5).entries_le
    have hno := h2 l h5 (by omega)
    rw [hf.path.header l h5] at hno
    omega
  · have hroom := h3 hle
    rwa [hf.path.header _ (by omega)] at hroom

/-- A full leaf is one full level at least. -/
theorem fullLevels_pos (hf : Focused env s hdr pos b)
    (hfull : (leafNode s hdr).entriesCount = (leafNode s hdr).maxEntriesCount) :
    0 < fullLevels s (extDepth s) := by
  obtain ⟨-, -, h3⟩ := @fullLevels_spec s (extDepth s)
  by_contra h0
  have hroom := h3 (by omega)
  rw [show extDepth s - fullLevels s (extDepth s) = extDepth s by omega,
    hf.path.header _ le_rfl, hfull] at hroom
  exact absurd hroom (lt_irrefl _)

/-- Below the moved root the grown path is full. -/
theorem Deeper.fullFrom (hd : Deeper s v hdr hdr' pos pos' nb) (hD : extDepth v = extDepth s + 1)
    (hfull : FullFrom s hdr 0) : FullFrom v hdr' 2 := by
  intro l h1 h2
  obtain ⟨i, rfl⟩ : ∃ i, l = i + 1 := ⟨l - 1, by omega⟩
  rw [hd.header i (by omega) (by omega), hd.nodes i (by omega) (by omega)]
  exact hfull i (by omega) (by omega)

theorem Deeper.splitFrom (hd : Deeper s v hdr hdr' pos pos' nb) (hD : extDepth v = extDepth s + 1)
    (hfull : FullFrom s hdr 0)
    (hheader : ∀ l, l ≤ extDepth v → (v.path l).header = hdr' l) : Landing.splitFrom v = 2 := by
  obtain ⟨h1, h2, h3⟩ := @fullLevels_spec v (extDepth v)
  have hroom := hd.room
  rw [← hd.moved] at hroom
  have hle : fullLevels v (extDepth v) ≤ extDepth s := by
    by_contra hlt
    refine h2 1 (by omega) (by omega) ?_
    rwa [hheader 1 (by omega)]
  have hge : extDepth s ≤ fullLevels v (extDepth v) := by
    by_contra hlt
    have hroom' := h3 (by omega)
    rw [hheader _ (by omega), hd.fullFrom hD hfull _ (by omega) (by omega)] at hroom'
    exact lt_irrefl _ hroom'
  unfold Landing.splitFrom
  rw [if_neg (by omega)]
  omega

/-! ### From the grown tree back -/

/-- The leaf of the grown path has the entries of the old one. -/
theorem Deeper.leaf (hd : Deeper s v hdr hdr' pos pos' nb) (hD : extDepth v = extDepth s + 1)
    (hroot : hdr 0 = .inode) : (leafNode v hdr').entriesCount = (leafNode s hdr).entriesCount ∧
      ∀ j, j < (leafNode s hdr).entriesCount →
      (leafNode v hdr').slots j = (leafNode s hdr).slots j := by
  by_cases h0 : extDepth s = 0
  · have h1 : leafNode v hdr' = v.nodes (.block nb) := by rw [leafNode, hD, h0, hd.moved]
    have h2 : leafNode s hdr = s.nodes .inode := by rw [leafNode, h0, hroot]
    rw [h1, h2]
    exact ⟨hd.movedCount, hd.movedSlots⟩
  · have h1 : leafNode v hdr' = leafNode s hdr := by
      rw [leafNode, leafNode, hD, hd.header _ (by omega) le_rfl, hd.nodes _ (by omega) le_rfl]
    rw [h1]
    exact ⟨rfl, fun _ _ => rfl⟩

theorem Deeper.noMerge (hd : Deeper s v hdr hdr' pos pos' nb) (hD : extDepth v = extDepth s + 1)
    (hf : Focused env s hdr pos b)
    (hno : NoMerge (leafNode s hdr) (pos (extDepth s)) newext noCombine) :
    NoMerge (leafNode v hdr') (pos' (extDepth v)) newext noCombine := by
  obtain ⟨h1, h2⟩ := hd.leaf hD hf.path.root
  rcases hno with h | h
  · exact Or.inl h
  · refine Or.inr fun h0 => ?_
    rw [h1] at h0
    rw [hD, hd.position _ le_rfl, h2 _ (hf.pos_lt h0)]
    exact h h0

/-- The grown tree is crowded where the old one was. -/
theorem Deeper.crowded (hd : Deeper s v hdr hdr' pos pos' nb) (hD : extDepth v = extDepth s + 1)
    (hfull : FullFrom s hdr 0)
    (hlt : extDepth s < fullLevels s (extDepth s))
    (hheader : ∀ l, l ≤ extDepth v → (v.path l).header = hdr' l) :
    Crowded v hdr' pos' newext ↔ Crowded s hdr pos newext := by
  have hfrom : Landing.splitFrom s = 1 := by
    unfold Landing.splitFrom
    rw [if_pos hlt]
  by_cases h0 : extDepth s = 0
  · constructor
    · rintro ⟨h1, -, -, -⟩
      have hroom := hd.room
      rw [leafNode, hD, h0, hd.moved] at h1
      omega
    · rintro ⟨-, -, -, i, h1, h2, -⟩
      omega
  · have hleaf : leafNode v hdr' = leafNode s hdr := by
      rw [leafNode, leafNode, hD, hd.header _ (by omega) le_rfl, hd.nodes _ (by omega) le_rfl]
    have hpos : pos' (extDepth v) = pos (extDepth s) := by rw [hD, hd.position _ le_rfl]
    have hfrom' := hd.splitFrom hD hfull hheader
    constructor
    · rintro ⟨h1, h2, h3, i, h4, h5, h6⟩
      rw [hleaf] at h1 h2 h3
      rw [hpos] at h2
      obtain ⟨j, rfl⟩ : ∃ j, i = j + 1 := ⟨i - 1, by omega⟩
      rw [hd.header j (by omega) (by omega), hd.nodes j (by omega) (by omega),
        hd.position j (by omega)] at h6
      exact ⟨h1, h2, h3, j, by omega, by omega, h6⟩
    · rintro ⟨h1, h2, h3, i, h4, h5, h6⟩
      rw [← hleaf] at h1 h2 h3
      rw [← hpos] at h2
      refine ⟨h1, h2, h3, i + 1, by omega, by omega, ?_⟩
      rwa [hd.header i (by omega) (by omega), hd.nodes i (by omega) (by omega),
        hd.position i (by omega)]

/-- What has landed in the grown tree has landed in the old one. -/
theorem Regrown.landed (hv : Regrown env s v hdr' pos' nb newext) {E' : List Slot}
    (hcrowded : Crowded v hdr' pos' newext ↔ Crowded s hdr pos newext)
    (hs : Sought v hdr' pos' newext) (hl : Landed v hdr' pos' newext E') :
    Landed s hdr pos newext E' := by
  unfold Landed at hl ⊢
  rw [hcrowded, hv.exts] at hl
  rcases hl with ⟨h1, l, r, h2, h3, h4⟩ | hl
  · exact Or.inl ⟨h1, l, r, h2, h3, fun _ => h4 hs⟩
  · exact Or.inr hl

theorem Regrown.gained (hv : Regrown env s v hdr' pos' nb newext) :
    Gained s v (treeRefs s) (treeRefs v) [.block nb] := by
  obtain ⟨u, hg, hcore⟩ := hv.grown
  have hused : v.used = u.used := congrArg (fun x => x.2.1) hcore
  have hfreed : v.freed = u.freed := congrArg (fun x => x.2.2.1) hcore
  refine ⟨hv.refs, fun h hh => ?_, fun c => ?_, hfreed.trans hg.freed⟩
  · rw [List.mem_singleton] at hh
    exact ⟨nb, hh, hg.free, hg.ne_zero⟩
  · rw [hused, hg.used, List.mem_singleton]
    by_cases hc : c = nb
    · simp [hc]
    · simp [hc]

theorem Regrown.settled (hv : Regrown env s v hdr' pos' nb newext) {E' : List Slot}
    (h : Settled env v t newext E') : Settled env s t newext E' := by
  obtain ⟨h1, p1, b1, news, h2, h3, h4, h5, h6, h7⟩ := h
  exact ⟨h1, p1, b1, _, h2, h3, h4, h5, h6, hv.gained.trans h7⟩

/-! ### The loop -/

/-- The 16 bits of `eh_depth` hold the depth the tree grows to. -/
def DepthFits (s : St) : Prop :=
  extDepth s < fullLevels s (extDepth s) → extDepth s + 1 < 2 ^ 16

/-- A run that has ended well needs no more turns. -/
theorem insertRounds_more {k : ℕ} (h : insertRounds env newext noCombine n s = (.ok (), t)) :
    insertRounds env newext noCombine (n + k) s = (.ok (), t) := by
  induction n generalizing s with
  | zero => simp [insertRounds] at h
  | succ n ih =>
    rw [show n + 1 + k = n + k + 1 by omega]
    rw [insertRounds, get_bind] at h ⊢
    obtain ⟨needSplit, u, hleaf, h⟩ := bind_ok h
    rw [bind_of_ok hleaf]
    by_cases hs : needSplit = true
    · rw [if_pos hs] at h ⊢
      obtain ⟨_, v, hmake, h⟩ := bind_ok h
      rw [bind_of_ok hmake]
      exact ih h
    · rw [if_neg hs] at h ⊢
      exact h

/-- A full leaf makes the loop make room and try again. -/
theorem insertRounds_full (hf : Focused env s hdr pos b)
    (hfull : (leafNode s hdr).entriesCount = (leafNode s hdr).maxEntriesCount)
    (hne : (leafNode s hdr).entriesCount ≠ 0 →
      ((leafNode s hdr).slots (pos (extDepth s))).firstBlock ≠ newext.firstBlock)
    (hno : NoMerge (leafNode s hdr) (pos (extDepth s)) newext noCombine) :
    insertRounds env newext noCombine (n + 1) s =
      (makeRoom env newext >>= fun _ => insertRounds env newext noCombine n) s := by
  rw [insertRounds, get_bind, bind_of_ok (a := true) (t := s), if_pos rfl]
  rw [insertLeaf_run hf hne hno, if_pos hfull]

theorem makeRoom_below (hle : fullLevels s (extDepth s) ≤ extDepth s)
    (hpos : 0 < fullLevels s (extDepth s)) : makeRoom env newext s =
      roomBelow env newext (extDepth s + 1 - fullLevels s (extDepth s))
        (fullLevels s (extDepth s)) s := by
  unfold makeRoom
  rw [get_bind]
  dsimp only
  rw [runIf_neg (by omega), pure_bind_apply, if_neg (by omega), if_neg (by omega), runIf_pos hpos,
    show extDepth s - (fullLevels s (extDepth s) - 1) =
      extDepth s + 1 - fullLevels s (extDepth s) by omega]
  rfl

theorem makeRoom_grow (hlt : extDepth s < fullLevels s (extDepth s)) : makeRoom env newext s =
    ((do ext4ExtGrowIndepth env; relookup env newext : Ext Unit) >>= fun _ =>
      runIf (0 < extDepth s) (roomBelow env newext 2 (extDepth s))) s := by
  have hle := (@fullLevels_spec s (extDepth s)).1
  unfold makeRoom
  rw [get_bind]
  dsimp only
  rw [runIf_pos hlt, if_pos hlt, if_pos hlt,
    show fullLevels s (extDepth s) - 1 = extDepth s by omega]
  by_cases h0 : 0 < extDepth s
  · rw [runIf_pos h0, runIf_pos h0, show extDepth s + 1 - (extDepth s - 1) = 2 by omega]
    rfl
  · rw [runIf_neg h0, runIf_neg h0]

/-- **Making room has failed**: at a split, or because the tree was to grow and could not, could not
be searched again, or could not be split. -/
inductive NoRoom (env : Env) (s t : St) (hdr : ℕ → Hdr) (pos : ℕ → ℕ) (newext : Slot) : Errno → Prop
  | split {e : Errno} (he : Refused env e) (hle : fullLevels s (extDepth s) ≤ extDepth s)
      (h : Unfinished env s t hdr pos newext) : NoRoom env s t hdr pos newext e
  | notGrown {e x : Errno} {u : St} (he : Refused env e)
      (hlt : extDepth s < fullLevels s (extDepth s))
      (hgrow : ext4ExtGrowIndepth env s = (.error x, u)) (h : Untouched s t) :
      NoRoom env s t hdr pos newext e
  | notFound {x : Errno} {u w : St} {nb : ℕ} (hlt : extDepth s < fullLevels s (extDepth s))
      (hgrow : ext4ExtGrowIndepth env s = (.ok (), u))
      (hfind : ext4FindExtent env newext.firstBlock u = (.error x, w)) (hg : Grown env s u nb)
      (h : core t = core u) : NoRoom env s t hdr pos newext .fault
  | grownSplit {e : Errno} {v : St} {nb : ℕ} {hdr' : ℕ → Hdr} {pos' : ℕ → ℕ}
      (he : Refused env e) (hlt : extDepth s < fullLevels s (extDepth s))
      (hgrow : (do ext4ExtGrowIndepth env; relookup env newext : Ext Unit) s = (.ok (), v))
      (hv : Regrown env s v hdr' pos' nb newext) (hd : Deeper s v hdr hdr' pos pos' nb)
      (h : Unfinished env v t hdr' pos' newext) : NoRoom env s t hdr pos newext e

theorem same_of_notTaken (h : NotTaken s t) : Untouched s t := by
  obtain ⟨h1, h2⟩ := h
  refine ⟨⟨?_, ?_, ?_, ?_⟩, h2⟩ <;> rw [h1]

/-- The path is full, and the tree has grown. -/
theorem rounds_grown (hr : Ready env s hdr pos b newext) (hs : Sought s hdr pos newext)
    (hsize : SizeOk env) (hal : AllocOk env) (hfits : Fits newext)
    (hlt : extDepth s < fullLevels s (extDepth s))
    (hno : NoMerge (leafNode s hdr) (pos (extDepth s)) newext noCombine)
    (hv : Regrown env s v hdr' pos' nb newext) {r : Except Errno Unit}
    (h : (runIf (0 < extDepth s) (roomBelow env newext 2 (extDepth s)) >>= fun _ =>
      insertRounds env newext noCombine (n + 1)) v = (r, t)) :
    (r = .ok () ∧ ∃ E', Landed s hdr pos newext E' ∧ Settled env s t newext E') ∨
      ∃ e, r = .error e ∧ Refused env e ∧ Unfinished env v t hdr' pos' newext := by
  have hall := allFull hr.focused hlt
  have hfull : (leafNode s hdr).entriesCount = (leafNode s hdr).maxEntriesCount :=
    hall _ (Nat.zero_le _) le_rfl
  have hd := hv.deeper hr hs hsize hfull
  have hfresh : ∀ x ∈ treeExts v, x.firstBlock ≠ newext.firstBlock := by
    rw [hv.exts]
    exact hr.fresh
  have hr' := ready_of_reached hv.reached hv.shaped hfresh
  have hs' := sought_of_reached hv.reached hv.shaped hfresh
  have hcrowded := @Deeper.crowded s v hdr hdr' pos pos' nb newext hd hv.depth hall hlt
    hv.reached.path.header
  have hno' := hd.noMerge hv.depth hr.focused hno
  by_cases h0 : 0 < extDepth s
  · rw [runIf_pos h0] at h
    obtain ⟨k, hk⟩ : ∃ k, extDepth s = k + 1 := ⟨extDepth s - 1, by omega⟩
    have hroom := hd.room
    rw [← hd.moved] at hroom
    rw [hk] at h
    rcases @roomBelow_spec env v t hdr' pos' _ n newext noCombine 1 k hr' hsize hal hfits
      (by rw [hv.depth]; omega) (hd.fullFrom hv.depth hall) hroom
      (hd.splitFrom hv.depth hall hv.reached.path.header) hno' r h with
      ⟨rfl, E', hland, hset⟩ | ⟨e, rfl, hre, hun⟩
    · exact Or.inl ⟨rfl, E', hv.landed hcrowded hs' hland, hv.settled hset⟩
    · exact Or.inr ⟨e, rfl, hre, hun⟩
  · rw [runIf_neg h0, pure_bind_apply] at h
    have hroom := hd.room
    have hleaf : leafNode v hdr' = v.nodes (.block nb) := by
      rw [leafNode, hv.depth, show extDepth s = 0 by omega, hd.moved]
    rw [← hleaf] at hroom
    obtain ⟨w, hrun, hset⟩ := @settled_leaf env v hdr' pos' _ n newext noCombine hsize hfits
      hr'.focused hr'.head hroom
      (fun hne => hfresh _ (hr'.focused.slot_mem (hr'.focused.pos_lt hne))) hno'
    rw [hrun] at h
    obtain ⟨rfl, rfl⟩ := Prod.mk.inj h
    have hland := landed_place hr' fun hc => by
      have := hc.full
      omega
    exact Or.inl ⟨rfl, _, hv.landed hcrowded hs' hland, hv.settled hset⟩

/-- **What the rounds of an insertion come to.** -/
theorem insertRounds_spec (hr : Ready env s hdr pos b newext) (hs : Sought s hdr pos newext)
    (hsize : SizeOk env) (hal : AllocOk env) (hfits : Fits newext) (hdeep : DepthFits s)
    (hno : NoMerge (leafNode s hdr) (pos (extDepth s)) newext noCombine)
    {r : Except Errno Unit} (h : insertRounds env newext noCombine (n + 2) s = (r, t)) :
    (r = .ok () ∧ ∃ E', Landed s hdr pos newext E' ∧ Settled env s t newext E') ∨
      ∃ e, r = .error e ∧ NoRoom env s t hdr pos newext e := by
  have hf := hr.focused
  have hne : (leafNode s hdr).entriesCount ≠ 0 →
      ((leafNode s hdr).slots (pos (extDepth s))).firstBlock ≠ newext.firstBlock := fun h0 =>
    hr.fresh _ (hf.slot_mem (hf.pos_lt h0))
  by_cases hroom : (leafNode s hdr).entriesCount < (leafNode s hdr).maxEntriesCount
  · obtain ⟨w, hrun, hset⟩ := @settled_leaf env s hdr pos b (n + 1) newext noCombine hsize hfits hf
      hr.head hroom hne hno
    rw [hrun] at h
    obtain ⟨rfl, rfl⟩ := Prod.mk.inj h
    exact Or.inl ⟨rfl, _, landed_place hr fun hc => by
      have := hc.full
      omega, hset⟩
  have hfull : (leafNode s hdr).entriesCount = (leafNode s hdr).maxEntriesCount :=
    le_antisymm hf.leaf.entries_le (not_lt.mp hroom)
  have hpos := fullLevels_pos hf hfull
  rw [insertRounds_full hf hfull hne hno] at h
  by_cases hlt : extDepth s < fullLevels s (extDepth s)
  · have hmake : (makeRoom env newext >>= fun _ => insertRounds env newext noCombine (n + 1)) s =
        ((do ext4ExtGrowIndepth env; relookup env newext : Ext Unit) >>= fun _ =>
          (runIf (0 < extDepth s) (roomBelow env newext 2 (extDepth s)) >>= fun _ =>
            insertRounds env newext noCombine (n + 1))) s := by
      rw [← bind_assoc_apply, bind_apply, bind_apply, makeRoom_grow hlt]
    rw [hmake] at h
    rcases hg : (do ext4ExtGrowIndepth env; relookup env newext : Ext Unit) s with ⟨r', v⟩
    rcases regrow_spec hr hsize hal hfull (hdeep hlt) hg with
      ⟨rfl, nb, hdr', pos', hv⟩ | ⟨e, rfl, hre, hgrow, hnot⟩ |
        ⟨rfl, u, nb, x, hgrow, hfind, hgrown, hcore⟩
    · rw [bind_of_ok hg] at h
      rcases rounds_grown hr hs hsize hal hfits hlt hno hv h with hok | ⟨e, rfl, hre, hun⟩
      · exact Or.inl hok
      · exact Or.inr ⟨e, rfl, .grownSplit hre hlt hg hv (hv.deeper hr hs hsize hfull) hun⟩
    · rw [bind_of_error hg] at h
      obtain ⟨rfl, rfl⟩ := Prod.mk.inj h
      exact Or.inr ⟨e, rfl, .notGrown hre hlt hgrow (same_of_notTaken hnot)⟩
    · rw [bind_of_error hg] at h
      obtain ⟨rfl, rfl⟩ := Prod.mk.inj h
      exact Or.inr ⟨_, rfl, .notFound hlt hgrow hfind hgrown hcore⟩
  · have hmake : (makeRoom env newext >>= fun _ => insertRounds env newext noCombine (n + 1)) s =
        (do
          roomBelow env newext (extDepth s + 1 - fullLevels s (extDepth s))
            (fullLevels s (extDepth s))
          insertRounds env newext noCombine (n + 1) : Ext Unit) s := by
      rw [bind_apply, bind_apply, makeRoom_below (by omega) hpos]
    rw [hmake] at h
    obtain ⟨hbelow, hroom'⟩ := fullBelow hf (by omega)
    obtain ⟨k, hk⟩ : ∃ k, fullLevels s (extDepth s) = k + 1 :=
      ⟨fullLevels s (extDepth s) - 1, by omega⟩
    obtain ⟨m, hm⟩ : ∃ m, extDepth s = m + (k + 1) := ⟨extDepth s - (k + 1), by omega⟩
    have hlo : extDepth s + 1 - (k + 1) = m + 1 := by omega
    have hup : extDepth s - (k + 1) = m := by omega
    have hfrom : splitFrom s = m + 1 := by
      unfold splitFrom
      rw [if_neg hlt, hk, hlo]
    rw [hk, hlo] at h hbelow
    rw [hk, hup] at hroom'
    rcases roomBelow_spec hr hsize hal hfits hm hbelow hroom' hfrom hno h with
      hok | ⟨e, rfl, hre, hun⟩
    · exact Or.inl hok
    · exact Or.inr ⟨e, rfl, .split hre (by omega) hun⟩

end

end Ext4Fsd.Extent.Rounds
