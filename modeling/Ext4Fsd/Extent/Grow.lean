import Ext4Fsd.Extent.MakeRoom

/-! # A tree that grows

When every level of the path is full, `ext4_ext_grow_indepth` moves the root into a block of its own
and puts an index with one entry in its place. The tree holds what it held (`grown_shaped`), and a
lookup leads down the old way, one level deeper (`grown_way`). -/

namespace Ext4Fsd.Extent.Grow

open Ext4Fsd.Lib.Fallible Ext4Fsd.Lib.Intervals Ext4Fsd.Extent.Layout Ext4Fsd.Extent.Store
open Ext4Fsd.Extent.Search Ext4Fsd.Extent.Insert Ext4Fsd.Extent.Tree Ext4Fsd.Extent.Way
open Ext4Fsd.Extent.Found Ext4Fsd.Extent.Lookup Ext4Fsd.Extent.Keys Ext4Fsd.Extent.Focus
open Ext4Fsd.Extent.Split Ext4Fsd.Extent.Prepared Ext4Fsd.Extent.MakeRoom

/-- The copy of the root. -/
def movedRoot (env : Env) (old root : Node) : Node :=
  { root with
    slots := memmove old.slots 0 root.slots 0 ext4ExtSpaceRoot
    maxEntriesCount := if root.depth ≠ 0 then ext4ExtSpaceBlockIdx env else ext4ExtSpaceBlock env
    magic := ext4ExtentMagic }

/-- The new root. -/
def newRoot (root : Node) (newblock : ℕ) : Node :=
  { root with
    entriesCount := 1
    slots := Function.update root.slots 0 (ext4IdxStorePblock (root.slots 0) newblock)
    maxEntriesCount := if root.depth = 0 then ext4ExtSpaceRootIdx else root.maxEntriesCount
    depth := half (root.depth + 1) }

/-- Where the block for the root is asked for. -/
def growGoal (env : Env) (s : St) : ℤ :=
  if (s.nodes .inode).depth ≠ 0 then (ext4IdxPblock ((s.nodes .inode).slots 0) : ℤ)
  else env.goalBlock

/-- **The root has moved to the block `newblock`**, which the allocator and the block get have
granted. -/
structure Grown (env : Env) (s t : St) (newblock : ℕ) : Prop where
  granted : env.alloc s.calls s.used (growGoal env s) = .ok newblock
  gotten : env.blockGet (s.calls + 1) newblock = none
  calls : t.calls = s.calls + 2
  nodes : t.nodes = Function.update (Function.update s.nodes (.block newblock)
    (movedRoot env (s.nodes (.block newblock)) (s.nodes .inode))) .inode
      (newRoot (s.nodes .inode) newblock)
  path : t.path = s.path
  pathLive : t.pathLive = s.pathLive
  freed : t.freed = s.freed
  used : t.used = Function.update s.used newblock true
  free : s.used newblock = false
  ne_zero : newblock ≠ 0
  lt : newblock < 2 ^ 48

section
variable {env : Env} {s t : St} {hdr hdr' : ℕ → Hdr} {pos pos' : ℕ → ℕ} {b nb k : ℕ}
  {newext : Slot}

/-- **What growing the tree comes to.** -/
theorem grow_spec (hal : AllocOk env) {r : Except Errno Unit}
    (h : ext4ExtGrowIndepth env s = (r, t)) :
    (r = .ok () ∧ ∃ nb, Grown env s t nb) ∨
      ∃ e, r = .error e ∧ Refused env e ∧ NotTaken s t := by
  unfold ext4ExtGrowIndepth ext4NewMetaBlocks at h
  rw [get_bind] at h
  dsimp only at h
  rw [bind_assoc_apply] at h
  rw [show (if (s.nodes .inode).depth ≠ 0 then (ext4IdxPblock ((s.nodes .inode).slots 0) : ℤ)
    else env.goalBlock) = growGoal env s from rfl] at h
  rcases ha : ext4BallocAllocBlock env (growGoal env s) s with ⟨e | nb, u⟩
  · rw [bind_of_error ha] at h
    obtain ⟨rfl, rfl⟩ := Prod.mk.inj h
    refine Or.inr ⟨e, rfl, ?_, newMetaBlock_spec hal ha⟩
    unfold ext4BallocAllocBlock at ha
    rcases halloc : env.alloc s.calls s.used (growGoal env s) with x | b
    · rw [halloc] at ha
      obtain rfl := Except.error.inj (Prod.mk.inj ha).1
      exact Or.inr (Or.inl ⟨_, _, _, halloc⟩)
    · rw [halloc] at ha
      simp at ha
  · rw [bind_of_ok ha, pure_bind_apply] at h
    have htaken := newMetaBlock_spec hal ha
    obtain ⟨h1, h2, h3, h4⟩ := htaken
    have hgranted : env.alloc s.calls s.used (growGoal env s) = .ok nb ∧
        u.calls = s.calls + 1 := by
      unfold ext4BallocAllocBlock at ha
      rcases halloc : env.alloc s.calls s.used (growGoal env s) with x | b
      · rw [halloc] at ha
        simp at ha
      · rw [halloc] at ha
        obtain ⟨hb, rfl⟩ := Prod.mk.inj ha
        exact ⟨congrArg _ (Except.ok.inj hb), rfl⟩
    dsimp only at h
    rw [bind_of_ok (attempt_apply _ u)] at h
    unfold ext4TransBlockGet at h
    rcases hg : env.blockGet u.calls nb with _ | e
    · rw [hg] at h
      obtain ⟨rfl, rfl⟩ := Prod.mk.inj h
      rw [hgranted.2] at hg
      rw [h4]
      exact Or.inl ⟨rfl, nb, hgranted.1, hg, congrArg (· + 1) hgranted.2, rfl, rfl, rfl, rfl, rfl,
        h1, h2, h3⟩
    · rw [hg] at h
      obtain ⟨rfl, rfl⟩ := Prod.mk.inj h
      refine Or.inr ⟨e, rfl, Or.inr (Or.inr ⟨_, _, hg⟩), ?_, Or.inr ⟨nb, h1, ?_⟩⟩
      · have := free_taken h1
        rw [h4]
        simp only [this]
      · rw [h4]

/-- The tree grows when the allocator and the block get grant a block. -/
theorem grow_granted (ha : env.alloc s.calls s.used (growGoal env s) = .ok nb)
    (hg : env.blockGet (s.calls + 1) nb = none) :
    ∃ t, ext4ExtGrowIndepth env s = (.ok (), t) := by
  have halloc : ext4BallocAllocBlock env (growGoal env s) s =
      (.ok nb, { s with calls := s.calls + 1, used := Function.update s.used nb true }) := by
    unfold ext4BallocAllocBlock
    rw [ha]
  unfold ext4ExtGrowIndepth ext4NewMetaBlocks
  rw [get_bind]
  dsimp only
  rw [bind_assoc_apply, show (if (s.nodes .inode).depth ≠ 0 then
    (ext4IdxPblock ((s.nodes .inode).slots 0) : ℤ) else env.goalBlock) = growGoal env s from rfl,
    bind_of_ok halloc, pure_bind_apply, bind_of_ok (attempt_apply _ _)]
  unfold ext4TransBlockGet
  rw [hg]
  exact ⟨_, rfl⟩

/-! ### The grown tree -/

/-- A tree whose root was copied to another block. -/
theorem exts_moved {nodes nodes' : Nodes} {h h' : Hdr}
    (hent : (nodes' h').entries = (nodes h).entries)
    (hsame : ∀ r ∈ (refs nodes k h).tail, nodes' r = nodes r) :
    exts nodes' k h' = exts nodes k h ∧ refs nodes' k h' = h' :: (refs nodes k h).tail := by
  cases k with
  | zero => exact ⟨hent, rfl⟩
  | succ k =>
    have hbelow : ∀ r ∈ refsOf nodes k (nodes h).entries, nodes' r = nodes r := hsame
    rw [exts_succ, exts_succ, hent, refs_succ, hent]
    exact ⟨extsOf_congr hbelow, congrArg _ (refsOf_congr hbelow)⟩

theorem sub_moved {nodes nodes' : Nodes} {h h' : Hdr} (hs : Sub env nodes k h)
    (hh : HeaderOk env nodes' k h') (hent : (nodes' h').entries = (nodes h).entries)
    (hsame : ∀ r ∈ (refs nodes k h).tail, nodes' r = nodes r) : Sub env nodes' k h' := by
  cases k with
  | zero => exact ⟨hh, by rw [hent]; exact hs.2⟩
  | succ k =>
    obtain ⟨-, h1, h2⟩ := sub_succ.mp hs
    refine sub_succ.mpr ⟨hh, by rwa [hent], ?_⟩
    rw [hent]
    exact forest_congr hsame h2

theorem refs_cons (nodes : Nodes) (k : ℕ) (h : Hdr) :
    refs nodes k h = h :: (refs nodes k h).tail := by
  cases k <;> rfl

/-- A subtree starts with the first block its node starts with. -/
theorem sub_first {nodes : Nodes} {h : Hdr} (hs : Sub env nodes k h) :
    (exts nodes k h).head?.map Slot.firstBlock = some ((nodes h).slots 0).firstBlock := by
  have hhead := head_entries hs.entriesCount_pos
  cases k with
  | zero =>
    rw [exts, hhead]
    rfl
  | succ k =>
    obtain ⟨-, -, hf⟩ := sub_succ.mp hs
    rcases he : (nodes h).entries with _ | ⟨ix, l⟩
    · rw [he] at hhead
      simp at hhead
    · rw [he, List.head?_cons, Option.some.injEq] at hhead
      obtain ⟨hsub, hkey⟩ := hf ix (by rw [he]; exact List.mem_cons_self)
      rcases hx : exts nodes k (child ix) with _ | ⟨x, xs⟩
      · exact absurd hx hsub.exts_ne_nil
      · unfold KeyOk at hkey
        rw [hx] at hkey
        rw [exts_succ, he, extsOf_cons, hx, ← hhead]
        exact hkey

/-- What is at the nodes after the growth. -/
theorem Grown.at (hg : Grown env s t nb) (hnd : (treeRefs s).Nodup)
    (hused : ∀ b, Hdr.block b ∈ treeRefs s → s.used b = true ∧ b ≠ 0) :
    t.nodes (.block nb) = movedRoot env (s.nodes (.block nb)) (s.nodes .inode) ∧
      t.nodes .inode = newRoot (s.nodes .inode) nb ∧
      ∀ r ∈ (treeRefs s).tail, t.nodes r = s.nodes r := by
  have hroot := refs_cons s.nodes (extDepth s) .inode
  have hnd' : Hdr.inode ∉ (treeRefs s).tail := by
    unfold treeRefs at hnd ⊢
    rw [hroot, List.nodup_cons] at hnd
    exact hnd.1
  rw [hg.nodes]
  refine ⟨by simp, by simp, fun r hr => ?_⟩
  have h1 : r ≠ .inode := fun h => hnd' (h ▸ hr)
  have h2 : r ≠ .block nb := fun h => by
    have := (hused nb (h ▸ List.mem_of_mem_tail hr)).1
    rw [hg.free] at this
    simp at this
  rw [Function.update_of_ne h1, Function.update_of_ne h2]

theorem movedRoot_slots {old root : Node} {j : ℕ} (hle : root.entriesCount ≤ 4)
    (hj : j < root.entriesCount) : (movedRoot env old root).slots j = root.slots j := by
  refine (memmove_in (Nat.zero_le j) ?_).trans (by simp)
  show j < 0 + 4
  omega

/-- **The grown tree holds what the tree held.** -/
theorem grown_shaped (hg : Grown env s t nb) (hsize : SizeOk env) (hsh : Shaped env s)
    (hsub : Sub env s.nodes (extDepth s) .inode) (hdeep : extDepth s + 1 < 2 ^ 16) :
    Shaped env t ∧ Sub env t.nodes (extDepth s + 1) .inode ∧ extDepth t = extDepth s + 1 ∧
      treeExts t = treeExts s ∧
      (treeRefs t).Perm (treeRefs s ++ [.block nb]) := by
  obtain ⟨hat, hroot, hsame⟩ := hg.at hsh.nodup hsh.used
  have hh := hsub.header
  have hdepth : (s.nodes .inode).depth = extDepth s := hh.depth
  have hpos := hsub.entriesCount_pos
  have hle : (s.nodes .inode).entriesCount ≤ 4 := hh.entries_le.trans hh.max_le
  have hcap : 84 ≤ ext4ExtSpaceBlock env := by
    have := hsize.1
    unfold ext4ExtSpaceBlock
    omega
  have hD : extDepth t = extDepth s + 1 := by
    rw [extDepth, hroot]
    exact half_of_eq (n := extDepth s + 1) rfl hdeep
  have hmoved : (t.nodes (.block nb)).entries = (s.nodes .inode).entries := by
    rw [hat]
    exact entries_congr rfl fun j hj => movedRoot_slots hle hj
  have hmax : (t.nodes (.block nb)).maxEntriesCount = ext4ExtSpaceBlock env := by
    rw [hat]
    unfold movedRoot
    dsimp only
    split_ifs <;> rfl
  have hhm : HeaderOk env t.nodes (extDepth s) (.block nb) := by
    refine ⟨by rw [hat]; rfl, by rw [hat]; exact hdepth, by omega, hmax.le, ?_⟩
    rw [← length_entries, hmoved, length_entries, hmax]
    omega
  have hsubm : Sub env t.nodes (extDepth s) (.block nb) := sub_moved hsub hhm hmoved hsame
  obtain ⟨hexts, hrefs⟩ := exts_moved (k := extDepth s) hmoved hsame
  have hroots : (t.nodes .inode).entries = [ext4IdxStorePblock ((s.nodes .inode).slots 0) nb] := by
    rw [hroot]
    simp [Node.entries, newRoot]
  have hchild : child (ext4IdxStorePblock ((s.nodes .inode).slots 0) nb) = .block nb :=
    congrArg Hdr.block (idxPblock_store hg.lt)
  have hex : treeExts t = treeExts s := by
    rw [treeExts, hD, exts_succ, hroots, extsOf_cons, hchild, hexts]
    simp [treeExts]
  have hre : (treeRefs t).Perm (treeRefs s ++ [.block nb]) := by
    rw [treeRefs, hD, refs_succ, hroots, refsOf_cons, hchild, hrefs, refsOf_nil, List.append_nil,
      treeRefs, refs_cons s.nodes, List.cons_append]
    exact List.Perm.cons _ (List.perm_append_singleton _ _).symm
  have hrootHeader : HeaderOk env t.nodes (extDepth s + 1) .inode := by
    have h1 := hh.max_pos
    have h2 := hh.max_le
    refine ⟨by rw [hroot]; exact hh.magic, hD, ?_, ?_, ?_⟩ <;> rw [hroot] <;>
      simp only [newRoot, ext4ExtSpaceRootIdx, capOf, ext4ExtSpaceRoot] at h2 ⊢ <;> split_ifs <;>
      omega
  have hkey : KeyOk t.nodes (extDepth s) (ext4IdxStorePblock ((s.nodes .inode).slots 0) nb) := by
    unfold KeyOk
    rw [hchild, hexts, firstBlock_idxStore]
    exact sub_first hsub
  have hsubt : Sub env t.nodes (extDepth s + 1) .inode := by
    refine sub_succ.mpr ⟨hrootHeader, by rw [hroots]; simp, ?_⟩
    rw [hroots]
    exact Forest.cons.mpr ⟨⟨by rw [hchild]; exact hsubm, hkey⟩, Forest.nil⟩
  have hnb : Hdr.block nb ∉ treeRefs s := fun hmem => by
    have := (hsh.used nb hmem).1
    rw [hg.free] at this
    simp at this
  refine ⟨⟨by rw [hD]; exact Or.inl hsubt, by rw [hex]; exact hsh.inc, ?_, fun c hc => ?_⟩,
    hsubt, hD, hex, hre⟩
  · refine hre.nodup_iff.mpr (List.nodup_append.mpr ⟨hsh.nodup, by simp, fun a ha c hc heq => ?_⟩)
    rw [List.mem_singleton] at hc
    exact hnb (hc ▸ heq ▸ ha)
  · rw [hg.used]
    rcases List.mem_append.mp (hre.mem_iff.mp hc) with hc | hc
    · have hne : c ≠ nb := fun h => hnb (h ▸ hc)
      rw [Function.update_of_ne hne]
      exact hsh.used c hc
    · obtain rfl : c = nb := by simpa using hc
      exact ⟨by simp, hg.ne_zero⟩

/-! ### The way after a lookup -/

theorem closest_unique {eh eh' : Node} {p q : ℕ} (hc : eh'.entriesCount = eh.entriesCount)
    (hs : ∀ j, j < eh.entriesCount → eh'.slots j = eh.slots j) (hp : Closest eh b p)
    (hq : Closest eh' b q) : p = q := by
  have h1 := hp.lt
  have h2 := hq.lt
  rcases Nat.lt_trichotomy p q with h | h | h
  · have h3 := hp.after q h (by omega)
    rcases hq.le with h4 | h4
    · omega
    · rw [hs q (by omega)] at h4
      omega
  · exact h
  · have h3 := hq.after p h (by omega)
    rw [hs p h1] at h3
    rcases hp.le with h4 | h4 <;> omega

/-- The nodes of the path below the root stay as they are. -/
theorem Grown.below (hg : Grown env s t nb) (hf : Focused env s hdr pos b) (hsh : Shaped env s)
    {i : ℕ} (hi : 0 < i) (hi' : i ≤ extDepth s) : t.nodes (hdr i) = s.nodes (hdr i) := by
  refine (hg.at hsh.nodup hsh.used).2.2 _ ?_
  have hmem := hf.refs.symm.mem_iff.mp (@hdr_mem_wayRefs s hdr pos i hi')
  rw [treeRefs, refs_cons, List.mem_cons] at hmem
  rcases hmem with h | h
  · have := hf.distinct i 0 (by omega) (by omega) (h.trans hf.path.root.symm)
    omega
  · exact h

/-- A way from the new root goes to the block that holds the old root. -/
theorem Grown.first (hg : Grown env s t nb) (hsh : Shaped env s) (h0 : hdr' 0 = .inode)
    (hon : OnPath t.nodes hdr' pos' (extDepth s + 1) 0) : hdr' 1 = .block nb := by
  obtain ⟨-, hroot, -⟩ := hg.at hsh.nodup hsh.used
  obtain ⟨hp0, hc0⟩ := hon.level le_rfl (by omega)
  rw [h0, hroot] at hp0
  have hpos0 : pos' 0 = 0 := by
    have : pos' 0 < 1 := hp0
    omega
  have hslot : (newRoot (s.nodes .inode) nb).slots 0 =
      ext4IdxStorePblock ((s.nodes .inode).slots 0) nb := by simp [newRoot]
  rw [hc0, cur, h0, hroot, hpos0, hslot]
  exact congrArg Hdr.block (idxPblock_store hg.lt)

/-- **A way of closest entries in the grown tree goes down the old one.** -/
theorem grown_way (hg : Grown env s t nb) (hr : Ready env s hdr pos b newext)
    (hclosest : ∀ i, i < extDepth s → Closest (s.nodes (hdr i)) newext.firstBlock (pos i))
    (hsh : Shaped env s) (h0 : hdr' 0 = .inode)
    (hon : OnPath t.nodes hdr' pos' (extDepth s + 1) 0)
    (hclosest' : ∀ i, i < extDepth s + 1 →
      Closest (t.nodes (hdr' i)) newext.firstBlock (pos' i)) :
    hdr' 1 = .block nb ∧ (∀ i, 0 < i → i ≤ extDepth s → hdr' (i + 1) = hdr i) ∧
      ∀ i, i < extDepth s → pos' (i + 1) = pos i := by
  have hf := hr.focused
  have h1 := hg.first hsh h0 hon
  obtain ⟨hat, -, -⟩ := hg.at hsh.nodup hsh.used
  have hmoved : ∀ j, j < (s.nodes .inode).entriesCount →
      (movedRoot env (s.nodes (.block nb)) (s.nodes .inode)).slots j =
        (s.nodes .inode).slots j := fun j hj => by
    have hh := level_header hf (show 0 ≤ extDepth s by omega)
    rw [hf.path.root] at hh
    exact movedRoot_slots (hh.entries_le.trans hh.max_le) hj
  -- the nodes of the two ways have the same entries, level by level
  have hlevel : ∀ i, i ≤ extDepth s → hdr' (i + 1) = (if i = 0 then .block nb else hdr i) ∧
      (i < extDepth s → pos' (i + 1) = pos i) := by
    intro i
    induction i with
    | zero =>
      intro _
      refine ⟨by rw [if_pos rfl]; exact h1, fun hi => ?_⟩
      have hcl := hclosest' 1 (by omega)
      rw [h1, hat] at hcl
      have hcl0 := hclosest 0 hi
      rw [hf.path.root] at hcl0
      refine (closest_unique ?_ hmoved hcl0 hcl).symm
      rfl
    | succ i ih =>
      intro hi
      obtain ⟨h2, h3⟩ := ih (by omega)
      have h4 := h3 (by omega)
      have hnext : hdr' (i + 1 + 1) = hdr (i + 1) := by
        rw [(hon.level (Nat.zero_le (i + 1)) (by omega)).2,
          (hf.spine.onPath.level (Nat.zero_le i) (by omega)).2, cur, cur, h2, h4]
        by_cases hi0 : i = 0
        · subst hi0
          have hlt := (spine_level hf.spine (Nat.zero_le 0) (by omega)).2
          rw [hf.path.root] at hlt
          rw [if_pos rfl, hat, hmoved _ hlt, hf.path.root]
        · rw [if_neg hi0, hg.below hf hsh (by omega) (by omega)]
      refine ⟨by rw [if_neg (by omega)]; exact hnext, fun hi' => ?_⟩
      have hcl := hclosest' (i + 1 + 1) (by omega)
      rw [hnext, hg.below hf hsh (by omega) (by omega)] at hcl
      exact (closest_unique rfl (fun _ _ => rfl) (hclosest (i + 1) hi') hcl).symm
  refine ⟨h1, fun i hi hi' => ?_, fun i hi => (hlevel i (by omega)).2 hi⟩
  rw [(hlevel i hi').1, if_neg (by omega)]

end

end Ext4Fsd.Extent.Grow
