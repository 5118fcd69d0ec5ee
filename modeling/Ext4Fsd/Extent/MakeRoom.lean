import Ext4Fsd.Extent.Prepared

/-! # Room for an extent by splitting

A full leaf and the full levels above it are split below a level `m` with room. The path then leads
to a leaf with room (`Roomy`): the old leaf, cut after its current entry, or a new leaf without
entries after or before it (`HalfTaken`). -/

namespace Ext4Fsd.Extent.MakeRoom

open Ext4Fsd.Lib.Fallible Ext4Fsd.Lib.Intervals Ext4Fsd.Extent.Layout Ext4Fsd.Extent.Store
open Ext4Fsd.Extent.Search Ext4Fsd.Extent.Insert Ext4Fsd.Extent.Tree Ext4Fsd.Extent.Way
open Ext4Fsd.Extent.Lookup Ext4Fsd.Extent.Keys Ext4Fsd.Extent.Focus Ext4Fsd.Extent.InsertLeaf
open Ext4Fsd.Extent.Split Ext4Fsd.Extent.Halves Ext4Fsd.Extent.Rejoin Ext4Fsd.Extent.SplitTree
open Ext4Fsd.Extent.SplitRun Ext4Fsd.Extent.Prepared

/-- **The path of `t` leads to a leaf with room, with the entries `l`.** -/
structure Roomy (env : Env) (t : St) (hdr : ℕ → Hdr) (pos : ℕ → ℕ) (b : ℕ) (L l R : List Slot) :
    Prop where
  focused : Focused env t hdr pos b
  head : (leafNode t hdr).entriesCount ≠ 0 → ((leafNode t hdr).slots 0).firstBlock = b
  room : (leafNode t hdr).entriesCount < (leafNode t hdr).maxEntriesCount
  left : leftExts t hdr pos = L
  entries : (leafNode t hdr).entries = l
  right : rightExts t hdr pos = R

/-- How the extents around the leaf of `s` lie around a leaf with room for `newext`, where `R₁` are
those right of the leaf below the level that took the new entry. -/
def HalfTaken (s : St) (hdr : ℕ → Hdr) (pos : ℕ → ℕ) (newext : Slot)
    (R₁ L l R : List Slot) : Prop :=
  (pos (extDepth s) + 1 < (leafNode s hdr).entriesCount ∧ L = leftExts s hdr pos ∧
      l = (leafNode s hdr).entries.take (pos (extDepth s) + 1) ∧
      R = (leafNode s hdr).entries.drop (pos (extDepth s) + 1) ++ rightExts s hdr pos) ∨
    (pos (extDepth s) + 1 = (leafNode s hdr).entriesCount ∧
      ((leafNode s hdr).slots 0).firstBlock < newext.firstBlock ∧
      L = leftExts s hdr pos ++ (leafNode s hdr).entries ∧ l = [] ∧ R = rightExts s hdr pos) ∨
    (pos (extDepth s) + 1 = (leafNode s hdr).entriesCount ∧
      newext.firstBlock < ((leafNode s hdr).slots 0).firstBlock ∧ leftExts s hdr pos = [] ∧
      L = [] ∧ l = [] ∧ ∃ R₂, rightExts s hdr pos = R₁ ++ R₂ ∧
        R = R₁ ++ (leafNode s hdr).entries ++ R₂)

/-- The tree has gained nodes in blocks that were free, and nothing was given back. -/
structure Gained (s t : St) (refs refs' news : List Hdr) : Prop where
  perm : refs'.Perm (refs ++ news)
  free : ∀ h ∈ news, ∃ c, h = .block c ∧ s.used c = false ∧ c ≠ 0
  used : ∀ c, t.used c = true ↔ s.used c = true ∨ Hdr.block c ∈ news
  freed : t.freed = s.freed

/-- **The split has made room.** -/
def MadeRoom (env : Env) (s t : St) (hdr : ℕ → Hdr) (pos : ℕ → ℕ) (newext : Slot)
    (R₁ : List Slot) : Prop :=
  ∃ hdr' pos' b' L l R news, Roomy env t hdr' pos' b' L l R ∧
    HalfTaken s hdr pos newext R₁ L l R ∧
    Gained s t (wayRefs s hdr pos) (wayRefs t hdr' pos') news ∧ extDepth t = extDepth s ∧
    (l ≠ [] → pos' (extDepth s) = pos (extDepth s))

/-- **The split has failed at level `k - 1`.** The blocks of the new nodes were given back. -/
def SplitFailed (env : Env) (s t : St) (hdr : ℕ → Hdr) (pos : ℕ → ℕ) (key lo k : ℕ) : Prop :=
  ∃ u v new, SplitDone env s u hdr pos (extDepth s) key lo k (extDepth s) new ∧ NotTaken u v ∧
    splitCleanup (extDepth s - lo + 1) v = (.ok (), t)

/-- The split with what the caller does with the new path entries. -/
def splitAndFollow (env : Env) (newext : Slot) (lo level : ℕ) : Ext Unit := do
  let insRightLeaf ← ext4ExtSplitNode env lo newext
  afterSplit env insRightLeaf lo level

section
variable {env : Env} {s t u : St} {hdr : ℕ → Hdr} {pos : ℕ → ℕ} {b key m n k : ℕ} {newext : Slot}
  {new : ℕ → ℕ}

/-- A state that differs in requests and the scratch array only. -/
structure SameTree (s t : St) : Prop where
  nodes : t.nodes = s.nodes
  path : t.path = s.path
  pathLive : t.pathLive = s.pathLive
  used : t.used = s.used

theorem focused_of_same (hf : Focused env s hdr pos b) (h : SameTree s t) :
    Focused env t hdr pos b := by
  have hD : extDepth t = extDepth s := by unfold extDepth; rw [h.nodes]
  have hp : PathTo t hdr pos (extDepth s) := by
    obtain ⟨h1, h2, h3, h4, h5, h6, h7, h8, h9⟩ := hf.path
    refine ⟨by rwa [h.pathLive], ?_, ?_, ?_, h5, ?_, ?_, ?_, ?_⟩ <;> rw [h.path]
    · exact h2
    · exact h3
    · exact h4
    · exact h6
    · exact h7
    · exact h8
    · rw [h.nodes]
      exact h9
  have hr : wayRefs t hdr pos = wayRefs s hdr pos := by
    unfold wayRefs
    rw [hD, h.nodes]
  have hl : leafNode t hdr = leafNode s hdr := by rw [leafNode, hD, h.nodes]
  refine ⟨by rwa [hD], ?_, ?_, ?_, ?_, ?_, by rw [hr]; exact hf.nodup, by
    rw [hr, h.used]; exact hf.used⟩
  · rw [hD, h.nodes]
    exact hf.spine
  · rw [hD, h.nodes]
    exact hf.leaf
  · rw [hl, hD]
    exact hf.pos_lt
  · rw [hD, h.nodes]
    exact hf.keysLeft
  · rw [hl, hD, h.nodes]
    exact hf.keysFocus

theorem Gained.trans {v : St} {refs refs' refs'' news news' : List Hdr}
    (h1 : Gained s t refs refs' news)
    (h2 : Gained t v refs' refs'' news') : Gained s v refs refs'' (news ++ news') := by
  refine ⟨h2.perm.trans ?_, fun h hh => ?_, fun c => ?_, h2.freed.trans h1.freed⟩
  · rw [← List.append_assoc]
    exact h1.perm.append_right _
  · rcases List.mem_append.mp hh with hh | hh
    · exact h1.free h hh
    · obtain ⟨c, rfl, h3, h4⟩ := h2.free h hh
      refine ⟨c, rfl, ?_, h4⟩
      by_contra hc
      rw [(h1.used c).mpr (Or.inl (by simpa using hc))] at h3
      simp at h3
  · rw [h2.used, h1.used, List.mem_append]
    tauto

theorem Gained.of_perm {r₁ r₂ r₁' r₂' news : List Hdr} (h : Gained s t r₁ r₂ news)
    (h1 : r₁'.Perm r₁) (h2 : r₂'.Perm r₂) : Gained s t r₁' r₂' news :=
  ⟨h2.trans (h.perm.trans (h1.symm.append_right _)), h.free, h.used, h.freed⟩

/-- **A split put into the level `m` gives a tree in two halves.** -/
theorem splitInto (hr : Ready env s hdr pos b newext) (hsize : SizeOk env)
    (hD : extDepth s = m + (n + 1)) (hfull : FullFrom s hdr (m + 1))
    (hroom : (s.nodes (hdr m)).entriesCount < (s.nodes (hdr m)).maxEntriesCount)
    (hd : SplitDone env s u hdr pos (extDepth s) key (m + 1) (m + 1) (extDepth s) new) {x : ℕ}
    (hx : x ≤ (s.nodes (hdr m)).entriesCount) {nodes' : Nodes} (hnodes : nodes' =
      Function.update u.nodes (hdr m) (indexed (s.nodes (hdr m)) x key (new (m + 1)))) :
    ∃ ix, SplitInto env s.nodes nodes' hdr pos key m n new x ix := by
  have hf := hr.focused
  have hdist := hf.distinct
  have hfreshUsed : ∀ l, m + 1 ≤ l → l ≤ extDepth s → ∀ h ∈ wayRefs s hdr pos, h ≠ .block (new l) :=
    fun l h1 h2 h hh heq => by
      have h3 := (hf.used (new l) (heq ▸ hh)).1
      rw [(hd.fresh l h1 h2).1] at h3
      simp at h3
  have hway : ∀ i, i ≤ extDepth s → ∀ l, m + 1 ≤ l → l ≤ extDepth s → hdr i ≠ .block (new l) :=
    fun i hi l h1 h2 => hfreshUsed l h1 h2 _ (hdr_mem_wayRefs hi)
  have hlevel := level_header hf (show m ≤ extDepth s by omega)
  have hmax := max_lt hsize hlevel
  have hcuts := cuts_of_done hd (by omega)
  have hat := hfull.fullAt hf hsize (show m + 1 ≤ extDepth s by omega) le_rfl
  refine ⟨writeIdx key (new (m + 1)) ((makeGap (s.nodes (hdr m)) x).slots x), ?_⟩
  rw [hD] at hcuts hat hdist hway
  refine ⟨?_, ?_, ?_, hat.lt, hcuts.congr (by omega) ?_ ?_, ?_, ?_, ?_, ?_, rfl, ?_⟩
  · rw [← hD]
    exact hf.spine
  · have := hr.keysHead
    rw [leafNode, hD] at this
    exact this
  · rw [← hD]
    exact hf.leaf
  · intro l h1 h2
    rw [hnodes, Function.update_of_ne (hdist.ne (by omega) (by omega) (by omega))]
  · intro l h1 h2
    rw [hnodes, Function.update_of_ne (hway m (by omega) l h1 h2).symm]
  · intro i hi
    rw [hnodes, Function.update_of_ne (hdist.ne (by omega) (by omega) (by omega))]
    exact hd.other _ fun l h1 h2 => ⟨hdist.ne (by omega) (by omega) (by omega),
      hway i (by omega) l h1 (by omega)⟩
  · intro r hr'
    rw [← hD] at hr'
    rw [hnodes, Function.update_of_ne (hf.sib_ne r hr' m (by omega))]
    refine hd.other _ fun l h1 h2 => ⟨hf.sib_ne r hr' l h2, hfreshUsed l h1 h2 r ?_⟩
    unfold wayRefs
    exact List.mem_append_left _ (List.mem_append_right _ hr')
  · rw [show 0 + n + 1 = extDepth s - m by omega]
    have hh := @indexed_header env key (new (m + 1)) s.nodes _ x (hdr m) hlevel hroom hmax
    refine headerOk_congr ?_ hh
    rw [hnodes, Function.update_self, Function.update_self]
  · rw [hnodes, Function.update_self]
    exact gap_entries hx (by omega)
  · exact congrArg Hdr.block (idxPblock_store (hd.fresh (m + 1) le_rfl (by omega)).2.2)

theorem roomy_of_half {D : ℕ} {L l R : List Slot} {refs : List Hdr}
    (ht : HalfTree env t.nodes hdr pos D L l R refs) (hD : extDepth t = D)
    (hp : PathTo t hdr pos D) (hnd : refs.Nodup)
    (hused : ∀ c, Hdr.block c ∈ refs → t.used c = true ∧ c ≠ 0)
    (hpos : l ≠ [] → pos D < l.length) (hroom : l.length < (t.nodes (hdr D)).maxEntriesCount) :
    ∃ b', Roomy env t hdr pos b' L l R := by
  obtain ⟨h1, h2, h3, h4, h5, h6, h7⟩ := ht
  subst hD
  have hlen : (leafNode t hdr).entriesCount = l.length := by rw [← length_entries, h6]
  obtain ⟨h8, h9⟩ := keysHead_iff.mp h2
  refine ⟨((leafNode t hdr).slots 0).firstBlock, ⟨hp, h1, h5, fun h0 => ?_, h8, fun h0 => ?_,
    h7.nodup_iff.mpr hnd, fun c hc => hused c (h7.mem_iff.mp hc)⟩, fun _ => rfl, ?_, h3, h6, h4⟩
  · rw [hlen] at h0 ⊢
    exact hpos (by simpa using h0)
  · exact h9 _ (by rw [← h6]; exact head_entries (Nat.pos_of_ne_zero h0))
  · rw [hlen]
    exact hroom

/-- The path that leads into the old half. -/
theorem path_left {v : St} {eh : Node} (hp : PathTo s hdr pos (m + (n + 1)))
    (hput : IndexPut u v m (pos m) eh) (hup : u.path = s.path) (hul : u.pathLive = s.pathLive)
    (htp : t.path = v.path) (htl : t.pathLive = v.pathLive)
    (hleaf : (t.nodes (hdr (m + (n + 1)))).entriesCount ≠ 0)
    (hold : (s.nodes (hdr (m + (n + 1)))).entriesCount ≠ 0) :
    PathTo t hdr pos (m + (n + 1)) := by
  have hother : ∀ i, i ≠ m → t.path i = s.path i := fun i hi => by
    rw [htp, hput.other i hi, hup]
  have hheader := hput.header
  have hblock := hput.block
  have hlevel := hput.level
  rw [hup, ← htp] at hheader hblock hlevel
  refine ⟨by rw [htl, hput.pathLive, hul]; exact hp.live, fun i hi => ?_, fun i hi => ?_,
    fun i hi => ?_, hp.root, ?_, fun i h1 h2 => ?_, fun i hi => ?_, ?_⟩
  · by_cases him : i = m
    · rw [him, hheader, hp.header m (by omega)]
    · rw [hother i him, hp.header i hi]
  · by_cases him : i = m
    · rw [him, htp, hput.index]
    · rw [hother i him, hp.index i hi]
  · by_cases him : i = m
    · rw [him, hlevel, hp.depth m (by omega)]
    · rw [hother i him, hp.depth i hi]
  · by_cases him : 0 = m
    · rw [him, hblock, ← him, hp.rootBlock]
    · rw [hother 0 him, hp.rootBlock]
  · by_cases him : i = m
    · rw [him, hblock, hp.held m (by omega) (by omega)]
    · rw [hother i him, hp.held i h1 h2]
  · rw [hother i (by omega), hp.beyond i hi]
  · rw [hother _ (by omega), hp.leaf, if_neg hold, if_neg hleaf]

/-- The path that leads into the new half. -/
theorem path_right {v : St} {eh : Node} {x : ℕ} (hp : PathTo s hdr pos (m + (n + 1)))
    (hd : SplitDone env s u hdr pos (m + (n + 1)) key (m + 1) (m + 1) (m + (n + 1)) new)
    (hput : IndexPut u v m x eh)
    (htp : t.path = fun l => if m + 1 ≤ l ∧ l < m + 1 + (n + 1) then v.npath (l - (m + 1))
      else v.path l) (htl : t.pathLive = v.pathLive)
    (hlast : newExtent s hdr pos (m + (n + 1)) = none)
    (hleaf : (t.nodes (newHdr new (m + (n + 1)))).entriesCount = 0) :
    PathTo t (newWay hdr new m) (newPos pos m x) (m + (n + 1)) := by
  have hup := hd.path
  have hold : ∀ i, i ≤ m → newWay hdr new m i = hdr i := fun i hi => if_pos hi
  have hnew : ∀ i, m < i → newWay hdr new m i = newHdr new i := fun i hi => if_neg (by omega)
  have hother : ∀ i, i < m → t.path i = s.path i := fun i hi => by
    rw [htp]
    dsimp only
    rw [if_neg (by omega), hput.other i (by omega), hup]
  have hmid : t.path m = v.path m := by
    rw [htp]
    exact if_neg (by omega)
  have hbelow : ∀ i, m < i → i ≤ m + (n + 1) → NewEnt (t.path i) (new i) (m + (n + 1) - i)
      (if i < m + (n + 1) then some 0 else none)
      (if i < m + (n + 1) then none else newExtent s hdr pos i) := fun i h1 h2 => by
    rw [htp]
    dsimp only
    rw [if_pos (by omega), hput.npath]
    exact hd.npath i h1 h2
  have hheader := hput.header
  have hblock := hput.block
  have hlevel := hput.level
  rw [hup, ← hmid] at hheader hblock hlevel
  refine ⟨by rw [htl, hput.pathLive, hd.pathLive]; exact hp.live, fun i hi => ?_, fun i hi => ?_,
    fun i hi => ?_, by rw [hold 0 (by omega), hp.root], ?_, fun i h1 h2 => ?_, fun i hi => ?_, ?_⟩
  · rcases Nat.lt_trichotomy i m with him | rfl | him
    · rw [hold i him.le, hother i him, hp.header i hi]
    · rw [hold i le_rfl, hheader, hp.header i hi]
    · rw [hnew i him, (hbelow i him hi).header]
      rfl
  · unfold newPos
    rcases Nat.lt_trichotomy i m with him | rfl | him
    · rw [if_pos him, hother i him, hp.index i hi]
    · rw [if_neg (by omega), if_pos rfl, hmid, hput.index]
    · rw [if_neg (by omega), if_neg (by omega), (hbelow i him (by omega)).index, if_pos hi]
  · rcases Nat.lt_trichotomy i m with him | rfl | him
    · rw [hother i him, hp.depth i hi]
    · rw [hlevel, hp.depth i hi]
    · exact (hbelow i him hi).depth
  · rcases Nat.eq_zero_or_pos m with him | him
    · subst him
      rw [hblock, hp.rootBlock]
    · rw [hother 0 him, hp.rootBlock]
  · rcases Nat.lt_trichotomy i m with him | rfl | him
    · rw [hold i him.le, hother i him, hp.held i h1 h2]
    · rw [hold i le_rfl, hblock, hp.held i h1 h2]
    · rw [hnew i him, (hbelow i him h2).block]
      rfl
  · rw [htp]
    dsimp only
    rw [if_neg (by omega), hput.other i (by omega), hup, hp.beyond i hi]
  · rw [hnew _ (by omega), if_pos hleaf, (hbelow _ (by omega) le_rfl).extent, if_neg (by omega),
      hlast]

/-- The nodes on the way after a split, with the new ones. -/
theorem gained_of_done (hf : Focused env s hdr pos b) (hD : extDepth s = m + (n + 1))
    (hd : SplitDone env s u hdr pos (m + (n + 1)) key (m + 1) (m + 1) (m + (n + 1)) new)
    (htu : t.used = u.used) (htf : t.freed = u.freed) {refs' : List Hdr}
    (hperm : refs'.Perm (nodesRefs s.nodes hdr pos (m + (n + 1)) ++
      hdrs (newHdr new) (n + 1) (m + 1))) :
    Gained s t (wayRefs s hdr pos) refs' (hdrs (newHdr new) (n + 1) (m + 1)) ∧
      (nodesRefs s.nodes hdr pos (m + (n + 1)) ++ hdrs (newHdr new) (n + 1) (m + 1)).Nodup ∧
      ∀ c, Hdr.block c ∈ nodesRefs s.nodes hdr pos (m + (n + 1)) ++
        hdrs (newHdr new) (n + 1) (m + 1) → t.used c = true ∧ c ≠ 0 := by
  have hway : wayRefs s hdr pos = nodesRefs s.nodes hdr pos (m + (n + 1)) := by
    unfold wayRefs nodesRefs
    rw [hD]
  have hmem : ∀ h, h ∈ hdrs (newHdr new) (n + 1) (m + 1) ↔
      ∃ l, m + 1 ≤ l ∧ l ≤ m + (n + 1) ∧ h = .block (new l) := fun h => by
    rw [mem_hdrs]
    constructor
    · rintro ⟨l, h1, h2, rfl⟩
      exact ⟨l, h1, by omega, rfl⟩
    · rintro ⟨l, h1, h2, rfl⟩
      exact ⟨l, h1, by omega, rfl⟩
  have hused : ∀ c, t.used c = true ↔ s.used c = true ∨
      Hdr.block c ∈ hdrs (newHdr new) (n + 1) (m + 1) := fun c => by
    rw [htu, hd.used, hmem]
    refine or_congr_right ⟨?_, ?_⟩
    · rintro ⟨l, h1, h2, rfl⟩
      exact ⟨l, h1, h2, rfl⟩
    · rintro ⟨l, h1, h2, h3⟩
      exact ⟨l, h1, h2, (Hdr.block.inj h3).symm⟩
  have hnodup : (hdrs (newHdr new) (n + 1) (m + 1)).Nodup := by
    have : ∀ k j, m + 1 ≤ j → j + k ≤ m + (n + 1) + 1 → (hdrs (newHdr new) k j).Nodup := by
      intro k
      induction k with
      | zero => exact fun _ _ _ => List.nodup_nil
      | succ k ih =>
        intro j h1 h2
        rw [hdrs_succ, List.nodup_cons]
        refine ⟨fun hc => ?_, ih (j + 1) (by omega) (by omega)⟩
        obtain ⟨l, h3, h4, h5⟩ := mem_hdrs.mp hc
        have := hd.inj l j (by omega) (by omega) (by omega) (by omega) (Hdr.block.inj h5)
        omega
    exact this _ _ le_rfl (by omega)
  refine ⟨⟨by rw [hway]; exact hperm, fun h hh => ?_, hused, htf.trans hd.freed⟩, ?_,
    fun c hc => ?_⟩
  · obtain ⟨l, h1, h2, rfl⟩ := (hmem h).mp hh
    obtain ⟨h3, h4, -⟩ := hd.fresh l h1 h2
    exact ⟨new l, rfl, h3, h4⟩
  · refine List.nodup_append.mpr
      ⟨by rw [← hway]; exact hf.nodup, hnodup, fun h1 hh1 h2 hh2 heq => ?_⟩
    obtain ⟨l, h3, h4, rfl⟩ := (hmem h2).mp hh2
    rw [← hway, heq] at hh1
    have h5 := (hf.used _ hh1).1
    rw [(hd.fresh l h3 h4).1] at h5
    simp at h5
  · rcases List.mem_append.mp hc with hc' | hc'
    · rw [← hway] at hc'
      exact ⟨(hused c).mpr (Or.inl (hf.used c hc').1), (hf.used c hc').2⟩
    · refine ⟨(hused c).mpr (Or.inr hc'), ?_⟩
      obtain ⟨l, h1, h2, h3⟩ := (hmem _).mp hc'
      rw [Hdr.block.inj h3]
      exact (hd.fresh l h1 h2).2.1

/-- **A tree in two halves whose path leads to a leaf with room.** -/
theorem madeRoom_of_half {hdr' : ℕ → Hdr} {pos' : ℕ → ℕ} {L l R R₁ : List Slot}
    (hf : Focused env s hdr pos b) (hD : extDepth s = m + (n + 1))
    (hd : SplitDone env s u hdr pos (m + (n + 1)) key (m + 1) (m + 1) (m + (n + 1)) new)
    (htu : t.used = u.used) (htf : t.freed = u.freed)
    (ht : HalfTree env t.nodes hdr' pos' (m + (n + 1)) L l R
      (nodesRefs s.nodes hdr pos (m + (n + 1)) ++ hdrs (newHdr new) (n + 1) (m + 1)))
    (hp : PathTo t hdr' pos' (m + (n + 1)))
    (hpos : l ≠ [] → pos' (m + (n + 1)) < l.length)
    (hroom : l.length < (t.nodes (hdr' (m + (n + 1)))).maxEntriesCount)
    (htaken : HalfTaken s hdr pos newext R₁ L l R)
    (hkept : l ≠ [] → pos' (extDepth s) = pos (extDepth s)) :
    MadeRoom env s t hdr pos newext R₁ := by
  have hdepth : extDepth t = m + (n + 1) := by
    have h := (spine_level ht.spine (Nat.zero_le 0) (by omega)).1.depth
    rw [hp.root] at h
    unfold extDepth
    omega
  obtain ⟨hg, hnd, hus⟩ := gained_of_done hf hD hd htu htf ht.refs
  obtain ⟨b', hroomy⟩ := roomy_of_half ht hdepth hp hnd hus hpos hroom
  refine ⟨_, _, b', _, _, _, hdrs (newHdr new) (n + 1) (m + 1), hroomy, htaken, ?_,
    hdepth.trans hD.symm, hkept⟩
  unfold wayRefs at hg ⊢
  rw [hdepth]
  exact hg

/-- The path's entry is the last of its leaf: the new leaf is empty, and the extent is to go
there. -/
theorem madeRoom_right {v : St} {ix : Slot} {eh : Node} {x : ℕ}
    (hr : Ready env s hdr pos b newext) (hD : extDepth s = m + (n + 1))
    (hd : SplitDone env s u hdr pos (m + (n + 1)) newext.firstBlock (m + 1) (m + 1) (m + (n + 1))
      new)
    (hx : x = idxPlace (s.nodes (hdr m)) (pos m) newext.firstBlock)
    (hin : SplitInto env s.nodes t.nodes hdr pos newext.firstBlock m n new x ix)
    (hput : IndexPut u v m x eh)
    (htu : t.used = u.used) (htf : t.freed = u.freed) (htl : t.pathLive = v.pathLive)
    (htp : t.path = fun l => if m + 1 ≤ l ∧ l < m + 1 + (n + 1) then v.npath (l - (m + 1))
      else v.path l)
    (hlast : pos (extDepth s) + 1 = (leafNode s hdr).entriesCount)
    (hfull : (leafNode s hdr).entriesCount = (leafNode s hdr).maxEntriesCount)
    (hkeys : (cur s.nodes hdr pos m).firstBlock < newext.firstBlock ∨
      newext.firstBlock < (cur s.nodes hdr pos m).firstBlock ∧
        newext.firstBlock < ((leafNode s hdr).slots 0).firstBlock ∧ leftExts s hdr pos = []) :
    MadeRoom env s t hdr pos newext (rights s.nodes hdr pos 0 n (m + 1)) := by
  have hf := hr.focused
  have hpath := hf.path
  rw [hD] at hpath
  have h0 : (leafNode s hdr).entriesCount ≠ 0 := by omega
  have hcount : pos (m + (n + 1)) + 1 = (s.nodes (hdr (m + (n + 1)))).entriesCount := by
    rw [leafNode, hD] at hlast
    exact hlast
  have hnone : newExtent s hdr pos (m + (n + 1)) = none := by
    unfold newExtent
    rw [leafNode, hD] at hfull
    rw [if_neg (by omega)]
  have hempty : (t.nodes (newHdr new (m + (n + 1)))).entriesCount = 0 := by
    rw [← entries_eq_nil]
    refine hin.cuts.leafEntries.trans ?_
    rw [hcount, ← length_entries, List.drop_length]
  have hp := path_right hpath hd hput htp htl hnone hempty
  have hroom : ([] : List Slot).length <
      (t.nodes (newWay hdr new m (m + (n + 1)))).maxEntriesCount := by
    rw [show newWay hdr new m (m + (n + 1)) = newHdr new (m + (n + 1)) from if_neg (by omega)]
    exact (hin.cuts.right (m + (n + 1)) (by omega) le_rfl).max_pos
  rcases hkeys with hlt | ⟨hlt, hbefore, hnil⟩
  · obtain rfl : x = pos m + 1 := hx.trans (if_pos hlt)
    have hslot : ((leafNode s hdr).slots 0).firstBlock < newext.firstBlock := by
      rcases hr.place h0 with h1 | h1
      · rwa [hr.head h0]
      · rw [← (hr.key_le h0 (show m < extDepth s by omega)).2 h1]
        exact hlt
    refine madeRoom_of_half hf hD hd htu htf (hin.split_right hcount) hp (fun h => absurd rfl h)
      hroom (Or.inr (Or.inl ⟨hlast, hslot, ?_, rfl, ?_⟩)) fun h => absurd rfl h
    · rw [leftExts, leafNode, hD]
    · rw [rightExts, hD]
  · obtain rfl : x = pos m := hx.trans (if_neg (Nat.lt_asymm hlt))
    have hnil' : lefts s.nodes hdr pos 0 (m + (n + 1)) 0 = [] := by
      rw [← hD]
      exact hnil
    refine madeRoom_of_half hf hD hd htu htf (hin.split_before hcount hnil') hp
      (fun h => absurd rfl h) hroom (Or.inr (Or.inr ⟨hlast, hbefore, hnil, rfl, rfl,
        extsOf s.nodes (0 + n) (after s.nodes hdr pos m) ++
          rights s.nodes hdr pos (0 + (n + 1)) m 0, ?_, ?_⟩)) fun h => absurd rfl h
    · rw [rightExts, hD, rights_level, List.append_assoc]
    · rw [leafNode, hD]

/-- There are entries behind the path's one: they have moved, and the old leaf has room. -/
theorem madeRoom_left {v : St} {ix : Slot} {eh : Node}
    (hr : Ready env s hdr pos b newext) (hD : extDepth s = m + (n + 1))
    (hd : SplitDone env s u hdr pos (m + (n + 1)) key (m + 1) (m + 1) (m + (n + 1)) new)
    (hin : SplitInto env s.nodes t.nodes hdr pos key m n new (pos m + 1) ix)
    (hput : IndexPut u v m (pos m) eh)
    (htu : t.used = u.used) (htf : t.freed = u.freed) (htl : t.pathLive = v.pathLive)
    (htp : t.path = v.path)
    (hcount : pos (extDepth s) + 1 < (leafNode s hdr).entriesCount)
    (hfull : (leafNode s hdr).entriesCount = (leafNode s hdr).maxEntriesCount)
    (hk : key = ((leafNode s hdr).slots (pos (extDepth s) + 1)).firstBlock) :
    MadeRoom env s t hdr pos newext (rights s.nodes hdr pos 0 n (m + 1)) := by
  have hf := hr.focused
  have hpath := hf.path
  rw [hD] at hpath
  have hcount' := hcount
  rw [leafNode, hD] at hcount' hk hfull
  have hdrop : (s.nodes (hdr (m + (n + 1)))).entries.drop (pos (m + (n + 1)) + 1) =
      (s.nodes (hdr (m + (n + 1)))).slots (pos (m + (n + 1)) + 1) ::
        (s.nodes (hdr (m + (n + 1)))).entries.drop (pos (m + (n + 1)) + 1 + 1) := by
    have h1 : pos (m + (n + 1)) + 1 < (s.nodes (hdr (m + (n + 1)))).entries.length := by
      rw [length_entries]
      exact hcount'
    rw [List.drop_eq_getElem_cons h1, getElem_entries]
  have ht := hin.split_left hdrop hk
  rw [← hdrop] at ht
  have hcut := hin.cuts.cut (m + (n + 1)) (by omega) le_rfl
  have hp := path_left hpath hput hd.path hd.pathLive htp htl (by rw [hcut.count]; omega) (by omega)
  have hlen : ((s.nodes (hdr (m + (n + 1)))).entries.take (pos (m + (n + 1)) + 1)).length =
      pos (m + (n + 1)) + 1 := by
    rw [List.length_take, length_entries]
    omega
  refine madeRoom_of_half hf hD hd htu htf ht hp (fun _ => by omega) ?_
    (Or.inl ⟨hcount, ?_, ?_, ?_⟩) fun _ => rfl
  · rw [hlen, hcut.max]
    omega
  · rw [leftExts, hD]
  · rw [leafNode, hD]
  · rw [leafNode, rightExts, hD]

/-- The state after a successful split has room for the new extent. -/
theorem madeRoom_of_done {v : St} {T : ℕ → ℕ} {N : ℕ → PathEnt} {ins : Bool}
    (hr : Ready env s hdr pos b newext) (hsize : SizeOk env) (hD : extDepth s = m + (n + 1))
    (hfull : FullFrom s hdr (m + 1))
    (hroom : (s.nodes (hdr m)).entriesCount < (s.nodes (hdr m)).maxEntriesCount)
    (hkey : keyOf (leafNode s hdr) (pos (extDepth s)) newext = key)
    (hd : SplitDone env s u hdr pos (extDepth s) key (m + 1) (m + 1) (extDepth s) new)
    (hins : ins = decide ¬ newext.firstBlock < key)
    (hput : IndexPut u v m
      (if ins then idxPlace (s.nodes (hdr m)) (pos m) key else pos m)
      (indexed (s.nodes (hdr m)) (idxPlace (s.nodes (hdr m)) (pos m) key) key (new (m + 1))))
    (ht : t = { v with
      tails := T
      npath := N
      path := fun l => if ins ∧ m + 1 ≤ l ∧ l < m + 1 + (n + 1) then v.npath (l - (m + 1))
        else v.path l }) :
    MadeRoom env s t hdr pos newext (rights s.nodes hdr pos 0 n (m + 1)) := by
  have hf := hr.focused
  have hm : m < extDepth s := by omega
  have hat := hfull.fullAt hf hsize (show m + 1 ≤ extDepth s by omega) le_rfl
  have hhm : (u.path m).header = hdr m := by rw [hd.path, hf.path.header m (by omega)]
  have htn : t.nodes = Function.update u.nodes (hdr m)
      (indexed (s.nodes (hdr m)) (idxPlace (s.nodes (hdr m)) (pos m) key) key (new (m + 1))) := by
    have hn := hput.nodes
    rw [hhm] at hn
    rw [ht]
    exact hn
  have hlt := (spine_level hf.spine (Nat.zero_le m) (by omega)).2
  obtain ⟨ix, hin⟩ := splitInto hr hsize hD hfull hroom hd (idxPlace_le hlt) htn
  have htu : t.used = u.used := by rw [ht]; exact hput.used
  have htf : t.freed = u.freed := by rw [ht]; exact hput.freed
  have htl : t.pathLive = v.pathLive := by rw [ht]
  have hkeys := hr.key_cases hm hat.lt hat.full
  rw [hkey] at hkeys
  rw [hD] at hd
  by_cases hlast : pos (extDepth s) + 1 = (leafNode s hdr).maxEntriesCount
  · obtain rfl : key = newext.firstBlock := by
      rw [← hkey]
      exact if_neg (not_not.mpr hlast)
    obtain rfl : ins = true := by rw [hins]; simp
    rw [if_pos rfl] at hput
    refine madeRoom_right hr hD hd rfl hin hput htu htf htl (by rw [ht]; simp)
      (hlast.trans hat.full.symm) hat.full ?_
    rcases hkeys with hlt | ⟨hlt, -, hnil, hbefore⟩
    · exact Or.inl hlt
    · exact Or.inr ⟨hlt, hbefore, hnil⟩
  · have hk : key = ((leafNode s hdr).slots (pos (extDepth s) + 1)).firstBlock := by
      rw [← hkey]
      exact if_pos hlast
    have hcount : pos (extDepth s) + 1 < (leafNode s hdr).entriesCount :=
      lt_of_le_of_ne hat.lt fun h => hlast (h.trans hat.full)
    obtain rfl : ins = false := by
      rw [hins, hk]
      simpa using hr.next _ (Nat.lt_succ_self _) hcount
    rw [if_neg (by simp)] at hput
    have hlt' : (cur s.nodes hdr pos m).firstBlock < key := by
      rcases hkeys with h | ⟨-, h, -⟩
      · exact h
      · exact absurd h hlast
    rw [show idxPlace (s.nodes (hdr m)) (pos m) key = pos m + 1 from if_pos hlt'] at hin
    exact madeRoom_left hr hD hd hin hput htu htf htl (by rw [ht]; simp) hcount hat.full hk

/-- **A full leaf below a level with room is split, or the split fails.** -/
theorem split_room (hr : Ready env s hdr pos b newext) (hsize : SizeOk env) (hal : AllocOk env)
    (hD : extDepth s = m + (n + 1)) (hfull : FullFrom s hdr (m + 1))
    (hroom : (s.nodes (hdr m)).entriesCount < (s.nodes (hdr m)).maxEntriesCount)
    {r : Except Errno Unit} (h : splitAndFollow env newext (m + 1) (n + 1) s = (r, t)) :
    (r = .ok () ∧ MadeRoom env s t hdr pos newext (rights s.nodes hdr pos 0 n (m + 1))) ∨
      ∃ e k, r = .error e ∧ Refused env e ∧ m + 1 < k ∧ k ≤ extDepth s + 1 ∧
        k + blocksHad env (ext4ExtFindGoal env newext.firstBlock s) (n + 1) s.calls s.used =
          extDepth s + 1 ∧
        SplitFailed env s t hdr pos
          (keyOf (leafNode s hdr) (pos (extDepth s)) newext) (m + 1) k := by
  have hf := hr.focused
  have hm : m < extDepth s := by omega
  have hat := hfull.fullAt hf hsize (show m + 1 ≤ extDepth s by omega) le_rfl
  unfold splitAndFollow at h
  rcases hs : ext4ExtSplitNode env (m + 1) newext s with ⟨r', w⟩
  obtain ⟨u, k, new, h1, h2, hd, hk, hcase⟩ := splitNode_spec hal
    (hfull.splittable hf hsize (by omega) (by omega)) (by omega) rfl
    ((hf.path.depth 0 (Nat.zero_le _)).trans (Nat.sub_zero _))
      (hr.takes hsize hm hroom hat.lt hat.full) hs
  rcases hcase with ⟨rfl, rfl, hput⟩ | ⟨e, v, rfl, hre, h3, h4, h5⟩
  · rw [bind_of_ok hs] at h
    obtain ⟨T, N, hrun⟩ := @afterSplit_run env w (m + 1) (n + 1) (decide ¬ newext.firstBlock <
      keyOf (leafNode s hdr) (pos (extDepth s)) newext)
    rw [hrun] at h
    obtain ⟨rfl, rfl⟩ := Prod.mk.inj h
    refine Or.inl ⟨rfl, madeRoom_of_done hr hsize hD hfull hroom rfl hd rfl ?_ rfl⟩
    simpa using hput
  · rw [bind_of_error hs] at h
    obtain ⟨rfl, rfl⟩ := Prod.mk.inj h
    rw [show extDepth s - (m + 1) + 1 = n + 1 by omega] at hk
    exact Or.inr ⟨e, k, rfl, hre, h3, h2, hk, u, v, new, hd, h4, h5⟩

end

end Ext4Fsd.Extent.MakeRoom
