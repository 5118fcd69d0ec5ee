import Ext4Fsd.Extent.Tree

/-! # A way down the tree

`hdr i` is the node and `pos i` the entry taken at level `i` on the way from a subtree's root to a
focus of height `g`; `n` levels from level `j` on. `Spine` says that everything beside the way is
well-formed. What a subtree holds is then read as `lefts`, the focus and `rights`, and its nodes as
the ones on the way (`hdrs`), the ones beside it (`sibRefs`) and the focus's.

`spine_open` cuts a well-formed subtree along a way and `spine_close` puts it together again.
Between the two a program may change the focus and the keys on the way (`spine_update`). -/

namespace Ext4Fsd.Extent.Way

open Ext4Fsd.Lib.Intervals Ext4Fsd.Extent.Layout Ext4Fsd.Extent.Store Ext4Fsd.Extent.Tree

section
variable (env : Env) (nodes : Nodes) (hdr : ℕ → Hdr) (pos : ℕ → ℕ) (g : ℕ)

/-- The entry taken at level `i`. -/
abbrev cur (i : ℕ) : Slot := (nodes (hdr i)).slots (pos i)

/-- The entries before it, and the entries after it. -/
abbrev before (i : ℕ) : List Slot := (nodes (hdr i)).entries.take (pos i)

abbrev after (i : ℕ) : List Slot := (nodes (hdr i)).entries.drop (pos i + 1)

/-- `pos` takes valid entries, and `hdr` follows them. -/
def OnPath : ℕ → ℕ → Prop
  | 0, _ => True
  | n + 1, j => pos j < (nodes (hdr j)).entriesCount ∧ hdr (j + 1) = child (cur nodes hdr pos j) ∧
      OnPath n (j + 1)

/-- The way is sound and everything beside it well-formed. -/
def Spine : ℕ → ℕ → Prop
  | 0, _ => True
  | n + 1, j =>
    HeaderOk env nodes (g + n + 1) (hdr j) ∧ pos j < (nodes (hdr j)).entriesCount ∧
      hdr (j + 1) = child (cur nodes hdr pos j) ∧
      Forest env nodes (g + n) (before nodes hdr pos j) ∧
      Forest env nodes (g + n) (after nodes hdr pos j) ∧ Spine n (j + 1)

/-- The extents left of the focus. -/
def lefts : ℕ → ℕ → List Slot
  | 0, _ => []
  | n + 1, j => extsOf nodes (g + n) (before nodes hdr pos j) ++ lefts n (j + 1)

/-- The extents right of the focus. -/
def rights : ℕ → ℕ → List Slot
  | 0, _ => []
  | n + 1, j => rights n (j + 1) ++ extsOf nodes (g + n) (after nodes hdr pos j)

/-- The nodes on the way. -/
def hdrs : ℕ → ℕ → List Hdr
  | 0, _ => []
  | n + 1, j => hdr j :: hdrs n (j + 1)

/-- The nodes beside the way. -/
def sibRefs : ℕ → ℕ → List Hdr
  | 0, _ => []
  | n + 1, j => refsOf nodes (g + n) (before nodes hdr pos j) ++
      refsOf nodes (g + n) (after nodes hdr pos j) ++ sibRefs n (j + 1)

/-- The keys on the way are exact. -/
def Keys : ℕ → ℕ → Prop
  | 0, _ => True
  | n + 1, j => KeyOk nodes (g + n) (cur nodes hdr pos j) ∧ Keys n (j + 1)

/-- The keys on the way are exact as far as they are decided left of the focus. -/
def KeysLeft : ℕ → ℕ → Prop
  | 0, _ => True
  | n + 1, j => (∀ e ∈ (lefts nodes hdr pos g n (j + 1)).head?,
      e.firstBlock = (cur nodes hdr pos j).firstBlock) ∧ KeysLeft n (j + 1)

/-- The keys that are not decided left of the focus are `b`. -/
def KeysFocus (b : ℕ) : ℕ → ℕ → Prop
  | 0, _ => True
  | n + 1, j => (lefts nodes hdr pos g n (j + 1) = [] → (cur nodes hdr pos j).firstBlock = b) ∧
      KeysFocus b n (j + 1)

end

section
variable {env : Env} {nodes nodes' : Nodes} {hdr : ℕ → Hdr} {pos : ℕ → ℕ} {g n j : ℕ}

theorem spine_succ : Spine env nodes hdr pos g (n + 1) j ↔
    HeaderOk env nodes (g + n + 1) (hdr j) ∧ pos j < (nodes (hdr j)).entriesCount ∧
      hdr (j + 1) = child (cur nodes hdr pos j) ∧
      Forest env nodes (g + n) (before nodes hdr pos j) ∧
      Forest env nodes (g + n) (after nodes hdr pos j) ∧
      Spine env nodes hdr pos g n (j + 1) := Iff.rfl

theorem lefts_succ : lefts nodes hdr pos g (n + 1) j =
    extsOf nodes (g + n) (before nodes hdr pos j) ++ lefts nodes hdr pos g n (j + 1) := rfl

theorem rights_succ : rights nodes hdr pos g (n + 1) j =
    rights nodes hdr pos g n (j + 1) ++ extsOf nodes (g + n) (after nodes hdr pos j) := rfl

theorem hdrs_succ : hdrs hdr (n + 1) j = hdr j :: hdrs hdr n (j + 1) := rfl

theorem sibRefs_succ : sibRefs nodes hdr pos g (n + 1) j =
    refsOf nodes (g + n) (before nodes hdr pos j) ++
      refsOf nodes (g + n) (after nodes hdr pos j) ++
      sibRefs nodes hdr pos g n (j + 1) := rfl

theorem mem_hdrs {h : Hdr} : h ∈ hdrs hdr n j ↔ ∃ i, j ≤ i ∧ i < j + n ∧ hdr i = h := by
  induction n generalizing j with
  | zero =>
    simp only [hdrs, List.not_mem_nil, false_iff, not_exists]
    intro i
    omega
  | succ n ih =>
    rw [hdrs, List.mem_cons, ih]
    constructor
    · rintro (rfl | ⟨i, h1, h2, h3⟩)
      · exact ⟨j, le_rfl, by omega, rfl⟩
      · exact ⟨i, by omega, by omega, h3⟩
    · rintro ⟨i, h1, h2, h3⟩
      rcases Nat.eq_or_lt_of_le h1 with rfl | h1
      · exact Or.inl h3.symm
      · exact Or.inr ⟨i, by omega, by omega, h3⟩

/-- The entries of a node on the way. -/
theorem entries_cur (hp : pos j < (nodes (hdr j)).entriesCount) :
    (nodes (hdr j)).entries =
      before nodes hdr pos j ++ cur nodes hdr pos j :: after nodes hdr pos j := entries_split hp

theorem Spine.onPath (hs : Spine env nodes hdr pos g n j) : OnPath nodes hdr pos n j := by
  induction n generalizing j with
  | zero => trivial
  | succ n ih =>
    obtain ⟨-, hp, hc, -, -, hrest⟩ := hs
    exact ⟨hp, hc, ih hrest⟩

/-- Every level of a way leads to the next one. -/
theorem OnPath.level {i : ℕ} (hp : OnPath nodes hdr pos n j) (h1 : j ≤ i) (h2 : i < j + n) :
    pos i < (nodes (hdr i)).entriesCount ∧ hdr (i + 1) = child (cur nodes hdr pos i) := by
  induction n generalizing j with
  | zero => omega
  | succ n ih =>
    obtain ⟨hlt, hc, hrest⟩ := hp
    rcases Nat.eq_or_lt_of_le h1 with rfl | h1
    · exact ⟨hlt, hc⟩
    · exact ih hrest h1 (by omega)

/-- A spine is cut at any of its levels. -/
theorem spine_split {m : ℕ} : Spine env nodes hdr pos g (m + n) j ↔
    Spine env nodes hdr pos (g + n) m j ∧ Spine env nodes hdr pos g n (j + m) := by
  induction m generalizing j with
  | zero => simp [Spine]
  | succ m ih =>
    rw [show m + 1 + n = m + n + 1 by omega]
    rw [spine_succ, spine_succ, ih, show j + 1 + m = j + (m + 1) by omega,
      show g + (m + n) = g + n + m by omega]
    tauto

theorem lefts_split {m : ℕ} : lefts nodes hdr pos g (m + n) j =
    lefts nodes hdr pos (g + n) m j ++ lefts nodes hdr pos g n (j + m) := by
  induction m generalizing j with
  | zero => simp [lefts]
  | succ m ih =>
    rw [show m + 1 + n = m + n + 1 by omega]
    rw [lefts_succ, lefts_succ, ih, show j + 1 + m = j + (m + 1) by omega,
      show g + (m + n) = g + n + m by omega, List.append_assoc]

theorem rights_split {m : ℕ} : rights nodes hdr pos g (m + n) j =
    rights nodes hdr pos g n (j + m) ++ rights nodes hdr pos (g + n) m j := by
  induction m generalizing j with
  | zero => simp [rights]
  | succ m ih =>
    rw [show m + 1 + n = m + n + 1 by omega]
    rw [rights_succ, rights_succ, ih, show j + 1 + m = j + (m + 1) by omega,
      show g + (m + n) = g + n + m by omega, List.append_assoc]

theorem sibRefs_split {m : ℕ} : sibRefs nodes hdr pos g (m + n) j =
    sibRefs nodes hdr pos (g + n) m j ++ sibRefs nodes hdr pos g n (j + m) := by
  induction m generalizing j with
  | zero => simp [sibRefs]
  | succ m ih =>
    rw [show m + 1 + n = m + n + 1 by omega]
    rw [sibRefs_succ, sibRefs_succ, ih, show j + 1 + m = j + (m + 1) by omega,
      show g + (m + n) = g + n + m by omega]
    simp only [List.append_assoc]

theorem hdrs_split {m : ℕ} : hdrs hdr (m + n) j = hdrs hdr m j ++ hdrs hdr n (j + m) := by
  induction m generalizing j with
  | zero => simp [hdrs]
  | succ m ih =>
    rw [show m + 1 + n = m + n + 1 by omega]
    rw [hdrs_succ, hdrs_succ, ih, show j + 1 + m = j + (m + 1) by omega, List.cons_append]

/-! ### Reading a subtree along the way -/

theorem exts_spine (hp : OnPath nodes hdr pos n j) : exts nodes (g + n) (hdr j) =
    lefts nodes hdr pos g n j ++ exts nodes g (hdr (j + n)) ++ rights nodes hdr pos g n j := by
  induction n generalizing j with
  | zero => simp [lefts, rights]
  | succ n ih =>
    obtain ⟨hlt, hc, hrest⟩ := hp
    rw [← Nat.add_assoc, exts_succ, entries_cur hlt, extsOf_append, extsOf_cons, ← hc,
      ih hrest, lefts_succ, rights_succ, show j + 1 + n = j + (n + 1) by omega]
    simp only [List.append_assoc]

theorem refs_spine (hp : OnPath nodes hdr pos n j) : (refs nodes (g + n) (hdr j)).Perm
    (hdrs hdr n j ++ sibRefs nodes hdr pos g n j ++ refs nodes g (hdr (j + n))) := by
  induction n generalizing j with
  | zero => simp [hdrs, sibRefs]
  | succ n ih =>
    obtain ⟨hlt, hc, hrest⟩ := hp
    have hbelow := ih hrest
    rw [show j + 1 + n = j + (n + 1) by omega] at hbelow
    rw [← Nat.add_assoc, refs_succ, entries_cur hlt, refsOf_append, refsOf_cons, ← hc,
      hdrs_succ, sibRefs_succ]
    refine List.Perm.cons _ ?_
    generalize refsOf nodes (g + n) (before nodes hdr pos j) = A
    generalize refsOf nodes (g + n) (after nodes hdr pos j) = B
    calc A ++ (refs nodes (g + n) (hdr (j + 1)) ++ B)
        _ |>.Perm (A ++ (hdrs hdr n (j + 1) ++ sibRefs nodes hdr pos g n (j + 1) ++
            refs nodes g (hdr (j + (n + 1))) ++ B)) := (hbelow.append_right B).append_left A
        _ |>.Perm (hdrs hdr n (j + 1) ++ (A ++ B ++ sibRefs nodes hdr pos g n (j + 1)) ++
            refs nodes g (hdr (j + (n + 1)))) := by
          rw [← Multiset.coe_eq_coe]
          simp only [← Multiset.coe_add]
          abel

/-! ### Cutting and closing -/

/-- A well-formed subtree, cut along a way. -/
theorem spine_open (hp : OnPath nodes hdr pos n j) (hs : Sub env nodes (g + n) (hdr j)) :
    Spine env nodes hdr pos g n j ∧ Keys nodes hdr pos g n j ∧
      Sub env nodes g (hdr (j + n)) := by
  induction n generalizing j with
  | zero => exact ⟨trivial, trivial, hs⟩
  | succ n ih =>
    obtain ⟨hlt, hc, hrest⟩ := hp
    obtain ⟨hh, -, hf⟩ := sub_succ.mp hs
    rw [entries_cur hlt, Forest.append, Forest.cons] at hf
    obtain ⟨hbefore, ⟨hsub, hkey⟩, hafter⟩ := hf
    rw [← hc] at hsub
    obtain ⟨h1, h2, h3⟩ := ih hrest hsub
    rw [show j + 1 + n = j + (n + 1) by omega] at h3
    exact ⟨⟨hh, hlt, hc, hbefore, hafter, h1⟩, ⟨hkey, h2⟩, h3⟩

/-- With exact keys and a well-formed focus the subtree is well-formed. -/
theorem spine_close (hs : Spine env nodes hdr pos g n j) (hk : Keys nodes hdr pos g n j)
    (hg : Sub env nodes g (hdr (j + n))) : Sub env nodes (g + n) (hdr j) := by
  induction n generalizing j with
  | zero => exact hg
  | succ n ih =>
    obtain ⟨hh, hlt, hc, hbefore, hafter, hrest⟩ := hs
    obtain ⟨hkey, hkrest⟩ := hk
    have hsub := ih hrest hkrest (by rwa [show j + 1 + n = j + (n + 1) by omega])
    rw [hc] at hsub
    refine ⟨hh, ?_, ?_⟩
    · rw [entries_cur hlt]
      simp
    · rw [entries_cur hlt]
      exact Forest.append.mpr ⟨hbefore, Forest.cons.mpr ⟨⟨hsub, hkey⟩, hafter⟩⟩

/-- Nothing is left of the focus exactly when the way takes first entries only. -/
theorem lefts_eq_nil (hs : Spine env nodes hdr pos g n j) :
    lefts nodes hdr pos g n j = [] ↔ ∀ i, j ≤ i → i < j + n → pos i = 0 := by
  induction n generalizing j with
  | zero =>
    refine ⟨fun _ i h1 h2 => ?_, fun _ => rfl⟩
    omega
  | succ n ih =>
    obtain ⟨-, hlt, -, hbefore, -, hrest⟩ := hs
    have hzero : before nodes hdr pos j = [] ↔ pos j = 0 := by
      rw [List.take_eq_nil_iff, entries_eq_nil]
      omega
    rw [lefts_succ, List.append_eq_nil_iff, hbefore.extsOf_eq_nil, hzero, ih hrest]
    constructor
    · rintro ⟨h0, hall⟩ i h1 h2
      rcases Nat.eq_or_lt_of_le h1 with rfl | h1
      · exact h0
      · exact hall i (by omega) (by omega)
    · intro hall
      exact ⟨hall j le_rfl (by omega), fun i h1 h2 => hall i (by omega) (by omega)⟩

/-- A key on the way is exact when it is the first block left of the focus, or else in it. -/
theorem keys_iff {e : Slot} {es : List Slot} (hs : Spine env nodes hdr pos g n j)
    (hg : exts nodes g (hdr (j + n)) = e :: es) :
    Keys nodes hdr pos g n j ↔
      KeysLeft nodes hdr pos g n j ∧ KeysFocus nodes hdr pos g e.firstBlock n j := by
  induction n generalizing j with
  | zero => simp [Keys, KeysLeft, KeysFocus]
  | succ n ih =>
    obtain ⟨-, hlt, hc, -, -, hrest⟩ := hs
    rw [show j + (n + 1) = j + 1 + n by omega] at hg
    have hbelow := exts_spine (g := g) hrest.onPath
    rw [hc, hg] at hbelow
    unfold Keys KeysLeft KeysFocus
    rw [ih hrest hg]
    unfold KeyOk
    rw [hbelow]
    rcases lefts nodes hdr pos g n (j + 1) with _ | ⟨x, l⟩
    · simp only [List.nil_append, List.cons_append, List.head?_cons, Option.map_some,
        Option.some.injEq, List.head?_nil, Option.mem_def, reduceCtorEq, false_implies,
        implies_true, true_and, forall_const]
      tauto
    · simp only [List.cons_append, List.head?_cons, Option.map_some, Option.some.injEq,
        Option.mem_def, forall_eq', reduceCtorEq, false_implies, true_and]
      tauto

/-! ### Changing keys on the way -/

/-- Two nodes that differ in the key of entry `p` at most. -/
structure SameBeside (eh eh' : Node) (p : ℕ) : Prop where
  magic : eh'.magic = eh.magic
  depth : eh'.depth = eh.depth
  max : eh'.maxEntriesCount = eh.maxEntriesCount
  entries : eh'.entriesCount = eh.entriesCount
  slots : ∀ q, q ≠ p → eh'.slots q = eh.slots q
  child : child (eh'.slots p) = child (eh.slots p)

theorem SameBeside.refl (eh : Node) (p : ℕ) : SameBeside eh eh p :=
  ⟨rfl, rfl, rfl, rfl, fun _ _ => rfl, rfl⟩

theorem SameBeside.trans {a b c : Node} {p : ℕ} (h1 : SameBeside a b p) (h2 : SameBeside b c p) :
    SameBeside a c p :=
  ⟨h2.magic.trans h1.magic, h2.depth.trans h1.depth, h2.max.trans h1.max,
    h2.entries.trans h1.entries, fun q hq => (h2.slots q hq).trans (h1.slots q hq),
    h2.child.trans h1.child⟩

theorem SameBeside.take {eh eh' : Node} {p : ℕ} (h : SameBeside eh eh' p) :
    eh'.entries.take p = eh.entries.take p := by
  refine List.ext_getElem (by simp [h.entries]) fun q h1 h2 => ?_
  rw [List.length_take] at h1
  rw [List.getElem_take, List.getElem_take, getElem_entries, getElem_entries, h.slots q (by omega)]

theorem SameBeside.drop {eh eh' : Node} {p : ℕ} (h : SameBeside eh eh' p) :
    eh'.entries.drop (p + 1) = eh.entries.drop (p + 1) := by
  refine List.ext_getElem (by simp [h.entries]) fun q h1 h2 => ?_
  rw [List.getElem_drop, List.getElem_drop, getElem_entries, getElem_entries,
    h.slots _ (by omega)]

theorem SameBeside.headerOk {k : ℕ} {h : Hdr} {p : ℕ} (hsame : SameBeside (nodes h) (nodes' h) p)
    (hh : HeaderOk env nodes k h) : HeaderOk env nodes' k h := by
  obtain ⟨h1, h2, h3, h4, h5⟩ := hh
  constructor
  · rw [hsame.magic, h1]
  · rw [hsame.depth, h2]
  · rwa [hsame.max]
  · rwa [hsame.max]
  · rwa [hsame.max, hsame.entries]

/-- What stays when only keys on the way change, and whatever happens in the focus. -/
theorem spine_update (hs : Spine env nodes hdr pos g n j)
    (hway : ∀ i, j ≤ i → i < j + n → SameBeside (nodes (hdr i)) (nodes' (hdr i)) (pos i))
    (hsib : ∀ r ∈ sibRefs nodes hdr pos g n j, nodes' r = nodes r) :
    Spine env nodes' hdr pos g n j ∧
      lefts nodes' hdr pos g n j = lefts nodes hdr pos g n j ∧
      rights nodes' hdr pos g n j = rights nodes hdr pos g n j ∧
      sibRefs nodes' hdr pos g n j = sibRefs nodes hdr pos g n j := by
  induction n generalizing j with
  | zero => exact ⟨trivial, rfl, rfl, rfl⟩
  | succ n ih =>
    obtain ⟨hh, hlt, hc, hbefore, hafter, hrest⟩ := hs
    have hj := hway j le_rfl (by omega)
    rw [sibRefs_succ] at hsib
    have hB : ∀ r ∈ refsOf nodes (g + n) (before nodes hdr pos j), nodes' r = nodes r :=
      fun r hr => hsib r (by simp [hr])
    have hA : ∀ r ∈ refsOf nodes (g + n) (after nodes hdr pos j), nodes' r = nodes r :=
      fun r hr => hsib r (by simp [hr])
    obtain ⟨h1, h2, h3, h4⟩ := ih hrest (fun i hi1 hi2 => hway i (by omega) (by omega))
      fun r hr => hsib r (by simp [hr])
    have heB : before nodes' hdr pos j = before nodes hdr pos j := hj.take
    have heA : after nodes' hdr pos j = after nodes hdr pos j := hj.drop
    refine ⟨⟨hj.headerOk hh, by rwa [hj.entries], hc.trans hj.child.symm, ?_, ?_, h1⟩, ?_, ?_, ?_⟩
    · rw [heB]
      exact forest_congr hB hbefore
    · rw [heA]
      exact forest_congr hA hafter
    · rw [lefts_succ, lefts_succ, heB, extsOf_congr hB, h2]
    · rw [rights_succ, rights_succ, heA, extsOf_congr hA, h3]
    · rw [sibRefs_succ, sibRefs_succ, heB, heA, refsOf_congr hB, refsOf_congr hA, h4]

/-! ### Two ways that agree -/

/-- The levels from `j` on are read off `hdr` and `pos` at those levels only. -/
theorem reads_congr {hdr' : ℕ → Hdr} {pos' : ℕ → ℕ} (hh : ∀ i, j ≤ i → i < j + n → hdr' i = hdr i)
    (hp : ∀ i, j ≤ i → i < j + n → pos' i = pos i) :
    lefts nodes hdr' pos' g n j = lefts nodes hdr pos g n j ∧
      rights nodes hdr' pos' g n j = rights nodes hdr pos g n j ∧
      sibRefs nodes hdr' pos' g n j = sibRefs nodes hdr pos g n j ∧
      hdrs hdr' n j = hdrs hdr n j := by
  induction n generalizing j with
  | zero => exact ⟨rfl, rfl, rfl, rfl⟩
  | succ n ih =>
    obtain ⟨h2, h3, h4, h5⟩ := ih (j := j + 1) (fun i hi1 hi2 => hh i (by omega) (by omega))
      fun i hi1 hi2 => hp i (by omega) (by omega)
    have hj := hh j le_rfl (by omega)
    have hpj := hp j le_rfl (by omega)
    refine ⟨?_, ?_, ?_, ?_⟩
    · rw [lefts_succ, lefts_succ, h2]
      unfold before
      rw [hj, hpj]
    · rw [rights_succ, rights_succ, h3]
      unfold after
      rw [hj, hpj]
    · rw [sibRefs_succ, sibRefs_succ, h4]
      unfold before after
      rw [hj, hpj]
    · rw [hdrs_succ, hdrs_succ, h5, hj]

theorem spine_congr_way {hdr' : ℕ → Hdr} {pos' : ℕ → ℕ}
    (hh : ∀ i, j ≤ i → i ≤ j + n → hdr' i = hdr i)
    (hp : ∀ i, j ≤ i → i < j + n → pos' i = pos i) :
    Spine env nodes hdr' pos' g n j ↔ Spine env nodes hdr pos g n j := by
  induction n generalizing j with
  | zero => exact Iff.rfl
  | succ n ih =>
    rw [spine_succ, spine_succ, ih (fun i hi1 hi2 => hh i (by omega) (by omega))
      fun i hi1 hi2 => hp i (by omega) (by omega), hh (j + 1) (by omega) (by omega)]
    unfold cur before after
    rw [hh j le_rfl (by omega), hp j le_rfl (by omega)]

theorem keys_congr {hdr' : ℕ → Hdr} {pos' : ℕ → ℕ} {b : ℕ}
    (hh : ∀ i, j ≤ i → i < j + n → hdr' i = hdr i)
    (hp : ∀ i, j ≤ i → i < j + n → pos' i = pos i) :
    (KeysLeft nodes hdr' pos' g n j ↔ KeysLeft nodes hdr pos g n j) ∧
      (KeysFocus nodes hdr' pos' g b n j ↔ KeysFocus nodes hdr pos g b n j) := by
  induction n generalizing j with
  | zero => exact ⟨Iff.rfl, Iff.rfl⟩
  | succ n ih =>
    have hh' : ∀ i, j + 1 ≤ i → i < j + 1 + n → hdr' i = hdr i := fun i hi1 hi2 =>
      hh i (by omega) (by omega)
    have hp' : ∀ i, j + 1 ≤ i → i < j + 1 + n → pos' i = pos i := fun i hi1 hi2 =>
      hp i (by omega) (by omega)
    obtain ⟨h1, h2⟩ := ih hh' hp'
    have hl := (@reads_congr nodes hdr pos g n (j + 1) hdr' pos' hh' hp').1
    have hj := hh j le_rfl (by omega)
    have hpj := hp j le_rfl (by omega)
    constructor
    · rw [KeysLeft, KeysLeft, h1, hl]
      unfold cur
      rw [hj, hpj]
    · rw [KeysFocus, KeysFocus, h2, hl]
      unfold cur
      rw [hj, hpj]

end

end Ext4Fsd.Extent.Way
