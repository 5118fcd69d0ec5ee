import Ext4Fsd.Common.TreeWalk

/-! # Runs of the red-black tree operations

What the macros are for: a set of nodes with distinct keys, in which `Op.apply` and `Op.Answers` say
what each operation does and returns. Any run of operations from `RB_INIT` does the same
(`run_refines`): nothing faults, every state on the way is a red-black search tree, and no loop
takes more than `2 * log2 (n + 1) + 1` turns, with `n` the number of operations. -/

namespace Ext4Fsd.Common.DrvTree

open Ext4Fsd.Lib.RbTree

/-! ### The operations -/

inductive Op
  | insert (elm : ℕ)
  | remove (elm : ℕ)
  | find (elm : ℕ)
  | nfind (elm : ℕ)
  | next (elm : ℕ)
  | prev (elm : ℕ)
  | min
  | max

/-- One operation of the macros: what it returns and the heap after it. -/
def exec (cmp : ℕ → ℕ → ℤ) (turns : ℕ) : Op → Heap → Except Stop (Option ℕ × Heap)
  | .insert elm, h => rbInsert cmp turns elm h
  | .remove elm, h => do
    let (a, h) ← rbRemove turns elm h
    pure (some a, h)
  | .find elm, h => do pure (← rbFind cmp elm h turns h.rbhRoot, h)
  | .nfind elm, h => do pure (← rbNfind cmp elm h turns h.rbhRoot none, h)
  | .next elm, h => do pure (← rbNext turns elm h, h)
  | .prev elm, h => do pure (← rbPrev turns elm h, h)
  | .min, h => do pure (← rbMin turns h, h)
  | .max, h => do pure (← rbMax turns h, h)

/-- A run: what its operations return, and the heap after them. -/
def execAll (cmp : ℕ → ℕ → ℤ) (turns : ℕ) : List Op → Heap → Except Stop (List (Option ℕ) × Heap)
  | [], h => .ok ([], h)
  | op :: ops, h => do
    let (r, h) ← exec cmp turns op h
    let (rs, h) ← execAll cmp turns ops h
    pure (r :: rs, h)

/-! ### A set of nodes -/

section
variable {K : Type} [LinearOrder K] (key : ℕ → K)

/-- The node of `S` with the least key of those with `P`, or null. -/
def Least (S : Finset ℕ) (P : ℕ → Prop) : Option ℕ → Prop
  | none => ∀ b ∈ S, ¬ P b
  | some b => b ∈ S ∧ P b ∧ ∀ x ∈ S, P x → key b ≤ key x

/-- The node of `S` with the greatest key of those with `P`, or null. -/
def Greatest (S : Finset ℕ) (P : ℕ → Prop) : Option ℕ → Prop
  | none => ∀ b ∈ S, ¬ P b
  | some b => b ∈ S ∧ P b ∧ ∀ x ∈ S, P x → key x ≤ key b

/-- The set after an operation. -/
def Op.apply (S : Finset ℕ) : Op → Finset ℕ
  | .insert a => if ∃ b ∈ S, key b = key a then S else S ∪ {a}
  | .remove a => S.erase a
  | _ => S

/-- What an operation on the set may return. -/
def Op.Answers (S : Finset ℕ) : Op → Option ℕ → Prop
  | .insert a => Least key S fun b => key b = key a
  | .remove a => fun r => r = some a
  | .find a => Least key S fun b => key b = key a
  | .nfind a => Least key S fun b => key a ≤ key b
  | .next a => Least key S fun b => key a < key b
  | .prev a => Greatest key S fun b => key b < key a
  | .min => Least key S fun _ => True
  | .max => Greatest key S fun _ => True

/-- What the caller has to see to: the node given to `RB_REMOVE`, `RB_NEXT` or `RB_PREV` is in the
tree, and the one given to `RB_INSERT` is in memory. -/
def Op.Legal (nodes : Finset ℕ) (S : Finset ℕ) : Op → Prop
  | .insert a => a ∈ nodes
  | .remove a => a ∈ S
  | .next a => a ∈ S
  | .prev a => a ∈ S
  | _ => True

/-- A run is legal from the set `S`. -/
def LegalRun (nodes : Finset ℕ) : Finset ℕ → List Op → Prop
  | _, [] => True
  | S, op :: ops => op.Legal nodes S ∧ LegalRun nodes (op.apply key S) ops

/-- What a run from the set `S` may return. -/
def RunAnswers : Finset ℕ → List Op → List (Option ℕ) → Prop
  | _, [], rs => rs = []
  | _, _ :: _, [] => False
  | S, op :: ops, r :: rs => op.Answers key S r ∧ RunAnswers (op.apply key S) ops rs

/-- The set after a run. -/
def applyAll (S : Finset ℕ) (ops : List Op) : Finset ℕ := ops.foldl (Op.apply key) S

end

/-! ### The answers of a list in order -/

section
variable {K : Type} [LinearOrder K] {key : ℕ → K} {xs ys zs : List ℕ} {a : ℕ}

theorem least_find (h : Ascending key xs) (P : ℕ → Prop) [DecidablePred P] :
    Least key xs.toFinset P (xs.find? fun b => P b) := by
  cases hf : xs.find? (fun b => decide (P b)) with
  | none =>
    intro b hb
    rw [List.find?_eq_none] at hf
    simpa using hf b (List.mem_toFinset.mp hb)
  | some b =>
    obtain ⟨hP, ys, zs, rfl, hys⟩ := List.find?_eq_some_iff_append.mp hf
    refine ⟨by simp, by simpa using hP, fun x hx hPx => ?_⟩
    simp only [List.mem_toFinset, List.mem_append, List.mem_cons] at hx
    rcases hx with hx | rfl | hx
    · simpa [hPx] using hys x hx
    · exact le_rfl
    · unfold Ascending at h
      rw [List.pairwise_append, List.pairwise_cons] at h
      exact (h.2.1.1 x hx).le

/-- The first node of a tail, if the condition holds in the tail and nowhere before it. -/
theorem least_head {P : ℕ → Prop} (h : Ascending key (ys ++ zs)) (hys : ∀ b ∈ ys, ¬ P b)
    (hzs : ∀ b ∈ zs, P b) : Least key (ys ++ zs).toFinset P zs.head? := by
  cases zs with
  | nil =>
    intro b hb
    exact hys b (by simpa using hb)
  | cons z zs =>
    refine ⟨by simp, hzs z (by simp), fun x hx hPx => ?_⟩
    simp only [List.mem_toFinset, List.mem_append, List.mem_cons] at hx
    rcases hx with hx | rfl | hx
    · exact absurd hPx (hys x hx)
    · exact le_rfl
    · unfold Ascending at h
      rw [List.pairwise_append, List.pairwise_cons] at h
      exact (h.2.1.1 x hx).le

/-- The last node of a front, if the condition holds in the front and nowhere after it. -/
theorem greatest_getLast {P : ℕ → Prop} (h : Ascending key (ys ++ zs)) (hys : ∀ b ∈ ys, P b)
    (hzs : ∀ b ∈ zs, ¬ P b) : Greatest key (ys ++ zs).toFinset P ys.getLast? := by
  rcases List.eq_nil_or_concat ys with rfl | ⟨ys, y, rfl⟩
  · intro b hb
    exact hzs b (by simpa using hb)
  · rw [List.concat_eq_append] at h hys ⊢
    rw [List.getLast?_concat]
    refine ⟨by simp, hys y (by simp), fun x hx hPx => ?_⟩
    simp only [List.mem_toFinset, List.mem_append, List.mem_singleton] at hx
    rcases hx with (hx | rfl) | hx
    · unfold Ascending at h
      rw [List.pairwise_append, List.pairwise_append] at h
      exact (h.1.2.2 x hx y (by simp)).le
    · exact le_rfl
    · exact absurd hPx (hzs x hx)

theorem ascending_neighbours (h : Ascending key (ys ++ a :: zs)) :
    (∀ b ∈ ys, key b < key a) ∧ ∀ b ∈ zs, key a < key b := by
  unfold Ascending at h
  rw [List.pairwise_append, List.pairwise_cons] at h
  exact ⟨fun b hb => h.2.2 b hb a (by simp), h.2.1.1⟩

end

/-! ### Refinement -/

section
variable {K : Type} [LinearOrder K] {key : ℕ → K} {cmp : ℕ → ℕ → ℤ} {h : Heap} {t : RTree ℕ}
  {turns a : ℕ} {nodes : Finset ℕ} {op : Op}

theorem Holds.node_ne_none (ht : Holds h t) (ha : a ∈ t.inorder) : h.node a ≠ none := by
  obtain ⟨fs, c, l, r, rfl⟩ := exists_place ha
  rw [At.node_eq (d := .left) (at_of_holds ht)]
  simp

/-- `RB_INSERT` does what the set operation does. -/
theorem insert_refines (hcmp : ComparesBy cmp key) (ht : SearchTree key h t)
    (hmem : ∀ b ∈ nodes, h.node b ≠ none) (ha : a ∈ nodes) (hn : t.height < turns) :
    ∃ r h' t', exec cmp turns (.insert a) h = .ok (r, h') ∧
      (Op.insert a).Answers key t.inorder.toFinset r ∧ SearchTree key h' t' ∧
      t'.inorder.toFinset = (Op.insert a).apply key t.inorder.toFinset ∧
      (∀ b ∈ nodes, h'.node b ≠ none) ∧ t'.inorder.length ≤ t.inorder.length + 1 := by
  by_cases hb : ∃ b ∈ t.inorder, key b = key a
  · obtain ⟨b, hb, hk⟩ := hb
    refine ⟨some b, h, t, rbInsert_present hcmp ht hb hk hn.le, ?_, ht, ?_, hmem, by omega⟩
    · exact ⟨by simpa using hb, hk, fun x _ hx => (hk.trans hx.symm).le⟩
    · dsimp only [Op.apply]
      rw [if_pos ⟨b, by simpa using hb, hk⟩]
  · have hnew : ∀ b ∈ t.inorder, key b ≠ key a := fun b hb' hk => hb ⟨b, hb', hk⟩
    obtain ⟨e, he⟩ := Option.ne_none_iff_exists'.mp (hmem a ha)
    obtain ⟨h', t', hrun, ht', hperm, hout⟩ := rbInsert_new hcmp ht hnew he hn
    refine ⟨none, h', t', hrun, ?_, ht', ?_, fun b hb' => ?_, ?_⟩
    · intro b hb'
      exact hnew b (by simpa using hb')
    · dsimp only [Op.apply]
      rw [if_neg (by simpa using hnew)]
      ext x
      simp [hperm.mem_iff]
    · by_cases hbt : b ∈ t'.inorder
      · exact ht'.holds.node_ne_none hbt
      · rw [hout b hbt]
        exact hmem b hb'
    · rw [hperm.length_eq, List.length_cons]

/-- `RB_REMOVE` does what the set operation does. -/
theorem remove_refines (ht : SearchTree key h t) (hmem : ∀ b ∈ nodes, h.node b ≠ none)
    (ha : a ∈ t.inorder) (hn : t.height < turns) :
    ∃ r h' t', exec cmp turns (.remove a) h = .ok (r, h') ∧
      (Op.remove a).Answers key t.inorder.toFinset r ∧ SearchTree key h' t' ∧
      t'.inorder.toFinset = (Op.remove a).apply key t.inorder.toFinset ∧
      (∀ b ∈ nodes, h'.node b ≠ none) ∧ t'.inorder.length ≤ t.inorder.length + 1 := by
  obtain ⟨h', t', hrun, ht', ho, hold, hout⟩ := rbRemove_mem ht ha hn.le
  refine ⟨some a, h', t', ?_, rfl, ht', ?_, fun b hb => ?_, ?_⟩
  · simp only [exec, hrun, bind, Except.bind, pure, Except.pure]
  · rw [ho]
    ext x
    simp [Op.apply, ht.ascending.nodup.mem_erase_iff]
  · by_cases hba : b = a
    · rw [hba]
      exact hold
    by_cases hbt : b ∈ t.inorder
    · refine ht'.holds.node_ne_none ?_
      rw [ho, ht.ascending.nodup.mem_erase_iff]
      exact ⟨hba, hbt⟩
    · rw [hout b hbt]
      exact hmem b hb
  · rw [ho]
    have := List.length_erase_le (a := a) (l := t.inorder)
    omega

/-- An operation that only reads. -/
theorem reads_refines {r : Option ℕ} (hrun : exec cmp turns op h = .ok (r, h))
    (ht : SearchTree key h t) (hmem : ∀ b ∈ nodes, h.node b ≠ none)
    (hop : op.apply key t.inorder.toFinset = t.inorder.toFinset)
    (hr : op.Answers key t.inorder.toFinset r) :
    ∃ r h' t', exec cmp turns op h = .ok (r, h') ∧
      op.Answers key t.inorder.toFinset r ∧ SearchTree key h' t' ∧
      t'.inorder.toFinset = op.apply key t.inorder.toFinset ∧
      (∀ b ∈ nodes, h'.node b ≠ none) ∧ t'.inorder.length ≤ t.inorder.length + 1 :=
  ⟨r, h, t, hrun, hr, ht, hop.symm, hmem, by omega⟩

/-- **Every operation does what the set operation does.** -/
theorem exec_refines (hcmp : ComparesBy cmp key) (ht : SearchTree key h t)
    (hmem : ∀ b ∈ nodes, h.node b ≠ none) (hlegal : op.Legal nodes t.inorder.toFinset)
    (hn : t.height < turns) :
    ∃ r h' t', exec cmp turns op h = .ok (r, h') ∧
      op.Answers key t.inorder.toFinset r ∧ SearchTree key h' t' ∧
      t'.inorder.toFinset = op.apply key t.inorder.toFinset ∧
      (∀ b ∈ nodes, h'.node b ≠ none) ∧ t'.inorder.length ≤ t.inorder.length + 1 := by
  have hroot : h.rbhRoot = t.top := ht.at.ctx
  have hexec : ∀ {x : Except Stop (Option ℕ)} {r : Option ℕ}, x = .ok r →
      (do pure (← x, h) : Except Stop (Option ℕ × Heap)) = .ok (r, h) := by
    rintro x r rfl
    rfl
  cases op with
  | insert a => exact insert_refines hcmp ht hmem hlegal hn
  | remove a => exact remove_refines ht hmem (List.mem_toFinset.mp hlegal) hn
  | find a =>
    have hrun := rbFind_at (a := a) hcmp ht.at ht.ascending hn.le
    rw [← hroot] at hrun
    exact reads_refines (hexec hrun) ht hmem rfl (least_find ht.ascending _)
  | nfind a =>
    have hrun : rbNfind cmp a h turns t.top none = _ :=
      rbNfind_at hcmp ht.at ht.ascending hn.le
    rw [← hroot, Option.or_none] at hrun
    exact reads_refines (hexec hrun) ht hmem rfl (least_find ht.ascending _)
  | next a =>
    obtain ⟨ys, zs, ho⟩ := List.append_of_mem (List.mem_toFinset.mp hlegal)
    have hrun := rbNext_eq ht.holds ho hn.le
    have hasc := ht.ascending
    refine reads_refines (hexec hrun) ht hmem rfl ?_
    rw [ho] at hasc ⊢
    obtain ⟨hys, hzs⟩ := ascending_neighbours hasc
    have ho' : ys ++ a :: zs = (ys ++ [a]) ++ zs := by simp
    rw [ho'] at hasc ⊢
    refine least_head hasc (fun b hb => ?_) hzs
    simp only [List.mem_append, List.mem_singleton] at hb
    rcases hb with hb | rfl
    · exact (hys b hb).not_gt
    · exact lt_irrefl _
  | prev a =>
    obtain ⟨ys, zs, ho⟩ := List.append_of_mem (List.mem_toFinset.mp hlegal)
    have hrun := rbPrev_eq ht.holds ho hn.le
    have hasc := ht.ascending
    refine reads_refines (hexec hrun) ht hmem rfl ?_
    rw [ho] at hasc ⊢
    obtain ⟨hys, hzs⟩ := ascending_neighbours hasc
    refine greatest_getLast hasc hys (fun b hb => ?_)
    rcases List.mem_cons.mp hb with rfl | hb
    · exact lt_irrefl _
    · exact (hzs b hb).not_gt
  | min =>
    refine reads_refines (hexec (rbMin_eq ht.holds hn.le)) ht hmem rfl ?_
    have hasc : Ascending key ([] ++ t.inorder) := ht.ascending
    exact least_head hasc (by simp) (by simp)
  | max =>
    refine reads_refines (hexec (rbMax_eq ht.holds hn.le)) ht hmem rfl ?_
    have hasc := ht.ascending
    rw [← List.append_nil t.inorder] at hasc
    have hg := greatest_getLast (P := fun _ => True) hasc (by simp) (by simp)
    rwa [List.append_nil] at hg

/-- A run from a tree does what the run of the set operations does. -/
theorem runFrom_refines {ops : List Op} (hcmp : ComparesBy cmp key) (ht : SearchTree key h t)
    (hmem : ∀ b ∈ nodes, h.node b ≠ none) (hlegal : LegalRun key nodes t.inorder.toFinset ops)
    (hn : 2 * Nat.log 2 (t.inorder.length + ops.length + 1) < turns) :
    ∃ rs h' t', execAll cmp turns ops h = .ok (rs, h') ∧
      RunAnswers key t.inorder.toFinset ops rs ∧ SearchTree key h' t' ∧
      t'.inorder.toFinset = applyAll key t.inorder.toFinset ops := by
  induction ops generalizing h t with
  | nil => exact ⟨[], h, t, rfl, rfl, ht, rfl⟩
  | cons op ops ih =>
    obtain ⟨hop, hops⟩ := hlegal
    have hlog : ∀ {m : ℕ}, m ≤ t.inorder.length + (op :: ops).length →
        2 * Nat.log 2 (m + 1) < turns := by
      intro m hm
      refine lt_of_le_of_lt ?_ hn
      exact Nat.mul_le_mul_left 2 (Nat.log_mono_right (by omega))
    have hheight : t.height < turns := ht.height_lt (hlog (by omega))
    obtain ⟨r, h₁, t₁, hrun, hr, ht₁, hset, hmem₁, hlen⟩ :=
      exec_refines hcmp ht hmem hop hheight
    rw [← hset] at hops
    obtain ⟨rs, h', t', hruns, hrs, ht', hset'⟩ := ih ht₁ hmem₁ hops
      (hlog (by simp only [List.length_cons]; omega))
    refine ⟨r :: rs, h', t', ?_, ⟨hr, by rwa [← hset]⟩, ht', ?_⟩
    · simp only [execAll, hrun, bind, Except.bind, hruns, pure, Except.pure]
    · rw [hset', hset]
      rfl

theorem searchTree_rbInit : SearchTree key (rbInit h) .nil := by
  refine ⟨⟨rfl, trivial, rfl, by simp [RTree.inorder], fun _ _ => rfl⟩, ⟨0, .nil⟩, ?_⟩
  simp [Ascending, RTree.inorder]

/-! ### The macros as a set -/

/-- **Any run of the macros from `RB_INIT` does what the run of the set operations does.** It never
faults, the tree after it (so after each of its steps) is a red-black search tree of height at most
`2 * log2 (n + 1)` for its `n` nodes, and no loop in it takes more turns than twice the logarithm of
the number of operations. -/
theorem run_refines {ops : List Op} (hcmp : ComparesBy cmp key)
    (hmem : ∀ b ∈ nodes, h.node b ≠ none) (hlegal : LegalRun key nodes ∅ ops)
    (hn : 2 * Nat.log 2 (ops.length + 1) < turns) :
    ∃ rs h' t', execAll cmp turns ops (rbInit h) = .ok (rs, h') ∧ RunAnswers key ∅ ops rs ∧
      SearchTree key h' t' ∧ t'.inorder.toFinset = applyAll key ∅ ops ∧
      t'.height ≤ 2 * Nat.log 2 (t'.inorder.length + 1) := by
  have hnil : ((RTree.nil : RTree ℕ).inorder.toFinset) = ∅ := rfl
  have hlegal' : LegalRun key nodes (RTree.nil : RTree ℕ).inorder.toFinset ops := hlegal
  obtain ⟨rs, h', t', hrun, hrs, ht', hset⟩ := runFrom_refines hcmp
    (searchTree_rbInit (h := h)) hmem hlegal' (by simpa [RTree.inorder] using hn)
  exact ⟨rs, h', t', hrun, by rwa [hnil] at hrs, ht', by rwa [hnil] at hset, height_le ht'.valid⟩

end

/-! ### Operations together -/

/-- Two lists of the same nodes in order are the same. -/
theorem Ascending.eq_of_perm {K : Type} [LinearOrder K] {key : ℕ → K} {xs ys : List ℕ}
    (hx : Ascending key xs) (hy : Ascending key ys) (h : xs.Perm ys) : xs = ys :=
  h.eq_of_pairwise (fun _ _ _ _ hab hba => absurd hba hab.not_gt) hx hy

section
variable {K : Type} [LinearOrder K] {key : ℕ → K} {cmp : ℕ → ℕ → ℤ} {h : Heap} {t : RTree ℕ}
  {turns n a : ℕ} {e : Entry}

/-- **`RB_REMOVE` undoes `RB_INSERT`**: the tree has its old nodes in their old order again, and
only the node that came and went, and nodes of the tree, have been written. -/
theorem insert_remove (hcmp : ComparesBy cmp key) (ht : SearchTree key h t)
    (hnew : ∀ b ∈ t.inorder, key b ≠ key a) (ha : h.node a = some e)
    (hn : 2 * Nat.log 2 (t.inorder.length + 2) < turns) :
    ∃ h₁ h₂ t₂, rbInsert cmp turns a h = .ok (none, h₁) ∧ rbRemove turns a h₁ = .ok (a, h₂) ∧
      SearchTree key h₂ t₂ ∧ t₂.inorder = t.inorder ∧
      ∀ x ∉ t.inorder, x ≠ a → h₂.node x = h.node x := by
  have hlog : 2 * Nat.log 2 (t.inorder.length + 1) < turns :=
    lt_of_le_of_lt (Nat.mul_le_mul_left 2 (Nat.log_mono_right (by omega))) hn
  obtain ⟨h₁, t₁, hins, ht₁, hperm, hout₁⟩ := rbInsert_new hcmp ht hnew ha (ht.height_lt hlog)
  have hlen : t₁.inorder.length = t.inorder.length + 1 := by rw [hperm.length_eq, List.length_cons]
  have ha₁ : a ∈ t₁.inorder := hperm.mem_iff.mpr (by simp)
  obtain ⟨h₂, t₂, hrem, ht₂, ho, -, hout₂⟩ :=
    rbRemove_mem ht₁ ha₁ (ht₁.height_lt (by rwa [hlen])).le
  have hback : (t₁.inorder.erase a).Perm t.inorder := by
    have := hperm.erase a
    rwa [List.erase_cons_head] at this
  refine ⟨h₁, h₂, t₂, hins, hrem, ht₂, ?_, fun x hx hxa => ?_⟩
  · refine Ascending.eq_of_perm ht₂.ascending ht.ascending ?_
    rwa [ho]
  · have hx₁ : x ∉ t₁.inorder := fun hm => by
      rcases List.mem_cons.mp (hperm.mem_iff.mp hm) with h1 | h1
      · exact hxa h1
      · exact hx h1
    rw [hout₂ x hx₁, hout₁ x hx₁]

/-- The two walks over a tree, for a body that leaves the tree as it is: one is a fold over the
nodes in the order of their keys, the other over the same nodes in the opposite order. -/
theorem foreach_folds {σ : Type} {heap : σ → Heap} {body : ℕ → σ → Except Stop σ} {s : σ}
    (hbody : ∀ x s s' t, SearchTree key (heap s) t → x ∈ t.inorder → body x s = .ok s' →
      ∃ t', SearchTree key (heap s') t' ∧ t'.inorder = t.inorder)
    (ht : SearchTree key (heap s) t) (hturns : 2 * Nat.log 2 (t.inorder.length + 1) ≤ turns)
    (hn : t.inorder.length ≤ n) :
    ∃ xs : List ℕ, (∀ x, x ∈ xs ↔ x ∈ t.inorder) ∧ xs.Pairwise (fun x y => key x < key y) ∧
      rbForeach heap turns body n s = xs.foldlM (fun s x => body x s) s ∧
      rbForeachReverse heap turns body n s = xs.reverse.foldlM (fun s x => body x s) s :=
  ⟨t.inorder, fun _ => Iff.rfl, ht.ascending, rbForeach_eq hbody ht hturns hn,
    rbForeachReverse_eq hbody ht hturns hn⟩

/-- `RB_REMOVE` of the node that a loop is at. -/
def removeAt (turns x : ℕ) (h : Heap) : Except Stop Heap := do
  let (_, h) ← rbRemove turns x h
  pure h

/-- A removal of each node of a tree, in order. -/
theorem removeAll_eq {xs : List ℕ} (ht : SearchTree key h t) (hxs : t.inorder = xs)
    (hn : 2 * Nat.log 2 (xs.length + 1) ≤ turns) :
    ∃ h', xs.foldlM (fun h x => removeAt turns x h) h = .ok h' ∧ SearchTree key h' .nil ∧
      ∀ x, h'.node x = none ↔ h.node x = none := by
  induction xs generalizing h t with
  | nil =>
    have hnil : t = .nil := by
      cases t with
      | nil => rfl
      | node => simp [RTree.inorder] at hxs
    exact ⟨h, rfl, hnil ▸ ht, fun _ => Iff.rfl⟩
  | cons x xs ih =>
    have hx : x ∈ t.inorder := by rw [hxs]; simp
    obtain ⟨h₁, t₁, hrun, ht₁, ho, hold, hout⟩ :=
      rbRemove_mem ht hx (height_le_of_length ht (by rw [hxs]) hn)
    rw [hxs, List.erase_cons_head] at ho
    obtain ⟨h', hruns, ht', hnodes⟩ := ih ht₁ ho
      (le_trans (Nat.mul_le_mul_left 2 (Nat.log_mono_right (by simp))) hn)
    refine ⟨h', ?_, ht', fun y => (hnodes y).trans ?_⟩
    · simp only [List.foldlM_cons, removeAt, hrun, bind, Except.bind, pure, Except.pure]
      exact hruns
    · by_cases hyt : y ∈ t.inorder
      · have hy : h.node y ≠ none := ht.holds.node_ne_none hyt
        have hy₁ : h₁.node y ≠ none := by
          by_cases hyx : y = x
          · rwa [hyx]
          · refine ht₁.holds.node_ne_none ?_
            rw [hxs] at hyt
            rw [ho]
            exact (List.mem_cons.mp hyt).resolve_left hyx
        exact ⟨fun h1 => absurd h1 hy₁, fun h1 => absurd h1 hy⟩
      · rw [hout y hyt]

/-- **`RB_FOREACH_SAFE` around `RB_REMOVE` empties the tree.** The node at hand is out of the tree,
with its links gone, when the next one is needed; nothing faults, and no node leaves memory. -/
theorem foreachSafe_empties (ht : SearchTree key h t)
    (hturns : 2 * Nat.log 2 (t.inorder.length + 1) ≤ turns) (hn : t.inorder.length ≤ n) :
    ∃ h', rbForeachSafe id turns (removeAt turns) n h = .ok h' ∧ h'.rbhRoot = none ∧
      ∀ x, h'.node x = none ↔ h.node x = none := by
  have hbody : ∀ x (s s' : Heap) t, SearchTree key (id s) t → t.height ≤ turns → x ∈ t.inorder →
      removeAt turns x s = .ok s' → ∃ t', SearchTree key (id s') t' ∧
        (t'.inorder = t.inorder ∨ t'.inorder = t.inorder.erase x) := by
    intro x s s' t ht hheight hx hrun
    obtain ⟨h₁, t₁, hrun₁, ht₁, ho, -, -⟩ := rbRemove_mem ht hx hheight
    unfold removeAt at hrun
    rw [id_eq] at hrun₁
    simp only [hrun₁, bind, Except.bind, pure, Except.pure, Except.ok.injEq] at hrun
    subst hrun
    exact ⟨t₁, ht₁, Or.inr ho⟩
  have hfold : rbForeachSafe id turns (removeAt turns) n h =
      t.inorder.foldlM (fun h x => removeAt turns x h) h := rbForeachSafe_eq hbody ht hturns hn
  obtain ⟨h', hrun, ht', hnodes⟩ := removeAll_eq ht rfl hturns
  exact ⟨h', hfold.trans hrun, ht'.holds.ctx, hnodes⟩

end

/-! ### On a small memory -/

/-- Nodes compared by their addresses. -/
def byAddress (a b : ℕ) : ℤ := a - b

theorem comparesBy_byAddress : ComparesBy byAddress (fun a => a) := by
  constructor <;> intro a b <;> unfold byAddress <;> omega

/-- A memory with a node at each address, and an empty tree. -/
def blank : Heap := ⟨none, fun _ => some ⟨none, none, none, .red⟩⟩

/-- The memory with a tree of the nodes 2, 5 and 9. -/
def three : Heap where
  rbhRoot := some 5
  node a :=
    if a = 5 then some ⟨some 2, some 9, none, .black⟩
    else some ⟨none, none, some 5, .red⟩

theorem searchTree_three {K : Type} [LinearOrder K] {key : ℕ → K} (h1 : key 2 < key 5)
    (h2 : key 5 < key 9) : SearchTree key three
      (.node .black (.node .red .nil 2 .nil) 5 (.node .red .nil 9 .nil)) := by
  refine ⟨⟨rfl, ?_, rfl, by simp [RTree.inorder], fun _ _ => rfl⟩, ⟨1, ?_⟩, ?_⟩
  · simp [Rep, three, up]
  · exact .black (.red .nil .nil) (.red .nil .nil)
  · simp [Ascending, RTree.inorder, h1, h2, h1.trans h2]

/-- Nodes come, two are asked for, and one goes. -/
theorem run_refines_blank :
    ∃ rs h' t', execAll byAddress 7
        [.insert 5, .insert 2, .insert 9, .insert 2, .insert 7, .next 5, .nfind 3, .remove 5, .min]
        (rbInit blank) = .ok (rs, h') ∧
      RunAnswers (fun a => a) ∅
        [.insert 5, .insert 2, .insert 9, .insert 2, .insert 7, .next 5, .nfind 3, .remove 5, .min]
        rs ∧
      SearchTree (fun a => a) h' t' ∧
      t'.inorder.toFinset = applyAll (fun a => a) ∅
        [.insert 5, .insert 2, .insert 9, .insert 2, .insert 7, .next 5, .nfind 3, .remove 5,
          .min] ∧
      t'.height ≤ 2 * Nat.log 2 (t'.inorder.length + 1) := by
  have hmem : ∀ b ∈ Finset.range 10, blank.node b ≠ none := by decide
  exact run_refines comparesBy_byAddress hmem (by simp [LegalRun, Op.Legal, Op.apply])
    (by decide)

/-- The node 7 comes and goes. -/
theorem insert_remove_three :
    ∃ h₁ h₂ t₂, rbInsert byAddress 5 7 three = .ok (none, h₁) ∧ rbRemove 5 7 h₁ = .ok (7, h₂) ∧
      SearchTree (fun a => a) h₂ t₂ ∧ t₂.inorder = [2, 5, 9] ∧
      ∀ x ∉ [2, 5, 9], x ≠ 7 → h₂.node x = three.node x :=
  insert_remove comparesBy_byAddress (searchTree_three (by decide) (by decide)) (by decide)
    (e := ⟨none, none, some 5, .red⟩)
    (by decide) (by decide)

/-- A body that collects the nodes. -/
def collect (x : ℕ) (s : Heap × List ℕ) : Except Stop (Heap × List ℕ) := .ok (s.1, x :: s.2)

theorem foreach_folds_three :
    ∃ xs : List ℕ, (∀ x, x ∈ xs ↔ x ∈ [2, 5, 9]) ∧ xs.Pairwise (fun x y => x < y) ∧
      rbForeach Prod.fst 4 collect 3 (three, []) = xs.foldlM (fun s x => collect x s) (three, []) ∧
      rbForeachReverse Prod.fst 4 collect 3 (three, []) =
        xs.reverse.foldlM (fun s x => collect x s) (three, []) := by
  have hbody : ∀ x (s s' : Heap × List ℕ) t, SearchTree (fun a => a) s.1 t → x ∈ t.inorder →
      collect x s = .ok s' → ∃ t', SearchTree (fun a => a) s'.1 t' ∧ t'.inorder = t.inorder := by
    intro x s s' t ht _ hrun
    cases hrun
    exact ⟨t, ht, rfl⟩
  exact @foreach_folds ℕ _ _ _ 4 3 _ Prod.fst collect (three, [])
    hbody (searchTree_three (by decide) (by decide)) (by decide)
    (by decide)

theorem foreachSafe_empties_three :
    ∃ h', rbForeachSafe id 4 (removeAt 4) 3 three = .ok h' ∧ h'.rbhRoot = none ∧
      ∀ x, h'.node x = none ↔ three.node x = none := by
  have hT : SearchTree (fun a => a) three _ := searchTree_three (by decide) (by decide)
  exact foreachSafe_empties hT (by decide) (by decide)

end Ext4Fsd.Common.DrvTree
