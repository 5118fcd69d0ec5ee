import Ext4Fsd.Common.TreeRemove

/-! # Looking up and walking through a red-black tree

What the macros that only read come to on a search tree, as facts about its nodes in order:
`RB_FIND` is the node with the key, `RB_NFIND` the first that is not below it, `RB_MIN` and `RB_MAX`
the ends, `RB_NEXT` and `RB_PREV` the neighbours. So `RB_FOREACH` is a fold over the nodes in order,
and `RB_FOREACH_SAFE` over the nodes there were at its start, also when its body removes the node it
is at. -/

namespace Ext4Fsd.Common.DrvTree

open Ext4Fsd.Lib.RbTree

section
variable {h₀ h : Heap} {xs ys zs : List ℕ} {d : Side} {c : Color} {a n turns : ℕ}
    {l r s t : RTree ℕ}
  {f g : Frame ℕ} {fs gs : List (Frame ℕ)}

/-! ### Searches -/

section
variable {K : Type} [LinearOrder K] {key : ℕ → K} {cmp : ℕ → ℕ → ℤ}

theorem ascending_node (h : Ascending key (RTree.node c l a r).inorder) :
    Ascending key l.inorder ∧ Ascending key r.inorder ∧ (∀ x ∈ l.inorder, key x < key a) ∧
      ∀ x ∈ r.inorder, key a < key x := by
  have h' : Ascending key (plug [] (RTree.node c l a r)).inorder := h
  obtain ⟨hl, hr, -⟩ := ascending_parts h'
  unfold Ascending at h ⊢
  simp only [RTree.inorder, List.pairwise_append, List.pairwise_cons] at h
  exact ⟨h.1, h.2.1.2, hl, hr⟩

/-- The node of a key, from what is known of the nodes. -/
theorem find_key_eq {k : K} {r : Option ℕ} (hr : ∀ a, r = some a ↔ a ∈ xs ∧ key a = k) :
    xs.find? (fun b => key b = k) = r := by
  cases hf : xs.find? (fun b => decide (key b = k)) with
  | none =>
    rw [List.find?_eq_none] at hf
    cases r with
    | none => rfl
    | some a =>
      obtain ⟨ha, hk⟩ := (hr a).mp rfl
      exact absurd (decide_eq_true hk) (hf a ha)
  | some a =>
    have hk : key a = k := by simpa using List.find?_some hf
    exact ((hr a).mpr ⟨List.mem_of_find?_eq_some hf, hk⟩).symm

/-- **`RB_FIND`** returns the node with the key, or null. -/
theorem rbFind_at (hcmp : ComparesBy cmp key) (hat : At h₀ xs h fs t)
    (hasc : Ascending key t.inorder) (hn : t.height ≤ n) :
    rbFind cmp a h n t.top = .ok (t.inorder.find? fun b => key b = key a) := by
  induction t generalizing fs n with
  | nil => cases n <;> rfl
  | node c l b r ihl ihr =>
    simp only [RTree.height] at hn
    obtain ⟨n, rfl⟩ : ∃ k, n = k + 1 := ⟨n - 1, by omega⟩
    obtain ⟨hl, hr, hlb, hbr⟩ := ascending_node hasc
    have hent := At.entry_eq (d := .left) hat
    have hatl : At h₀ xs h (⟨.left, c, b, r⟩ :: fs) l := at_cons.mpr hat
    have hatr : At h₀ xs h (⟨.right, c, b, l⟩ :: fs) r := at_cons.mpr hat
    have hil := ihl hatl hl (n := n) (by omega)
    have hir := ihr hatr hr (n := n) (by omega)
    simp only [top_node, rbFind, hcmp.neg, gt_iff_lt, hent, bind, Except.bind, Entry.of,
      RTree.inorder, List.find?_append, List.find?_cons]
    have hpos : 0 < cmp a b ↔ key b < key a := hcmp.pos a b
    simp only [hpos]
    rcases lt_trichotomy (key a) (key b) with hlt | heq | hgt
    · have hnone : r.inorder.find? (fun x => key x = key a) = none := by
        rw [List.find?_eq_none]
        intro x hx
        simpa using (hlt.trans (hbr x hx)).ne'
      rw [if_pos hlt, hil, hnone]
      simp [hlt.ne']
    · have hnone : l.inorder.find? (fun x => key x = key a) = none := by
        rw [List.find?_eq_none]
        intro x hx
        simpa [heq] using (hlb x hx).ne
      rw [if_neg heq.not_lt, if_neg heq.not_gt, hnone]
      simp [heq, pure, Except.pure]
    · have hnone : l.inorder.find? (fun x => key x = key a) = none := by
        rw [List.find?_eq_none]
        intro x hx
        simpa using ((hlb x hx).trans hgt).ne
      rw [if_neg (not_lt.mpr hgt.le), if_pos hgt, hir, hnone]
      simp [hgt.ne]

/-- **`RB_NFIND`** returns the first node in order whose key is not less. -/
theorem rbNfind_at {res : Option ℕ} (hcmp : ComparesBy cmp key) (hat : At h₀ xs h fs t)
    (hasc : Ascending key t.inorder) (hn : t.height ≤ n) :
    rbNfind cmp a h n t.top res = .ok ((t.inorder.find? fun b => key a ≤ key b).or res) := by
  induction t generalizing fs n res with
  | nil => cases n <;> rfl
  | node c l b r ihl ihr =>
    simp only [RTree.height] at hn
    obtain ⟨n, rfl⟩ : ∃ k, n = k + 1 := ⟨n - 1, by omega⟩
    obtain ⟨hl, hr, hlb, hbr⟩ := ascending_node hasc
    have hent := At.entry_eq (d := .left) hat
    have hatl : At h₀ xs h (⟨.left, c, b, r⟩ :: fs) l := at_cons.mpr hat
    have hatr : At h₀ xs h (⟨.right, c, b, l⟩ :: fs) r := at_cons.mpr hat
    have hil : rbNfind cmp a h n l.top (some b) = _ := ihl hatl hl (by omega)
    have hir : rbNfind cmp a h n r.top res = _ := ihr hatr hr (by omega)
    simp only [top_node, rbNfind, hcmp.neg, gt_iff_lt, hent, bind, Except.bind, Entry.of,
      RTree.inorder, List.find?_append, List.find?_cons]
    have hpos : 0 < cmp a b ↔ key b < key a := hcmp.pos a b
    simp only [hpos]
    have hnone : key b ≤ key a → l.inorder.find? (fun x => key a ≤ key x) = none := by
      intro hle
      rw [List.find?_eq_none]
      intro x hx
      simpa using (hlb x hx).trans_le hle
    rcases lt_trichotomy (key a) (key b) with hlt | heq | hgt
    · rw [if_pos hlt, hil]
      simp [hlt.le]
    · rw [if_neg heq.not_lt, if_neg heq.not_gt, hnone heq.ge]
      simp [heq, pure, Except.pure]
    · rw [if_neg (not_lt.mpr hgt.le), if_pos hgt, hir, hnone hgt.le]
      simp [not_le.mpr hgt]

end

/-! ### The ends -/

/-- `RB_MIN` and `RB_MAX` below a node. -/
theorem rbMinmax_at {val : ℤ} (d : Side) (hd : val < 0 ↔ d = .left) (hat : At h₀ xs h fs t)
    (hn : t.height ≤ n) (p : Option ℕ) :
    rbMinmax val h n t.top p = .ok (if t = .nil then p else
      match d with
      | .left => t.inorder.head?
      | .right => t.inorder.getLast?) := by
  induction t generalizing fs n p with
  | nil => cases n <;> rfl
  | node c l b r ihl ihr =>
    simp only [RTree.height] at hn
    obtain ⟨n, rfl⟩ : ∃ k, n = k + 1 := ⟨n - 1, by omega⟩
    have hent := At.entry_eq (d := .left) hat
    have hatl : At h₀ xs h (⟨.left, c, b, r⟩ :: fs) l := at_cons.mpr hat
    have hatr : At h₀ xs h (⟨.right, c, b, l⟩ :: fs) r := at_cons.mpr hat
    have hil := ihl hatl (n := n) (by omega) (some b)
    have hir := ihr hatr (n := n) (by omega) (some b)
    simp only [top_node, rbMinmax, hd, hent, bind, Except.bind, Entry.of]
    cases d with
    | left =>
      rw [if_pos rfl, hil]
      cases l with
      | nil => simp [RTree.inorder]
      | node => simp [RTree.inorder]
    | right =>
      rw [if_neg (by decide), hir]
      cases r with
      | nil => simp [RTree.inorder]
      | node => simp [RTree.inorder, List.getLast?_append, List.getLast?_cons]

/-! ### The neighbours -/

/-- The first node above the place that is not on side `d` of it. -/
def beyond (d : Side) : List (Frame ℕ) → Option ℕ
  | [] => none
  | f :: fs => if f.side = d then beyond d fs else some f.label

theorem beyond_right (fs : List (Frame ℕ)) : beyond .right fs = (after fs).head? := by
  induction fs with
  | nil => rfl
  | cons f fs ih =>
    rcases f with ⟨_ | _, c, a, s⟩
    · simp [beyond, after]
    · simpa [beyond, after] using ih

theorem beyond_left (fs : List (Frame ℕ)) : beyond .left fs = (before fs).getLast? := by
  induction fs with
  | nil => rfl
  | cons f fs ih =>
    rcases f with ⟨_ | _, c, a, s⟩
    · simpa [beyond, before] using ih
    · simp [beyond, before, List.getLast?_append]

/-- The way up ends at the first node that is not passed. -/
theorem stepUp_at (hat : At h₀ xs h fs t) (htop : t.top = some a) (hn : fs.length < n) :
    stepUp d h n a = .ok (beyond d fs) := by
  induction n generalizing fs t a with
  | zero => omega
  | succ n ih =>
    obtain ⟨t₁, t₂, he⟩ := eq_fork_of_top .left htop
    have hat' := he ▸ hat
    unfold stepUp
    simp only [hat'.entry_eq, bind, Except.bind, rbeParent_of]
    rcases fs with _ | ⟨f, fs⟩
    · rfl
    · have hside := hat.child_eq_iff (fun hnil => by rw [hnil] at htop; cases htop) d
      rw [htop] at hside
      simp only [up_cons, hat.entry_up, htop, hside, beyond]
      split
      · exact ih (at_cons.mp hat) top_fork (by simp only [List.length_cons] at hn; omega)
      · rfl

/-- The next node on side `d` of a node: the nearest end of its tree there, or the first node above
that is not on that side of it. -/
theorem rbStep_at (hat : At h₀ xs h fs (fork d c t a s)) (hn : fs.length + (t.height + 1) ≤ n) :
    (t = .nil ∧ rbStep d n a h = .ok (beyond d fs)) ∨
      ∃ gs c' b u, t = plug gs (fork d.flip c' .nil b u) ∧ (∀ f ∈ gs, f.side = d.flip) ∧
        rbStep d n a h = .ok (some b) := by
  have hent := hat.entry_eq
  have hat' : At h₀ xs h (⟨d, c, a, s⟩ :: fs) t := at_cons.mpr hat
  by_cases ht : t = .nil
  · subst ht
    refine Or.inl ⟨rfl, ?_⟩
    have hup := stepUp_at (d := d) hat top_fork (n := n) (by omega)
    unfold rbStep
    simp only [hent, bind, Except.bind, child_of, top_nil, ne_eq, not_true_eq_false, if_false,
      rbeParent_of]
    rcases fs with _ | ⟨f, fs⟩
    · exact hup
    · have hne : fork d c .nil a s ≠ .nil := fun hnil => by cases d <;> cases hnil
      have hside := hat.child_eq_iff (fun hnil => absurd hnil hne) d.flip
      rw [top_fork] at hside
      simp only [up_cons, hat.entry_up, top_fork, hside]
      split
      · rename_i hf
        simp [beyond, hf, pure, Except.pure]
      · exact hup
  · refine Or.inr ?_
    obtain ⟨gs, c', b, u, rfl, hgs, hrun⟩ := extreme_at d.flip hat' ht (n := n) (by omega)
    refine ⟨gs, c', b, u, rfl, hgs, ?_⟩
    unfold rbStep
    simp only [hent, bind, Except.bind, child_of]
    rw [if_pos (fun hnone => ht (top_eq_none.mp hnone)), hrun]

theorem after_of_right (hgs : ∀ f ∈ gs, f.side = .right) : after gs = ([] : List ℕ) := by
  induction gs with
  | nil => rfl
  | cons g gs ih =>
    obtain ⟨d, c, a, s⟩ := g
    obtain rfl : d = .right := hgs _ (List.mem_cons_self)
    exact ih fun f hf => hgs f (List.mem_cons_of_mem _ hf)

/-- A node of a tree in memory stands between the parts of the tree before and after it. -/
theorem Holds.exists_at (ht : Holds h t) (ho : t.inorder = ys ++ a :: zs) :
    ∃ fs c l r, At h t.inorder h fs (.node c l a r) ∧
    fs.length + (RTree.node c l a r).height ≤ t.height ∧
      ys = before fs ++ l.inorder ∧ zs = r.inorder ++ after fs := by
  obtain ⟨fs, c, l, r, rfl⟩ := exists_place (a := a) (t := t) (by rw [ho]; simp)
  have hlen : (RTree.node c l a r).height + fs.length ≤ (plug fs (.node c l a r)).height :=
    height_plug_le
  refine ⟨fs, c, l, r, at_of_holds ht, by omega, ?_⟩
  have hn := ht.nodup
  have ho' : before fs ++ l.inorder ++ a :: (r.inorder ++ after fs) = ys ++ a :: zs := by
    rw [← ho, inorder_plug]
    simp [RTree.inorder]
  rw [ho, ← ho', List.nodup_middle, List.nodup_cons, List.mem_append, not_or] at hn
  obtain ⟨h1, -, h2⟩ := (List.append_cons_inj_of_notMem hn.1.1 hn.1.2).mp ho'
  exact ⟨h1.symm, h2.symm⟩

/-- **`RB_NEXT`** returns the next node in order, or null at the last. -/
theorem rbNext_eq (ht : Holds h t) (ho : t.inorder = ys ++ a :: zs) (hn : t.height ≤ n) :
    rbNext n a h = .ok zs.head? := by
  unfold rbNext
  obtain ⟨fs, c, l, r, hat, hlen, -, rfl⟩ := ht.exists_at ho
  have hat' : At h t.inorder h fs (fork .right c r a l) := hat
  have hr : r.height + 1 ≤ (RTree.node c l a r).height := by simp [RTree.height]
  rcases rbStep_at hat' (n := n) (by omega) with ⟨rfl, hrun⟩ | ⟨gs, c', b, u, rfl, hgs, hrun⟩
  · rw [beyond_right] at hrun
    simpa [RTree.inorder] using hrun
  · rw [inorder_plug, before_of_left hgs]
    simpa [fork, Side.flip, RTree.inorder] using hrun

/-- **`RB_PREV`** returns the previous node in order, or null at the first. -/
theorem rbPrev_eq (ht : Holds h t) (ho : t.inorder = ys ++ a :: zs) (hn : t.height ≤ n) :
    rbPrev n a h = .ok ys.getLast? := by
  unfold rbPrev
  obtain ⟨fs, c, l, r, hat, hlen, rfl, -⟩ := ht.exists_at ho
  have hat' : At h t.inorder h fs (fork .left c l a r) := hat
  have hl : l.height + 1 ≤ (RTree.node c l a r).height := by simp [RTree.height]
  rcases rbStep_at hat' (n := n) (by omega) with ⟨rfl, hrun⟩ | ⟨gs, c', b, u, rfl, hgs, hrun⟩
  · rw [beyond_left] at hrun
    simpa [RTree.inorder] using hrun
  · rw [inorder_plug, after_of_right hgs]
    simpa [fork, Side.flip, RTree.inorder, List.getLast?_append] using hrun

/-- `RB_MIN` returns the first node in order. -/
theorem rbMin_eq (ht : Holds h t) (hn : t.height ≤ n) : rbMin n h = .ok t.inorder.head? := by
  have hroot : h.rbhRoot = t.top := ht.ctx
  unfold rbMin
  rw [hroot, rbMinmax_at .left (by simp) ht hn]
  split
  · rename_i hnil
    rw [hnil]
    rfl
  · rfl

/-- `RB_MAX` returns the last node in order. -/
theorem rbMax_eq (ht : Holds h t) (hn : t.height ≤ n) : rbMax n h = .ok t.inorder.getLast? := by
  have hroot : h.rbhRoot = t.top := ht.ctx
  unfold rbMax
  rw [hroot, rbMinmax_at .right (by simp) ht hn]
  split
  · rename_i hnil
    rw [hnil]
    rfl
  · rfl

/-! ### The loops over a tree -/

section
variable {K σ : Type} [LinearOrder K] {key : ℕ → K} {heap : σ → Heap}
  {body : ℕ → σ → Except Stop σ}

theorem height_le_of_length {m : ℕ} (ht : SearchTree key h t) (hlen : t.inorder.length ≤ m)
    (hm : 2 * Nat.log 2 (m + 1) ≤ n) : t.height ≤ n := by
  have h1 := height_le ht.valid
  have h2 : Nat.log 2 (t.inorder.length + 1) ≤ Nat.log 2 (m + 1) := Nat.log_mono_right (by omega)
  omega

/-- The rest of a walk of `RB_FOREACH`. -/
theorem foreachFrom_eq {s : σ}
    (hbody : ∀ x s s' t, SearchTree key (heap s) t → x ∈ t.inorder → body x s = .ok s' →
      ∃ t', SearchTree key (heap s') t' ∧ t'.inorder = t.inorder)
    (ht : SearchTree key (heap s) t) (ho : t.inorder = ys ++ zs)
    (hturns : 2 * Nat.log 2 (t.inorder.length + 1) ≤ turns) (hn : zs.length ≤ n) :
    foreachFrom heap turns body n zs.head? s = zs.foldlM (fun s x => body x s) s := by
  induction zs generalizing ys t n s with
  | nil => cases n <;> rfl
  | cons x zs ih =>
    obtain ⟨n, rfl⟩ : ∃ k, n = k + 1 := ⟨n - 1, by simp only [List.length_cons] at hn; omega⟩
    simp only [List.head?_cons, foreachFrom, List.foldlM_cons, bind, Except.bind]
    cases hx : body x s with
    | error e => rfl
    | ok s' =>
      obtain ⟨t', ht', ho'⟩ := hbody x s s' t ht (by rw [ho]; simp) hx
      have hnext := rbNext_eq ht'.holds (ho'.trans ho) (n := turns)
        (height_le_of_length ht' (m := t.inorder.length) (by rw [ho']) hturns)
      simp only [hnext]
      have ho'' : t'.inorder = (ys ++ [x]) ++ zs := by
        rw [ho', ho]
        simp
      refine ih ht' ho'' (by rwa [ho']) ?_
      simp only [List.length_cons] at hn
      omega

/-- **`RB_FOREACH` is a fold over the nodes in the order of their keys**, for a body that leaves the
tree as it is. -/
theorem rbForeach_eq {s : σ}
    (hbody : ∀ x s s' t, SearchTree key (heap s) t → x ∈ t.inorder → body x s = .ok s' →
      ∃ t', SearchTree key (heap s') t' ∧ t'.inorder = t.inorder)
    (ht : SearchTree key (heap s) t) (hturns : 2 * Nat.log 2 (t.inorder.length + 1) ≤ turns)
    (hn : t.inorder.length ≤ n) :
    rbForeach heap turns body n s = t.inorder.foldlM (fun s x => body x s) s := by
  have hmin := rbMin_eq ht.holds (n := turns) (height_le_of_length ht le_rfl hturns)
  unfold rbForeach
  simp only [hmin, bind, Except.bind]
  exact foreachFrom_eq hbody ht (List.nil_append _).symm hturns hn

/-- The rest of a walk of `RB_FOREACH_REVERSE`. -/
theorem foreachReverseFrom_eq {s : σ}
    (hbody : ∀ x s s' t, SearchTree key (heap s) t → x ∈ t.inorder → body x s = .ok s' →
      ∃ t', SearchTree key (heap s') t' ∧ t'.inorder = t.inorder)
    (ht : SearchTree key (heap s) t) (ho : t.inorder = ys.reverse ++ zs)
    (hturns : 2 * Nat.log 2 (t.inorder.length + 1) ≤ turns) (hn : ys.length ≤ n) :
    foreachReverseFrom heap turns body n ys.head? s = ys.foldlM (fun s x => body x s) s := by
  induction ys generalizing zs t n s with
  | nil => cases n <;> rfl
  | cons x ys ih =>
    obtain ⟨n, rfl⟩ : ∃ k, n = k + 1 := ⟨n - 1, by simp only [List.length_cons] at hn; omega⟩
    have ho' : t.inorder = ys.reverse ++ x :: zs := by
      rw [ho]
      simp
    simp only [List.head?_cons, foreachReverseFrom, List.foldlM_cons, bind, Except.bind]
    cases hx : body x s with
    | error e => rfl
    | ok s' =>
      obtain ⟨t', ht', hsame⟩ := hbody x s s' t ht (by rw [ho']; simp) hx
      have hprev := rbPrev_eq ht'.holds (hsame.trans ho') (n := turns)
        (height_le_of_length ht' (m := t.inorder.length) (by rw [hsame]) hturns)
      rw [List.getLast?_reverse] at hprev
      simp only [hprev]
      refine ih ht' (hsame.trans ho') (by rwa [hsame]) ?_
      simp only [List.length_cons] at hn
      omega

/-- **`RB_FOREACH_REVERSE` is a fold over the nodes from the greatest key to the least.** -/
theorem rbForeachReverse_eq {s : σ}
    (hbody : ∀ x s s' t, SearchTree key (heap s) t → x ∈ t.inorder → body x s = .ok s' →
      ∃ t', SearchTree key (heap s') t' ∧ t'.inorder = t.inorder)
    (ht : SearchTree key (heap s) t) (hturns : 2 * Nat.log 2 (t.inorder.length + 1) ≤ turns)
    (hn : t.inorder.length ≤ n) :
    rbForeachReverse heap turns body n s = t.inorder.reverse.foldlM (fun s x => body x s) s := by
  have hmax := rbMax_eq ht.holds (n := turns) (height_le_of_length ht le_rfl hturns)
  unfold rbForeachReverse
  simp only [hmax, bind, Except.bind]
  rw [← List.head?_reverse]
  have ho : t.inorder = t.inorder.reverse.reverse ++ [] := by simp
  exact foreachReverseFrom_eq hbody ht ho hturns (by simpa using hn)

/-- The rest of a walk of `RB_FOREACH_SAFE`. -/
theorem foreachSafeFrom_eq {s : σ}
    (hbody : ∀ x s s' t, SearchTree key (heap s) t → t.height ≤ turns → x ∈ t.inorder →
      body x s = .ok s' → ∃ t', SearchTree key (heap s') t' ∧
        (t'.inorder = t.inorder ∨ t'.inorder = t.inorder.erase x))
    (ht : SearchTree key (heap s) t) (ho : t.inorder = ys ++ zs)
    (hturns : 2 * Nat.log 2 (t.inorder.length + 1) ≤ turns) (hn : zs.length ≤ n) :
    foreachSafeFrom heap turns body n zs.head? s = zs.foldlM (fun s x => body x s) s := by
  induction zs generalizing ys t n s with
  | nil => cases n <;> rfl
  | cons x zs ih =>
    obtain ⟨n, rfl⟩ : ∃ k, n = k + 1 := ⟨n - 1, by simp only [List.length_cons] at hn; omega⟩
    have hheight := height_le_of_length ht le_rfl hturns
    have hnext := rbNext_eq ht.holds ho hheight
    simp only [List.head?_cons, foreachSafeFrom, hnext, List.foldlM_cons, bind, Except.bind]
    cases hx : body x s with
    | error e => rfl
    | ok s' =>
      have hlen : zs.length ≤ n := by
        simp only [List.length_cons] at hn
        omega
      obtain ⟨t', ht', ho' | ho'⟩ := hbody x s s' t ht hheight (by rw [ho]; simp) hx
      · have ho'' : t'.inorder = (ys ++ [x]) ++ zs := by
          rw [ho', ho]
          simp
        exact ih ht' ho'' (by rwa [ho']) hlen
      · have hnd := ht.ascending.nodup
        rw [ho, List.nodup_append] at hnd
        have hys : x ∉ ys := fun hm => hnd.2.2 x hm x (by simp) rfl
        have ho'' : t'.inorder = ys ++ zs := by rw [ho', ho, erase_middle hys]
        refine ih ht' ho'' ?_ hlen
        refine le_trans (Nat.mul_le_mul_left 2 (Nat.log_mono_right ?_)) hturns
        rw [ho'', ho]
        simp

/-- **`RB_FOREACH_SAFE` is a fold over the nodes there were at its start**, in the order of their
keys, for a body that leaves the tree as it is or removes the node it is at. -/
theorem rbForeachSafe_eq {s : σ}
    (hbody : ∀ x s s' t, SearchTree key (heap s) t → t.height ≤ turns → x ∈ t.inorder →
      body x s = .ok s' → ∃ t', SearchTree key (heap s') t' ∧
        (t'.inorder = t.inorder ∨ t'.inorder = t.inorder.erase x))
    (ht : SearchTree key (heap s) t) (hturns : 2 * Nat.log 2 (t.inorder.length + 1) ≤ turns)
    (hn : t.inorder.length ≤ n) :
    rbForeachSafe heap turns body n s = t.inorder.foldlM (fun s x => body x s) s := by
  have hmin := rbMin_eq ht.holds (n := turns) (height_le_of_length ht le_rfl hturns)
  unfold rbForeachSafe
  simp only [hmin, bind, Except.bind]
  exact foreachSafeFrom_eq hbody ht (List.nil_append _).symm hturns hn

end

end

end Ext4Fsd.Common.DrvTree
