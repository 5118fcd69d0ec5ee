import Ext4Fsd.Common.TreeInMemory

/-! # Insertion into a red-black tree

`RB_INSERT_COLOR` starts with a red node that may have a red parent. `RedAt` is what its turns keep:
the tree below the node is a red-black tree with a red root, and stands where one with a black root
would fit. A turn moves the node up (`insertColorSide_redAt`), and where it stops the whole is a
red-black tree (`rbInsertColor_valid`). `RB_INSERT` searches for the place first (`rbInsert_new`,
`rbInsert_present`). -/

namespace Ext4Fsd.Common.DrvTree

open Ext4Fsd.Lib.RbTree

section
variable {h₀ h : Heap} {xs : List ℕ} {d : Side} {c : Color} {a k m : ℕ} {p : Option ℕ}
  {s t u : RTree ℕ} {f g : Frame ℕ} {fs gs : List (Frame ℕ)}

/-! ### Reading colours -/

theorem isRed_eq (ht : Rep h p t) : isRed t.top h = .ok (t.color = .red) := by
  cases t with
  | nil => rfl
  | node c l a r =>
    have ha := entry_eq ht.1
    unfold isRed
    simp only [RTree.top, ne_eq, reduceCtorEq, not_false_eq_true, if_true, ha, bind, Except.bind,
      pure, Except.pure, RTree.color]
    rfl

theorem isBlack_eq (ht : Rep h p t) : isBlack t.top h = .ok (t.color = .black) := by
  cases t with
  | nil => rfl
  | node c l a r =>
    have ha := entry_eq ht.1
    unfold isBlack
    simp only [RTree.top, ne_eq, reduceCtorEq, not_false_eq_true, if_true, ha, bind, Except.bind,
      pure, Except.pure, RTree.color]
    rfl

/-- The node above the place is read. -/
theorem At.entry_up (ht : At h₀ xs h (f :: fs) t) :
    entry (some f.label) h = .ok (Entry.of f.side t.top f.sibling.top (up fs) f.color) :=
  At.entry_eq (at_cons.mp ht)

theorem At.isRed_up (ht : At h₀ xs h (f :: fs) t) :
    isRed (some f.label) h = .ok (f.color = .red) := by
  unfold isRed
  simp only [ne_eq, reduceCtorEq, not_false_eq_true, if_true, ht.entry_up, bind, Except.bind, pure,
    Except.pure, rbeColor_of]

/-- The node above the place has the hole for its child on a side just when that is the side. -/
theorem At.child_eq_iff (ht : At h₀ xs h (f :: fs) t) (hne : t = .nil → f.sibling ≠ .nil)
    (d : Side) :
    (Entry.of f.side t.top f.sibling.top (up fs) f.color).child d = t.top ↔ f.side = d := by
  have hne : f.sibling.top ≠ t.top := by
    intro he
    cases htop : t.top with
    | none =>
      rw [htop] at he
      exact hne (top_eq_none.mp htop) (top_eq_none.mp he)
    | some a =>
      rw [htop] at he
      have hap := (at_cons.mp ht).apart
      exact (hap.2.2.2.2.2.2.1 a (mem_of_top htop)).1 (mem_of_top he)
  rcases f with ⟨_ | _, c, l, s⟩ <;> cases d <;> simp_all [Entry.of, Entry.child]

theorem rbSetBlackred_at {b r : ℕ} (ht : At h₀ xs h (f :: fs) t) (hb : t.top = some b)
    (hr : f.label = r) :
    ∃ h', rbSetBlackred (some b) (some r) h = .ok h' ∧
      At h₀ xs h' ({ f with color := .red } :: fs) (t.paint .black) := by
  obtain ⟨h1, hrun1, h1at⟩ := setColor_at ht hb .black
  have htop : (f.fill (t.paint .black)).top = some r := by
    rw [← hr]
    exact top_fork
  obtain ⟨h2, hrun2, h2at⟩ := setColor_at (at_cons.mp h1at) htop .red
  refine ⟨h2, ?_, ?_⟩
  · unfold rbSetBlackred
    simp only [hrun1, bind, Except.bind, hrun2]
  · rw [at_cons]
    simpa [Frame.fill] using h2at

/-! ### The repair after an insertion -/

/-- What the turns of `RB_INSERT_COLOR` keep: `a` is at depth `k`, it is red, and its subtree stands
where a tree with a black root would fit. -/
def RedAt (h₀ : Heap) (xs : List ℕ) (h : Heap) (a k : ℕ) : Prop :=
  ∃ fs t m, fs.length = k ∧ At h₀ xs h fs t ∧ t.top = some a ∧ IsRb .red m t ∧ Hole fs .black m

theorem isRb_red_fork (d : Side) (ht : IsRb .red m t) (htop : t.top = some a) :
    ∃ t₁ t₂, t = fork d .red t₁ a t₂ ∧ IsRb .black m t₁ ∧ IsRb .black m t₂ := by
  obtain ⟨t₁, t₂, he⟩ := eq_fork_of_top d htop
  rw [ht.color_eq] at he
  rw [he, isRb_fork_red] at ht
  exact ⟨t₁, t₂, he, ht.2⟩

/-- The uncle is black: after at most two rotations the parent of the node is black. -/
theorem insertColorRotate_redAt (hat : At h₀ xs h (f :: g :: gs) t) (htop : t.top = some a)
    (ht : IsRb .red m t) (hf : f.color = .red) (hg : g.color = .black)
    (hs : IsRb .black m f.sibling)
    (hu : IsRb .black m g.sibling) (hgs : Hole gs .black (m + 1)) :
    ∃ h' a', insertColorRotate g.side (some a) (some f.label) (some g.label) h =
        .ok (some a', h') ∧ RedAt h₀ xs h' a' (gs.length + 1) := by
  obtain ⟨d, cg, lg, u⟩ := g
  obtain ⟨df, cf, lf, s⟩ := f
  obtain rfl : cf = .red := hf
  obtain rfl : cg = .black := hg
  have hif := hat.child_eq_iff (fun hnil => by rw [hnil] at htop; cases htop) d.flip
  rw [htop] at hif
  unfold insertColorRotate
  simp only [hat.entry_up, htop, bind, Except.bind, hif]
  split
  · -- the node is on the inside: it is rotated outside first
    rename_i hdf
    subst hdf
    obtain ⟨t₁, t₂, rfl, ht₁, ht₂⟩ := isRb_red_fork d ht htop
    have hat1 : At h₀ xs h (⟨d, .black, lg, u⟩ :: gs)
        (fork d .red s lf (fork d .red t₁ a t₂)) := by
      have h1 := at_cons.mp hat
      unfold Frame.fill at h1
      rwa [fork_flip] at h1
    obtain ⟨h1, hrun1, h1at⟩ := rotate_at hat1
    obtain ⟨h2, hrun2, h2at⟩ := rbSetBlackred_at h1at (top_fork) rfl
    rw [paint_fork] at h2at
    have h2at' : At h₀ xs h2 gs
        (fork d.flip .red u lg (fork d.flip .black t₂ a (fork d .red s lf t₁))) := by
      have h3 := at_cons.mp h2at
      unfold Frame.fill at h3
      rwa [← fork_flip, ← fork_flip d .black] at h3
    obtain ⟨h3, hrun3, h3at⟩ := rotate_at h2at'
    refine ⟨h3, lf, ?_, ⟨d, .black, a, fork d.flip .red u lg t₂⟩ :: gs, fork d .red s lf t₁, m, rfl,
      ?_, top_fork, isRb_fork_red.mpr ⟨rfl, hs, ht₁⟩, hole_cons.mpr (Or.inr ⟨rfl, ?_, hgs⟩)⟩
    · simp only [hrun1, hrun2, hrun3, pure, Except.pure]
    · rw [at_cons]
      unfold Frame.fill
      rwa [← fork_flip]
    · exact ⟨.red, isRb_fork_red.mpr ⟨rfl, hu, ht₂⟩⟩
  · rename_i hdf
    obtain rfl : df = d := Side.eq_of_ne_flip hdf
    obtain ⟨h2, hrun2, h2at⟩ := rbSetBlackred_at (b := lf) (at_cons.mp hat) top_fork rfl
    have h2at' : At h₀ xs h2 gs
        (fork df.flip .red u lg (fork df.flip .black s lf t)) := by
      have h3 := at_cons.mp h2at
      unfold Frame.fill at h3
      rwa [paint_fork, ← fork_flip, ← fork_flip df .black] at h3
    obtain ⟨h3, hrun3, h3at⟩ := rotate_at h2at'
    refine ⟨h3, a, ?_, ⟨df, .black, lf, fork df.flip .red u lg s⟩ :: gs, t, m, rfl, ?_, htop, ht,
      hole_cons.mpr (Or.inr ⟨rfl, ?_, hgs⟩)⟩
    · simp only [hrun2, hrun3, pure, Except.pure]
    · rw [at_cons]
      unfold Frame.fill
      rwa [← fork_flip]
    · exact ⟨.red, isRb_fork_red.mpr ⟨rfl, hu, hs⟩⟩

theorem isRb_paint_black (ht : IsRb .red m t) : IsRb .black (m + 1) (t.paint .black) := by
  cases ht with
  | red hl hr => exact .black hl hr

/-- **A turn of `RB_INSERT_COLOR`** whose parent is red moves the node up. -/
theorem insertColorSide_redAt (hat : At h₀ xs h (f :: g :: gs) t) (htop : t.top = some a)
    (ht : IsRb .red m t) (hf : f.color = .red) (hfs : Hole (f :: g :: gs) .black m) :
    ∃ h' a' k, insertColorSide g.side (some a) (some f.label) (some g.label) h =
        .ok (some a', h') ∧ RedAt h₀ xs h' a' k ∧ k < gs.length + 2 := by
  obtain ⟨hs, hgfs⟩ : IsRb .black m f.sibling ∧ Hole (g :: gs) .red m := by
    rcases hole_cons.mp hfs with ⟨-, -, hs, hfs⟩ | ⟨hc, -⟩
    · exact ⟨hs, hfs⟩
    · rw [hf] at hc
      cases hc
  obtain ⟨hg, ⟨cu, hu⟩, hgs⟩ : g.color = .black ∧ Balanced m g.sibling ∧
    Hole gs .black (m + 1) := by
    rcases hole_cons.mp hgfs with ⟨-, hc, -⟩ | h
    · cases hc
    · exact h
  have hup := At.entry_up (at_cons.mp hat)
  have hrep := (rep_fork.mp (at_cons.mp (at_cons.mp hat)).rep).2.2
  unfold insertColorSide
  simp only [hup, bind, Except.bind, child_flip_of, isRed_eq hrep, hu.color_eq, decide_eq_true_eq]
  split
  · -- the uncle is red: the colours change, and the grandparent is next
    rename_i hcu
    subst hcu
    obtain ⟨d, cg, lg, u⟩ := g
    obtain ⟨df, cf, lf, s⟩ := f
    obtain rfl : cf = .red := hf
    obtain rfl : cg = .black := hg
    obtain ⟨lu, hlu⟩ : ∃ lu, u.top = some lu := by
      cases hu
      exact ⟨_, rfl⟩
    have hat1 : At h₀ xs h (⟨d.flip, .black, lg, fork df .red t lf s⟩ :: gs) u := by
      have h1 := at_cons.mp (at_cons.mp hat)
      rw [at_cons]
      unfold Frame.fill at h1 ⊢
      rwa [fork_flip]
    obtain ⟨h1, hrun1, h1at⟩ := setColor_at hat1 hlu .black
    have hat2 : At h₀ xs h1 (⟨d, .black, lg, u.paint .black⟩ :: gs) (fork df .red t lf s) := by
      rw [at_cons] at h1at ⊢
      unfold Frame.fill at h1at ⊢
      rwa [fork_flip] at h1at
    obtain ⟨h2, hrun2, h2at⟩ := rbSetBlackred_at (b := lf) hat2 top_fork rfl
    refine ⟨h2, lg, gs.length, ?_,
      ⟨gs, _, m + 1, rfl, at_cons.mp h2at, top_fork, ?_, hgs⟩, by omega⟩
    · simp only [hlu, hrun1, hrun2, pure, Except.pure]
    · refine isRb_fork_red.mpr ⟨rfl, ?_, isRb_paint_black hu⟩
      rw [paint_fork, isRb_fork_black]
      exact ⟨rfl, m, rfl, ⟨_, ht⟩, ⟨_, hs⟩⟩
  · rename_i hcu
    obtain rfl : cu = .black := Color.eq_black hcu
    obtain ⟨h', a', hrun, hred⟩ := insertColorRotate_redAt hat htop ht hf hg hs hu hgs
    exact ⟨h', a', gs.length + 1, hrun, hred, by omega⟩

theorem valid_paint_black {t : RTree ℕ} (ht : Valid t) : t.paint .black = t := by
  obtain ⟨n, hn⟩ := ht
  cases hn <;> rfl

/-- The last assignment of `RB_INSERT_COLOR`. -/
theorem setColor_root (hat : At h₀ xs h fs t) (htop : t.top = some a)
    (hv : Valid ((plug fs t).paint .black)) :
    ∃ h' T, setColor h.rbhRoot .black h = .ok h' ∧ At h₀ xs h' [] T ∧ Valid T := by
  have hmem : a ∈ (plug fs t).inorder := mem_plug.mpr (Or.inl (mem_of_top htop))
  obtain ⟨r, hr⟩ : ∃ r, (plug fs t).top = some r := by
    cases hp : plug fs t with
    | nil =>
      rw [hp] at hmem
      cases hmem
    | node c l r s => exact ⟨r, rfl⟩
  obtain ⟨h', hrun, h'at⟩ := setColor_at (at_plug.mp hat) hr .black
  refine ⟨h', _, ?_, h'at, hv⟩
  rw [hat.rbhRoot_eq, hr]
  exact hrun

/-- **`RB_INSERT_COLOR` leaves a red-black tree.** The node at depth `k` takes at most `k + 1`
turns. -/
theorem rbInsertColor_valid {n : ℕ} (hred : RedAt h₀ xs h a k) (hn : k < n) :
    ∃ h' T, rbInsertColor n (some a) h = .ok h' ∧ At h₀ xs h' [] T ∧ Valid T := by
  induction n generalizing h a k with
  | zero => omega
  | succ n ih =>
    obtain ⟨fs, t, m, rfl, hat, htop, ht, hfs⟩ := hred
    obtain ⟨t₁, t₂, rfl, ht₁, ht₂⟩ := isRb_red_fork .left ht htop
    unfold rbInsertColor
    simp only [hat.entry_eq, bind, Except.bind, rbeParent_of]
    rcases fs with _ | ⟨f, fs⟩
    · have hv : Valid ((plug [] (fork .left .red t₁ a t₂)).paint .black) :=
        ⟨m + 1, isRb_paint_black ht⟩
      obtain ⟨h', T, hrun, hT⟩ := setColor_root hat htop hv
      exact ⟨h', T, by simpa [up, isRed, pure, Except.pure] using hrun, hT⟩
    · rw [up_cons, hat.isRed_up]
      simp only [decide_eq_true_eq]
      split
      · rename_i hf
        rcases fs with _ | ⟨g, gs⟩
        · rcases hole_cons.mp hfs with ⟨-, -, -, hno⟩ | ⟨hc, -⟩
          · exact absurd hno hole_top_red
          · rw [hf] at hc
            cases hc
        · have hup := At.entry_up hat
          have hup2 := At.entry_up (at_cons.mp hat)
          have htf : (f.fill (fork .left .red t₁ a t₂)).top = some f.label := top_fork
          have hside := At.child_eq_iff (at_cons.mp hat)
            (fun hnil => by rw [hnil] at htf; cases htf) .left
          rw [htf] at hside
          obtain ⟨h', a', k', hrun, hred', hk'⟩ := insertColorSide_redAt hat htop ht hf hfs
          obtain ⟨h'', T, hrun', hT⟩ := ih hred' (by simp only [List.length_cons] at hn; omega)
          refine ⟨h'', T, ?_, hT⟩
          simp only [hup, rbeParent_of, up_cons, hup2]
          have hside' : (Entry.of g.side (some f.label) g.sibling.top (up gs) g.color).rbeLeft =
              some f.label ↔ g.side = .left := hside
          simp only [htf, hside']
          split
          · rename_i hgs
            rw [hgs] at hrun
            simp only [hrun, hrun']
          · rename_i hgs
            rw [Side.eq_right hgs] at hrun
            simp only [hrun, hrun']
      · rename_i hf
        have hf := Color.eq_black hf
        have hv : Valid (plug (f :: fs) (fork .left .red t₁ a t₂)) := by
          refine valid_plug.mpr ⟨.red, m, ht, ?_⟩
          rcases hole_cons.mp hfs with ⟨hc, -⟩ | h
          · rw [hf] at hc
            cases hc
          · exact hole_cons.mpr (Or.inr h)
        exact setColor_root hat htop (by rwa [valid_paint_black hv])

/-! ### The search for a place -/

section
variable {K : Type} [LinearOrder K] {key : ℕ → K} {cmp : ℕ → ℕ → ℤ}

/-- `cmp` compares nodes by their keys. -/
structure ComparesBy (cmp : ℕ → ℕ → ℤ) (key : ℕ → K) : Prop where
  neg (a b : ℕ) : cmp a b < 0 ↔ key a < key b
  pos (a b : ℕ) : cmp a b > 0 ↔ key b < key a

/-- The heap holds a red-black search tree. -/
structure SearchTree (key : ℕ → K) (h : Heap) (t : RTree ℕ) : Prop where
  holds : Holds h t
  valid : Valid t
  ascending : Ascending key t.inorder

/-- A search tree depends on its own nodes only. -/
theorem SearchTree.congr {h' : Heap} {key' : ℕ → K} (ht : SearchTree key h t)
    (hroot : h'.rbhRoot = h.rbhRoot) (hnode : ∀ x ∈ t.inorder, h'.node x = h.node x)
    (hkey : ∀ x ∈ t.inorder, key' x = key x) : SearchTree key' h' t := by
  obtain ⟨⟨hc, hr, ho, hn, -⟩, hv, ha⟩ := ht
  refine ⟨⟨hroot.trans hc, rep_congr hnode hr, ho, hn, fun _ _ => rfl⟩, hv, ?_⟩
  refine List.Pairwise.imp_of_mem (fun {x y} hx hy hxy => ?_) ha
  rw [hkey x hx, hkey y hy]
  exact hxy

/-- The comparison with the node above the place said on which side the place is. -/
def SideOf (comp : ℤ) (fs : List (Frame ℕ)) : Prop :=
  ∀ f gs, fs = f :: gs → (comp < 0 ↔ f.side = .left)

variable {comp : ℤ} {n : ℕ}

/-- The search of `RB_INSERT` finds the node with the key, or the place for it. -/
theorem insertSearch_eq (hcmp : ComparesBy cmp key) (hat : At h₀ xs h fs t)
    (hasc : Ascending key xs) (hst : Straddles key (key a) fs) (hcomp : SideOf comp fs)
    (hn : t.height ≤ n) :
    (∃ b par c, insertSearch cmp a h n t.top (up fs) comp = .ok (some b, par, c) ∧
        b ∈ xs ∧ key b = key a) ∨
      ∃ gs c, insertSearch cmp a h n t.top (up fs) comp = .ok (none, up gs, c) ∧
        plug gs .nil = plug fs t ∧ At h₀ xs h gs .nil ∧ Straddles key (key a) gs ∧ SideOf c gs ∧
          gs.length ≤ fs.length + t.height := by
  induction t generalizing fs comp n with
  | nil =>
    refine Or.inr ⟨fs, comp, ?_, rfl, hat, hst, hcomp, by simp [RTree.height]⟩
    simp [RTree.top, insertSearch]
  | node c l b r ihl ihr =>
    simp only [RTree.height] at hn ⊢
    obtain ⟨n, rfl⟩ : ∃ k, n = k + 1 := ⟨n - 1, by omega⟩
    have hent := At.entry_eq (d := .left) hat
    have hasc' : Ascending key (plug fs (.node c l b r)).inorder := by rwa [hat.order]
    simp only [RTree.top, insertSearch, hcmp.neg, gt_iff_lt, hent, bind, Except.bind, Entry.of]
    by_cases hlt : key a < key b
    · have hside : SideOf (cmp a b) (⟨.left, c, b, r⟩ :: fs) := by
        rintro f gs ⟨⟩
        simp [hcmp.neg, hlt]
      have ih := ihl (at_cons.mpr hat) (straddles_left hasc' hst hlt) hside (n := n) (by omega)
      rw [if_pos hlt]
      rcases ih with ih | ⟨gs, c', hrun, h0, h1, h2, h3, h4⟩
      · exact Or.inl ih
      · exact Or.inr ⟨gs, c', hrun, h0, h1, h2, h3, by simp only [List.length_cons] at h4; omega⟩
    · rw [if_neg hlt]
      by_cases hgt : key b < key a
      · have hpos : 0 < cmp a b := (hcmp.pos a b).mpr hgt
        have hside : SideOf (cmp a b) (⟨.right, c, b, l⟩ :: fs) := by
          rintro f gs ⟨⟩
          simp [hcmp.neg, hlt]
        have ih := ihr (at_cons.mpr hat) (straddles_right hasc' hst hgt) hside (n := n) (by omega)
        rw [if_pos hpos]
        rcases ih with ih | ⟨gs, c', hrun, h0, h1, h2, h3, h4⟩
        · exact Or.inl ih
        · exact Or.inr ⟨gs, c', hrun, h0, h1, h2, h3, by simp only [List.length_cons] at h4; omega⟩
      · have hpos : ¬ 0 < cmp a b := fun h => hgt ((hcmp.pos a b).mp h)
        rw [if_neg hpos]
        refine Or.inl ⟨b, some b, cmp a b, rfl, ?_, le_antisymm (not_lt.mp hlt) (not_lt.mp hgt)⟩
        rw [← hat.order, mem_plug]
        exact Or.inl (by simp [RTree.inorder])

/-! ### `RB_INSERT` -/

theorem SearchTree.at (ht : SearchTree key h t) : At h t.inorder h [] t := ht.holds

theorem SearchTree.height_lt {n : ℕ} (ht : SearchTree key h t)
    (hn : 2 * Nat.log 2 (t.inorder.length + 1) < n) : t.height < n :=
  lt_of_le_of_lt (height_le ht.valid) hn

/-- `RB_INSERT` of a key that the tree has returns the node that has it, and changes nothing. -/
theorem rbInsert_present {b : ℕ} (hcmp : ComparesBy cmp key) (ht : SearchTree key h t)
    (hb : b ∈ t.inorder) (hk : key b = key a) (hn : t.height ≤ n) :
    rbInsert cmp n a h = .ok (some b, h) := by
  have hroot : h.rbhRoot = t.top := ht.at.ctx
  have hside : SideOf 0 ([] : List (Frame ℕ)) := fun f gs hf => by cases hf
  unfold rbInsert
  rw [hroot]
  rcases insertSearch_eq hcmp ht.at ht.ascending straddles_nil hside hn with
    ⟨b', par, c, hrun, hb', hk'⟩ | ⟨gs, c, -, -, hat, hst, -⟩
  · obtain rfl : b' = b := ht.ascending.eq_of_key hb' hb (hk'.trans hk.symm)
    have hrun' : insertSearch cmp a h n t.top none 0 = .ok (some b', par, c) := hrun
    simp only [hrun', bind, Except.bind, ne_eq, reduceCtorEq, not_false_eq_true, if_true, pure,
      Except.pure]
  · rw [← hat.order] at hb
    exact absurd hk (not_mem_of_straddles hst b hb)

/-- The node that `RB_INSERT` links below the place where the search ended. -/
theorem link_at {e : Entry} (hat : At h₀ xs h gs .nil) (hcomp : SideOf comp gs)
    (ha : a ∉ xs) (hnode : h.node a = some e) :
    ∃ g h', rbSet (some a) (up gs) h = .ok g ∧
      linkChild comp (up gs) (some a) g = .ok h' ∧
      At h₀ (before gs ++ a :: after gs) h' gs (.node .red .nil a .nil) := by
  have hxs : xs = before gs ++ after gs := by
    rw [← hat.order, inorder_plug]
    simp [RTree.inorder]
  have hafs : a ∉ around gs := by
    rw [mem_around, ← List.mem_append, ← hxs]
    exact ha
  have hnfs : (around gs).Nodup := by simpa [RTree.inorder] using hat.parts
  obtain ⟨g, hg⟩ : ∃ g, g = h.set a ⟨none, none, up gs, .red⟩ := ⟨_, rfl⟩
  have hga : ∀ x, x ≠ a → g.node x = h.node x := by
    rw [hg]
    exact fun x hx => set_node_ne hx
  have hctx : RepCtx g gs none := by
    refine repCtx_congr (by rw [hg, set_rbhRoot]) (fun x hx => hga x ?_) hat.ctx
    rintro rfl
    exact hafs hx
  have hnodup : (before gs ++ a :: after gs).Nodup := by
    have h1 := hat.nodup
    rw [hxs] at h1 ha
    rw [List.nodup_middle, List.nodup_cons]
    exact ⟨ha, h1⟩
  have hlinked : ∃ h', linkChild comp (up gs) (some a) g = .ok h' ∧
      RepCtx h' gs (some a) ∧ ∀ x, x ∉ around gs → h'.node x = g.node x := by
    unfold linkChild
    rcases gs with _ | ⟨f, gs⟩
    · exact ⟨{ g with rbhRoot := some a }, rfl, rfl, fun _ _ => rfl⟩
    · obtain ⟨h', hrun, hspec⟩ := storeChild_eq hctx hnfs (some a)
      refine ⟨h', ?_, hspec⟩
      rw [if_pos (by simp), up_cons]
      simp only [hcomp f gs rfl]
      split
      · rename_i hf
        rwa [hf] at hrun
      · rename_i hf
        rwa [Side.eq_right hf] at hrun
  obtain ⟨h', hrun, hctx', hout⟩ := hlinked
  refine ⟨g, h', by rw [hg]; exact store_eq hnode, hrun, hctx', ⟨?_, trivial, trivial⟩, ?_,
    hnodup, fun x hx => ?_⟩
  · rw [hout a hafs, hg, set_node_self]
    rfl
  · rw [inorder_plug]
    simp [RTree.inorder]
  · simp only [List.mem_append, List.mem_cons, not_or] at hx
    rw [hout x (by rw [mem_around]; tauto), hga x hx.2.1, hat.out x]
    rw [hxs, List.mem_append]
    tauto

/-- **`RB_INSERT` of a new key** returns null, and the node is in the tree: again a red-black search
tree, with one node more and the memory outside it untouched. No loop takes more turns than the
height of the tree and one. -/
theorem rbInsert_new {e : Entry} (hcmp : ComparesBy cmp key) (ht : SearchTree key h t)
    (hnew : ∀ b ∈ t.inorder, key b ≠ key a) (ha : h.node a = some e) (hn : t.height < n) :
    ∃ h' t', rbInsert cmp n a h = .ok (none, h') ∧ SearchTree key h' t' ∧
      t'.inorder.Perm (a :: t.inorder) ∧ ∀ x ∉ t'.inorder, h'.node x = h.node x := by
  have hroot : h.rbhRoot = t.top := ht.at.ctx
  have hside : SideOf 0 ([] : List (Frame ℕ)) := fun f gs hf => by cases hf
  unfold rbInsert
  rw [hroot]
  rcases insertSearch_eq hcmp ht.at ht.ascending straddles_nil hside hn.le with
    ⟨b', par, c, -, hb', hk'⟩ | ⟨gs, c, hrun, hplug, hat, hst, hcomp, hlen⟩
  · exact absurd hk' (hnew b' hb')
  obtain ⟨g, h₁, hset, hlink, hat'⟩ := link_at hat hcomp (fun hm => hnew a hm rfl) ha
  have hord : t.inorder = before gs ++ after gs := by
    rw [← hat.order, inorder_plug]
    simp [RTree.inorder]
  have hhole : Hole gs .black 0 := by
    have hv : Valid (plug gs .nil) := by rw [hplug]; exact ht.valid
    obtain ⟨c', n', hc', hh⟩ := valid_plug.mp hv
    cases hc'
    exact hh
  have hred : RedAt h (before gs ++ a :: after gs) h₁ a gs.length :=
    ⟨gs, _, 0, rfl, hat', rfl, .red .nil .nil, hhole⟩
  have hlen' : gs.length < n := by
    simp only [List.length_nil] at hlen
    omega
  obtain ⟨h', t', hcol, hat'', hv⟩ := rbInsertColor_valid hred hlen'
  have ho : t'.inorder = before gs ++ a :: after gs := hat''.order
  have hrun' : insertSearch cmp a h n t.top none 0 = .ok (none, up gs, c) := hrun
  refine ⟨h', t', ?_, ⟨holds_of_at hat'', hv, ?_⟩, ?_, ?_⟩
  · simp only [hrun', bind, Except.bind, ne_eq, not_true_eq_false, if_false, hset, hlink, hcol,
      pure, Except.pure]
  · rw [ho]
    exact ascending_insert (hord ▸ ht.ascending) hst
  · rw [ho, hord]
    exact List.perm_middle
  · rw [ho]
    exact hat''.out

end

end

end Ext4Fsd.Common.DrvTree
