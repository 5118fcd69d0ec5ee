import Ext4Fsd.Common.TreeInsert

/-! # Removal from a red-black tree

After a black node is unlinked the tree below its place lacks one black node. `LackAt` is what the
turns of `RB_REMOVE_COLOR` keep: the tree stands where one with a black node more would fit, and its
root may be red below a red parent, for it will be painted. A turn makes the sibling black
(`blackSibling_at`), and then moves the lack up, or ends it (`removeColorSide_at`). `RB_REMOVE`
unlinks the node, or its successor and puts that in the node's place (`removeSpine_at`,
`removeInner_at`). -/

namespace Ext4Fsd.Common.DrvTree

open Ext4Fsd.Lib.RbTree

section
variable {h₀ h : Heap} {xs : List ℕ} {d : Side} {c : Color} {a b k l m : ℕ} {p q : Option ℕ}
  {s t u : RTree ℕ} {f g : Frame ℕ} {fs gs : List (Frame ℕ)}

/-! ### The repair after a removal -/

/-- A red-black tree of black height `m` once its root is black, or has been painted. -/
def Nearly (m : ℕ) (t : RTree ℕ) : Prop :=
  IsRb .black m t ∨ ∃ l a r, t = .node .red l a r ∧ Balanced m l ∧ Balanced m r

/-- What the turns of `RB_REMOVE_COLOR` keep: the tree with root `q` below the node `p` lacks a
black node. If the root is black it takes one turn for each of at most `k` nodes above. -/
def LackAt (h₀ : Heap) (xs : List ℕ) (h : Heap) (p q : Option ℕ) (k : ℕ) : Prop :=
  ∃ fs t m, At h₀ xs h fs t ∧ up fs = p ∧ t.top = q ∧ Nearly m t ∧ Hole fs .black (m + 1) ∧
    (t.color = .black → fs.length ≤ k)

/-- The place of a node: `f` above it and `gs` above that, where a tree with `n` black nodes on
every path fits. -/
def Fits (c : Color) (gs : List (Frame ℕ)) (n : ℕ) : Prop :=
  c = .red ∧ Hole gs .red n ∨ c = .black ∧ Hole gs .black (n + 1)

theorem blacken_at (hat : At h₀ xs h fs t) :
    ∃ h', blacken t.top h = .ok h' ∧ At h₀ xs h' fs (t.paint .black) := by
  cases t with
  | nil => exact ⟨h, rfl, hat⟩
  | node c l a r =>
    obtain ⟨h', hrun, hat'⟩ := setColor_at hat rfl .black
    refine ⟨h', ?_, hat'⟩
    unfold blacken
    rw [if_pos (by simp [RTree.top])]
    exact hrun

theorem balanced_of_black (ht : IsRb .black m t) : Balanced m t := ⟨_, ht⟩

theorem isRb_of_black (ht : Balanced m t) (hc : t.color = .black) : IsRb .black m t := by
  obtain ⟨c, ht⟩ := ht
  rw [ht.color_eq] at hc
  rwa [hc] at ht

theorem isRb_of_red (ht : Balanced m t) (hc : t.color = .red) : IsRb .red m t := by
  obtain ⟨c, ht⟩ := ht
  rw [ht.color_eq] at hc
  rwa [hc] at ht

theorem isRb_black_fork (d : Side) (ht : IsRb .black (m + 1) t) :
    ∃ t₁ b t₂, t = fork d .black t₁ b t₂ ∧ Balanced m t₁ ∧ Balanced m t₂ := by
  obtain ⟨b, hb⟩ : ∃ b, t.top = some b := by
    cases ht
    exact ⟨_, rfl⟩
  obtain ⟨t₁, t₂, he⟩ := eq_fork_of_top d hb
  rw [ht.color_eq] at he
  rw [he, isRb_fork_black] at ht
  obtain ⟨-, n, hn, h₁, h₂⟩ := ht
  obtain rfl : m = n := by omega
  exact ⟨t₁, b, t₂, he, h₁, h₂⟩

/-- **The sibling is made black**: a red one is rotated above the parent. -/
theorem blackSibling_at (hat : At h₀ xs h (f :: gs) t) (hfs : Hole (f :: gs) .black (m + 1)) :
    ∃ h' f' gs', blackSibling f.side (some f.label) h = .ok (f'.sibling.top, h') ∧
      At h₀ xs h' (f' :: gs') t ∧ f'.side = f.side ∧ f'.label = f.label ∧
      IsRb .black (m + 1) f'.sibling ∧ Fits f'.color gs' (m + 1) ∧
        (f'.color = .black → gs'.length = gs.length) := by
  obtain ⟨d, cf, lf, s⟩ := f
  have hup := hat.entry_up
  have hrep := (rep_fork.mp (at_cons.mp hat).rep).2.2
  have hbal : Balanced (m + 1) s := by
    rcases hole_cons.mp hfs with ⟨-, -, hs, -⟩ | ⟨-, hs, -⟩
    · exact balanced_of_black hs
    · exact hs
  obtain ⟨b, hb⟩ : ∃ b, s.top = some b := by
    obtain ⟨c, hs⟩ := hbal
    cases hs <;> exact ⟨_, rfl⟩
  obtain ⟨s₁, s₂, he⟩ := eq_fork_of_top d hb
  have hent : entry s.top h = .ok (Entry.of d s₁.top s₂.top (some lf) s.color) := by
    rw [he] at hrep ⊢
    rw [top_fork, color_fork]
    exact entry_eq (rep_fork.mp hrep).1
  unfold blackSibling
  simp only [hup, bind, Except.bind, child_flip_of, hent, rbeColor_of]
  split
  · -- a red sibling: the parent is black
    rename_i hred
    rw [hred] at he
    have hs := isRb_of_red hbal hred
    rw [he, isRb_fork_red] at hs
    obtain ⟨hcf, hgs⟩ : cf = .black ∧ Hole gs .black (m + 2) := by
      rcases hole_cons.mp hfs with ⟨-, -, hs', -⟩ | ⟨hc, -, hgs⟩
      · have := hs'.color_eq
        rw [hred] at this
        cases this
      · exact ⟨hc, hgs⟩
    subst hcf
    have hat1 : At h₀ xs h (⟨d.flip, .black, lf, t⟩ :: gs) s := by
      rw [at_cons] at hat ⊢
      unfold Frame.fill at hat ⊢
      rwa [fork_flip]
    obtain ⟨h1, hrun1, h1at⟩ := rbSetBlackred_at hat1 hb rfl
    rw [he, paint_fork, at_cons] at h1at
    unfold Frame.fill at h1at
    rw [fork_flip] at h1at
    obtain ⟨h2, hrun2, h2at⟩ := rotate_at h1at
    have h2at' : At h₀ xs h2 (⟨d, .red, lf, s₁⟩ :: ⟨d, .black, b, s₂⟩ :: gs) t := by
      rw [at_cons, at_cons]
      exact h2at
    refine ⟨h2, ⟨d, .red, lf, s₁⟩, _, ?_, h2at', rfl, rfl, hs.2.1, Or.inl ⟨rfl, ?_⟩, by simp⟩
    · have hup2 := h2at'.entry_up
      simp only [hb, hrun1, hrun2, hup2, child_flip_of, pure, Except.pure]
    · exact hole_cons.mpr (Or.inr ⟨rfl, balanced_of_black hs.2.2, hgs⟩)
  · rename_i hblack
    refine ⟨h, ⟨d, cf, lf, s⟩, gs, rfl, hat, rfl, rfl,
      isRb_of_black hbal (Color.eq_black hblack), ?_,
      fun _ => rfl⟩
    rcases hole_cons.mp hfs with ⟨hc, -, -, hgs⟩ | ⟨hc, -, hgs⟩
    · exact Or.inl ⟨hc, hgs⟩
    · exact Or.inr ⟨hc, hgs⟩

theorem blackChildren_eq {t₁ t₂ : RTree ℕ} (ht : Rep h p (fork d c t₁ b t₂)) :
    blackChildren (some b) h = .ok (t₁.color = .black ∧ t₂.color = .black) := by
  obtain ⟨hb, h₁, h₂⟩ := rep_fork.mp ht
  unfold blackChildren
  cases d
  all_goals
    simp only [entry_eq hb, Entry.of, bind, Except.bind, isBlack_eq h₁, isBlack_eq h₂,
      decide_eq_true_eq, pure, Except.pure]
    split <;> simp_all

/-- **The far child of the sibling is made red**: if it is black, the near one is rotated above the
sibling. -/
theorem redFarChild_at {t₁ t₂ : RTree ℕ}
    (hat : At h₀ xs h (⟨d, c, l, fork d .black t₁ b t₂⟩ :: gs) t)
    (h₁ : Balanced m t₁) (h₂ : Balanced m t₂) (hred : ¬ (t₁.color = .black ∧ t₂.color = .black)) :
    ∃ h' e u₁ u₂, redFarChild d (some l) (some b) h = .ok (some e, h') ∧
      At h₀ xs h' (⟨d, c, l, fork d .black u₁ e u₂⟩ :: gs) t ∧ Balanced m u₁ ∧ IsRb .red m u₂ := by
  have hat1 : At h₀ xs h (⟨d.flip, c, l, t⟩ :: gs) (fork d .black t₁ b t₂) := by
    rw [at_cons] at hat ⊢
    unfold Frame.fill at hat ⊢
    rwa [fork_flip]
  have hrep₂ := (rep_fork.mp hat1.rep).2.2
  unfold redFarChild
  simp only [hat1.entry_eq, bind, Except.bind, child_flip_of, isBlack_eq hrep₂, decide_eq_true_eq]
  split
  · rename_i hc₂
    have hc₁ : t₁.color = .red := by
      refine Color.eq_red fun hc => hred ⟨hc, hc₂⟩
    obtain ⟨e, he⟩ : ∃ e, t₁.top = some e := by
      cases t₁ with
      | nil => cases hc₁
      | node c l a r => exact ⟨a, rfl⟩
    obtain ⟨p₁, p₂, rfl, hp₁, hp₂⟩ := isRb_red_fork d (isRb_of_red h₁ hc₁) he
    -- the near child is painted, then the sibling, which is rotated below it
    have hat2 : At h₀ xs h (⟨d, .black, b, t₂⟩ :: ⟨d.flip, c, l, t⟩ :: gs) (fork d .red p₁ e p₂) :=
      at_cons.mpr hat1
    obtain ⟨h2, hrun2, h2at⟩ := blacken_at hat2
    rw [paint_fork, at_cons] at h2at
    obtain ⟨h3, hrun3, h3at⟩ := setColor_at h2at top_fork .red
    have h3at' : At h₀ xs h3 (⟨d.flip, c, l, t⟩ :: gs)
        (fork d.flip .red t₂ b (fork d.flip .black p₂ e p₁)) := by
      unfold Frame.fill at h3at
      rwa [paint_fork, ← fork_flip, ← fork_flip d .black] at h3at
    obtain ⟨h4, hrun4, h4at⟩ := rotate_at h3at'
    have h4at' : At h₀ xs h4 (⟨d, c, l, fork d .black p₁ e (fork d .red p₂ b t₂)⟩ :: gs) t := by
      rw [at_cons] at h4at ⊢
      unfold Frame.fill at h4at ⊢
      rwa [fork_flip, fork_flip, fork_flip] at h4at
    rw [top_fork] at hrun2
    have hup4 := h4at'.entry_up
    refine ⟨h4, e, p₁, _, ?_, h4at', balanced_of_black hp₁,
      isRb_fork_red.mpr ⟨rfl, hp₂, isRb_of_black h₂ hc₂⟩⟩
    simp only [child_of, top_fork, hrun2, hrun3, hrun4, hup4, child_flip_of, pure, Except.pure]
  · rename_i hc₂
    exact ⟨h, b, t₁, t₂, rfl, hat, h₁, isRb_of_red h₂ (Color.eq_red hc₂)⟩

theorem isRb_nearly (ht : Nearly m t) (hc : t.color = .black) : IsRb .black m t := by
  rcases ht with ht | ⟨l, a, r, rfl, -⟩
  · exact ht
  · cases hc

/-- **A turn of `RB_REMOVE_COLOR`**: the lack has moved up, or the whole is a red-black tree. -/
theorem removeColorSide_at (hat : At h₀ xs h (f :: gs) t) (ht : IsRb .black m t)
    (hfs : Hole (f :: gs) .black (m + 1)) :
    (∃ h' p' q', removeColorSide f.side (some f.label) h = .ok (q', p', false, h') ∧
        LackAt h₀ xs h' p' q' gs.length) ∨
      ∃ h' T, removeColorSide f.side (some f.label) h =
          .ok (h'.rbhRoot, some f.label, true, h') ∧ At h₀ xs h' [] T ∧ Valid T := by
  obtain ⟨h1, ⟨d, cf, lf, s⟩, gs', hrun1, h1at, hd, hl, hs, hfit, hlen⟩ :=
    blackSibling_at hat hfs
  obtain ⟨s₁, b, s₂, rfl, hs₁, hs₂⟩ := isRb_black_fork d hs
  simp only [top_fork] at hrun1
  simp only at hd hl hfit hlen
  rw [← hd, ← hl] at hrun1 ⊢
  have hrep := (rep_fork.mp (at_cons.mp h1at).rep).2.2
  unfold removeColorSide
  simp only [hrun1, bind, Except.bind, blackChildren_eq hrep, decide_eq_true_eq]
  by_cases hblack : s₁.color = .black ∧ s₂.color = .black
  · -- the sibling becomes red, and the parent's tree lacks the node
    refine Or.inl ?_
    have hat2 : At h₀ xs h1 (⟨d.flip, cf, lf, t⟩ :: gs') (fork d .black s₁ b s₂) := by
      rw [at_cons] at h1at ⊢
      unfold Frame.fill at h1at ⊢
      rwa [fork_flip]
    obtain ⟨h2, hrun2, h2at⟩ := setColor_at hat2 top_fork .red
    rw [paint_fork, at_cons] at h2at
    unfold Frame.fill at h2at
    simp only [fork_flip] at h2at
    have hred : IsRb .red m (fork d .red s₁ b s₂) :=
      isRb_fork_red.mpr ⟨rfl, isRb_of_black hs₁ hblack.1, isRb_of_black hs₂ hblack.2⟩
    refine ⟨h2, up gs', some lf, ?_, gs', _, ?_, h2at, rfl, top_fork, ?_⟩
    · simp only [hblack, and_self, if_true, hrun2, h2at.entry_eq, rbeParent_of, pure, Except.pure]
    · exact if cf = .red then m else m + 1
    · rcases hfit with ⟨rfl, hgs⟩ | ⟨rfl, hgs⟩
      · refine ⟨Or.inr ?_, hgs.of_red, fun hc => by simp at hc⟩
        cases d
        · exact ⟨_, _, _, rfl, ⟨_, ht⟩, ⟨_, hred⟩⟩
        · exact ⟨_, _, _, rfl, ⟨_, hred⟩, ⟨_, ht⟩⟩
      · exact ⟨Or.inl (isRb_fork_black.mpr ⟨rfl, m, rfl, ⟨_, ht⟩, ⟨_, hred⟩⟩), hgs,
          fun _ => (hlen rfl).le⟩
  · refine Or.inr ?_
    obtain ⟨h2, e, u₁, u₂, hrun2, h2at, hu₁, hu₂⟩ := redFarChild_at h1at hs₁ hs₂ hblack
    have hup2 := h2at.entry_up
    have hat2 : At h₀ xs h2 (⟨d.flip, cf, lf, t⟩ :: gs') (fork d .black u₁ e u₂) := by
      rw [at_cons] at h2at ⊢
      unfold Frame.fill at h2at ⊢
      rwa [fork_flip]
    -- the colours of the three nodes, and the rotation
    obtain ⟨h3, hrun3, h3at⟩ := setColor_at hat2 top_fork cf
    rw [paint_fork, at_cons] at h3at
    unfold Frame.fill at h3at
    obtain ⟨h4, hrun4, h4at⟩ := setColor_at h3at top_fork .black
    have hat4 : At h₀ xs h4 (⟨d.flip, cf, e, u₁⟩ :: ⟨d.flip, .black, lf, t⟩ :: gs') u₂ := by
      rw [at_cons, at_cons]
      unfold Frame.fill
      rwa [fork_flip d cf, ← paint_fork (c := cf)]
    have hent4 := hat4.entry_up
    obtain ⟨h5, hrun5, h5at⟩ := blacken_at hat4
    have h5at' : At h₀ xs h5 gs' (fork d .black t lf (fork d cf u₁ e (u₂.paint .black))) := by
      rw [at_cons, at_cons] at h5at
      unfold Frame.fill at h5at
      rwa [fork_flip, fork_flip] at h5at
    obtain ⟨h6, hrun6, h6at⟩ := rotate_at h5at'
    have hnear : IsRb .black (m + 1) (fork d .black t lf u₁) :=
      isRb_fork_black.mpr ⟨rfl, m, rfl, ⟨_, ht⟩, hu₁⟩
    refine ⟨h6, _, ?_, at_plug.mp h6at, valid_plug.mpr ?_⟩
    · have hchild : ((Entry.of d.flip u₂.top u₁.top (some lf) cf).child d.flip) = u₂.top := child_of
      simp only [hblack, if_false, hrun2, hup2, rbeColor_of, hrun3, hrun4, hent4, up_cons, hchild,
        hrun5, hrun6, pure, Except.pure]
    · rcases hfit with ⟨rfl, hgs⟩ | ⟨rfl, hgs⟩
      · exact ⟨.red, m + 1, isRb_fork_red.mpr ⟨rfl, hnear, isRb_paint_black hu₂⟩, hgs⟩
      · exact ⟨.black, m + 2, isRb_fork_black.mpr
          ⟨rfl, m + 1, rfl, ⟨_, hnear⟩, ⟨_, isRb_paint_black hu₂⟩⟩, hgs⟩

/-- The root of the whole is not the root of a tree below another node. -/
theorem At.top_ne_root (hat : At h₀ xs h (f :: fs) t) : t.top ≠ h.rbhRoot := by
  have hroot : ∀ (fs : List (Frame ℕ)) (f : Frame ℕ) (t : RTree ℕ),
      ∃ r ∈ around (f :: fs), (plug (f :: fs) t).top = some r := by
    intro fs
    induction fs with
    | nil => exact fun f t => ⟨f.label, by simp [around], top_fork⟩
    | cons g gs ih =>
      intro f t
      obtain ⟨r, hr, htop⟩ := ih g (f.fill t)
      refine ⟨r, ?_, htop⟩
      simp only [around, List.mem_cons, List.mem_append] at hr ⊢
      tauto
  obtain ⟨r, hr, htop⟩ := hroot fs f t
  rw [hat.rbhRoot_eq, htop]
  intro he
  have hn := hat.parts
  rw [List.nodup_append] at hn
  exact hn.2.2 r (mem_of_top he) r hr rfl

/-- **`RB_REMOVE_COLOR` leaves a red-black tree.** -/
theorem rbRemoveColor_valid {n : ℕ} (hlack : LackAt h₀ xs h p q k) (hn : k < n) :
    ∃ h' T, rbRemoveColor n p q h = .ok h' ∧ At h₀ xs h' [] T ∧ Valid T := by
  induction n generalizing h p q k with
  | zero => omega
  | succ n ih =>
    obtain ⟨fs, t, m, hat, rfl, rfl, ht, hfs, hk⟩ := hlack
    obtain ⟨h1, hrun1, h1at⟩ := blacken_at hat
    unfold rbRemoveColor
    simp only [isBlack_eq hat.rep, bind, Except.bind, decide_eq_true_eq]
    by_cases hc : t.color = .black
    · have ht := isRb_nearly ht hc
      rcases fs with _ | ⟨f, gs⟩
      · have hroot : t.top = h.rbhRoot := hat.rbhRoot_eq.symm
        refine ⟨h1, _, ?_, h1at, m, ?_⟩
        · rw [if_neg (fun hh => hh.2 hroot)]
          exact hrun1
        · rwa [valid_paint_black ⟨m, ht⟩]
      · have hup := hat.entry_up
        have hside := hat.child_eq_iff (fun hnil => by
          rintro hs
          rcases hole_cons.mp hfs with ⟨-, -, hs', -⟩ | ⟨-, ⟨_, hs'⟩, -⟩
          · rw [hs] at hs'
            cases hs'
          · rw [hs] at hs'
            cases hs') .left
        have hside' : (Entry.of f.side t.top f.sibling.top (up gs) f.color).rbeLeft = t.top ↔
            f.side = .left := hside
        simp only [hc, true_and, ne_eq, hat.top_ne_root, not_false_eq_true, if_true, up_cons, hup,
          hside']
        have hturn := removeColorSide_at hat ht hfs
        have hlen : gs.length < n := by
          have := hk hc
          simp only [List.length_cons] at this
          omega
        rcases hturn with ⟨h', p', q', hrun, hlack⟩ | ⟨h', T, hrun, hT, hv⟩
        · obtain ⟨h'', T, hrun', hT⟩ := ih hlack hlen
          refine ⟨h'', T, ?_, hT⟩
          split
          · rename_i hd
            rw [hd] at hrun
            simp only [hrun, Bool.false_eq_true, if_false, hrun']
          · rename_i hd
            rw [Side.eq_right hd] at hrun
            simp only [hrun, Bool.false_eq_true, if_false, hrun']
        · obtain ⟨h'', hrun', hT'⟩ := blacken_at hT
          have hroot : h'.rbhRoot = T.top := hT.rbhRoot_eq
          refine ⟨h'', _, ?_, hT', by rwa [valid_paint_black hv]⟩
          split
          · rename_i hd
            rw [hd] at hrun
            simp only [hrun, if_true, hroot, hrun']
          · rename_i hd
            rw [Side.eq_right hd] at hrun
            simp only [hrun, if_true, hroot, hrun']
    · refine ⟨h1, _, by simp only [hc, false_and, if_false, hrun1], at_plug.mp h1at,
        valid_plug.mpr ⟨.black, m + 1, ?_, hfs⟩⟩
      rcases ht with ht | ⟨l, a, r, rfl, ⟨_, hl⟩, ⟨_, hr⟩⟩
      · exact absurd ht.color_eq hc
      · exact .black hl hr

/-! ### Unlinking -/

/-- A node with one child at most is unlinked: the child takes its place. -/
theorem unlink_at (hat : At h₀ xs h fs (fork d c t a .nil)) :
    ∃ h', unlink (some a) (up fs) t.top h = .ok h' ∧
      At h' (before fs ++ t.inorder ++ after fs) h' fs t ∧ h'.node a = h.node a ∧
        ∀ x ∉ xs, h'.node x = h.node x := by
  obtain ⟨hat₁, -, hafs, hnt, -, hnfs, htfs, -⟩ := hat.apart
  obtain ⟨-, hr, -⟩ := rep_fork.mp hat.rep
  have hctx := hat.ctx
  rw [top_fork] at hctx
  obtain ⟨g, hrun, hroot, hrep, hout⟩ := setParentOf_eq (q := up fs) hr hnt
  have hctx' : RepCtx g fs (some a) :=
    repCtx_congr hroot (fun x hx => hout x fun hxt => (htfs x hxt).2 hx) hctx
  obtain ⟨h', hrun', hctx'', hout'⟩ :=
    replaceChild_eq hctx' (List.nodup_cons.mpr ⟨hafs, hnfs⟩) t.top
  refine ⟨h', ?_, ⟨hctx'', ?_, inorder_plug, ?_, fun _ _ => rfl⟩, ?_, fun x hx => ?_⟩
  · unfold unlink
    simp only [hrun, bind, Except.bind, hrun']
  · exact rep_congr (fun x hx => hout' x (htfs x hx).2) hrep
  · rw [← inorder_plug, nodup_plug, List.nodup_append]
    refine ⟨hnt, hnfs, fun x hx y hy => ?_⟩
    rintro rfl
    exact (htfs x hx).2 hy
  · rw [hout' a hafs, hout a hat₁]
  · rw [← hat.order, mem_plug, mem_inorder_fork, not_or, not_or] at hx
    rw [hout' x hx.2, hout x hx.1.1]

/-- A node takes the place of another. -/
theorem takePlace_at {e : ℕ} {l r : RTree ℕ} {old : ℕ} {en : Entry}
    (hat : At h₀ xs h fs (.node c l old r))
    (he : e ∉ xs) (hnode : h.node e = some en) (hl : l ≠ .nil) :
    ∃ h', takePlace (some old) (some e) h = .ok h' ∧
      At h' (before fs ++ (RTree.node c l e r).inorder ++ after fs) h' fs (.node c l e r) ∧
        h'.node old = h.node old ∧ ∀ x ∉ xs, x ≠ e → h'.node x = h.node x := by
  have hap : At h₀ xs h fs (fork .left c l old r) := hat
  obtain ⟨hol, hor, hofs, hnl, hnr, hnfs, hlr, hrfs⟩ := hap.apart
  obtain ⟨ho, hrl, hrr⟩ := hat.rep
  have hctx : RepCtx h fs (some old) := hat.ctx
  rw [← hat.order, mem_plug] at he
  simp only [RTree.inorder, List.mem_append, List.mem_cons, not_or] at he
  obtain ⟨⟨hel, heo, her⟩, hefs⟩ := he
  obtain ⟨g1, hg1⟩ : ∃ g1, g1 = h.set e ⟨l.top, r.top, up fs, c⟩ := ⟨_, rfl⟩
  have hge : ∀ x, x ≠ e → g1.node x = h.node x := by
    rw [hg1]
    exact fun x hx => set_node_ne hx
  have ho1 : g1.node old = some ⟨l.top, r.top, up fs, c⟩ := by rw [hge old (by grind), ho]
  have hctx1 : RepCtx g1 fs (some old) := by
    refine repCtx_congr (by rw [hg1, set_rbhRoot]) (fun x hx => hge x ?_) hctx
    rintro rfl
    exact hefs hx
  obtain ⟨g2, hrun2, hctx2, hout2⟩ :=
    replaceChild_eq hctx1 (List.nodup_cons.mpr ⟨hofs, hnfs⟩) (some e)
  have ho2 : g2.node old = some ⟨l.top, r.top, up fs, c⟩ := by rw [hout2 old hofs, ho1]
  -- the children
  obtain ⟨g3, hrun3, hroot3, hrl3, hout3⟩ := setParentOf_eq (h := g2) (q := some e)
    (rep_congr (fun x hx => by rw [hout2 x (hlr x hx).2, hge x (by grind)]) hrl) hnl
  have ho3 : g3.node old = some ⟨l.top, r.top, up fs, c⟩ := by rw [hout3 old hol, ho2]
  obtain ⟨g4, hrun4, hroot4, hrr4, hout4⟩ := setParentOf_eq (h := g3) (q := some e)
    (rep_congr (fun x hx => by
      rw [hout3 x (by grind), hout2 x (hrfs x hx), hge x (by grind)]) hrr) hnr
  have hrun3' : store l.top (Entry.setParent (some e)) g2 = .ok g3 := by
    unfold setParentOf at hrun3
    rwa [if_pos (fun hnone => hl (top_eq_none.mp hnone))] at hrun3
  refine ⟨g4, ?_, ⟨?_, ⟨?_, ?_, hrr4⟩, inorder_plug, ?_, fun _ _ => rfl⟩, ?_, fun x hx hxe => ?_⟩
  · unfold takePlace
    simp only [entry_eq ho, bind, Except.bind, store_eq hnode, ← hg1, entry_eq ho1, hrun2,
      entry_eq ho2, hrun3', entry_eq ho3, hrun4]
  · refine repCtx_congr (hroot4.trans hroot3) (fun x hx => ?_) hctx2
    rw [hout4 x (by grind), hout3 x (by grind)]
  · rw [hout4 e her, hout3 e hel, hout2 e hefs, hg1, set_node_self]
  · exact rep_congr (fun x hx => hout4 x (hlr x hx).1) hrl3
  · have hn := hat.parts
    rw [← inorder_plug, nodup_plug]
    simp only [RTree.inorder, List.append_assoc, List.cons_append, List.nodup_append,
      List.nodup_cons, List.mem_cons, List.mem_append] at hn ⊢
    grind
  · rw [hout4 old hor, ho3, ho]
  · rw [← hat.order, mem_plug] at hx
    simp only [RTree.inorder, List.mem_append, List.mem_cons, not_or] at hx
    rw [hout4 x hx.1.2.2, hout3 x hx.1.1, hout2 x hx.2, hge x hxe]

/-- The last node on one side is found. -/
theorem extreme_at {n : ℕ} (d : Side) (hat : At h₀ xs h fs t) (hne : t ≠ .nil)
    (hn : t.height ≤ n) :
    ∃ gs c a s, t = plug gs (fork d c .nil a s) ∧ (∀ f ∈ gs, f.side = d) ∧
      extreme d h n t.top = .ok (some a) := by
  induction t using fork_induction d generalizing fs n with
  | nil => exact absurd rfl hne
  | fork c t a s iht ihs =>
    rw [height_fork] at hn
    obtain ⟨n, rfl⟩ : ∃ k, n = k + 1 := ⟨n - 1, by omega⟩
    have hent := hat.entry_eq
    by_cases ht : t = .nil
    · subst ht
      refine ⟨[], c, a, s, rfl, by simp, ?_⟩
      simp only [top_fork, extreme, hent, bind, Except.bind, child_of, top_nil, ne_eq,
        not_true_eq_false, if_false, pure, Except.pure]
    · have hat' : At h₀ xs h (⟨d, c, a, s⟩ :: fs) t := at_cons.mpr hat
      obtain ⟨gs, c', b, s', rfl, hgs, hrun⟩ := iht hat' ht (n := n) (by omega)
      refine ⟨gs ++ [⟨d, c, a, s⟩], c', b, s', by rw [plug_append]; rfl, ?_, ?_⟩
      · intro f hf
        rcases List.mem_append.mp hf with hf | hf
        · exact hgs f hf
        · rw [List.mem_singleton.mp hf]
      · simp only [top_fork, extreme, hent, bind, Except.bind, child_of]
        rw [if_pos (fun hnone => ht (top_eq_none.mp hnone)), hrun]

/-- The way up from a place ends. -/
theorem augmentUp_at {n : ℕ} (hat : At h₀ xs h fs t) (hn : fs.length ≤ n) :
    augmentUp h n (up fs) = .ok () := by
  induction fs generalizing t n with
  | nil => cases n <;> rfl
  | cons f fs ih =>
    obtain ⟨n, rfl⟩ : ∃ k, n = k + 1 := ⟨n - 1, by simp only [List.length_cons] at hn; omega⟩
    simp only [up_cons, augmentUp, hat.entry_up, bind, Except.bind, rbeParent_of]
    exact ih (at_cons.mp hat) (by simp only [List.length_cons] at hn; omega)

/-- The end of `RB_REMOVE`: a node of colour `c` was unlinked above `t`. -/
theorem removeEnd_at {n : ℕ} {t' : RTree ℕ} (hat : At h₀ xs h fs t) (ht' : IsRb c m t')
    (hc : ∃ d a, t' = fork d c t a .nil) (hfs : Hole fs c m) (hn : fs.length < n) :
    ∃ h' T, removeEnd n c (up fs) t.top h = .ok h' ∧ At h₀ xs h' [] T ∧ Valid T := by
  obtain ⟨d, a, rfl⟩ := hc
  unfold removeEnd
  cases c with
  | red =>
    rw [isRb_fork_red] at ht'
    exact ⟨h, _, rfl, at_plug.mp hat, valid_plug.mpr ⟨.black, m, ht'.2.1, hfs.of_red⟩⟩
  | black =>
    rw [isRb_fork_black] at ht'
    obtain ⟨-, k, rfl, ⟨ct, ht⟩, -⟩ := ht'
    have hnear : Nearly k t := by
      cases ht with
      | nil => exact Or.inl .nil
      | red hl hr => exact Or.inr ⟨_, _, _, rfl, ⟨_, hl⟩, ⟨_, hr⟩⟩
      | black hl hr => exact Or.inl (.black hl hr)
    exact rbRemoveColor_valid ⟨fs, t, k, hat, rfl, rfl, hnear, hfs, fun _ => le_rfl⟩ hn

/-- A node with at most one child is not among the nodes beside it. -/
theorem At.notMem_beside (hat : At h₀ xs h fs (fork d c t a .nil)) :
    a ∉ before fs ++ t.inorder ++ after fs := by
  obtain ⟨h1, -, h2, -⟩ := hat.apart
  rw [mem_around] at h2
  simp only [List.mem_append]
  tauto

theorem At.outside {x : ℕ} (hat : At h₀ xs h fs (fork d c t a .nil)) (hx : x ∉ xs) :
    x ∉ before fs ++ t.inorder ++ after fs ∧ x ≠ a := by
  rw [← hat.order, mem_plug, mem_inorder_fork, mem_around] at hx
  simp only [List.mem_append]
  tauto

/-- `RB_REMOVE` of a node with at most one child. -/
theorem removeSpine_at {n : ℕ} (hat : At h₀ xs h fs (fork d c t a .nil))
    (hv : Valid (plug fs (fork d c t a .nil))) (hn : fs.length < n) :
    ∃ h' T, removeSpine n (some a) t.top h = .ok h' ∧ Holds h' T ∧ Valid T ∧
      T.inorder = before fs ++ t.inorder ++ after fs ∧ h'.node a ≠ none ∧
        ∀ x ∉ xs, h'.node x = h.node x := by
  obtain ⟨c', m, ht, hfs⟩ := valid_plug.mp hv
  obtain rfl : c = c' := by rw [← ht.color_eq, color_fork]
  obtain ⟨h1, hrun1, h1at, ha1, hout1⟩ := unlink_at hat
  obtain ⟨h2, T, hrun2, h2at, hT⟩ := removeEnd_at h1at ht ⟨d, a, rfl⟩ hfs hn
  refine ⟨h2, T, ?_, holds_of_at h2at, hT, h2at.order, ?_, fun x hx => ?_⟩
  · unfold removeSpine
    simp only [hat.entry_eq, bind, Except.bind, rbeParent_of, rbeColor_of, hrun1, hrun2]
  · rw [h2at.out a hat.notMem_beside, ha1, hat.node_eq]
    simp
  · rw [h2at.out x (hat.outside hx).1, hout1 x hx]

theorem before_of_left (hgs : ∀ f ∈ gs, f.side = .left) : before gs = ([] : List ℕ) := by
  induction gs with
  | nil => rfl
  | cons g gs ih =>
    obtain ⟨d, c, a, s⟩ := g
    obtain rfl : d = .left := hgs _ (List.mem_cons_self)
    exact ih fun f hf => hgs f (List.mem_cons_of_mem _ hf)

theorem mem_around_append : a ∈ around (gs ++ ⟨d, c, a, s⟩ :: fs) := by
  induction gs with
  | nil => simp [around]
  | cons g gs ih => simp [around, ih]

/-- The node above a place, when the node `a` further up gives way to `e`. -/
theorem up_relabel {e : ℕ} (hat : At h₀ xs h (gs ++ ⟨d, c, a, s⟩ :: fs) t) :
    (if up (gs ++ ⟨d, c, a, s⟩ :: fs) = some a then some e else up (gs ++ ⟨d, c, a, s⟩ :: fs)) =
      up (gs ++ ⟨d, c, e, s⟩ :: fs) := by
  rcases gs with _ | ⟨g, gs⟩
  · simp
  · have hne : g.label ≠ a := by
      have hnd := (List.nodup_append.mp hat.parts).2.1
      rintro rfl
      simp only [List.cons_append, around, List.nodup_cons, List.mem_append, not_or] at hnd
      exact hnd.1.2 mem_around_append
    simp [hne]

/-- **`RB_REMOVE` of a node with two children**: its successor is unlinked and takes its place. -/
theorem removeInner_at {n old : ℕ} {l r : RTree ℕ} (hat : At h₀ xs h fs (.node c l old r))
    (hv : Valid (plug fs (.node c l old r))) (hl : l ≠ .nil) (hr : r ≠ .nil)
    (hn : fs.length + (r.height + 1) ≤ n) :
    ∃ h' T, removeInner n (some old) h = .ok h' ∧ Holds h' T ∧ Valid T ∧
      T.inorder = before fs ++ (l.inorder ++ r.inorder) ++ after fs ∧ h'.node old ≠ none ∧
        ∀ x ∉ xs, h'.node x = h.node x := by
  have hent := At.entry_eq (d := .left) hat
  have hatr : At h₀ xs h (⟨.right, c, old, l⟩ :: fs) r := at_cons.mpr hat
  obtain ⟨gs, ce, e, s, rfl, hgs, hrun1⟩ := extreme_at .left hatr hr (n := n) (by omega)
  have hlen : gs.length < (plug gs (fork .left ce .nil e s)).height :=
    length_lt_height_plug (by simp [fork])
  -- the successor is unlinked
  have hate : At h₀ xs h (gs ++ ⟨.right, c, old, l⟩ :: fs) (fork .right ce s e .nil) := by
    rw [at_append]
    exact hatr
  have hente := hate.entry_eq
  have hve : Valid (plug (gs ++ ⟨.right, c, old, l⟩ :: fs) (fork .right ce s e .nil)) := by
    rw [plug_append]
    exact hv
  obtain ⟨c', m, hte, hhole⟩ := valid_plug.mp hve
  obtain rfl : ce = c' := by rw [← hte.color_eq, color_fork]
  obtain ⟨h1, hrun2, h1at, he1, hout1⟩ := unlink_at hate
  have hold1 : At h1 _ h1 fs (.node c l old (plug gs s)) := at_cons.mp (at_append.mp h1at)
  -- and takes the place of the node
  have hnode1 :
      h1.node e = some (Entry.of .right s.top none (up (gs ++ ⟨.right, c, old, l⟩ :: fs)) ce) := by
    rw [he1, hate.node_eq]
    rfl
  have hmem := hate.notMem_beside
  obtain ⟨h2, hrun3, h2at, hold2, hout2⟩ := takePlace_at hold1 hmem hnode1 hl
  have h2at' : At h2 (before fs ++ (RTree.node c l e (plug gs s)).inorder ++ after fs) h2
      (gs ++ ⟨.right, c, e, l⟩ :: fs) s := by
    rw [at_append, at_cons]
    exact h2at
  have hhole' := (hole_relabel (b := e)).mp hhole
  obtain ⟨h3, T, hrun5, h3at, hT⟩ := removeEnd_at (n := n) h2at' hte ⟨.right, e, rfl⟩ hhole'
    (by simp only [List.length_append, List.length_cons]; omega)
  have hord : T.inorder = before fs ++ (RTree.node c l e (plug gs s)).inorder ++ after fs :=
    h3at.order
  refine ⟨h3, T, ?_, holds_of_at h3at, hT, ?_, ?_, fun x hx => ?_⟩
  · have hup := augmentUp_at (n := n) h2at'
      (by simp only [List.length_append, List.length_cons]; omega)
    have hchild : (Entry.of .right s.top (RTree.nil : RTree ℕ).top
        (up (gs ++ ⟨.right, c, old, l⟩ :: fs)) ce).rbeRight = s.top := rfl
    have hright : (Entry.of .left l.top (plug gs (fork .left ce .nil e s)).top (up fs) c).rbeRight =
        (plug gs (fork .left ce .nil e s)).top := rfl
    unfold removeInner
    simp only [hent, bind, Except.bind, hright, hrun1, hente, hchild, rbeParent_of, rbeColor_of,
      hrun2, entry_eq hnode1, up_relabel hate, hrun3, hup, hrun5]
  · rw [hord]
    simp [RTree.inorder, inorder_plug, before_of_left hgs, fork]
  · have hnew : old ∉ before fs ++ (RTree.node c l e (plug gs s)).inorder ++ after fs := by
      have hap : At h1 _ h1 fs (fork .left c l old (plug gs s)) := hold1
      obtain ⟨h1, h2, h3, -⟩ := hap.apart
      have hoe : old ≠ e := by
        rintro rfl
        exact hmem (by rw [← hold1.order, mem_plug]; exact Or.inl (by simp [RTree.inorder]))
      rw [mem_around] at h3
      simp only [RTree.inorder, List.mem_append, List.mem_cons]
      tauto
    rw [h3at.out old hnew, hold2, hold1.rep.1]
    simp
  · have hxe := hate.outside hx
    have hxT : x ∉ before fs ++ (RTree.node c l e (plug gs s)).inorder ++ after fs := by
      have hx1 := hxe.1
      rw [← hold1.order, inorder_plug] at hx1
      simp only [RTree.inorder, List.mem_append, List.mem_cons] at hx1 ⊢
      tauto
    rw [h3at.out x hxT, hout2 x hxe.1 hxe.2, hout1 x hx]

/-! ### `RB_REMOVE` -/

theorem erase_middle {ys zs : List ℕ} (ha : a ∉ ys) : (ys ++ a :: zs).erase a = ys ++ zs := by
  rw [List.erase_append_right _ ha, List.erase_cons_head]

/-- `RB_REMOVE` at a place. -/
theorem rbRemove_at {n : ℕ} {l r : RTree ℕ} (hat : At h₀ xs h fs (.node c l a r))
    (hv : Valid (plug fs (.node c l a r))) (hn : (plug fs (.node c l a r)).height ≤ n) :
    ∃ h' T, rbRemove n a h = .ok (a, h') ∧ Holds h' T ∧ Valid T ∧
      T.inorder = before fs ++ (l.inorder ++ r.inorder) ++ after fs ∧ h'.node a ≠ none ∧
        ∀ x ∉ xs, h'.node x = h.node x := by
  have hent := At.entry_eq (d := .left) hat
  have hlen : fs.length < (plug fs (.node c l a r)).height := length_lt_height_plug (by simp)
  have hlen' : (RTree.node c l a r).height + fs.length ≤ (plug fs (.node c l a r)).height :=
    height_plug_le
  unfold rbRemove
  simp only [hent, bind, Except.bind, Entry.of, top_eq_none]
  by_cases hl : l = .nil
  · subst hl
    have hat' : At h₀ xs h fs (fork .right c r a .nil) := hat
    obtain ⟨h', T, hrun, hT, hvT, hord, hout⟩ := removeSpine_at (n := n) hat' hv (by omega)
    exact ⟨h', T, by simp only [if_true, hrun, pure, Except.pure], hT, hvT, by
      simpa [RTree.inorder] using hord, hout⟩
  · simp only [hl, if_false]
    by_cases hr : r = .nil
    · subst hr
      have hat' : At h₀ xs h fs (fork .left c l a .nil) := hat
      obtain ⟨h', T, hrun, hT, hvT, hord, hout⟩ := removeSpine_at (n := n) hat' hv (by omega)
      exact ⟨h', T, by simp only [if_true, hrun, pure, Except.pure], hT, hvT, by
        simpa [RTree.inorder] using hord, hout⟩
    · have hh : fs.length + (r.height + 1) ≤ n := by
        have : r.height + 1 ≤ (RTree.node c l a r).height := by simp [RTree.height]
        omega
      obtain ⟨h', T, hrun, hT, hvT, hord, hout⟩ := removeInner_at hat hv hl hr hh
      exact ⟨h', T, by simp only [hr, if_false, hrun, pure, Except.pure], hT, hvT, hord, hout⟩

/-- **`RB_REMOVE` returns the node, and the rest is again a red-black search tree** in the same
order. The node stays in memory, and the memory outside the tree is untouched. -/
theorem rbRemove_mem {K : Type} [LinearOrder K] {key : ℕ → K} {n : ℕ} (ht : SearchTree key h t)
    (ha : a ∈ t.inorder) (hn : t.height ≤ n) :
    ∃ h' t', rbRemove n a h = .ok (a, h') ∧ SearchTree key h' t' ∧
      t'.inorder = t.inorder.erase a ∧ h'.node a ≠ none ∧
        ∀ x ∉ t.inorder, h'.node x = h.node x := by
  obtain ⟨fs, c, l, r, rfl⟩ := exists_place ha
  obtain ⟨h', T, hrun, hT, hvT, hord, hout⟩ := rbRemove_at (at_of_holds ht.holds) ht.valid hn
  have herase : T.inorder = (plug fs (.node c l a r)).inorder.erase a := by
    have hnd := ht.ascending.nodup
    rw [hord]
    rw [inorder_plug] at hnd ⊢
    simp only [RTree.inorder, List.append_assoc, List.cons_append] at hnd ⊢
    rw [← List.append_assoc, ← List.append_assoc (before fs), erase_middle]
    rw [← List.append_assoc, List.nodup_append] at hnd
    exact fun hm => hnd.2.2 a hm a (by simp) rfl
  refine ⟨h', T, hrun, ⟨hT, hvT, ?_⟩, herase, hout⟩
  rw [herase]
  exact List.Pairwise.sublist List.erase_sublist ht.ascending

end

end Ext4Fsd.Common.DrvTree
