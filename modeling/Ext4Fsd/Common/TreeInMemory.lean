import Ext4Fsd.Common.DrvTree

/-! # Trees in memory

`At h₀ xs h fs t` says that the heap `h` holds the tree `t` at the place `fs`, that the whole tree
has the nodes `xs` in order, and that `h` and `h₀` differ only in them. Every primitive of the
macros is given once as a change of the tree at a place: a colour (`setColor_at`), a rotation
(`rotate_at`). -/

namespace Ext4Fsd.Common.DrvTree

open Ext4Fsd.Lib.RbTree

/-! ### Entries -/

/-- The entry of a node with the child `near` on side `d` and `far` on the other. -/
def Entry.of (d : Side) (near far parent : Option ℕ) (c : Color) : Entry :=
  match d with
  | .left => ⟨near, far, parent, c⟩
  | .right => ⟨far, near, parent, c⟩

section
variable {d : Side} {near far parent q : Option ℕ} {c c' : Color}

@[simp] theorem child_of : (Entry.of d near far parent c).child d = near := by cases d <;> rfl

@[simp] theorem child_flip_of : (Entry.of d near far parent c).child d.flip = far := by
  cases d <;> rfl

@[simp] theorem rbeParent_of : (Entry.of d near far parent c).rbeParent = parent := by
  cases d <;> rfl

@[simp] theorem rbeColor_of : (Entry.of d near far parent c).rbeColor = c := by cases d <;> rfl

@[simp] theorem setChild_of :
    (Entry.of d near far parent c).setChild d q = Entry.of d q far parent c := by cases d <;> rfl

@[simp] theorem setChild_flip_of :
    (Entry.of d near far parent c).setChild d.flip q = Entry.of d near q parent c := by
  cases d <;> rfl

@[simp] theorem setParent_of :
    (Entry.of d near far parent c).setParent q = Entry.of d near far q c := by cases d <;> rfl

@[simp] theorem setColor_of :
    (Entry.of d near far parent c).setColor c' = Entry.of d near far parent c' := by
  cases d <;> rfl

end

/-! ### Reading and writing -/

section
variable {h h' : Heap} {a x : ℕ} {e : Entry}

@[simp] theorem set_node_self : (h.set a e).node a = some e := Function.update_self _ _ _

theorem set_node_ne (hx : x ≠ a) : (h.set a e).node x = h.node x := Function.update_of_ne hx _ _

@[simp] theorem set_rbhRoot : (h.set a e).rbhRoot = h.rbhRoot := rfl

theorem entry_eq (ha : h.node a = some e) : entry (some a) h = .ok e := by
  unfold entry
  rw [Option.bind_some, ha]

theorem store_eq {f : Entry → Entry} (ha : h.node a = some e) :
    store (some a) f h = .ok (h.set a (f e)) := by
  unfold store
  simp only [ha]

end

/-! ### A tree in memory -/

/-- The heap holds the tree below the node `p`. -/
def Rep (h : Heap) : Option ℕ → RTree ℕ → Prop
  | _, .nil => True
  | p, .node c l a r => h.node a = some ⟨l.top, r.top, p, c⟩ ∧ Rep h (some a) l ∧ Rep h (some a) r

/-- The heap holds the place `fs`, with the pointer `q` in the hole. -/
def RepCtx (h : Heap) : List (Frame ℕ) → Option ℕ → Prop
  | [], q => h.rbhRoot = q
  | f :: fs, q =>
    h.node f.label = some (Entry.of f.side q f.sibling.top (up fs) f.color) ∧
      Rep h (some f.label) f.sibling ∧ RepCtx h fs (some f.label)

section
variable {h h' : Heap} {d : Side} {c : Color} {a : ℕ} {p q : Option ℕ} {s t : RTree ℕ} {f : Frame ℕ}
  {fs gs : List (Frame ℕ)}

theorem rep_fork :
    Rep h p (fork d c t a s) ↔
      h.node a = some (Entry.of d t.top s.top p c) ∧ Rep h (some a) t ∧ Rep h (some a) s := by
  cases d
  · rfl
  · simp only [fork, Rep, Entry.of]
    tauto

theorem rep_congr (hs : ∀ x ∈ t.inorder, h'.node x = h.node x) (ht : Rep h p t) : Rep h' p t := by
  induction t generalizing p with
  | nil => trivial
  | node c l a r ihl ihr =>
    simp only [RTree.inorder, List.mem_append, List.mem_cons] at hs
    obtain ⟨ha, hl, hr⟩ := ht
    refine ⟨?_, ihl (fun x hx => hs x (Or.inl hx)) hl,
      ihr (fun x hx => hs x (Or.inr (Or.inr hx))) hr⟩
    rw [hs a (Or.inr (Or.inl rfl)), ha]

theorem repCtx_congr (hr : h'.rbhRoot = h.rbhRoot) (hs : ∀ x ∈ around fs, h'.node x = h.node x)
    (hfs : RepCtx h fs q) : RepCtx h' fs q := by
  induction fs generalizing q with
  | nil => exact hr.trans hfs
  | cons f fs ih =>
    simp only [around, List.mem_cons, List.mem_append] at hs
    obtain ⟨hf, hsib, hfs⟩ := hfs
    refine ⟨?_, rep_congr (fun x hx => hs x (Or.inr (Or.inl hx))) hsib,
      ih (fun x hx => hs x (Or.inr (Or.inr hx))) hfs⟩
    rw [hs f.label (Or.inl rfl), hf]

theorem mem_of_top (ht : t.top = some a) : a ∈ t.inorder := by
  obtain ⟨t₁, t₂, he⟩ := eq_fork_of_top .left ht
  rw [he, mem_inorder_fork]
  exact Or.inr (Or.inl rfl)

/-- The parent of the root of a tree is set, if it has a root. -/
theorem setParentOf_eq (ht : Rep h p t) (hn : t.inorder.Nodup) :
    ∃ h', setParentOf t.top q h = .ok h' ∧ h'.rbhRoot = h.rbhRoot ∧ Rep h' q t ∧
      ∀ x, x ∉ t.inorder → h'.node x = h.node x := by
  cases t with
  | nil => exact ⟨h, rfl, rfl, trivial, fun _ _ => rfl⟩
  | node c l a r =>
    obtain ⟨ha, hl, hr⟩ := ht
    have hnl : ∀ x ∈ l.inorder, x ≠ a := by
      rintro x hx rfl
      simp only [RTree.inorder, List.nodup_append, List.mem_cons] at hn
      exact hn.2.2 x hx x (Or.inl rfl) rfl
    have hnr : ∀ x ∈ r.inorder, x ≠ a := by
      rintro x hx rfl
      simp only [RTree.inorder, List.nodup_append, List.nodup_cons] at hn
      exact hn.2.1.1 hx
    refine ⟨h.set a ⟨l.top, r.top, q, c⟩, ?_, rfl, ⟨set_node_self, ?_, ?_⟩, ?_⟩
    · unfold setParentOf
      rw [if_pos (by simp [RTree.top])]
      exact store_eq ha
    · exact rep_congr (fun x hx => set_node_ne (hnl x hx)) hl
    · exact rep_congr (fun x hx => set_node_ne (hnr x hx)) hr
    · intro x hx
      refine set_node_ne ?_
      rintro rfl
      exact hx (by simp [RTree.inorder])

/-- The pointer to the hole of a place is set. -/
theorem storeChild_eq (hfs : RepCtx h (f :: fs) p) (hn : (around (f :: fs)).Nodup) (q : Option ℕ) :
    ∃ h', store (some f.label) (Entry.setChild f.side q) h = .ok h' ∧ RepCtx h' (f :: fs) q ∧
      ∀ x, x ∉ around (f :: fs) → h'.node x = h.node x := by
  obtain ⟨hf, hsib, hfs⟩ := hfs
  simp only [around, List.nodup_cons, List.mem_append, not_or] at hn
  obtain ⟨⟨hls, hlf⟩, -⟩ := hn
  have hne : ∀ {x : ℕ} {l : List ℕ}, f.label ∉ l → x ∈ l → x ≠ f.label := by
    rintro x l hal hx rfl
    exact hal hx
  refine ⟨h.set f.label (Entry.of f.side q f.sibling.top (up fs) f.color), ?_,
    ⟨set_node_self, rep_congr (fun x hx => set_node_ne (hne hls hx)) hsib,
      repCtx_congr (h := h) rfl (fun x hx => set_node_ne (hne hlf hx)) hfs⟩,
    fun x hx => set_node_ne ?_⟩
  · rw [store_eq hf, setChild_of]
  · rintro rfl
    exact hx (by simp [around])

/-- The pointer in the hole of a place is replaced. -/
theorem replaceChild_eq (hfs : RepCtx h fs (some a)) (hn : (a :: around fs).Nodup) (q : Option ℕ) :
    ∃ h', replaceChild (up fs) (some a) q h = .ok h' ∧ RepCtx h' fs q ∧
      ∀ x, x ∉ around fs → h'.node x = h.node x := by
  rcases fs with _ | ⟨f, fs⟩
  · exact ⟨{ h with rbhRoot := q }, rfl, rfl, fun _ _ => rfl⟩
  obtain ⟨h', hrun, hspec⟩ := storeChild_eq hfs (List.nodup_cons.mp hn).2 q
  refine ⟨h', ?_, hspec⟩
  have hside : (Entry.of f.side (some a) f.sibling.top (up fs) f.color).rbeLeft = some a ↔
      f.side = .left := by
    have has : a ∉ f.sibling.inorder := by
      simp only [around, List.nodup_cons, List.mem_cons, List.mem_append, not_or] at hn
      exact hn.1.2.1
    have hne : f.sibling.top ≠ some a := fun he => has (mem_of_top he)
    rcases f with ⟨_ | _, c, l, s⟩
    · simp [Entry.of]
    · simpa [Entry.of] using hne
  unfold replaceChild
  rw [if_pos (by simp), up_cons, entry_eq hfs.1]
  simp only [bind, Except.bind, hside]
  split
  · rename_i hd
    rwa [hd] at hrun
  · rename_i hd
    rwa [Side.eq_right hd] at hrun

/-! ### A tree at a place -/

/-- The heap holds `t` at the place `fs`. The whole tree has the nodes `xs`, and only they differ
from `h₀`. -/
structure At (h₀ : Heap) (xs : List ℕ) (h : Heap) (fs : List (Frame ℕ)) (t : RTree ℕ) : Prop where
  ctx : RepCtx h fs t.top
  rep : Rep h (up fs) t
  order : (plug fs t).inorder = xs
  nodup : xs.Nodup
  out : ∀ a ∉ xs, h.node a = h₀.node a

/-- The heap holds the tree `t`. -/
def Holds (h : Heap) (t : RTree ℕ) : Prop := At h t.inorder h [] t

variable {h₀ : Heap} {xs : List ℕ}

theorem at_cons : At h₀ xs h (f :: fs) t ↔ At h₀ xs h fs (f.fill t) := by
  unfold Frame.fill
  constructor
  · rintro ⟨⟨hf, hs, hfs⟩, ht, ho, hn, hout⟩
    exact ⟨by rwa [top_fork], rep_fork.mpr ⟨hf, ht, hs⟩, ho, hn, hout⟩
  · rintro ⟨hfs, hr, ho, hn, hout⟩
    obtain ⟨hf, ht, hs⟩ := rep_fork.mp hr
    rw [top_fork] at hfs
    exact ⟨⟨hf, hs, hfs⟩, ht, ho, hn, hout⟩

theorem at_append : At h₀ xs h (gs ++ fs) t ↔ At h₀ xs h fs (plug gs t) := by
  induction gs generalizing t with
  | nil => rfl
  | cons g gs ih =>
    rw [List.cons_append, at_cons, ih]
    rfl

/-- A tree at a place is the whole tree at the top. -/
theorem at_plug : At h₀ xs h fs t ↔ At h₀ xs h [] (plug fs t) := by
  rw [← at_append, List.append_nil]

theorem holds_of_at (ht : At h₀ xs h fs t) : Holds h (plug fs t) := by
  obtain ⟨hc, hr, ho, hn, -⟩ := at_plug.mp ht
  exact ⟨hc, hr, rfl, by rw [← plug_nil (t := plug fs t), ho]; exact hn, fun _ _ => rfl⟩

theorem at_of_holds (ht : Holds h (plug fs t)) : At h (plug fs t).inorder h fs t := at_plug.mpr ht

theorem At.parts (ht : At h₀ xs h fs t) : (t.inorder ++ around fs).Nodup := by
  rw [← nodup_plug, ht.order]
  exact ht.nodup

theorem At.entry_eq (ht : At h₀ xs h fs (fork d c t a s)) :
    entry (some a) h = .ok (Entry.of d t.top s.top (up fs) c) :=
  DrvTree.entry_eq (rep_fork.mp ht.rep).1

theorem At.node_eq (ht : At h₀ xs h fs (fork d c t a s)) :
    h.node a = some (Entry.of d t.top s.top (up fs) c) := (rep_fork.mp ht.rep).1

theorem At.rbhRoot_eq (ht : At h₀ xs h fs t) : h.rbhRoot = (plug fs t).top := (at_plug.mp ht).ctx

/-- The parts of a node at a place have no label in common. -/
theorem At.apart (ht : At h₀ xs h fs (fork d c t a s)) :
    a ∉ t.inorder ∧ a ∉ s.inorder ∧ a ∉ around fs ∧ t.inorder.Nodup ∧ s.inorder.Nodup ∧
      (around fs).Nodup ∧ (∀ x ∈ t.inorder, x ∉ s.inorder ∧ x ∉ around fs) ∧
        ∀ x ∈ s.inorder, x ∉ around fs := by
  have h := ht.parts
  cases d <;>
    simp only [fork, RTree.inorder, List.nodup_append, List.nodup_cons, List.mem_append,
      List.mem_cons] at h <;>
    grind

/-- The tree at a place is changed to one with the same nodes in order. -/
theorem At.change {t' : RTree ℕ} (ht : At h₀ xs h fs t) (hc : RepCtx h' fs t'.top)
    (hr : Rep h' (up fs) t') (ho : t'.inorder = t.inorder)
    (hout : ∀ x, x ∉ t.inorder → x ∉ around fs → h'.node x = h.node x) : At h₀ xs h' fs t' := by
  refine ⟨hc, hr, ?_, ht.nodup, fun x hx => ?_⟩
  · rw [← ht.order, inorder_plug, inorder_plug, ho]
  · rw [← ht.order, mem_plug, not_or] at hx
    rw [hout x hx.1 hx.2]
    refine ht.out x ?_
    rw [← ht.order, mem_plug, not_or]
    exact hx

/-- The root of the tree at a place is painted. -/
theorem setColor_at (ht : At h₀ xs h fs t) (htop : t.top = some a) (c : Color) :
    ∃ h', setColor (some a) c h = .ok h' ∧ At h₀ xs h' fs (t.paint c) := by
  obtain ⟨t₁, t₂, he⟩ := eq_fork_of_top .left htop
  rw [he] at ht ⊢
  obtain ⟨h1, h2, h3, -⟩ := ht.apart
  obtain ⟨ha, hr1, hr2⟩ := rep_fork.mp ht.rep
  have hctx := ht.ctx
  rw [top_fork] at hctx
  have hne : ∀ {x : ℕ} {l : List ℕ}, a ∉ l → x ∈ l → x ≠ a := by
    rintro x l hal hx rfl
    exact hal hx
  rw [paint_fork]
  refine ⟨_, store_eq ha, ht.change ?_ (rep_fork.mpr ⟨by simp, ?_, ?_⟩) inorder_fork_color ?_⟩
  · rw [top_fork]
    exact repCtx_congr (h := h) rfl (fun x hx => set_node_ne (hne h3 hx)) hctx
  · exact rep_congr (fun x hx => set_node_ne (hne h1 hx)) hr1
  · exact rep_congr (fun x hx => set_node_ne (hne h2 hx)) hr2
  · intro x hx _
    refine set_node_ne ?_
    rintro rfl
    exact hx (mem_inorder_fork.mpr (Or.inr (Or.inl rfl)))

/-- **A rotation.** -/
theorem rotate_at {c' : Color} {b : ℕ} {t₁ t₂ t₃ : RTree ℕ}
    (ht : At h₀ xs h fs (fork d c t₁ a (fork d c' t₂ b t₃))) :
    ∃ h', rbRotate d (some a) h = .ok h' ∧
      At h₀ xs h' fs (fork d c' (fork d c t₁ a t₂) b t₃) := by
  have hin : At h₀ xs h (⟨d.flip, c, a, t₁⟩ :: fs) (fork d c' t₂ b t₃) := by
    rw [at_cons]
    unfold Frame.fill
    rw [fork_flip]
    exact ht
  obtain ⟨ha1, ha2, hafs, -, -, hnfs, h1, h2⟩ := ht.apart
  obtain ⟨hb2, hb3, hbfs, hn2, -, -, h23, -⟩ := hin.apart
  obtain ⟨ha, hr1, hr⟩ := rep_fork.mp ht.rep
  obtain ⟨hb, hr2, hr3⟩ := rep_fork.mp hr
  have hctx := ht.ctx
  rw [top_fork] at ha hctx
  simp only [mem_inorder_fork, around, List.mem_cons, List.mem_append, not_or, or_imp,
    forall_and] at ha2 h1 h2 hbfs h23
  -- the middle subtree becomes a child of `a`
  obtain ⟨g, hg⟩ : ∃ g, g = h.set a (Entry.of d t₁.top t₂.top (up fs) c) := ⟨_, rfl⟩
  have hga : ∀ x, x ≠ a → g.node x = h.node x := by
    rw [hg]
    exact fun x hx => set_node_ne hx
  obtain ⟨g2, hrun2, hroot2, hrep2, hout2⟩ := setParentOf_eq (h := g) (q := some a)
    (rep_congr (fun x hx => hga x (by grind)) hr2) hn2
  have ha2' : g2.node a = some (Entry.of d t₁.top t₂.top (up fs) c) := by
    rw [hout2 a (by grind), hg, set_node_self]
  have hb2' : g2.node b = some (Entry.of d t₂.top t₃.top (some a) c') := by
    rw [hout2 b hb2, hga b (by grind), hb]
  -- `b` takes the place of `a`
  obtain ⟨g3, hg3⟩ : ∃ g3, g3 = g2.set b (Entry.of d t₂.top t₃.top (up fs) c') := ⟨_, rfl⟩
  have hgb : ∀ x, x ≠ b → g3.node x = g2.node x := by
    rw [hg3]
    exact fun x hx => set_node_ne hx
  have hctx3 : RepCtx g3 fs (some a) := by
    refine repCtx_congr ?_ (fun x hx => ?_) hctx
    · rw [hg3, set_rbhRoot, hroot2, hg, set_rbhRoot]
    · rw [hgb x (by grind), hout2 x (by grind), hga x (by grind)]
  obtain ⟨g4, hrun4, hctx4, hout4⟩ :=
    replaceChild_eq hctx3 (List.nodup_cons.mpr ⟨hafs, hnfs⟩) (some b)
  have hb4 : g4.node b = some (Entry.of d t₂.top t₃.top (up fs) c') := by
    rw [hout4 b (by grind), hg3, set_node_self]
  -- `a` becomes a child of `b`
  obtain ⟨g5, hg5⟩ : ∃ g5, g5 = g4.set b (Entry.of d (some a) t₃.top (up fs) c') := ⟨_, rfl⟩
  have hgb5 : ∀ x, x ≠ b → g5.node x = g4.node x := by
    rw [hg5]
    exact fun x hx => set_node_ne hx
  have ha5 : g5.node a = some (Entry.of d t₁.top t₂.top (up fs) c) := by
    rw [hgb5 a (by grind), hout4 a hafs, hgb a (by grind), ha2']
  obtain ⟨g6, hg6⟩ : ∃ g6, g6 = g5.set a (Entry.of d t₁.top t₂.top (some b) c) := ⟨_, rfl⟩
  have hga6 : ∀ x, x ≠ a → g6.node x = g5.node x := by
    rw [hg6]
    exact fun x hx => set_node_ne hx
  have hrun : rbRotate d (some a) h = .ok g6 := by
    unfold rbRotate
    simp only [entry_eq ha, bind, Except.bind, child_flip_of, entry_eq hb, child_of, store_eq ha,
      setChild_flip_of, ← hg, hrun2, entry_eq ha2', rbeParent_of, store_eq hb2', setParent_of,
      ← hg3, hrun4, store_eq hb4, setChild_of, ← hg5, store_eq ha5, ← hg6]
  refine ⟨g6, hrun, ht.change ?_ (rep_fork.mpr ⟨?_, rep_fork.mpr ⟨?_, ?_, ?_⟩, ?_⟩)
    inorder_rotate (fun x hx hxfs => ?_)⟩
  · rw [top_fork]
    refine repCtx_congr ?_ (fun x hx => ?_) hctx4
    · rw [hg6, set_rbhRoot, hg5, set_rbhRoot]
    · rw [hga6 x (by grind), hgb5 x (by grind)]
  · rw [hga6 b (by grind), hg5, set_node_self, top_fork]
  · rw [hg6, set_node_self]
  · refine rep_congr (fun x hx => ?_) hr1
    rw [hga6 x (by grind), hgb5 x (by grind), hout4 x (by grind), hgb x (by grind),
      hout2 x (by grind), hga x (by grind)]
  · refine rep_congr (fun x hx => ?_) hrep2
    rw [hga6 x (by grind), hgb5 x (by grind), hout4 x (by grind), hgb x (by grind)]
  · refine rep_congr (fun x hx => ?_) hr3
    rw [hga6 x (by grind), hgb5 x (by grind), hout4 x (by grind), hgb x (by grind),
      hout2 x (by grind), hga x (by grind)]
  · simp only [mem_inorder_fork, not_or] at hx
    rw [hga6 x (by grind), hgb5 x (by grind), hout4 x hxfs, hgb x (by grind),
      hout2 x (by grind), hga x (by grind)]

end

end Ext4Fsd.Common.DrvTree
