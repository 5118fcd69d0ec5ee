import Mathlib.Tactic

/-! # Red-black trees

A red-black tree, and a place in one: a `plug` of frames, each with the side of the hole, the colour
and label of a node and the subtree on the other side. `IsRb c n t` says that `t` is a red-black
tree with a root of colour `c` and `n` black nodes on every path down; `Hole fs c n` that such a
tree fits the place `fs` (`valid_plug`). A node with a side, `fork`, is one definition for both
mirror images.

A tree with `n` nodes has height at most `2 * log2 (n + 1)` (`height_le`). -/

namespace Ext4Fsd.Lib.RbTree

/-! ### Trees -/

inductive Color
  | red
  | black
  deriving DecidableEq, Repr

inductive Side
  | left
  | right
  deriving DecidableEq, Repr

/-- The other side. -/
def Side.flip : Side → Side
  | .left => .right
  | .right => .left

@[simp] theorem Side.flip_flip (d : Side) : d.flip.flip = d := by cases d <;> rfl

@[simp] theorem Side.flip_ne (d : Side) : d.flip ≠ d := by cases d <;> decide

@[simp] theorem Side.ne_flip (d : Side) : d ≠ d.flip := by cases d <;> decide

theorem Side.eq_right {d : Side} (h : d ≠ .left) : d = .right := by
  cases d
  · exact absurd rfl h
  · rfl

theorem Side.eq_of_ne_flip {d d' : Side} (h : d' ≠ d.flip) : d' = d := by
  cases d <;> cases d' <;> first | rfl | exact absurd rfl h

theorem Color.eq_black {c : Color} (h : c ≠ .red) : c = .black := by
  cases c
  · exact absurd rfl h
  · rfl

theorem Color.eq_red {c : Color} (h : c ≠ .black) : c = .red := by
  cases c
  · rfl
  · exact absurd rfl h

inductive RTree (α : Type)
  | nil
  | node (c : Color) (l : RTree α) (a : α) (r : RTree α)
  deriving DecidableEq, Repr

section
variable {α : Type}

/-- The label of the root. -/
def RTree.top : RTree α → Option α
  | .nil => none
  | .node _ _ a _ => some a

/-- The colour of the root; no node counts as black. -/
def RTree.color : RTree α → Color
  | .nil => .black
  | .node c _ _ _ => c

def RTree.inorder : RTree α → List α
  | .nil => []
  | .node _ l a r => l.inorder ++ a :: r.inorder

def RTree.height : RTree α → ℕ
  | .nil => 0
  | .node _ l _ r => max l.height r.height + 1

/-- The tree with the root painted. -/
def RTree.paint (c : Color) : RTree α → RTree α
  | .nil => .nil
  | .node _ l a r => .node c l a r

/-- The node with `t` on side `d` and `s` on the other. -/
def fork (d : Side) (c : Color) (t : RTree α) (a : α) (s : RTree α) : RTree α :=
  match d with
  | .left => .node c t a s
  | .right => .node c s a t

variable {c c' : Color} {d : Side} {l r s t : RTree α} {a b : α}

theorem node_eq_fork (d : Side) (c : Color) (l : RTree α) (a : α) (r : RTree α) :
    ∃ t s, RTree.node c l a r = fork d c t a s := by
  cases d
  · exact ⟨l, r, rfl⟩
  · exact ⟨r, l, rfl⟩

theorem fork_flip (d : Side) (c : Color) (t : RTree α) (a : α) (s : RTree α) :
    fork d.flip c t a s = fork d c s a t := by cases d <;> rfl

@[simp] theorem top_nil : (RTree.nil : RTree α).top = none := rfl

@[simp] theorem top_node : (RTree.node c l a r).top = some a := rfl

@[simp] theorem top_fork : (fork d c t a s).top = some a := by cases d <;> rfl

@[simp] theorem color_fork : (fork d c t a s).color = c := by cases d <;> rfl

@[simp] theorem paint_fork : (fork d c t a s).paint c' = fork d c' t a s := by cases d <;> rfl

@[simp] theorem inorder_paint : (t.paint c).inorder = t.inorder := by cases t <;> rfl

@[simp] theorem top_paint : (t.paint c).top = t.top := by cases t <;> rfl

@[simp] theorem mem_inorder_fork :
    b ∈ (fork d c t a s).inorder ↔ b ∈ t.inorder ∨ b = a ∨ b ∈ s.inorder := by
  cases d
  · simp only [fork, RTree.inorder, List.mem_append, List.mem_cons]
  · simp only [fork, RTree.inorder, List.mem_append, List.mem_cons]
    tauto

theorem top_eq_none : t.top = none ↔ t = .nil := by
  cases t <;> simp [RTree.top]

theorem eq_fork_of_top (d : Side) (h : t.top = some a) : ∃ t₁ t₂, t = fork d t.color t₁ a t₂ := by
  cases t with
  | nil => cases h
  | node c l b r =>
    cases h
    exact node_eq_fork d c l a r

/-- Induction along one side and the other. -/
theorem fork_induction {P : RTree α → Prop} (d : Side) (nil : P .nil)
    (fork : ∀ c t a s, P t → P s → P (fork d c t a s)) (t : RTree α) : P t := by
  induction t with
  | nil => exact nil
  | node c l a r ihl ihr =>
    cases d
    · exact fork c l a r ihl ihr
    · exact fork c r a l ihr ihl

theorem height_fork : (fork d c t a s).height = max t.height s.height + 1 := by
  cases d
  · rfl
  · simp only [fork, RTree.height, max_comm]

/-- A rotation keeps the order. -/
theorem inorder_rotate {t₁ t₂ t₃ : RTree α} :
    (fork d c' (fork d c t₁ a t₂) b t₃).inorder =
      (fork d c t₁ a (fork d c' t₂ b t₃)).inorder := by
  cases d <;> simp [fork, RTree.inorder]

theorem inorder_fork_color : (fork d c t a s).inorder = (fork d c' t a s).inorder := by
  cases d <;> rfl

/-! ### Places -/

/-- A node above a hole: the side of the hole, the node, the subtree on the other side. -/
structure Frame (α : Type) where
  side : Side
  color : Color
  label : α
  sibling : RTree α

/-- The node of the frame with `t` in the hole. -/
def Frame.fill (f : Frame α) (t : RTree α) : RTree α := fork f.side f.color t f.label f.sibling

/-- The tree with `t` at the place `fs`, whose innermost frame comes first. -/
def plug : List (Frame α) → RTree α → RTree α
  | [], t => t
  | f :: fs, t => plug fs (f.fill t)

/-- The label of the node above the hole. -/
def up : List (Frame α) → Option α
  | [] => none
  | f :: _ => some f.label

/-- What comes before the hole in order. -/
def before : List (Frame α) → List α
  | [] => []
  | ⟨.left, _, _, _⟩ :: fs => before fs
  | ⟨.right, _, a, s⟩ :: fs => before fs ++ (s.inorder ++ [a])

/-- What comes after the hole in order. -/
def after : List (Frame α) → List α
  | [] => []
  | ⟨.left, _, a, s⟩ :: fs => a :: (s.inorder ++ after fs)
  | ⟨.right, _, _, _⟩ :: fs => after fs

/-- The labels around the hole, from the inside out. -/
def around : List (Frame α) → List α
  | [] => []
  | f :: fs => f.label :: (f.sibling.inorder ++ around fs)

variable {f : Frame α} {fs gs : List (Frame α)}

@[simp] theorem plug_nil : plug [] t = t := rfl

theorem plug_cons : plug (f :: fs) t = plug fs (f.fill t) := rfl

theorem plug_append : plug (gs ++ fs) t = plug fs (plug gs t) := by
  induction gs generalizing t with
  | nil => rfl
  | cons g gs ih => exact ih

@[simp] theorem up_cons : up (f :: fs) = some f.label := rfl

theorem inorder_plug : (plug fs t).inorder = before fs ++ t.inorder ++ after fs := by
  induction fs generalizing t with
  | nil => simp [before, after]
  | cons f fs ih =>
    obtain ⟨d, c, a, s⟩ := f
    rw [plug_cons, ih]
    cases d <;> simp [Frame.fill, fork, before, after, RTree.inorder]

theorem around_perm : (around fs).Perm (before fs ++ after fs) := by
  classical
  rw [List.perm_iff_count]
  intro x
  induction fs with
  | nil => rfl
  | cons f fs ih =>
    obtain ⟨d, c, a, s⟩ := f
    simp only [List.count_append] at ih
    cases d
    · simp only [around, before, after, List.count_cons, List.count_append]
      omega
    · simp only [around, before, after, List.count_cons, List.count_append, List.count_nil]
      omega

/-- No label occurs twice in the whole tree: a fact about its parts. -/
theorem nodup_plug : (plug fs t).inorder.Nodup ↔ (t.inorder ++ around fs).Nodup := by
  have h : (plug fs t).inorder.Perm (t.inorder ++ around fs) := by
    rw [inorder_plug]
    refine List.Perm.trans ?_ (around_perm.symm.append_left _)
    rw [← List.append_assoc]
    exact List.perm_append_comm.append_right _
  exact h.nodup_iff

theorem mem_around : a ∈ around fs ↔ a ∈ before fs ∨ a ∈ after fs := by
  rw [around_perm.mem_iff, List.mem_append]

theorem mem_plug : a ∈ (plug fs t).inorder ↔ a ∈ t.inorder ∨ a ∈ around fs := by
  rw [inorder_plug, mem_around]
  simp only [List.mem_append]
  tauto

/-- Every node of a tree has a place in it. -/
theorem exists_place (ha : a ∈ t.inorder) : ∃ fs c l r, t = plug fs (.node c l a r) := by
  induction t with
  | nil => cases ha
  | node c l b r ihl ihr =>
    simp only [RTree.inorder, List.mem_append, List.mem_cons] at ha
    rcases ha with ha | rfl | ha
    · obtain ⟨fs, c', l', r', rfl⟩ := ihl ha
      exact ⟨fs ++ [⟨.left, c, b, r⟩], c', l', r', by rw [plug_append]; rfl⟩
    · exact ⟨[], c, l, r, rfl⟩
    · obtain ⟨fs, c', l', r', rfl⟩ := ihr ha
      exact ⟨fs ++ [⟨.right, c, b, l⟩], c', l', r', by rw [plug_append]; rfl⟩

theorem height_plug_le : t.height + fs.length ≤ (plug fs t).height := by
  induction fs generalizing t with
  | nil => simp
  | cons f fs ih =>
    have h := ih (t := f.fill t)
    have hf : t.height + 1 ≤ (f.fill t).height := by
      unfold Frame.fill
      rw [height_fork]
      omega
    rw [plug_cons, List.length_cons]
    omega

theorem length_lt_height_plug (ht : t ≠ .nil) : fs.length < (plug fs t).height := by
  have h : t.height + fs.length ≤ (plug fs t).height := height_plug_le
  cases t with
  | nil => exact absurd rfl ht
  | node c l a r =>
    simp only [RTree.height] at h
    omega

/-! ### The colours -/

/-- A red-black tree whose root has colour `c`, with `n` black nodes on every path down. -/
inductive IsRb : Color → ℕ → RTree α → Prop
  | nil : IsRb .black 0 .nil
  | red {n : ℕ} {l r : RTree α} {a : α} (hl : IsRb .black n l) (hr : IsRb .black n r) :
      IsRb .red n (.node .red l a r)
  | black {n : ℕ} {c c' : Color} {l r : RTree α} {a : α} (hl : IsRb c n l) (hr : IsRb c' n r) :
      IsRb .black (n + 1) (.node .black l a r)

/-- A red-black tree with a root of either colour. -/
def Balanced (n : ℕ) (t : RTree α) : Prop := ∃ c, IsRb c n t

/-- A red-black tree as it stands between two operations: the root is black. -/
def Valid (t : RTree α) : Prop := ∃ n, IsRb .black n t

/-- A tree with a root of colour `c` and black height `n` fits the place. -/
inductive Hole : List (Frame α) → Color → ℕ → Prop
  | top {n : ℕ} : Hole [] .black n
  | red {n : ℕ} {d : Side} {a : α} {s : RTree α} {fs : List (Frame α)} (hs : IsRb .black n s)
      (hfs : Hole fs .red n) : Hole (⟨d, .red, a, s⟩ :: fs) .black n
  | black {n : ℕ} {c : Color} {d : Side} {a : α} {s : RTree α} {fs : List (Frame α)}
      (hs : Balanced n s) (hfs : Hole fs .black (n + 1)) : Hole (⟨d, .black, a, s⟩ :: fs) c n

variable {n : ℕ}

theorem IsRb.color_eq (h : IsRb c n t) : t.color = c := by
  cases h <;> rfl

theorem isRb_fork_red :
    IsRb c n (fork d .red t a s) ↔ c = .red ∧ IsRb .black n t ∧ IsRb .black n s := by
  constructor
  · intro h
    cases d <;> cases h with
    | red hl hr => exact ⟨rfl, by assumption, by assumption⟩
  · rintro ⟨rfl, ht, hs⟩
    cases d
    · exact .red ht hs
    · exact .red hs ht

theorem isRb_fork_black :
    IsRb c n (fork d .black t a s) ↔ c = .black ∧ ∃ m, n = m + 1 ∧ Balanced m t ∧ Balanced m s := by
  constructor
  · intro h
    cases d <;> cases h with
    | black hl hr => exact ⟨rfl, _, rfl, ⟨_, by assumption⟩, ⟨_, by assumption⟩⟩
  · rintro ⟨rfl, m, rfl, ⟨c₁, ht⟩, ⟨c₂, hs⟩⟩
    cases d
    · exact .black ht hs
    · exact .black hs ht

theorem hole_cons :
    Hole (f :: fs) c n ↔
      f.color = .red ∧ c = .black ∧ IsRb .black n f.sibling ∧ Hole fs .red n ∨
        f.color = .black ∧ Balanced n f.sibling ∧ Hole fs .black (n + 1) := by
  obtain ⟨d, c', a, s⟩ := f
  constructor
  · rintro (_ | ⟨hs, hfs⟩ | ⟨hs, hfs⟩)
    · exact Or.inl ⟨rfl, rfl, hs, hfs⟩
    · exact Or.inr ⟨rfl, hs, hfs⟩
  · rintro (⟨hc, rfl, hs, hfs⟩ | ⟨hc, hs, hfs⟩)
    · cases hc
      exact .red hs hfs
    · cases hc
      exact .black hs hfs

/-- A place for a red root is one for a black root. -/
theorem Hole.of_red (h : Hole fs .red n) : Hole fs .black n := by
  cases h with
  | black hs hfs => exact .black hs hfs

theorem hole_top_red : ¬ Hole ([] : List (Frame α)) .red n := by
  rintro ⟨⟩

/-- Whether a tree fits a place does not depend on the labels. -/
theorem hole_relabel {s : RTree α} :
    Hole (gs ++ ⟨d, c', a, s⟩ :: fs) c n ↔ Hole (gs ++ ⟨d, c', b, s⟩ :: fs) c n := by
  induction gs generalizing c n with
  | nil => simp only [List.nil_append, hole_cons]
  | cons g gs ih => simp only [List.cons_append, hole_cons, ih]

/-- **A tree that fits a place makes a red-black tree of the whole**, and only such a tree does. -/
theorem valid_plug : Valid (plug fs t) ↔ ∃ c n, IsRb c n t ∧ Hole fs c n := by
  induction fs generalizing t with
  | nil =>
    constructor
    · rintro ⟨n, h⟩
      exact ⟨.black, n, h, .top⟩
    · rintro ⟨c, n, h, ⟨⟩⟩
      exact ⟨n, h⟩
  | cons f fs ih =>
    obtain ⟨d, c', a, s⟩ := f
    rw [plug_cons, ih]
    unfold Frame.fill
    cases c' with
    | red =>
      simp only [isRb_fork_red, hole_cons]
      constructor
      · rintro ⟨c, n, ⟨rfl, ht, hs⟩, hfs⟩
        exact ⟨.black, n, ht, Or.inl ⟨trivial, rfl, hs, hfs⟩⟩
      · rintro ⟨c, n, ht, ⟨-, rfl, hs, hfs⟩ | ⟨hc, -⟩⟩
        · exact ⟨.red, n, ⟨rfl, ht, hs⟩, hfs⟩
        · cases hc
    | black =>
      simp only [isRb_fork_black, hole_cons]
      constructor
      · rintro ⟨c, n, ⟨rfl, m, rfl, ⟨c₁, ht⟩, hs⟩, hfs⟩
        exact ⟨c₁, m, ht, Or.inr ⟨trivial, hs, hfs⟩⟩
      · rintro ⟨c, n, ht, ⟨hc, -⟩ | ⟨-, hs, hfs⟩⟩
        · cases hc
        · exact ⟨.black, n + 1, ⟨rfl, n, rfl, ⟨c, ht⟩, hs⟩, hfs⟩

/-! ### Height -/

theorem IsRb.height_le (h : IsRb c n t) : t.height ≤ 2 * n + if c = .red then 1 else 0 := by
  induction h with
  | nil => simp [RTree.height]
  | red _ _ ihl ihr =>
    simp only [reduceCtorEq, if_false, if_true, RTree.height] at ihl ihr ⊢
    omega
  | @black n c c' l r a _ _ ihl ihr =>
    have h1 : (if c = Color.red then 1 else 0) ≤ 1 := by split <;> omega
    have h2 : (if c' = Color.red then 1 else 0) ≤ 1 := by split <;> omega
    simp only [reduceCtorEq, if_false, RTree.height]
    omega

theorem IsRb.two_pow_le (h : IsRb c n t) : 2 ^ n ≤ t.inorder.length + 1 := by
  induction h with
  | nil => simp [RTree.inorder]
  | red _ _ ihl ihr =>
    simp only [RTree.inorder, List.length_append, List.length_cons]
    omega
  | black _ _ ihl ihr =>
    simp only [RTree.inorder, List.length_append, List.length_cons, pow_succ]
    omega

/-- **The maximum height of a red-black tree with `n` nodes is `2 * log2 (n + 1)`.** -/
theorem height_le (h : Valid t) : t.height ≤ 2 * Nat.log 2 (t.inorder.length + 1) := by
  obtain ⟨n, h⟩ := h
  have hn : n ≤ Nat.log 2 (t.inorder.length + 1) := Nat.le_log_of_pow_le (by omega) h.two_pow_le
  have hh := h.height_le
  simp only [reduceCtorEq, if_false] at hh
  omega

end

/-! ### Search trees -/

section
variable {α K : Type} [LinearOrder K] {key : α → K} {k : K} {fs : List (Frame α)} {c : Color}
  {l r t : RTree α} {a : α}

/-- The labels in the order of their keys, no key twice. -/
def Ascending (key : α → K) (xs : List α) : Prop := xs.Pairwise fun a b => key a < key b

/-- The keys around the hole leave room for `k`. -/
def Straddles (key : α → K) (k : K) (fs : List (Frame α)) : Prop :=
  (∀ x ∈ before fs, key x < k) ∧ ∀ x ∈ after fs, k < key x

theorem Ascending.nodup {xs : List α} (h : Ascending key xs) : xs.Nodup :=
  List.Pairwise.imp (fun {a b} hab he => absurd hab (by rw [he]; exact lt_irrefl _)) h

/-- In a search tree two labels with one key are one label. -/
theorem Ascending.eq_of_key {xs : List α} {b : α} (h : Ascending key xs) (ha : a ∈ xs) (hb : b ∈ xs)
    (hk : key a = key b) : a = b := by
  have hnd : (xs.map key).Nodup :=
    List.pairwise_map.mpr (List.Pairwise.imp (fun hab => ne_of_lt hab) h)
  exact List.inj_on_of_nodup_map hnd ha hb hk

theorem straddles_nil : Straddles key k ([] : List (Frame α)) := by
  simp [Straddles, before, after]

theorem ascending_parts (h : Ascending key (plug fs (.node c l a r)).inorder) :
    (∀ x ∈ l.inorder, key x < key a) ∧ (∀ x ∈ r.inorder, key a < key x) ∧
      (∀ x ∈ before fs, key x < key a) ∧ ∀ x ∈ after fs, key a < key x := by
  unfold Ascending at h
  rw [inorder_plug] at h
  simp only [RTree.inorder, List.pairwise_append, List.pairwise_cons, List.mem_append,
    List.mem_cons] at h
  grind

/-- A smaller key belongs on the left of a node. -/
theorem straddles_left (h : Ascending key (plug fs (.node c l a r)).inorder)
    (hk : Straddles key k fs) (ha : k < key a) : Straddles key k (⟨.left, c, a, r⟩ :: fs) := by
  obtain ⟨-, hr, -⟩ := ascending_parts h
  refine ⟨hk.1, fun x hx => ?_⟩
  simp only [after, List.mem_cons, List.mem_append] at hx
  rcases hx with rfl | hx | hx
  · exact ha
  · exact ha.trans (hr x hx)
  · exact hk.2 x hx

/-- A larger key belongs on the right of a node. -/
theorem straddles_right (h : Ascending key (plug fs (.node c l a r)).inorder)
    (hk : Straddles key k fs) (ha : key a < k) : Straddles key k (⟨.right, c, a, l⟩ :: fs) := by
  obtain ⟨hl, -⟩ := ascending_parts h
  refine ⟨fun x hx => ?_, hk.2⟩
  simp only [before, List.mem_append, List.mem_singleton] at hx
  rcases hx with hx | hx | rfl
  · exact hk.1 x hx
  · exact (hl x hx).trans ha
  · exact ha

/-- At the end of a search the key is nowhere in the tree. -/
theorem not_mem_of_straddles (hk : Straddles key k fs) :
    ∀ x ∈ (plug fs (.nil : RTree α)).inorder, key x ≠ k := by
  intro x hx
  rw [inorder_plug] at hx
  simp only [RTree.inorder, List.append_nil, List.mem_append] at hx
  rcases hx with hx | hx
  · exact (hk.1 x hx).ne
  · exact (hk.2 x hx).ne'

/-- A label put where the search for its key ends keeps the order. -/
theorem ascending_insert (h : Ascending key (before fs ++ after fs))
    (hk : Straddles key (key a) fs) : Ascending key (before fs ++ a :: after fs) := by
  unfold Ascending at h ⊢
  rw [List.pairwise_append] at h ⊢
  refine ⟨h.1, List.pairwise_cons.mpr ⟨hk.2, h.2.1⟩, fun x hx y hy => ?_⟩
  rcases List.mem_cons.mp hy with rfl | hy
  · exact hk.1 x hx
  · exact h.2.2 x hx y hy

end

end Ext4Fsd.Lib.RbTree
