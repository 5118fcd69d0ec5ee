import Mathlib.Tactic

/-! # Lists of disjoint intervals in order

The elements of a list stand for the half-open intervals `[lo a, hi a)` of `ℕ`. `Ordered` says that
they come one after the other. The results locate the interval that covers a number from the facts a
search leaves behind, and keep the order when an interval is put in at the place it found. -/

namespace Ext4Fsd.Lib.Intervals

section
variable {α : Type} {lo hi : α → ℕ}

/-- The intervals of the list follow each other without overlap. -/
def Ordered (lo hi : α → ℕ) (l : List α) : Prop := l.Pairwise fun a b => hi a ≤ lo b

/-- The number `n` lies in the interval of `a`. -/
def Covers (lo hi : α → ℕ) (a : α) (n : ℕ) : Prop := lo a ≤ n ∧ n < hi a

instance (a : α) (n : ℕ) : Decidable (Covers lo hi a n) := by unfold Covers; infer_instance

variable {l r : List α} {a b x : α} {n : ℕ}

theorem ordered_append : Ordered lo hi (l ++ r) ↔
    Ordered lo hi l ∧ Ordered lo hi r ∧ ∀ x ∈ l, ∀ y ∈ r, hi x ≤ lo y :=
  List.pairwise_append

theorem ordered_cons : Ordered lo hi (a :: r) ↔ (∀ y ∈ r, hi a ≤ lo y) ∧ Ordered lo hi r :=
  List.pairwise_cons

/-- Around an element, the earlier intervals end before it and the later ones start after it. -/
theorem ordered_middle (h : Ordered lo hi (l ++ a :: r)) :
    (∀ x ∈ l, hi x ≤ lo a) ∧ ∀ y ∈ r, hi a ≤ lo y := by
  obtain ⟨-, hr, hlr⟩ := ordered_append.mp h
  exact ⟨fun x hx => hlr x hx a List.mem_cons_self, (ordered_cons.mp hr).1⟩

/-- The interval a search settles on is the only one that can cover the number. -/
theorem eq_of_covers (h : Ordered lo hi (l ++ a :: r)) (hr : ∀ x ∈ r, n < lo x)
    (hl : lo a ≤ n ∨ l = []) (hx : x ∈ l ++ a :: r) (hc : Covers lo hi x n) : x = a := by
  obtain ⟨hbefore, -⟩ := ordered_middle h
  obtain ⟨hlo, hhi⟩ := hc
  rcases List.mem_append.mp hx with hx | hx
  · rcases hl with hl | rfl
    · have := hbefore x hx
      omega
    · simp at hx
  · rcases List.mem_cons.mp hx with rfl | hx
    · rfl
    · have := hr x hx
      omega

/-- An interval apart from all others keeps the order where the lower ends say it belongs. -/
theorem ordered_insert (h : Ordered lo hi (l ++ r)) (hpos : ∀ x ∈ l ++ r, lo x ≤ hi x)
    (hb : lo b ≤ hi b) (hlo : (l ++ b :: r).Pairwise fun x y => lo x < lo y)
    (hapart : ∀ x ∈ l ++ r, hi x ≤ lo b ∨ hi b ≤ lo x) : Ordered lo hi (l ++ b :: r) := by
  obtain ⟨h1, h2, h3⟩ := ordered_append.mp h
  obtain ⟨-, k2, k3⟩ := List.pairwise_append.mp hlo
  refine ordered_append.mpr ⟨h1, ordered_cons.mpr ⟨fun y hy => ?_, h2⟩, fun x hx y hy => ?_⟩
  · have hlt := (List.pairwise_cons.mp k2).1 y hy
    have := hpos y (List.mem_append_right _ hy)
    rcases hapart y (List.mem_append_right _ hy) with hd | hd
    · omega
    · exact hd
  · rcases List.mem_cons.mp hy with rfl | hy
    · have hlt := k3 x hx y List.mem_cons_self
      rcases hapart x (List.mem_append_left _ hx) with hd | hd
      · exact hd
      · omega
    · exact h3 x hx y hy

/-- An element may give way to one that starts where it starts. -/
theorem ordered_replace (h : Ordered lo hi (l ++ a :: r)) (hlo : lo b = lo a)
    (hr : ∀ y ∈ r, hi b ≤ lo y) : Ordered lo hi (l ++ b :: r) := by
  obtain ⟨h1, h2, h3⟩ := ordered_append.mp h
  refine ordered_append.mpr ⟨h1, ordered_cons.mpr ⟨hr, (ordered_cons.mp h2).2⟩, fun x hx y hy => ?_⟩
  rcases List.mem_cons.mp hy with rfl | hy
  · rw [hlo]
    exact h3 x hx a List.mem_cons_self
  · exact h3 x hx y (List.mem_cons_of_mem _ hy)

/-- In an ordered list of non-empty intervals the lower ends increase. -/
theorem ordered_lo (h : Ordered lo hi l) (hpos : ∀ x ∈ l, lo x < hi x) :
    l.Pairwise fun a b => lo a < lo b := by
  refine List.Pairwise.imp_of_mem ?_ h
  intro a b ha _ hab
  have := hpos a ha
  omega

/-- Between two parts of an ordered list there is a border. -/
theorem exists_border (h : Ordered lo hi (l ++ r)) :
    ∃ m, (∀ x ∈ l, hi x ≤ m) ∧ ∀ y ∈ r, m ≤ lo y := by
  induction l with
  | nil => exact ⟨0, by simp, fun _ _ => Nat.zero_le _⟩
  | cons a l ih =>
    obtain ⟨ha, hrest⟩ := ordered_cons.mp h
    obtain ⟨m, h1, h2⟩ := ih hrest
    refine ⟨max (hi a) m, fun x hx => ?_, fun y hy => ?_⟩
    · rcases List.mem_cons.mp hx with rfl | hx
      · exact le_max_left _ _
      · exact (h1 x hx).trans (le_max_right _ _)
    · exact max_le (ha y (List.mem_append_right _ hy)) (h2 y hy)

/-! ### The element that covers a number -/

/-- The first element whose interval has `n` in it. -/
def coverOf (lo hi : α → ℕ) (l : List α) (n : ℕ) : Option α := l.find? fun a => Covers lo hi a n

theorem coverOf_eq_none : coverOf lo hi l n = none ↔ ∀ a ∈ l, ¬ Covers lo hi a n := by
  unfold coverOf
  simp

/-- Of intervals in order at most one covers a number. -/
theorem covers_unique (h : Ordered lo hi l) (ha : a ∈ l) (hb : b ∈ l) (hca : Covers lo hi a n)
    (hcb : Covers lo hi b n) : a = b := by
  obtain ⟨ha1, ha2⟩ := hca
  obtain ⟨hb1, hb2⟩ := hcb
  induction l with
  | nil => simp at ha
  | cons x l ih =>
    obtain ⟨hx, hl⟩ := ordered_cons.mp h
    rcases List.mem_cons.mp ha with rfl | ha'
    · rcases List.mem_cons.mp hb with rfl | hb'
      · rfl
      · have := hx b hb'
        omega
    · rcases List.mem_cons.mp hb with rfl | hb'
      · have := hx a ha'
        omega
      · exact ih hl ha' hb'

/-- An element that covers a number alone is the one found. -/
theorem coverOf_of_unique (hmem : a ∈ l) (hc : Covers lo hi a n)
    (hu : ∀ x ∈ l, Covers lo hi x n → x = a) : coverOf lo hi l n = some a := by
  rcases hf : coverOf lo hi l n with _ | x
  · exact absurd hc (coverOf_eq_none.mp hf a hmem)
  · have hx : Covers lo hi x n := by simpa using List.find?_some hf
    rw [hu x (List.mem_of_find?_eq_some hf) hx]

/-- What covers a number lies on its side of a border. -/
theorem coverOf_append {m : ℕ} (hl : ∀ x ∈ l, hi x ≤ m) (hr : ∀ y ∈ r, m ≤ lo y) :
    coverOf lo hi (l ++ r) n = if n < m then coverOf lo hi l n else coverOf lo hi r n := by
  have happ : coverOf lo hi (l ++ r) n = (coverOf lo hi l n).or (coverOf lo hi r n) :=
    List.find?_append
  rw [happ]
  by_cases hn : n < m
  · have hnone : coverOf lo hi r n = none := coverOf_eq_none.mpr fun y hy ⟨h1, _⟩ => by
      have := hr y hy
      omega
    rw [if_pos hn, hnone, Option.or_none]
  · have hnone : coverOf lo hi l n = none := coverOf_eq_none.mpr fun x hx ⟨_, h2⟩ => by
      have := hl x hx
      omega
    rw [if_neg hn, hnone, Option.none_or]

theorem coverOf_eq_some (h : Ordered lo hi l) :
    coverOf lo hi l n = some a ↔ a ∈ l ∧ Covers lo hi a n := by
  constructor
  · intro hf
    exact ⟨List.mem_of_find?_eq_some hf, by simpa using List.find?_some hf⟩
  · rintro ⟨hmem, hc⟩
    exact coverOf_of_unique hmem hc fun x hx hcx => covers_unique h hx hmem hcx hc

end

end Ext4Fsd.Lib.Intervals
