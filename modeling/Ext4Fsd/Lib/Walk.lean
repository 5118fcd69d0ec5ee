import Mathlib.Tactic
import Mathlib.Data.Set.Finite.Basic
import Mathlib.Logic.Relation

/-! # Walks of a partial step function

`walk f n a` is the state after `n` steps of `f` from `a`, `none` once `f` has stopped. A walk that
stays in a finite set stops exactly when it visits no state twice: a repeated state is a cycle, and
without one the states are as many as the steps. -/

namespace Ext4Fsd.Lib.Walk

variable {α : Type*} {f : α → Option α}

/-- The state after `n` steps. -/
def walk (f : α → Option α) : ℕ → α → Option α
  | 0, a => some a
  | n + 1, a => (walk f n a).bind f

/-- The walk stops. -/
def Stops (f : α → Option α) (a : α) : Prop := ∃ n, walk f n a = none

@[simp] theorem walk_zero (a : α) : walk f 0 a = some a := rfl

theorem walk_succ (n : ℕ) (a : α) : walk f (n + 1) a = (walk f n a).bind f := rfl

theorem walk_one (a : α) : walk f 1 a = f a := rfl

theorem walk_add (m n : ℕ) (a : α) : walk f (m + n) a = (walk f m a).bind (walk f n) := by
  induction n with
  | zero => cases walk f m a <;> rfl
  | succ n ih =>
    rw [← Nat.add_assoc, walk_succ, ih]
    cases walk f m a <;> rfl

theorem walk_succ' (n : ℕ) (a : α) : walk f (n + 1) a = (f a).bind (walk f n) := by
  rw [Nat.add_comm, walk_add]
  rfl

theorem walk_none_of_le {m n : ℕ} {a : α} (h : walk f m a = none) (hmn : m ≤ n) :
    walk f n a = none := by
  obtain ⟨k, rfl⟩ := Nat.exists_eq_add_of_le hmn
  rw [walk_add, h]; rfl

theorem walk_of_steps {s : ℕ → α} {n : ℕ} (h : ∀ i < n, f (s i) = some (s (i + 1))) :
    walk f n (s 0) = some (s n) := by
  induction n with
  | zero => rfl
  | succ n ih =>
    rw [walk_succ, ih fun i hi => h i (hi.trans n.lt_succ_self), Option.bind_some]
    exact h n n.lt_succ_self

/-- A walk stops once: after one number of steps, at one state. -/
theorem walk_stop_index {m n : ℕ} {a s t : α} (hm : walk f m a = some s) (hs : f s = none)
    (hn : walk f n a = some t) (ht : f t = none) : m = n := by
  have hback : ∀ {i j : ℕ} {u v : α}, i < j → walk f i a = some u → f u = none →
      walk f j a ≠ some v := by
    intro i j u v hij hi hu hj
    have h1 : walk f (i + 1) a = none := by rw [walk_succ, hi]; exact hu
    rw [walk_none_of_le h1 hij] at hj
    cases hj
  rcases Nat.lt_trichotomy m n with h | h | h
  · exact absurd hn (hback h hm hs)
  · exact h
  · exact absurd hm (hback h hn ht)

/-- The state at which a walk stops is the only one. -/
theorem walk_stop_unique {m n : ℕ} {a s t : α} (hm : walk f m a = some s) (hs : f s = none)
    (hn : walk f n a = some t) (ht : f t = none) : s = t := by
  rw [walk_stop_index hm hs hn ht] at hm
  exact Option.some.inj (hm.symm.trans hn)

theorem walk_some_of_le {m n : ℕ} {a s : α} (h : walk f n a = some s) (hmn : m ≤ n) :
    ∃ t, walk f m a = some t := by
  cases ht : walk f m a with
  | some t => exact ⟨t, rfl⟩
  | none => rw [walk_none_of_le ht hmn] at h; cases h

/-- An invariant of the step function holds along the walk. -/
theorem walk_invariant {P : α → Prop} {a : α} (h0 : P a)
    (hs : ∀ s t, P s → f s = some t → P t) : ∀ n s, walk f n a = some s → P s := by
  intro n
  induction n with
  | zero => intro s h; cases h; exact h0
  | succ n ih =>
    intro s h
    rw [walk_succ, Option.bind_eq_some_iff] at h
    obtain ⟨t, ht, hst⟩ := h
    exact hs t s (ih t ht) hst

/-- A state seen at `i` and at `i + (p + 1)` is seen again after every further period. -/
theorem walk_period {a s : α} {i p : ℕ} (hi : walk f i a = some s)
    (hj : walk f (i + (p + 1)) a = some s) (k : ℕ) :
    walk f (i + k * (p + 1)) a = some s := by
  have hp : walk f (p + 1) s = some s := by
    rw [walk_add, hi] at hj
    exact hj
  induction k with
  | zero => rwa [Nat.zero_mul]
  | succ k ih =>
    rw [Nat.succ_mul, ← Nat.add_assoc, walk_add, ih]
    exact hp

theorem not_stops_of_repeat {a s : α} {i j : ℕ} (hij : i < j) (hi : walk f i a = some s)
    (hj : walk f j a = some s) : ¬ Stops f a := by
  rintro ⟨n, hn⟩
  obtain ⟨p, rfl⟩ := Nat.exists_eq_add_of_lt hij
  have h := walk_period hi (p := p) hj n
  have hle : n ≤ i + n * (p + 1) := by
    have : n * 1 ≤ n * (p + 1) := Nat.mul_le_mul_left n (by omega)
    omega
  rw [walk_none_of_le hn hle] at h
  cases h

/-! ### Cycles -/

/-- Where a walk does not stop there is a step from every state it comes to. -/
theorem step_of_not_stops {a s : α} {n : ℕ} (hns : ¬ Stops f a) (hw : walk f n a = some s) :
    ∃ t, f s = some t := by
  refine Option.ne_none_iff_exists'.mp fun hnone => hns ⟨n + 1, ?_⟩
  rw [walk_succ, hw]
  exact hnone

section
variable {β : Type*} {r : β → β → Prop} {g : β → α} {b c : β}

/-- A walk that makes the steps of a relation follows it. -/
theorem walk_of_reflTransGen (hr : ∀ x y, r x y → f (g x) = some (g y))
    (h : Relation.ReflTransGen r b c) : ∃ n, walk f n (g b) = some (g c) := by
  induction h with
  | refl => exact ⟨0, rfl⟩
  | tail _ hxy ih =>
    obtain ⟨n, hn⟩ := ih
    refine ⟨n + 1, ?_⟩
    rw [walk_succ, hn]
    exact hr _ _ hxy

theorem walk_of_transGen (hr : ∀ x y, r x y → f (g x) = some (g y))
    (h : Relation.TransGen r b c) : ∃ n, walk f (n + 1) (g b) = some (g c) := by
  obtain ⟨x, hbx, hxc⟩ := Relation.TransGen.tail'_iff.mp h
  obtain ⟨n, hn⟩ := walk_of_reflTransGen hr hbx
  refine ⟨n, ?_⟩
  rw [walk_succ, hn]
  exact hr _ _ hxc

/-- A walk that comes to a cycle of a relation whose steps it makes does not stop. -/
theorem not_stops_of_cycle {a : α} {i : ℕ} (hr : ∀ x y, r x y → f (g x) = some (g y))
    (hi : walk f i a = some (g b)) (hb : Relation.TransGen r b b) : ¬ Stops f a := by
  obtain ⟨n, hn⟩ := walk_of_transGen hr hb
  have hj : walk f (i + (n + 1)) a = some (g b) := by
    rw [walk_add, hi]
    exact hn
  exact not_stops_of_repeat (by omega) hi hj

/-- **A relation that leads on from all it leads to, within a finite set, leads into a cycle.** -/
theorem exists_cycle {F : Set β} (hF : F.Finite)
    (hin : ∀ c, Relation.ReflTransGen r b c → c ∈ F)
    (hon : ∀ c, Relation.ReflTransGen r b c → ∃ d, r c d) :
    ∃ c, Relation.ReflTransGen r b c ∧ Relation.TransGen r c c := by
  have hfin : Finite {c // Relation.ReflTransGen r b c} := (hF.subset hin).to_subtype
  have hnext : ∀ x : {c // Relation.ReflTransGen r b c},
      ∃ y : {c // Relation.ReflTransGen r b c}, r x y := by
    rintro ⟨c, hc⟩
    obtain ⟨d, hd⟩ := hon c hc
    exact ⟨⟨d, hc.tail hd⟩, hd⟩
  choose g hg using hnext
  obtain ⟨d, hd⟩ : ∃ d : ℕ → {c // Relation.ReflTransGen r b c}, ∀ i, r (d i) (d (i + 1)) :=
    ⟨fun n => g^[n] ⟨b, .refl⟩, fun n => by
      dsimp only
      rw [Function.iterate_succ_apply']
      exact hg _⟩
  have hfar : ∀ i k, Relation.TransGen r (d i) (d (i + k + 1)) := by
    intro i k
    induction k with
    | zero => exact .single (hd i)
    | succ k ih => exact ih.tail (hd _)
  obtain ⟨i, j, hne, hij⟩ := Finite.exists_ne_map_eq_of_infinite d
  rcases Nat.lt_or_gt_of_ne hne with h | h
  · obtain ⟨k, rfl⟩ := Nat.exists_eq_add_of_lt h
    have hcycle := hfar i k
    rw [← hij] at hcycle
    exact ⟨d i, (d i).2, hcycle⟩
  · obtain ⟨k, rfl⟩ := Nat.exists_eq_add_of_lt h
    have hcycle := hfar j k
    rw [hij] at hcycle
    exact ⟨d j, (d j).2, hcycle⟩

end

end Ext4Fsd.Lib.Walk
