import Mathlib.Tactic

/-! # Programs that record what they touch

`Traced ε α` is a pure program that returns an `α` and lists the events `ε` on the way: a writer
over lists. A function is instrumented by writing its accesses into its body: `val` forgets the
events again, so that one lemma `val = function` ties the two together, and what is proved about the
events is a fact about the function.

`Logs P x` says that every event of `x` satisfies `P`; it has one rule for each construct.
`view f x` is what a partial function `f` makes of the events, in order. `Follows P x y` says that
`y` is the same program as `x` as far as events that satisfy `P` can tell. -/

namespace Ext4Fsd.Lib.Recording

/-- A program with a log of events. -/
structure Traced (ε α : Type) where
  result : α
  events : List ε

variable {ε α β γ : Type}

-- Not the projections themselves, which the kernel unfolds before it compares their arguments.
/-- The result. -/
def Traced.val (x : Traced ε α) : α := x.result

/-- The events, the first one first. -/
def Traced.log (x : Traced ε α) : List ε := x.events

protected def Traced.pure (a : α) : Traced ε α := ⟨a, []⟩

protected def Traced.bind (x : Traced ε α) (f : α → Traced ε β) : Traced ε β :=
  ⟨(f x.val).val, x.log ++ (f x.val).log⟩

instance : Monad (Traced ε) where
  pure := Traced.pure
  bind := Traced.bind

/-- Record one event. -/
def emit (e : ε) : Traced ε Unit := ⟨(), [e]⟩

-- Rewritten with, and not left to the kernel as definitional: there the branches of a program would
-- be evaluated.
@[simp] theorem val_pure (a : α) : (pure a : Traced ε α).val = a := (rfl)

@[simp] theorem val_emit (e : ε) : (emit e).val = () := (rfl)

@[simp] theorem val_bind (x : Traced ε α) (f : α → Traced ε β) :
    Traced.val (x >>= f) = (f x.val).val := (rfl)

@[simp] theorem val_ite {c : Prop} [Decidable c] (x y : Traced ε α) :
    (if c then x else y).val = if c then x.val else y.val := apply_ite Traced.val c x y

@[simp] theorem log_pure (a : α) : (pure a : Traced ε α).log = [] := (rfl)

@[simp] theorem log_emit (e : ε) : (emit e).log = [e] := (rfl)

@[simp] theorem log_bind (x : Traced ε α) (f : α → Traced ε β) :
    Traced.log (x >>= f) = x.log ++ (f x.val).log := (rfl)

/-! ### Every event -/

/-- Every event of `x` satisfies `P`. -/
def Logs (P : ε → Prop) (x : Traced ε α) : Prop := ∀ e ∈ x.log, P e

variable {P : ε → Prop} {x : Traced ε α}

theorem logs_pure (a : α) : Logs P (pure a : Traced ε α) := by
  intro e he
  cases he

theorem logs_emit {e : ε} (h : P e) : Logs P (emit e) := by
  intro e' he
  rw [log_emit, List.mem_singleton] at he
  rw [he]
  exact h

/-- The rule for a sequence: the second part is only asked about the result of the first. -/
theorem logs_bind {f : α → Traced ε β} (hx : Logs P x) (hf : Logs P (f x.val)) :
    Logs P (x >>= f) := by
  intro e he
  rw [log_bind, List.mem_append] at he
  rcases he with he | he
  · exact hx e he
  · exact hf e he

theorem logs_ite {c : Prop} [Decidable c] {y : Traced ε α} (hx : c → Logs P x)
    (hy : ¬ c → Logs P y) : Logs P (if c then x else y) := by
  split_ifs with h
  · exact hx h
  · exact hy h

/-! ### Two programs -/

/-- If every event of `x` satisfies `P`, then `y` does the same. -/
def Follows (P : ε → Prop) (x y : Traced ε α) : Prop := Logs P x → y = x

theorem follows_refl (x : Traced ε α) : Follows P x x := fun _ => rfl

theorem follows_bind {y : Traced ε α} {f g : α → Traced ε β} (hx : Follows P x y)
    (hf : Follows P (f x.val) (g x.val)) : Follows P (x >>= f) (y >>= g) := by
  intro hlogs
  have hfirst : Logs P x := fun e he => hlogs e (List.mem_append_left _ he)
  have hrest : Logs P (f x.val) := fun e he => hlogs e (List.mem_append_right _ he)
  rw [hx hfirst]
  change Traced.bind x g = Traced.bind x f
  unfold Traced.bind
  rw [hf hrest]

theorem follows_ite {c : Prop} [Decidable c] {x' y y' : Traced ε α} (hx : c → Follows P x x')
    (hy : ¬ c → Follows P y y') : Follows P (if c then x else y) (if c then x' else y') := by
  split_ifs with h
  · exact hx h
  · exact hy h

/-! ### A part of the events -/

/-- What `f` makes of the events of `x`. -/
def view (f : ε → Option γ) (x : Traced ε α) : List γ := x.log.filterMap f

variable {f : ε → Option γ}

@[simp] theorem view_pure (a : α) : view f (pure a : Traced ε α) = [] := rfl

@[simp] theorem view_emit (e : ε) : view f (emit e) = (f e).toList := by
  unfold view
  rw [log_emit]
  cases h : f e <;> simp [h]

@[simp] theorem view_bind (g : α → Traced ε β) :
    view f (x >>= g) = view f x ++ view f (g x.val) := by
  unfold view
  rw [log_bind, List.filterMap_append]

@[simp] theorem view_ite {c : Prop} [Decidable c] (y : Traced ε α) :
    view f (if c then x else y) = if c then view f x else view f y := apply_ite (view f) c x y

theorem mem_view {c : γ} : c ∈ view f x ↔ ∃ e ∈ x.log, f e = some c := List.mem_filterMap

/-- Events of another kind do not show. -/
theorem view_eq_nil (h : Logs (fun e => f e = none) x) : view f x = [] := by
  unfold view
  rw [List.filterMap_eq_nil_iff]
  exact h

end Ext4Fsd.Lib.Recording
