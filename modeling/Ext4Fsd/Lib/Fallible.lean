import Mathlib.Tactic

/-! # Programs over a state that may fail

`Prog σ ε α` is a program over the state `σ` that returns an `α` or stops with an error `ε`.
The state it has reached is kept in both cases, as in C code that returns an error number after it
has already changed memory. A proof takes a run apart with `bind_ok` and puts one together with
`bind_of_ok`; `Keeps` is the rule for a program that leaves some view of the state alone. -/

namespace Ext4Fsd.Lib.Fallible

/-- A program over `σ` that returns an `α` or fails with an `ε`. -/
def Prog (σ ε α : Type) : Type := σ → Except ε α × σ

section
variable {σ ε α β γ : Type}

instance : Monad (Prog σ ε) where
  pure a := fun s => (.ok a, s)
  bind x f := fun s =>
    match x s with
    | (.ok a, t) => f a t
    | (.error e, t) => (.error e, t)

/-- Stop with the error `e`. -/
def fail (e : ε) : Prog σ ε α := fun s => (.error e, s)

/-- The current state. -/
def get : Prog σ ε σ := fun s => (.ok s, s)

/-- Change the state by `f`. -/
def modify (f : σ → σ) : Prog σ ε Unit := fun s => (.ok (), f s)

/-- Run `x` and return its result, an error included. -/
def attempt (x : Prog σ ε α) : Prog σ ε (Except ε α) := fun s => (.ok (x s).1, (x s).2)

/-- Run `x` when `c` holds. -/
def runIf (c : Prop) [Decidable c] (x : Prog σ ε Unit) : Prog σ ε Unit := if c then x else pure ()

theorem runIf_pos {c : Prop} [Decidable c] {x : Prog σ ε Unit} (h : c) : runIf c x = x := if_pos h

theorem runIf_neg {c : Prop} [Decidable c] {x : Prog σ ε Unit} (h : ¬ c) : runIf c x = pure () :=
  if_neg h

@[simp] theorem pure_apply (a : α) (s : σ) : (pure a : Prog σ ε α) s = (.ok a, s) := rfl

@[simp] theorem fail_apply (e : ε) (s : σ) : (fail e : Prog σ ε α) s = (.error e, s) := rfl

@[simp] theorem get_apply (s : σ) : (get : Prog σ ε σ) s = (.ok s, s) := rfl

@[simp] theorem modify_apply (f : σ → σ) (s : σ) :
    (modify f : Prog σ ε Unit) s = (.ok (), f s) := rfl

@[simp] theorem attempt_apply (x : Prog σ ε α) (s : σ) :
    attempt x s = (.ok (x s).1, (x s).2) := rfl

theorem bind_apply (x : Prog σ ε α) (f : α → Prog σ ε β) (s : σ) :
    (x >>= f) s = match x s with
      | (.ok a, t) => f a t
      | (.error e, t) => (.error e, t) := rfl

theorem bind_of_ok {x : Prog σ ε α} {f : α → Prog σ ε β} {s t : σ} {a : α}
    (h : x s = (.ok a, t)) : (x >>= f) s = f a t := by
  rw [bind_apply, h]

theorem bind_of_error {x : Prog σ ε α} {f : α → Prog σ ε β} {s t : σ} {e : ε}
    (h : x s = (.error e, t)) : (x >>= f) s = (.error e, t) := by
  rw [bind_apply, h]

@[simp] theorem get_bind (f : σ → Prog σ ε β) (s : σ) : (get >>= f) s = f s s := rfl

@[simp] theorem modify_bind (g : σ → σ) (f : Unit → Prog σ ε β) (s : σ) :
    (modify g >>= f) s = f () (g s) := rfl

@[simp] theorem pure_bind_apply (a : α) (f : α → Prog σ ε β) (s : σ) :
    (pure a >>= f) s = f a s := rfl

@[simp] theorem fail_bind (e : ε) (f : α → Prog σ ε β) (s : σ) :
    (fail e >>= f) s = (.error e, s) := rfl

/-- A sequence that returns has returned from its first part. -/
theorem bind_ok {x : Prog σ ε α} {f : α → Prog σ ε β} {s t : σ} {b : β}
    (h : (x >>= f) s = (.ok b, t)) : ∃ a u, x s = (.ok a, u) ∧ f a u = (.ok b, t) := by
  rw [bind_apply] at h
  rcases hx : x s with ⟨_ | a, u⟩
  · rw [hx] at h
    simp at h
  · rw [hx] at h
    exact ⟨a, u, rfl, h⟩

/-- A run that returns, with the state it leaves. -/
theorem eq_ok_of_fst {r : Except ε α × σ} {a : α} (h : r.1 = .ok a) : r = (.ok a, r.2) :=
  Prod.ext h rfl

theorem bind_assoc_apply (x : Prog σ ε α) (f : α → Prog σ ε β) (g : β → Prog σ ε γ)
    (s : σ) : ((x >>= f) >>= g) s = (x >>= fun a => f a >>= g) s := by
  rw [bind_apply, bind_apply, bind_apply]
  rcases x s with ⟨_ | a, u⟩ <;> rfl

/-! ### What a program leaves alone -/

/-- Whatever its outcome, `x` does not change the view `v` of the state. -/
def Keeps {δ : Type} (v : σ → δ) (x : Prog σ ε α) : Prop := ∀ s, v (x s).2 = v s

variable {δ : Type} {v : σ → δ}

theorem keeps_pure (a : α) : Keeps v (pure a : Prog σ ε α) := fun _ => rfl

theorem keeps_fail (e : ε) : Keeps v (fail e : Prog σ ε α) := fun _ => rfl

theorem keeps_get : Keeps v (get : Prog σ ε σ) := fun _ => rfl

theorem keeps_modify {f : σ → σ} (h : ∀ s, v (f s) = v s) :
    Keeps v (modify f : Prog σ ε Unit) := h

theorem keeps_attempt {x : Prog σ ε α} (h : Keeps v x) : Keeps v (attempt x) := h

theorem keeps_bind {x : Prog σ ε α} {f : α → Prog σ ε β} (hx : Keeps v x)
    (hf : ∀ a, Keeps v (f a)) : Keeps v (x >>= f) := by
  intro s
  have h := hx s
  rw [bind_apply]
  rcases hr : x s with ⟨_ | a, u⟩
  · rw [hr] at h
    exact h
  · rw [hr] at h
    exact (hf a u).trans h

theorem keeps_ite {c : Prop} [Decidable c] {x y : Prog σ ε α} (hx : Keeps v x)
    (hy : Keeps v y) : Keeps v (if c then x else y) := by
  by_cases h : c
  · rw [if_pos h]
    exact hx
  · rw [if_neg h]
    exact hy

theorem keeps_runIf {c : Prop} [Decidable c] {x : Prog σ ε Unit} (hx : Keeps v x) :
    Keeps v (runIf c x) := keeps_ite hx (keeps_pure ())

/-- What comes after `x` leaves the view where `x` has left it. -/
theorem view_bind {x : Prog σ ε α} {f : α → Prog σ ε β} (hf : ∀ a, Keeps v (f a)) (s : σ) :
    v ((x >>= f) s).2 = v (x s).2 := by
  rw [bind_apply]
  rcases x s with ⟨_ | a, u⟩
  · rfl
  · exact hf a u

theorem keeps_ok {x : Prog σ ε α} (h : Keeps v x) {s t : σ} {r : Except ε α}
    (hx : x s = (r, t)) : v t = v s := by
  have := h s
  rwa [hx] at this

end

end Ext4Fsd.Lib.Fallible
