import Mathlib.Algebra.BigOperators.Group.Finset.Basic
import Mathlib.Algebra.BigOperators.Group.Finset.Piecewise
import Mathlib.Tactic.Abel

/-! # Interleavings

Threads that share a state take their steps one at a time, and a schedule says whose step is next.
What one step keeps, every schedule keeps (`run_keeps`); what every step makes less bounds the
length of every schedule (`run_length_le`); and what one thread does to a sum over the threads is
seen at that thread (`sum_update`). -/

namespace Ext4Fsd.Lib.Interleaving

variable {T σ : Type} {step : T → σ → Option σ} {ts us : List T} {s s' : σ}

/-- The state after a schedule, if each thread could take its step when it was its turn. -/
def run (step : T → σ → Option σ) : List T → σ → Option σ
  | [], s => some s
  | t :: ts, s => (step t s).bind (run step ts)

theorem run_cons_eq_some {t : T} :
    run step (t :: ts) s = some s' ↔ ∃ u, step t s = some u ∧ run step ts u = some s' :=
  Option.bind_eq_some_iff

/-- **What every step keeps, every schedule keeps.** -/
theorem run_keeps {Inv : σ → Prop} (hstep : ∀ t s s', Inv s → step t s = some s' → Inv s')
    (hs : Inv s) (hrun : run step ts s = some s') : Inv s' := by
  induction ts generalizing s with
  | nil =>
    obtain rfl := Option.some.inj hrun
    exact hs
  | cons t ts ih =>
    obtain ⟨u, hu, hrun⟩ := run_cons_eq_some.mp hrun
    exact ih (hstep t s u hs hu) hrun

/-- **What every step makes less bounds the length of every schedule.** -/
theorem run_length_le {Inv : σ → Prop} {m : σ → ℕ}
    (hstep : ∀ t s s', Inv s → step t s = some s' → Inv s' ∧ m s' < m s) (hs : Inv s)
    (hrun : run step ts s = some s') : ts.length + m s' ≤ m s := by
  induction ts generalizing s with
  | nil =>
    obtain rfl := Option.some.inj hrun
    simp
  | cons t ts ih =>
    obtain ⟨u, hu, hrun⟩ := run_cons_eq_some.mp hrun
    obtain ⟨hinv, hlt⟩ := hstep t s u hs hu
    have := ih hinv hrun
    simp only [List.length_cons]
    omega

section
variable [Fintype T] [DecidableEq T] {M : Type} [AddCommMonoid M]

/-- A sum over the threads, when one of them changes. -/
theorem sum_update (f : T → M) (t : T) (x : M) :
    (∑ u, Function.update f t x u) + f t = (∑ u, f u) + x := by
  rw [Finset.sum_update_of_mem (Finset.mem_univ t), ← Finset.sum_sdiff
    (Finset.subset_univ {t} : {t} ⊆ Finset.univ), Finset.sum_singleton]
  abel

/-- A sum over what the threads have done is the sum of what each of them has done. -/
theorem sum_by_thread {β : Type} (f : T × β → M) (l : List (T × β)) :
    (l.map f).sum = ∑ t, ((l.filter fun e => e.1 = t).map f).sum := by
  induction l with
  | nil => simp
  | cons e l ih =>
    have hcons : ∀ t, (((e :: l).filter fun e => e.1 = t).map f).sum =
        (if e.1 = t then f e else 0) + ((l.filter fun e => e.1 = t).map f).sum := by
      intro t
      by_cases h : e.1 = t
      · simp [h]
      · simp [h]
    simp only [hcons, Finset.sum_add_distrib, Finset.sum_ite_eq, Finset.mem_univ, if_true,
      List.map_cons, List.sum_cons, ih]

end

end Ext4Fsd.Lib.Interleaving
