import Ext4Fsd.Lib.Fallible

/-! # Loops that go up and down levels

`levelLoop body` runs `body` at one level after another, until it asks for none. Such a loop shows
no counter. What bounds it is the list of what is still to be visited: a turn that goes down takes
its visit off that list, and a turn that goes up puts nothing on it (`Progress`). With `m` things to
visit below level `i`, there are at most `i + 1 + 2 * m` turns (`levelLoop_ends`). -/

namespace Ext4Fsd.Lib.Levels

open Ext4Fsd.Lib.Fallible

section
variable {σ ε α : Type}

/-- Run `body` at the level it asks for. With no turn left the outcome is `out`. -/
def levelLoop (body : ℕ → Prog σ ε (Option ℕ)) (out : ε) : ℕ → Option ℕ → Prog σ ε Unit
  | _, none => pure ()
  | 0, some _ => fail out
  | n + 1, some i => do
    let j ← body i
    levelLoop body out n j

/-- What the turns of the loop visit, in order. -/
def visits (body : ℕ → Prog σ ε (Option ℕ)) (visit : ℕ → σ → Option α) :
    ℕ → Option ℕ → σ → List α
  | _, none, _ => []
  | 0, some _, _ => []
  | n + 1, some i, s =>
    (visit i s).toList ++
      match body i s with
      | (.ok j, t) => visits body visit n j t
      | (.error _, _) => []

/-- The outcome of a turn at level `i` with `todo` still to visit: it goes down to something it
takes off the list, goes up, leaves the loop, or stops with an error that `Stop` allows. -/
inductive Progress (Inv : ℕ → σ → List α → Prop) (Stop : ε → Prop) (i : ℕ) (todo : List α) :
    Option α → Except ε (Option ℕ) × σ → Prop
  | down {a : α} {rest : List α} {t : σ} (hsub : (a :: rest).Sublist todo)
      (hinv : Inv (i + 1) t rest) : Progress Inv Stop i todo (some a) (.ok (some (i + 1)), t)
  | up {j : ℕ} {rest : List α} {t : σ} (hij : i = j + 1) (hsub : rest.Sublist todo)
      (hinv : Inv j t rest) : Progress Inv Stop i todo none (.ok (some j), t)
  | leave {t : σ} : Progress Inv Stop i todo none (.ok none, t)
  | stop {a : α} {e : ε} {t : σ} (hmem : a ∈ todo) (he : Stop e) :
      Progress Inv Stop i todo (some a) (.error e, t)

variable {body : ℕ → Prog σ ε (Option ℕ)} {out : ε} {visit : ℕ → σ → Option α}
  {Inv : ℕ → σ → List α → Prop} {Stop : ε → Prop}

theorem levelLoop_succ {n i : ℕ} {s t : σ} {j : Option ℕ} (h : body i s = (.ok j, t)) :
    levelLoop body out (n + 1) (some i) s = levelLoop body out n j t := bind_of_ok h

theorem levelLoop_none {n : ℕ} {s : σ} : levelLoop body out n none s = (.ok (), s) := by
  cases n <;> rfl

theorem visits_succ {n i : ℕ} {s t : σ} {j : Option ℕ} (h : body i s = (.ok j, t)) :
    visits body visit (n + 1) (some i) s =
      (visit i s).toList ++ visits body visit n j t := by
  rw [visits, h]

theorem visits_none {n : ℕ} {s : σ} : visits body visit n none s = [] := by
  cases n <;> rfl

/-- **A loop whose turns make progress ends, and visits nothing but what was to be visited, in that
order.** -/
theorem levelLoop_ends
    (hstep : ∀ i s todo, Inv i s todo → Progress Inv Stop i todo (visit i s) (body i s))
    {n i : ℕ} {s : σ} {todo : List α} (hinv : Inv i s todo) (hn : i + 1 + 2 * todo.length ≤ n) :
    ((levelLoop body out n (some i) s).1 = .ok () ∨
        ∃ e, Stop e ∧ (levelLoop body out n (some i) s).1 = .error e) ∧
      (visits body visit n (some i) s).Sublist todo := by
  induction n generalizing i s todo with
  | zero => omega
  | succ n ih =>
    have hturn := hstep i s todo hinv
    generalize hv : visit i s = v at hturn
    generalize hr : body i s = r at hturn
    rcases hturn with @⟨a, rest, t, hsub, hinv'⟩ | @⟨j, rest, t, rfl, hsub, hinv'⟩ | @⟨t⟩ |
      @⟨a, e, t, hmem, he⟩
    · have hlen := hsub.length_le
      rw [List.length_cons] at hlen
      obtain ⟨h1, h2⟩ := ih hinv' (by omega)
      rw [levelLoop_succ hr, visits_succ hr, hv]
      exact ⟨h1, (h2.cons_cons a).trans hsub⟩
    · have hlen := hsub.length_le
      obtain ⟨h1, h2⟩ := ih hinv' (by omega)
      rw [levelLoop_succ hr, visits_succ hr, hv]
      exact ⟨h1, h2.trans hsub⟩
    · rw [levelLoop_succ hr, visits_succ hr, hv, levelLoop_none, visits_none]
      exact ⟨Or.inl rfl, List.nil_sublist _⟩
    · refine ⟨Or.inr ⟨e, he, ?_⟩, ?_⟩
      · rw [levelLoop, bind_of_error hr]
      · rw [visits, hr, hv]
        simpa using hmem

/-- What else a turn establishes joins its invariant. -/
theorem Progress.and {I : ℕ → σ → Prop} {i : ℕ} {todo : List α} {v : Option α}
    {r : Except ε (Option ℕ) × σ} (h : Progress Inv Stop i todo v r)
    (hI : ∀ j t, r = (.ok (some j), t) → I j t) :
    Progress (fun i s l => Inv i s l ∧ I i s) Stop i todo v r := by
  rcases h with @⟨a, rest, t, hsub, hinv⟩ | @⟨j, rest, t, rfl, hsub, hinv⟩ | @⟨t⟩ |
    @⟨a, e, t, hmem, he⟩
  · exact .down hsub ⟨hinv, hI _ _ rfl⟩
  · exact .up rfl hsub ⟨hinv, hI _ _ rfl⟩
  · exact .leave
  · exact .stop hmem he

/-- **Such a loop leaves what its last turn leaves.** -/
theorem levelLoop_leaves {Done : σ → Prop} {Failed : ε → σ → Prop}
    (hstep : ∀ i s todo, Inv i s todo → Progress Inv Stop i todo (visit i s) (body i s))
    (hdone : ∀ i s todo t, Inv i s todo → body i s = (.ok none, t) → Done t)
    (hfail : ∀ i s todo e t, Inv i s todo → body i s = (.error e, t) → Failed e t)
    {n i : ℕ} {s : σ} {todo : List α} (hinv : Inv i s todo) (hn : i + 1 + 2 * todo.length ≤ n) :
    (∃ t, levelLoop body out n (some i) s = (.ok (), t) ∧ Done t) ∨
      ∃ e t, levelLoop body out n (some i) s = (.error e, t) ∧ Failed e t := by
  induction n generalizing i s todo with
  | zero => omega
  | succ n ih =>
    have hturn := hstep i s todo hinv
    have hd := hdone i s todo
    have hf := hfail i s todo
    generalize visit i s = v at hturn
    generalize hr : body i s = r at hturn hd hf
    rcases hturn with @⟨a, rest, t, hsub, hinv'⟩ | @⟨j, rest, t, rfl, hsub, hinv'⟩ | @⟨t⟩ |
      @⟨a, e, t, hmem, he⟩
    · have hlen := hsub.length_le
      rw [List.length_cons] at hlen
      rw [levelLoop_succ hr]
      exact ih hinv' (by omega)
    · have hlen := hsub.length_le
      rw [levelLoop_succ hr]
      exact ih hinv' (by omega)
    · rw [levelLoop_succ hr, levelLoop_none]
      exact Or.inl ⟨t, rfl, hd t hinv rfl⟩
    · exact Or.inr ⟨e, t, by rw [levelLoop, bind_of_error hr], hf e t hinv rfl⟩

/-- A count that each turn raises by one visit is raised by the visits of the loop. -/
theorem levelLoop_count {c : σ → ℕ}
    (hstep : ∀ i s, c (body i s).2 = c s + (visit i s).toList.length) (n : ℕ) (j : Option ℕ)
    (s : σ) :
    c (levelLoop body out n j s).2 = c s + (visits body visit n j s).length := by
  induction n generalizing j s with
  | zero => cases j <;> rfl
  | succ n ih =>
    rcases j with _ | i
    · rfl
    have hturn := hstep i s
    rcases hr : body i s with ⟨e | j, t⟩
    · rw [hr] at hturn
      rw [levelLoop, bind_of_error hr, visits, hr, List.append_nil]
      exact hturn
    · rw [hr] at hturn
      rw [levelLoop_succ hr, visits_succ hr, ih, List.length_append, ← Nat.add_assoc, ← hturn]

/-- **Two bodies that agree on what is visited make the same loop.** `Q k a` is what lets them agree
on the visit `a`, which is the `k`-th by the count `c`. -/
theorem levelLoop_congr {body' : ℕ → Prog σ ε (Option ℕ)} {c : σ → ℕ} {Q : ℕ → α → Prop}
    (hcount : ∀ i s, c (body i s).2 = c s + (visit i s).toList.length)
    (hstep : ∀ i s, (∀ a, visit i s = some a → Q (c s) a) → body' i s = body i s) (n : ℕ)
    (j : Option ℕ) (s : σ)
    (hQ : ∀ k a, (visits body visit n j s)[k]? = some a → Q (c s + k) a) :
    levelLoop body' out n j s = levelLoop body out n j s := by
  induction n generalizing j s with
  | zero => cases j <;> rfl
  | succ n ih =>
    rcases j with _ | i
    · rfl
    have hturn := hcount i s
    have hsame := hstep i s fun a ha => by
      refine hQ 0 a ?_
      rw [visits, ha]
      rfl
    rcases hr : body i s with ⟨e | j, t⟩
    · rw [levelLoop, levelLoop, bind_of_error (hsame.trans hr), bind_of_error hr]
    · rw [levelLoop_succ (hsame.trans hr), levelLoop_succ hr]
      rw [hr] at hturn
      dsimp only at hturn
      refine ih j t fun k a hk => ?_
      rw [hturn, Nat.add_assoc]
      refine hQ _ a ?_
      rw [visits_succ hr, List.getElem?_append_right (Nat.le_add_right _ _),
        Nat.add_sub_cancel_left]
      exact hk

end

end Ext4Fsd.Lib.Levels
