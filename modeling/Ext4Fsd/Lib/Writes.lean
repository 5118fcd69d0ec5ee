import Mathlib.Tactic
import Mathlib.Logic.Function.Basic

/-! # Lists of writes to a store

A store is a function from keys to values, a list of writes is applied from the left. A key holds
the last value written to it, so that a store reached by some of the writes of a list is brought by
the whole list to where the list brings the store it came from (`applyWrites_take`). -/

namespace Ext4Fsd.Lib.Writes

variable {κ ν : Type*} [DecidableEq κ]

/-- The store after the writes, the first one first. -/
def applyWrites (ws : List (κ × ν)) (s : κ → ν) : κ → ν :=
  ws.foldl (fun s w => Function.update s w.1 w.2) s

@[simp] theorem applyWrites_nil (s : κ → ν) : applyWrites [] s = s := rfl

theorem applyWrites_cons (w : κ × ν) (ws : List (κ × ν)) (s : κ → ν) :
    applyWrites (w :: ws) s = applyWrites ws (Function.update s w.1 w.2) := rfl

theorem applyWrites_append (ws ws' : List (κ × ν)) (s : κ → ν) :
    applyWrites (ws ++ ws') s = applyWrites ws' (applyWrites ws s) := List.foldl_append

/-- A key that is written, or on which the stores agree, comes out the same. -/
theorem applyWrites_congr {ws : List (κ × ν)} : ∀ {s s' : κ → ν} {k : κ},
    ((∃ w ∈ ws, w.1 = k) ∨ s k = s' k) → applyWrites ws s k = applyWrites ws s' k := by
  induction ws with
  | nil =>
    rintro s s' k (⟨w, hw, -⟩ | hk)
    · cases hw
    · exact hk
  | cons w ws ih =>
    intro s s' k hk
    rw [applyWrites_cons, applyWrites_cons]
    refine ih ?_
    by_cases hwk : w.1 = k
    · right
      rw [hwk, Function.update_self, Function.update_self]
    · rcases hk with ⟨w', hw', hk'⟩ | hk
      · rcases List.mem_cons.mp hw' with rfl | hw'
        · exact absurd hk' hwk
        · exact .inl ⟨w', hw', hk'⟩
      · right
        rw [Function.update_of_ne (Ne.symm hwk), Function.update_of_ne (Ne.symm hwk), hk]

/-- A key that is not written keeps its value. -/
theorem applyWrites_of_not_mem {ws : List (κ × ν)} {k : κ} (hk : ∀ w ∈ ws, w.1 ≠ k) :
    ∀ s : κ → ν, applyWrites ws s k = s k := by
  induction ws with
  | nil => intro s; rfl
  | cons w ws ih =>
    intro s
    rw [applyWrites_cons, ih fun w' hw' => hk w' (List.mem_cons_of_mem _ hw'),
      Function.update_of_ne (hk w List.mem_cons_self).symm]

/-- **Interrupted and restarted**: after any number of the writes, all of them lead to the same
store. -/
theorem applyWrites_take (ws : List (κ × ν)) (n : ℕ) (s : κ → ν) :
    applyWrites ws (applyWrites (ws.take n) s) = applyWrites ws s := by
  funext k
  refine applyWrites_congr ?_
  by_cases hk : ∃ w ∈ ws, w.1 = k
  · exact .inl hk
  · refine .inr (applyWrites_of_not_mem (fun w hw hwk => hk ⟨w, List.mem_of_mem_take hw, hwk⟩) s)

end Ext4Fsd.Lib.Writes
