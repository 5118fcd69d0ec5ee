import Ext4Fsd.Extent.Landing

/-! # The whole insertion

`ext4_ext_insert_extent` tries the leaf of the path and, when it is full, makes room and tries
again. `insertRounds_spec` says that this takes two rounds at most, and where the extent is then
(`Settled`). -/

namespace Ext4Fsd.Extent.Insertion

open Ext4Fsd.Lib.Fallible Ext4Fsd.Lib.Intervals Ext4Fsd.Extent.Layout Ext4Fsd.Extent.Store
open Ext4Fsd.Extent.Search Ext4Fsd.Extent.Insert Ext4Fsd.Extent.Tree Ext4Fsd.Extent.Way
open Ext4Fsd.Extent.Found Ext4Fsd.Extent.Lookup Ext4Fsd.Extent.Keys Ext4Fsd.Extent.Focus
open Ext4Fsd.Extent.InsertLeaf Ext4Fsd.Extent.Split Ext4Fsd.Extent.SplitRun
open Ext4Fsd.Extent.Prepared Ext4Fsd.Extent.MakeRoom Ext4Fsd.Extent.Grow Ext4Fsd.Extent.Landing

/-- `newext` is not merged with the entry `p`. -/
def NoMerge (eh : Node) (p : ℕ) (newext : Slot) (noCombine : Bool) : Prop :=
  noCombine = true ∨ (eh.entriesCount ≠ 0 → ext4ExtCanAppend (eh.slots p) newext = false ∧
    ext4ExtCanPrepend (eh.slots p) newext = false)

/-- **The extent is in the tree, at the path's entry, and the tree holds `E'`.** -/
def Settled (env : Env) (s t : St) (newext : Slot) (E' : List Slot) : Prop :=
  ∃ hdr pos b news, Focused env t hdr pos b ∧
    (leafNode t hdr).entries.head?.map Slot.firstBlock = some b ∧
    pos (extDepth t) < (leafNode t hdr).entriesCount ∧
    (leafNode t hdr).slots (pos (extDepth t)) = newext ∧ treeExts t = E' ∧
    Gained s t (treeRefs s) (treeRefs t) news

/-- Nothing of the tree has changed; a block may have been taken and given back. -/
structure Untouched (s t : St) : Prop extends SameTree s t where
  freed : t.freed = s.freed ∨ ∃ c : ℕ, s.used c = false ∧ t.freed = s.freed ++ [((c : ℤ), 1)]

/-- The split below level `m` for a leaf of `s`, with its path array. -/
def roomBelow (env : Env) (newext : Slot) (i level : ℕ) : Ext Unit := do
  callocPath env
  modify fun s => { s with npath := fun _ => .zero }
  splitAndFollow env newext i level

/-- The state a split starts in. -/
def scratched (s : St) : St := { s with calls := s.calls + 1, npath := fun _ => .zero }

/-- **Making room for `newext` by a split has failed**: for want of a path array, or at level
`k - 1` for want of a block. -/
def Unfinished (env : Env) (s t : St) (hdr : ℕ → Hdr) (pos : ℕ → ℕ) (newext : Slot) : Prop :=
  (env.calloc s.calls = false ∧ Untouched s t) ∨
    (env.calloc s.calls = true ∧ ∃ lo k, lo = splitFrom s ∧ lo < k ∧ k ≤ extDepth s + 1 ∧
      k + blocksHad env (ext4ExtFindGoal env newext.firstBlock s) (extDepth s + 1 - lo)
        (s.calls + 1)
        s.used = extDepth s + 1 ∧
      SplitFailed env (scratched s) t hdr pos
        (keyOf (leafNode s hdr) (pos (extDepth s)) newext) lo k)

section
variable {env : Env} {s t u : St} {hdr hdr' : ℕ → Hdr} {pos pos' : ℕ → ℕ} {b b' n : ℕ}
  {newext : Slot} {noCombine : Bool} {L l R : List Slot}

/-! ### The leaf -/

/-- An attempt at a leaf that does not merge. -/
theorem insertLeaf_run (hf : Focused env s hdr pos b)
    (hne : (leafNode s hdr).entriesCount ≠ 0 →
      ((leafNode s hdr).slots (pos (extDepth s))).firstBlock ≠ newext.firstBlock)
    (hno : NoMerge (leafNode s hdr) (pos (extDepth s)) newext noCombine) :
    ext4ExtInsertLeaf (extDepth s) newext noCombine s =
      if (leafNode s hdr).entriesCount = (leafNode s hdr).maxEntriesCount then (.ok true, s)
      else (do insertEntry (extDepth s) newext; pure false : Ext Bool) s := by
  have hhdr : (s.path (extDepth s)).header = hdr (extDepth s) := hf.path.header _ le_rfl
  unfold ext4ExtInsertLeaf
  rw [get_bind, hhdr, hf.path.leaf]
  by_cases h0 : (leafNode s hdr).entriesCount = 0
  · rw [if_pos h0]
    simp only [Option.any_none, Bool.false_eq_true, if_false, and_false]
    split_ifs <;> rfl
  · rw [if_neg h0]
    have h1 := hne h0
    simp only [Option.any_some, decide_eq_true_eq]
    rw [if_neg (fun h => h1 h.symm)]
    rcases hno with h | h
    · rw [if_neg (fun hc => hc.1 h), if_neg (fun hc => hc.1 h)]
      split_ifs <;> rfl
    · obtain ⟨h2, h3⟩ := h h0
      rw [if_neg (fun hc => by rw [h2] at hc; simp at hc),
        if_neg (fun hc => by rw [h3] at hc; simp at hc)]
      split_ifs <;> rfl

/-- **A leaf with room takes the extent.** -/
theorem settled_leaf (hsize : SizeOk env) (hfits : Fits newext) (hf : Focused env s hdr pos b)
    (hhead : (leafNode s hdr).entriesCount ≠ 0 → ((leafNode s hdr).slots 0).firstBlock = b)
    (hroom : (leafNode s hdr).entriesCount < (leafNode s hdr).maxEntriesCount)
    (hne : (leafNode s hdr).entriesCount ≠ 0 →
      ((leafNode s hdr).slots (pos (extDepth s))).firstBlock ≠ newext.firstBlock)
    (hno : NoMerge (leafNode s hdr) (pos (extDepth s)) newext noCombine) :
    ∃ t, insertRounds env newext noCombine (n + 1) s = (.ok (), t) ∧
      Settled env s t newext (leftExts s hdr pos ++
        ((leafNode s hdr).entries.take (placeFor (leafNode s hdr) (pos (extDepth s)) newext) ++
          newext :: (leafNode s hdr).entries.drop
            (placeFor (leafNode s hdr) (pos (extDepth s)) newext)) ++ rightExts s hdr pos) := by
  have hmax := max_lt hsize hf.leaf
  obtain ⟨t, b', hrun, hmarks, hin⟩ := insertEntry_ok hf hroom hmax hfits hhead
  have hplace := @placeFor_le newext (leafNode s hdr) _ hf.pos_lt
  refine ⟨t, ?_, hdr, _, b', [], hin.focused, hin.head, ?_, ?_, ?_, ?_⟩
  · unfold insertRounds
    rw [get_bind, bind_of_ok (a := false) (t := t), if_neg (by simp)]
    · rfl
    · rw [insertLeaf_run hf hne hno, if_neg (by omega), bind_of_ok hrun]
      rfl
  · rw [hin.depth, Function.update_self, ← length_entries, hin.entries]
    simp
    omega
  · have hlt :
        placeFor (leafNode s hdr) (pos (extDepth s)) newext < (leafNode t hdr).entries.length := by
      rw [hin.entries]
      simp
      omega
    rw [hin.depth, Function.update_self, ← getElem_entries hlt]
    simp only [hin.entries]
    rw [List.getElem_append_right (by simp)]
    simp [hplace]
  · rw [hin.focused.exts, hin.left, hin.right, hin.entries]
  · refine ⟨?_, fun h hh => by simp at hh, fun c => by simp [hmarks.used], hmarks.freed⟩
    rw [List.append_nil]
    exact hin.focused.refs.trans (hin.refs ▸ hf.refs.symm)

/-! ### Making room by a split -/

theorem same_scratched : SameTree s (scratched s) := ⟨rfl, rfl, rfl, rfl⟩

/-- The entry the path leads to stays when the old leaf keeps room. -/
theorem half_slot {R₁ : List Slot} (hroomy : Roomy env t hdr' pos' b' L l R)
    (hhalf : HalfTaken s hdr pos newext R₁ L l R) (hD : extDepth t = extDepth s)
    (hpos : l ≠ [] → pos' (extDepth s) = pos (extDepth s))
    (h0 : (leafNode t hdr').entriesCount ≠ 0) :
    l ≠ [] ∧ pos (extDepth s) < (leafNode s hdr).entriesCount ∧
      (leafNode t hdr').slots (pos' (extDepth t)) = (leafNode s hdr).slots (pos (extDepth s)) := by
  have hl : l ≠ [] := by
    rw [← hroomy.entries, Ne, entries_eq_nil]
    exact h0
  rcases hhalf with ⟨h1, -, h2, -⟩ | ⟨-, -, -, h2, -⟩ | ⟨-, -, -, -, h2, -⟩
  · have hlt := hroomy.focused.pos_lt h0
    have hlt' : pos' (extDepth t) < (leafNode t hdr').entries.length := by
      rw [length_entries]
      exact hlt
    refine ⟨hl, by omega, ?_⟩
    rw [← getElem_entries hlt']
    simp only [hroomy.entries, h2, hD, hpos hl]
    rw [List.getElem_take, getElem_entries]
  · exact absurd h2 hl
  · exact absurd h2 hl

/-- **After a split the leaf takes the extent.** -/
theorem settled_split {m k : ℕ} (hr : Ready env s hdr pos b newext) (hsize : SizeOk env)
    (hfits : Fits newext)
    (hfull : (leafNode s hdr).entriesCount = (leafNode s hdr).maxEntriesCount)
    (hD : extDepth s = m + (k + 1)) (hfrom : splitFrom s = m + 1)
    (hno : NoMerge (leafNode s hdr) (pos (extDepth s)) newext noCombine)
    (hmade : MadeRoom env s t hdr pos newext (rights s.nodes hdr pos 0 k (m + 1))) :
    ∃ u E', insertRounds env newext noCombine (n + 1) t = (.ok (), u) ∧
      Landed s hdr pos newext E' ∧ Settled env s u newext E' := by
  obtain ⟨hdr', pos', b', L, l, R, news, hroomy, hhalf, hgained, hDt, hpos⟩ := hmade
  have hslot := half_slot hroomy hhalf hDt hpos
  obtain ⟨u, hu, hset⟩ := @settled_leaf env t hdr' pos' b' n newext noCombine hsize hfits
    hroomy.focused hroomy.head hroomy.room
    (fun h0 => by
      obtain ⟨-, hlt, he⟩ := hslot h0
      rw [he]
      exact hr.fresh _ (hr.focused.slot_mem hlt))
    (by
      rcases hno with h | h
      · exact Or.inl h
      · refine Or.inr fun h0 => ?_
        obtain ⟨-, hlt, he⟩ := hslot h0
        rw [he]
        exact h (Nat.ne_zero_of_lt hlt))
  rw [hroomy.left, hroomy.entries, hroomy.right] at hset
  refine ⟨u, _, hu, landed_half (x := placeFor (leafNode t hdr') (pos' (extDepth t)) newext) hr
    hfull hD hfrom hhalf ?_ fun hl => ?_, ?_⟩
  · rw [← hroomy.entries, length_entries]
    exact placeFor_le hroomy.focused.pos_lt
  · have h0 : (leafNode t hdr').entriesCount ≠ 0 := by
      rw [Ne, ← entries_eq_nil, hroomy.entries]
      exact hl
    obtain ⟨-, hlt, he⟩ := hslot h0
    unfold placeFor
    rw [if_neg h0, if_neg (Nat.ne_zero_of_lt hlt), he, hDt, hpos hl]
  · obtain ⟨h1, p1, b1, news', h2, h3, h4, h5, h6, h7⟩ := hset
    exact ⟨h1, p1, b1, news ++ news', h2, h3, h4, h5, h6,
      (hgained.of_perm hr.focused.refs hroomy.focused.refs).trans h7⟩

/-- **Making room by a split and trying again.** -/
theorem roomBelow_spec {m k : ℕ} (hr : Ready env s hdr pos b newext) (hsize : SizeOk env)
    (hal : AllocOk env) (hfits : Fits newext) (hD : extDepth s = m + (k + 1))
    (hfull : FullFrom s hdr (m + 1))
    (hroom : (s.nodes (hdr m)).entriesCount < (s.nodes (hdr m)).maxEntriesCount)
    (hfrom : splitFrom s = m + 1)
    (hno : NoMerge (leafNode s hdr) (pos (extDepth s)) newext noCombine)
    {r : Except Errno Unit} (h : (do
      roomBelow env newext (m + 1) (k + 1)
      insertRounds env newext noCombine (n + 1) : Ext Unit) s = (r, t)) :
    (r = .ok () ∧ ∃ E', Landed s hdr pos newext E' ∧ Settled env s t newext E') ∨
      ∃ e, r = .error e ∧ Refused env e ∧ Unfinished env s t hdr pos newext := by
  have hleaf := hfull (extDepth s) (by omega) le_rfl
  unfold roomBelow at h
  by_cases hc : env.calloc s.calls = true
  · have hcall : callocPath env s = (.ok (), { s with calls := s.calls + 1 }) := by
      unfold callocPath
      rw [if_pos hc]
    rw [bind_assoc_apply, bind_of_ok hcall, bind_assoc_apply, modify_bind] at h
    change (splitAndFollow env newext (m + 1) (k + 1) >>= fun _ =>
      insertRounds env newext noCombine (n + 1)) (scratched s) = (r, t) at h
    rcases hs : splitAndFollow env newext (m + 1) (k + 1) (scratched s) with ⟨r', v⟩
    have hr' := ready_of_same hr same_scratched
    rcases split_room hr' hsize hal hD hfull hroom hs
      with ⟨rfl, hmade⟩ | ⟨e, j, rfl, hre, h1, h2, h3, h4⟩
    · rw [bind_of_ok hs] at h
      obtain ⟨u, E', hu, hland, hset⟩ := settled_split (n := n) hr' hsize hfits hleaf hD
        ((splitFrom_of_same same_scratched).trans hfrom) hno hmade
      rw [hu] at h
      obtain ⟨rfl, rfl⟩ := Prod.mk.inj h
      obtain ⟨h1, p1, b1, news, h2, h3, h4, h5, h6, h7⟩ := hset
      exact Or.inl ⟨rfl, E', landed_of_same same_scratched hland, h1, p1, b1, news, h2, h3, h4, h5,
        h6, h7.perm, h7.free, h7.used, h7.freed⟩
    · rw [bind_of_error hs] at h
      obtain ⟨rfl, rfl⟩ := Prod.mk.inj h
      refine Or.inr ⟨e, rfl, hre, Or.inr ⟨hc, m + 1, j, hfrom.symm, h1, h2, ?_, h4⟩⟩
      rw [show extDepth s + 1 - (m + 1) = k + 1 by omega]
      exact h3
  · have hcall : callocPath env s = (.error .enomem, { s with calls := s.calls + 1 }) := by
      unfold callocPath
      rw [if_neg hc]
    rw [bind_assoc_apply, bind_of_error hcall] at h
    obtain ⟨rfl, rfl⟩ := Prod.mk.inj h
    exact Or.inr
      ⟨.enomem, rfl, Or.inl rfl, Or.inl ⟨by simpa using hc, ⟨rfl, rfl, rfl, rfl⟩, Or.inl rfl⟩⟩

end

end Ext4Fsd.Extent.Insertion
