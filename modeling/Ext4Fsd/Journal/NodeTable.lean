import Ext4Fsd.Journal.Recovery
import Mathlib.Data.List.AList

/-! # Tables of counted nodes

The table of LBCBs and the revoke table are red-black trees of nodes that carry a count of
references, with the same three operations. Here the nodes have addresses and are freed, so that an
access to memory that is no node (a null pointer, a node that has been freed) is a fault.

Of the tree macros it is taken that they act as on a map: `RB_INSERT` returns null after inserting
and the node of the same key otherwise. `AList` is that map, with the nodes in the order of a
traversal. -/

namespace Ext4Fsd.Journal.NodeTable

/-! ### Nodes and their memory -/

/-- A node: its header, the flag of a new one, and the rest. -/
structure Node (δ : Type) where
  thBlock : ℤ
  thRefcount : ℤ
  isNew : Bool
  data : δ

/-- A table and the memory of its nodes. An address is not given out twice. -/
structure Table (δ : Type) where
  tree : AList fun _ : ℤ => ℕ
  heap : ℕ → Option (Node δ)
  next : ℕ
  freed : List ℕ

variable {δ : Type}

def Table.empty : Table δ := ⟨∅, fun _ => none, 0, []⟩

/-- The table with the node `n` at `a`. -/
def setNode (a : ℕ) (n : Node δ) (t : Table δ) : Table δ :=
  { t with heap := Function.update t.heap a (some n) }

/-- Change the node at `a`, if there is one. -/
def store (a : ℕ) (f : Node δ → Node δ) (t : Table δ) : Option (Table δ) :=
  (t.heap a).map fun n => setNode a (f n) t

def free (a : ℕ) (t : Table δ) : Table δ :=
  { t with heap := Function.update t.heap a none, freed := a :: t.freed }

/-- `drv_atomic_inc` of the count. -/
def incRef (n : Node δ) : Node δ := { n with thRefcount := n.thRefcount + 1 }

/-- `RB_INSERT` of the node at `a` with the key `b`. -/
def rbInsert (b : ℤ) (a : ℕ) (t : Table δ) : Option ℕ × Table δ :=
  match t.tree.lookup b with
  | some a' => (some a', t)
  | none => (none, { t with tree := t.tree.insert b a })

/-- `RB_REMOVE` of the node at `a`. -/
def rbRemove (a : ℕ) (t : Table δ) : Option (Table δ) :=
  (t.heap a).map fun n => { t with tree := t.tree.erase n.thBlock }

/-! ### The operations -/

/-- The node `a` allocated for a get. -/
def allocated (d : δ) (b : ℤ) (t : Table δ) : Table δ :=
  { t with heap := Function.update t.heap t.next (some ⟨b, 0, true, d⟩), next := t.next + 1 }

/-- `jbc2_lbcb_get` and `jbd2_revoke_entry_get`: a null pointer, or the address of the node; `alloc`
says whether there is memory. Whatever `RB_INSERT` returns is taken for the node of the table. -/
def nodeGet (alloc : Bool) (d : δ) (b : ℤ) (t : Table δ) : Option (Option ℕ × Table δ) :=
  if !alloc then some (none, t)
  else do
    let tmp := t.next
    let (ret, t) := rbInsert b tmp (allocated d b t)
    if ret ≠ some tmp then do
      let t := free tmp t
      let a ← ret
      let t ← store a (fun n => { n with isNew := false }) t
      let t ← store a incRef t
      pure (some a, t)
    else do
      let t ← store tmp incRef t
      pure (some tmp, t)

/-- `jbd2_revoke_entry_find`. -/
def nodeFind (b : ℤ) (t : Table δ) : Option (Option ℕ × Table δ) :=
  match t.tree.lookup b with
  | none => some (none, t)
  | some a => do
    let t ← store a incRef t
    pure (some a, t)

/-- `jbd2_lbcb_put` and `jbd2_revoke_entry_put`. `drv_atomic_sub_and_test` is true when the count
reaches zero, and the node is removed when it is *not*. -/
def nodePut (a : ℕ) (t : Table δ) : Option (Table δ) := do
  let n ← t.heap a
  let t ← store a (fun n => { n with thRefcount := n.thRefcount - 1 }) t
  if n.thRefcount - 1 = 0 then pure t
  else do
    let t ← rbRemove a t
    pure (free a t)

/-- `jbd2_revoke_table_clear`: a put on every node. -/
def nodeTableClear (t : Table δ) : Option (Table δ) :=
  (t.tree.entries.map Sigma.snd).foldlM (fun t a => nodePut a t) t

/-! ### The two tables -/

/-- `jbc2_lbcb_get`. -/
def jbc2LbcbGet (alloc : Bool) (blocknr : ℤ) (t : Table Unit) : Option (Option ℕ × Table Unit) :=
  nodeGet alloc () blocknr t

/-- `jbd2_lbcb_put`. -/
def jbd2LbcbPut (lbcb : ℕ) (t : Table Unit) : Option (Table Unit) := nodePut lbcb t

/-- `jbd2_revoke_entry_get`; `re_tid` is not set. -/
def jbd2RevokeEntryGet (alloc : Bool) (blocknr : ℤ) (t : Table ℤ) : Option (Option ℕ × Table ℤ) :=
  nodeGet alloc 0 blocknr t

/-- `jbd2_revoke_entry_find`. -/
def jbd2RevokeEntryFind (blocknr : ℤ) (t : Table ℤ) : Option (Option ℕ × Table ℤ) :=
  nodeFind blocknr t

/-- `jbd2_revoke_entry_put`. -/
def jbd2RevokeEntryPut (re : ℕ) (t : Table ℤ) : Option (Table ℤ) := nodePut re t

/-- `jbd2_revoke_table_clear`. -/
def jbd2RevokeTableClear (t : Table ℤ) : Option (Table ℤ) := nodeTableClear t

/-! ### What they come to -/

section
variable {t : Table δ} {a : ℕ} {b : ℤ} {d : δ} {n : Node δ}

theorem store_eq {f : Node δ → Node δ} (ha : t.heap a = some n) :
    store a f t = some (setNode a (f n) t) := by
  unfold store
  rw [ha]
  rfl

/-- The table after a get of a node it has. -/
def gotten (a : ℕ) (n : Node δ) (t : Table δ) : Table δ :=
  { t with
    heap := Function.update (Function.update t.heap t.next none) a
      (some { n with isNew := false, thRefcount := n.thRefcount + 1 })
    next := t.next + 1
    freed := t.next :: t.freed }

/-- A get of a key that the table has finds its node, and frees the one allocated for it. -/
theorem nodeGet_present (hb : t.tree.lookup b = some a) (ha : t.heap a = some n)
    (hne : a ≠ t.next) :
    nodeGet true d b t = some (some a, gotten a n t) := by
  have hins : rbInsert b t.next (allocated d b t) = (some a, allocated d b t) := by
    have hl : (allocated d b t).tree.lookup b = some a := hb
    unfold rbInsert
    rw [hl]
  have hfree : (free t.next (allocated d b t)).heap = Function.update t.heap t.next none := by
    unfold free allocated
    exact Function.update_idem _ _ _
  have hlive : (free t.next (allocated d b t)).heap a = some n := by
    rw [hfree, Function.update_of_ne hne, ha]
  unfold nodeGet
  simp only [Bool.not_true, Bool.false_eq_true, if_false, hins, ne_eq, Option.some.injEq, hne,
    not_false_eq_true, if_true, Option.bind_eq_bind, Option.bind_some, store_eq hlive,
    Option.pure_def]
  rw [store_eq (Function.update_self _ _ _)]
  unfold setNode
  simp only [Option.bind_some, Function.update_idem, hfree]
  rfl

/-- **A get of a new key stores through the null pointer.** -/
theorem nodeGet_absent (hb : t.tree.lookup b = none) : nodeGet true d b t = none := by
  have hins : (rbInsert b t.next (allocated d b t)).1 = none := by
    have hl : (allocated d b t).tree.lookup b = none := hb
    unfold rbInsert
    rw [hl]
  unfold nodeGet
  simp only [Bool.not_true, Bool.false_eq_true, if_false, hins, ne_eq, reduceCtorEq,
    not_false_eq_true, if_true, Option.bind_eq_bind, Option.bind_none]

theorem nodeFind_absent (hb : t.tree.lookup b = none) : nodeFind b t = some (none, t) := by
  unfold nodeFind
  rw [hb]

theorem nodeFind_present (hb : t.tree.lookup b = some a) (ha : t.heap a = some n) :
    nodeFind b t = some (some a, setNode a (incRef n) t) := by
  unfold nodeFind
  rw [hb]
  dsimp only
  rw [store_eq ha]
  rfl

/-- A put that brings the count to zero keeps the node. -/
theorem nodePut_zero (ha : t.heap a = some n) (h0 : n.thRefcount - 1 = 0) :
    nodePut a t = some (setNode a { n with thRefcount := n.thRefcount - 1 } t) := by
  unfold nodePut
  simp only [ha, Option.bind_eq_bind, Option.bind_some, store_eq ha, h0, if_true, Option.pure_def]

/-- The table without the node `n` at `a`. -/
def removed (a : ℕ) (n : Node δ) (t : Table δ) : Table δ :=
  free a { t with tree := t.tree.erase n.thBlock }

/-- Any other put removes and frees it. -/
theorem nodePut_other (ha : t.heap a = some n) (h0 : n.thRefcount - 1 ≠ 0) :
    nodePut a t = some (removed a n t) := by
  unfold nodePut
  simp only [ha, Option.bind_eq_bind, Option.bind_some, store_eq ha, h0, if_false]
  unfold rbRemove setNode removed free
  simp only [Function.update_self, Option.map_some, Option.bind_some, Option.pure_def,
    Function.update_idem]

end

/-! ### The width of the counts -/

/-- No count is beyond `m`. -/
def CountsWithin (m : ℤ) (t : Table δ) : Prop := ∀ a n, t.heap a = some n → |n.thRefcount| ≤ m

section
variable {t t' : Table δ} {a : ℕ} {b m k : ℤ} {d : δ} {n : Node δ}

/-- **The count of a node is a `LONG`**: within 32 bits it is the number it is taken for here. -/
theorem CountsWithin.toInt_eq (ht : CountsWithin m t) (hm : m < 2 ^ 31) (ha : t.heap a = some n) :
    (BitVec.ofInt 32 n.thRefcount).toInt = n.thRefcount := by
  have habs := abs_le.mp (ht a n ha)
  rw [BitVec.toInt_ofInt, Int.bmod_def]
  split_ifs <;> omega

theorem CountsWithin.update (ht : CountsWithin m t) (hheap : ∀ c, c ≠ a → t'.heap c = t.heap c)
    (ha : ∀ n, t'.heap a = some n → |n.thRefcount| ≤ m) : CountsWithin m t' := by
  intro c n hc
  by_cases hca : c = a
  · exact ha n (hca ▸ hc)
  · exact ht c n ((hheap c hca).symm.trans hc)

theorem CountsWithin.of_store (ht : CountsWithin m t) {f : Node δ → Node δ} (hk : 0 ≤ k)
    (hf : ∀ n, |(f n).thRefcount| ≤ |n.thRefcount| + k) (h : store a f t = some t') :
    CountsWithin (m + k) t' := by
  obtain ⟨n, hn, rfl⟩ := Option.map_eq_some_iff.mp h
  have hm : CountsWithin (m + k) t := fun c n hc => (ht c n hc).trans (le_add_of_nonneg_right hk)
  refine hm.update (fun c hc => Function.update_of_ne hc _ _) fun n' hn' => ?_
  obtain rfl : f n = n' := Option.some.inj ((Function.update_self a _ _).symm.trans hn')
  exact (hf n).trans (Int.add_le_add_right (ht a n hn) k)

theorem CountsWithin.of_allocated (ht : CountsWithin m t) (hm : 0 ≤ m) :
    CountsWithin m (allocated d b t) :=
  ht.update (fun _ hc => Function.update_of_ne hc _ _) fun n hn => by
    obtain rfl := Option.some.inj ((Function.update_self t.next _ _).symm.trans hn)
    simpa using hm

theorem CountsWithin.of_free (ht : CountsWithin m t) : CountsWithin m (free a t) :=
  ht.update (fun _ hc => Function.update_of_ne hc _ _) fun n hn => by
    have hnone : (free a t).heap a = none := Function.update_self _ _ _
    cases hnone.symm.trans hn

theorem rbInsert_heap : (rbInsert b a t).2.heap = t.heap := by
  unfold rbInsert
  split <;> rfl

/-- A get raises counts by one at most. -/
theorem CountsWithin.of_get (ht : CountsWithin m t) (hm : 0 ≤ m) {alloc : Bool} {ret : Option ℕ}
    (h : nodeGet alloc d b t = some (ret, t')) : CountsWithin (m + 1) t' := by
  have hinc : ∀ n : Node δ, |(incRef n).thRefcount| ≤ |n.thRefcount| + 1 := fun n =>
    (abs_add_le _ _).trans le_rfl
  have hins : CountsWithin m (rbInsert b t.next (allocated d b t)).2 := by
    unfold CountsWithin
    rw [rbInsert_heap]
    exact ht.of_allocated hm
  unfold nodeGet at h
  cases alloc with
  | false =>
    obtain ⟨-, rfl⟩ := Prod.mk.inj (Option.some.inj h)
    exact fun c n hc => (ht c n hc).trans (by omega)
  | true =>
    simp only [Bool.not_true, Bool.false_eq_true, if_false] at h
    split_ifs at h with hret
    · simp only [Option.bind_eq_bind, Option.bind_eq_some_iff, Option.pure_def, Option.some_inj,
        Prod.mk.injEq] at h
      obtain ⟨a, -, u, hu, v, hv, -, rfl⟩ := h
      have hu' := hins.of_free.of_store le_rfl (fun n => by simp) hu
      rw [add_zero] at hu'
      exact hu'.of_store zero_le_one hinc hv
    · simp only [Option.bind_eq_bind, Option.bind_eq_some_iff, Option.pure_def, Option.some_inj,
        Prod.mk.injEq] at h
      obtain ⟨v, hv, -, rfl⟩ := h
      exact hins.of_store zero_le_one hinc hv

/-- A put moves a count by one. -/
theorem CountsWithin.of_put (ht : CountsWithin m t) (h : nodePut a t = some t') :
    CountsWithin (m + 1) t' := by
  have hdec : ∀ n : Node δ, |n.thRefcount - 1| ≤ |n.thRefcount| + 1 := fun n =>
    (abs_sub n.thRefcount 1).trans le_rfl
  unfold nodePut at h
  simp only [Option.bind_eq_bind, Option.bind_eq_some_iff] at h
  obtain ⟨n, -, u, hu, hput⟩ := h
  have hu' := ht.of_store zero_le_one hdec hu
  split_ifs at hput with h0
  · exact Option.some.inj hput ▸ hu'
  · simp only [Option.bind_eq_some_iff, Option.pure_def, Option.some_inj] at hput
    obtain ⟨v, hv, rfl⟩ := hput
    obtain ⟨_, -, rfl⟩ := Option.map_eq_some_iff.mp hv
    exact hu'.of_free

end

end Ext4Fsd.Journal.NodeTable
