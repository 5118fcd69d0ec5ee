import Ext4Fsd.Common.TreeRuns
import Ext4Fsd.Journal.NodeTable

/-! # The tables of nodes as trees in memory

The operations of `NodeTable` once more, with the tree macros themselves in the place of a map: a
node has its tree entry beside its header, `jbd2_generic_table_cmp` compares the headers, and the
loops take the turns they are given. `Sim` relates such a table to one of `NodeTable`; every
operation gives the same result on both, a fault included, and related tables again
(`runTree_agree`). So what is proved of `NodeTable`, where the tree is taken for a map, holds of the
code with the macros. -/

namespace Ext4Fsd.Journal.TableTree

open Ext4Fsd.Lib.RbTree Ext4Fsd.Common.DrvTree
open Ext4Fsd.Journal.NodeTable (Node Table)

/-! ### The code -/

/-- A table: its head with the tree entries of the nodes, and the rest of the nodes. -/
structure TreeTable (δ : Type) where
  rb : Heap
  heap : ℕ → Option (Node δ)
  next : ℕ
  freed : List ℕ

section
variable {δ : Type}

/-- `th_block` of the node at an address. -/
def thBlockAt (heap : ℕ → Option (Node δ)) (a : ℕ) : ℤ := ((heap a).map Node.thBlock).getD 0

/-- `jbd2_generic_table_cmp`. -/
def jbd2GenericTableCmp (heap : ℕ → Option (Node δ)) (hdrA hdrB : ℕ) : ℤ :=
  if thBlockAt heap hdrA < thBlockAt heap hdrB then -1
  else if thBlockAt heap hdrA > thBlockAt heap hdrB then 1
  else 0

/-- Memory for a node: what its tree entry holds at first does not matter. -/
def allocate (e : Entry) (n : Node δ) (t : TreeTable δ) : TreeTable δ :=
  { t with
    rb := t.rb.set t.next e
    heap := Function.update t.heap t.next (some n)
    next := t.next + 1 }

def free (a : ℕ) (t : TreeTable δ) : TreeTable δ :=
  { t with
    rb := { t.rb with node := Function.update t.rb.node a none }
    heap := Function.update t.heap a none
    freed := a :: t.freed }

/-- Change the node at `a`, if there is one. -/
def change (a : ℕ) (f : Node δ → Node δ) (t : TreeTable δ) : Except Stop (TreeTable δ) :=
  match t.heap a with
  | some n => .ok { t with heap := Function.update t.heap a (some (f n)) }
  | none => .error .fault

/-- The address behind a pointer that is accessed. -/
def deref (p : Option ℕ) : Except Stop ℕ :=
  match p with
  | some a => .ok a
  | none => .error .fault

/-- `jbc2_lbcb_get` and `jbd2_revoke_entry_get`. -/
def tableGet (turns : ℕ) (alloc : Bool) (d : δ) (e : Entry) (b : ℤ) (t : TreeTable δ) :
    Except Stop (Option ℕ × TreeTable δ) :=
  if !alloc then pure (none, t)
  else do
    let tmp := t.next
    let t := allocate e ⟨b, 0, true, d⟩ t
    let (ret, rb) ← rbInsert (jbd2GenericTableCmp t.heap) turns tmp t.rb
    let t := { t with rb }
    if ret ≠ some tmp then do
      let t := free tmp t
      let a ← deref ret
      let t ← change a (fun n => { n with isNew := false }) t
      let t ← change a NodeTable.incRef t
      pure (some a, t)
    else do
      let t ← change tmp NodeTable.incRef t
      pure (some tmp, t)

/-- `jbd2_revoke_entry_find`: the key is in a node on the stack, at `tmp`. -/
def tableFind (turns : ℕ) (d : δ) (tmp : ℕ) (b : ℤ) (t : TreeTable δ) :
    Except Stop (Option ℕ × TreeTable δ) := do
  let heap := Function.update t.heap tmp (some ⟨b, 0, true, d⟩)
  match ← rbFind (jbd2GenericTableCmp heap) tmp t.rb turns t.rb.rbhRoot with
  | none => pure (none, t)
  | some a => do
    let t ← change a NodeTable.incRef t
    pure (some a, t)

/-- `jbd2_lbcb_put` and `jbd2_revoke_entry_put`; `drv_atomic_sub_and_test` is true at zero. -/
def tablePut (turns : ℕ) (a : ℕ) (t : TreeTable δ) : Except Stop (TreeTable δ) := do
  let t ← change a (fun n => { n with thRefcount := n.thRefcount - 1 }) t
  match t.heap a with
  | none => .error .fault
  | some n =>
    if n.thRefcount = 0 then pure t
    else do
      let (_, rb) ← rbRemove turns a t.rb
      pure (free a { t with rb })

/-- `jbd2_revoke_table_clear`. -/
def tableClear (turns : ℕ) (t : TreeTable δ) : Except Stop (TreeTable δ) :=
  rbForeachSafe TreeTable.rb turns (fun re t => tablePut turns re t) turns t

/-! ### The two tables of the journal -/

end

/-- `jbc2_lbcb_get`. -/
def jbc2LbcbGet (turns : ℕ) (alloc : Bool) (e : Entry) (blocknr : ℤ) (t : TreeTable Unit) :
    Except Stop (Option ℕ × TreeTable Unit) := tableGet turns alloc () e blocknr t

/-- `jbd2_lbcb_put`. -/
def jbd2LbcbPut (turns : ℕ) (lbcb : ℕ) (t : TreeTable Unit) : Except Stop (TreeTable Unit) :=
  tablePut turns lbcb t

/-- `jbd2_revoke_entry_get`; `re_tid` is not set. -/
def jbd2RevokeEntryGet (turns : ℕ) (alloc : Bool) (e : Entry) (blocknr : ℤ) (t : TreeTable ℤ) :
    Except Stop (Option ℕ × TreeTable ℤ) := tableGet turns alloc 0 e blocknr t

/-- `jbd2_revoke_entry_find`, with `re_tmp` at an address that is not given out yet. -/
def jbd2RevokeEntryFind (turns : ℕ) (blocknr : ℤ) (t : TreeTable ℤ) :
    Except Stop (Option ℕ × TreeTable ℤ) := tableFind turns 0 t.next blocknr t

/-- `jbd2_revoke_entry_put`. -/
def jbd2RevokeEntryPut (turns : ℕ) (re : ℕ) (t : TreeTable ℤ) : Except Stop (TreeTable ℤ) :=
  tablePut turns re t

/-- `jbd2_revoke_table_clear`. -/
def jbd2RevokeTableClear (turns : ℕ) (t : TreeTable ℤ) : Except Stop (TreeTable ℤ) :=
  tableClear turns t

/-- A call on the revoke table. -/
inductive Call
  | get (alloc : Bool) (e : Entry) (blocknr : ℤ)
  | find (blocknr : ℤ)
  | put (re : ℕ)

/-- A call on the tree. -/
def Call.tree (turns : ℕ) : Call → TreeTable ℤ → Except Stop (Option ℕ × TreeTable ℤ)
  | .get alloc e b, t => jbd2RevokeEntryGet turns alloc e b t
  | .find b, t => jbd2RevokeEntryFind turns b t
  | .put re, t => do pure (none, ← jbd2RevokeEntryPut turns re t)

/-- A call on the map. -/
def Call.map : Call → Table ℤ → Option (Option ℕ × Table ℤ)
  | .get alloc _ b, t => NodeTable.jbd2RevokeEntryGet alloc b t
  | .find b, t => NodeTable.jbd2RevokeEntryFind b t
  | .put re, t => do pure (none, ← NodeTable.jbd2RevokeEntryPut re t)

/-- A run of calls on the tree, with what they return. -/
def runTree (turns : ℕ) : List Call → TreeTable ℤ → Except Stop (List (Option ℕ) × TreeTable ℤ)
  | [], t => .ok ([], t)
  | call :: calls, t => do
    let (r, t) ← call.tree turns t
    let (rs, t) ← runTree turns calls t
    pure (r :: rs, t)

/-- A run of calls on the map, with what they return. -/
def runMap : List Call → Table ℤ → Option (List (Option ℕ) × Table ℤ)
  | [], t => some ([], t)
  | call :: calls, t => do
    let (r, t) ← call.map t
    let (rs, t) ← runMap calls t
    pure (r :: rs, t)

section
variable {δ : Type}

/-! ### Two tables -/

/-- The table in memory and the table that is a map have the same nodes. -/
structure Sim (s : TreeTable δ) (t : Table δ) : Prop where
  heap : s.heap = t.heap
  next : s.next = t.next
  freed : s.freed = t.freed
  tree : ∃ T, SearchTree (thBlockAt s.heap) s.rb T ∧ T.inorder.length = t.tree.keys.length ∧
    (∀ b a, t.tree.lookup b = some a ↔ a ∈ T.inorder ∧ thBlockAt s.heap a = b) ∧
    ∀ a, s.heap a ≠ none ↔ a ∈ T.inorder
  fresh : ∀ a, s.next ≤ a → s.heap a = none

/-- Both fault, or both return the same with tables that have the same nodes, `m` at most. -/
def Agree {β : Type} (m : ℕ) (x : Except Stop (β × TreeTable δ))
    (y : Option (β × Table δ)) : Prop :=
  (x = .error .fault ∧ y = none) ∨
    ∃ r s t, x = .ok (r, s) ∧ y = some (r, t) ∧ Sim s t ∧ t.tree.keys.length ≤ m

variable {s : TreeTable δ} {t : Table δ} {T : RTree ℕ} {a tmp turns : ℕ} {b : ℤ} {d : δ} {e : Entry}
  {heap heap' : ℕ → Option (Node δ)} {rb rb' : Heap}

theorem comparesBy_thBlockAt (heap : ℕ → Option (Node δ)) :
    ComparesBy (jbd2GenericTableCmp heap) (thBlockAt heap) := by
  constructor <;> intro a b <;> unfold jbd2GenericTableCmp <;> split_ifs <;> omega

theorem thBlockAt_eq {n : Node δ} (ha : heap a = some n) : thBlockAt heap a = n.thBlock := by
  simp [thBlockAt, ha]

theorem thBlockAt_congr (ha : heap' a = heap a) : thBlockAt heap' a = thBlockAt heap a := by
  simp [thBlockAt, ha]

/-- A change that keeps the tree, the keys and which addresses are nodes. -/
theorem Sim.same {s' : TreeTable δ} {t' : Table δ} (hs : Sim s t) (hheap : s'.heap = t'.heap)
    (hnext : s'.next = t'.next) (hfreed : s'.freed = t'.freed) (htree : t'.tree = t.tree)
    (hroot : s'.rb.rbhRoot = s.rb.rbhRoot)
    (hnode : ∀ x, s.heap x ≠ none → s'.rb.node x = s.rb.node x)
    (hkey : ∀ x, s.heap x ≠ none → thBlockAt s'.heap x = thBlockAt s.heap x)
    (hdom : ∀ x, s'.heap x = none ↔ s.heap x = none) (hle : s.next ≤ s'.next) : Sim s' t' := by
  obtain ⟨T, hT, hlen, hlook, hlive⟩ := hs.tree
  refine ⟨hheap, hnext, hfreed, ⟨T, hT.congr hroot (fun x hx => hnode x ((hlive x).mpr hx))
    (fun x hx => hkey x ((hlive x).mpr hx)), by rw [htree, hlen], fun b a => ?_, fun a => ?_⟩,
    fun x hx => (hdom x).mpr (hs.fresh x (hle.trans hx))⟩
  · rw [htree, hlook]
    constructor
    · rintro ⟨ha, hb⟩
      exact ⟨ha, (hkey a ((hlive a).mpr ha)).trans hb⟩
    · rintro ⟨ha, hb⟩
      exact ⟨ha, (hkey a ((hlive a).mpr ha)).symm.trans hb⟩
  · rw [ne_eq, hdom, ← ne_eq, hlive]

/-- The nodes of related tables are the ones in the map. -/
theorem Sim.live (hs : Sim s t) (hb : t.tree.lookup b = some a) :
    ∃ n, s.heap a = some n ∧ n.thBlock = b ∧ a ≠ s.next := by
  obtain ⟨T, hT, hlen, hlook, hlive⟩ := hs.tree
  obtain ⟨haT, hk⟩ := (hlook b a).mp hb
  obtain ⟨n, hn⟩ := Option.ne_none_iff_exists'.mp ((hlive a).mpr haT)
  refine ⟨n, hn, (thBlockAt_eq hn).symm.trans hk, ?_⟩
  rintro rfl
  rw [hs.fresh s.next le_rfl] at hn
  cases hn

/-- The tree with a node allocated for a get, which is not in it. -/
theorem searchTree_allocated {n : Node δ} (hs : Sim s t) (hT : SearchTree (thBlockAt s.heap) s.rb T)
    (hlive : ∀ a, s.heap a ≠ none ↔ a ∈ T.inorder) :
    SearchTree (thBlockAt (Function.update s.heap s.next (some n))) (s.rb.set s.next e) T := by
  have hne : ∀ x ∈ T.inorder, x ≠ s.next := by
    rintro x hx rfl
    exact (hlive _).mpr hx (hs.fresh _ le_rfl)
  exact hT.congr rfl (fun x hx => set_node_ne (hne x hx))
    (fun x hx => thBlockAt_congr (Function.update_of_ne (hne x hx) _ _))

/-- The node that a get allocates. -/
def newNode (d : δ) (b : ℤ) : Node δ := ⟨b, 0, true, d⟩

/-- What a new address does to the keys of the table: nothing, and its own is the block. -/
theorem keys_allocated (hs : Sim s t) (n : Node δ) :
    thBlockAt (Function.update s.heap s.next (some n)) s.next = n.thBlock ∧
      ∀ x, s.heap x ≠ none → x ≠ s.next ∧
        thBlockAt (Function.update s.heap s.next (some n)) x = thBlockAt s.heap x := by
  refine ⟨thBlockAt_eq (Function.update_self _ _ _), fun x hx => ?_⟩
  have hne : x ≠ s.next := by
    rintro rfl
    exact hx (hs.fresh _ le_rfl)
  exact ⟨hne, thBlockAt_congr (Function.update_of_ne hne _ _)⟩

/-- **A get of a new block** inserts the node, and takes the null pointer for it. -/
theorem tableGet_absent (hs : Sim s t) (hb : t.tree.lookup b = none)
    (hn : 2 * Nat.log 2 (t.tree.keys.length + 1) < turns) :
    tableGet turns true d e b s = .error .fault := by
  obtain ⟨T, hT, hlen, hlook, hlive⟩ := hs.tree
  have hT' := searchTree_allocated (e := e) (n := newNode d b) hs hT hlive
  obtain ⟨hkey, hkeys⟩ := keys_allocated hs (newNode d b)
  have hnew : ∀ x ∈ T.inorder,
      thBlockAt (Function.update s.heap s.next (some (newNode d b))) x ≠
        thBlockAt (Function.update s.heap s.next (some (newNode d b))) s.next := by
    intro x hx hxb
    rw [hkey, (hkeys x ((hlive x).mpr hx)).2] at hxb
    rw [(hlook b x).mpr ⟨hx, hxb⟩] at hb
    cases hb
  obtain ⟨h', t', hrun, -⟩ := rbInsert_new (comparesBy_thBlockAt _) hT' hnew
    (set_node_self (a := s.next) (e := e)) (hT'.height_lt (by rwa [hlen]))
  unfold tableGet allocate
  simp only [newNode] at hrun
  simp only [Bool.not_true, Bool.false_eq_true, if_false, hrun, bind, Except.bind, ne_eq,
    reduceCtorEq, not_false_eq_true, if_true, deref]

/-- The table after a get of a node it has. -/
def gotten (e : Entry) (a : ℕ) (n : Node δ) (s : TreeTable δ) : TreeTable δ where
  rb := { s.rb with node := Function.update (s.rb.set s.next e).node s.next none }
  heap := Function.update (Function.update s.heap s.next none) a
    (some { n with isNew := false, thRefcount := n.thRefcount + 1 })
  next := s.next + 1
  freed := s.next :: s.freed

/-- A get of a block that the table has finds its node. -/
theorem tableGet_present {n : Node δ} (hs : Sim s t) (hb : t.tree.lookup b = some a)
    (ha : s.heap a = some n) (hne : a ≠ s.next)
    (hn : 2 * Nat.log 2 (t.tree.keys.length + 1) < turns) :
    tableGet turns true d e b s = .ok (some a, gotten e a n s) := by
  obtain ⟨T, hT, hlen, hlook, hlive⟩ := hs.tree
  have hT' := searchTree_allocated (e := e) (n := newNode d b) hs hT hlive
  obtain ⟨hkey, hkeys⟩ := keys_allocated hs (newNode d b)
  obtain ⟨haT, hab⟩ := (hlook b a).mp hb
  have hka : thBlockAt (Function.update s.heap s.next (some (newNode d b))) a =
      thBlockAt (Function.update s.heap s.next (some (newNode d b))) s.next := by
    rw [hkey, (hkeys a ((hlive a).mpr haT)).2, hab]
    rfl
  have hrun := rbInsert_present (comparesBy_thBlockAt _) hT' haT hka
    (hT'.height_lt (by rwa [hlen])).le
  have hfree : Function.update (Function.update s.heap s.next (some (newNode d b))) s.next none =
      Function.update s.heap s.next none := Function.update_idem _ _ _
  have ha' : Function.update s.heap s.next none a = some n := by
    rw [Function.update_of_ne hne, ha]
  unfold tableGet allocate
  simp only [newNode] at hrun hfree
  simp only [Bool.not_true, Bool.false_eq_true, if_false, hrun, bind, Except.bind, ne_eq,
    Option.some.injEq, hne, not_false_eq_true, if_true, deref, free, change, hfree, ha',
    Function.update_self, Function.update_idem, NodeTable.incRef, pure, Except.pure]
  rfl

theorem Sim.gotten {n : Node δ} (hs : Sim s t) (ha : s.heap a = some n) (hne : a ≠ s.next) :
    Sim (gotten e a n s) (NodeTable.gotten a n t) := by
  have hnext : ∀ x, s.heap x ≠ none → x ≠ s.next := fun x hx => ((keys_allocated hs n).2 x hx).1
  refine hs.same ?_ ?_ ?_ rfl rfl (fun x hx => ?_) (fun x hx => ?_) (fun x => ?_) (Nat.le_succ _)
  · simp only [TableTree.gotten, NodeTable.gotten, hs.heap, hs.next]
  · simp only [TableTree.gotten, NodeTable.gotten, hs.next]
  · simp only [TableTree.gotten, NodeTable.gotten, hs.next, hs.freed]
  · dsimp only [TableTree.gotten]
    rw [Function.update_of_ne (hnext x hx), set_node_ne (hnext x hx)]
  · by_cases hxa : x = a
    · have hself : (TableTree.gotten e a n s).heap a =
          some { n with isNew := false, thRefcount := n.thRefcount + 1 } :=
            Function.update_self _ _ _
      rw [hxa, thBlockAt_eq hself, thBlockAt_eq ha]
    · refine thBlockAt_congr ?_
      dsimp only [TableTree.gotten]
      rw [Function.update_of_ne hxa, Function.update_of_ne (hnext x hx)]
  · dsimp only [TableTree.gotten]
    by_cases hxa : x = a
    · simp [hxa, ha]
    · by_cases hxn : x = s.next
      · simp [hxn, Function.update_of_ne hne.symm, hs.fresh s.next le_rfl]
      · simp [Function.update_of_ne hxa, Function.update_of_ne hxn]

/-- **A get** agrees. -/
theorem tableGet_agree {alloc : Bool} (hs : Sim s t)
    (hn : 2 * Nat.log 2 (t.tree.keys.length + 1) < turns) :
    Agree t.tree.keys.length (tableGet turns alloc d e b s) (NodeTable.nodeGet alloc d b t) := by
  cases alloc with
  | false => exact Or.inr ⟨none, s, t, rfl, rfl, hs, le_rfl⟩
  | true =>
    cases hb : t.tree.lookup b with
    | none => exact Or.inl ⟨tableGet_absent hs hb hn, NodeTable.nodeGet_absent hb⟩
    | some a =>
      obtain ⟨n, hna, -, hane⟩ := hs.live hb
      have hnode := NodeTable.nodeGet_present (d := d) hb (by rw [← hs.heap, hna])
        (by rwa [← hs.next])
      exact Or.inr ⟨_, _, _, tableGet_present hs hb hna hane hn, hnode, hs.gotten hna hane,
        le_rfl⟩

theorem change_eq {f : Node δ → Node δ} {n : Node δ} (ha : s.heap a = some n) :
    change a f s = .ok { s with heap := Function.update s.heap a (some (f n)) } := by
  unfold change
  rw [ha]

/-- A change of a node that keeps its key. -/
theorem Sim.setNode {n m : Node δ} (hs : Sim s t) (ha : s.heap a = some n)
    (hn : m.thBlock = n.thBlock) :
    Sim { s with heap := Function.update s.heap a (some m) } (NodeTable.setNode a m t) := by
  refine hs.same ?_ hs.next hs.freed rfl rfl (fun x hx => rfl) (fun x hx => ?_) (fun x => ?_) le_rfl
  · simp only [NodeTable.setNode, hs.heap]
  · by_cases hxa : x = a
    · rw [hxa, thBlockAt_eq (Function.update_self _ _ _), hn, thBlockAt_eq ha]
    · exact thBlockAt_congr (Function.update_of_ne hxa _ _)
  · by_cases hxa : x = a
    · simp [hxa, ha]
    · simp [Function.update_of_ne hxa]

/-- **A find** agrees, with its key at an address that is no node. -/
theorem tableFind_agree (hs : Sim s t) (htmp : s.heap tmp = none)
    (hn : 2 * Nat.log 2 (t.tree.keys.length + 1) < turns) :
    Agree t.tree.keys.length (tableFind turns d tmp b s) (NodeTable.nodeFind b t) := by
  obtain ⟨T, hT, hlen, hlook, hlive⟩ := hs.tree
  have hne : ∀ x ∈ T.inorder, x ≠ tmp := by
    rintro x hx rfl
    exact (hlive _).mpr hx htmp
  have hT' : SearchTree (thBlockAt (Function.update s.heap tmp (some (newNode d b)))) s.rb T :=
    hT.congr rfl (fun x hx => rfl)
      (fun x hx => thBlockAt_congr (Function.update_of_ne (hne x hx) _ _))
  have hkey : thBlockAt (Function.update s.heap tmp (some (newNode d b))) tmp = b :=
    thBlockAt_eq (Function.update_self _ _ _)
  have hfind := rbFind_at (a := tmp) (comparesBy_thBlockAt _) hT'.at hT'.ascending
    (hT'.height_lt (by rwa [hlen])).le
  have hroot : s.rb.rbhRoot = T.top := hT.at.ctx
  rw [← hroot] at hfind
  have hkeys : ∀ x ∈ T.inorder,
      thBlockAt (Function.update s.heap tmp (some (newNode d b))) x = thBlockAt s.heap x :=
    fun x hx => thBlockAt_congr (Function.update_of_ne (hne x hx) _ _)
  have hlook' : T.inorder.find? (fun x => thBlockAt (Function.update s.heap tmp
      (some (newNode d b))) x = b) = t.tree.lookup b := find_key_eq fun a => by
    rw [hlook]
    exact and_congr_right fun hx => by rw [hkeys a hx]
  rw [hkey, hlook'] at hfind
  unfold tableFind
  simp only [newNode] at hfind
  simp only [hfind, bind, Except.bind]
  cases hb : t.tree.lookup b with
  | none => exact Or.inr ⟨none, s, t, rfl, NodeTable.nodeFind_absent hb, hs, le_rfl⟩
  | some a =>
    obtain ⟨n, hna, -⟩ := hs.live hb
    refine Or.inr ⟨some a, _, _, ?_, NodeTable.nodeFind_present hb (by rw [← hs.heap, hna]),
      hs.setNode hna rfl, le_rfl⟩
    simp only [change_eq hna, pure, Except.pure]

/-- `RB_REMOVE` and a free leave related tables without the node. -/
theorem Sim.removed {n m : Node δ} (hs : Sim s t) (ha : s.heap a = some n)
    (hn : 2 * Nat.log 2 (t.tree.keys.length + 1) < turns) :
    ∃ rb, rbRemove turns a s.rb = .ok (a, rb) ∧
      Sim (free a { s with rb, heap := Function.update s.heap a (some m) })
        (NodeTable.removed a n t) := by
  obtain ⟨T, hT, hlen, hlook, hlive⟩ := hs.tree
  have haT : a ∈ T.inorder := (hlive a).mp (by rw [ha]; simp)
  have hka : thBlockAt s.heap a = n.thBlock := thBlockAt_eq ha
  obtain ⟨rb, T', hrun, hT', ho, -, -⟩ :=
    rbRemove_mem hT haT (hT.height_lt (by rwa [hlen])).le
  have hmem : ∀ x, x ∈ T'.inorder ↔ x ≠ a ∧ x ∈ T.inorder := fun x => by
    rw [ho, hT.ascending.nodup.mem_erase_iff]
  have hheap : ∀ x, x ≠ a →
      Function.update (Function.update s.heap a (some m)) a none x = s.heap x := fun x hx => by
    rw [Function.update_of_ne hx, Function.update_of_ne hx]
  have hlookup : t.tree.lookup n.thBlock = some a := (hlook _ _).mpr ⟨haT, hka⟩
  refine ⟨rb, hrun, ⟨?_, hs.next, ?_, ⟨T', ?_, ?_, fun b x => ?_, fun x => ?_⟩, fun x hx => ?_⟩⟩
  · simp only [free, NodeTable.removed, NodeTable.free, Function.update_idem, hs.heap]
  · simp only [free, NodeTable.removed, NodeTable.free, hs.freed]
  · exact hT'.congr rfl (fun x hx => Function.update_of_ne ((hmem x).mp hx).1 _ _)
      (fun x hx => thBlockAt_congr (hheap x ((hmem x).mp hx).1))
  · have hkeys : n.thBlock ∈ t.tree.keys := by
      rw [← AList.mem_keys, ← AList.lookup_isSome, hlookup]
      rfl
    simp only [NodeTable.removed, NodeTable.free, AList.keys_erase]
    rw [ho, List.length_erase_of_mem haT, List.length_erase_of_mem hkeys, hlen]
  · simp only [NodeTable.removed, NodeTable.free, free]
    rw [hmem]
    by_cases hb : b = n.thBlock
    · rw [hb, AList.lookup_erase]
      constructor
      · rintro ⟨⟩
      · rintro ⟨⟨hxa, hxT⟩, hk⟩
        rw [thBlockAt_congr (hheap x hxa), ← hka] at hk
        exact absurd (hT.ascending.eq_of_key hxT haT hk) hxa
    · rw [AList.lookup_erase_ne hb, hlook]
      constructor
      · rintro ⟨hxT, hk⟩
        have hxa : x ≠ a := by
          rintro rfl
          exact hb (hk.symm.trans hka)
        exact ⟨⟨hxa, hxT⟩, (thBlockAt_congr (hheap x hxa)).trans hk⟩
      · rintro ⟨⟨hxa, hxT⟩, hk⟩
        exact ⟨hxT, (thBlockAt_congr (hheap x hxa)).symm.trans hk⟩
  · simp only [free]
    rw [hmem]
    by_cases hxa : x = a
    · simp [hxa]
    · rw [hheap x hxa, hlive]
      simp [hxa]
  · simp only [free]
    by_cases hxa : x = a
    · simp [hxa]
    · rw [hheap x hxa]
      exact hs.fresh x hx

/-- **A put** agrees. -/
theorem tablePut_agree (hs : Sim s t) (hn : 2 * Nat.log 2 (t.tree.keys.length + 1) < turns) :
    (tablePut turns a s = .error .fault ∧ NodeTable.nodePut a t = none) ∨
      ∃ s' t', tablePut turns a s = .ok s' ∧ NodeTable.nodePut a t = some t' ∧ Sim s' t' ∧
        t'.tree.keys.length ≤ t.tree.keys.length := by
  cases ha : s.heap a with
  | none =>
    refine Or.inl ⟨?_, ?_⟩
    · unfold tablePut change
      rw [ha]
      rfl
    · unfold NodeTable.nodePut
      rw [← hs.heap, ha]
      rfl
  | some n =>
    have hat : t.heap a = some n := by rw [← hs.heap, ha]
    by_cases h0 : n.thRefcount - 1 = 0
    · refine Or.inr ⟨_, _, ?_, NodeTable.nodePut_zero hat h0,
        hs.setNode ha (m := { n with thRefcount := n.thRefcount - 1 }) rfl, le_rfl⟩
      unfold tablePut
      simp only [change_eq ha, bind, Except.bind, Function.update_self, h0, if_true, pure,
        Except.pure]
    · obtain ⟨rb, hrun, hsim⟩ := hs.removed (m := { n with thRefcount := n.thRefcount - 1 }) ha hn
      refine Or.inr ⟨_, _, ?_, NodeTable.nodePut_other hat h0, hsim, ?_⟩
      · unfold tablePut
        simp only [change_eq ha, bind, Except.bind, Function.update_self, h0, if_false, hrun, pure,
          Except.pure]
      · simp only [NodeTable.removed, NodeTable.free, AList.keys_erase]
        exact List.length_erase_le

end

/-! ### Runs of calls -/

section
variable {s : TreeTable ℤ} {t : Table ℤ} {turns : ℕ}

theorem call_agree (call : Call) (hs : Sim s t)
    (hn : 2 * Nat.log 2 (t.tree.keys.length + 1) < turns) :
    Agree t.tree.keys.length (call.tree turns s) (call.map t) := by
  cases call with
  | get alloc e b => exact tableGet_agree hs hn
  | find b => exact tableFind_agree hs (hs.fresh _ le_rfl) hn
  | put re =>
    rcases tablePut_agree (a := re) hs hn with ⟨hx, hy⟩ | ⟨s', t', hx, hy, hsim⟩
    · refine Or.inl ⟨?_, ?_⟩
      · simp only [Call.tree, jbd2RevokeEntryPut, hx, bind, Except.bind]
      · simp only [Call.map, NodeTable.jbd2RevokeEntryPut, hy, Option.bind_eq_bind,
          Option.bind_none]
    · refine Or.inr ⟨none, s', t', ?_, ?_, hsim⟩
      · simp only [Call.tree, jbd2RevokeEntryPut, hx, bind, Except.bind, pure, Except.pure]
      · simp only [Call.map, NodeTable.jbd2RevokeEntryPut, hy, Option.bind_eq_bind,
          Option.bind_some, Option.pure_def]

/-- **The calls on the revoke table do on the red-black tree what they do on a map**: over any run
both return the same, and fault at the same call. -/
theorem runTree_agree {calls : List Call} (hs : Sim s t)
    (hn : 2 * Nat.log 2 (t.tree.keys.length + 1) < turns) :
    Agree t.tree.keys.length (runTree turns calls s) (runMap calls t) := by
  induction calls generalizing s t with
  | nil => exact Or.inr ⟨[], s, t, rfl, rfl, hs, le_rfl⟩
  | cons call calls ih =>
    unfold runTree runMap
    rcases call_agree call hs hn with ⟨hx, hy⟩ | ⟨r, s₁, t₁, hx, hy, hs₁, hle⟩
    · exact Or.inl ⟨by rw [hx]; rfl, by rw [hy]; rfl⟩
    · have hn₁ : 2 * Nat.log 2 (t₁.tree.keys.length + 1) < turns :=
        lt_of_le_of_lt (Nat.mul_le_mul_left 2 (Nat.log_mono_right (by omega))) hn
      rcases ih hs₁ hn₁ with ⟨hx', hy'⟩ | ⟨rs, s', t', hx', hy', hs', hle'⟩
      · refine Or.inl ⟨?_, ?_⟩
        · simp only [hx, bind, Except.bind, hx']
        · simp only [hy, hy', Option.bind_eq_bind, Option.bind_some, Option.bind_none]
      · refine Or.inr ⟨r :: rs, s', t', ?_, ?_, hs', hle'.trans hle⟩
        · simp only [hx, bind, Except.bind, hx', pure, Except.pure]
        · simp only [hy, hy', Option.bind_eq_bind, Option.bind_some, Option.pure_def]

end

/-! ### A clear -/

section
variable {δ : Type} {K : Type} [LinearOrder K] {key : ℕ → K} {s : TreeTable δ} {T : RTree ℕ}
  {a turns : ℕ} {n : Node δ}

/-- A put of the last reference keeps the node; any other removes and frees it. -/
theorem tablePut_cases (hT : SearchTree key s.rb T) (ha : s.heap a = some n) (haT : a ∈ T.inorder)
    (hn : T.height ≤ turns) :
    (n.thRefcount = 1 ∧ tablePut turns a s =
        .ok { s with heap := Function.update s.heap a (some { n with thRefcount := 0 }) }) ∨
      n.thRefcount ≠ 1 ∧ ∃ s' T', tablePut turns a s = .ok s' ∧ SearchTree key s'.rb T' ∧
        T'.inorder = T.inorder.erase a ∧ s'.heap = Function.update s.heap a none ∧
          s'.freed = a :: s.freed := by
  by_cases h1 : n.thRefcount = 1
  · refine Or.inl ⟨h1, ?_⟩
    have h0 : n.thRefcount - 1 = 0 := by omega
    unfold tablePut
    simp only [change_eq ha, bind, Except.bind, Function.update_self, h0, if_true, pure,
      Except.pure]
  · refine Or.inr ⟨h1, ?_⟩
    have h0 : ¬ n.thRefcount - 1 = 0 := by omega
    obtain ⟨rb, T', hrun, hT', ho, -⟩ := rbRemove_mem hT haT hn
    obtain ⟨n', hn'⟩ : ∃ n' : Node δ, n' = { n with thRefcount := n.thRefcount - 1 } := ⟨_, rfl⟩
    have hc : n'.thRefcount ≠ 0 := by rw [hn']; exact h0
    refine ⟨free a { s with rb, heap := Function.update s.heap a (some n') }, T', ?_, ?_, ho, ?_,
      rfl⟩
    · unfold tablePut
      simp only [change_eq ha, bind, Except.bind, Function.update_self, ← hn', hc, if_false, hrun,
        pure, Except.pure]
    · refine hT'.congr rfl (fun x hx => Function.update_of_ne ?_ _ _) (fun _ _ => rfl)
      rintro rfl
      rw [ho, hT.ascending.nodup.mem_erase_iff] at hx
      exact hx.1 rfl
    · simp only [free, Function.update_idem]

/-- The node has one reference. -/
def lastRef (heap : ℕ → Option (Node δ)) (a : ℕ) : Bool := (heap a).map Node.thRefcount = some 1

/-- What a put leaves of a node. -/
def leftOver (o : Option (Node δ)) : Option (Node δ) :=
  o.bind fun n => if n.thRefcount = 1 then some { n with thRefcount := 0 } else none

/-- A put on each node of the rest of a tree. -/
theorem putAll_eq {ys zs : List ℕ} (hT : SearchTree key s.rb T) (ho : T.inorder = ys ++ zs)
    (hlive : ∀ x ∈ zs, s.heap x ≠ none) (hn : 2 * Nat.log 2 (T.inorder.length + 1) ≤ turns) :
    ∃ s' T', zs.foldlM (fun t re => tablePut turns re t) s = .ok s' ∧ SearchTree key s'.rb T' ∧
      T'.inorder = ys ++ zs.filter (lastRef s.heap) ∧
      s'.freed = (zs.filter fun x => !lastRef s.heap x).reverse ++ s.freed ∧
      ∀ x, s'.heap x = if x ∈ zs then leftOver (s.heap x) else s.heap x := by
  induction zs generalizing s T ys with
  | nil => exact ⟨s, T, rfl, hT, by simpa using ho, rfl, fun x => by simp⟩
  | cons z zs ih =>
    obtain ⟨n, hz⟩ := Option.ne_none_iff_exists'.mp (hlive z (by simp))
    have hnd := hT.ascending.nodup
    rw [ho, List.nodup_append, List.nodup_cons] at hnd
    have hzT : z ∈ T.inorder := by rw [ho]; simp
    have hother : ∀ {o : Option (Node δ)} {x : ℕ}, x ∈ zs →
      Function.update s.heap z o x = s.heap x := by
      intro o x hx
      refine Function.update_of_ne ?_ _ _
      rintro rfl
      exact hnd.2.1.1 hx
    have hfilter : ∀ (o : Option (Node δ)), ∀ x ∈ zs,
        lastRef (Function.update s.heap z o) x = lastRef s.heap x := fun o x hx => by
      simp only [lastRef, hother hx]
    have hheap : ∀ (o : Option (Node δ)), leftOver (some n) = o → ∀ x,
        (if x ∈ zs then leftOver (Function.update s.heap z o x) else Function.update s.heap z o x) =
          if x ∈ z :: zs then leftOver (s.heap x) else s.heap x := by
      intro o hleft x
      by_cases hxz : x = z
      · rw [hxz, if_neg hnd.2.1.1, if_pos (by simp), Function.update_self, hz, hleft]
      · simp [hxz]
    have hheight := height_le_of_length hT le_rfl hn
    rw [List.foldlM_cons]
    rcases tablePut_cases hT hz hzT hheight
      with ⟨h1, hrun⟩ | ⟨h1, s₁, T₁, hrun, hT₁, ho₁, hheap₁, hfr₁⟩
    · have hlast : lastRef s.heap z = true := by simp [lastRef, hz, h1]
      have hleft : leftOver (some n) = some { n with thRefcount := 0 } := by simp [leftOver, h1]
      have hcons : T.inorder = (ys ++ [z]) ++ zs := by
        rw [ho]
        simp
      obtain ⟨s', T', hrun', hT', ho', hfr', hh'⟩ := ih
        (s := { s with heap := Function.update s.heap z (some { n with thRefcount := 0 }) })
        hT hcons
        (fun x hx => by dsimp only; rw [hother hx]; exact hlive x (by simp [hx])) hn
      refine ⟨s', T', by simp only [hrun, bind, Except.bind, hrun'], hT', ?_, ?_, fun x => ?_⟩
      · rw [ho', List.filter_congr (hfilter _), List.filter_cons, if_pos hlast]
        simp
      · rw [hfr', List.filter_congr (fun x hx => by rw [hfilter _ x hx]), List.filter_cons,
          if_neg (by simp [hlast])]
      · rw [hh' x]
        exact hheap _ hleft x
    · have hlast : lastRef s.heap z = false := by simp [lastRef, hz, h1]
      have hleft : leftOver (some n) = none := by simp [leftOver, h1]
      have hys : z ∉ ys := fun hm => hnd.2.2 z hm z (by simp) rfl
      have ho₁' : T₁.inorder = ys ++ zs := by rw [ho₁, ho, erase_middle hys]
      have hn₁ : 2 * Nat.log 2 (T₁.inorder.length + 1) ≤ turns := by
        refine le_trans (Nat.mul_le_mul_left 2 (Nat.log_mono_right ?_)) hn
        rw [ho₁', ho]
        simp
      obtain ⟨s', T', hrun', hT', ho', hfr', hh'⟩ := ih hT₁ ho₁'
        (fun x hx => by rw [hheap₁, hother hx]; exact hlive x (by simp [hx])) hn₁
      rw [hheap₁] at ho' hfr' hh'
      refine ⟨s', T', by simp only [hrun, bind, Except.bind, hrun'], hT', ?_, ?_, fun x => ?_⟩
      · rw [ho', List.filter_congr (hfilter _), List.filter_cons, if_neg (by simp [hlast])]
      · rw [hfr', List.filter_congr (fun x hx => by rw [hfilter _ x hx]), List.filter_cons,
          if_pos (by simp [hlast]), hfr₁]
        simp
      · rw [hh' x]
        exact hheap _ hleft x

/-- A clear puts every node once, in the order of the blocks: the nodes with one reference stay in
the tree, without a reference, and all the others are removed and freed. -/
theorem tableClear_eq (hT : SearchTree (thBlockAt s.heap) s.rb T)
    (hlive : ∀ x ∈ T.inorder, s.heap x ≠ none)
    (hn : 2 * Nat.log 2 (T.inorder.length + 1) ≤ turns) (hlen : T.inorder.length ≤ turns) :
    ∃ s' T', tableClear turns s = .ok s' ∧ SearchTree (thBlockAt s'.heap) s'.rb T' ∧
      T'.inorder = T.inorder.filter (lastRef s.heap) ∧
      s'.freed = (T.inorder.filter fun x => !lastRef s.heap x).reverse ++ s.freed ∧
      ∀ x, s'.heap x = if x ∈ T.inorder then leftOver (s.heap x) else s.heap x := by
  have hbody : ∀ x (s₁ s₁' : TreeTable δ) t, SearchTree (thBlockAt s.heap) s₁.rb t →
      t.height ≤ turns → x ∈ t.inorder → tablePut turns x s₁ = .ok s₁' →
      ∃ t', SearchTree (thBlockAt s.heap) s₁'.rb t' ∧
        (t'.inorder = t.inorder ∨ t'.inorder = t.inorder.erase x) := by
    intro x s₁ s₁' t ht hheight hx hrun
    cases hxn : s₁.heap x with
    | none =>
      unfold tablePut change at hrun
      rw [hxn] at hrun
      cases hrun
    | some n =>
      rcases tablePut_cases ht hxn hx hheight with ⟨-, hrun'⟩ | ⟨-, s₂, t', hrun', ht', ho', -⟩
      · rw [hrun'] at hrun
        cases hrun
        exact ⟨t, ht, Or.inl rfl⟩
      · rw [hrun'] at hrun
        cases hrun
        exact ⟨t', ht', Or.inr ho'⟩
  have hfold : tableClear turns s = T.inorder.foldlM (fun s x => tablePut turns x s) s :=
    rbForeachSafe_eq hbody hT hn hlen
  obtain ⟨s', T', hrun, hT', ho', hfr', hh'⟩ := putAll_eq hT (List.nil_append _).symm hlive hn
  refine ⟨s', T', hfold.trans hrun, ?_, ho', hfr', hh'⟩
  refine hT'.congr rfl (fun _ _ => rfl) (fun x hx => ?_)
  rw [ho', List.nil_append, List.mem_filter] at hx
  obtain ⟨n, hxn⟩ := Option.ne_none_iff_exists'.mp (hlive x hx.1)
  have h1 : n.thRefcount = 1 := by simpa [lastRef, hxn] using hx.2
  have hx' : s'.heap x = some { n with thRefcount := 0 } := by
    rw [hh' x, if_pos hx.1, hxn]
    simp [leftOver, h1]
  rw [thBlockAt_eq hx', thBlockAt_eq hxn]

/-- **`jbd2_revoke_table_clear` does not empty the table.** It puts every entry once, in the order
of the blocks: an entry that has one reference stays in the tree, without a reference, and every
other one is removed and freed. -/
theorem revokeTableClear_leaves {s : TreeTable ℤ} (hT : SearchTree (thBlockAt s.heap) s.rb T)
    (hlive : ∀ x ∈ T.inorder, s.heap x ≠ none)
    (hn : 2 * Nat.log 2 (T.inorder.length + 1) ≤ turns) (hlen : T.inorder.length ≤ turns) :
    ∃ s' T', jbd2RevokeTableClear turns s = .ok s' ∧ SearchTree (thBlockAt s'.heap) s'.rb T' ∧
      T'.inorder = T.inorder.filter (lastRef s.heap) ∧
      s'.freed = (T.inorder.filter fun x => !lastRef s.heap x).reverse ++ s.freed ∧
      ∀ x, s'.heap x = if x ∈ T.inorder then leftOver (s.heap x) else s.heap x :=
  tableClear_eq hT hlive hn hlen

end

/-! ### A table of three entries -/

/-- Entries for the blocks 20, 50 and 90, the second with two references. -/
def loadedHeap (a : ℕ) : Option (Node ℤ) :=
  if a = 2 then some ⟨20, 1, false, 4⟩
  else if a = 5 then some ⟨50, 2, false, 4⟩
  else if a = 9 then some ⟨90, 1, true, 6⟩
  else none

/-- The entries in the tree in memory. -/
def loadedTree : TreeTable ℤ := ⟨three, loadedHeap, 10, []⟩

/-- The entries in the map. -/
def loadedMap : Table ℤ := ⟨[⟨20, 2⟩, ⟨50, 5⟩, ⟨90, 9⟩].toAList, loadedHeap, 10, []⟩

theorem searchTree_loaded : SearchTree (thBlockAt loadedTree.heap) loadedTree.rb
    (.node .black (.node .red .nil 2 .nil) 5 (.node .red .nil 9 .nil)) :=
  searchTree_three (by decide) (by decide)

theorem loaded_lookup (b : ℤ) (a : ℕ) : loadedMap.tree.lookup b = some a ↔
    a ∈ [2, 5, 9] ∧ thBlockAt loadedTree.heap a = b := by
  have h2 : thBlockAt loadedTree.heap 2 = 20 := by decide
  have h5 : thBlockAt loadedTree.heap 5 = 50 := by decide
  have h9 : thBlockAt loadedTree.heap 9 = 90 := by decide
  have hlook : loadedMap.tree.lookup b =
      if b = 20 then some 2 else if b = 50 then some 5 else if b = 90 then some 9 else none := by
    split_ifs with h1 h1 h1
    · rw [h1]
      decide
    · rw [h1]
      decide
    · rw [h1]
      decide
    · rw [AList.lookup_eq_none]
      have hkeys : loadedMap.tree.keys = [20, 50, 90] := by decide
      rw [AList.mem_keys, hkeys]
      simp [*]
  rw [hlook]
  constructor
  · split_ifs with h1 h1 h1 <;> rintro ⟨⟩ <;> simp [*]
  · rintro ⟨ha, rfl⟩
    simp only [List.mem_cons, List.not_mem_nil, or_false] at ha
    rcases ha with rfl | rfl | rfl <;> simp [*]

theorem sim_loaded : Sim loadedTree loadedMap := by
  refine ⟨rfl, rfl, rfl, ⟨_, searchTree_loaded, rfl, loaded_lookup, fun a => ?_⟩, fun a ha => ?_⟩
  · simp only [loadedTree, loadedHeap, RTree.inorder]
    split_ifs <;> simp [*]
  · have ha : 10 ≤ a := ha
    simp only [loadedTree, loadedHeap]
    rw [if_neg (by omega), if_neg (by omega), if_neg (by omega)]

/-- A run that takes, gives back, and asks for what is not there. -/
theorem runTree_agree_loaded :
    Agree 3
      (runTree 5 [.find 50, .put 5, .get true ⟨none, none, none, .red⟩ 90, .put 2, .find 70]
        loadedTree)
      (runMap [.find 50, .put 5, .get true ⟨none, none, none, .red⟩ 90, .put 2, .find 70]
        loadedMap) :=
  runTree_agree sim_loaded (by decide)

/-- The entry of the block 50 is freed, the other two stay without a reference. -/
theorem revokeTableClear_leaves_loaded :
    ∃ s' T', jbd2RevokeTableClear 4 loadedTree = .ok s' ∧
      SearchTree (thBlockAt s'.heap) s'.rb T' ∧
      T'.inorder = [2, 5, 9].filter (lastRef loadedHeap) ∧
      s'.freed = ([2, 5, 9].filter fun x => !lastRef loadedHeap x).reverse ++ [] ∧
      ∀ x, s'.heap x = if x ∈ [2, 5, 9] then leftOver (loadedHeap x) else loadedHeap x :=
  revokeTableClear_leaves searchTree_loaded (by decide) (by decide) (by decide)

end Ext4Fsd.Journal.TableTree
