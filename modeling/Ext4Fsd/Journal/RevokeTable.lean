import Ext4Fsd.Journal.NodeTable

/-! # The revoke table as a map

The revoke table should be a finite map from blocks to tids (`ActsAsMap`): a get that adds or finds
an entry and sets its tid, a find that reads it, a clear that frees every entry once. As soon as a
block is to be added, `jbd2_revoke_entry_get` stores through the null pointer that `RB_INSERT`
returns, so that the table is never anything but empty (`actsAsMap_iff`).

The revoke table of `Recovery` is this one without the addresses (`find_refines`, `put_refines`,
`get_refines`). -/

namespace Ext4Fsd.Journal.RevokeTable

open Ext4Fsd.Journal.NodeTable

/-! ### The map -/

inductive RevokeOp
  /-- Get the entry of a block, set its tid, put it. -/
  | get (blocknr tid : ℤ)
  /-- Find the entry of a block, read its tid, put it. -/
  | find (blocknr : ℤ)
  | clear
  deriving DecidableEq, Repr

/-- What an operation is seen to come to. -/
inductive Outcome
  | got (blocknr : ℤ) (isNew : Bool)
  | found (tid : Option ℤ)
  | cleared
  deriving DecidableEq, Repr

/-- What is due of an operation on a map. -/
def RevokeOp.due : RevokeOp → (ℤ → Option ℤ) → Outcome × (ℤ → Option ℤ)
  | .get b tid, m => (.got b (m b).isNone, Function.update m b (some tid))
  | .find b, m => (.found (m b), m)
  | .clear, _ => (.cleared, fun _ => none)

/-- What is due of a run. -/
def dueRun (ops : List RevokeOp) : List Outcome × (ℤ → Option ℤ) :=
  ops.foldl (fun s op => (s.1 ++ [(op.due s.2).1], (op.due s.2).2)) ([], fun _ => none)

/-! ### The code -/

/-- One operation; `none` is a fault. -/
def RevokeOp.run : RevokeOp → Table ℤ → Option (Outcome × Table ℤ)
  | .get b tid, t => do
    let (ret, t) ← jbd2RevokeEntryGet true b t
    let a ← ret
    let n ← t.heap a
    let t ← store a (fun n => { n with data := tid }) t
    let t ← jbd2RevokeEntryPut a t
    pure (.got n.thBlock n.isNew, t)
  | .find b, t => do
    let (ret, t) ← jbd2RevokeEntryFind b t
    match ret with
    | none => pure (.found none, t)
    | some a => do
      let n ← t.heap a
      let t ← jbd2RevokeEntryPut a t
      pure (.found (some n.data), t)
  | .clear, t => do
    let t ← jbd2RevokeTableClear t
    pure (.cleared, t)

/-- A run from an empty table. -/
def runOps (ops : List RevokeOp) : Option (List Outcome × Table ℤ) :=
  ops.foldlM (fun s op => (op.run s.2).map fun r => (s.1 ++ [r.1], r.2)) ([], Table.empty)

/-- The table holds the map `m`: a live node with its tid for each of its blocks, and every other
node that was ever allocated has been freed once. -/
structure HoldsMap (m : ℤ → Option ℤ) (t : Table ℤ) : Prop where
  entries : ∀ b, ((t.tree.lookup b).bind t.heap).map (fun n => (n.thBlock, n.data)) =
    (m b).map fun tid => (b, tid)
  freed : t.freed.Nodup ∧ ∀ a, a ∈ t.freed ↔ a < t.next ∧ t.heap a = none
  reachable : ∀ a, (t.heap a).isSome → ∃ b, t.tree.lookup b = some a

/-- **The table acts as a map** in all of a run. -/
def ActsAsMap (ops : List RevokeOp) : Prop :=
  ∀ done, done <+: ops → ∃ t, runOps done = some ((dueRun done).1, t) ∧ HoldsMap (dueRun done).2 t

section
variable {ops : List RevokeOp}

theorem runOps_concat (op : RevokeOp) : runOps (ops ++ [op]) =
    (runOps ops).bind fun s => (op.run s.2).map fun r => (s.1 ++ [r.1], r.2) := by
  unfold runOps
  rw [List.foldlM_append]
  refine congrArg _ (funext fun s => ?_)
  rw [List.foldlM_cons]
  cases op.run s.2 <;> rfl

theorem dueRun_concat (op : RevokeOp) : dueRun (ops ++ [op]) =
    ((dueRun ops).1 ++ [(op.due (dueRun ops).2).1], (op.due (dueRun ops).2).2) := by
  unfold dueRun
  rw [List.foldl_append]
  rfl

theorem holdsMap_empty : HoldsMap (fun _ => none) Table.empty :=
  ⟨fun _ => rfl, ⟨List.nodup_nil, fun a => by simp [Table.empty]⟩, nofun⟩

/-- Without a get the table stays empty. -/
theorem run_noGet (hops : ∀ b tid, RevokeOp.get b tid ∉ ops) :
    runOps ops = some ((dueRun ops).1, Table.empty) ∧ (dueRun ops).2 = fun _ => none := by
  induction ops using List.reverseRecOn with
  | nil => exact ⟨rfl, rfl⟩
  | append_singleton ops op ih =>
    obtain ⟨hrun, hmap⟩ := ih fun b tid hm => hops b tid (List.mem_append_left _ hm)
    rw [runOps_concat, dueRun_concat, hrun, Option.bind_some, hmap]
    cases op with
    | get b tid => exact absurd (List.mem_append_right _ (List.mem_singleton_self _)) (hops b tid)
    | find b => exact ⟨rfl, rfl⟩
    | clear => exact ⟨rfl, rfl⟩

/-- The first get faults. -/
theorem run_firstGet (hops : ∀ b tid, RevokeOp.get b tid ∉ ops) (b tid : ℤ) :
    runOps (ops ++ [.get b tid]) = none := by
  have hget : jbd2RevokeEntryGet true b Table.empty = none := nodeGet_absent (AList.lookup_empty b)
  rw [runOps_concat, (run_noGet hops).1, Option.bind_some, RevokeOp.run, hget]
  rfl

/-- **When the table acts as a map**: nothing is ever added to it. -/
theorem actsAsMap_iff (ops : List RevokeOp) :
    ActsAsMap ops ↔ ∀ b tid, RevokeOp.get b tid ∉ ops := by
  constructor
  · intro hacts
    induction ops using List.reverseRecOn with
    | nil => exact fun _ _ => List.not_mem_nil
    | append_singleton ops op ih =>
      have hops := ih fun done hd => hacts done (hd.trans (List.prefix_append _ _))
      intro b tid hm
      rcases List.mem_append.mp hm with hm | hm
      · exact hops b tid hm
      · obtain ⟨t, hrun, -⟩ := hacts _ List.prefix_rfl
        rw [← List.mem_singleton.mp hm, run_firstGet hops] at hrun
        cases hrun
  · intro hops done hd
    obtain ⟨hrun, hmap⟩ := run_noGet fun b tid hm => hops b tid (hd.subset hm)
    refine ⟨Table.empty, hrun, ?_⟩
    rw [hmap]
    exact holdsMap_empty

/-- The first entry is not added. -/
theorem firstEntry_faults : ¬ ∀ ops, ActsAsMap ops := by
  intro hall
  obtain ⟨t, hrun, -⟩ := hall [.get 5 1] _ List.prefix_rfl
  rw [← List.nil_append [RevokeOp.get 5 1], run_firstGet (fun _ _ => List.not_mem_nil)] at hrun
  cases hrun

end

/-! ### The table of the recovery -/

section
variable {t : Table ℤ} {a : ℕ} {b : ℤ} {n n' : Node ℤ}

/-- A node without its address. -/
def plain (n : Node ℤ) : Recovery.Jbd2RevokeEntry := ⟨n.thRefcount, n.isNew, n.data⟩

/-- The entry of a block. -/
def entryAt (t : Table ℤ) (b : ℤ) : Option Recovery.Jbd2RevokeEntry :=
  ((t.tree.lookup b).bind t.heap).map plain

/-- Every key leads to a live node of its own. -/
structure Intact (t : Table ℤ) : Prop where
  live : ∀ b a, t.tree.lookup b = some a → ∃ n, t.heap a = some n ∧ n.thBlock = b
  lt : ∀ b a, t.tree.lookup b = some a → a < t.next

theorem entryAt_of_live (hb : t.tree.lookup b = some a) (ha : t.heap a = some n) :
    entryAt t b = some (plain n) := by
  unfold entryAt
  rw [hb, Option.bind_some, ha]
  rfl

/-- Two blocks have different nodes. -/
theorem Intact.ne (ht : Intact t) (hb : t.tree.lookup b = some a) {b' : ℤ} (hbb : b' ≠ b) :
    t.tree.lookup b' ≠ some a := by
  intro hb'
  obtain ⟨n, ha, hn⟩ := ht.live b a hb
  obtain ⟨n', ha', hn'⟩ := ht.live b' a hb'
  rw [ha] at ha'
  cases ha'
  exact hbb (hn'.symm.trans hn)

/-- A table whose memory differs in the node of `b` and in what is no node. -/
theorem Intact.change (ht : Intact t) {t' : Table ℤ} (hb : t.tree.lookup b = some a)
    (htree : t'.tree = t.tree) (hnext : t.next ≤ t'.next) (ha : t'.heap a = some n)
    (hn : n.thBlock = b) (hheap : ∀ x, x ≠ a → x < t.next → t'.heap x = t.heap x) :
    Intact t' ∧ entryAt t' = Function.update (entryAt t) b (some (plain n)) := by
  constructor
  · constructor
    · intro b' a' hb'
      rw [htree] at hb'
      by_cases haa : a' = a
      · by_cases hbb : b' = b
        · exact ⟨n, by rw [haa, ha], by rw [hn, hbb]⟩
        · exact absurd (haa ▸ hb') (ht.ne hb hbb)
      · rw [hheap a' haa (ht.lt b' a' hb')]
        exact ht.live b' a' hb'
    · intro b' a' hb'
      rw [htree] at hb'
      exact (ht.lt b' a' hb').trans_le hnext
  · funext b'
    by_cases hbb : b' = b
    · rw [hbb, Function.update_self]
      exact entryAt_of_live (by rw [htree]; exact hb) ha
    · rw [Function.update_of_ne hbb]
      unfold entryAt
      rw [htree]
      cases hl : t.tree.lookup b' with
      | none => rfl
      | some x =>
        have hxa : x ≠ a := fun hxa => ht.ne hb hbb (by rw [hl, hxa])
        rw [Option.bind_some, Option.bind_some, hheap x hxa (ht.lt b' x hl)]

/-- The table without the node of `b`. -/
theorem Intact.remove (ht : Intact t) (hb : t.tree.lookup b = some a) {t' : Table ℤ}
    (htree : t'.tree = t.tree.erase b) (hnext : t'.next = t.next)
    (hheap : ∀ x, x ≠ a → t'.heap x = t.heap x) :
    Intact t' ∧ entryAt t' = Function.update (entryAt t) b none := by
  have hlook : ∀ b' a', t'.tree.lookup b' = some a' → b' ≠ b ∧ t.tree.lookup b' = some a' := by
    intro b' a' hb'
    rw [htree] at hb'
    by_cases hbb : b' = b
    · rw [hbb, AList.lookup_erase] at hb'
      cases hb'
    · rw [AList.lookup_erase_ne hbb] at hb'
      exact ⟨hbb, hb'⟩
  constructor
  · constructor
    · intro b' a' hb'
      obtain ⟨hbb, hl⟩ := hlook b' a' hb'
      rw [hheap a' fun haa => ht.ne hb hbb (haa ▸ hl)]
      exact ht.live b' a' hl
    · intro b' a' hb'
      rw [hnext]
      exact ht.lt b' a' (hlook b' a' hb').2
  · funext b'
    by_cases hbb : b' = b
    · unfold entryAt
      rw [hbb, Function.update_self, htree, AList.lookup_erase]
      rfl
    · rw [Function.update_of_ne hbb]
      unfold entryAt
      rw [htree, AList.lookup_erase_ne hbb]
      cases hl : t.tree.lookup b' with
      | none => rfl
      | some x =>
        have hxa : x ≠ a := fun hxa => ht.ne hb hbb (by rw [hl, hxa])
        rw [Option.bind_some, Option.bind_some, hheap x hxa]

theorem Intact.setNode (ht : Intact t) (hb : t.tree.lookup b = some a) (hn : n.thBlock = b) :
    Intact (setNode a n t) ∧
      entryAt (setNode a n t) = Function.update (entryAt t) b (some (plain n)) :=
  ht.change hb rfl le_rfl (Function.update_self _ _ _) hn fun _ hx _ => Function.update_of_ne hx _ _

theorem Intact.removed (ht : Intact t) (hb : t.tree.lookup b = some a) (hn : n.thBlock = b) :
    Intact (removed a n t) ∧ entryAt (removed a n t) = Function.update (entryAt t) b none :=
  ht.remove hb (congrArg (fun b => t.tree.erase b) hn) rfl fun _ hx => Function.update_of_ne hx _ _

variable {w : Recovery.World}

/-- **A find** changes the table as that of `Recovery` does, and finds the same entry. -/
theorem find_refines (ht : Intact t) (hw : w.revokeTable = entryAt t) :
    ∃ ret t', jbd2RevokeEntryFind b t = some (ret, t') ∧ Intact t' ∧
      (Recovery.jbd2RevokeEntryFind w b).2.revokeTable = entryAt t' ∧
      (Recovery.jbd2RevokeEntryFind w b).1 = ret.bind fun a => (t'.heap a).map plain := by
  cases hb : t.tree.lookup b with
  | none =>
    have hnone : w.revokeTable b = none := by
      rw [hw]
      unfold entryAt
      rw [hb]
      rfl
    refine ⟨none, t, nodeFind_absent hb, ht, ?_, ?_⟩
    · unfold Recovery.jbd2RevokeEntryFind
      rw [hnone]
      exact hw
    · unfold Recovery.jbd2RevokeEntryFind
      rw [hnone]
      rfl
  | some a =>
    obtain ⟨n, ha, hn⟩ := ht.live b a hb
    have hsome : w.revokeTable b = some (plain n) := by rw [hw, entryAt_of_live hb ha]
    obtain ⟨hi, he⟩ := ht.setNode hb (n := incRef n) hn
    refine ⟨some a, _, nodeFind_present hb ha, hi, ?_, ?_⟩
    · unfold Recovery.jbd2RevokeEntryFind
      rw [hsome, he, ← hw]
      rfl
    · unfold Recovery.jbd2RevokeEntryFind
      rw [hsome, Option.bind_some]
      unfold NodeTable.setNode
      dsimp only
      rw [Function.update_self]
      rfl

/-- **A put** on the node of a block does too. -/
theorem put_refines (ht : Intact t) (hw : w.revokeTable = entryAt t)
    (hb : t.tree.lookup b = some a) :
    ∃ t', jbd2RevokeEntryPut a t = some t' ∧ Intact t' ∧
      (Recovery.jbd2RevokeEntryPut w b).revokeTable = entryAt t' := by
  obtain ⟨n, ha, hn⟩ := ht.live b a hb
  have hsome : w.revokeTable b = some (plain n) := by rw [hw, entryAt_of_live hb ha]
  have hcount : (plain n).thRefcount = n.thRefcount := rfl
  unfold Recovery.jbd2RevokeEntryPut
  rw [hsome]
  dsimp only
  rw [hcount]
  by_cases h0 : n.thRefcount - 1 = 0
  · obtain ⟨hi, he⟩ := ht.setNode hb (n := { n with thRefcount := n.thRefcount - 1 }) hn
    refine ⟨_, nodePut_zero ha h0, hi, ?_⟩
    rw [if_pos h0, he, ← hw]
    rfl
  · obtain ⟨hi, he⟩ := ht.removed hb hn
    refine ⟨_, nodePut_other ha h0, hi, ?_⟩
    rw [if_neg h0, he, ← hw]
    rfl

/-- **A get** of a block in the table does too. -/
theorem get_refines (ht : Intact t) (hw : w.revokeTable = entryAt t)
    (hb : t.tree.lookup b = some a) {env : Recovery.Env} (ha : env.oracle.alloc w.allocs = true) :
    ∃ t' e, jbd2RevokeEntryGet true b t = some (some a, t') ∧ Intact t' ∧
      (Recovery.jbd2RevokeEntryGet env w b).1 = .entry e ∧
      (Recovery.jbd2RevokeEntryGet env w b).2.revokeTable = entryAt t' ∧
      entryAt t' b = some e := by
  obtain ⟨n, hn, hblock⟩ := ht.live b a hb
  have hsome : w.revokeTable b = some (plain n) := by rw [hw, entryAt_of_live hb hn]
  have hlt := ht.lt b a hb
  have hself : (gotten a n t).heap a =
      some { n with isNew := false, thRefcount := n.thRefcount + 1 } := Function.update_self _ _ _
  obtain ⟨hi, he⟩ := @Intact.change t a b _ ht (gotten a n t) hb rfl (Nat.le_succ _) hself hblock
    fun x hx hlt => (Function.update_of_ne hx _ _).trans (Function.update_of_ne hlt.ne _ _)
  refine ⟨_, _, nodeGet_present hb hn hlt.ne, hi, ?_, ?_, entryAt_of_live hb hself⟩
  · unfold Recovery.jbd2RevokeEntryGet
    simp only [ha, hsome, Bool.not_true, Bool.false_eq_true, if_false]
    rfl
  · unfold Recovery.jbd2RevokeEntryGet
    simp only [ha, hsome, Bool.not_true, Bool.false_eq_true, if_false]
    rw [he, ← hw]
    rfl

/-- A get of any other block is a fault here and there. -/
theorem get_refines_fault (hw : w.revokeTable = entryAt t) (hb : t.tree.lookup b = none)
    {env : Recovery.Env} (ha : env.oracle.alloc w.allocs = true) :
    jbd2RevokeEntryGet true b t = none ∧ (Recovery.jbd2RevokeEntryGet env w b).1 = .fault := by
  have hnone : w.revokeTable b = none := by
    rw [hw]
    unfold entryAt
    rw [hb]
    rfl
  refine ⟨nodeGet_absent hb, ?_⟩
  unfold Recovery.jbd2RevokeEntryGet
  simp only [ha, hnone, Bool.not_true, Bool.false_eq_true, if_false]

end

end Ext4Fsd.Journal.RevokeTable
