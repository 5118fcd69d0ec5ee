import Ext4Fsd.Journal.NodeTable

/-! # The life of a logged BCB

An LBCB should stay in its table as long as it is referenced, and be removed and freed by the put
that drops the last reference (`LivesWhileReferenced`). Gets keep it alive (`run_gets`). A put does
the opposite of what it should: one that leaves references removes the LBCB, the last one keeps it.
So the runs that go well are those without a put, and without a get that finds no memory
(`livesWhileReferenced_iff`). A count is an integer here; it is the driver's `LONG` in every run of
fewer than `2 ^ 31` references and operations (`runOps_long`). -/

namespace Ext4Fsd.Journal.LbcbLife

open Ext4Fsd.Journal.NodeTable

/-- An operation of a holder of the LBCB; `alloc` says whether a get finds memory. -/
inductive LbcbOp
  | get (alloc : Bool)
  | put
  deriving DecidableEq, Repr

/-- The references an operation adds. -/
def LbcbOp.refs : LbcbOp → ℤ
  | .get true => 1
  | .get false => 0
  | .put => -1

/-- The references that are outstanding after some operations, of `n` at the start. -/
def outstanding (n : ℤ) (ops : List LbcbOp) : ℤ := n + (ops.map LbcbOp.refs).sum

/-- The results of the gets so far, and the table. -/
abbrev RunState := List (Option ℕ) × Table Unit

/-- One operation on the LBCB at `a` for the block `b`. -/
def runOp (b : ℤ) (a : ℕ) (s : RunState) : LbcbOp → Option RunState
  | .get alloc => (jbc2LbcbGet alloc b s.2).map fun r => (s.1 ++ [r.1], r.2)
  | .put => (jbd2LbcbPut a s.2).map fun t => (s.1, t)

/-- A run of operations. -/
def runOps (b : ℤ) (a : ℕ) (ops : List LbcbOp) (t : Table Unit) : Option RunState :=
  ops.foldlM (runOp b a) ([], t)

/-- The table has the LBCB at `a` for the block `b`, with `n` references. -/
structure Holds (b : ℤ) (a : ℕ) (n : ℤ) (t : Table Unit) : Prop where
  inTree : t.tree.lookup b = some a
  live : ∃ node, t.heap a = some node ∧ node.thBlock = b ∧ node.thRefcount = n
  lt : a < t.next
  notFreed : a ∉ t.freed

/-- What is due after some operations with the outcome `r`, when `m` references are outstanding. -/
structure Due (b : ℤ) (a : ℕ) (m : ℤ) (r : RunState) : Prop where
  gets : ∀ p ∈ r.1, p = some a
  alive : 1 ≤ m → r.2.tree.lookup b = some a ∧ (r.2.heap a).isSome ∧ a ∉ r.2.freed
  released : m = 0 → r.2.tree.lookup b = none ∧ r.2.heap a = none ∧ r.2.freed.count a = 1

/-- **The LBCB lives exactly as long as it is referenced**: after every beginning of the run on
which it has not been released before. -/
def LivesWhileReferenced (b : ℤ) (a : ℕ) (n : ℤ) (t : Table Unit) (ops : List LbcbOp) : Prop :=
  ∀ done, done <+: ops → (∀ before, before <+: done → before ≠ done → 1 ≤ outstanding n before) →
    ∃ r, runOps b a done t = some r ∧ Due b a (outstanding n done) r

section
variable {b : ℤ} {a : ℕ} {n : ℤ} {t : Table Unit}

theorem outstanding_append (ops ops' : List LbcbOp) :
    outstanding n (ops ++ ops') = outstanding (outstanding n ops) ops' := by
  unfold outstanding
  rw [List.map_append, List.sum_append, add_assoc]

theorem outstanding_gets (ops : List LbcbOp) (hops : ∀ op ∈ ops, op = .get true) :
    outstanding n ops = n + ops.length := by
  unfold outstanding
  rw [List.map_congr_left (g := fun _ => (1 : ℤ)) fun op hop => by rw [hops op hop]; rfl]
  simp

/-- A get keeps the LBCB, with one more reference. -/
theorem Holds.get (ht : Holds b a n t) :
    ∃ t', jbc2LbcbGet true b t = some (some a, t') ∧ Holds b a (n + 1) t' := by
  obtain ⟨node, ha, hblock, hcount⟩ := ht.live
  have hne : a ≠ t.next := ht.lt.ne
  refine ⟨gotten a node t, nodeGet_present ht.inTree ha hne, ht.inTree, ?_, ?_, ?_⟩
  · exact ⟨_, Function.update_self _ _ _, hblock, by rw [← hcount]⟩
  · exact Nat.lt_succ_of_lt ht.lt
  · exact fun hc => (List.mem_cons.mp hc).elim hne ht.notFreed

theorem runOps_concat (ops : List LbcbOp) (op : LbcbOp) :
    runOps b a (ops ++ [op]) t = (runOps b a ops t).bind fun s => runOp b a s op := by
  unfold runOps
  rw [List.foldlM_append]
  refine congrArg _ (funext fun s => ?_)
  rw [List.foldlM_cons]
  cases runOp b a s op <;> rfl

/-- So do any number of gets. -/
theorem run_gets {ops : List LbcbOp} (ht : Holds b a n t) (hops : ∀ op ∈ ops, op = .get true) :
    ∃ r, runOps b a ops t = some r ∧ (∀ p ∈ r.1, p = some a) ∧ Holds b a (n + ops.length) r.2 := by
  induction ops using List.reverseRecOn with
  | nil => exact ⟨([], t), rfl, nofun, by simpa using ht⟩
  | append_singleton ops op ih =>
    obtain ⟨r, hrun, hps, hr⟩ := ih fun op hop => hops op (List.mem_append_left _ hop)
    obtain ⟨t', hget, ht'⟩ := hr.get
    have hop := hops op (List.mem_append_right _ (List.mem_singleton_self _))
    refine ⟨(r.1 ++ [some a], t'), ?_, ?_, ?_⟩
    · rw [runOps_concat, hrun, Option.bind_some, hop, runOp, hget]
      rfl
    · intro p hp
      rcases List.mem_append.mp hp with hp | hp
      · exact hps p hp
      · exact List.mem_singleton.mp hp
    · have hlen : n + ((ops ++ [op]).length : ℤ) = n + ops.length + 1 := by
        rw [List.length_append, List.length_singleton]
        push_cast
        ring
      rw [hlen]
      exact ht'

/-- The first operation that is no get with memory goes wrong. -/
theorem not_due_of_other {op : LbcbOp} {m : ℤ} {r s : RunState} (hm : 1 ≤ m)
    (hr : Holds b a m r.2) (hop : op ≠ .get true) (hrun : runOp b a r op = some s) :
    ¬ Due b a (m + op.refs) s := by
  intro hdue
  obtain ⟨node, ha, hblock, hcount⟩ := hr.live
  cases op with
  | get alloc =>
    cases alloc with
    | true => exact hop rfl
    | false =>
      have hs : s = (r.1 ++ [none], r.2) := (Option.some.inj hrun).symm
      have hnull := hdue.gets none (by rw [hs]; simp)
      cases hnull
  | put =>
    unfold runOp jbd2LbcbPut at hrun
    have hrefs : m + LbcbOp.put.refs = m - 1 := rfl
    rw [hrefs] at hdue
    by_cases h0 : node.thRefcount - 1 = 0
    · rw [nodePut_zero ha h0] at hrun
      have hs := Option.some.inj hrun
      have hgone := (hdue.released (by omega)).1
      rw [← hs] at hgone
      exact absurd (hr.inTree.symm.trans hgone) (by simp)
    · rw [nodePut_other ha h0] at hrun
      have hs := Option.some.inj hrun
      have hstay := (hdue.alive (by omega)).1
      rw [← hs] at hstay
      have hgone : (removed a node r.2).tree = r.2.tree.erase b := congrArg r.2.tree.erase hblock
      dsimp only at hstay
      rw [hgone, AList.lookup_erase] at hstay
      cases hstay

/-- The counts stay within the operations of the run, so that fewer than `2 ^ 31` references and
operations leave every count a `LONG`. -/
theorem runOps_counts {m : ℤ} {ops : List LbcbOp} {r : RunState} (ht : CountsWithin m t)
    (hm : 0 ≤ m)
    (hrun : runOps b a ops t = some r) : CountsWithin (m + ops.length) r.2 := by
  induction ops using List.reverseRecOn generalizing r with
  | nil =>
    obtain rfl : ([], t) = r := Option.some.inj hrun
    simpa using ht
  | append_singleton ops op ih =>
    rw [runOps_concat, Option.bind_eq_some_iff] at hrun
    obtain ⟨s, hs, hop⟩ := hrun
    have hlen : m + ((ops ++ [op]).length : ℤ) = m + ops.length + 1 := by
      rw [List.length_append, List.length_singleton]
      push_cast
      ring
    rw [hlen]
    cases op with
    | get alloc =>
      obtain ⟨⟨ret, t'⟩, hget, rfl⟩ := Option.map_eq_some_iff.mp hop
      exact (ih hs).of_get (by omega) hget
    | put =>
      obtain ⟨t', hput, rfl⟩ := Option.map_eq_some_iff.mp hop
      exact (ih hs).of_put hput

/-- **The model's counts are those of the driver** in every run of fewer than `2 ^ 31` references
and operations. -/
theorem runOps_long {m : ℤ} {ops : List LbcbOp} {r : RunState} (ht : CountsWithin m t) (hm : 0 ≤ m)
    (hrun : runOps b a ops t = some r) (hlt : m + ops.length < 2 ^ 31) {c : ℕ} {node : Node Unit}
    (hc : r.2.heap c = some node) : (BitVec.ofInt 32 node.thRefcount).toInt = node.thRefcount :=
  (runOps_counts ht hm hrun).toInt_eq hlt hc

/-- **When the LBCB lives exactly as long as it is referenced**: there is no put, and every get
finds memory. -/
theorem livesWhileReferenced_iff (hn : 1 ≤ n) (ht : Holds b a n t) (ops : List LbcbOp) :
    LivesWhileReferenced b a n t ops ↔ ∀ op ∈ ops, op = .get true := by
  constructor
  · intro hlives
    induction ops using List.reverseRecOn with
    | nil => nofun
    | append_singleton ops op ih =>
      have hpre : ∀ done, done <+: ops → done <+: ops ++ [op] := fun done hd =>
        hd.trans (List.prefix_append _ _)
      have hops := ih fun done hd hb => hlives done (hpre done hd) hb
      have hget : op = .get true := by
        by_contra hop
        obtain ⟨r, hrun, -, hr⟩ := run_gets ht hops
        have hpos : ∀ before, before <+: ops ++ [op] → before ≠ ops ++ [op] →
            1 ≤ outstanding n before := by
          intro before hb hne
          have hbo : before <+: ops := by
            rcases List.prefix_concat_iff.mp hb with hb | hb
            · exact absurd hb hne
            · exact hb
          rw [outstanding_gets before fun op hop => hops op (hbo.subset hop)]
          omega
        obtain ⟨s, hs, hdue⟩ := hlives _ List.prefix_rfl hpos
        rw [runOps_concat, hrun, Option.bind_some] at hs
        have hout : outstanding n (ops ++ [op]) = n + ops.length + op.refs := by
          rw [outstanding_append, outstanding_gets ops hops]
          simp [outstanding]
        rw [hout] at hdue
        exact not_due_of_other (by omega) hr hop hs hdue
      intro o ho
      rcases List.mem_append.mp ho with ho | ho
      · exact hops o ho
      · rw [List.mem_singleton.mp ho, hget]
  · intro hops done hd _
    have hdone : ∀ op ∈ done, op = .get true := fun op hop => hops op (hd.subset hop)
    obtain ⟨r, hrun, hps, hr⟩ := run_gets ht hdone
    obtain ⟨node, ha, -, -⟩ := hr.live
    refine ⟨r, hrun, hps, fun _ => ⟨hr.inTree, by rw [ha]; rfl, hr.notFreed⟩, fun h0 => ?_⟩
    rw [outstanding_gets done hdone] at h0
    omega

end

/-! ### Tables with one LBCB -/

/-- The LBCB for block 3, with `n` references. -/
def oneLbcb (n : ℤ) : Table Unit where
  tree := (∅ : AList fun _ : ℤ => ℕ).insert 3 0
  heap := fun a => if a = 0 then some ⟨3, n, false, ()⟩ else none
  next := 1
  freed := []

theorem holds_oneLbcb (n : ℤ) : Holds 3 0 n (oneLbcb n) :=
  ⟨AList.lookup_insert _, ⟨⟨3, n, false, ()⟩, rfl, rfl, rfl⟩, Nat.zero_lt_one, List.not_mem_nil⟩

/-- Two gets. -/
theorem livesWhileReferenced_gets :
    LivesWhileReferenced 3 0 1 (oneLbcb 1) [.get true, .get true] :=
  (livesWhileReferenced_iff le_rfl (holds_oneLbcb 1) _).mpr (by decide)

/-- A put that leaves a reference frees the LBCB. -/
theorem lbcb_freed_early : ¬ ∀ (b : ℤ) (a : ℕ) (n : ℤ) (t : Table Unit) (ops : List LbcbOp), 1 ≤ n →
    Holds b a n t → (∀ done, done <+: ops → 0 ≤ outstanding n done) →
    (∀ op ∈ ops, op ≠ .get false) → LivesWhileReferenced b a n t ops := by
  intro hall
  have hbefore : ∀ before : List LbcbOp, before <+: [.put] → before = [] ∨ before = [.put] := by
    intro before hb
    rcases List.prefix_cons_iff.mp hb with rfl | ⟨rest, rfl, hrest⟩
    · exact .inl rfl
    · rw [List.prefix_nil.mp hrest]
      exact .inr rfl
  have hvalid : ∀ done : List LbcbOp, done <+: [.put] → 0 ≤ outstanding 2 done := by
    intro done hd
    rcases hbefore done hd with rfl | rfl <;> decide
  have hlives := hall 3 0 2 (oneLbcb 2) [.put] (by decide) (holds_oneLbcb 2) hvalid (by decide)
  obtain ⟨s, hrun, hdue⟩ := hlives [.put] List.prefix_rfl (by
    intro before hb hne
    rcases hbefore before hb with rfl | rfl
    · decide
    · exact absurd rfl hne)
  have hput : runOp 3 0 ([], oneLbcb 2) .put = some s := (runOps_concat [] .put).symm.trans hrun
  have hmany : (2 : ℤ) + LbcbOp.put.refs = outstanding 2 [.put] := rfl
  rw [← hmany] at hdue
  exact not_due_of_other (by decide) (holds_oneLbcb 2) (by decide) hput hdue

end Ext4Fsd.Journal.LbcbLife
