import Ext4Fsd.Lib.Interleaving
import Mathlib.Algebra.Order.BigOperators.Group.Finset
import Mathlib.Data.BitVec
import Mathlib.Tactic.Ring

/-! # The atomic counters

The functions of `drv_atomic.h` on a counter that threads share. An Interlocked function is one
access to the counter, and so is a read of it; every function of the header is one access, but
`drv_atomic_sub_and_test`, which reads the counter and exchanges it in a loop. A run is any
interleaving of such accesses (`step`). The counter and an `int` have 32 bits and wrap around. -/

namespace Ext4Fsd.Common.DrvAtomic

open Ext4Fsd.Lib.Interleaving

/-! ### One access -/

/-- `LONG`, and `int`. -/
abbrev Long := BitVec 32

/-- The Interlocked functions: what each returns, and the counter after it. -/
def interlockedExchange (value counter : Long) : Long × Long := (counter, value)

def interlockedExchangeAdd (value counter : Long) : Long × Long := (counter, counter + value)

def interlockedIncrement (counter : Long) : Long × Long := (counter + 1, counter + 1)

def interlockedDecrement (counter : Long) : Long × Long := (counter - 1, counter - 1)

def interlockedCompareExchange (exchange comperand counter : Long) : Long × Long :=
  (counter, if counter = comperand then exchange else counter)

/-- The value of a condition. -/
def truth (p : Prop) [Decidable p] : Long := if p then 1 else 0

/-! ### The functions of the header

What a function returns, `none` for a function without a result, and the counter after it. -/

def drvAtomicRead (counter : Long) : Option Long × Long := (some counter, counter)

def drvAtomicSet (i counter : Long) : Option Long × Long :=
  let (old, counter) := interlockedExchange i counter
  (some old, counter)

def drvAtomicAdd (i counter : Long) : Option Long × Long :=
  (none, (interlockedExchangeAdd i counter).2)

def drvAtomicSub (i counter : Long) : Option Long × Long :=
  (none, (interlockedExchangeAdd (-1 * i) counter).2)

def drvAtomicInc (counter : Long) : Option Long × Long := (none, (interlockedIncrement counter).2)

def drvAtomicDec (counter : Long) : Option Long × Long := (none, (interlockedDecrement counter).2)

def drvAtomicDecAndTest (counter : Long) : Option Long × Long :=
  let (result, counter) := interlockedDecrement counter
  (some (truth (0 = result)), counter)

def drvAtomicIncAndTest (counter : Long) : Option Long × Long :=
  let (result, counter) := interlockedIncrement counter
  (some (truth (0 = result)), counter)

/-- Not zero where the comment of the header says negative. -/
def drvAtomicAddNegative (i counter : Long) : Option Long × Long :=
  let (old, counter) := interlockedExchangeAdd i counter
  (some (old + i), counter)

/-- What an access leads to: the function goes on with its local `counter`, or it returns. -/
inductive Access
  | again (counter : Option Long)
  | ret (r : Option Long)

/-- One access of `drv_atomic_sub_and_test`: at the head of the loop its local `counter` is not
set. -/
def drvAtomicSubAndTest (i : Long) : Option Long → Long → Access × Long
  | none, v => (.again (some v), v)
  | some counter, v =>
    let result := counter - i
    let (old, v) := interlockedCompareExchange result counter v
    if old ≠ counter then (.again none, v) else (.ret (some (truth (result = 0))), v)

/-! ### Calls -/

inductive Call
  | read
  | set (i : Long)
  | add (i : Long)
  | sub (i : Long)
  | inc
  | dec
  | subAndTest (i : Long)
  | decAndTest
  | incAndTest
  | addNegative (i : Long)
  deriving DecidableEq

/-- What the call does when it is done at once. -/
def Call.atomic : Call → Long → Option Long × Long
  | .read => drvAtomicRead
  | .set i => drvAtomicSet i
  | .add i => drvAtomicAdd i
  | .sub i => drvAtomicSub i
  | .inc => drvAtomicInc
  | .dec => drvAtomicDec
  | .subAndTest i => fun counter => (some (truth (counter - i = 0)), counter - i)
  | .decAndTest => drvAtomicDecAndTest
  | .incAndTest => drvAtomicIncAndTest
  | .addNegative i => drvAtomicAddNegative i

/-- One access of the call. -/
def Call.access : Call → Option Long → Long → Access × Long
  | .subAndTest i, counter, v => drvAtomicSubAndTest i counter v
  | call, _, v => (.ret (call.atomic v).1, (call.atomic v).2)

/-! ### Threads -/

/-- A thread: the call it is in and the ones after it, and the local `counter` of
`drv_atomic_sub_and_test` once the loop has read it. -/
structure Thread where
  calls : List Call
  counter : Option Long

/-- The counter and the threads, with the calls that have returned and their results. -/
structure Machine (T : Type) where
  counter : Long
  thread : T → Thread
  hist : List (T × Call × Option Long)

variable {T : Type}

/-- The threads before their first access. -/
def start (counter : Long) (calls : T → List Call) : Machine T :=
  ⟨counter, fun t => ⟨calls t, none⟩, []⟩

/-- The next access of a thread, if it has one. -/
def step [DecidableEq T] (t : T) (m : Machine T) : Option (Machine T) :=
  match (m.thread t).calls with
  | [] => none
  | call :: calls =>
    match call.access (m.thread t).counter m.counter with
    | (.again counter, v) =>
      some { m with counter := v, thread := Function.update m.thread t ⟨call :: calls, counter⟩ }
    | (.ret r, v) =>
      some ⟨v, Function.update m.thread t ⟨calls, none⟩, m.hist ++ [(t, call, r)]⟩

section
variable [DecidableEq T] {m m' : Machine T} {t : T} {ts : List T} {c c' : Long}
  {progs : T → List Call} {call : Call} {l l' : List (T × Call × Option Long)}

/-! ### What a step can do -/

/-- A step of the loop that does not return: it reads the counter, or finds that it has changed. -/
inductive Turn (m : Machine T) (t : T) (i : Long) : Option Long → Prop
  | read (h : (m.thread t).counter = none) : Turn m t i (some m.counter)
  | missed (v : Long) (h : (m.thread t).counter = some v) (hne : v ≠ m.counter) : Turn m t i none

/-- The state after the call has returned. -/
def returned (m : Machine T) (t : T) (call : Call) (calls : List Call) : Machine T :=
  ⟨(call.atomic m.counter).2, Function.update m.thread t ⟨calls, none⟩,
    m.hist ++ [(t, call, (call.atomic m.counter).1)]⟩

/-- The state after a turn of the loop. -/
def turned (m : Machine T) (t : T) (calls : List Call) (counter : Option Long) : Machine T :=
  { m with thread := Function.update m.thread t ⟨calls, counter⟩ }

/-- **A step is a turn of the loop that leaves the counter alone, or a call that is done at once.**
A call returns with the counter as its loop has read it, or it has no loop. -/
theorem step_cases (h : step t m = some m') :
    ∃ call calls, (m.thread t).calls = call :: calls ∧
      ((∃ i counter, call = .subAndTest i ∧ Turn m t i counter ∧
          m' = turned m t (call :: calls) counter) ∨
        (∀ i, call = .subAndTest i → (m.thread t).counter = some m.counter) ∧
          m' = returned m t call calls) := by
  unfold step at h
  split at h
  · cases h
  rename_i call calls hcalls
  refine ⟨call, calls, hcalls, ?_⟩
  by_cases hloop : ∃ i, call = .subAndTest i
  · obtain ⟨i, rfl⟩ := hloop
    cases hc : (m.thread t).counter with
    | none =>
      simp only [Call.access, hc, drvAtomicSubAndTest, Option.some.injEq] at h
      exact Or.inl ⟨i, some m.counter, rfl, .read hc, h.symm⟩
    | some v =>
      simp only [Call.access, hc, drvAtomicSubAndTest, interlockedCompareExchange] at h
      by_cases hv : m.counter = v
      · subst hv
        simp only [ne_eq, not_true_eq_false, if_false, if_true, Option.some.injEq] at h
        exact Or.inr ⟨fun _ _ => rfl, h.symm⟩
      · simp only [ne_eq, hv, not_false_eq_true, if_true, if_false, Option.some.injEq] at h
        exact Or.inl ⟨i, none, rfl, .missed v hc fun heq => hv heq.symm, h.symm⟩
  · have haccess : call.access (m.thread t).counter m.counter =
        (.ret (call.atomic m.counter).1, (call.atomic m.counter).2) := by
      cases call with
      | subAndTest i => exact absurd ⟨i, rfl⟩ hloop
      | _ => rfl
    simp only [haccess, Option.some.injEq] at h
    exact Or.inr ⟨fun i hi => absurd ⟨i, hi⟩ hloop, h.symm⟩

/-- The calls of the thread `t` among those that have returned, in their order. -/
def callsOf (t : T) (l : List (T × Call × Option Long)) : List Call :=
  (l.filter fun e => e.1 = t).map fun e => e.2.1

theorem callsOf_concat (e : T × Call × Option Long) (t : T) :
    callsOf t (l ++ [e]) = callsOf t l ++ if e.1 = t then [e.2.1] else [] := by
  unfold callsOf
  by_cases h : e.1 = t
  · simp [h]
  · simp [h]

/-- The history is one of the calls done one at a time, from the counter `c` to `c'`. -/
def Sequential : Long → List (T × Call × Option Long) → Long → Prop
  | c, [], c' => c' = c
  | c, (_, call, r) :: l, c' => r = (call.atomic c).1 ∧ Sequential (call.atomic c).2 l c'

omit [DecidableEq T] in
theorem sequential_append : Sequential c (l ++ l') c' ↔ ∃ v, Sequential c l v ∧
    Sequential v l' c' := by
  induction l generalizing c with
  | nil => simp [Sequential]
  | cons e l ih =>
    obtain ⟨t, call, r⟩ := e
    simp only [List.cons_append, Sequential, ih]
    constructor
    · rintro ⟨h1, v, h2, h3⟩
      exact ⟨v, ⟨h1, h2⟩, h3⟩
    · rintro ⟨v, ⟨h1, h2⟩, h3⟩
      exact ⟨h1, v, h2, h3⟩

/-- What is known of a run from the counter `c`. -/
structure Follows (c : Long) (progs : T → List Call) (m : Machine T) : Prop where
  seq : Sequential c m.hist m.counter
  order : ∀ t, callsOf t m.hist ++ (m.thread t).calls = progs t

theorem follows_start (c : Long) (progs : T → List Call) : Follows c progs (start c progs) :=
  ⟨rfl, fun _ => rfl⟩

theorem follows_step (hm : Follows c progs m) (h : step t m = some m') : Follows c progs m' := by
  obtain ⟨call, calls, hcalls, ⟨i, counter, rfl, -, rfl⟩ | ⟨-, rfl⟩⟩ := step_cases h
  · refine ⟨hm.seq, fun u => ?_⟩
    have hu := hm.order u
    by_cases htu : u = t
    · subst htu
      rw [hcalls] at hu
      simpa [turned] using hu
    · simpa [turned, htu] using hu
  · refine ⟨sequential_append.mpr ⟨_, hm.seq, rfl, rfl⟩, fun u => ?_⟩
    have hu := hm.order u
    unfold returned
    rw [callsOf_concat]
    by_cases htu : u = t
    · subst htu
      rw [hcalls] at hu
      simpa using hu
    · have hut : t ≠ u := fun h => htu h.symm
      simpa [htu, hut] using hu

theorem follows_run (h : run step ts (start c progs) = some m) : Follows c progs m :=
  run_keeps (fun _ _ _ hm hs => follows_step hm hs) (follows_start c progs) h

/-- **The calls are atomic.** In every interleaving the calls that have returned are, in the order
of their returns, calls done one at a time: each has the result, and together they have left the
counter, that they have when nothing comes between the accesses of one. Every thread has made its
calls in its own order, none left out and none twice. -/
theorem calls_atomic (h : run step ts (start c progs) = some m) :
    Sequential c m.hist m.counter ∧ ∀ t, callsOf t m.hist ++ (m.thread t).calls = progs t :=
  ⟨(follows_run h).seq, (follows_run h).order⟩

end

/-! ### No update is lost -/

/-- What a call adds to the counter. -/
def Call.delta : Call → Long
  | .read => 0
  | .set _ => 0
  | .add i => i
  | .sub i => -i
  | .inc => 1
  | .dec => -1
  | .subAndTest i => -i
  | .decAndTest => -1
  | .incAndTest => 1
  | .addNegative i => i

section
variable [DecidableEq T] {m m' : Machine T} {t : T} {ts : List T} {c c' : Long}
  {progs : T → List Call} {call : Call} {l l' : List (T × Call × Option Long)}

theorem atomic_snd (h : ∀ i, call ≠ .set i) : (call.atomic c).2 = c + call.delta := by
  cases call with
  | set i => exact absurd rfl (h i)
  | read => simp [Call.atomic, Call.delta, drvAtomicRead]
  | sub i =>
    simp only [Call.atomic, Call.delta, drvAtomicSub, interlockedExchangeAdd]
    ring
  | dec =>
    simp only [Call.atomic, Call.delta, drvAtomicDec, interlockedDecrement]
    ring
  | subAndTest i =>
    simp only [Call.atomic, Call.delta]
    ring
  | decAndTest =>
    simp only [Call.atomic, Call.delta, drvAtomicDecAndTest, interlockedDecrement]
    ring
  | _ => rfl

omit [DecidableEq T] in
theorem sequential_delta (h : Sequential c l c') (hset : ∀ e ∈ l, ∀ i, e.2.1 ≠ .set i) :
    c' = c + (l.map fun e => e.2.1.delta).sum := by
  induction l generalizing c with
  | nil => simpa [Sequential] using h
  | cons e l ih =>
    obtain ⟨t, call, r⟩ := e
    obtain ⟨-, h⟩ := h
    have hcall : ∀ i, call ≠ .set i := hset (t, call, r) (by simp)
    rw [ih h fun e he => hset e (by simp [he]), atomic_snd hcall, List.map_cons, List.sum_cons,
      add_assoc]

theorem mem_callsOf {e : T × Call × Option Long} (he : e ∈ l) : e.2.1 ∈ callsOf e.1 l :=
  List.mem_map.mpr ⟨e, List.mem_filter.mpr ⟨he, by simp⟩, rfl⟩

/-- **No update is lost.** When all calls have returned, the counter has moved by the sum of what
the calls add, whatever the interleaving was; no call may be one of `drv_atomic_set`. -/
theorem no_lost_update [Fintype T] (hset : ∀ t, ∀ call ∈ progs t, ∀ i, call ≠ .set i)
    (h : run step ts (start c progs) = some m) (hdone : ∀ t, (m.thread t).calls = []) :
    m.counter = c + ∑ t, ((progs t).map Call.delta).sum := by
  obtain ⟨hseq, horder⟩ := follows_run h
  have horder' : ∀ t, callsOf t m.hist = progs t := fun t => by
    have := horder t
    rwa [hdone t, List.append_nil] at this
  rw [sequential_delta hseq fun e he => hset e.1 _ (by rw [← horder' e.1]; exact mem_callsOf he),
    sum_by_thread]
  refine congrArg (c + ·) (Finset.sum_congr rfl fun t _ => ?_)
  rw [← horder' t, callsOf, List.map_map]
  rfl

/-! ### The last reference -/

/-- The references of a thread after a call: `drv_atomic_inc` takes one, a put gives one back. -/
def Call.held : Call → ℕ → ℕ
  | .inc, n => n + 1
  | .subAndTest _, n => n - 1
  | .decAndTest, n => n - 1
  | _, n => n

/-- A get, a put of one reference, or a read. -/
def Call.Counts : Call → Prop
  | .read => True
  | .inc => True
  | .subAndTest i => i = 1
  | .decAndTest => True
  | _ => False

/-- A thread with `n` references: it comes to the counter only while it has one. -/
def Holder : ℕ → List Call → Prop
  | _, [] => True
  | n, call :: calls => 0 < n ∧ call.Counts ∧ Holder (call.held n) calls

/-- The references that a thread has left after its calls. -/
def heldAfter (n : ℕ) (calls : List Call) : ℕ := calls.foldl (fun n call => call.held n) n

/-- A put that was told that it gave back the last reference. -/
def IsLast (e : T × Call × Option Long) : Prop :=
  (e.2.1 = .subAndTest 1 ∨ e.2.1 = .decAndTest) ∧ e.2.2 = some 1

/-- Each thread has the references `held`, and the counter has their number. -/
structure Counted [Fintype T] (progs : T → List Call) (held₀ held : T → ℕ) (m : Machine T) :
    Prop where
  holder : ∀ t, Holder (held t) (m.thread t).calls
  after : ∀ t, heldAfter (held t) (m.thread t).calls = heldAfter (held₀ t) (progs t)
  counter : m.counter = BitVec.ofNat 32 (∑ t, held t)
  bound : ∑ t, held t + ∑ t, (m.thread t).calls.count .inc < 2 ^ 32
  alive : 0 < ∑ t, held t → ∀ e ∈ m.hist, ¬ IsLast e
  dead : ∑ t, held t = 0 → ∃ l e, m.hist = l ++ [e] ∧ IsLast e ∧ ∀ x ∈ l, ¬ IsLast x

/-! Numbers of references in a counter. -/

theorem ofNat_add_one {n : ℕ} : BitVec.ofNat 32 n + 1 = BitVec.ofNat 32 (n + 1) := by
  have h1 : (1 : BitVec 32).toNat = 1 := rfl
  apply BitVec.eq_of_toNat_eq
  rw [BitVec.toNat_add, BitVec.toNat_ofNat, BitVec.toNat_ofNat, h1]
  omega

theorem ofNat_sub_one {n : ℕ} (hn : 0 < n) (hw : n < 2 ^ 32) :
    BitVec.ofNat 32 n - 1 = BitVec.ofNat 32 (n - 1) := by
  have h1 : (1 : BitVec 32).toNat = 1 := rfl
  apply BitVec.eq_of_toNat_eq
  rw [BitVec.toNat_sub, BitVec.toNat_ofNat, BitVec.toNat_ofNat, h1]
  omega

theorem ofNat_eq_zero {n : ℕ} (hw : n < 2 ^ 32) : BitVec.ofNat 32 n = 0 ↔ n = 0 := by
  have h0 : (0 : BitVec 32).toNat = 0 := rfl
  rw [← BitVec.toNat_inj, BitVec.toNat_ofNat, h0]
  omega

theorem truth_eq_one (p : Prop) [Decidable p] : truth p = 1 ↔ p := by
  by_cases h : p <;> simp [truth, h]

omit [DecidableEq T] in
/-- The counter and the result of a call, by the number of references. -/
theorem counts_atomic {n k : ℕ} (hcall : call.Counts) (hk : 0 < k) (hkn : k ≤ n) (hn : n < 2 ^ 32) :
    (call.atomic (BitVec.ofNat 32 n)).2 = BitVec.ofNat 32 (n - k + call.held k) ∧
      (IsLast (t, call, (call.atomic (BitVec.ofNat 32 n)).1) ↔ n - k + call.held k = 0) := by
  have hput : n - k + (k - 1) = n - 1 := by omega
  cases call with
  | read =>
    refine ⟨congrArg (BitVec.ofNat 32) (by dsimp only [Call.held]; omega), ?_⟩
    dsimp only [Call.held]
    refine iff_of_false ?_ (by omega)
    rintro ⟨h | h, -⟩ <;> cases h
  | inc =>
    dsimp only [Call.held]
    refine ⟨ofNat_add_one.trans (congrArg (BitVec.ofNat 32) (by omega)), ?_⟩
    refine iff_of_false ?_ (by omega)
    rintro ⟨h | h, -⟩ <;> cases h
  | subAndTest i =>
    obtain rfl : i = 1 := hcall
    have hsub := ofNat_sub_one (by omega) hn
    refine ⟨hsub.trans (congrArg (BitVec.ofNat 32) hput.symm), ?_⟩
    dsimp only [Call.held, Call.atomic, IsLast]
    rw [Option.some.injEq, truth_eq_one, hsub, ofNat_eq_zero (by omega), hput]
    simp
  | decAndTest =>
    have hsub := ofNat_sub_one (by omega) hn
    have hres : (Call.decAndTest.atomic (BitVec.ofNat 32 n)).1 =
        some (truth ((0 : Long) = BitVec.ofNat 32 n - 1)) := rfl
    refine ⟨hsub.trans (congrArg (BitVec.ofNat 32) hput.symm), ?_⟩
    dsimp only [Call.held, IsLast]
    rw [hres, Option.some.injEq, truth_eq_one, hsub, @eq_comm _ (0 : Long),
      ofNat_eq_zero (by omega), hput]
    simp
  | _ => exact hcall.elim

theorem counted_step [Fintype T] {held₀ held : T → ℕ} (hm : Counted progs held₀ held m)
    (h : step t m = some m') : ∃ held', Counted progs held₀ held' m' := by
  obtain ⟨call, calls, hcalls, ⟨i, counter, rfl, -, rfl⟩ | ⟨-, rfl⟩⟩ := step_cases h
  · have hsame : ∀ u, ((turned m t (.subAndTest i :: calls) counter).thread u).calls =
        (m.thread u).calls := fun u => by
      by_cases hut : u = t
      · rw [hut, hcalls]
        simp [turned]
      · simp [turned, hut]
    obtain ⟨h1, h2, h3, h4, h5, h6⟩ := hm
    refine ⟨held, fun u => ?_, fun u => ?_, h3, ?_, h5, h6⟩
    · rw [hsame]
      exact h1 u
    · rw [hsame]
      exact h2 u
    · simp only [hsame]
      exact h4
  obtain ⟨h1, h2, h3, h4, h5, h6⟩ := hm
  have ht := h1 t
  rw [hcalls] at ht
  obtain ⟨hpos, hcount, hrest⟩ := ht
  have hle : held t ≤ ∑ u, held u := Finset.single_le_sum (fun _ _ => Nat.zero_le _)
    (Finset.mem_univ t)
  have hsum := sum_update held t (call.held (held t))
  have hsum' : ∑ u, Function.update held t (call.held (held t)) u =
      ∑ u, held u - held t + call.held (held t) := by omega
  obtain ⟨ha, hlast⟩ := @counts_atomic T t call _ _ hcount hpos hle (by omega)
  have hlive := h5 (by omega)
  have hother : ∀ u, u ≠ t → (returned m t call calls).thread u = m.thread u := fun u hu => by
    simp [returned, hu]
  have hself : (returned m t call calls).thread t = ⟨calls, none⟩ := by simp [returned]
  refine ⟨Function.update held t (call.held (held t)), fun u => ?_, fun u => ?_, ?_, ?_, ?_, ?_⟩
  · by_cases hut : u = t
    · rw [hut, hself, Function.update_self]
      exact hrest
    · rw [hother u hut, Function.update_of_ne hut]
      exact h1 u
  · by_cases hut : u = t
    · rw [hut, hself, Function.update_self, ← h2 t, hcalls]
      rfl
    · rw [hother u hut, Function.update_of_ne hut]
      exact h2 u
  · rw [hsum']
    simpa only [returned, h3] using ha
  · -- a get takes one from what is still to come
    have hgets : (fun u => ((returned m t call calls).thread u).calls.count Call.inc) =
        Function.update (fun u => (m.thread u).calls.count Call.inc) t (calls.count .inc) := by
      funext u
      by_cases hut : u = t
      · rw [hut, hself, Function.update_self]
      · rw [hother u hut, Function.update_of_ne hut]
    have hcnt := sum_update (fun u => (m.thread u).calls.count Call.inc) t (calls.count .inc)
    rw [← hgets] at hcnt
    simp only [hcalls, List.count_cons] at hcnt
    by_cases hinc : call = .inc
    · subst hinc
      simp only [beq_self_eq_true, if_true] at hcnt
      have hone : Call.inc.held (held t) = held t + 1 := rfl
      omega
    · have hone : call.held (held t) ≤ held t := by
        cases call with
        | inc => exact absurd rfl hinc
        | subAndTest i => exact Nat.sub_le _ _
        | decAndTest => exact Nat.sub_le _ _
        | _ => exact le_rfl
      omega
  · intro hpos' e he
    rcases List.mem_append.mp he with he | he
    · exact hlive e he
    · obtain rfl := List.mem_singleton.mp he
      rw [h3, hlast]
      omega
  · intro hzero
    refine ⟨m.hist, _, rfl, ?_, hlive⟩
    rw [h3, hlast]
    omega

/-- **The last put is told, and nobody comes after it.** Threads share a counter that has the number
of their references; a thread gets and puts only while it has one. Then in every interleaving a put
returns true only as the last access that any thread makes, and the counter is not zero before; and
when all references are given back, the last call is a put that returned true. -/
theorem last_put [Fintype T] {held : T → ℕ} (hholder : ∀ t, Holder (held t) (progs t))
    (hpos : 0 < ∑ t, held t) (hbound : ∑ t, held t + ∑ t, (progs t).count .inc < 2 ^ 32)
    (h : run step ts (start (BitVec.ofNat 32 (∑ t, held t)) progs) = some m) :
    (∀ l e l', m.hist = l ++ e :: l' → IsLast e →
        l' = [] ∧ m.counter = 0 ∧ ∀ t, (m.thread t).calls = []) ∧
      ((∃ t, (m.thread t).calls ≠ []) → m.counter ≠ 0) ∧
      ((∀ t, (m.thread t).calls = []) → (∀ t, heldAfter (held t) (progs t) = 0) →
        ∃ l e, m.hist = l ++ [e] ∧ IsLast e) := by
  have hstart : ∃ held', Counted progs held held' (start (BitVec.ofNat 32 (∑ t, held t)) progs) :=
    ⟨held, hholder, fun _ => rfl, rfl, hbound, fun _ e he => by simp [start] at he,
      fun h0 => by omega⟩
  obtain ⟨held', hm⟩ : ∃ held', Counted progs held held' m := by
    refine @run_keeps T _ step ts _ m (fun m => ∃ held', Counted progs held held' m)
      (fun t s s' hs hstep => ?_) hstart h
    obtain ⟨held', hs⟩ := hs
    exact counted_step hs hstep
  have hzero : m.counter = 0 ↔ ∑ t, held' t = 0 := by
    have := hm.bound
    rw [hm.counter]
    exact ofNat_eq_zero (by omega)
  have hnone : ∑ t, held' t = 0 → ∀ t, (m.thread t).calls = [] := fun h0 t => by
    have h1 := hm.holder t
    rw [(Finset.sum_eq_zero_iff.mp h0) t (Finset.mem_univ t)] at h1
    cases hc : (m.thread t).calls with
    | nil => rfl
    | cons call calls =>
      rw [hc] at h1
      exact absurd h1.1 (lt_irrefl 0)
  refine ⟨fun l e l' hl he => ?_, fun ⟨t, ht⟩ h0 => ht (hnone (hzero.mp h0) t),
    fun hdone hback => ?_⟩
  · by_cases h0 : ∑ t, held' t = 0
    · obtain ⟨k, x, hk, -, hx⟩ := hm.dead h0
      refine ⟨?_, hzero.mpr h0, hnone h0⟩
      by_contra hne
      obtain ⟨l'', y, rfl⟩ : ∃ l'' y, l' = l'' ++ [y] :=
        ⟨l'.dropLast, l'.getLast hne, (List.dropLast_append_getLast hne).symm⟩
      have hk' : k ++ [x] = (l ++ e :: l'') ++ [y] := by
        rw [← hk, hl]
        simp
      obtain ⟨rfl, -⟩ := List.append_inj' hk' rfl
      exact hx e (by simp) he
    · exact absurd he (hm.alive (by omega) e (by rw [hl]; simp))
  · have h0 : ∑ t, held' t = 0 := Finset.sum_eq_zero fun t _ => by
      have := hm.after t
      rwa [hdone t, hback t] at this
    obtain ⟨l, e, hl, he, -⟩ := hm.dead h0
    exact ⟨l, e, hl, he⟩

/-! ### The loop ends -/

/-- What a thread may do without a call returning: read again, or exchange in vain. -/
def weight (v : Long) : Option Long → ℕ
  | none => 2
  | some counter => if counter = v then 1 else 3

@[simp] theorem weight_none (v : Long) : weight v none = 2 := rfl

@[simp] theorem weight_some (v counter : Long) :
    weight v (some counter) = if counter = v then 1 else 3 := rfl

theorem weight_le {v v' : Long} (counter : Option Long) :
    weight v' counter ≤ weight v counter + 2 := by
  cases counter with
  | none => simp
  | some counter =>
    rw [weight_some, weight_some]
    split_ifs <;> omega

/-- The calls that are left, each with what it may cost the other threads, and the weights. -/
def budget [Fintype T] (m : Machine T) : ℕ :=
  (2 * Fintype.card T + 2) * ∑ t, (m.thread t).calls.length + ∑ t,
    weight m.counter (m.thread t).counter

theorem budget_step [Fintype T] (h : step t m = some m') : budget m' < budget m := by
  obtain ⟨call, calls, hcalls, ⟨i, counter, rfl, hturn, rfl⟩ | ⟨-, rfl⟩⟩ := step_cases h
  · have hlen : (fun u => ((turned m t (.subAndTest i :: calls) counter).thread u).calls.length) =
        fun u => (m.thread u).calls.length := by
      funext u
      by_cases hut : u = t
      · rw [hut, hcalls]
        simp [turned]
      · simp [turned, hut]
    have hweight : (fun u => weight m.counter
        ((turned m t (.subAndTest i :: calls) counter).thread u).counter) =
        Function.update (fun u => weight m.counter (m.thread u).counter) t
          (weight m.counter counter) := by
      funext u
      by_cases hut : u = t
      · rw [hut]
        simp [turned]
      · simp [turned, hut]
    have hless : weight m.counter counter < weight m.counter (m.thread t).counter := by
      cases hturn with
      | read hc => simp [hc]
      | missed v hc hne => simp [hc, hne]
    have hsum := sum_update (fun u => weight m.counter (m.thread u).counter) t
      (weight m.counter counter)
    rw [← hweight] at hsum
    have hcounter : (turned m t (.subAndTest i :: calls) counter).counter = m.counter := rfl
    unfold budget
    rw [hcounter, hlen]
    dsimp only at hsum
    omega
  · generalize hv : (call.atomic m.counter).2 = v
    have hcounter : (returned m t call calls).counter = v := hv
    have hlen : (fun u => ((returned m t call calls).thread u).calls.length) =
        Function.update (fun u => (m.thread u).calls.length) t calls.length := by
      funext u
      by_cases hut : u = t
      · rw [hut]
        simp [returned]
      · simp [returned, hut]
    have hsum := sum_update (fun u => (m.thread u).calls.length) t calls.length
    rw [← hlen] at hsum
    simp only [hcalls, List.length_cons] at hsum
    have hweight : ∑ u, weight v ((returned m t call calls).thread u).counter ≤
        ∑ u, (weight m.counter (m.thread u).counter + 2) := Finset.sum_le_sum fun u _ => by
      by_cases hut : u = t
      · rw [hut]
        simp [returned]
      · have hu : (returned m t call calls).thread u = m.thread u := by simp [returned, hut]
        rw [hu]
        exact weight_le _
    rw [Finset.sum_add_distrib, Finset.sum_const, Finset.card_univ, Nat.nsmul_eq_mul] at hweight
    have hone : ∑ u, (m.thread u).calls.length =
        ∑ u, ((returned m t call calls).thread u).calls.length + 1 := by omega
    unfold budget
    rw [hcounter, hone, Nat.mul_add, Nat.mul_one]
    omega

/-- **The loop of `drv_atomic_sub_and_test` cannot keep all threads from returning.** An exchange
fails only when another call has changed the counter, so every schedule is over after a number of
accesses that the calls and the threads bound; and where no thread can go on, all calls have
returned. -/
theorem calls_return [Fintype T] (h : run step ts (start c progs) = some m) :
    ts.length ≤ (2 * Fintype.card T + 2) * ∑ t, (progs t).length + 2 * Fintype.card T ∧
      ((∀ t, step t m = none) → ∀ t, callsOf t m.hist = progs t) := by
  constructor
  · have hlen := run_length_le (m := budget) (fun t s s' _ hs => ⟨trivial, budget_step hs⟩)
      trivial h
    have hstart : budget (start c progs) =
        (2 * Fintype.card T + 2) * ∑ t, (progs t).length + Fintype.card T * 2 := by
      unfold budget
      congr 1
      exact (Finset.sum_const 2).trans (by rw [Finset.card_univ, Nat.nsmul_eq_mul])
    omega
  · intro hstuck t
    have hcalls : (m.thread t).calls = [] := by
      have hnone := hstuck t
      unfold step at hnone
      split at hnone
      · assumption
      · split at hnone <;> cases hnone
    have horder := (follows_run h).order t
    rwa [hcalls, List.append_nil] at horder

end

/-! ### Two threads -/

/-- Two threads with a reference each give it back. -/
def twoPuts (_ : Bool) : List Call := [.subAndTest 1]

/-- Both read the counter; one exchange succeeds, the other fails and is tried again. -/
def contended : List Bool := [true, false, true, false, false, false]

/-- The threads after the schedule. -/
def afterPuts : Machine Bool := (run step contended (start 2 twoPuts)).get (by decide)

theorem afterPuts_eq : run step contended (start 2 twoPuts) = some afterPuts :=
  (Option.some_get _).symm

theorem afterPuts_done (t : Bool) : (afterPuts.thread t).calls = [] := by
  cases t <;> rfl

theorem calls_atomic_twoPuts : Sequential 2 afterPuts.hist afterPuts.counter ∧
    ∀ t, callsOf t afterPuts.hist ++ (afterPuts.thread t).calls = twoPuts t :=
  calls_atomic afterPuts_eq

theorem no_lost_update_twoPuts :
    afterPuts.counter = 2 + ∑ t, ((twoPuts t).map Call.delta).sum := by
  refine no_lost_update (fun t call hcall i hi => ?_) afterPuts_eq afterPuts_done
  subst hi
  simp [twoPuts] at hcall

/-- One of the two is told, and it is the one that comes last. -/
theorem last_put_twoPuts :
    (∀ l e l', afterPuts.hist = l ++ e :: l' → IsLast e →
        l' = [] ∧ afterPuts.counter = 0 ∧ ∀ t, (afterPuts.thread t).calls = []) ∧
      ((∃ t, (afterPuts.thread t).calls ≠ []) → afterPuts.counter ≠ 0) ∧
      ((∀ t, (afterPuts.thread t).calls = []) → (∀ t, heldAfter 1 (twoPuts t) = 0) →
        ∃ l e, afterPuts.hist = l ++ [e] ∧ IsLast e) :=
  @last_put Bool _ _ contended twoPuts _ (fun _ => 1) (fun _ => ⟨Nat.one_pos, rfl, trivial⟩)
    (by decide) (by decide) afterPuts_eq

theorem calls_return_twoPuts :
    contended.length ≤ (2 * Fintype.card Bool + 2) * ∑ t, (twoPuts t).length +
        2 * Fintype.card Bool ∧
      ((∀ t, step t afterPuts = none) → ∀ t, callsOf t afterPuts.hist = twoPuts t) :=
  calls_return afterPuts_eq

end Ext4Fsd.Common.DrvAtomic
