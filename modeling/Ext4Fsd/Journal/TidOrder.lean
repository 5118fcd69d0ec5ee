import Ext4Fsd.Journal.SkipRevoked

/-! # The order of the transactions

The tids of a log count up modulo `2 ^ 32`. In a window of less than `2 ^ 31` transactions the
signed difference of two tids tells which is first, and `jbd2_tid_cmp` is meant to return its sign.
The guard of the later passes and the test against a revoke entry rest on that.

`__s32` is an unsigned type, so the comparison never comes out below zero (`tidCmp_eq`): the guard
admits one tid only (`beyond_iff`), and an entry suppresses the tags of its own transaction only
(`revoked_window_iff`). -/

namespace Ext4Fsd.Journal.TidOrder

open Ext4Fsd.Lib.CInt
open Ext4Fsd.Journal.Format Ext4Fsd.Journal.Recovery Ext4Fsd.Journal.Effects
open Ext4Fsd.Journal.SkipRevoked (revoked_iff)

/-! ### The window -/

/-- The transaction `k` after the tid `s`. -/
def tidAfter (s : ℤ) (k : ℕ) : ℤ := toI32 (s + k)

variable (s : ℤ) (n : ℕ)

/-- **`jbd2_tid_cmp` orders the tid `n` after `s`**, in both argument orders, and finds only equal
tids equal. -/
structure CmpOrders : Prop where
  after : jbd2TidCmp (tidAfter s n) (tidAfter s 0) > 0
  before : jbd2TidCmp (tidAfter s 0) (tidAfter s n) < 0
  equal : ∀ a b, jbd2TidCmp (toI32 a) (toI32 b) = 0 → toI32 a = toI32 b

/-- **The guard of a later pass admits the tids up to `ri_end_txn`.** -/
def GuardAdmits : Prop :=
  ∀ p : Pass, p.phase ≠ .scan → ∀ k ≤ n, ∀ e ≤ n, p.currTid = tidAfter s k →
    p.info.riEndTxn = tidAfter s e → (¬ Beyond p ↔ k ≤ e)

/-- **An entry suppresses the tags of its own transaction and of those before.** -/
def RevokeSuppresses : Prop :=
  ∀ k ≤ n, ∀ e ≤ n, ∀ re : Jbd2RevokeEntry, re.reTid = tidAfter s e →
    (revoked (tidAfter s k) (some re) = true ↔ k ≤ e)

/-- The order of the window, in the comparison and in its two users. -/
structure TidsOrdered : Prop where
  cmp : CmpOrders s n
  guard : GuardAdmits s n
  revoke : RevokeSuppresses s n

variable {s n}

/-! ### What the code does -/

/-- The comparison tells equal from different. -/
theorem tidCmp_eq (a b : ℤ) : jbd2TidCmp a b = if toU32 (a - b) = 0 then 0 else 1 := by
  have h0 := toU32_nonneg (a - b)
  unfold jbd2TidCmp
  rw [if_neg (by omega)]
  split_ifs <;> omega

theorem toU32_tidAfter_sub {k e : ℕ} (hn : n < 2 ^ 31) (hk : k ≤ n) (he : e ≤ n) :
    toU32 (tidAfter s k - tidAfter s e) = 0 ↔ k = e := by
  unfold tidAfter toU32 toI32
  omega

/-- The guard admits `ri_end_txn` only. -/
theorem beyond_iff {p : Pass} {k e : ℕ} (hn : n < 2 ^ 31) (hp : p.phase ≠ .scan) (hk : k ≤ n)
    (he : e ≤ n) (hcurr : p.currTid = tidAfter s k) (hend : p.info.riEndTxn = tidAfter s e) :
    ¬ Beyond p ↔ k = e := by
  unfold Beyond
  rw [hcurr, hend, jbd2TidCmp_pos_iff, and_iff_right hp, Ne, not_not,
    toU32_tidAfter_sub hn hk he]

/-- An entry suppresses its own transaction only. -/
theorem revoked_window_iff {re : Jbd2RevokeEntry} {k e : ℕ} (hn : n < 2 ^ 31) (hk : k ≤ n)
    (he : e ≤ n) (hre : re.reTid = tidAfter s e) :
    revoked (tidAfter s k) (some re) = true ↔ k = e := by
  rw [revoked_iff]
  constructor
  · rintro ⟨re', hre', h0⟩
    cases hre'
    rw [hre, toU32_tidAfter_sub hn he hk] at h0
    exact h0.symm
  · rintro rfl
    exact ⟨re, rfl, by rw [hre, toU32_tidAfter_sub hn he hk]⟩

/-- A pass at the tid `curr` with the end `stop`. -/
def passAt (curr stop : ℤ) : Pass where
  phase := .replay
  currBlocknr := 0
  currTid := curr
  status := .success
  info := ⟨0, stop, false⟩
  world := World.init fun _ _ => 0

/-- **No window is ordered**: the first transaction never comes before the last one, the guard stops
at the first, and no entry of the last one suppresses it. -/
theorem tids_unordered (h0 : 0 < n) (hn : n < 2 ^ 31) :
    ¬ CmpOrders s n ∧ ¬ GuardAdmits s n ∧ ¬ RevokeSuppresses s n := by
  refine ⟨fun hcmp => ?_, fun hguard => ?_, fun hrevoke => ?_⟩
  · have hneg := hcmp.before
    rw [tidCmp_eq] at hneg
    split_ifs at hneg <;> omega
  · have hadmit := hguard (passAt (tidAfter s 0) (tidAfter s n)) (by simp [passAt]) 0 h0.le n le_rfl
      rfl rfl
    rw [beyond_iff hn (by simp [passAt]) h0.le le_rfl rfl rfl] at hadmit
    omega
  · have hsup := hrevoke 0 h0.le n le_rfl ⟨0, false, tidAfter s n⟩ rfl
    rw [revoked_window_iff hn h0.le le_rfl rfl] at hsup
    omega

/-- Two transactions around the end of the tids. -/
theorem tids_unordered_wrap :
    ¬ CmpOrders (-1) 1 ∧ ¬ GuardAdmits (-1) 1 ∧ ¬ RevokeSuppresses (-1) 1 :=
  tids_unordered (by decide) (by decide)

/-- The transactions 1 and 2. -/
theorem tidsOrdered_two : ¬ ∀ (s : ℤ) (n : ℕ), 0 < n → n < 2 ^ 31 → TidsOrdered s n := by
  intro hall
  have hneg := (hall 1 1 (by decide) (by decide)).cmp.before
  exact absurd hneg (by decide)

end Ext4Fsd.Journal.TidOrder
