import Ext4Fsd.Journal.Turns

/-! # The transactions a pass comes to

`Turns` reads the log block by block. Here it is read by transactions: within one, descriptor and
revoke blocks lead on (`Leads`), and behind its commit block the next one starts (`TxnAt`). A pass
does not end when one of them runs on for ever (`RunsOn`); a scan also when the log has nothing but
commit blocks, one for each 32-bit number. -/

namespace Ext4Fsd.Journal.LogChain

open Relation Ext4Fsd.Lib.CInt Ext4Fsd.Lib.Walk
open Ext4Fsd.Journal.Format Ext4Fsd.Journal.Tags Ext4Fsd.Journal.Recovery Ext4Fsd.Journal.Effects
open Ext4Fsd.Journal.Turns

section
variable (log : ℤ → Block) (chksum : Chksum) (h : Jbd2Handle) (phase : Phase)

/-- The number of the transaction `n` places behind the first one. -/
def tidAt (n : ℕ) : ℤ := toI32 (sSequence h.jhSb + n)

/-- **The block leads on within the transaction**: a descriptor block over the tags counted, in the
scan if no data block of it fails its checksum, and a revoke block to the block behind it. -/
inductive Leads (tid : ℤ) : ℤ → ℤ → Prop
  | descr {b : ℤ} (hd : DescrOf chksum h (log b) tid)
      (hdata : phase = .scan → (dataCsumStatus log chksum h b).ntSuccess = true) :
      Leads tid b (advance h b (jbd2CountTags h (log b) + 1))
  | revoke {b : ℤ} (hr : RevokeOf chksum h (log b) tid) : Leads tid b (advance h b 1)

/-- The transaction `n` places behind the first one starts at the block. -/
inductive TxnAt : ℕ → ℤ → Prop
  | first : TxnAt 0 (sStart h.jhSb)
  | next {n : ℕ} {b c : ℤ} (hb : TxnAt n b)
      (hbc : ReflTransGen (Leads log chksum h phase (tidAt h n)) b c)
      (hc : CommitOf chksum h (log c) (tidAt h n)) : TxnAt (n + 1) (advance h c 1)

/-- A block of the transaction that verifies and has a type without an arm. -/
def NoArm (tid b : ℤ) : Prop :=
  ∃ type, HeaderOf type (log b) tid ∧ type ≠ jbd2DescriptorBlock ∧ type ≠ jbd2CommitBlock ∧
    type ≠ jbd2RevokeBlock

/-- **The transaction runs on for ever from the block `b`**: it comes to a block whose type has no
arm, or its descriptor and revoke blocks lead around the log back to one of them. -/
def RunsOn (tid b : ℤ) : Prop :=
  ∃ c, ReflTransGen (Leads log chksum h phase tid) b c ∧
    (NoArm log tid c ∨ TransGen (Leads log chksum h phase tid) c c)

/-- From `s_start` on there is one commit block behind the other, without an end. -/
def OnlyCommits : Prop :=
  ∀ n : ℕ, CommitOf chksum h (log ((fun b => advance h b 1)^[n] (sStart h.jhSb))) (tidAt h n)

/-- **The log lets the pass of a phase end.** The later passes look at the transaction 0 only, and
only when recovery is to start with it. -/
def EndsOnLog : Prop :=
  if phase = .scan then
    (∀ n b, TxnAt log chksum h .scan n b → ¬ RunsOn log chksum h .scan (tidAt h n) b) ∧
      ¬ OnlyCommits log chksum h
  else sSequence h.jhSb = 0 → ¬ RunsOn log chksum h phase 0 (sStart h.jhSb)

end

section
variable {log : ℤ → Block} {chksum : Chksum} {h : Jbd2Handle} {phase : Phase} {b c tid : ℤ} {n : ℕ}

theorem tidAt_zero : tidAt h 0 = sSequence h.jhSb := by
  unfold tidAt
  rw [Nat.cast_zero, add_zero]
  exact toI32_toI32 _

theorem tidAt_succ : toI32 (tidAt h n + 1) = tidAt h (n + 1) := by
  unfold tidAt
  rw [toI32_toI32_add]
  push_cast
  rw [add_assoc]

/-! ### Steps within a transaction and to the next one -/

theorem logStep_of_leads (hg : Passes phase tid) (hl : Leads log chksum h phase tid b c) :
    logStep log chksum h phase (b, tid) = some (c, tid) := by
  unfold logStep
  cases hl with
  | descr hd hdata => rw [logNext_descr hg hd hdata]; rfl
  | revoke hr => rw [logNext_revoke hg hr]; rfl

theorem logStep_of_commit (hg : Passes phase tid) (hc : CommitOf chksum h (log b) tid) :
    logStep log chksum h phase (b, tid) = some (advance h b 1, toI32 (tid + 1)) := by
  unfold logStep
  rw [logNext_commit hg hc]
  rfl

theorem logStep_of_noArm (hg : Passes phase tid) (hn : NoArm log tid b) :
    logStep log chksum h phase (b, tid) = some (b, tid) := by
  obtain ⟨type, hh, h1, h2, h3⟩ := hn
  unfold logStep
  rw [logNext_of_passes hg]
  unfold logBlock
  rw [if_neg (by simp [hh.header, hh.sequence]), hh.type, if_neg h1, if_neg h2, if_neg h3]
  rfl

/-- Where the log leads from a position. -/
theorem logStep_cases {t : Pos} (hst : logStep log chksum h phase (b, tid) = some t) :
    Passes phase tid ∧ (CommitOf chksum h (log b) tid ∨
      (∃ c, Leads log chksum h phase tid b c) ∨ NoArm log tid b) := by
  have hg : Passes phase tid := by
    by_contra hg
    unfold Passes at hg
    push Not at hg
    unfold logStep logNext at hst
    rw [if_pos ⟨hg.1, jbd2TidCmp_pos_iff.mpr (by rw [sub_zero]; exact hg.2)⟩] at hst
    cases hst
  refine ⟨hg, ?_⟩
  unfold logStep at hst
  rw [logNext_of_passes hg] at hst
  unfold logBlock logDescr logCommit logRevoke at hst
  dsimp only at hst
  split_ifs at hst with hh hd hv hdata hc hv hr hv
  · cases hst
  · cases hst
  · cases hst
  · rw [Bool.or_eq_true, not_or] at hh
    refine .inr (.inl ⟨_, .descr ⟨⟨by simpa using hh.1, by simpa using hh.2, hd⟩,
      by simpa using hv⟩ fun hph => ?_⟩)
    simpa [hph] using hdata
  · cases hst
  · rw [Bool.or_eq_true, not_or] at hh
    exact .inl ⟨⟨by simpa using hh.1, by simpa using hh.2, hc⟩, by simpa using hv⟩
  · cases hst
  · rw [Bool.or_eq_true, not_or] at hh
    exact .inr (.inl ⟨_, .revoke ⟨⟨by simpa using hh.1, by simpa using hh.2, hr⟩,
      by simpa using hv⟩⟩)
  · rw [Bool.or_eq_true, not_or] at hh
    exact .inr (.inr ⟨_, ⟨by simpa using hh.1, by simpa using hh.2, rfl⟩, hd, hc, hr⟩)

/-! ### Transactions on the walk -/

theorem walk_of_leads (hg : Passes phase tid) {s : Pos} {i : ℕ}
    (hi : walk (logStep log chksum h phase) i s = some (b, tid))
    (hbc : ReflTransGen (Leads log chksum h phase tid) b c) :
    ∃ j, walk (logStep log chksum h phase) j s = some (c, tid) := by
  obtain ⟨k, hk⟩ := walk_of_reflTransGen (g := fun b => (b, tid))
    (fun _ _ => logStep_of_leads hg) hbc
  refine ⟨i + k, ?_⟩
  rw [walk_add, hi]
  exact hk

/-- The scan comes to the start of every transaction of the chain. -/
theorem walk_of_txnAt (hb : TxnAt log chksum h .scan n b) :
    ∃ i, walk (logStep log chksum h .scan) i (startPos h) = some (b, tidAt h n) := by
  induction hb with
  | first => exact ⟨0, by rw [walk_zero, tidAt_zero, startPos]⟩
  | @next n b c _ hbc hc ih =>
    obtain ⟨i, hi⟩ := ih
    obtain ⟨j, hj⟩ := walk_of_leads (.inl rfl) hi hbc
    refine ⟨j + 1, ?_⟩
    rw [walk_succ, hj, Option.bind_some, logStep_of_commit (.inl rfl) hc, tidAt_succ]

/-- A walk that comes to a transaction that runs on does not stop. -/
theorem not_stops_of_runsOn (hg : Passes phase tid) {s : Pos} {i : ℕ}
    (hi : walk (logStep log chksum h phase) i s = some (b, tid))
    (hr : RunsOn log chksum h phase tid b) : ¬ Stops (logStep log chksum h phase) s := by
  obtain ⟨c, hbc, hno | hcycle⟩ := hr
  · obtain ⟨j, hj⟩ := walk_of_leads hg hi hbc
    have hnext : walk (logStep log chksum h phase) (j + 1) s = some (c, tid) := by
      rw [walk_succ, hj]
      exact logStep_of_noArm hg hno
    exact not_stops_of_repeat j.lt_succ_self hj hnext
  · obtain ⟨j, hj⟩ := walk_of_leads hg hi hbc
    exact not_stops_of_cycle (g := fun b => (b, tid)) (fun _ _ => logStep_of_leads hg) hj hcycle

/-! ### Block numbers are 32-bit numbers -/

theorem advance_mem (b : ℤ) (n : ℕ) : advance h b n ∈ Set.range toI32 := by
  unfold advance jbd2Wrap
  split_ifs
  · exact ⟨_, rfl⟩
  · exact ⟨_, rfl⟩

theorem reached_mem (hb : b ∈ Set.range toI32)
    (hbc : ReflTransGen (Leads log chksum h phase tid) b c) : c ∈ Set.range toI32 := by
  cases hbc with
  | refl => exact hb
  | tail _ hl => cases hl <;> exact advance_mem _ _

theorem txnAt_mem (hb : TxnAt log chksum h phase n b) : b ∈ Set.range toI32 := by
  cases hb with
  | first => exact ⟨_, rfl⟩
  | next => exact advance_mem _ _

/-- A transaction in which every block but one without an arm leads on runs on. -/
theorem runsOn_of_on (hb : b ∈ Set.range toI32)
    (hon : ∀ c, ReflTransGen (Leads log chksum h phase tid) b c →
      (∃ d, Leads log chksum h phase tid c d) ∨ NoArm log tid c) :
    RunsOn log chksum h phase tid b := by
  by_contra hr
  have hno : ∀ c, ReflTransGen (Leads log chksum h phase tid) b c → ¬ NoArm log tid c :=
    fun c hc hn => hr ⟨c, hc, .inl hn⟩
  obtain ⟨c, hc, hcycle⟩ := exists_cycle finite_range_toI32 (fun c hc => reached_mem hb hc)
    fun c hc => (hon c hc).resolve_right (hno c hc)
  exact hr ⟨c, hc, .inr hcycle⟩

/-! ### A chain without an end -/

/-- A block is accepted for one transaction only: where each of the `2^32` numbers of a transaction
has a commit block, all blocks are commit blocks. -/
theorem type_of_allTids {a : ℤ} (hall : ∀ n < 2 ^ 32, ∃ c ∈ Set.range toI32,
    CommitOf chksum h (log c) (toI32 (a + (n : ℕ)))) (hb : b ∈ Set.range toI32) :
    hBlocktype (log b) = jbd2CommitBlock := by
  obtain ⟨N, hN⟩ : ∃ N, N = 2 ^ 32 := ⟨_, rfl⟩
  rw [← hN] at hall
  choose! f hf hm using hall
  have hmaps : Set.MapsTo f (Finset.range N) (Finset.Ico (-2 ^ 31 : ℤ) (2 ^ 31)) := by
    intro i hi
    obtain ⟨x, hx⟩ := hf i (Finset.mem_range.mp hi)
    rw [← hx, Finset.coe_Ico]
    exact ⟨toI32_ge x, toI32_lt x⟩
  have hinj : Set.InjOn f (Finset.range N) := by
    intro i hi j hj hij
    have hi' := Finset.mem_range.mp hi
    have hj' := Finset.mem_range.mp hj
    have hseq := (hm i hi').sequence
    rw [hij, (hm j hj').sequence, toI32_eq_iff] at hseq
    unfold toU32 at hseq
    omega
  have hcard : (Finset.Ico (-2 ^ 31 : ℤ) (2 ^ 31)).card ≤ (Finset.range N).card := by
    rw [Int.card_Ico, Finset.card_range, hN]
    norm_num
  have hmem : b ∈ (Finset.Ico (-2 ^ 31 : ℤ) (2 ^ 31) : Set ℤ) := by
    obtain ⟨x, rfl⟩ := hb
    rw [Finset.coe_Ico]
    exact ⟨toI32_ge x, toI32_lt x⟩
  obtain ⟨i, hi, rfl⟩ := Finset.surjOn_of_injOn_of_card_le f hmaps hinj hcard hmem
  exact (hm i (Finset.mem_range.mp hi)).type

/-- The commit blocks of a chain without an end are all blocks. -/
theorem type_of_endless (hall : ∀ n, ∃ b, TxnAt log chksum h phase n b)
    (hb : b ∈ Set.range toI32) : hBlocktype (log b) = jbd2CommitBlock := by
  refine @type_of_allTids log chksum h b (sSequence h.jhSb) (fun n _ => ?_) hb
  obtain ⟨d, hd⟩ := hall (n + 1)
  cases hd with
  | next hb hbc hc => exact ⟨_, reached_mem (txnAt_mem hb) hbc, hc⟩

/-- On a log of commit blocks the scan goes from each to the next. -/
theorem walk_of_onlyCommits (hall : OnlyCommits log chksum h) (n : ℕ) :
    walk (logStep log chksum h .scan) n (startPos h) =
      some ((fun b => advance h b 1)^[n] (sStart h.jhSb), tidAt h n) := by
  induction n with
  | zero => rw [walk_zero, tidAt_zero, Function.iterate_zero_apply, startPos]
  | succ n ih =>
    rw [walk_succ, ih, Option.bind_some, logStep_of_commit (.inl rfl) (hall n), tidAt_succ,
      Function.iterate_succ_apply']

/-- A scan that does not stop comes to the next transaction, unless the one at hand runs on. -/
theorem exists_next (hns : ¬ Stops (logStep log chksum h .scan) (startPos h))
    (hb : TxnAt log chksum h .scan n b) (hr : ¬ RunsOn log chksum h .scan (tidAt h n) b) :
    ∃ c, TxnAt log chksum h .scan (n + 1) c := by
  by_contra hno
  push Not at hno
  obtain ⟨i, hi⟩ := walk_of_txnAt hb
  refine hr (runsOn_of_on (txnAt_mem hb) fun c hbc => ?_)
  obtain ⟨j, hj⟩ := walk_of_leads (.inl rfl) hi hbc
  obtain ⟨t, ht⟩ := step_of_not_stops hns hj
  exact (logStep_cases ht).2.resolve_left fun hc => hno _ (hb.next hbc hc)

/-- A scan that does not stop, and comes to all transactions, has a log of commit blocks. -/
theorem onlyCommits_of_endless (hns : ¬ Stops (logStep log chksum h .scan) (startPos h))
    (hall : ∀ n, ∃ b, TxnAt log chksum h .scan n b) : OnlyCommits log chksum h := by
  have hcommit : ∀ {n : ℕ} {b : ℤ}, b ∈ Set.range toI32 →
      walk (logStep log chksum h .scan) n (startPos h) = some (b, tidAt h n) →
      CommitOf chksum h (log b) (tidAt h n) := by
    intro n b hb hw
    have htype := type_of_endless hall hb
    obtain ⟨t, ht⟩ := step_of_not_stops hns hw
    obtain ⟨-, hc | ⟨c, hl⟩ | ⟨type, hh, -, h2, -⟩⟩ := logStep_cases ht
    · exact hc
    · cases hl with
      | descr hd => exact absurd (hd.type.symm.trans htype) (by decide)
      | revoke hr => exact absurd (hr.type.symm.trans htype) (by decide)
    · exact absurd (hh.type.symm.trans htype) h2
  have hmem : ∀ n : ℕ, (fun b => advance h b 1)^[n] (sStart h.jhSb) ∈ Set.range toI32 := by
    intro n
    cases n with
    | zero => rw [Function.iterate_zero_apply]; exact ⟨_, rfl⟩
    | succ n => rw [Function.iterate_succ_apply']; exact advance_mem _ _
  have hwalk : ∀ n, walk (logStep log chksum h .scan) n (startPos h) =
      some ((fun b => advance h b 1)^[n] (sStart h.jhSb), tidAt h n) := by
    intro n
    induction n with
    | zero => rw [walk_zero, tidAt_zero, Function.iterate_zero_apply, startPos]
    | succ n ih =>
      rw [walk_succ, ih, Option.bind_some, logStep_of_commit (.inl rfl) (hcommit (hmem n) ih),
        tidAt_succ, Function.iterate_succ_apply']
  exact fun n => hcommit (hmem n) (hwalk n)

/-! ### When the walk of a pass stops -/

theorem scan_stops_iff : Stops (logStep log chksum h .scan) (startPos h) ↔
    (∀ n b, TxnAt log chksum h .scan n b → ¬ RunsOn log chksum h .scan (tidAt h n) b) ∧
      ¬ OnlyCommits log chksum h := by
  constructor
  · intro hs
    refine ⟨fun n b hb hr => ?_, fun hall => ?_⟩
    · obtain ⟨i, hi⟩ := walk_of_txnAt hb
      exact not_stops_of_runsOn (.inl rfl) hi hr hs
    · obtain ⟨n, hn⟩ := hs
      rw [walk_of_onlyCommits hall n] at hn
      cases hn
  · rintro ⟨hruns, honly⟩
    by_contra hns
    refine honly (onlyCommits_of_endless hns fun n => ?_)
    induction n with
    | zero => exact ⟨_, .first⟩
    | succ n ih =>
      obtain ⟨b, hb⟩ := ih
      exact exists_next hns hb (hruns n b hb)

/-- The later passes stop behind the transaction 0. -/
theorem later_stops_iff (hph : phase ≠ .scan) : Stops (logStep log chksum h phase) (startPos h) ↔
    (sSequence h.jhSb = 0 → ¬ RunsOn log chksum h phase 0 (sStart h.jhSb)) := by
  have hguard : ∀ {b tid : ℤ} {t : Pos}, logStep log chksum h phase (b, tid) = some t →
      toU32 tid = 0 := fun ht => (logStep_cases ht).1.resolve_left hph
  constructor
  · intro hs h0 hr
    have hi : walk (logStep log chksum h phase) 0 (startPos h) = some (sStart h.jhSb, 0) := by
      rw [walk_zero, startPos, h0]
    exact not_stops_of_runsOn (.inr rfl) hi hr hs
  · intro hruns
    by_contra hns
    obtain ⟨t, ht⟩ := step_of_not_stops hns (walk_zero _)
    have h0 : sSequence h.jhSb = 0 := eq_zero_of_toU32 ⟨_, rfl⟩ (hguard ht)
    have hi : walk (logStep log chksum h phase) 0 (startPos h) = some (sStart h.jhSb, 0) := by
      rw [walk_zero, startPos, h0]
    refine hruns h0 (runsOn_of_on ⟨_, rfl⟩ fun c hbc => ?_)
    obtain ⟨j, hj⟩ := walk_of_leads (.inr rfl) hi hbc
    obtain ⟨t, ht⟩ := step_of_not_stops hns hj
    refine (logStep_cases ht).2.resolve_left fun hc => ?_
    have hnext : walk (logStep log chksum h phase) (j + 1) (startPos h) =
        some (advance h c 1, toI32 (0 + 1)) := by
      rw [walk_succ, hj]
      exact logStep_of_commit (.inr rfl) hc
    obtain ⟨u, hu⟩ := step_of_not_stops hns hnext
    have hone := hguard hu
    rw [toU32_toI32, zero_add] at hone
    exact absurd hone (by norm_num [toU32])

/-- **The walk of a pass stops exactly on the logs that let the pass end.** -/
theorem stops_iff : Stops (logStep log chksum h phase) (startPos h) ↔
    EndsOnLog log chksum h phase := by
  unfold EndsOnLog
  split_ifs with hph
  · rw [hph]
    exact scan_stops_iff
  · exact later_stops_iff hph

end

end Ext4Fsd.Journal.LogChain
