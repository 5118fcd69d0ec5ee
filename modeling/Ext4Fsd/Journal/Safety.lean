import Ext4Fsd.Journal.Termination

/-! # Which blocks reach the client

The replay pass is only made when both scans have failed, and then with an empty record of the
committed transactions: its guard lets it go on while the expected tid is 0. It therefore writes
exactly the blocks of the descriptor blocks that revoke blocks of the transaction 0 lead to from
`s_start` (`ReplayReaches`), whatever the scan has seen; on a log without such blocks it writes
nothing at all. -/

namespace Ext4Fsd.Journal.Safety

open Ext4Fsd.Lib.CInt Ext4Fsd.Lib.Walk
open Ext4Fsd.Journal.Format Ext4Fsd.Journal.Tags Ext4Fsd.Journal.Recovery Ext4Fsd.Journal.Effects
open Ext4Fsd.Journal.Turns Ext4Fsd.Journal.Runs Ext4Fsd.Journal.Termination

variable (log : ℤ → Block) (chksum : Chksum) (h : Jbd2Handle)

/-- The SCAN pass recorded in `evs` has passed the descriptor block `descr` of the transaction
`tid`, its data checksums matching, and after it a commit block of `tid` that verifies. -/
def Committed (evs : List Event) (tid descr : ℤ) : Prop :=
  ∃ c, [Event.visit .scan descr jbd2DescriptorBlock tid,
      Event.visit .scan c jbd2CommitBlock tid].Sublist evs ∧
    jbd2VerifyCommitBlock chksum h (log c) = true ∧
    dataCsumStatus log chksum h descr = .success

/-- Every block written so far belongs to a transaction that the SCAN pass found committed. -/
def OnlyCommitted (evs : List Event) : Prop :=
  ∀ tid descr nr fs, Event.write tid descr nr fs ∈ evs → Committed log chksum h evs tid descr

/-- The `n`-th block from `s_start`, going around the ring. -/
def chainPos (n : ℕ) : ℤ := (fun b => advance h b 1)^[n] (sStart h.jhSb)

/-- Revoke blocks of the transaction 0 lead from `s_start` to a descriptor block of it. -/
def ReplayReaches : Prop :=
  sSequence h.jhSb = 0 ∧ Room h (tagLimit h) ∧
    ∃ n, (∀ i < n, RevokeOf chksum h (log (chainPos h i)) 0) ∧
      DescrOf chksum h (log (chainPos h n)) 0

variable {log chksum h}

theorem chainPos_zero : chainPos h 0 = sStart h.jhSb := by
  unfold chainPos
  exact Function.iterate_zero_apply _ _

theorem chainPos_succ (n : ℕ) : chainPos h (n + 1) = advance h (chainPos h n) 1 :=
  Function.iterate_succ_apply' _ _ _

/-! ### The walk of the replay pass -/

/-- The replay pass goes on from a position only while the transaction expected is 0. -/
theorem tid_eq_zero_of_replay {s t : Pos} (hs : s ∈ Positions)
    (hst : logStep log chksum h .replay s = some t) : s.2 = 0 := by
  refine eq_zero_of_toU32 hs.2 ?_
  by_contra hne
  unfold logStep logNext at hst
  rw [if_pos ⟨by decide, jbd2TidCmp_pos_iff.mpr (by simpa using hne)⟩] at hst
  cases hst

/-- One step of the replay pass at the transaction 0 that stays in it. -/
theorem replay_step_cases {b : ℤ} {t : Pos} (hst : logStep log chksum h .replay (b, 0) = some t)
    (ht : t.2 = 0) : t = (b, 0) ∨ DescrOf chksum h (log b) 0 ∨
      RevokeOf chksum h (log b) 0 ∧ t = (advance h b 1, 0) := by
  unfold logStep logNext logBlock logDescr logCommit logRevoke at hst
  dsimp only at hst
  split_ifs at hst with hg hh hd hv hc hcm hcv hr hrv <;> cases hst
  · rw [Bool.or_eq_true, not_or] at hh
    exact .inr (.inl ⟨⟨by simpa using hh.1, by simpa using hh.2, hd⟩, by simpa using hv⟩)
  · rw [zero_add, toI32_of_range (by norm_num) (by norm_num)] at ht
    cases ht
  · rw [Bool.or_eq_true, not_or] at hh
    exact .inr (.inr ⟨⟨⟨by simpa using hh.1, by simpa using hh.2, hr⟩, by simpa using hrv⟩, rfl⟩)
  · exact .inl rfl

/-- As long as the walk of the replay pass stays in the transaction 0, it follows the chain, or the
chain has led to a descriptor block. -/
theorem replay_walk_chain : ∀ n s,
    walk (logStep log chksum h .replay) n (startPos h) = some s → s.2 = 0 →
    ∃ k, (∀ i < k, RevokeOf chksum h (log (chainPos h i)) 0) ∧
      (s.1 = chainPos h k ∨ DescrOf chksum h (log (chainPos h k)) 0) := by
  intro n
  induction n with
  | zero =>
    intro s hs _
    rw [walk_zero, Option.some_inj] at hs
    rw [← hs]
    exact ⟨0, nofun, .inl ((startPos_fst h).trans chainPos_zero.symm)⟩
  | succ n ih =>
    intro s hs h0
    rw [walk_succ, Option.bind_eq_some_iff] at hs
    obtain ⟨⟨b, tid⟩, hw, hst⟩ := hs
    have hb := walk_invariant startPos_mem (fun _ _ hs hst => logStep_mem hs hst) n _ hw
    have htid : tid = 0 := tid_eq_zero_of_replay hb hst
    subst htid
    obtain ⟨k, hk, hbk | hd⟩ := ih _ hw rfl
    · dsimp only at hbk
      subst hbk
      rcases replay_step_cases hst h0 with rfl | hd | ⟨hr, rfl⟩
      · exact ⟨k, hk, .inl rfl⟩
      · exact ⟨k, hk, .inr hd⟩
      · refine ⟨k + 1, fun i hi => ?_, .inl (chainPos_succ k).symm⟩
        rcases Nat.lt_succ_iff_lt_or_eq.mp hi with hi | rfl
        · exact hk i hi
        · exact hr
    · exact ⟨k, hk, .inr hd⟩

/-- The walk of the replay pass starts in the transaction `s_sequence` and leaves it at once unless
that is 0. -/
theorem sSequence_eq_zero {n : ℕ} {s : Pos}
    (hw : walk (logStep log chksum h .replay) n (startPos h) = some s) (h0 : s.2 = 0) :
    sSequence h.jhSb = 0 := by
  cases n with
  | zero =>
    rw [walk_zero, Option.some_inj] at hw
    rw [← hw, startPos_snd] at h0
    exact h0
  | succ n =>
    rw [walk_succ'] at hw
    obtain ⟨t, hst, -⟩ := Option.bind_eq_some_iff.mp hw
    rw [← startPos_snd]
    exact tid_eq_zero_of_replay startPos_mem hst

theorem tid_eq_zero_of_not_beyond {p : Pass} (ht : Tidy p) (hph : p.phase = .replay)
    (hm : pos p ∈ Positions) (hb : ¬ Beyond p) : p.currTid = 0 := by
  have hne : p.phase ≠ .scan := by rw [hph]; decide
  refine eq_zero_of_toU32 hm.2 ?_
  by_contra h0
  refine hb ⟨hne, ?_⟩
  rw [ht.endTxn hne]
  exact jbd2TidCmp_pos_iff.mpr (by simpa using h0)

/-- **A block is written only when the replay pass reaches it.** -/
theorem replayReaches_of_write {o : Oracle} {client : ℤ → Block} {n : ℕ} {tid descr nr fs : ℤ}
    (he : Event.write tid descr nr fs ∈
      (jbd2ReplayJournal ⟨log, chksum, o⟩ h (World.init client) n).world.events) :
    ReplayReaches log chksum h := by
  rcases recovery_events n _ he with h0 | ⟨m, p, hp, hb, hem⟩
  · cases h0
  · cases hem with
    | write nr fs hrep hroom =>
      obtain ⟨ht, k, hk⟩ := recovery_walk m p hp
      obtain ⟨hph, hd⟩ := hrep
      rw [hph] at hk
      have hmem := walk_invariant startPos_mem (fun _ _ hs hst => logStep_mem hs hst) k _ hk
      have h0 := tid_eq_zero_of_not_beyond ht hph hmem hb
      rw [h0] at hd
      obtain ⟨j, hj, hjk | hjd⟩ := replay_walk_chain k _ hk h0
      · refine ⟨sSequence_eq_zero hk h0, hroom, j, hj, ?_⟩
        rw [← hjk]
        exact hd
      · exact ⟨sSequence_eq_zero hk h0, hroom, j, hj, hjd⟩

/-! ### A run that writes -/

theorem passes_zero : Passes .replay 0 := .inr rfl

/-- The replay pass follows the chain of revoke blocks. -/
theorem replay_walk_of_chain {n : ℕ} (h0 : sSequence h.jhSb = 0)
    (hr : ∀ i < n, RevokeOf chksum h (log (chainPos h i)) 0) :
    ∀ i ≤ n, walk (logStep log chksum h .replay) i (startPos h) = some (chainPos h i, 0) := by
  intro i
  induction i with
  | zero =>
    intro _
    rw [walk_zero, chainPos_zero, ← h0]
    rfl
  | succ i ih =>
    intro hi
    rw [walk_succ, ih (by omega), Option.bind_some, logStep,
      logNext_revoke passes_zero (hr i (by omega)), ← chainPos_succ]
    rfl

/-- The event is not one of the first scan. -/
def NotScanned (e : Event) : Prop := ∀ b type tid, e ≠ .visit .scan b type tid

theorem notScanned_of_emits {env : Env} {p : Pass} (hph : p.phase = .replay) {e : Event}
    (he : Emits env h p e) : NotScanned e := by
  rintro b type tid rfl
  have hp := he.visit_phase
  rw [hph] at hp
  cases hp

/-- A turn of the replay pass that is not at a descriptor block of the transaction. -/
theorem replay_turn_effect {env : Env} {p : Pass} (hph : p.phase = .replay)
    (hr : ¬ Replays env h p) :
    Effect NotScanned False False p.world (passStep env h p).pass.world := by
  refine (passStep_effect p).mono (fun e he => notScanned_of_emits hph he) hr fun ht => ?_
  rcases ht with hs | ht
  · rw [hph] at hs
    cases hs
  · exact hr ht

/-- The replay pass, two failed scans behind it, at the `n`-th block of the chain. -/
structure AtChain (env : Env) (h : Jbd2Handle) (client : ℤ → Block) (n : ℕ) (q : Pass) : Prop where
  run : jbd2ReplayJournal env h (World.init client) (2 + n) = .pass q
  phase : q.phase = .replay
  block : q.currBlocknr = chainPos h n
  tid : q.currTid = 0
  not_beyond : ¬ Beyond q
  reads : ReadsFrom env.oracle q.world
  scanned : ∀ e ∈ q.world.events, NotScanned e
  table : ∀ b, q.world.revokeTable b = none

theorem exists_atChain {env : Env} (ho : env.oracle = failTwice) (h0 : sSequence h.jhSb = 0)
    {n : ℕ} (hr : ∀ i < n, RevokeOf env.chksum h (env.log (chainPos h i)) 0)
    (client : ℤ → Block) : ∃ q, AtChain env h client n q := by
  have hwalk := replay_walk_of_chain h0 hr
  have hstart := replay_starts ho h0 client
  obtain ⟨p, hp⟩ : ∃ p, p = passStart h .replay (replayWorld env h client) := ⟨_, rfl⟩
  rw [← hp] at hstart
  have htidy : Tidy p := by rw [hp]; exact tidy_passStart _ _
  have hphase : p.phase = .replay := by rw [hp]; rfl
  have hpos : pos p = startPos h := by rw [hp]; rfl
  have hreads : ReadsFrom env.oracle p.world := by
    intro k hk
    rw [hp] at hk
    rw [ho]
    exact decide_eq_true hk
  have hwrites : WritesFrom env.oracle p.world := fun k _ => by rw [ho]; rfl
  obtain ⟨q, hq, hqpos, hre⟩ := passRun_of_walk hreads hwrites htidy
    (fun hs => by rw [hphase] at hs; cases hs) n (chainPos h n, 0)
    (by rw [hphase, hpos]; exact hwalk n le_rfl)
  obtain ⟨hqb, hqt⟩ := Prod.mk.inj hqpos
  have hqph : q.phase = .replay := hre.phase.trans hphase
  have hquiet : Effect NotScanned False False p.world q.world := by
    refine passRun_effect n q hq fun i hi q' hq' => ?_
    obtain ⟨hw', hre'⟩ := passRun_walk htidy i q' hq'
    rw [hphase, hpos, hwalk i hi.le] at hw'
    obtain ⟨hb', -⟩ := Prod.mk.inj (Option.some.inj hw')
    refine replay_turn_effect (hre'.phase.trans hphase) fun hrep => ?_
    have htype := hrep.2.type
    rw [← hb', (hr i hi).type] at htype
    exact absurd htype (by decide)
  refine ⟨q, jbd2ReplayJournal_add hstart n q hq, hqph, hqb, hqt, ?_, hreads.mono hre.pinReads,
    ?_, ?_⟩
  · rintro ⟨-, h2⟩
    rw [hqt, hre.tidy.endTxn (by rw [hqph]; decide), jbd2TidCmp_pos_iff] at h2
    exact h2 rfl
  · intro e he
    rcases hquiet.mem_events he with he | he
    · rw [hp] at he
      rcases List.mem_cons.mp he with rfl | he
      · nofun
      · rw [List.mem_singleton.mp he]; nofun
    · exact he
  · intro b
    rw [hquiet.table id, hp]
    rfl

/-- A descriptor block there is replayed: the block behind it is read and written. -/
theorem AtChain.replays {env : Env} (ho : env.oracle = failTwice) {client : ℤ → Block} {n : ℕ}
    {q : Pass} (ha : AtChain env h client n q)
    (hd : DescrOf env.chksum h (env.log (chainPos h n)) 0) (hroom : Room h (tagLimit h)) :
    .pinRead (toI32 (chainPos h n + 1)) ∈ (passStep env h q).pass.world.events ∧
      ∃ fs, .write 0 (chainPos h n) 1 fs ∈ (passStep env h q).pass.world.events := by
  have hdq : DescrOf env.chksum h (env.log q.currBlocknr) q.currTid := by
    rw [ha.block, ha.tid]
    exact hd
  have hev := fun e he => @replay_event_of_descr env h q ha.phase ha.not_beyond
    (ha.reads _ le_rfl) hdq e he
  obtain ⟨hread, hwrite⟩ := replayDescrBlock_events q.currTid q.currBlocknr
    (env.log q.currBlocknr) (w := (ccPinRead env q.world q.currBlocknr).2) ha.table
    (ccPinRead_readsFrom ha.reads q.currBlocknr _ le_rfl) hroom
  obtain ⟨fs, hfs⟩ := hwrite (by rw [ho]; rfl)
  rw [← ha.block, ← ha.tid]
  exact ⟨hev _ hread, fs, hev _ hfs⟩

/-- **When the replay pass can be reached, some run writes a block no scan has passed.** -/
theorem write_of_replayReaches (hreach : ReplayReaches log chksum h) (client : ℤ → Block) :
    ∃ n tid descr nr fs,
      Event.write tid descr nr fs ∈
        (jbd2ReplayJournal ⟨log, chksum, failTwice⟩ h (World.init client) n).world.events ∧
      ∀ e ∈ (jbd2ReplayJournal ⟨log, chksum, failTwice⟩ h (World.init client) n).world.events,
        NotScanned e := by
  obtain ⟨h0, hroom, n, hr, hd⟩ := hreach
  obtain ⟨q, ha⟩ := @exists_atChain h ⟨log, chksum, failTwice⟩ rfl h0 n hr client
  obtain ⟨-, fs, hfs⟩ := ha.replays rfl hd hroom
  refine ⟨2 + n + 1, 0, chainPos h n, 1, fs, recovery_event ha.run hfs, fun e he => ?_⟩
  rw [jbd2ReplayJournal_succ, ha.run, recoveryStep_world] at he
  rcases (passStep_effect q).mem_events he with he | he
  · exact ha.scanned e he
  · exact notScanned_of_emits ha.phase he

/-- **Only committed blocks are written, in every run, if and only if the replay pass cannot reach a
descriptor block.** -/
theorem onlyCommitted_iff (log : ℤ → Block) (chksum : Chksum) (h : Jbd2Handle) :
    (∀ (o : Oracle) (client : ℤ → Block) (n : ℕ), OnlyCommitted log chksum h
      (jbd2ReplayJournal ⟨log, chksum, o⟩ h (World.init client) n).world.events) ↔
    ¬ ReplayReaches log chksum h := by
  constructor
  · intro hall hreach
    obtain ⟨n, tid, descr, nr, fs, hw, hscan⟩ := write_of_replayReaches hreach fun _ _ => 0
    obtain ⟨c, hsub, -, -⟩ := hall failTwice (fun _ _ => 0) n tid descr nr fs hw
    exact hscan _ (hsub.subset (List.mem_cons_self ..)) _ _ _ rfl
  · intro hno o client n tid descr nr fs hw
    exact absurd (replayReaches_of_write hw) hno

/-- A single descriptor block of the transaction 0 at `s_start`, without a commit block. -/
theorem replayReaches_uncommitted :
    ReplayReaches (fun _ => headerBlock 1 0) (fun _ _ _ => 0) (smallJournal 0) := by
  refine ⟨by decide +kernel, by decide +kernel, 0, nofun, ⟨?_, ?_, ?_⟩, ?_⟩ <;> decide +kernel

theorem not_onlyCommitted :
    ¬ ∀ (log : ℤ → Block) (chksum : Chksum) (h : Jbd2Handle) (o : Oracle) (client : ℤ → Block)
      (n : ℕ), OnlyCommitted log chksum h
        (jbd2ReplayJournal ⟨log, chksum, o⟩ h (World.init client) n).world.events := by
  intro hall
  obtain ⟨n, tid, descr, nr, fs, hw, hscan⟩ :=
    write_of_replayReaches replayReaches_uncommitted fun _ _ => 0
  obtain ⟨c, hsub, -, -⟩ := hall _ _ _ failTwice (fun _ _ => 0) n tid descr nr fs hw
  exact hscan _ (hsub.subset (List.mem_cons_self ..)) _ _ _ rfl

end Ext4Fsd.Journal.Safety
