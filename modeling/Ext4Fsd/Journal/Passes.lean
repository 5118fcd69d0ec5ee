import Ext4Fsd.Journal.Visits
import Mathlib.Data.List.DropRight

/-! # How the passes follow each other

`jbd2_replay_journal` goes on to the next pass exactly when the one before has failed. A recovery
whose scan succeeds is over, and the later passes visit nothing: they walk the transactions the
scan has found only when it has found none (`laterPasses_iff`). -/

namespace Ext4Fsd.Journal.Passes

open Ext4Fsd.Lib.CInt Ext4Fsd.Lib.Walk
open Ext4Fsd.Journal.Format Ext4Fsd.Journal.Tags Ext4Fsd.Journal.Recovery Ext4Fsd.Journal.Effects
open Ext4Fsd.Journal.Turns Ext4Fsd.Journal.Runs Ext4Fsd.Journal.Termination Ext4Fsd.Journal.Visits

variable {env : Env} {h : Jbd2Handle} {w : World}

/-! ### A pass within a recovery -/

/-- Where a pass of a recovery is done, the recovery goes on as its status says. -/
theorem recovery_passEnd {m n : ℕ} {p q q' : Pass} {st : NtStatus}
    (hp : jbd2ReplayJournal env h w m = .pass p) (hq : passRun env h p n = .next q)
    (hs : passStep env h q = .done st q') :
    jbd2ReplayJournal env h w (m + n + 1) = afterPass h p.phase st q'.world := by
  have hphase := @passRun_phase env h p n
  rw [hq] at hphase
  have hqp : q.phase = p.phase := hphase
  rw [jbd2ReplayJournal_succ, jbd2ReplayJournal_add hp n q hq]
  unfold recoveryStep
  dsimp only
  rw [hs, ← hqp]

/-- A recovery that is done stays so. -/
theorem recovery_done_stays {n : ℕ} {st : NtStatus} {w' : World}
    (hd : jbd2ReplayJournal env h w n = .done st w') (k : ℕ) :
    jbd2ReplayJournal env h w (n + k) = .done st w' := by
  induction k with
  | zero => exact hd
  | succ k ih => rw [← Nat.add_assoc, jbd2ReplayJournal_succ, ih]; rfl

theorem recovery_done_unique {m n : ℕ} {st st' : NtStatus} {w' w'' : World}
    (hm : jbd2ReplayJournal env h w m = .done st w')
    (hn : jbd2ReplayJournal env h w n = .done st' w'') : st = st' ∧ w' = w'' := by
  have h1 := recovery_done_stays hm n
  have h2 := recovery_done_stays hn m
  rw [Nat.add_comm, h1] at h2
  cases h2
  exact ⟨rfl, rfl⟩

/-- The recovery whose scan succeeds is over. -/
theorem recovery_of_scan_done {n : ℕ} {q : Pass}
    (hq : jbd2ReplayOnePass env h .scan w n = .done .success q) :
    ∃ N, jbd2ReplayJournal env h w N = .done .success (jbd2RevokeTableClear q.world) := by
  obtain ⟨m, q', hq', hs⟩ := passRun_done n hq
  exact ⟨0 + m + 1, recovery_passEnd (p := passStart h .scan w) rfl hq' hs⟩

/-! ### How a turn of the scan ends -/

/-- A turn of the scan past the guard. -/
theorem passStep_scan {p : Pass} (hph : p.phase = .scan) :
    passStep env h p =
      if env.oracle.pinRead p.world.pinReads then
        blockTurn env h (env.log p.currBlocknr)
          { p with world := (ccPinRead env p.world p.currBlocknr).2 }
      else .done .unexpectedIoError { p with world := (ccPinRead env p.world p.currBlocknr).2 } :=
  passStep_of_not_beyond env h fun hb => hb.1 hph

/-- The scan only succeeds where the log ends. -/
theorem logNext_of_scan_success {p p' : Pass} (hph : p.phase = .scan)
    (hs : passStep env h p = .done .success p') :
    logNext env.log env.chksum h .scan (pos p) = .error .success := by
  rw [passStep_scan hph] at hs
  rw [logNext_of_passes (.inl rfl)]
  split_ifs at hs
  · unfold blockTurn at hs
    unfold logBlock
    dsimp only [pos]
    split_ifs at hs ⊢ with hh hd hc hr
    · rfl
    · unfold descrArm at hs
      unfold logDescr
      dsimp only at hs ⊢
      split_ifs at hs ⊢
      · rfl
      all_goals
        rw [hph] at hs
        unfold checkedNext at hs
        dsimp only at hs
        split_ifs at hs with hfail
        rw [Turn.done.injEq] at hs
        rw [hs.1] at hfail
        cases hfail
    · unfold commitArm at hs
      unfold logCommit
      split_ifs at hs ⊢
      rfl
    · unfold revokeArm at hs
      unfold logRevoke
      dsimp only at hs ⊢
      split_ifs at hs ⊢
      rfl
  · cases hs

/-! ### Commit blocks on the walk of the scan -/

/-- The scan comes to a commit block of the expected transaction that verifies. -/
def ReachesCommit (log : ℤ → Block) (chksum : Chksum) (h : Jbd2Handle) : Prop :=
  ∃ i b tid, walk (logStep log chksum h .scan) i (startPos h) = some (b, tid) ∧
    CommitOf chksum h (log b) tid

/-- A commit block the walk goes on from is one that verifies. -/
theorem commitOf_of_step {log : ℤ → Block} {chksum : Chksum} {phase : Phase} {s t : Pos}
    (hst : logStep log chksum h phase s = some t)
    (hc : hBlocktype (log s.1) = jbd2CommitBlock) : CommitOf chksum h (log s.1) s.2 := by
  unfold logStep logNext logBlock at hst
  rw [hc] at hst
  split_ifs at hst with hg hh hd hcc
  · cases hst
  · cases hst
  · exact absurd hd (by decide)
  · unfold logCommit at hst
    split_ifs at hst with hv
    · cases hst
    · rw [Bool.or_eq_true, not_or] at hh
      exact ⟨⟨by simpa using hh.1, by simpa using hh.2, hc⟩, by simpa using hv⟩
  · exact absurd rfl hcc
  · exact absurd rfl hcc

/-- The visits of a walk that has come to its end show a commit block exactly when it reaches
one. -/
theorem exists_commit_from_iff {log : ℤ → Block} {chksum : Chksum} {m : ℕ} {s₀ s : Pos}
    (hm : walk (logStep log chksum h .scan) m s₀ = some s)
    (hend : logStep log chksum h .scan s = none) :
    (∃ v ∈ walkVisits log chksum h .scan s₀ m, IsCommit v) ↔
      ∃ i b tid, walk (logStep log chksum h .scan) i s₀ = some (b, tid) ∧
        CommitOf chksum h (log b) tid := by
  constructor
  · rintro ⟨v, hv, hcommit⟩
    obtain ⟨i, hi, t, ht, hvt⟩ := mem_walkVisits.mp hv
    obtain ⟨t', ht'⟩ := walk_some_of_le hm (Nat.succ_le_of_lt hi)
    rw [walk_succ, ht, Option.bind_some] at ht'
    refine ⟨i, t.1, t.2, ht, commitOf_of_step ht' ?_⟩
    unfold visitsAt at hvt
    split_ifs at hvt
    · rw [List.mem_singleton.mp hvt] at hcommit
      exact hcommit
    · cases hvt
  · rintro ⟨i, b, tid, hi, hc⟩
    have hstep : logStep log chksum h .scan (b, tid) = some (advance h b 1, toI32 (tid + 1)) := by
      unfold logStep
      rw [logNext_commit (.inl rfl) hc]
      rfl
    have hlt : i < m := by
      by_contra hge
      obtain ⟨k, rfl⟩ := Nat.exists_eq_add_of_le (not_lt.mp hge)
      cases k with
      | zero =>
        rw [Nat.add_zero, hm, Option.some_inj] at hi
        rw [hi, hstep] at hend
        cases hend
      | succ k =>
        rw [walk_add, hm, Option.bind_some, walk_succ', hend] at hi
        cases hi
    refine ⟨(b, jbd2CommitBlock, tid), mem_walkVisits.mpr ⟨i, hlt, (b, tid), hi, ?_⟩, rfl⟩
    unfold visitsAt
    rw [if_pos (.inr (.inl hc.type)), hc.type]
    exact List.mem_singleton.mpr rfl

theorem exists_commit_iff {log : ℤ → Block} {chksum : Chksum} {m : ℕ} {s : Pos}
    (hm : walk (logStep log chksum h .scan) m (startPos h) = some s)
    (hend : logStep log chksum h .scan s = none) :
    (∃ v ∈ walkVisits log chksum h .scan (startPos h) m, IsCommit v) ↔
      ReachesCommit log chksum h := exists_commit_from_iff hm hend

/-- A scan that succeeds: its visits, those of no other pass, and what it reports. -/
theorem scan_success {n : ℕ} {q : Pass}
    (hq : jbd2ReplayOnePass env h .scan w n = .done .success q) :
    ∃ m s, walk (logStep env.log env.chksum h .scan) m (startPos h) = some s ∧
      logNext env.log env.chksum h .scan s = .error .success ∧
      visits .scan q.world = visits .scan w ++
        walkVisits env.log env.chksum h .scan (startPos h) m ∧
      (∀ phase, phase ≠ .scan → visits phase q.world = visits phase w) ∧
      q.info = (walkVisits env.log env.chksum h .scan (startPos h) m).foldl note
        ⟨sSequence h.jhSb, 0, false⟩ := by
  obtain ⟨m, q', hq', hs, hscan, hother, hinfo⟩ := scan_done hq
  obtain ⟨hw, hre⟩ := passRun_walk (tidy_passStart .scan w) m q' hq'
  exact ⟨m, pos q', hw, logNext_of_scan_success hre.phase hs, hscan, hother, hinfo⟩

/-- The scan that succeeds has found a transaction exactly when it reaches a commit block. -/
theorem scan_hasTxn_iff {n : ℕ} {q : Pass}
    (hq : jbd2ReplayOnePass env h .scan w n = .done .success q) :
    q.info.riHasTxn = true ↔ ReachesCommit env.log env.chksum h := by
  obtain ⟨m, s, hw, hend, -, -, hinfo⟩ := scan_success hq
  rw [hinfo, foldl_note_hasTxn, ← exists_commit_iff hw (logStep_none hend)]
  simp

/-! ### The transactions the passes walk -/

/-- The visits up to the last commit block. -/
def committed (vs : List Visit) : List Visit := vs.rdropWhile fun v => !decide (IsCommit v)

theorem committed_eq_nil_iff {vs : List Visit} : committed vs = [] ↔ ¬ ∃ v ∈ vs, IsCommit v := by
  unfold committed
  rw [List.rdropWhile_eq_nil_iff]
  simp

/-- Both later passes have visited what the scan has visited up to its last commit block. -/
def PassesAgree (w : World) : Prop :=
  visits .scanRevoke w = committed (visits .scan w) ∧
    visits .replay w = committed (visits .scan w)

/-- A recovery whose scan ends normally visits nothing past it. -/
theorem passesAgree_of_scan {client : ℤ → Block} {n : ℕ} {q : Pass}
    (hscan : jbd2ReplayOnePass env h .scan (World.init client) n = .done .success q) :
    ∃ N w', jbd2ReplayJournal env h (World.init client) N = .done .success w' ∧
      (PassesAgree w' ↔ ¬ ReachesCommit env.log env.chksum h) := by
  obtain ⟨m, s, hw, hend, hvisits, hother, -⟩ := scan_success hscan
  obtain ⟨N, hN⟩ := recovery_of_scan_done hscan
  have hlater : ∀ phase, phase ≠ .scan → visits phase q.world = [] := hother
  refine ⟨N, _, hN, ?_⟩
  rw [← exists_commit_iff hw (logStep_none hend), ← committed_eq_nil_iff]
  have hcut : committed (visits .scan q.world) =
      committed (walkVisits env.log env.chksum h .scan (startPos h) m) := by
    rw [hvisits]
    rfl
  rw [← hcut]
  constructor
  · rintro ⟨h1, -⟩
    exact h1.symm.trans (hlater .scanRevoke (by decide))
  · intro hnil
    exact ⟨(hlater .scanRevoke (by decide)).trans hnil.symm,
      (hlater .replay (by decide)).trans hnil.symm⟩

/-- **When the scan ends normally, the later passes walk the committed transactions exactly when
there are none**: the scan reaches no commit block that verifies. -/
theorem laterPasses_iff {client : ℤ → Block} {n : ℕ} {q : Pass}
    (hscan : jbd2ReplayOnePass env h .scan (World.init client) n = .done .success q) :
    (∀ N st w', jbd2ReplayJournal env h (World.init client) N = .done st w' → PassesAgree w') ↔
      ¬ ReachesCommit env.log env.chksum h := by
  obtain ⟨N, w', hN, hagree⟩ := passesAgree_of_scan hscan
  rw [← hagree]
  constructor
  · intro hall
    exact hall N _ _ hN
  · intro hw' N' st w'' hN'
    rw [(recovery_done_unique hN' hN).2]
    exact hw'

/-! ### A log with one commit block -/

/-- While nothing fails, the scan succeeds where the log ends. -/
theorem scan_succeeds (hr : ReadsFrom env.oracle w) (hw : WritesFrom env.oracle w) {n : ℕ} {s : Pos}
    (hwalk : walk (logStep env.log env.chksum h .scan) n (startPos h) = some s)
    (hl : logNext env.log env.chksum h .scan s = .error .success) :
    ∃ N q, jbd2ReplayOnePass env h .scan w N = .done .success q := by
  obtain ⟨q, hq, rfl, hre⟩ := passRun_of_walk (p := passStart h .scan w) hr hw
    (tidy_passStart _ _) nofun n s hwalk
  have hqph : q.phase = .scan := hre.phase
  rw [← hqph] at hl
  obtain ⟨q', hq'⟩ := passStep_stops (hr.mono hre.pinReads) (hw.mono hre.pinWrites) hre.tidy
    (by rw [hqph]; decide) hl
  refine ⟨n + 1, q', ?_⟩
  unfold jbd2ReplayOnePass
  rw [passRun_succ, hq]
  exact hq'

/-- The commit block of the transaction 1, and nothing else. -/
def oneCommit : ℤ → Block := fun b => if b = 1 then headerBlock 2 1 else fun _ => 0

theorem oneCommit_log : startPos (smallJournal 1) = (1, 1) ∧
    logStep oneCommit (fun _ _ _ => 0) (smallJournal 1) .scan (1, 1) = some (2, 2) ∧
    jbd2VerifyMetadataBlock (oneCommit 2) = false ∧
    CommitOf (fun _ _ _ => 0) (smallJournal 1) (oneCommit 1) 1 := by decide +kernel

theorem oneCommit_scan (w : World) : ∃ N q,
    jbd2ReplayOnePass ⟨oneCommit, fun _ _ _ => 0, noEntries⟩ (smallJournal 1) .scan w N =
      .done .success q := by
  obtain ⟨hstart, hstep, hbad, -⟩ := oneCommit_log
  exact @scan_succeeds ⟨oneCommit, fun _ _ _ => 0, noEntries⟩ (smallJournal 1) w (fun _ _ => rfl)
    (fun _ _ => rfl) 1 (2, 2) (by rw [walk_one, hstart]; exact hstep)
    (logNext_stop (.inl rfl) hbad)

theorem oneCommit_reached : ReachesCommit oneCommit (fun _ _ _ => 0) (smallJournal 1) := by
  obtain ⟨hstart, -, -, hcommit⟩ := oneCommit_log
  exact ⟨0, 1, 1, by rw [walk_zero, hstart], hcommit⟩

theorem laterPasses_oneCommit : ∃ n q,
    jbd2ReplayOnePass ⟨oneCommit, fun _ _ _ => 0, noEntries⟩ (smallJournal 1) .scan
      (World.init fun _ _ => 0) n = .done .success q ∧
    ((∀ N st w', jbd2ReplayJournal ⟨oneCommit, fun _ _ _ => 0, noEntries⟩ (smallJournal 1)
      (World.init fun _ _ => 0) N = .done st w' → PassesAgree w') ↔
      ¬ ReachesCommit oneCommit (fun _ _ _ => 0) (smallJournal 1)) := by
  obtain ⟨n, q, hq⟩ := oneCommit_scan (World.init fun _ _ => 0)
  exact ⟨n, q, hq, laterPasses_iff hq⟩

/-- The commit block is visited by the scan alone. -/
theorem laterPasses_differ :
    ¬ ∀ (env : Env) (h : Jbd2Handle) (client : ℤ → Block) (n : ℕ) (q : Pass),
      jbd2ReplayOnePass env h .scan (World.init client) n = .done .success q →
      ∀ N st w', jbd2ReplayJournal env h (World.init client) N = .done st w' → PassesAgree w' := by
  intro hall
  obtain ⟨n, q, hq⟩ := oneCommit_scan (World.init fun _ _ => 0)
  obtain ⟨N, w', hN, hagree⟩ := passesAgree_of_scan hq
  exact hagree.mp (hall _ _ _ n q hq N _ w' hN) oneCommit_reached

end Ext4Fsd.Journal.Passes
