import Ext4Fsd.Journal.ScanReads

/-! # Failures of the first two passes

A failure of the scan does not stop the recovery: it goes on with the next pass, and returns what
the last pass made returns. With `s_sequence ≠ 0` the second pass stops at its guard with success,
so that every failure of the scan is lost, and a scan that succeeds is not followed by a replay. The
recovery does what it should when the log and the refused reads let the scan come through and there
is no transaction to find, and with `s_sequence ≠ 0` only then (`failedPassStops`). -/

namespace Ext4Fsd.Journal.EarlyFailure

open Ext4Fsd.Lib.CInt Ext4Fsd.Lib.Walk
open Ext4Fsd.Journal.Format Ext4Fsd.Journal.Tags Ext4Fsd.Journal.Recovery Ext4Fsd.Journal.Effects
open Ext4Fsd.Journal.Turns Ext4Fsd.Journal.Runs Ext4Fsd.Journal.Termination Ext4Fsd.Journal.Visits
open Ext4Fsd.Journal.LogChain Ext4Fsd.Journal.Passes Ext4Fsd.Journal.ScanReads

variable (env : Env) (h : Jbd2Handle)

/-! ### The property -/

/-- A failure is raised in the turn from `p` of one of the first two passes. -/
inductive RaisesFailure (p : Pass) : Prop
  /-- The block cannot be read. -/
  | read (hb : ¬ Beyond p) (hread : env.oracle.pinRead p.world.pinReads = false)
  /-- A data block of a descriptor block cannot be read or has another checksum. -/
  | csum (hph : p.phase = .scan) (hread : env.oracle.pinRead p.world.pinReads = true)
      (hd : DescrOf env.chksum h (env.log p.currBlocknr) p.currTid)
      (hfail : (jbd2BlocksCsumVerify env h p.currBlocknr (env.log p.currBlocknr)
        (ccPinRead env p.world p.currBlocknr).2).1.ntSuccess = false)
  /-- The entries of a revoke block cannot be taken over. -/
  | revoke (hph : p.phase = .scanRevoke) (hb : ¬ Beyond p)
      (hread : env.oracle.pinRead p.world.pinReads = true)
      (hr : RevokeOf env.chksum h (env.log p.currBlocknr) p.currTid)
      (hfail : (jbd2ScanRevokeEntries env h p.currTid (env.log p.currBlocknr)
        (ccPinRead env p.world p.currBlocknr).2).1 ≠ some .success)

/-- No client block has been written. -/
def NoWrite (w : World) : Prop := ∀ tid descr nr fs, Event.write tid descr nr fs ∉ w.events

/-- **A failed early pass stops the recovery, and only that**: after a failure it returns a failure
and has written nothing, and when the first two passes succeed, the scan having found a
transaction, the replay pass is run and gives the result. -/
structure FailedPassStops (client : ℤ → Block) : Prop where
  failure : ∀ m p, jbd2ReplayJournal env h (World.init client) m = .pass p → p.phase ≠ .replay →
    RaisesFailure env h p →
    ∃ n st w', jbd2ReplayJournal env h (World.init client) n = .done st w' ∧
      st.ntSuccess = false ∧ NoWrite w'
  replayed : ∀ m p n q, jbd2ReplayOnePass env h .scan (World.init client) m = .done .success p →
    p.info.riHasTxn = true → jbd2ReplayOnePass env h .scanRevoke p.world n = .done .success q →
    ∃ k, jbd2ReplayJournal env h (World.init client) k = .pass (passStart h .replay q.world) ∧
      ∀ l st w', jbd2ReplayJournal env h (World.init client) l = .done st w' →
        ∃ i r, jbd2ReplayOnePass env h .replay q.world i = .done st r

/-! ### When it holds -/

/-- **Nothing fails where the scan comes**: no read is refused, and no data checksum is wrong. -/
def ScanClean : Prop := ∀ n s, ScanAt env.log env.chksum h n s → TurnClean env h n s

/-- **There is nothing to lose**: the scan comes through and, if the log lets it end, comes to no
commit block. -/
structure NothingLost : Prop where
  clean : ScanClean env h
  commits : EndsOnLog env.log env.chksum h .scan → ¬ ReachesCommit env.log env.chksum h

variable {env h}

/-! ### Failures of the scan -/

/-- A turn of the scan raises a failure. -/
def ScanRaises (env : Env) (h : Jbd2Handle) (client : ℤ → Block) : Prop :=
  ∃ m p, jbd2ReplayOnePass env h .scan (World.init client) m = .next p ∧ RaisesFailure env h p

/-- A turn of the scan raises a failure where the reads or the checksums of its position do. -/
theorem raisesFailure_iff {p : Pass} (hph : p.phase = .scan) :
    RaisesFailure env h p ↔ ¬ TurnClean env h p.world.pinReads (pos p) := by
  have hverify := (@csumVerify_reads_iff env h p.currBlocknr
    (ccPinRead env p.world p.currBlocknr).2 _ rfl).1
  constructor
  · rintro (⟨-, hread⟩ | ⟨-, -, hd, hfail⟩ | ⟨hph', -⟩) hclean
    · rw [hclean.read] at hread
      cases hread
    · rw [hverify.mpr ⟨hclean.csums hd, hclean.data hd⟩] at hfail
      cases hfail
    · rw [hph] at hph'
      cases hph'
  · intro hclean
    by_cases hread : env.oracle.pinRead p.world.pinReads = true
    swap
    · exact .read (fun hb => hb.1 hph) (by simpa using hread)
    have hd : DescrOf env.chksum h (env.log p.currBlocknr) p.currTid := by
      by_contra hd
      exact hclean ⟨hread, fun hd' => absurd hd' hd, fun hd' => absurd hd' hd⟩
    refine .csum hph hread hd ?_
    rw [← Bool.not_eq_true, hverify]
    exact fun hboth => hclean ⟨hread, fun _ => hboth.2, fun _ => hboth.1⟩

/-- A failure raised by the scan ends the scan with it. -/
theorem scan_stops_of_raises {p : Pass} (hph : p.phase = .scan) (hr : RaisesFailure env h p) :
    ∃ st p', passStep env h p = .done st p' ∧ st.ntSuccess = false := by
  rw [passStep_scan hph]
  cases hr with
  | read hb hread =>
    rw [if_neg (by simp [hread])]
    exact ⟨_, _, rfl, rfl⟩
  | csum _ hread hd hfail =>
    rw [if_pos hread]
    unfold blockTurn descrArm
    rw [if_neg (by simp [hd.header, hd.sequence]), if_pos hd.type, if_neg (by simp [hd.csum])]
    dsimp only
    rw [hph]
    unfold checkedNext
    dsimp only
    rw [if_pos (by simp [hfail])]
    exact ⟨_, _, rfl, hfail⟩
  | revoke hph' => rw [hph] at hph'; cases hph'

/-- The scan ends with a failure only where one is raised. -/
theorem raises_of_scan_fails {p p' : Pass} {st : NtStatus} (hph : p.phase = .scan)
    (hs : passStep env h p = .done st p') (hst : st.ntSuccess = false) : RaisesFailure env h p := by
  by_cases hread : env.oracle.pinRead p.world.pinReads = true
  · rw [passStep_scan hph, if_pos hread] at hs
    unfold blockTurn at hs
    dsimp only at hs
    rw [hph] at hs
    split_ifs at hs with hh hd hc hr
    · rw [Turn.done.injEq] at hs
      rw [← hs.1] at hst
      cases hst
    · unfold descrArm at hs
      split_ifs at hs with hv
      · rw [Turn.done.injEq] at hs
        rw [← hs.1] at hst
        cases hst
      · dsimp only at hs
        unfold checkedNext at hs
        dsimp only at hs
        split_ifs at hs with hfail
        rw [Bool.or_eq_true, not_or] at hh
        exact .csum hph hread ⟨⟨by simpa using hh.1, by simpa using hh.2, hd⟩, by simpa using hv⟩
          (by simpa using hfail)
    · unfold commitArm at hs
      split_ifs at hs
      rw [Turn.done.injEq] at hs
      rw [← hs.1] at hst
      cases hst
    · unfold revokeArm at hs
      dsimp only at hs
      split_ifs at hs
      rw [Turn.done.injEq] at hs
      rw [← hs.1] at hst
      cases hst
  · exact .read (fun hb => hb.1 hph) (by simpa using hread)

/-- A turn that ends the scan ends it with success or has raised a failure. -/
theorem scan_done_cases {p p' : Pass} {st : NtStatus} (hph : p.phase = .scan)
    (hs : passStep env h p = .done st p') : st = .success ∨ RaisesFailure env h p := by
  by_cases hst : st.ntSuccess = true
  · exact .inl (ntSuccess_iff.mp hst)
  · exact .inr (raises_of_scan_fails hph hs (by simpa using hst))

/-- A scan without a failure comes to every position that it can come to by the log. -/
theorem run_of_scanAt {client : ℤ → Block} (hno : ¬ ScanRaises env h client) {n : ℕ} {s : Pos}
    (hat : ScanAt env.log env.chksum h n s) : ∃ m p,
    jbd2ReplayOnePass env h .scan (World.init client) m = .next p ∧ p.world.pinReads = n ∧
      pos p = s := by
  induction hat with
  | start => exact ⟨0, _, rfl, rfl, rfl⟩
  | @next n s t _ hst ih =>
    obtain ⟨m, p, hp, rfl, rfl⟩ := ih
    obtain ⟨hph, ht, -⟩ := scanAt_of_run m p hp
    cases hs : passStep env h p with
    | next q =>
      obtain ⟨hl, -, -⟩ := passStep_next ht hs
      refine ⟨m + 1, q, ?_, turn_reads hph hs, ?_⟩
      · unfold jbd2ReplayOnePass at hp ⊢
        rw [passRun_succ, hp]
        exact hs
      · unfold logStep at hst
        rw [← hph, hl] at hst
        exact Option.some.inj hst
    | done st q =>
      rcases scan_done_cases hph hs with rfl | hraise
      · rw [logStep_none (logNext_of_scan_success hph hs)] at hst
        cases hst
      · exact absurd ⟨m, p, hp, hraise⟩ hno
    | fault q => exact absurd hs (scan_no_fault hph ht)

/-- **The scan raises a failure exactly when something fails where it comes by the log.** -/
theorem scanRaises_iff {client : ℤ → Block} : ScanRaises env h client ↔ ¬ ScanClean env h := by
  constructor
  · rintro ⟨m, p, hp, hr⟩ hclean
    obtain ⟨hph, -, hat⟩ := scanAt_of_run m p hp
    exact (raisesFailure_iff hph).mp hr (hclean _ _ hat)
  · intro hclean
    by_contra hno
    refine hclean fun n s hat => ?_
    obtain ⟨m, p, hp, rfl, rfl⟩ := run_of_scanAt hno hat
    by_contra hturn
    exact hno ⟨m, p, hp, (raisesFailure_iff (scanAt_of_run m p hp).1).mpr hturn⟩

/-- A scan without a failure succeeds exactly on the logs that let it end. -/
theorem scan_succeeds_iff {client : ℤ → Block} (hno : ¬ ScanRaises env h client) :
    (∃ m p, jbd2ReplayOnePass env h .scan (World.init client) m = .done .success p) ↔
      EndsOnLog env.log env.chksum h .scan := by
  rw [← stops_iff]
  constructor
  · rintro ⟨m, p, hp⟩
    obtain ⟨k, s, hw, hend, -⟩ := scan_success hp
    refine ⟨k + 1, ?_⟩
    rw [walk_succ, hw]
    exact logStep_none hend
  · intro hstops
    obtain ⟨m, hm⟩ := pass_ends_of_stops env.oracle (World.init client) hstops
    cases hrun : jbd2ReplayOnePass env h .scan (World.init client) m with
    | next p => exact absurd hrun (hm p)
    | done st p =>
      obtain ⟨i, q, hq, hs⟩ := passRun_done m hrun
      rcases scan_done_cases (scanAt_of_run i q hq).1 hs with rfl | hraise
      · exact ⟨m, p, hrun⟩
      · exact absurd ⟨i, q, hq, hraise⟩ hno
    | fault p => exact absurd hrun (scan_run_no_fault m p)

/-! ### Passes of a recovery -/

variable {w : World}

theorem onePass_done {phase : Phase} {w : World} {n : ℕ} {q q' : Pass} {st : NtStatus}
    (hq : passRun env h (passStart h phase w) n = .next q) (hs : passStep env h q = .done st q') :
    jbd2ReplayOnePass env h phase w (n + 1) = .done st q' := by
  unfold jbd2ReplayOnePass
  rw [passRun_succ, hq]
  exact hs

/-- A pass of a recovery that is done leads on as its status says. -/
theorem recovery_onePass {m n : ℕ} {phase : Phase} {w₁ : World} {st : NtStatus} {q : Pass}
    (hp : jbd2ReplayJournal env h w m = .pass (passStart h phase w₁))
    (hq : jbd2ReplayOnePass env h phase w₁ n = .done st q) :
    ∃ k, jbd2ReplayJournal env h w k = afterPass h phase st q.world := by
  obtain ⟨i, q', hq', hs⟩ := passRun_done n hq
  exact ⟨m + i + 1, recovery_passEnd hp hq' hs⟩

/-- The scan of a recovery is a pass of its own, and the second pass starts when it has failed. -/
theorem recovery_scan : ∀ m p, jbd2ReplayJournal env h w m = .pass p →
    (p.phase = .scan → jbd2ReplayOnePass env h .scan w m = .next p) ∧
      (p.phase ≠ .scan → ∃ n st q, jbd2ReplayOnePass env h .scan w n = .done st q ∧
        st.nonzero = true) := by
  intro m
  induction m with
  | zero => intro p hp; cases hp; exact ⟨fun _ => rfl, fun hne => absurd rfl hne⟩
  | succ m ih =>
    intro q hq
    rw [jbd2ReplayJournal_succ] at hq
    obtain ⟨p, hp, hs | ⟨st, p', phase, hs, hst, hph, rfl⟩⟩ := recoveryStep_pass hq
    · obtain ⟨h1, h2⟩ := ih p hp
      have hphase := @passStep_phase env h p
      rw [hs] at hphase
      have hqp : q.phase = p.phase := hphase
      refine ⟨fun hq => ?_, fun hq => h2 (hqp ▸ hq)⟩
      unfold jbd2ReplayOnePass at h1 ⊢
      rw [passRun_succ, h1 (hqp ▸ hq)]
      exact hs
    · obtain ⟨h1, h2⟩ := ih p hp
      have hne : (passStart h phase p'.world).phase ≠ .scan := by
        intro hsc
        have hph' : p.phase.next = some .scan := by rw [hph, ← hsc]; rfl
        cases hp : p.phase <;> rw [hp] at hph' <;> cases hph'
      refine ⟨fun hsc => absurd hsc hne, fun _ => ?_⟩
      by_cases hsc : p.phase = .scan
      · exact ⟨m + 1, st, p', onePass_done (h1 hsc) hs, hst⟩
      · exact h2 hsc

/-- A failure raised before the replay pass is, or follows, one of the scan. -/
theorem scanRaises_of_raises {client : ℤ → Block} {m : ℕ} {p : Pass}
    (hp : jbd2ReplayJournal env h (World.init client) m = .pass p) (hr : RaisesFailure env h p) :
    ScanRaises env h client := by
  obtain ⟨h1, h2⟩ := recovery_scan m p hp
  by_cases hsc : p.phase = .scan
  · exact ⟨m, p, h1 hsc, hr⟩
  · obtain ⟨n, st, q, hq, hst⟩ := h2 hsc
    obtain ⟨i, q', hq', hs⟩ := passRun_done n hq
    have hphase := @passRun_phase env h (passStart h .scan (World.init client)) i
    rw [hq'] at hphase
    exact ⟨i, q', hq', raises_of_scan_fails hphase hs (nonzero_iff.mp hst)⟩

/-- A scan that raises a failure ends with it. -/
theorem scan_fails_of_raises {client : ℤ → Block} (hr : ScanRaises env h client) :
    ∃ n st q, jbd2ReplayOnePass env h .scan (World.init client) n = .done st q ∧
      st.ntSuccess = false := by
  obtain ⟨m, p, hp, hraise⟩ := hr
  have hphase := @passRun_phase env h (passStart h .scan (World.init client)) m
  rw [show passRun env h (passStart h .scan (World.init client)) m = .next p from hp] at hphase
  obtain ⟨st, p', hs, hst⟩ := scan_stops_of_raises hphase hraise
  exact ⟨m + 1, st, p', onePass_done hp hs, hst⟩

/-- With `s_sequence ≠ 0` the second pass stops at its guard, with success. -/
theorem scanRevoke_succeeds (h0 : sSequence h.jhSb ≠ 0) (w : World) :
    jbd2ReplayOnePass env h .scanRevoke w 1 = .done .success (passStart h .scanRevoke w) := by
  have hb : Beyond (passStart h .scanRevoke w) := by
    refine ⟨by rw [passStart_phase]; decide, ?_⟩
    rw [jbd2TidCmp_pos_iff]
    intro hz
    have hz' : toU32 (sSequence h.jhSb - 0) = 0 := hz
    rw [sub_zero] at hz'
    exact h0 (eq_zero_of_toU32 ⟨_, rfl⟩ hz')
  exact onePass_done (n := 0) rfl (passStep_of_beyond env h hb)

theorem onePass_unique {phase : Phase} {m n : ℕ} {st st' : NtStatus} {q q' : Pass}
    (hm : jbd2ReplayOnePass env h phase w m = .done st q)
    (hn : jbd2ReplayOnePass env h phase w n = .done st' q') : st = st' ∧ q = q' := by
  have hstays : ∀ {i : ℕ} {s : NtStatus} {p : Pass},
      jbd2ReplayOnePass env h phase w i = .done s p →
      ∀ k, jbd2ReplayOnePass env h phase w (i + k) = .done s p := by
    intro i s p hi k
    induction k with
    | zero => exact hi
    | succ k ih =>
      unfold jbd2ReplayOnePass at ih ⊢
      rw [← Nat.add_assoc, passRun_succ, ih]
      rfl
  have h1 := hstays hm n
  have h2 := hstays hn m
  rw [Nat.add_comm, h1] at h2
  cases h2
  exact ⟨rfl, rfl⟩

/-! ### The condition -/

/-- After a scan that fails, the second pass is made. -/
theorem recovery_of_scan_fails {m : ℕ} {st : NtStatus} {p : Pass}
    (hp : jbd2ReplayOnePass env h .scan w m = .done st p) (hst : st.ntSuccess = false) :
    ∃ k, jbd2ReplayJournal env h w k = .pass (passStart h .scanRevoke p.world) := by
  obtain ⟨k, hk⟩ := recovery_onePass (m := 0) rfl hp
  refine ⟨k, hk.trans ?_⟩
  unfold afterPass
  rw [nonzero_iff.mpr hst]
  rfl

/-- What the second pass leads to. -/
theorem recovery_of_scanRevoke {m n : ℕ} {w₁ : World} {st : NtStatus} {q : Pass}
    (hp : jbd2ReplayJournal env h w m = .pass (passStart h .scanRevoke w₁))
    (hq : jbd2ReplayOnePass env h .scanRevoke w₁ n = .done st q) :
    ∃ k, jbd2ReplayJournal env h w k = if st.ntSuccess then
      .done st (jbd2RevokeTableClear q.world) else .pass (passStart h .replay q.world) := by
  obtain ⟨k, hk⟩ := recovery_onePass hp hq
  refine ⟨k, hk.trans ?_⟩
  cases st <;> rfl

/-- **With `s_sequence ≠ 0` a recovery whose scan fails returns success.** -/
theorem failure_lost {client : ℤ → Block} (h0 : sSequence h.jhSb ≠ 0)
    (hr : ScanRaises env h client) :
    ∃ N w', jbd2ReplayJournal env h (World.init client) N = .done .success w' := by
  obtain ⟨n, st, q, hq, hst⟩ := scan_fails_of_raises hr
  obtain ⟨i, hi⟩ := recovery_of_scan_fails hq hst
  obtain ⟨j, hj⟩ := recovery_of_scanRevoke hi (scanRevoke_succeeds h0 q.world)
  rw [if_pos (show NtStatus.success.ntSuccess = true from rfl)] at hj
  exact ⟨j, _, hj⟩

/-- Where there is nothing to lose, a failed early pass stops the recovery. -/
theorem failedPassStops_of_nothingLost {client : ℤ → Block} (hn : NothingLost env h) :
    FailedPassStops env h client := by
  have hno : ¬ ScanRaises env h client := fun hr => scanRaises_iff.mp hr hn.clean
  refine ⟨fun m p hm _ hraise => absurd (scanRaises_of_raises hm hraise) hno, ?_⟩
  intro m p _ _ hscan htxn
  have hends := (scan_succeeds_iff hno).mp ⟨m, p, hscan⟩
  exact absurd ((scan_hasTxn_iff hscan).mp htxn) (hn.commits hends)

/-- With `s_sequence ≠ 0` no failure of the scan stops it. -/
theorem not_scanRaises_of_failedPassStops {client : ℤ → Block} (h0 : sSequence h.jhSb ≠ 0)
    (hp : FailedPassStops env h client) : ¬ ScanRaises env h client := by
  rintro ⟨m, p, hm, hraise⟩
  have hphase : p.phase ≠ .replay := by
    rw [(scanAt_of_run m p hm).1]
    decide
  obtain ⟨N, st, w', hN, hst, -⟩ :=
    hp.failure _ p (jbd2ReplayJournal_add (m := 0) rfl m p hm) hphase hraise
  obtain ⟨j, w'', hj⟩ := failure_lost h0 ⟨m, p, hm, hraise⟩
  rw [(recovery_done_unique hN hj).1] at hst
  cases hst

/-- With `s_sequence ≠ 0` it does so only there. -/
theorem nothingLost_of_failedPassStops {client : ℤ → Block} (h0 : sSequence h.jhSb ≠ 0)
    (hp : FailedPassStops env h client) : NothingLost env h := by
  have hno := not_scanRaises_of_failedPassStops h0 hp
  refine ⟨not_not.mp (mt scanRaises_iff.mpr hno), fun hends hc => ?_⟩
  obtain ⟨m, p, hscan⟩ := (scan_succeeds_iff hno).mpr hends
  obtain ⟨k, hk, -⟩ := hp.replayed m p 1 _ hscan ((scan_hasTxn_iff hscan).mpr hc)
    (scanRevoke_succeeds h0 p.world)
  obtain ⟨n', st', q', hq', hst'⟩ := (recovery_scan k _ hk).2 (by rw [passStart_phase]; decide)
  rw [(onePass_unique hq' hscan).1] at hst'
  cases hst'

/-- **A failed early pass stops the recovery, and only that, if there is nothing to lose**; with
`s_sequence ≠ 0`, where the second pass does nothing, if and only if there is not. -/
theorem failedPassStops (env : Env) (h : Jbd2Handle) (client : ℤ → Block) :
    (NothingLost env h → FailedPassStops env h client) ∧
      (sSequence h.jhSb ≠ 0 → (FailedPassStops env h client ↔ NothingLost env h)) :=
  ⟨failedPassStops_of_nothingLost, fun h0 =>
    ⟨nothingLost_of_failedPassStops h0, failedPassStops_of_nothingLost⟩⟩

/-- A descriptor block of the transaction 1 with one tag, and no commit block. -/
def openTxn : ℤ → Block := fun b =>
  if b = 1 then putBe32 (putBe32 (headerBlock 1 1) 12 5) 16 0xa else fun _ => 0

theorem openTxn_log : startPos (smallJournal 1) = (1, 1) ∧
    logStep openTxn (fun _ _ _ => 0) (smallJournal 1) .scan (1, 1) = some (2, 1) ∧
    logStep openTxn (fun _ _ _ => 0) (smallJournal 1) .scan (2, 1) = none ∧
    hBlocktype (openTxn 1) = jbd2DescriptorBlock ∧ jbd2VerifyMetadataBlock (openTxn 2) = false ∧
    jbd2HasCsumV2or3 (smallJournal 1).jhSb = false := by decide +kernel

/-- The scan goes on behind the descriptor block, and stops there. -/
theorem openTxn_step {s t : Pos} (hs : s = (1, 1) ∨ s = (2, 1))
    (hst : logStep openTxn (fun _ _ _ => 0) (smallJournal 1) .scan s = some t) :
    t = (1, 1) ∨ t = (2, 1) := by
  obtain ⟨-, h1, h2, -⟩ := openTxn_log
  rcases hs with rfl | rfl
  · rw [h1, Option.some_inj] at hst
    exact .inr hst.symm
  · rw [h2] at hst
    cases hst

theorem openTxn_nothingLost :
    NothingLost ⟨openTxn, fun _ _ _ => 0, noEntries⟩ (smallJournal 1) := by
  obtain ⟨h0, -, -, htype, hbad, hcsum⟩ := openTxn_log
  refine ⟨fun n s _ => ⟨rfl, fun _ _ _ => rfl, fun _ => ?_⟩, ?_⟩
  · unfold dataCsumStatus
    rw [if_pos (by rw [hcsum]; rfl)]
    rfl
  · rintro - ⟨i, b, tid, hi, hc⟩
    have hpos := walk_invariant (P := fun s => s = (1, 1) ∨ s = (2, 1)) (.inl h0)
      (fun s t hs hst => openTxn_step hs hst) i _ hi
    rcases hpos with hpos | hpos <;> cases hpos
    · exact absurd (htype.symm.trans hc.type) (by decide)
    · exact absurd (hbad.symm.trans hc.header) (by decide)

/-- Nothing is refused, and the transaction is not complete. -/
theorem failedPassStops_openTxn :
    FailedPassStops ⟨openTxn, fun _ _ _ => 0, noEntries⟩ (smallJournal 1) (fun _ _ => 0) :=
  (failedPassStops _ _ _).1 openTxn_nothingLost

/-- The first read fails, and the recovery returns success. -/
theorem firstRead_lost :
    ¬ ∀ (env : Env) (h : Jbd2Handle) (client : ℤ → Block), FailedPassStops env h client := by
  intro hall
  have h1 : sSequence (smallJournal 1).jhSb ≠ 0 := by decide +kernel
  have hraise : RaisesFailure ⟨fun _ _ => 0, fun _ _ _ => 0, failTwice⟩ (smallJournal 1)
      (passStart (smallJournal 1) .scan (World.init fun _ _ => 0)) :=
    .read (fun hb => hb.1 rfl) rfl
  obtain ⟨n, st, w', hn, hst, -⟩ := (hall ⟨fun _ _ => 0, fun _ _ _ => 0, failTwice⟩
    (smallJournal 1) fun _ _ => 0).failure 0 _ rfl (by rw [passStart_phase]; decide) hraise
  obtain ⟨N, w'', hN⟩ := failure_lost h1 ⟨0, _, rfl, hraise⟩
  rw [(recovery_done_unique hn hN).1] at hst
  cases hst

end Ext4Fsd.Journal.EarlyFailure
