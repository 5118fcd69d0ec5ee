import Ext4Fsd.Journal.Turns

/-! # Runs of a pass

A pass is a walk along the log: its turns are the steps of `logStep` (`passRun_walk`), and
conversely it follows the walk as long as nothing fails (`passRun_of_walk`). The last section places
the turns of a pass in a run of `jbd2_replay_journal`. -/

namespace Ext4Fsd.Journal.Runs

open Ext4Fsd.Lib.CInt Ext4Fsd.Lib.Walk
open Ext4Fsd.Journal.Format Ext4Fsd.Journal.Tags Ext4Fsd.Journal.Recovery Ext4Fsd.Journal.Effects
open Ext4Fsd.Journal.Turns

variable {env : Env} {h : Jbd2Handle}

theorem passRun_succ (p : Pass) (n : ℕ) :
    passRun env h p (n + 1) = passTurn env h (passRun env h p n) :=
  Function.iterate_succ_apply' _ _ _

/-- A run that is still going was going one turn before. -/
theorem passRun_succ_next {p q : Pass} {n : ℕ} (hn : passRun env h p (n + 1) = .next q) :
    ∃ q', passRun env h p n = .next q' ∧ passStep env h q' = .next q := by
  rw [passRun_succ] at hn
  cases hq : passRun env h p n with
  | next q' => rw [hq] at hn; exact ⟨q', rfl, hn⟩
  | done st q' => rw [hq] at hn; cases hn
  | fault q' => rw [hq] at hn; cases hn

theorem passRun_phase (p : Pass) (n : ℕ) : (passRun env h p n).pass.phase = p.phase := by
  induction n with
  | zero => rfl
  | succ n ih =>
    rw [passRun_succ]
    cases ht : passRun env h p n with
    | next q => rw [ht] at ih; exact (passStep_phase q).trans ih
    | done st q => rw [ht] at ih; exact ih
    | fault q => rw [ht] at ih; exact ih

/-- What holds of the locals `q` at the top of the loop of a pass that has started from `p`. -/
structure Reached (p q : Pass) : Prop where
  phase : q.phase = p.phase
  tidy : Tidy q
  pinReads : p.world.pinReads ≤ q.world.pinReads
  pinWrites : p.world.pinWrites ≤ q.world.pinWrites

theorem Reached.refl {p : Pass} (ht : Tidy p) : Reached p p := ⟨rfl, ht, le_rfl, le_rfl⟩

theorem Reached.next {p q q' : Pass} (hq : Reached p q) (hs : passStep env h q = .next q')
    (hphase : q'.phase = q.phase) (htidy : Tidy q') : Reached p q' := by
  have heff := @passStep_effect env h q
  rw [hs] at heff
  exact ⟨hphase.trans hq.phase, htidy, hq.pinReads.trans heff.pinReads,
    hq.pinWrites.trans heff.pinWrites⟩

/-- A pass walks along the log. -/
theorem passRun_walk {p : Pass} (ht : Tidy p) : ∀ n q,
    passRun env h p n = .next q →
    walk (logStep env.log env.chksum h p.phase) n (pos p) = some (pos q) ∧ Reached p q := by
  intro n
  induction n with
  | zero => intro q hq; cases hq; exact ⟨rfl, .refl ht⟩
  | succ n ih =>
    intro q hq
    obtain ⟨q', hq', hs⟩ := passRun_succ_next hq
    obtain ⟨hw, hre⟩ := ih q' hq'
    obtain ⟨hl, hphase, htidy⟩ := passStep_next hre.tidy hs
    rw [hre.phase] at hl
    refine ⟨?_, hre.next hs hphase htidy⟩
    rw [walk_succ, hw, Option.bind_some, logStep, hl]
    rfl

/-- A pass follows the walk, if nothing fails. -/
theorem passRun_of_walk {p : Pass} (hr : ReadsFrom env.oracle p.world)
    (hw : WritesFrom env.oracle p.world) (ht : Tidy p)
    (ha : p.phase = .scanRevoke → ∀ n, env.oracle.alloc n = false) : ∀ n s,
    walk (logStep env.log env.chksum h p.phase) n (pos p) = some s →
    ∃ q, passRun env h p n = .next q ∧ pos q = s ∧ Reached p q := by
  intro n
  induction n with
  | zero => intro s hs; cases hs; exact ⟨p, rfl, rfl, .refl ht⟩
  | succ n ih =>
    intro s hs
    rw [walk_succ, Option.bind_eq_some_iff] at hs
    obtain ⟨t, hwt, hst⟩ := hs
    obtain ⟨q', hq', rfl, hre⟩ := ih t hwt
    have hl : logNext env.log env.chksum h q'.phase (pos q') = .ok s := by
      unfold logStep at hst
      rw [hre.phase]
      cases hn : logNext env.log env.chksum h p.phase (pos q') with
      | ok t => rw [hn] at hst; cases hst; rfl
      | error e => rw [hn] at hst; cases hst
    obtain ⟨q, hq, hpos, hphase, htidy⟩ := passStep_follows (hr.mono hre.pinReads)
      (hw.mono hre.pinWrites) hre.tidy (fun hph => ha (hre.phase ▸ hph)) hl
    refine ⟨q, ?_, hpos, hre.next hq hphase htidy⟩
    rw [passRun_succ, hq']
    exact hq

/-- The effect of the turns of a pass so far. -/
theorem passRun_effect {E : Event → Prop} {c t : Prop} {p : Pass} : ∀ n q,
    passRun env h p n = .next q →
    (∀ i < n, ∀ q', passRun env h p i = .next q' →
      Effect E c t q'.world (passStep env h q').pass.world) →
    Effect E c t p.world q.world := by
  intro n
  induction n with
  | zero => intro q hq _; cases hq; exact .refl _
  | succ n ih =>
    intro q hq heff
    obtain ⟨q', hq', hs⟩ := passRun_succ_next hq
    have hlast := heff n n.lt_succ_self q' hq'
    rw [hs] at hlast
    exact (ih q' hq' fun i hi => heff i (hi.trans n.lt_succ_self)).trans hlast

/-! ### Passes of a recovery -/

/-- Every pass of a recovery walks along the log from its start. -/
theorem recovery_walk {w : World} : ∀ n p, jbd2ReplayJournal env h w n = .pass p →
    Tidy p ∧ ∃ m, walk (logStep env.log env.chksum h p.phase) m (startPos h) = some (pos p) := by
  refine recovery_invariant ⟨tidy_passStart _ _, 0, rfl⟩ ?_ ?_
  · rintro p p' ⟨ht, m, hm⟩ hs
    obtain ⟨hl, hphase, htidy⟩ := passStep_next ht hs
    refine ⟨htidy, m + 1, ?_⟩
    rw [hphase, walk_succ, hm, Option.bind_some, logStep, hl]
    rfl
  · rintro p st p' phase - - - -
    exact ⟨tidy_passStart _ _, 0, rfl⟩

theorem jbd2ReplayJournal_add {w : World} {m : ℕ} {p : Pass}
    (hp : jbd2ReplayJournal env h w m = .pass p) : ∀ n q, passRun env h p n = .next q →
    jbd2ReplayJournal env h w (m + n) = .pass q := by
  intro n
  induction n with
  | zero => intro q hq; cases hq; exact hp
  | succ n ih =>
    intro q hq
    obtain ⟨q', hq', hs⟩ := passRun_succ_next hq
    rw [← Nat.add_assoc, jbd2ReplayJournal_succ, ih q' hq']
    unfold recoveryStep
    dsimp only
    rw [hs]

/-- How a recovery has come to its end. -/
theorem recovery_done {w w' : World} {st : NtStatus} : ∀ n,
    jbd2ReplayJournal env h w n = .done st w' →
    ∃ m p p', jbd2ReplayJournal env h w m = .pass p ∧ passStep env h p = .done st p' ∧
      w' = jbd2RevokeTableClear p'.world := by
  intro n
  induction n with
  | zero => intro hd; cases hd
  | succ n ih =>
    intro hd
    rw [jbd2ReplayJournal_succ] at hd
    cases hr : jbd2ReplayJournal env h w n with
    | done st' w'' => rw [hr] at hd; exact ih (hr.trans hd)
    | fault w'' => rw [hr] at hd; cases hd
    | pass p =>
      rw [hr] at hd
      unfold recoveryStep at hd
      dsimp only at hd
      cases hp : passStep env h p with
      | next p' => rw [hp] at hd; cases hd
      | fault p' => rw [hp] at hd; cases hd
      | done st' p' =>
        rw [hp] at hd
        dsimp only [afterPass] at hd
        cases hst : st'.nonzero <;> cases hph : p.phase.next <;> rw [hst, hph] at hd <;> cases hd
        all_goals exact ⟨n, p, p', hr, hp, rfl⟩

/-- While nothing fails, a scan that stops with success is the whole recovery. -/
theorem recovery_of_scan {w : World} (hr : ReadsFrom env.oracle w) (hw : WritesFrom env.oracle w)
    {n : ℕ} {s : Pos} (hwalk : walk (logStep env.log env.chksum h .scan) n (startPos h) = some s)
    (hl : logNext env.log env.chksum h .scan s = .error .success) :
    ∃ w', jbd2ReplayJournal env h w (0 + n + 1) = .done .success w' := by
  obtain ⟨q, hq, rfl, hre⟩ := passRun_of_walk (p := passStart h .scan w) hr hw
    (tidy_passStart _ _) nofun n s hwalk
  have hqph : q.phase = .scan := hre.phase
  rw [← hqph] at hl
  obtain ⟨q', hq'⟩ := passStep_stops (hr.mono hre.pinReads) (hw.mono hre.pinWrites) hre.tidy
    (by rw [hqph]; decide) hl
  refine ⟨jbd2RevokeTableClear q'.world, ?_⟩
  rw [jbd2ReplayJournal_succ, jbd2ReplayJournal_add (m := 0) rfl n q hq]
  unfold recoveryStep
  dsimp only
  rw [hq']
  rfl

/-! ### Two scans that fail -/

/-- The first two reads fail, and every allocation. -/
def failTwice : Oracle := ⟨fun n => decide (2 ≤ n), fun _ => true, fun _ => false⟩

/-- A read that fails ends a pass, and the next one starts. -/
theorem recoveryStep_of_read_fails {p : Pass} {phase : Phase} (hb : ¬ Beyond p)
    (hread : env.oracle.pinRead p.world.pinReads = false) (hnext : p.phase.next = some phase) :
    recoveryStep env h (.pass p) =
      .pass (passStart h phase (ccPinRead env p.world p.currBlocknr).2) := by
  unfold recoveryStep
  dsimp only
  rw [passStep_of_not_beyond env h hb, if_neg (by simp [hread])]
  dsimp only [afterPass]
  rw [hnext]
  rfl

/-- The world in which the replay pass then starts. -/
def replayWorld (env : Env) (h : Jbd2Handle) (client : ℤ → Block) : World :=
  (ccPinRead env (ccPinRead env (World.init client) (sStart h.jhSb)).2 (sStart h.jhSb)).2

/-- **With the transaction 0 expected, the replay pass starts after two failed reads.** -/
theorem replay_starts (ho : env.oracle = failTwice) (h0 : sSequence h.jhSb = 0)
    (client : ℤ → Block) : jbd2ReplayJournal env h (World.init client) 2 =
      .pass (passStart h .replay (replayWorld env h client)) := by
  have hb : ∀ w, ¬ Beyond (passStart h .scanRevoke w) := by
    rintro w ⟨-, h2⟩
    rw [jbd2TidCmp_pos_iff] at h2
    dsimp only [passStart] at h2
    rw [h0] at h2
    exact h2 rfl
  have h1 : jbd2ReplayJournal env h (World.init client) 1 =
      .pass (passStart h .scanRevoke (ccPinRead env (World.init client) (sStart h.jhSb)).2) :=
    recoveryStep_of_read_fails (p := passStart h .scan (World.init client)) (fun hb => hb.1 rfl)
      (by rw [ho]; rfl) rfl
  rw [jbd2ReplayJournal_succ, h1]
  exact recoveryStep_of_read_fails (p := passStart h .scanRevoke _) (hb _) (by rw [ho]; rfl) rfl

end Ext4Fsd.Journal.Runs
