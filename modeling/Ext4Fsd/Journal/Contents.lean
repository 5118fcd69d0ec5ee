import Ext4Fsd.Journal.Transactions
import Ext4Fsd.Journal.Termination

/-! # What a recovery that succeeds leaves

A recovery goes on to its replay pass only after two passes that have failed, and the replay pass
then stops where the second one has stopped, with the same failure: as long as the cache manager
does not fail, a recovery that returns success has not written a block
(`client_of_success`). It leaves the client with the contents the log calls for exactly when the
client had them before (`recovery_correct_iff`). -/

namespace Ext4Fsd.Journal.Contents

open Ext4Fsd.Lib.CInt Ext4Fsd.Lib.Walk
open Ext4Fsd.Journal.Format Ext4Fsd.Journal.Tags Ext4Fsd.Journal.Recovery Ext4Fsd.Journal.Effects
open Ext4Fsd.Journal.Turns Ext4Fsd.Journal.Runs Ext4Fsd.Journal.Termination
open Ext4Fsd.Journal.Transactions

variable {log : ℤ → Block} {chksum : Chksum} {h : Jbd2Handle}

/-! ### The second and the third pass -/

/-- The second and the third pass follow the same walk. -/
theorem logNext_replay (s : Pos) :
    logNext log chksum h .replay s = logNext log chksum h .scanRevoke s := by
  unfold logNext logBlock logDescr logCommit logRevoke stopStatus
  simp

/-- The walk of the second pass stops with a status other than success. -/
def RevokeScanFails (log : ℤ → Block) (chksum : Chksum) (h : Jbd2Handle) : Prop :=
  ∃ m s e, walk (logStep log chksum h .scanRevoke) m (startPos h) = some s ∧
    logNext log chksum h .scanRevoke s = .error e ∧ e.nonzero = true

/-- The replay pass stops as the second pass did. -/
theorem replay_stops_nonzero (hf : RevokeScanFails log chksum h) {n : ℕ} {s : Pos} {e : NtStatus}
    (hw : walk (logStep log chksum h .replay) n (startPos h) = some s)
    (he : logNext log chksum h .replay s = .error e) : e.nonzero = true := by
  obtain ⟨m, s', e', hw', he', hnz⟩ := hf
  have hstep : logStep log chksum h .replay = logStep log chksum h .scanRevoke := by
    funext s
    unfold logStep
    rw [logNext_replay]
  rw [hstep] at hw
  rw [logNext_replay] at he
  have hs := walk_stop_unique hw (logStep_none he) hw' (logStep_none he')
  rw [hs, he'] at he
  cases he
  exact hnz

/-! ### Runs without a failure -/

/-- What holds of the passes of a run: before the replay pass the client is the old one, and the
replay pass is there because the second pass has failed. -/
structure Before (log : ℤ → Block) (chksum : Chksum) (h : Jbd2Handle) (client : ℤ → Block)
    (p : Pass) : Prop where
  tidy : Tidy p
  onWalk : ∃ m, walk (logStep log chksum h p.phase) m (startPos h) = some (pos p)
  client : p.phase ≠ .replay → p.world.client = client
  failed : p.phase = .replay → RevokeScanFails log chksum h

theorem client_of_turn {env : Env} {p : Pass} (hph : p.phase ≠ .replay) :
    (passStep env h p).pass.world.client = p.world.client :=
  (passStep_effect p).client fun hrep => hph hrep.1

theorem before_pass {o : Oracle} (hr : ∀ n, o.pinRead n = true) (hw : ∀ n, o.pinWrite n = true)
    (client : ℤ → Block) : ∀ n p,
    jbd2ReplayJournal ⟨log, chksum, o⟩ h (World.init client) n = .pass p →
    Before log chksum h client p := by
  refine recovery_invariant ⟨tidy_passStart _ _, ⟨0, rfl⟩, fun _ => rfl, nofun⟩ ?_ ?_
  · intro p p' hb hs
    obtain ⟨hl, hphase, htidy⟩ := passStep_next hb.tidy hs
    obtain ⟨m, hm⟩ := hb.onWalk
    refine ⟨htidy, ⟨m + 1, ?_⟩, fun hph => ?_, fun hph => hb.failed (hphase ▸ hph)⟩
    · rw [hphase, walk_succ, hm, Option.bind_some, logStep, hl]
      rfl
    · have hcl := @client_of_turn h ⟨log, chksum, o⟩ p (hphase ▸ hph)
      rw [hs] at hcl
      exact hcl.trans (hb.client (hphase ▸ hph))
  · intro p st p' phase hb hs hst hph
    refine ⟨tidy_passStart _ _, ⟨0, rfl⟩, fun hne => ?_, fun heq => ?_⟩
    · have hnr : p.phase ≠ .replay := by intro hp; rw [hp] at hph; cases hph
      have hcl := @client_of_turn h ⟨log, chksum, o⟩ p hnr
      rw [hs] at hcl
      exact hcl.trans (hb.client hnr)
    · -- only the second pass is followed by the replay pass
      have hsr : p.phase = .scanRevoke := by
        have heq' : phase = .replay := heq
        rw [heq'] at hph
        cases hp : p.phase <;> rw [hp] at hph <;> cases hph
      obtain ⟨m, hm⟩ := hb.onWalk
      have hl := passStep_done (fun n _ => hr n) (fun n _ => hw n) hb.tidy hs
      rw [hsr] at hm hl
      exact ⟨m, pos p, st, hm, hl, hst⟩

/-- **A recovery that meets no failure and returns success leaves the client as it was.** -/
theorem client_of_success {o : Oracle} (hr : ∀ n, o.pinRead n = true)
    (hw : ∀ n, o.pinWrite n = true) {client : ℤ → Block} {n : ℕ} {st : NtStatus} {w' : World}
    (hdone : jbd2ReplayJournal ⟨log, chksum, o⟩ h (World.init client) n = .done st w')
    (hst : st.ntSuccess = true) : w'.client = client := by
  obtain ⟨m, p, p', hp, hs, rfl⟩ := recovery_done n hdone
  have hb := before_pass hr hw client m p hp
  by_cases hph : p.phase = .replay
  · obtain ⟨k, hk⟩ := hb.onWalk
    have hl := passStep_done (fun n _ => hr n) (fun n _ => hw n) hb.tidy hs
    rw [hph] at hk hl
    have hnz := replay_stops_nonzero (hb.failed hph) hk hl
    cases st <;> simp_all [NtStatus.ntSuccess, NtStatus.nonzero]
  · have hcl := @client_of_turn h ⟨log, chksum, o⟩ p hph
    rw [hs] at hcl
    exact hcl.trans (hb.client hph)

/-- **A recovery that meets no failure and returns success leaves the contents the log calls for if
and only if the client had them before**: this holds of the transactions of the log (`LogOf`), and
of any others. -/
theorem recovery_correct_iff {txns : List Transaction}
    {o : Oracle} (hr : ∀ n, o.pinRead n = true) (hw : ∀ n, o.pinWrite n = true)
    {client : ℤ → Block} {n : ℕ} {st : NtStatus} {w' : World}
    (hdone : jbd2ReplayJournal ⟨log, chksum, o⟩ h (World.init client) n = .done st w')
    (hst : st.ntSuccess = true) :
    w'.client = recovered txns client ↔ ∀ b d, survivor txns b = some d → client b = d := by
  rw [client_of_success hr hw hdone hst, eq_comm]
  exact recovered_eq_iff

/-! ### A log with one transaction -/

/-- The data of the transaction. -/
def newData : Block := putBe32 (fun _ => 0) 100 1

/-- A log with the transaction 1: a descriptor block with one tag, for the client block 5, the data
and a commit block. -/
def oneTransaction : ℤ → Block := fun b =>
  if b = 1 then putBe32 (putBe32 (headerBlock 1 1) 12 5) 16 0xa
  else if b = 2 then newData
  else if b = 3 then headerBlock 2 1
  else fun _ => 0

theorem oneTransaction_blocks : DescrOf (fun _ _ _ => 0) (smallJournal 1) (oneTransaction 1) 1 ∧
    CommitOf (fun _ _ _ => 0) (smallJournal 1) (oneTransaction 3) 1 ∧
    jbd2VerifyMetadataBlock (oneTransaction 2) = false ∧
    jbd2VerifyMetadataBlock (oneTransaction 4) = false ∧
    ringNext (smallJournal 1) 3 = 4 := by decide +kernel

theorem oneTransaction_tags : closedTags (smallJournal 1) (oneTransaction 1) = some [12] ∧
    tagBlocknr (smallJournal 1) (oneTransaction 1) 12 = 5 ∧
    jbd2TestFlag (smallJournal 1) (oneTransaction 1) 12 jbd2FlagEscape = false := by
  decide +kernel

/-- The scan takes the data block of the tag for the next metadata block, and stops there. -/
theorem oneTransaction_walk : startPos (smallJournal 1) = (1, 1) ∧
    logStep oneTransaction (fun _ _ _ => 0) (smallJournal 1) .scan (1, 1) = some (2, 1) ∧
    logStep oneTransaction (fun _ _ _ => 0) (smallJournal 1) .scan (2, 1) = none := by
  decide +kernel

theorem oneTransaction_logOf : LogOf oneTransaction (fun _ _ _ => 0) (smallJournal 1)
    (sStart (smallJournal 1).jhSb) (sSequence (smallJournal 1).jhSb)
    [[.descr [(5, newData)]]] := by
  obtain ⟨hd, hc, -, hbad, hnext⟩ := oneTransaction_blocks
  obtain ⟨htags, hblock, hflag⟩ := oneTransaction_tags
  have hdata : [12].mapIdx (tagData oneTransaction (smallJournal 1) 1) = [(5, newData)] := by
    simp [tagData, hblock, hflag, unescape]
    rfl
  rw [smallJournal_start.1, smallJournal_start.2, ← hdata]
  refine .txn (.descr hd htags (.nil 3)) hc (.stop fun t c hitems hcommit => ?_)
  rw [hnext] at hitems
  cases hitems with
  | nil => exact absurd hcommit.header (by rw [hbad]; decide)
  | descr hd' => exact absurd hd'.header (by rw [hbad]; decide)
  | revoke hr' => exact absurd hr'.header (by rw [hbad]; decide)

/-- Recovery returns success on it after the scan has passed the descriptor block. -/
theorem oneTransaction_done (w : World) : ∃ n w',
    jbd2ReplayJournal ⟨oneTransaction, fun _ _ _ => 0, noEntries⟩ (smallJournal 1) w n =
      .done .success w' := by
  obtain ⟨hstart, hstep, -⟩ := oneTransaction_walk
  obtain ⟨-, -, hbad, -⟩ := oneTransaction_blocks
  obtain ⟨w', hw'⟩ := @recovery_of_scan ⟨oneTransaction, fun _ _ _ => 0, noEntries⟩
    (smallJournal 1) w (fun _ _ => rfl) (fun _ _ => rfl) 1 (2, 1)
    (by rw [walk_one, hstart]; exact hstep) (logNext_stop (.inl rfl) hbad)
  exact ⟨_, w', hw'⟩

theorem oneTransaction_survivor :
    survivor [[Item.descr [(5, newData)]]] 5 = some newData := rfl

theorem recovery_correct_oneTransaction :
    LogOf oneTransaction (fun _ _ _ => 0) (smallJournal 1) (sStart (smallJournal 1).jhSb)
      (sSequence (smallJournal 1).jhSb) [[.descr [(5, newData)]]] ∧ ∃ n w',
    jbd2ReplayJournal ⟨oneTransaction, fun _ _ _ => 0, noEntries⟩ (smallJournal 1)
      (World.init fun _ _ => 0) n = .done .success w' ∧
    (w'.client = recovered [[.descr [(5, newData)]]] (fun _ _ => 0) ↔
      ∀ b d, survivor [[.descr [(5, newData)]]] b = some d → (fun _ => 0) = d) := by
  obtain ⟨n, w', hdone⟩ := oneTransaction_done (World.init fun _ _ => 0)
  exact ⟨oneTransaction_logOf, n, w', hdone, recovery_correct_iff (fun _ => rfl) (fun _ => rfl)
    hdone rfl⟩

/-- The transaction is committed and its block is not there afterwards. -/
theorem recovery_not_correct :
    ¬ ∀ (log : ℤ → Block) (chksum : Chksum) (h : Jbd2Handle) (txns : List Transaction)
      (o : Oracle) (client : ℤ → Block) (n : ℕ) (st : NtStatus) (w' : World),
      LogOf log chksum h (sStart h.jhSb) (sSequence h.jhSb) txns →
      (∀ n, o.pinRead n = true) → (∀ n, o.pinWrite n = true) →
      jbd2ReplayJournal ⟨log, chksum, o⟩ h (World.init client) n = .done st w' →
      st.ntSuccess = true → w'.client = recovered txns client := by
  intro hall
  obtain ⟨n, w', hdone⟩ := oneTransaction_done (World.init fun _ _ => 0)
  have hw' := hall _ _ _ _ noEntries _ n _ w' oneTransaction_logOf (fun _ => rfl) (fun _ => rfl)
    hdone rfl
  rw [client_of_success (fun _ => rfl) (fun _ => rfl) hdone rfl] at hw'
  have h5 : (0 : UInt8) = newData 103 := by
    have hb := recovered_eq_iff.mp hw'.symm 5 newData oneTransaction_survivor
    exact congrFun hb 103
  exact absurd h5 (by decide +kernel)

end Ext4Fsd.Journal.Contents
