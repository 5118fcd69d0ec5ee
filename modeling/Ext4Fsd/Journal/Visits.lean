import Ext4Fsd.Journal.Termination

/-! # The blocks a pass visits

A pass visits a metadata block when it handles it and moves on. The visits of a pass are those of
its walk along the log (`passRun_visits`), and the record the scan makes of the transactions is
read off them (`scan_done`). -/

namespace Ext4Fsd.Journal.Visits

open Ext4Fsd.Lib.CInt Ext4Fsd.Lib.Walk
open Ext4Fsd.Journal.Format Ext4Fsd.Journal.Tags Ext4Fsd.Journal.Recovery Ext4Fsd.Journal.Effects
open Ext4Fsd.Journal.Turns Ext4Fsd.Journal.Runs

/-- A visit of a metadata block: its block number, its type and the transaction. -/
abbrev Visit := ℤ × ℤ × ℤ

def visitOf (phase : Phase) : Event → Option Visit
  | .visit phase' b type tid => if phase' = phase then some (b, type, tid) else none
  | _ => none

/-- The blocks visited by the passes of a phase, the first one first. -/
def visits (phase : Phase) (w : World) : List Visit := w.events.filterMap (visitOf phase)

/-- The visit is one of a commit block. -/
def IsCommit (v : Visit) : Prop := v.2.1 = jbd2CommitBlock

instance (v : Visit) : Decidable (IsCommit v) := by unfold IsCommit; infer_instance

/-- What a pass visits at a position from which it goes on. -/
def visitsAt (log : ℤ → Block) (s : Pos) : List Visit :=
  if hBlocktype (log s.1) = jbd2DescriptorBlock ∨ hBlocktype (log s.1) = jbd2CommitBlock ∨
      hBlocktype (log s.1) = jbd2RevokeBlock then
    [(s.1, hBlocktype (log s.1), s.2)]
  else []

/-- What the scan notes at a visit. -/
def note (i : RecoveryInfo) (v : Visit) : RecoveryInfo :=
  if IsCommit v then { i with riEndTxn := v.2.2, riHasTxn := true } else i

theorem note_commit (i : RecoveryInfo) (b tid : ℤ) :
    note i (b, jbd2CommitBlock, tid) = { i with riEndTxn := tid, riHasTxn := true } := if_pos rfl

theorem note_of_ne (i : RecoveryInfo) (b tid : ℤ) {type : ℤ} (hne : type ≠ jbd2CommitBlock) :
    note i (b, type, tid) = i := if_neg hne

theorem visits_of_effect {E : Event → Prop} {c t : Prop} {w w' : World} (he : Effect E c t w w')
    {phase : Phase} (hE : ∀ e, E e → visitOf phase e = none) :
    visits phase w' = visits phase w := by
  obtain ⟨evs, hevs, hm⟩ := he.events
  have hnone : evs.filterMap (visitOf phase) = [] := by
    rw [List.filterMap_eq_nil_iff]
    exact fun e hmem => hE e (hm e hmem)
  unfold visits
  rw [hevs, List.filterMap_append, hnone, List.append_nil]

variable {env : Env} {h : Jbd2Handle}

/-- What a turn from `p` at a block with the visits `vs` records. -/
inductive TurnVisits (p : Pass) (vs : List Visit) : Turn → Prop
  | next {p' : Pass} (hsame : visits p.phase p'.world = visits p.phase p.world ++ vs)
      (hother : ∀ phase, phase ≠ p.phase → visits phase p'.world = visits phase p.world)
      (hinfo : p'.info = if p.phase = .scan then vs.foldl note p.info else p.info) :
      TurnVisits p vs (.next p')
  | done {st : NtStatus} {p' : Pass} (hall : ∀ phase, visits phase p'.world = visits phase p.world)
      (hinfo : p'.info = p.info) : TurnVisits p vs (.done st p')
  | fault {p' : Pass} : TurnVisits p vs (.fault p')

/-- The visit that a turn from `p` records after reaching the world `w`. -/
theorem turnVisits_next {p : Pass} {w : World} (type tid b : ℤ) (st : NtStatus) {i : RecoveryInfo}
    (hw : ∀ phase, visits phase w = visits phase p.world)
    (hi : i = if p.phase = .scan then note p.info (p.currBlocknr, type, p.currTid) else p.info) :
    TurnVisits p [(p.currBlocknr, type, p.currTid)]
      (.next ⟨p.phase, b, tid, st, i, w.record (.visit p.phase p.currBlocknr type p.currTid)⟩) := by
  have hrecord : ∀ phase, visits phase (w.record (.visit p.phase p.currBlocknr type p.currTid)) =
      visits phase p.world ++
        if p.phase = phase then [(p.currBlocknr, type, p.currTid)] else [] := by
    intro phase
    rw [← hw]
    unfold visits World.record
    rw [List.filterMap_append]
    by_cases hph : p.phase = phase <;> simp [visitOf, hph]
  refine .next ?_ (fun phase hph => ?_) hi
  · rw [hrecord, if_pos rfl]
  · rw [hrecord, if_neg (Ne.symm hph), List.append_nil]

theorem checkedNext_visits {p q : Pass} (hph : q.phase = p.phase)
    (hb : q.currBlocknr = p.currBlocknr) (htid : q.currTid = p.currTid) (hi : q.info = p.info)
    (nrTags : ℕ) {r : NtStatus × World} (hr : ∀ phase, visits phase r.2 = visits phase p.world) :
    TurnVisits p [(p.currBlocknr, jbd2DescriptorBlock, p.currTid)] (checkedNext h nrTags q r) := by
  unfold checkedNext
  dsimp only
  split_ifs
  · exact .done hr hi
  · unfold descrNext Pass.visit
    rw [hph, hb, htid, hi]
    refine turnVisits_next _ _ _ _ hr ?_
    rw [note_of_ne _ _ _ (by decide), ite_self]

theorem descrArm_visits {p : Pass} {w : World}
    (hw : ∀ phase, visits phase w = visits phase p.world) (buf : Block) :
    TurnVisits p [(p.currBlocknr, jbd2DescriptorBlock, p.currTid)]
      (descrArm env h buf { p with world := w }) := by
  unfold descrArm
  split_ifs
  · exact .done hw rfl
  · cases hph : p.phase with
    | scan =>
      refine checkedNext_visits (p := p) (q := ⟨.scan, _, _, _, _, w⟩) hph.symm rfl rfl rfl _ ?_
      intro phase
      refine (visits_of_effect (csumVerify_effect env h (c := True) (t := True) p.currBlocknr buf w)
        ?_).trans (hw phase)
      rintro e ⟨-, -, k, rfl⟩
      rfl
    | scanRevoke =>
      have hnext := turnVisits_next jbd2DescriptorBlock p.currTid
        (advance h p.currBlocknr (jbd2CountTags h buf + 1)) p.status (i := p.info) hw
        (by rw [if_neg (by rw [hph]; decide)])
      rw [hph] at hnext
      exact hnext
    | replay =>
      refine checkedNext_visits (p := p) (q := ⟨.replay, _, _, _, _, w⟩) hph.symm rfl rfl rfl _ ?_
      intro phase
      refine (visits_of_effect (replayDescrBlock_effect env h p.currTid p.currBlocknr buf w)
        ?_).trans (hw phase)
      rintro e ⟨-, k, rfl | ⟨fs, rfl⟩⟩ <;> rfl

theorem commitArm_visits {p : Pass} {w : World}
    (hw : ∀ phase, visits phase w = visits phase p.world) (buf : Block) :
    TurnVisits p [(p.currBlocknr, jbd2CommitBlock, p.currTid)]
      (commitArm env h buf { p with world := w }) := by
  unfold commitArm
  by_cases hv : jbd2VerifyCommitBlock env.chksum h buf = true
  · rw [if_neg (by simp [hv])]
    refine turnVisits_next _ _ _ _ hw ?_
    rw [note_commit]
  · rw [if_pos (by simp [hv])]
    exact .done hw rfl

theorem revokeArm_visits {p : Pass} {w : World}
    (hw : ∀ phase, visits phase w = visits phase p.world) (buf : Block) :
    TurnVisits p [(p.currBlocknr, jbd2RevokeBlock, p.currTid)]
      (revokeArm env h buf { p with world := w }) := by
  have hscan : ∀ phase, visits phase (if p.phase = .scanRevoke then
      jbd2ScanRevokeEntries env h p.currTid buf w else (some .success, w)).2 =
        visits phase p.world := by
    intro phase
    rw [← hw]
    split_ifs
    · exact visits_of_effect (scanRevokeEntries_effect env h (E := fun _ => False) (c := True)
        p.currTid buf w) nofun
    · rfl
  unfold revokeArm
  dsimp only
  generalize (if p.phase = .scanRevoke then
    jbd2ScanRevokeEntries env h p.currTid buf w else (some .success, w)) = r at hscan ⊢
  split_ifs
  · exact .done hw rfl
  · exact .fault
  · refine turnVisits_next _ _ _ _ hscan ?_
    rw [note_of_ne _ _ _ (by decide), ite_self]
    rfl

/-- **What a turn visits.** -/
theorem passStep_visits (p : Pass) :
    TurnVisits p (visitsAt env.log (pos p)) (passStep env h p) := by
  by_cases hb : Beyond p
  · rw [passStep_of_beyond env h hb]
    exact .done (fun _ => rfl) rfl
  · have hread : ∀ phase, visits phase (ccPinRead env p.world p.currBlocknr).2 =
        visits phase p.world := fun phase =>
      visits_of_effect (ccPinRead_effect env (E := fun e => e = .pinRead p.currBlocknr)
        (c := True) (t := True) p.world rfl) (by rintro e rfl; rfl)
    rw [passStep_of_not_beyond env h hb]
    split_ifs
    · unfold blockTurn visitsAt
      dsimp only [pos]
      by_cases hstop : (!jbd2VerifyMetadataBlock (env.log p.currBlocknr) ||
          decide (hSequence (env.log p.currBlocknr) ≠ p.currTid)) = true
      · rw [if_pos hstop]
        exact .done hread rfl
      rw [if_neg hstop]
      by_cases hd : hBlocktype (env.log p.currBlocknr) = jbd2DescriptorBlock
      · rw [if_pos hd, if_pos (.inl hd), hd]
        exact descrArm_visits hread _
      by_cases hc : hBlocktype (env.log p.currBlocknr) = jbd2CommitBlock
      · rw [if_neg hd, if_pos hc, if_pos (.inr (.inl hc)), hc]
        exact commitArm_visits hread _
      by_cases hr : hBlocktype (env.log p.currBlocknr) = jbd2RevokeBlock
      · rw [if_neg hd, if_neg hc, if_pos hr, if_pos (.inr (.inr hr)), hr]
        exact revokeArm_visits hread _
      rw [if_neg hd, if_neg hc, if_neg hr, if_neg (by simp [hd, hc, hr])]
      refine .next ?_ (fun phase _ => hread phase) (by rw [List.foldl_nil, ite_self])
      rw [List.append_nil]
      exact hread p.phase
    · exact .done hread rfl

/-! ### The visits of a run -/

/-- What the first `n` steps of the walk of a phase visit. -/
def walkVisits (log : ℤ → Block) (chksum : Chksum) (h : Jbd2Handle) (phase : Phase) (s : Pos)
    (n : ℕ) : List Visit :=
  (List.range n).flatMap fun i => (walk (logStep log chksum h phase) i s).elim [] (visitsAt log)

theorem walkVisits_succ {log : ℤ → Block} {chksum : Chksum} {phase : Phase} {s t : Pos} {n : ℕ}
    (hn : walk (logStep log chksum h phase) n s = some t) :
    walkVisits log chksum h phase s (n + 1) = walkVisits log chksum h phase s n ++
    visitsAt log t := by
  unfold walkVisits
  rw [List.range_succ, List.flatMap_append, List.flatMap_singleton, hn, Option.elim_some]

theorem walkVisits_zero (log : ℤ → Block) (chksum : Chksum) (h : Jbd2Handle) (phase : Phase)
    (s : Pos) : walkVisits log chksum h phase s 0 = [] := rfl

/-- The visits from the first step on. -/
theorem walkVisits_succ' {log : ℤ → Block} {chksum : Chksum} {phase : Phase} {s t : Pos}
    (hs : logStep log chksum h phase s = some t) (n : ℕ) :
    walkVisits log chksum h phase s (n + 1) = visitsAt log s ++ walkVisits log chksum h phase
    t n := by
  unfold walkVisits
  rw [List.range_succ_eq_map, List.flatMap_cons, walk_zero, Option.elim_some, List.flatMap_map]
  congr 1
  refine List.flatMap_congr fun i _ => ?_
  rw [walk_succ', hs, Option.bind_some]

/-- The visits of a walk in two parts. -/
theorem walkVisits_add {log : ℤ → Block} {chksum : Chksum} {phase : Phase} {s t : Pos} {m : ℕ}
    (hm : walk (logStep log chksum h phase) m s = some t) (n : ℕ) :
    walkVisits log chksum h phase s (m + n) =
      walkVisits log chksum h phase s m ++ walkVisits log chksum h phase t n := by
  unfold walkVisits
  rw [List.range_add, List.flatMap_append, List.flatMap_map]
  congr 1
  refine List.flatMap_congr fun i _ => ?_
  rw [walk_add, hm, Option.bind_some]

/-- A pass that has ended has done so in one of its turns. -/
theorem passRun_done {p q : Pass} {st : NtStatus} : ∀ n, passRun env h p n = .done st q →
    ∃ m q', passRun env h p m = .next q' ∧ passStep env h q' = .done st q := by
  intro n
  induction n with
  | zero => intro hq; cases hq
  | succ n ih =>
    intro hq
    rw [passRun_succ] at hq
    cases hr : passRun env h p n with
    | next q' => rw [hr] at hq; exact ⟨n, q', hr, hq⟩
    | done st' q' => rw [hr] at hq; exact ih (hr.trans hq)
    | fault q' => rw [hr] at hq; cases hq

/-- **The visits of a pass are those of its walk.** -/
theorem passRun_visits {p : Pass} (ht : Tidy p) : ∀ n q, passRun env h p n = .next q →
    visits p.phase q.world =
        visits p.phase p.world ++ walkVisits env.log env.chksum h p.phase (pos p) n ∧
      (∀ phase, phase ≠ p.phase → visits phase q.world = visits phase p.world) ∧
      (p.phase = .scan →
        q.info = (walkVisits env.log env.chksum h p.phase (pos p) n).foldl note p.info) := by
  intro n
  induction n with
  | zero =>
    intro q hq
    cases hq
    exact ⟨(List.append_nil _).symm, fun _ _ => rfl, fun _ => rfl⟩
  | succ n ih =>
    intro q hq
    obtain ⟨q', hq', hs⟩ := passRun_succ_next hq
    obtain ⟨hw, hre⟩ := passRun_walk ht n q' hq'
    obtain ⟨hsame, hother, hinfo⟩ := ih q' hq'
    have hturn := @passStep_visits env h q'
    rw [hs] at hturn
    rw [walkVisits_succ hw, List.foldl_append, ← List.append_assoc, ← hsame]
    cases hturn with
    | next hsame' hother' hinfo' =>
      rw [hre.phase] at hsame' hother' hinfo'
      refine ⟨hsame', fun phase hph => (hother' phase hph).trans (hother phase hph), fun hph => ?_⟩
      rw [hinfo', if_pos hph, ← hinfo hph]

theorem pos_passStart (h : Jbd2Handle) (phase : Phase) (w : World) :
    pos (passStart h phase w) = startPos h := rfl

theorem passStart_phase (h : Jbd2Handle) (phase : Phase) (w : World) :
    (passStart h phase w).phase = phase := rfl

theorem passStart_world (h : Jbd2Handle) (phase : Phase) (w : World) :
    (passStart h phase w).world = w := rfl

theorem passStart_info (h : Jbd2Handle) (w : World) :
    (passStart h .scan w).info = ⟨sSequence h.jhSb, 0, false⟩ := by
  unfold passStart
  rw [if_pos rfl]

/-- The scan reports what it has noted at its visits. -/
theorem scan_done {w : World} {n : ℕ} {st : NtStatus} {q : Pass}
    (hq : jbd2ReplayOnePass env h .scan w n = .done st q) :
    ∃ m q', passRun env h (passStart h .scan w) m = .next q' ∧ passStep env h q' = .done st q ∧
      visits .scan q.world = visits .scan w ++
        walkVisits env.log env.chksum h .scan (startPos h) m ∧
      (∀ phase, phase ≠ .scan → visits phase q.world = visits phase w) ∧
      q.info = (walkVisits env.log env.chksum h .scan (startPos h) m).foldl note
        ⟨sSequence h.jhSb, 0, false⟩ := by
  obtain ⟨m, q', hq', hs⟩ := passRun_done n hq
  obtain ⟨hsame, hother, hinfo⟩ := passRun_visits (tidy_passStart .scan w) m q' hq'
  rw [passStart_phase, passStart_world, pos_passStart] at hsame
  rw [passStart_phase, pos_passStart, passStart_info] at hinfo
  have hturn := @passStep_visits env h q'
  rw [hs] at hturn
  cases hturn with
  | done hall hinfo' =>
    exact ⟨m, q', hq', hs, (hall .scan).trans hsame,
      fun phase hph => (hall phase).trans (hother phase hph), hinfo'.trans (hinfo rfl)⟩

/-! ### Commit blocks -/

theorem foldl_note_hasTxn (vs : List Visit) (i : RecoveryInfo) :
    (vs.foldl note i).riHasTxn = true ↔ i.riHasTxn = true ∨ ∃ v ∈ vs, IsCommit v := by
  induction vs generalizing i with
  | nil => simp
  | cons v vs ih =>
    rw [List.foldl_cons, ih]
    unfold note
    split_ifs with hv <;> simp [hv]

theorem mem_walkVisits {log : ℤ → Block} {chksum : Chksum} {phase : Phase} {s : Pos} {n : ℕ}
    {v : Visit} : v ∈ walkVisits log chksum h phase s n ↔
      ∃ i < n, ∃ t, walk (logStep log chksum h phase) i s = some t ∧ v ∈ visitsAt log t := by
  unfold walkVisits
  rw [List.mem_flatMap]
  refine exists_congr fun i => ?_
  rw [List.mem_range]
  refine and_congr_right fun _ => ?_
  generalize walk (logStep log chksum h phase) i s = o
  cases o with
  | none => exact ⟨nofun, fun ⟨t, ht, _⟩ => nomatch ht⟩
  | some t =>
    rw [Option.elim_some]
    exact ⟨fun hv => ⟨t, rfl, hv⟩, fun ⟨t', ht, hv⟩ => Option.some.inj ht ▸ hv⟩

end Ext4Fsd.Journal.Visits
