import Ext4Fsd.Journal.Effects
import Ext4Fsd.Lib.Walk

/-! # Where a turn of a pass goes

`logNext` is the position (block, expected tid) a pass comes to from a position of the log, or the
status with which it stops there; it only reads the log. The turns of a pass agree with it
(`passStep_agrees`): a turn that goes on goes where the log leads, whatever fails, and a turn that
stops does so with the status of the log unless a read or a write fails. Every pass is thus a walk
of `logStep` from `startPos`. -/

namespace Ext4Fsd.Journal.Turns

open Ext4Fsd.Lib.CInt Ext4Fsd.Lib.Walk
open Ext4Fsd.Journal.Format Ext4Fsd.Journal.Tags Ext4Fsd.Journal.Recovery Ext4Fsd.Journal.Effects

/-! ### The walk along the log -/

/-- A position of a pass: the block it looks at and the transaction it expects there. -/
abbrev Pos := ℤ × ℤ

abbrev pos (p : Pass) : Pos := (p.currBlocknr, p.currTid)

section
variable (log : ℤ → Block) (chksum : Chksum) (h : Jbd2Handle)

/-- The outcome of `jbd2_blocks_csum_verify` from the tag at `tagp` when every read succeeds. -/
def dataCsumLoop (blocknr : ℤ) (buf : Block) : ℕ → ℕ → ℤ → NtStatus
  | 0, _, _ => .success
  | fuel + 1, tagp, nr =>
    if (tagp : ℤ) + jbd2MinTagSize h ≤ h.jhBlocksize then
      let sum := chksum h.jhCsumSeed (log (toI32 (blocknr + nr))) h.jhBlocksize
      let calculated := if jbd2HasFeatureCsum2 h.jhSb then sum % 2 ^ 16 else sum
      if calculated ≠ jbd2TagCsum h buf tagp then .unsuccessful
      else if jbd2TestFlag h buf tagp jbd2FlagLastTag then .success
      else dataCsumLoop blocknr buf fuel (tagp + jbd2TagSize h buf tagp) (nr + 1)
    else .success

/-- The outcome of the data checksums of the descriptor block at `blocknr`. -/
def dataCsumStatus (blocknr : ℤ) : NtStatus :=
  if !jbd2HasCsumV2or3 h.jhSb then .success
  else dataCsumLoop log chksum h blocknr (log blocknr) h.jhBlocksize.toNat sizeofJournalHeader 1

def logDescr (phase : Phase) (s : Pos) : Except NtStatus Pos :=
  if !jbd2VerifyDescrBlock chksum h (log s.1) then .error (stopStatus phase)
  else if phase = .scan ∧ (dataCsumStatus log chksum h s.1).ntSuccess = false then
    .error (dataCsumStatus log chksum h s.1)
  else .ok (advance h s.1 (jbd2CountTags h (log s.1) + 1), s.2)

def logCommit (phase : Phase) (s : Pos) : Except NtStatus Pos :=
  if !jbd2VerifyCommitBlock chksum h (log s.1) then .error (stopStatus phase)
  else .ok (advance h s.1 1, toI32 (s.2 + 1))

def logRevoke (phase : Phase) (s : Pos) : Except NtStatus Pos :=
  if !jbd2VerifyRevokeBlock chksum h (log s.1) then .error (stopStatus phase)
  else .ok (advance h s.1 1, s.2)

def logBlock (phase : Phase) (s : Pos) : Except NtStatus Pos :=
  if !jbd2VerifyMetadataBlock (log s.1) || decide (hSequence (log s.1) ≠ s.2) then
    .error (stopStatus phase)
  else if hBlocktype (log s.1) = jbd2DescriptorBlock then logDescr log chksum h phase s
  else if hBlocktype (log s.1) = jbd2CommitBlock then logCommit log chksum h phase s
  else if hBlocktype (log s.1) = jbd2RevokeBlock then logRevoke log chksum h phase s
  else .ok s

/-- **Where the log leads from a position**, or the status with which a pass stops there. Past the
scan the record of the last transaction is cleared, and the guard compares with 0. -/
def logNext (phase : Phase) (s : Pos) : Except NtStatus Pos :=
  if phase ≠ .scan ∧ jbd2TidCmp s.2 0 > 0 then .error .success else logBlock log chksum h phase s

/-- The step of the walk along the log. -/
def logStep (phase : Phase) (s : Pos) : Option Pos := (logNext log chksum h phase s).toOption

/-- Where every pass starts. -/
def startPos : Pos := (sStart h.jhSb, sSequence h.jhSb)

theorem startPos_fst : (startPos h).1 = sStart h.jhSb := rfl

theorem startPos_snd : (startPos h).2 = sSequence h.jhSb := rfl

end

section
variable {log : ℤ → Block} {chksum : Chksum} {h : Jbd2Handle} {phase : Phase} {b tid : ℤ}

theorem logStep_none {s : Pos} {e : NtStatus}
    (hn : logNext log chksum h phase s = .error e) : logStep log chksum h phase s = none := by
  unfold logStep
  rw [hn]
  rfl

/-! The branches of `logNext`, for a pass whose guard lets the position through. -/

/-- The guard lets the transaction `tid` through. -/
def Passes (phase : Phase) (tid : ℤ) : Prop := phase = .scan ∨ toU32 tid = 0

theorem logNext_of_passes (hg : Passes phase tid) :
    logNext log chksum h phase (b, tid) = logBlock log chksum h phase (b, tid) := by
  unfold logNext
  refine if_neg ?_
  rintro ⟨h1, h2⟩
  rw [jbd2TidCmp_pos_iff, sub_zero] at h2
  exact hg.elim h1 h2

theorem logNext_stop (hg : Passes phase tid) (hm : jbd2VerifyMetadataBlock (log b) = false) :
    logNext log chksum h phase (b, tid) = .error (stopStatus phase) := by
  rw [logNext_of_passes hg]
  unfold logBlock
  rw [if_pos (by simp [hm])]

theorem logNext_descr (hg : Passes phase tid) (hd : DescrOf chksum h (log b) tid)
    (hc : phase = .scan → (dataCsumStatus log chksum h b).ntSuccess = true) :
    logNext log chksum h phase (b, tid) =
      .ok (advance h b (jbd2CountTags h (log b) + 1), tid) := by
  rw [logNext_of_passes hg]
  unfold logBlock logDescr
  rw [if_neg (by simp [hd.header, hd.sequence]), if_pos hd.type, if_neg (by simp [hd.csum]), if_neg]
  rintro ⟨h1, h2⟩
  rw [hc h1] at h2
  cases h2

theorem logNext_commit (hg : Passes phase tid) (hd : CommitOf chksum h (log b) tid) :
    logNext log chksum h phase (b, tid) = .ok (advance h b 1, toI32 (tid + 1)) := by
  rw [logNext_of_passes hg]
  unfold logBlock logCommit
  rw [if_neg (by simp [hd.header, hd.sequence]), hd.type, if_neg (by decide), if_pos rfl,
    if_neg (by simp [hd.csum])]

theorem logNext_revoke (hg : Passes phase tid) (hd : RevokeOf chksum h (log b) tid) :
    logNext log chksum h phase (b, tid) = .ok (advance h b 1, tid) := by
  rw [logNext_of_passes hg]
  unfold logBlock logRevoke
  rw [if_neg (by simp [hd.header, hd.sequence]), hd.type, if_neg (by decide), if_neg (by decide),
    if_pos rfl, if_neg (by simp [hd.csum])]

end

/-! ### The cache manager from some point on -/

/-- Every pin-read from the world `w` on succeeds. -/
def ReadsFrom (o : Oracle) (w : World) : Prop := ∀ n, w.pinReads ≤ n → o.pinRead n = true

/-- Every pinned write from the world `w` on succeeds. -/
def WritesFrom (o : Oracle) (w : World) : Prop := ∀ n, w.pinWrites ≤ n → o.pinWrite n = true

theorem ReadsFrom.mono {o : Oracle} {w w' : World} (h : ReadsFrom o w)
    (hle : w.pinReads ≤ w'.pinReads) : ReadsFrom o w' := fun n hn => h n (hle.trans hn)

theorem WritesFrom.mono {o : Oracle} {w w' : World} (h : WritesFrom o w)
    (hle : w.pinWrites ≤ w'.pinWrites) : WritesFrom o w' := fun n hn => h n (hle.trans hn)

variable {env : Env} {h : Jbd2Handle}

theorem ccPinRead_fst {w : World} (hr : ReadsFrom env.oracle w) (b : ℤ) :
    (ccPinRead env w b).1 = true := hr _ le_rfl

theorem ccPinRead_readsFrom {w : World} (hr : ReadsFrom env.oracle w) (b : ℤ) :
    ReadsFrom env.oracle (ccPinRead env w b).2 := hr.mono (Nat.le_succ _)

/-- With the reads succeeding, the outcome of the data checksums is a function of the log. -/
theorem csumLoop_fst (b : ℤ) (buf : Block) : ∀ fuel tagp nr w, ReadsFrom env.oracle w →
    (jbd2BlocksCsumVerifyLoop env h b buf fuel tagp nr w).1 =
      dataCsumLoop env.log env.chksum h b buf fuel tagp nr := by
  intro fuel
  induction fuel with
  | zero => intros; rfl
  | succ fuel ih =>
    intro tagp nr w hr
    rw [jbd2BlocksCsumVerifyLoop, dataCsumLoop]
    dsimp only
    rw [ccPinRead_fst hr]
    simp only [Bool.not_true, Bool.false_eq_true, if_false]
    split_ifs <;> first | rfl | exact ih _ _ _ (ccPinRead_readsFrom hr _)

/-- Whatever fails: checksums found good are good. -/
theorem csumLoop_success (b : ℤ) (buf : Block) : ∀ fuel tagp nr w,
    (jbd2BlocksCsumVerifyLoop env h b buf fuel tagp nr w).1.ntSuccess = true →
    (dataCsumLoop env.log env.chksum h b buf fuel tagp nr).ntSuccess = true := by
  intro fuel
  induction fuel with
  | zero => intros; rfl
  | succ fuel ih =>
    intro tagp nr w hs
    rw [jbd2BlocksCsumVerifyLoop] at hs
    rw [dataCsumLoop]
    dsimp only at hs ⊢
    generalize (if jbd2HasFeatureCsum2 h.jhSb then _ else _) = calculated at hs ⊢
    by_cases hfit : (tagp : ℤ) + jbd2MinTagSize h ≤ h.jhBlocksize
    · rw [if_pos hfit] at hs ⊢
      by_cases hread : (!(ccPinRead env w (toI32 (b + nr))).1) = true
      · rw [if_pos hread] at hs
        cases hs
      · rw [if_neg hread] at hs
        split_ifs at hs ⊢
        · cases hs
        · rfl
        · exact ih _ _ _ hs
    · rw [if_neg hfit]
      rfl

theorem csumVerify_success {w : World} {b : ℤ}
    (hs : (jbd2BlocksCsumVerify env h b (env.log b) w).1.ntSuccess = true) :
    (dataCsumStatus env.log env.chksum h b).ntSuccess = true := by
  rw [jbd2BlocksCsumVerify] at hs
  rw [dataCsumStatus]
  split_ifs at hs ⊢
  · rfl
  · exact csumLoop_success b _ _ _ _ _ hs

theorem csumVerify_fst {w : World} (hr : ReadsFrom env.oracle w) (b : ℤ) :
    (jbd2BlocksCsumVerify env h b (env.log b) w).1 = dataCsumStatus env.log env.chksum h b := by
  rw [jbd2BlocksCsumVerify, dataCsumStatus]
  split_ifs
  · rfl
  · exact csumLoop_fst b _ _ _ _ _ hr

theorem replayTag_fst {w : World} (hr : ReadsFrom env.oracle w) (hw : WritesFrom env.oracle w)
    (tid b : ℤ) (buf : Block) (tagp : ℕ) (nr : ℤ) :
    (replayTag env h tid b buf tagp nr w).1 = .success := by
  have h1 := hr _ le_rfl
  have h2 := hw _ le_rfl
  simp [replayTag, ccPinRead, ccPreparePinWrite, World.record, h1, h2]

theorem replayLoop_fst (tid b : ℤ) (buf : Block) : ∀ fuel tagp nr w, ReadsFrom env.oracle w →
    WritesFrom env.oracle w →
    (jbd2ReplayDescrBlockLoop env h tid b buf fuel tagp nr w).1 = .success := by
  intro fuel
  induction fuel with
  | zero => intros; rfl
  | succ fuel ih =>
    intro tagp nr w hr hw
    have hcheck := revokeCheck_effect (E := fun _ => True) (c := True) w
      (jbd2TagBlocknr h buf tagp)
    have hr1 := hr.mono hcheck.pinReads
    have hw1 := hw.mono hcheck.pinWrites
    have htag := replayTag_effect env h tid b buf tagp nr
      (revokeCheck w (jbd2TagBlocknr h buf tagp)).2
    have hst := replayTag_fst (h := h) hr1 hw1 tid b buf tagp nr
    rw [jbd2ReplayDescrBlockLoop]
    dsimp only
    split_ifs
    · exact ih _ _ _ hr1 hw1
    · exact hst
    · exact hst
    · exact ih _ _ _ (hr1.mono htag.pinReads) (hw1.mono htag.pinWrites)
    · rfl

/-! ### Turns agree with the log -/

/-- What holds at the top of the loop: no failure so far, and past the scan the record of
the last transaction is the cleared one. -/
structure Tidy (p : Pass) : Prop where
  status : p.status = .success
  endTxn : p.phase ≠ .scan → p.info.riEndTxn = 0

theorem tidy_passStart (phase : Phase) (w : World) : Tidy (passStart h phase w) :=
  ⟨rfl, fun _ => rfl⟩

/-- The turn of a pass of the phase `phase` from the world `w` agrees with the log, which says `r`.
A turn can only stop elsewhere when a read or a write fails, and only fault when an entry is
allocated. -/
inductive Agrees (o : Oracle) (phase : Phase) (w : World) (r : Except NtStatus Pos) : Turn → Prop
  | next {p' : Pass} (hphase : p'.phase = phase) (htidy : Tidy p') (hpos : r = .ok (pos p')) :
      Agrees o phase w r (.next p')
  | done {st : NtStatus} {p' : Pass} (hst : ReadsFrom o w → WritesFrom o w → r = .error st) :
      Agrees o phase w r (.done st p')
  | fault {p' : Pass} (hphase : phase = .scanRevoke) (halloc : ∃ n, o.alloc n = true) :
      Agrees o phase w r (.fault p')

theorem Agrees.back {o : Oracle} {phase : Phase} {w w' : World} {r : Except NtStatus Pos} {t : Turn}
    (ha : Agrees o phase w' r t) (hr : w.pinReads ≤ w'.pinReads)
    (hw : w.pinWrites ≤ w'.pinWrites) : Agrees o phase w r t := by
  cases ha with
  | next hphase htidy hpos => exact .next hphase htidy hpos
  | done hst => exact .done fun h1 h2 => hst (h1.mono hr) (h2.mono hw)
  | fault hphase halloc => exact .fault hphase halloc

theorem checkedNext_agrees (env : Env) (h : Jbd2Handle) {p : Pass} (ht : Tidy p) (nrTags : ℕ)
    {r : NtStatus × World} {e : NtStatus}
    (hst : ReadsFrom env.oracle p.world → WritesFrom env.oracle p.world → r.1 = e)
    (hok : r.1.ntSuccess = true → e.ntSuccess = true) :
    Agrees env.oracle p.phase p.world
      (if e.ntSuccess = false then .error e
        else .ok (advance h p.currBlocknr (nrTags + 1), p.currTid))
      (checkedNext h nrTags p r) := by
  unfold checkedNext
  dsimp only
  by_cases hs : r.1.ntSuccess = true
  · rw [if_neg (by simp [hok hs]), if_neg (by simp [hs])]
    exact .next rfl ⟨ntSuccess_iff.mp hs, ht.endTxn⟩ rfl
  · rw [if_pos (c := (!r.1.ntSuccess) = true) (by simpa using hs)]
    refine .done fun hr hw => ?_
    have he := hst hr hw
    rw [if_pos (by rw [← he]; simpa using hs), he]

theorem descrArm_agrees {p : Pass} (ht : Tidy p) :
    Agrees env.oracle p.phase p.world (logDescr env.log env.chksum h p.phase (pos p))
      (descrArm env h (env.log p.currBlocknr) p) := by
  have hcsum := checkedNext_agrees env h ht (jbd2CountTags h (env.log p.currBlocknr))
    (r := jbd2BlocksCsumVerify env h p.currBlocknr (env.log p.currBlocknr) p.world)
    (fun hr _ => csumVerify_fst hr _) csumVerify_success
  unfold descrArm logDescr
  dsimp only [pos]
  split_ifs with hv hc
  · exact .done fun _ _ => rfl
  · rw [if_pos hc.2, hc.1] at hcsum
    rw [hc.1]
    exact hcsum
  · cases hph : p.phase with
    | scan =>
      rw [if_neg fun hf => hc ⟨hph, hf⟩, hph] at hcsum
      exact hcsum
    | scanRevoke => exact .next hph ⟨ht.status, ht.endTxn⟩ rfl
    | replay =>
      have hag := checkedNext_agrees env h (e := .success) ht
        (jbd2CountTags h (env.log p.currBlocknr))
        (r := jbd2ReplayDescrBlock env h p.currTid p.currBlocknr (env.log p.currBlocknr) p.world)
        (fun hr hw => replayLoop_fst _ _ _ _ _ _ _ hr hw) (fun _ => rfl)
      rw [hph] at hag
      exact hag

theorem commitArm_agrees {p : Pass} (ht : Tidy p) :
    Agrees env.oracle p.phase p.world (logCommit env.log env.chksum h p.phase (pos p))
      (commitArm env h (env.log p.currBlocknr) p) := by
  unfold commitArm logCommit
  dsimp only [pos]
  by_cases hv : jbd2VerifyCommitBlock env.chksum h (env.log p.currBlocknr) = true
  · rw [if_neg (by simp [hv]), if_neg (by simp [hv])]
    refine .next rfl ⟨ht.status, fun hph => ?_⟩ rfl
    have hne : p.phase ≠ .scan := hph
    dsimp only
    rw [if_neg hne]
    exact ht.endTxn hne
  · rw [if_pos (by simp [hv]), if_pos (by simp [hv])]
    exact .done fun _ _ => rfl

/-- A fault needs an allocated entry. -/
theorem scanRevokeEntries_fault (tid : ℤ) (buf : Block) (w : World)
    (hf : (jbd2ScanRevokeEntries env h tid buf w).1.isNone = true) :
    ∃ n, env.oracle.alloc n = true := by
  unfold jbd2ScanRevokeEntries at hf
  split_ifs at hf
  · cases hf
  generalize rcount buf = c at hf
  generalize c.toNat = fuel at hf
  cases fuel with
  | zero => cases hf
  | succ fuel =>
    rw [jbd2ScanRevokeEntriesLoop] at hf
    by_contra hno
    have ha : env.oracle.alloc w.allocs = false := by
      cases hal : env.oracle.alloc w.allocs with
      | false => rfl
      | true => exact absurd ⟨_, hal⟩ hno
    unfold jbd2RevokeEntryGet at hf
    simp only [ha, Bool.not_false, if_true] at hf
    split_ifs at hf <;> cases hf

theorem revokeArm_agrees {p : Pass} (ht : Tidy p) :
    Agrees env.oracle p.phase p.world (logRevoke env.log env.chksum h p.phase (pos p))
      (revokeArm env h (env.log p.currBlocknr) p) := by
  have hfault : (if p.phase = .scanRevoke then
      jbd2ScanRevokeEntries env h p.currTid (env.log p.currBlocknr) p.world
      else (some .success, p.world)).1.isNone = true →
      p.phase = .scanRevoke ∧ ∃ n, env.oracle.alloc n = true := by
    intro hf
    by_cases hph : p.phase = .scanRevoke
    · rw [if_pos hph] at hf
      exact ⟨hph, scanRevokeEntries_fault _ _ _ hf⟩
    · rw [if_neg hph] at hf
      cases hf
  unfold revokeArm logRevoke
  by_cases hv : jbd2VerifyRevokeBlock env.chksum h (env.log p.currBlocknr) = true
  · rw [if_neg (by simp [hv]), if_neg (by simp [hv])]
    dsimp only
    generalize (if p.phase = .scanRevoke then
      jbd2ScanRevokeEntries env h p.currTid (env.log p.currBlocknr) p.world
      else (some .success, p.world)) = r at hfault ⊢
    by_cases hf : r.1.isNone = true
    · rw [if_pos hf]
      exact .fault (hfault hf).1 (hfault hf).2
    · rw [if_neg hf]
      exact .next rfl ⟨ht.status, ht.endTxn⟩ rfl
  · rw [if_pos (by simp [hv]), if_pos (by simp [hv])]
    exact .done fun _ _ => rfl

theorem blockTurn_agrees {p : Pass} (ht : Tidy p) :
    Agrees env.oracle p.phase p.world (logBlock env.log env.chksum h p.phase (pos p))
      (blockTurn env h (env.log p.currBlocknr) p) := by
  unfold blockTurn logBlock
  dsimp only [pos]
  split_ifs
  · exact .done fun _ _ => rfl
  · exact descrArm_agrees ht
  · exact commitArm_agrees ht
  · exact revokeArm_agrees ht
  · exact .next rfl ht rfl

/-- **A turn agrees with the log.** -/
theorem passStep_agrees {p : Pass} (ht : Tidy p) :
    Agrees env.oracle p.phase p.world (logNext env.log env.chksum h p.phase (pos p))
      (passStep env h p) := by
  have hguard : Beyond p ↔ p.phase ≠ .scan ∧ jbd2TidCmp (pos p).2 0 > 0 := by
    unfold Beyond pos
    constructor
    · rintro ⟨h1, h2⟩; exact ⟨h1, by rwa [ht.endTxn h1] at h2⟩
    · rintro ⟨h1, h2⟩; exact ⟨h1, by rwa [ht.endTxn h1]⟩
  unfold logNext
  by_cases hb : Beyond p
  · rw [passStep_of_beyond env h hb, if_pos (hguard.mp hb), ht.status]
    exact .done fun _ _ => rfl
  · rw [passStep_of_not_beyond env h hb, if_neg (mt hguard.mpr hb)]
    split_ifs with hread
    · exact (blockTurn_agrees
        (p := { p with world := (ccPinRead env p.world p.currBlocknr).2 })
        ⟨ht.status, ht.endTxn⟩).back (Nat.le_succ _) le_rfl
    · exact .done fun hr _ => absurd (hr _ le_rfl) hread

/-! The readings of the agreement. -/

theorem passStep_next {p p' : Pass} (ht : Tidy p) (hs : passStep env h p = .next p') :
    logNext env.log env.chksum h p.phase (pos p) = .ok (pos p') ∧ p'.phase = p.phase ∧ Tidy p' := by
  have hag := @passStep_agrees env h p ht
  rw [hs] at hag
  cases hag with
  | next hphase htidy hpos => exact ⟨hpos, hphase, htidy⟩

theorem passStep_done {p p' : Pass} {st : NtStatus} (hr : ReadsFrom env.oracle p.world)
    (hw : WritesFrom env.oracle p.world) (ht : Tidy p) (hs : passStep env h p = .done st p') :
    logNext env.log env.chksum h p.phase (pos p) = .error st := by
  have hag := @passStep_agrees env h p ht
  rw [hs] at hag
  cases hag with
  | done hst => exact hst hr hw

/-- Where the log leads on, the turn does, unless it is a revoke block of the second pass. -/
theorem passStep_follows {p : Pass} {s : Pos} (hr : ReadsFrom env.oracle p.world)
    (hw : WritesFrom env.oracle p.world) (ht : Tidy p)
    (ha : p.phase = .scanRevoke → ∀ n, env.oracle.alloc n = false)
    (hl : logNext env.log env.chksum h p.phase (pos p) = .ok s) :
    ∃ p', passStep env h p = .next p' ∧ pos p' = s ∧ p'.phase = p.phase ∧ Tidy p' := by
  have hag := @passStep_agrees env h p ht
  cases hp : passStep env h p with
  | next p' =>
    obtain ⟨hpos, hphase, htidy⟩ := passStep_next ht hp
    rw [hl] at hpos
    cases hpos
    exact ⟨p', rfl, rfl, hphase, htidy⟩
  | done st p' =>
    rw [passStep_done hr hw ht hp] at hl
    cases hl
  | fault p' =>
    rw [hp] at hag
    cases hag with
    | fault hphase halloc =>
      obtain ⟨n, hn⟩ := halloc
      rw [ha hphase n] at hn
      cases hn

/-- Where the log stops, the turn does, with the same status. -/
theorem passStep_stops {p : Pass} {st : NtStatus} (hr : ReadsFrom env.oracle p.world)
    (hw : WritesFrom env.oracle p.world) (ht : Tidy p) (hph : p.phase ≠ .scanRevoke)
    (hl : logNext env.log env.chksum h p.phase (pos p) = .error st) :
    ∃ p', passStep env h p = .done st p' := by
  have hag := @passStep_agrees env h p ht
  cases hp : passStep env h p with
  | next p' =>
    rw [(passStep_next ht hp).1] at hl
    cases hl
  | done st' p' =>
    rw [passStep_done hr hw ht hp] at hl
    cases hl
    exact ⟨p', rfl⟩
  | fault p' =>
    rw [hp] at hag
    cases hag with
    | fault hphase halloc => exact absurd hphase hph

end Ext4Fsd.Journal.Turns
