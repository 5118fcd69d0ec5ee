import Ext4Fsd.Journal.Passes
import Ext4Fsd.Journal.TagWalk

/-! # The reads of the scan

A turn of the scan reads the block it is at and, behind a descriptor block that verifies, a data
block for each tag. So the log alone says with how many reads the scan comes to a position
(`ScanAt`), and whether a turn there meets a refused read or a wrong data checksum is a matter of
the log and of the numbers of the refused reads (`TurnClean`). -/

namespace Ext4Fsd.Journal.ScanReads

open Ext4Fsd.Lib.CInt Ext4Fsd.Lib.Walk
open Ext4Fsd.Journal.Format Ext4Fsd.Journal.Tags Ext4Fsd.Journal.Recovery Ext4Fsd.Journal.Effects
open Ext4Fsd.Journal.Turns Ext4Fsd.Journal.Runs Ext4Fsd.Journal.Passes Ext4Fsd.Journal.TagWalk

section
variable (log : ℤ → Block) (chksum : Chksum) (h : Jbd2Handle)

/-- The data blocks read for the checksums of the descriptor block at `b`, if none is wrong. -/
def dataReads (b : ℤ) : ℕ :=
  if jbd2HasCsumV2or3 h.jhSb then (blockTags h (log b)).length else 0

/-- The reads of a turn of the scan at a block, where it expects the transaction `tid`. -/
def turnReads (b tid : ℤ) : ℕ :=
  if DescrOf chksum h (log b) tid then 1 + dataReads log h b else 1

/-- **The scan comes to a position with a number of reads.** -/
inductive ScanAt : ℕ → Pos → Prop
  | start : ScanAt 0 (startPos h)
  | next {n : ℕ} {s t : Pos} (hs : ScanAt n s) (hst : logStep log chksum h .scan s = some t) :
      ScanAt (n + turnReads log chksum h s.1 s.2) t

end

/-- **Nothing fails in a turn of the scan** at the position, with `n` reads made before: the block
is read and, for a descriptor block, its data blocks are, and have the checksums stored. -/
structure TurnClean (env : Env) (h : Jbd2Handle) (n : ℕ) (s : Pos) : Prop where
  read : env.oracle.pinRead n = true
  data : DescrOf env.chksum h (env.log s.1) s.2 →
    ∀ k < dataReads env.log h s.1, env.oracle.pinRead (n + 1 + k) = true
  csums : DescrOf env.chksum h (env.log s.1) s.2 →
    (dataCsumStatus env.log env.chksum h s.1).ntSuccess = true

section
variable {env : Env} {h : Jbd2Handle}

theorem ccPinRead_pinReads (w : World) (b : ℤ) :
    (ccPinRead env w b).2.pinReads = w.pinReads + 1 := rfl

theorem checkedNext_reads {nrTags : ℕ} {p p' : Pass} {r : NtStatus × World}
    (hs : checkedNext h nrTags p r = .next p') :
    r.1.ntSuccess = true ∧ p'.world.pinReads = r.2.pinReads := by
  unfold checkedNext at hs
  dsimp only at hs
  split_ifs at hs with hfail
  rw [← Turn.next.inj hs]
  exact ⟨by simpa using hfail, rfl⟩

/-! ### The reads of a checksum run -/

/-- **A checksum run succeeds** when the checksums are right and no read is refused. It has made one
read for each tag then. -/
theorem csumLoop_reads (b : ℤ) (buf : Block) : ∀ fuel tagp nr w {r : NtStatus × World},
    jbd2BlocksCsumVerifyLoop env h b buf fuel tagp nr w = r →
    (r.1.ntSuccess = true ↔
      (dataCsumLoop env.log env.chksum h b buf fuel tagp nr).ntSuccess = true ∧
        ∀ k < (tagsFrom h buf h.jhBlocksize fuel tagp).length,
          env.oracle.pinRead (w.pinReads + k) = true) ∧
      (r.1.ntSuccess = true →
        r.2.pinReads = w.pinReads + (tagsFrom h buf h.jhBlocksize fuel tagp).length) := by
  intro fuel
  induction fuel with
  | zero =>
    rintro tagp nr w r rfl
    exact ⟨⟨fun hs => ⟨rfl, fun k hk => absurd hk (Nat.not_lt_zero k)⟩, fun _ => rfl⟩, fun _ => rfl⟩
  | succ fuel ih =>
    rintro tagp nr w r hr
    rw [jbd2BlocksCsumVerifyLoop] at hr
    rw [dataCsumLoop]
    dsimp only at hr ⊢
    generalize (if jbd2HasFeatureCsum2 h.jhSb then _ else _) = calculated at hr ⊢
    by_cases hf : Fits h h.jhBlocksize tagp
    swap
    · rw [if_neg hf] at hr ⊢
      rw [tagsFrom_stop hf, ← hr]
      exact ⟨⟨fun _ => ⟨rfl, fun k hk => absurd hk (Nat.not_lt_zero k)⟩, fun _ => rfl⟩,
        fun _ => rfl⟩
    rw [if_pos hf] at hr ⊢
    have hone : ∀ ts : List ℕ, ts ≠ [] →
        (∀ k < ts.length, env.oracle.pinRead (w.pinReads + k) = true) →
        env.oracle.pinRead w.pinReads = true := fun ts hts hall =>
      hall 0 (List.length_pos_iff.mpr hts)
    have hne : tagsFrom h buf h.jhBlocksize (fuel + 1) tagp ≠ [] := by
      rw [tagsFrom, if_pos hf]
      split_ifs <;> simp
    by_cases hread : env.oracle.pinRead w.pinReads = true
    swap
    · have hno : (!(ccPinRead env w (toI32 (b + nr))).1) = true := by simp [ccPinRead, hread]
      rw [if_pos hno] at hr
      rw [← hr]
      exact ⟨iff_of_false Bool.false_ne_true fun hs => hread (hone _ hne hs.2),
        fun hs => absurd hs Bool.false_ne_true⟩
    have hyes : ¬ (!(ccPinRead env w (toI32 (b + nr))).1) = true := by simp [ccPinRead, hread]
    rw [if_neg hyes] at hr
    by_cases hc : calculated ≠ jbd2TagCsum h buf tagp
    · rw [if_pos hc] at hr ⊢
      rw [← hr]
      exact ⟨iff_of_false Bool.false_ne_true fun hs => Bool.false_ne_true hs.1,
        fun hs => absurd hs Bool.false_ne_true⟩
    rw [if_neg hc] at hr ⊢
    by_cases hl : IsLast h buf tagp
    · rw [if_pos hl] at hr ⊢
      rw [tagsFrom_last hf hl, ← hr]
      refine ⟨⟨fun _ => ⟨rfl, fun k hk => ?_⟩, fun _ => rfl⟩, fun _ => rfl⟩
      obtain rfl : k = 0 := by simpa using hk
      exact hread
    · rw [if_neg hl] at hr ⊢
      obtain ⟨h1, h2⟩ := ih _ _ _ hr
      rw [tagsFrom_next hf hl, h1]
      have hnext : ∀ k, (ccPinRead env w (toI32 (b + nr))).2.pinReads + k = w.pinReads + (k + 1) :=
        fun k => by
          show w.pinReads + 1 + k = _
          omega
      simp only [hnext] at h1 h2 ⊢
      refine ⟨and_congr_right fun _ => ⟨fun hall k hk => ?_, fun hall k hk => ?_⟩, fun hs => ?_⟩
      · rcases k with _ | k
        · exact hread
        · exact hall k (by simpa using hk)
      · exact hall (k + 1) (by simpa using hk)
      · exact h2 (h1.mpr hs)

/-- The run for a descriptor block. -/
theorem csumVerify_reads_iff (b : ℤ) (w : World) {r : NtStatus × World}
    (hr : jbd2BlocksCsumVerify env h b (env.log b) w = r) :
    (r.1.ntSuccess = true ↔ (dataCsumStatus env.log env.chksum h b).ntSuccess = true ∧
        ∀ k < dataReads env.log h b, env.oracle.pinRead (w.pinReads + k) = true) ∧
      (r.1.ntSuccess = true → r.2.pinReads = w.pinReads + dataReads env.log h b) := by
  unfold jbd2BlocksCsumVerify at hr
  unfold dataCsumStatus dataReads
  by_cases hon : jbd2HasCsumV2or3 h.jhSb = true
  · have hno : ¬ (!jbd2HasCsumV2or3 h.jhSb) = true := by simp [hon]
    rw [if_neg hno] at hr ⊢
    rw [if_pos hon]
    exact csumLoop_reads b (env.log b) _ _ _ _ hr
  · have hyes : (!jbd2HasCsumV2or3 h.jhSb) = true := by simpa using hon
    rw [if_pos hyes] at hr ⊢
    rw [if_neg hon, ← hr]
    exact ⟨⟨fun _ => ⟨rfl, fun k hk => absurd hk (Nat.not_lt_zero k)⟩, fun _ => rfl⟩, fun _ => rfl⟩

/-! ### The reads of a turn -/

/-- A turn of the scan that goes on has made the reads of its position. -/
theorem turn_reads {p p' : Pass} (hph : p.phase = .scan) (hs : passStep env h p = .next p') :
    p'.world.pinReads =
      p.world.pinReads + turnReads env.log env.chksum h p.currBlocknr p.currTid := by
  have hone (htype : hBlocktype (env.log p.currBlocknr) ≠ jbd2DescriptorBlock) :
      turnReads env.log env.chksum h p.currBlocknr p.currTid = 1 := if_neg fun hd => htype hd.type
  have hread := @ccPinRead_pinReads env p.world p.currBlocknr
  rw [passStep_scan hph] at hs
  split_ifs at hs
  unfold blockTurn at hs
  dsimp only at hs
  split_ifs at hs with hh hd hc hr
  · unfold descrArm at hs
    dsimp only at hs
    split_ifs at hs with hv
    rw [hph] at hs
    dsimp only at hs
    obtain ⟨-, hreads⟩ := @csumVerify_reads_iff env h p.currBlocknr
      (ccPinRead env p.world p.currBlocknr).2 _ rfl
    obtain ⟨hok, hcount⟩ := checkedNext_reads hs
    rw [Bool.or_eq_true, not_or] at hh
    have hdescr : DescrOf env.chksum h (env.log p.currBlocknr) p.currTid :=
      ⟨⟨by simpa using hh.1, by simpa using hh.2, hd⟩, by simpa using hv⟩
    unfold turnReads
    rw [hcount, hreads hok, if_pos hdescr, ← Nat.add_assoc, hread]
  · unfold commitArm at hs
    dsimp only at hs
    split_ifs at hs
    rw [← Turn.next.inj hs, hone hd]
    exact hread
  · unfold revokeArm at hs
    have hne : p.phase ≠ .scanRevoke := by rw [hph]; decide
    dsimp only at hs
    simp only [if_neg hne] at hs
    split_ifs at hs
    rw [← Turn.next.inj hs, hone hd]
    exact hread
  · rw [← Turn.next.inj hs, hone hd]
    exact hread

/-! ### The runs of the scan -/

/-- A turn of the scan makes no entry, and does not fault. -/
theorem scan_no_fault {p q : Pass} (hph : p.phase = .scan) (ht : Tidy p) :
    passStep env h p ≠ .fault q := by
  intro hs
  have hag := @passStep_agrees env h p ht
  rw [hs] at hag
  cases hag with
  | fault hphase => rw [hph] at hphase; cases hphase

/-- Where a run of the scan is. -/
theorem scanAt_of_run {client : ℤ → Block} : ∀ m p,
    jbd2ReplayOnePass env h .scan (World.init client) m = .next p →
    p.phase = .scan ∧ Tidy p ∧ ScanAt env.log env.chksum h p.world.pinReads (pos p) := by
  intro m
  induction m with
  | zero => intro p hp; cases hp; exact ⟨rfl, tidy_passStart _ _, .start⟩
  | succ m ih =>
    intro q hq
    obtain ⟨p, hp, hs⟩ := passRun_succ_next hq
    obtain ⟨hph, ht, hat⟩ := ih p hp
    obtain ⟨hl, hphase, ht'⟩ := passStep_next ht hs
    refine ⟨hphase.trans hph, ht', ?_⟩
    rw [turn_reads hph hs]
    refine hat.next ?_
    unfold logStep
    rw [← hph, hl]
    rfl

theorem scan_run_no_fault {client : ℤ → Block} : ∀ m q,
    jbd2ReplayOnePass env h .scan (World.init client) m ≠ .fault q := by
  intro m
  induction m with
  | zero => nofun
  | succ m ih =>
    intro q hq
    unfold jbd2ReplayOnePass at hq ih
    rw [passRun_succ] at hq
    cases hrun : passRun env h (passStart h .scan (World.init client)) m with
    | next p =>
      rw [hrun] at hq
      obtain ⟨hph, ht, -⟩ := scanAt_of_run m p hrun
      exact scan_no_fault hph ht hq
    | done st p => rw [hrun] at hq; cases hq
    | fault p => exact ih p hrun

end

end Ext4Fsd.Journal.ScanReads
