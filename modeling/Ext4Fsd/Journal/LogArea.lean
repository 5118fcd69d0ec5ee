import Ext4Fsd.Journal.Open
import Ext4Fsd.Journal.Hostile
import Ext4Fsd.Journal.Safety

/-! # Which blocks recovery reads

The cursor of a pass is checked against the log area nowhere but in `jbd2_wrap`, and there against
its end alone and with one subtraction; the data blocks of a descriptor block are read without a
wrap. `readsStayInLog_iff` is the condition on an opened journal under which no log content takes
recovery out of the area: `LogAreaFits`. -/

namespace Ext4Fsd.Journal.LogArea

open Ext4Fsd.Lib.CInt Ext4Fsd.Lib.Walk
open Ext4Fsd.Journal.Format Ext4Fsd.Journal.Tags Ext4Fsd.Journal.Recovery Ext4Fsd.Journal.Effects
open Ext4Fsd.Journal.Turns Ext4Fsd.Journal.Runs Ext4Fsd.Journal.Termination Ext4Fsd.Journal.Safety
open Ext4Fsd.Journal.Open Ext4Fsd.Journal.Hostile

/-- Some run on the log reads the block `b`. -/
def Reads (log : ℤ → Block) (chksum : Chksum) (h : Jbd2Handle) (b : ℤ) : Prop :=
  ∃ o client n, Event.pinRead b ∈
    (jbd2ReplayJournal ⟨log, chksum, o⟩ h (World.init client) n).world.events

/-- Recovery keeps to the log area, whatever the log holds and whatever fails. -/
structure ReadsStayInLog (chksum : Chksum) (h : Jbd2Handle) : Prop where
  inLog : ∀ log b, Reads log chksum h b → h.jhStart ≤ b ∧ b ≤ h.jhEnd
  freeBlocks : h.jhFreeBlockcnt = (Finset.Icc h.jhFreeStart h.jhFreeEnd).card
  empty : sStart h.jhSb = 0 → ∀ log b, ¬ Reads log chksum h b

/-- **The superblocks that keep recovery in the log area.** -/
structure LogAreaFits (h : Jbd2Handle) : Prop where
  first : sFirst h.jhSb = 1
  start : 1 ≤ sStart h.jhSb ∧ sStart h.jhSb ≤ h.jhEnd
  /-- No pass ever reads a data block. -/
  noData : Room h h.jhBlocksize → jbd2HasCsumV2or3 h.jhSb = false ∧ sSequence h.jhSb ≠ 0
  /-- The widest advance is one turn around the ring at most, and does not overflow. -/
  ring : (maxTags h + 1 : ℤ) ≤ h.jhEnd
  noOverflow : h.jhEnd + (maxTags h + 1) < 2 ^ 31

section
variable {h : Jbd2Handle}

theorem tagLimit_le : tagLimit h ≤ h.jhBlocksize := by
  unfold tagLimit
  split_ifs <;> omega

theorem room_mono {a b : ℤ} (hr : Room h a) (hab : a ≤ b) : Room h b := by
  unfold Room at *
  omega

theorem maxTags_of_no_room (hr : ¬ Room h h.jhBlocksize) : maxTags h = 0 := by
  have hlim := tagLimit_le (h := h)
  unfold Room at hr
  unfold maxTags
  refine Nat.div_eq_of_lt ?_
  have hmin := jbd2MinTagSize_ge h
  omega

/-! ### Staying in the area -/

/-- An advance that is not too wide stays in the ring of the blocks from 1 on. -/
theorem advance_mem_ring (hs : h.jhStart = 1) {b : ℤ} {n : ℕ} (hb : 1 ≤ b ∧ b ≤ h.jhEnd)
    (hn : 1 ≤ n) (hring : (n : ℤ) ≤ h.jhEnd) (hov : h.jhEnd + n < 2 ^ 31) :
    1 ≤ advance h b n ∧ advance h b n ≤ h.jhEnd := by
  unfold advance jbd2Wrap
  rw [toI32_of_range (x := b + n) (by omega) (by omega), hs]
  split_ifs
  · rw [toI32_of_range (by omega) (by omega)]
    omega
  · omega

theorem logStep_mem_ring (hs : h.jhStart = 1) (hf : LogAreaFits h) {log : ℤ → Block}
    {chksum : Chksum} {phase : Phase} {s t : Pos} (hb : 1 ≤ s.1 ∧ s.1 ≤ h.jhEnd)
    (hst : logStep log chksum h phase s = some t) : 1 ≤ t.1 ∧ t.1 ≤ h.jhEnd := by
  have hcount := jbd2CountTags_le h (log s.1)
  have hring := hf.ring
  have hov := hf.noOverflow
  have hone := advance_mem_ring (n := 1) hs hb le_rfl (by omega) (by omega)
  unfold logStep logNext logBlock logDescr logCommit logRevoke at hst
  split_ifs at hst <;> cases hst
  · exact advance_mem_ring hs hb (by omega) (by push_cast; omega) (by push_cast; omega)
  · exact hone
  · exact hone
  · exact hb

theorem reads_mem_ring (hs : h.jhStart = 1) (hf : LogAreaFits h) {log : ℤ → Block}
    {chksum : Chksum} {b : ℤ} (hr : Reads log chksum h b) : 1 ≤ b ∧ b ≤ h.jhEnd := by
  obtain ⟨o, client, n, he⟩ := hr
  rcases recovery_events n _ he with h0 | ⟨m, p, hp, hb, hem⟩
  · cases h0
  obtain ⟨ht, k, hk⟩ := recovery_walk m p hp
  have hring := walk_invariant (P := fun s : Pos => 1 ≤ s.1 ∧ s.1 ≤ h.jhEnd)
    (by rw [startPos_fst]; exact hf.start)
      (fun _ _ hs' hst => logStep_mem_ring hs hf hs' hst) k _ hk
  have hmem := walk_invariant startPos_mem (fun _ _ hs' hst => logStep_mem hs' hst) k _ hk
  cases hem with
  | head => exact hring
  | csumData nr hphase hcsum hroom =>
    rw [(hf.noData hroom).1] at hcsum
    cases hcsum
  | replayData nr hrep hroom =>
    rw [hrep.1] at hk
    have h0 := tid_eq_zero_of_not_beyond ht hrep.1 hmem hb
    exact absurd (sSequence_eq_zero hk h0) (hf.noData (room_mono hroom tagLimit_le)).2

/-! ### Leaving the area -/

section
variable {chksum : Chksum}

/-- The first turn of the scan reads the start. -/
theorem reads_start (log : ℤ → Block) (chksum : Chksum) : Reads log chksum h (sStart h.jhSb) := by
  refine ⟨noEntries, fun _ _ => 0, 0 + 1, ?_⟩
  exact recovery_event (p := passStart h .scan _) rfl (head_event fun hb => hb.1 rfl)

/-- Where a walk of the scan comes to is read. -/
theorem reads_of_walk {log : ℤ → Block} {n : ℕ} {s : Pos}
    (hw : walk (logStep log chksum h .scan) n (startPos h) = some s) : Reads log chksum h s.1 := by
  obtain ⟨q, hq, rfl, hre⟩ := @passRun_of_walk ⟨log, chksum, noEntries⟩ h
    (passStart h .scan (World.init fun _ _ => 0)) (fun _ _ => rfl) (fun _ _ => rfl)
    (tidy_passStart _ _) nofun n s hw
  refine ⟨noEntries, fun _ _ => 0, 0 + n + 1, ?_⟩
  exact recovery_event (jbd2ReplayJournal_add (m := 0) rfl n q hq)
    (head_event fun hb => hb.1 hre.phase)

/-- With checksums, the scan reads the block behind a descriptor block it comes to. -/
theorem reads_of_walk_descr {log : ℤ → Block} {n : ℕ} {b tid : ℤ}
    (hw : walk (logStep log chksum h .scan) n (startPos h) = some (b, tid))
    (hd : DescrOf chksum h (log b) tid) (hcs : jbd2HasCsumV2or3 h.jhSb = true)
    (hroom : Room h h.jhBlocksize) : Reads log chksum h (toI32 (b + 1)) := by
  obtain ⟨q, hq, hpos, hre⟩ := @passRun_of_walk ⟨log, chksum, noEntries⟩ h
    (passStart h .scan (World.init fun _ _ => 0)) (fun _ _ => rfl) (fun _ _ => rfl)
    (tidy_passStart _ _) nofun n _ hw
  obtain ⟨rfl, rfl⟩ := Prod.mk.inj hpos
  refine ⟨noEntries, fun _ _ => 0, 0 + n + 1, ?_⟩
  exact recovery_event (jbd2ReplayJournal_add (m := 0) rfl n q hq)
    (csum_event_of_descr hre.phase rfl hd (csumVerify_reads _ _ _ hcs hroom))

/-- The end of the ring, and the blocks that lead there from the start. -/
structure Inside (h : Jbd2Handle) : Prop where
  start : 1 ≤ sStart h.jhSb
  le_end : sStart h.jhSb ≤ h.jhEnd
  lt : h.jhEnd < 2 ^ 31

/-- The number of steps from the start to the end of the ring. -/
def toEnd (h : Jbd2Handle) : ℕ := (h.jhEnd - sStart h.jhSb).toNat

theorem advance_one (hi : Inside h) {i : ℕ} (hlt : i < toEnd h) :
    advance h (sStart h.jhSb + i) 1 = sStart h.jhSb + (i + 1 : ℕ) := by
  have h1 := hi.start
  have h2 := hi.lt
  unfold toEnd at hlt
  unfold advance jbd2Wrap
  rw [toI32_of_range (by push_cast; omega) (by push_cast; omega), if_neg (by push_cast; omega)]
  push_cast
  ring

/-- A log of commit blocks that lead to `last`, the last block of the ring. -/
def commitLog (chksum : Chksum) (h : Jbd2Handle) (last : Block) : ℤ → Block := fun b =>
  if b = h.jhEnd then last
  else sealBlock chksum h commitChksumOffset
    (rawBlock h 2 (toI32 (sSequence h.jhSb + (b - sStart h.jhSb))))

theorem walk_commitLog (chksum : Chksum) (hi : Inside h) (last : Block) :
    walk (logStep (commitLog chksum h last) chksum h .scan) (toEnd h) (startPos h) =
      some (h.jhEnd, toI32 (sSequence h.jhSb + toEnd h)) := by
  have hsteps := walk_of_steps (f := logStep (commitLog chksum h last) chksum h .scan)
    (s := fun i : ℕ => (sStart h.jhSb + (i : ℤ), toI32 (sSequence h.jhSb + (i : ℤ))))
    (n := toEnd h) ?_
  · have hend : sStart h.jhSb + (toEnd h : ℤ) = h.jhEnd := by
      have := hi.le_end
      unfold toEnd
      omega
    have hseq : toI32 (sSequence h.jhSb + ((0 : ℕ) : ℤ)) = sSequence h.jhSb := by
      rw [Nat.cast_zero, add_zero]
      exact toI32_toI32 _
    rw [hseq, hend, Nat.cast_zero, add_zero] at hsteps
    exact hsteps
  · intro i hlt
    have hne : sStart h.jhSb + (i : ℤ) ≠ h.jhEnd := by
      unfold toEnd at hlt
      omega
    have hblock : commitLog chksum h last (sStart h.jhSb + i) = sealBlock chksum h
        commitChksumOffset (rawBlock h 2 (toI32 (sSequence h.jhSb + i))) := by
      unfold commitLog
      rw [if_neg hne, add_sub_cancel_left]
    have hc : CommitOf chksum h (commitLog chksum h last (sStart h.jhSb + i))
        (toI32 (sSequence h.jhSb + i)) := by
      rw [hblock]
      exact commitOf_sealBlock ⟨_, rfl⟩
    have hnext : logNext (commitLog chksum h last) chksum h .scan _ = _ :=
      logNext_commit (.inl rfl) hc
    rw [advance_one hi hlt, toI32_toI32_add, add_assoc] at hnext
    unfold logStep
    rw [hnext]
    push_cast
    rfl

/-- A log of revoke blocks of the transaction 0 that lead to `last`. -/
def revokeLog (h : Jbd2Handle) (last : Block) : ℤ → Block := fun b =>
  if b = h.jhEnd then last else rawBlock h 5 0

theorem chainPos_revokeLog (hi : Inside h) : ∀ i ≤ toEnd h, chainPos h i = sStart h.jhSb + i := by
  intro i
  induction i with
  | zero => intro _; rw [chainPos_zero, Nat.cast_zero, add_zero]
  | succ i ih =>
    intro hle
    rw [chainPos_succ, ih (by omega), advance_one hi (by omega)]

theorem toEnd_cast (hi : Inside h) : sStart h.jhSb + (toEnd h : ℤ) = h.jhEnd := by
  have := hi.le_end
  unfold toEnd
  omega

/-- Without checksums, but with the transaction 0 expected, the replay pass reads the block behind
the end. -/
theorem reads_of_replay (hi : Inside h) (h0 : sSequence h.jhSb = 0)
    (hcs : jbd2HasCsumV2or3 h.jhSb = false) (hroom : Room h h.jhBlocksize) :
    Reads (revokeLog h (rawBlock h 1 0)) chksum h (toI32 (h.jhEnd + 1)) := by
  have hlim : tagLimit h = h.jhBlocksize := by
    unfold tagLimit
    rw [if_neg (by simp [hcs])]
  have hzero : (0 : ℤ) ∈ Set.range toI32 := ⟨0, by decide⟩
  have hr : ∀ i < toEnd h, RevokeOf chksum h (revokeLog h (rawBlock h 1 0) (chainPos h i)) 0 := by
    intro i hlt
    rw [chainPos_revokeLog hi i hlt.le]
    unfold revokeLog
    rw [if_neg (by unfold toEnd at hlt; omega)]
    exact revokeOf_rawBlock hzero hcs
  have hend : chainPos h (toEnd h) = h.jhEnd := by
    rw [chainPos_revokeLog hi _ le_rfl, toEnd_cast hi]
  have hd : DescrOf chksum h (revokeLog h (rawBlock h 1 0) (chainPos h (toEnd h))) 0 := by
    rw [hend]
    unfold revokeLog
    rw [if_pos rfl]
    exact descrOf_rawBlock hzero hcs
  obtain ⟨q, ha⟩ := @exists_atChain h ⟨revokeLog h (rawBlock h 1 0), chksum, failTwice⟩ rfl h0
    (toEnd h) hr fun _ _ => 0
  obtain ⟨hread, -⟩ := ha.replays rfl hd (hlim ▸ hroom)
  rw [hend] at hread
  exact ⟨failTwice, fun _ _ => 0, 2 + toEnd h + 1, recovery_event ha.run hread⟩

/-- With checksums, the scan does. -/
theorem reads_of_csum (chksum : Chksum) (hi : Inside h) (hcs : jbd2HasCsumV2or3 h.jhSb = true)
    (hroom : Room h h.jhBlocksize) :
    ∃ log, Reads log chksum h (toI32 (h.jhEnd + 1)) := by
  obtain ⟨tid, htid⟩ : ∃ tid, tid = toI32 (sSequence h.jhSb + toEnd h) := ⟨_, rfl⟩
  have hwalk := walk_commitLog chksum hi
    (sealBlock chksum h (tailOffset h) (rawBlock h 1 tid))
  rw [← htid] at hwalk
  refine ⟨_, reads_of_walk_descr hwalk ?_ hcs hroom⟩
  unfold commitLog
  rw [if_pos rfl]
  exact descrOf_sealBlock ⟨_, htid.symm⟩ hroom

/-- Some log takes the scan from the end of the ring as far as a block can. -/
theorem reads_widest (chksum : Chksum) (hi : Inside h)
    (hno : Room h h.jhBlocksize → jbd2HasCsumV2or3 h.jhSb = false) :
    ∃ log, Reads log chksum h (advance h h.jhEnd (maxTags h + 1)) := by
  obtain ⟨tid, htid⟩ : ∃ tid, tid = toI32 (sSequence h.jhSb + toEnd h) := ⟨_, rfl⟩
  have hmem : tid ∈ Set.range toI32 := ⟨_, htid.symm⟩
  suffices hlast : ∃ last tid', ∀ log : ℤ → Block, log h.jhEnd = last →
      logNext log chksum h .scan (h.jhEnd, tid) =
        .ok (advance h h.jhEnd (maxTags h + 1), tid') by
    obtain ⟨last, tid', hnext⟩ := hlast
    have hwalk := walk_commitLog chksum hi last
    rw [← htid] at hwalk
    refine ⟨commitLog chksum h last, reads_of_walk (n := toEnd h + 1) (s := (_, tid')) ?_⟩
    rw [walk_succ, hwalk, Option.bind_some, logStep, hnext _ (if_pos rfl)]
    rfl
  by_cases hroom : Room h h.jhBlocksize
  · have hcs := hno hroom
    refine ⟨rawBlock h 1 tid, tid, fun log hlog => ?_⟩
    have hd : DescrOf chksum h (log h.jhEnd) tid := by
      rw [hlog]
      exact descrOf_rawBlock hmem hcs
    have hst : (dataCsumStatus log chksum h h.jhEnd).ntSuccess = true := by
      unfold dataCsumStatus
      rw [if_pos (by simp [hcs])]
      rfl
    rw [logNext_descr (.inl rfl) hd fun _ => hst, hlog, countTags_rawBlock hcs]
  · refine ⟨sealBlock chksum h commitChksumOffset (rawBlock h 2 tid), toI32 (tid + 1),
      fun log hlog => ?_⟩
    have hc : CommitOf chksum h (log h.jhEnd) tid := by
      rw [hlog]
      exact commitOf_sealBlock hmem
    rw [logNext_commit (.inl rfl) hc, maxTags_of_no_room hroom]

end

end

/-! ### The condition -/

theorem end_lt (j : OpenedJournal) : j.handle.jhEnd < 2 ^ 31 := toI32_lt _

theorem maxTags_lt (j : OpenedJournal) : (maxTags j.handle : ℤ) < 2 ^ 31 := by
  have hlim := tagLimit_le (h := j.handle)
  have hbs : j.handle.jhBlocksize < 2 ^ 31 := toI32_lt _
  have hdiv := Nat.div_le_self (tagLimit j.handle - sizeofJournalHeader).toNat
    (jbd2MinTagSize j.handle)
  unfold maxTags
  unfold sizeofJournalHeader at *
  omega

/-- The block read after the end of the ring without a wrap is outside. -/
theorem toI32_succ_not_mem {e : ℤ} (h0 : 1 ≤ e) (h1 : e < 2 ^ 31) :
    ¬ (1 ≤ toI32 (e + 1) ∧ toI32 (e + 1) ≤ e) := by
  unfold toI32
  omega

/-- An advance from the end that stays in the ring is not too wide. -/
theorem of_advance_mem_ring {h : Jbd2Handle} (hs : h.jhStart = 1) (h0 : 1 ≤ h.jhEnd)
    (h1 : h.jhEnd < 2 ^ 31) {n : ℕ} (hn : 1 ≤ n) (hn' : (n : ℤ) ≤ 2 ^ 31)
    (hmem : 1 ≤ advance h h.jhEnd n ∧ advance h h.jhEnd n ≤ h.jhEnd) :
    (n : ℤ) ≤ h.jhEnd ∧ h.jhEnd + n < 2 ^ 31 := by
  unfold advance jbd2Wrap at hmem
  rw [hs] at hmem
  by_cases hov : h.jhEnd + n < 2 ^ 31
  · rw [toI32_of_range (x := h.jhEnd + n) (by omega) hov, if_pos (by omega),
      toI32_of_range (by omega) (by omega)] at hmem
    omega
  · rw [toI32_of_ge (x := h.jhEnd + n) (by omega) (by omega), if_neg (by omega)] at hmem
    omega

theorem readsStayInLog_of_fits (chksum : Chksum) (j : OpenedJournal)
    (hf : LogAreaFits j.handle) : ReadsStayInLog chksum j.handle := by
  have hs : j.handle.jhStart = 1 := hf.first
  have hend := hf.start
  refine ⟨fun log b hr => ?_, ?_, fun h0 => ?_⟩
  · rw [hs]
    exact reads_mem_ring hs hf hr
  · have hlo : j.handle.jhFreeStart = 1 := hf.first
    have hhi : j.handle.jhFreeEnd = j.handle.jhEnd := rfl
    have hcnt : j.handle.jhFreeBlockcnt = j.handle.jhEnd := rfl
    rw [hlo, hhi, hcnt, Int.card_Icc]
    omega
  · rw [h0] at hend
    omega

theorem fits_of_readsStayInLog (chksum : Chksum) (j : OpenedJournal)
    (hp : ReadsStayInLog chksum j.handle) : LogAreaFits j.handle := by
  have hstart := hp.inLog _ _ (reads_start (fun _ _ => 0) chksum)
  have hlt := end_lt j
  have hs : j.handle.jhStart = 1 := by
    have hfree := hp.freeBlocks
    have hlo : j.handle.jhFreeStart = j.handle.jhStart := rfl
    have hhi : j.handle.jhFreeEnd = j.handle.jhEnd := rfl
    have hcnt : j.handle.jhFreeBlockcnt = j.handle.jhEnd := rfl
    rw [hlo, hhi, hcnt, Int.card_Icc] at hfree
    omega
  rw [hs] at hstart
  have hi : Inside j.handle := ⟨hstart.1, hstart.2, hlt⟩
  have hin : ∀ log b, Reads log chksum j.handle b → 1 ≤ b ∧ b ≤ j.handle.jhEnd := by
    intro log b hr
    rw [← hs]
    exact hp.inLog log b hr
  have hout := toI32_succ_not_mem (hstart.1.trans hstart.2) hlt
  have hdata : Room j.handle j.handle.jhBlocksize →
      jbd2HasCsumV2or3 j.handle.jhSb = false ∧ sSequence j.handle.jhSb ≠ 0 := by
    intro hroom
    cases hcs : jbd2HasCsumV2or3 j.handle.jhSb with
    | true =>
      obtain ⟨log, hr⟩ := reads_of_csum chksum hi hcs hroom
      exact absurd (hin _ _ hr) hout
    | false =>
      exact ⟨rfl, fun h0 => hout (hin _ _ (reads_of_replay hi h0 hcs hroom))⟩
  obtain ⟨log, hr⟩ := reads_widest chksum hi fun hroom => (hdata hroom).1
  have hmax := maxTags_lt j
  have hwide := of_advance_mem_ring hs (hstart.1.trans hstart.2) hlt (by omega)
    (by push_cast; omega) (hin _ _ hr)
  push_cast at hwide
  exact ⟨hs, hstart, hdata, hwide.1, hwide.2⟩

/-- **Recovery keeps to the log area of an opened journal, on every log content, if and only if the
superblock fits it.** -/
theorem readsStayInLog_iff (chksum : Chksum) (j : OpenedJournal) :
    ReadsStayInLog chksum j.handle ↔ LogAreaFits j.handle :=
  ⟨fits_of_readsStayInLog chksum j, readsStayInLog_of_fits chksum j⟩

/-- A superblock of a clean journal of 8 blocks: nothing to recover, and a feature that the driver
does not know. -/
def cleanSuperblock : Block :=
  putBe32 (putBe32 (putBe32 (putBe32 (putBe32 (putBe32 (putBe32 (fun _ => 0) 0 jbd2MagicNumber)
    4 4) 0x0c 1024) 0x10 8) 0x14 1) 0x28 0x20) 0x2c 1

def cleanJournal : OpenedJournal where
  sb := cleanSuperblock
  logSize := 8192
  blocksize := 1024
  blocksize_range := by norm_num
  logSize_range := by norm_num
  checked := by decide +kernel

/-- An empty log is read. -/
theorem cleanJournal_read :
    ¬ ∀ (chksum : Chksum) (j : OpenedJournal), ReadsStayInLog chksum j.handle := by
  intro hall
  have h0 : sStart cleanJournal.handle.jhSb = 0 := by decide +kernel
  exact (hall (fun _ _ _ => 0) cleanJournal).empty h0 _ _ (reads_start (fun _ _ => 0) _)

end Ext4Fsd.Journal.LogArea
