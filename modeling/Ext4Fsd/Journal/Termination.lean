import Ext4Fsd.Journal.Runs
import Ext4Fsd.Journal.LogChain

/-! # When a pass ends

A pass ends on exactly the logs in which no transaction that it comes to runs on for ever
(`pass_ends_iff`): a block whose type has no arm is never passed, and the descriptor and revoke
blocks of one transaction may lead around the log. A commit block does no harm, since a block is
accepted for one transaction only. -/

namespace Ext4Fsd.Journal.Termination

open Ext4Fsd.Lib.CInt Ext4Fsd.Lib.Walk
open Ext4Fsd.Journal.Format Ext4Fsd.Journal.Tags Ext4Fsd.Journal.Recovery Ext4Fsd.Journal.Effects
open Ext4Fsd.Journal.Turns Ext4Fsd.Journal.LogChain Ext4Fsd.Journal.Runs

/-- The loop of `jbd2_replay_one_pass` ends after finitely many turns. -/
def PassEnds (env : Env) (h : Jbd2Handle) (phase : Phase) (w : World) : Prop :=
  ∃ n, ∀ p, jbd2ReplayOnePass env h phase w n ≠ .next p

section
variable {log : ℤ → Block} {chksum : Chksum} {h : Jbd2Handle} {phase : Phase}

/-- The positions whose components are 32-bit numbers. -/
def Positions : Set Pos := Set.range toI32 ×ˢ Set.range toI32

theorem logStep_mem {s t : Pos} (hs : s ∈ Positions) (hst : logStep log chksum h phase s = some t) :
    t ∈ Positions := by
  unfold logStep logNext logBlock logDescr logCommit logRevoke at hst
  split_ifs at hst <;> cases hst
  · exact ⟨advance_mem _ _, hs.2⟩
  · exact ⟨advance_mem _ _, ⟨_, rfl⟩⟩
  · exact ⟨advance_mem _ _, hs.2⟩
  · exact hs

theorem startPos_mem : startPos h ∈ Positions := ⟨⟨_, rfl⟩, ⟨_, rfl⟩⟩

/-- An oracle under which nothing fails but the allocations. -/
def noEntries : Oracle := ⟨fun _ => true, fun _ => true, fun _ => false⟩

theorem pass_ends_of_stops (o : Oracle) (w : World)
    (hs : Stops (logStep log chksum h phase) (startPos h)) :
    PassEnds ⟨log, chksum, o⟩ h phase w := by
  obtain ⟨n, hn⟩ := hs
  refine ⟨n, fun q hq => ?_⟩
  have hw : walk (logStep log chksum h phase) n (startPos h) = some (pos q) :=
    (passRun_walk (tidy_passStart phase w) n q hq).1
  rw [hn] at hw
  cases hw

theorem stops_of_pass_ends {w : World} (he : PassEnds ⟨log, chksum, noEntries⟩ h phase w) :
    Stops (logStep log chksum h phase) (startPos h) := by
  obtain ⟨n, hn⟩ := he
  by_contra hns
  obtain ⟨s, hs⟩ := Option.ne_none_iff_exists'.mp fun hnone => hns ⟨n, hnone⟩
  obtain ⟨q, hq, -⟩ := @passRun_of_walk ⟨log, chksum, noEntries⟩ h (passStart h phase w)
    (fun _ _ => rfl) (fun _ _ => rfl) (tidy_passStart phase w) (fun _ _ => rfl) n s hs
  exact hn q hq

end

/-- **A pass ends on a log, whatever fails besides the reads, if and only if the log lets it.** In
the scan no transaction of the chain from `s_start` and `s_sequence` on may run on for ever, nor may
the log be commit blocks only; the later passes look at a transaction 0 that recovery starts
with. -/
theorem pass_ends_iff (log : ℤ → Block) (chksum : Chksum) (h : Jbd2Handle) (phase : Phase) :
    (∀ (o : Oracle) (w : World), (∀ n, o.pinRead n = true) →
      PassEnds ⟨log, chksum, o⟩ h phase w) ↔ EndsOnLog log chksum h phase := by
  rw [← stops_iff]
  constructor
  · intro he
    exact stops_of_pass_ends (he noEntries (World.init fun _ _ => 0) fun _ => rfl)
  · intro hs o w _
    exact pass_ends_of_stops o w hs

/-! ### A log without an end -/

/-- A block that is zero past its header. -/
def headerBlock (type tid : ℕ) : Block :=
  putBe32 (putBe32 (putBe32 (fun _ => 0) 0 jbd2MagicNumber) 4 type) 8 tid

/-- A journal of the blocks 1 to 7, recovery to start at block 1 with the transaction `tid`. -/
def smallJournal (tid : ℕ) : Jbd2Handle where
  jhSb := putBe32 (putBe32 (fun _ => 0) 0x18 tid) 0x1c 1
  jhCsumSeed := 0
  jhBlocksize := 1024
  jhBlockcnt := 8
  jhUuid := List.replicate 16 0
  jhMaxTxn := 0
  jhStart := 1
  jhEnd := 7
  jhFreeStart := 1
  jhFreeEnd := 7
  jhFreeBlockcnt := 7

theorem smallJournal_start :
    sStart (smallJournal 1).jhSb = 1 ∧ sSequence (smallJournal 1).jhSb = 1 := by decide +kernel

/-- The transaction of a log of superblock copies runs on. -/
theorem superblockCopy_runsOn : RunsOn (fun _ => headerBlock 4 1) (fun _ _ _ => 0) (smallJournal 1)
    .scan (tidAt (smallJournal 1) 0) (sStart (smallJournal 1).jhSb) := by
  have htid : tidAt (smallJournal 1) 0 = 1 := by decide +kernel
  rw [htid]
  refine ⟨_, .refl, .inl ⟨4, ⟨?_, ?_, ?_⟩, ?_, ?_, ?_⟩⟩ <;> decide +kernel

/-- A block of type 4 that carries the expected tid is accepted and never passed. -/
theorem superblockCopy_never_ends :
    ¬ ∀ (log : ℤ → Block) (chksum : Chksum) (h : Jbd2Handle) (phase : Phase) (o : Oracle)
      (w : World), h.jhStart ≤ h.jhEnd → (∀ n, o.pinRead n = true) →
      PassEnds ⟨log, chksum, o⟩ h phase w := by
  intro hall
  have hlog : (smallJournal 1).jhStart ≤ (smallJournal 1).jhEnd := by norm_num [smallJournal]
  have hstops := stops_of_pass_ends (hall (fun _ => headerBlock 4 1) (fun _ _ _ => 0)
    (smallJournal 1) .scan noEntries (World.init fun _ _ => 0) hlog fun _ => rfl)
  exact (scan_stops_iff.mp hstops).1 0 _ .first superblockCopy_runsOn

end Ext4Fsd.Journal.Termination
