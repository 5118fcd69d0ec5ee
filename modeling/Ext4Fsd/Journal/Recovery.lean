import Ext4Fsd.Journal.Tags

/-! # Recovery

`jbd2_replay_journal` and the three passes it makes over the log. The loop of
`jbd2_replay_one_pass` is the step function `passStep` on the locals of one pass, and recovery as a
whole the step function `recoveryStep`: a run is an iteration, so that a statement about every run
is one about every number of steps.

The cache manager and the lookaside list answer from an `Oracle`: the `n`-th `CcPinRead`, the
`n`-th `CcPreparePinWrite` and the `n`-th allocation succeed or fail as it says. The log and the
client are different files, addressed by block number. What a run does is recorded in `events`. -/

namespace Ext4Fsd.Journal.Recovery

open Ext4Fsd.Lib.CInt Ext4Fsd.Journal.Format Ext4Fsd.Journal.Tags

inductive Phase
  | scan
  | scanRevoke
  | replay
  deriving DecidableEq, Repr

/-- The answers of the cache manager and of the allocator, by call. -/
structure Oracle where
  pinRead : ℕ → Bool
  pinWrite : ℕ → Bool
  alloc : ℕ → Bool

/-- What recovery runs against: the blocks of the log file, the checksum routine, the oracle. -/
structure Env where
  log : ℤ → Block
  chksum : Chksum
  oracle : Oracle

/-- What a run has done so far, oldest first. -/
inductive Event
  /-- `CcPinRead` of a block of the log. -/
  | pinRead (blocknr : ℤ)
  /-- A metadata block has been handled by a pass, which moves on. -/
  | visit (phase : Phase) (blocknr type tid : ℤ)
  /-- The block of the `nr`-th tag of the descriptor block `descr` is written to the client. -/
  | write (tid descr nr fsBlocknr : ℤ)
  deriving DecidableEq, Repr

structure Jbd2RevokeEntry where
  thRefcount : ℤ
  reIsNew : Bool
  reTid : ℤ
  deriving DecidableEq, Repr

/-- The state recovery changes: the client file, the revoke table and the call counters. -/
structure World where
  client : ℤ → Block
  revokeTable : ℤ → Option Jbd2RevokeEntry
  pinReads : ℕ
  pinWrites : ℕ
  allocs : ℕ
  events : List Event

def World.record (w : World) (e : Event) : World := { w with events := w.events ++ [e] }

variable (env : Env) (h : Jbd2Handle)

/-- `CcPinRead` of the log block `blocknr`. -/
def ccPinRead (w : World) (blocknr : ℤ) : Bool × World :=
  (env.oracle.pinRead w.pinReads,
    { w.record (.pinRead blocknr) with pinReads := w.pinReads + 1 })

/-- `CcPreparePinWrite` of a client block. -/
def ccPreparePinWrite (w : World) : Bool × World :=
  (env.oracle.pinWrite w.pinWrites, { w with pinWrites := w.pinWrites + 1 })

/-! ### The revoke table -/

def setRevoke (w : World) (blocknr : ℤ) (e : Option Jbd2RevokeEntry) : World :=
  { w with revokeTable := Function.update w.revokeTable blocknr e }

/-- `jbd2_revoke_entry_find`: the entry, with one more reference. -/
def jbd2RevokeEntryFind (w : World) (blocknr : ℤ) : Option Jbd2RevokeEntry × World :=
  match w.revokeTable blocknr with
  | none => (none, w)
  | some re =>
    let re' := { re with thRefcount := re.thRefcount + 1 }
    (some re', setRevoke w blocknr (some re'))

/-- `jbd2_revoke_entry_put`. `drv_atomic_sub_and_test` is true when the count reaches zero, and the
entry is removed when it is *not*. -/
def jbd2RevokeEntryPut (w : World) (blocknr : ℤ) : World :=
  match w.revokeTable blocknr with
  | none => w
  | some re =>
    if re.thRefcount - 1 = 0 then
      setRevoke w blocknr (some { re with thRefcount := re.thRefcount - 1 })
    else setRevoke w blocknr none

/-- What `jbd2_revoke_entry_get` comes to. -/
inductive GetResult
  | noMemory
  /-- A store through the null pointer. -/
  | fault
  | entry (re : Jbd2RevokeEntry)

/-- `jbd2_revoke_entry_get`. `RB_INSERT` returns null when it has inserted the new node; the code
takes that for another node, frees the new one and stores `re_is_new` through the null pointer. -/
def jbd2RevokeEntryGet (w : World) (blocknr : ℤ) : GetResult × World :=
  let w' := { w with allocs := w.allocs + 1 }
  if !env.oracle.alloc w.allocs then (.noMemory, w')
  else
    match w.revokeTable blocknr with
    | none => (.fault, w')
    | some re =>
      let re' := { re with reIsNew := false, thRefcount := re.thRefcount + 1 }
      (.entry re', setRevoke w' blocknr (some re'))

/-- `jbd2_revoke_table_clear`: a put on every entry. -/
def jbd2RevokeTableClear (w : World) : World :=
  { w with revokeTable := fun blocknr =>
      match w.revokeTable blocknr with
      | none => none
      | some re =>
        if re.thRefcount - 1 = 0 then some { re with thRefcount := re.thRefcount - 1 } else none }

/-! ### One metadata block -/

/-- The loop of `jbd2_blocks_csum_verify` from the tag at `tagp`. The bound is the whole block,
checksum tail included. -/
def jbd2BlocksCsumVerifyLoop (blocknr : ℤ) (buf : Block) : ℕ → ℕ → ℤ → World → NtStatus × World
  | 0, _, _, w => (.success, w)
  | fuel + 1, tagp, nr, w =>
    if (tagp : ℤ) + jbd2MinTagSize h ≤ h.jhBlocksize then
      let from_ := toI32 (blocknr + nr)
      let r := ccPinRead env w from_
      if !r.1 then (.unexpectedIoError, r.2)
      else
        let sum := env.chksum h.jhCsumSeed (env.log from_) h.jhBlocksize
        let calculated := if jbd2HasFeatureCsum2 h.jhSb then sum % 2 ^ 16 else sum
        if calculated ≠ jbd2TagCsum h buf tagp then (.unsuccessful, r.2)
        else if jbd2TestFlag h buf tagp jbd2FlagLastTag then (.success, r.2)
        else
          jbd2BlocksCsumVerifyLoop blocknr buf fuel (tagp + jbd2TagSize h buf tagp) (nr + 1) r.2
    else (.success, w)

/-- `jbd2_blocks_csum_verify`. -/
def jbd2BlocksCsumVerify (blocknr : ℤ) (buf : Block) (w : World) : NtStatus × World :=
  if !jbd2HasCsumV2or3 h.jhSb then (.success, w)
  else jbd2BlocksCsumVerifyLoop env h blocknr buf h.jhBlocksize.toNat sizeofJournalHeader 1 w

/-- The un-escaped copy of a data block: the magic number is put back when the tag says so. -/
def unescape (escape : Bool) (b : Block) : Block :=
  if escape then putBe32 b 0 jbd2MagicNumber else b

/-- The body of the loop of `jbd2_replay_descr_block` past the revoke check: read the data block of
the tag and write it to the client block. -/
def replayTag (tid blocknr : ℤ) (buf : Block) (tagp : ℕ) (nr : ℤ) (w : World) : NtStatus × World :=
  let fsBlocknr := jbd2TagBlocknr h buf tagp
  let from_ := toI32 (blocknr + nr)
  let r := ccPinRead env w from_
  if !r.1 then (.unexpectedIoError, r.2)
  else
    let r' := ccPreparePinWrite env r.2
    if !r'.1 then (.unexpectedIoError, r'.2)
    else
      let data := unescape (jbd2TestFlag h buf tagp jbd2FlagEscape) (env.log from_)
      (.success, { r'.2.record (.write tid blocknr nr fsBlocknr) with
        client := Function.update r'.2.client fsBlocknr data })

/-- The revoke check of one tag: the entry for the block, found and put back. -/
def revokeCheck (w : World) (fsBlocknr : ℤ) : Option Jbd2RevokeEntry × World :=
  let r := jbd2RevokeEntryFind w fsBlocknr
  if r.1.isSome then (r.1, jbd2RevokeEntryPut r.2 fsBlocknr) else r

/-- The tag is suppressed by the entry found for its block. -/
def revoked (tid : ℤ) (entry : Option Jbd2RevokeEntry) : Bool :=
  entry.any fun re => decide (jbd2TidCmp tid re.reTid ≤ 0)

/-- The loop of `jbd2_replay_descr_block` from the tag at `tagp`. A revoked tag is passed by
`continue`, before the flag of the last tag is looked at. -/
def jbd2ReplayDescrBlockLoop (tid blocknr : ℤ) (buf : Block) :
    ℕ → ℕ → ℤ → World → NtStatus × World
  | 0, _, _, w => (.success, w)
  | fuel + 1, tagp, nr, w =>
    if (tagp : ℤ) + jbd2MinTagSize h ≤ tagLimit h then
      let r := revokeCheck w (jbd2TagBlocknr h buf tagp)
      if revoked tid r.1 then
        jbd2ReplayDescrBlockLoop tid blocknr buf fuel (tagp + jbd2TagSize h buf tagp) (nr + 1) r.2
      else
        let r' := replayTag env h tid blocknr buf tagp nr r.2
        if !r'.1.ntSuccess then r'
        else if jbd2TestFlag h buf tagp jbd2FlagLastTag then r'
        else
          jbd2ReplayDescrBlockLoop tid blocknr buf fuel (tagp + jbd2TagSize h buf tagp)
            (nr + 1) r'.2
    else (.success, w)

/-- `jbd2_replay_descr_block`. -/
def jbd2ReplayDescrBlock (tid blocknr : ℤ) (buf : Block) (w : World) : NtStatus × World :=
  jbd2ReplayDescrBlockLoop env h tid blocknr buf h.jhBlocksize.toNat sizeofJournalHeader 1 w

/-- `jbd2_revoke_entry_size`. -/
def jbd2RevokeEntrySize : ℕ := if jbd2HasFeature64bit h.jhSb then 8 else 4

/-- `jbd2_revoke_entry_blocknr`. -/
def jbd2RevokeEntryBlocknr (buf : Block) (entry : ℕ) : ℤ :=
  if jbd2HasFeature64bit h.jhSb then be64ToCpu buf entry else be32ToCpu buf entry

/-- The loop of `jbd2_scan_revoke_entries` from the entry at `bufp`; `none` is a fault. -/
def jbd2ScanRevokeEntriesLoop (tid : ℤ) (buf : Block) (rcount : ℤ) :
    ℕ → ℕ → World → Option NtStatus × World
  | 0, _, w => (some .success, w)
  | fuel + 1, bufp, w =>
    if (bufp : ℤ) + jbd2RevokeEntrySize h ≤ rcount then
      let fsBlocknr := jbd2RevokeEntryBlocknr h buf bufp
      match jbd2RevokeEntryGet env w fsBlocknr with
      | (.noMemory, w) => (some .insufficientResources, w)
      | (.fault, w) => (none, w)
      | (.entry re, w) =>
        let w := jbd2RevokeEntryPut (setRevoke w fsBlocknr (some { re with reTid := tid }))
          fsBlocknr
        jbd2ScanRevokeEntriesLoop tid buf rcount fuel (bufp + jbd2RevokeEntrySize h) w
    else (some .success, w)

/-- `r_count` as the `size_t` it is read into. -/
def rcount (buf : Block) : ℤ := toU64 (be32ToCpu buf 12)

/-- The bytes of a block that revoke entries may fill, a `size_t`. -/
def rcountLimit : ℤ :=
  toU64 (h.jhBlocksize - if jbd2HasCsumV2or3 h.jhSb then sizeofJournalBlockTail else 0)

/-- `jbd2_scan_revoke_entries`. The entries are taken to start right after the common header. -/
def jbd2ScanRevokeEntries (tid : ℤ) (buf : Block) (w : World) : Option NtStatus × World :=
  if rcount buf > rcountLimit h then (some .diskCorruptError, w)
  else
    jbd2ScanRevokeEntriesLoop env h tid buf (rcount buf) (rcount buf).toNat sizeofJournalHeader w

/-! ### One pass -/

structure RecoveryInfo where
  riStartTxn : ℤ
  riEndTxn : ℤ
  riHasTxn : Bool
  deriving DecidableEq, Repr

/-- The locals of `jbd2_replay_one_pass`, and the world. -/
structure Pass where
  phase : Phase
  currBlocknr : ℤ
  currTid : ℤ
  status : NtStatus
  info : RecoveryInfo
  world : World

/-- What one turn of the loop comes to. -/
inductive Turn
  | next (p : Pass)
  | done (status : NtStatus) (p : Pass)
  | fault (p : Pass)

/-- The locals where the turn ends. -/
def Turn.pass : Turn → Pass
  | .next p => p
  | .done _ p => p
  | .fault p => p

/-- The start of a pass. `recovery_info` is cleared in every phase. -/
def passStart (phase : Phase) (w : World) : Pass where
  phase := phase
  currBlocknr := sStart h.jhSb
  currTid := sSequence h.jhSb
  status := .success
  info := ⟨if phase = .scan then sSequence h.jhSb else 0, 0, false⟩
  world := w

/-- The status of a pass that stops at a block that does not verify. -/
def stopStatus : Phase → NtStatus
  | .scan => .success
  | _ => .diskCorruptError

/-- `curr_blocknr += n; jbd2_wrap (handle, curr_blocknr)`. -/
def advance (blocknr : ℤ) (n : ℕ) : ℤ := jbd2Wrap h (toI32 (blocknr + n))

def Pass.visit (p : Pass) (type : ℤ) : Pass :=
  { p with world := p.world.record (.visit p.phase p.currBlocknr type p.currTid) }

/-- The move from a descriptor block to the block after its data. -/
def descrNext (nrTags : ℕ) (p : Pass) : Pass :=
  { p.visit jbd2DescriptorBlock with currBlocknr := advance h p.currBlocknr (nrTags + 1) }

/-- `if (!NT_SUCCESS (status)) goto end;`, else the move. -/
def checkedNext (nrTags : ℕ) (p : Pass) (r : NtStatus × World) : Turn :=
  let p := { p with status := r.1, world := r.2 }
  if !r.1.ntSuccess then .done r.1 p else .next (descrNext h nrTags p)

/-- The arm of `JBD2_DESCRIPTOR_BLOCK`. -/
def descrArm (buf : Block) (p : Pass) : Turn :=
  if !jbd2VerifyDescrBlock env.chksum h buf then .done (stopStatus p.phase) p
  else
    let nrTags := jbd2CountTags h buf
    match p.phase with
    | .scan => checkedNext h nrTags p (jbd2BlocksCsumVerify env h p.currBlocknr buf p.world)
    | .scanRevoke => .next (descrNext h nrTags p)
    | .replay =>
      checkedNext h nrTags p (jbd2ReplayDescrBlock env h p.currTid p.currBlocknr buf p.world)

/-- The arm of `JBD2_COMMIT_BLOCK`. -/
def commitArm (buf : Block) (p : Pass) : Turn :=
  if !jbd2VerifyCommitBlock env.chksum h buf then .done (stopStatus p.phase) p
  else
    let info := if p.phase = .scan then { p.info with riEndTxn := p.currTid, riHasTxn := true }
      else p.info
    .next { p.visit jbd2CommitBlock with
      info := info
      currTid := toI32 (p.currTid + 1)
      currBlocknr := advance h p.currBlocknr 1 }

/-- The arm of `JBD2_REVOKE_BLOCK`. The status of `jbd2_scan_revoke_entries` is dropped. -/
def revokeArm (buf : Block) (p : Pass) : Turn :=
  if !jbd2VerifyRevokeBlock env.chksum h buf then .done (stopStatus p.phase) p
  else
    let r :=
      if p.phase = .scanRevoke then jbd2ScanRevokeEntries env h p.currTid buf p.world
      else (some .success, p.world)
    let p := { p with world := r.2 }
    if r.1.isNone then .fault p
    else .next { p.visit jbd2RevokeBlock with currBlocknr := advance h p.currBlocknr 1 }

/-- The part of one turn after the guard of the later passes and the read. A block whose type has
no arm is passed over without moving on. -/
def blockTurn (buf : Block) (p : Pass) : Turn :=
  if !jbd2VerifyMetadataBlock buf || decide (hSequence buf ≠ p.currTid) then
    .done (stopStatus p.phase) p
  else if hBlocktype buf = jbd2DescriptorBlock then descrArm env h buf p
  else if hBlocktype buf = jbd2CommitBlock then commitArm env h buf p
  else if hBlocktype buf = jbd2RevokeBlock then revokeArm env h buf p
  else .next p

/-- **One turn of the loop of `jbd2_replay_one_pass`.** -/
def passStep (p : Pass) : Turn :=
  if p.phase ≠ .scan ∧ jbd2TidCmp p.currTid p.info.riEndTxn > 0 then .done p.status p
  else
    let r := ccPinRead env p.world p.currBlocknr
    let p := { p with world := r.2 }
    if !r.1 then .done .unexpectedIoError p
    else blockTurn env h (env.log p.currBlocknr) p

/-- The loop: a turn that goes on is followed by another one. -/
def passTurn : Turn → Turn
  | .next p => passStep env h p
  | t => t

/-- The loop of `jbd2_replay_one_pass` after `n` turns from the locals `p`. -/
def passRun (p : Pass) (n : ℕ) : Turn := (passTurn env h)^[n] (.next p)

/-- **`jbd2_replay_one_pass` after `n` turns.** -/
def jbd2ReplayOnePass (phase : Phase) (w : World) (n : ℕ) : Turn :=
  passRun env h (passStart h phase w) n

/-! ### The whole recovery -/

/-- A state of `jbd2_replay_journal`. -/
inductive RecoveryState
  | pass (p : Pass)
  | done (status : NtStatus) (w : World)
  | fault (w : World)

/-- The phase that follows. -/
def Phase.next : Phase → Option Phase
  | .scan => some .scanRevoke
  | .scanRevoke => some .replay
  | .replay => none

/-- The return of the pass `phase`: recovery goes on with the next one unless `!status`. -/
def afterPass (phase : Phase) (status : NtStatus) (w : World) : RecoveryState :=
  match status.nonzero, phase.next with
  | true, some phase' => .pass (passStart h phase' w)
  | _, _ => .done status (jbd2RevokeTableClear w)

/-- One step of recovery. -/
def recoveryStep : RecoveryState → RecoveryState
  | .pass p =>
    match passStep env h p with
    | .next p' => .pass p'
    | .done status p' => afterPass h p.phase status p'.world
    | .fault p' => .fault p'.world
  | r => r

/-- The start of `jbd2_replay_journal`. -/
def recoveryStart (w : World) : RecoveryState := .pass (passStart h .scan w)

/-- **`jbd2_replay_journal` after `n` steps.** -/
def jbd2ReplayJournal (w : World) (n : ℕ) : RecoveryState :=
  (recoveryStep env h)^[n] (recoveryStart h w)

def RecoveryState.world : RecoveryState → World
  | .pass p => p.world
  | .done _ w => w
  | .fault w => w

/-- The world recovery starts in: no revoke entry, nothing done yet. -/
def World.init (client : ℤ → Block) : World := ⟨client, fun _ => none, 0, 0, 0, []⟩

end Ext4Fsd.Journal.Recovery
