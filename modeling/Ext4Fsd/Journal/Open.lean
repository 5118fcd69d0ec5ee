import Ext4Fsd.Journal.Recovery

/-! # Opening a journal

`jbd2_open_handle` up to the handle it fills in. The superblock is read at the byte offset
`log_size * blocksize`; `__s64` is an unsigned type. The status is never set to success, so that no
call delivers a handle (`jbd2OpenHandle_none`); what the other modules use is the handle of a
superblock that has passed the checks, an `OpenedJournal`. -/

namespace Ext4Fsd.Journal.Open

open Ext4Fsd.Lib.CInt Ext4Fsd.Journal.Format Ext4Fsd.Journal.Tags Ext4Fsd.Journal.Recovery

/-- `jbd2_verify_superblock`. -/
def jbd2VerifySuperblock (sb : Block) : Bool :=
  if hMagic sb ≠ jbd2MagicNumber then false
  else if hBlocktype sb ≠ jbd2SuperblockV1 ∧ hBlocktype sb ≠ jbd2SuperblockV2 then false
  else true

/-- `jbd2_features_supported`. -/
def jbd2FeaturesSupported (features mask : ℕ) : Bool :=
  decide (Nat.land features (2 ^ 32 - 1 - mask) = 0)

/-- `offset_to_blocknr` and `blocknr_to_offset`, on unsigned 64-bit numbers. -/
def offsetToBlocknr (offset blocksize : ℤ) : ℤ := offset / blocksize
def blocknrToOffset (block blocksize : ℤ) : ℤ := toU64 (block * blocksize)

/-- What the checks on the superblock come to. -/
inductive OpenCheck
  | pass
  | leave (status : NtStatus)
  /-- The division by a block size of zero. -/
  | fault
  deriving DecidableEq, Repr

/-- The checks of `jbd2_open_handle` on the superblock. Both feature masks are rejected when all
their features *are* supported. -/
def jbd2OpenChecks (sb : Block) (logSize blocksize : ℤ) : OpenCheck :=
  if !jbd2VerifySuperblock sb then .leave .diskCorruptError
  else if toU32 (sBlocksize sb) ≠ blocksize then .leave .diskCorruptError
  else if blocksize = 0 then .fault
  else if toU64 (sMaxlen sb) < offsetToBlocknr logSize blocksize then .leave .diskCorruptError
  else if jbd2FeaturesSupported (sFeatureIncompat sb) jbd2KnownIncompatFeatures then
    .leave .unrecognizedVolume
  else if jbd2FeaturesSupported (sFeatureRoCompat sb) jbd2KnownRocompatFeatures then
    .leave .unrecognizedVolume
  else .pass

/-- The fields `jbd2_open_handle` sets. The uuid is copied from the start of the superblock, and the
seed stays as `RtlZeroMemory` has left it. -/
def openedHandle (sb : Block) (blocksize : ℤ) : Jbd2Handle where
  jhSb := sb
  jhCsumSeed := 0
  jhBlocksize := toI32 blocksize
  jhBlockcnt := sMaxlen sb
  jhUuid := (List.range uuidSize).map sb
  jhMaxTxn := sMaxTransaction sb
  jhStart := sFirst sb
  jhEnd := toI32 (sMaxlen sb - 1)
  jhFreeStart := sFirst sb
  jhFreeEnd := toI32 (sMaxlen sb - 1)
  jhFreeBlockcnt := toI32 (sMaxlen sb - 1)

/-- The status at the end of the `__try` block, and the handle as far as it has been filled in;
`none` is a fault. `pinRead` answers for a byte offset of the log file. -/
def openBody (sbAlloc : Bool) (pinRead : ℤ → Option Block) (logSize blocksize : ℤ) :
    Option (NtStatus × Option Jbd2Handle) :=
  match pinRead (blocknrToOffset logSize blocksize) with
  | none => some (.unsuccessful, none)
  | some sb =>
    match jbd2OpenChecks sb logSize blocksize with
    | .leave status => some (status, none)
    | .fault => none
    | .pass =>
      if !sbAlloc then some (.insufficientResources, none)
      else some (.unsuccessful, some (openedHandle sb blocksize))

/-- **`jbd2_open_handle`**: the status and the handle stored through `handle_ret`. -/
def jbd2OpenHandle (handleAlloc sbAlloc : Bool) (pinRead : ℤ → Option Block)
    (logSize blocksize : ℤ) : Option (NtStatus × Option Jbd2Handle) :=
  if !handleAlloc then some (.insufficientResources, none)
  else
    (openBody sbAlloc pinRead logSize blocksize).map fun r =>
      if !r.1.ntSuccess then (r.1, none) else r

/-- The checks leave with a failure. -/
theorem jbd2OpenChecks_leave {sb : Block} {logSize blocksize : ℤ} {status : NtStatus}
    (h : jbd2OpenChecks sb logSize blocksize = .leave status) : status.ntSuccess = false := by
  unfold jbd2OpenChecks at h
  split_ifs at h <;> cases h <;> rfl

/-- No call succeeds, and none stores a handle. -/
theorem jbd2OpenHandle_none (handleAlloc sbAlloc : Bool) (pinRead : ℤ → Option Block)
    (logSize blocksize : ℤ) : ∀ r ∈ jbd2OpenHandle handleAlloc sbAlloc pinRead logSize blocksize,
    r.1.ntSuccess = false ∧ r.2 = none := by
  have hbody : ∀ r ∈ openBody sbAlloc pinRead logSize blocksize, r.1.ntSuccess = false := by
    intro r hr
    unfold openBody at hr
    cases hread : pinRead (blocknrToOffset logSize blocksize) with
    | none =>
      rw [hread] at hr
      cases hr
      rfl
    | some sb =>
      rw [hread] at hr
      dsimp only at hr
      cases hc : jbd2OpenChecks sb logSize blocksize with
      | pass => rw [hc] at hr; dsimp only at hr; split_ifs at hr <;> cases hr <;> rfl
      | leave status => rw [hc] at hr; cases hr; exact jbd2OpenChecks_leave hc
      | fault => rw [hc] at hr; cases hr
  intro r hr
  unfold jbd2OpenHandle at hr
  split_ifs at hr
  · cases hr
    exact ⟨rfl, rfl⟩
  · obtain ⟨r', hr', rfl⟩ := Option.map_eq_some_iff.mp hr
    have hst := hbody r' hr'
    rw [if_pos (by simp [hst])]
    exact ⟨hst, rfl⟩

/-- A superblock that has passed the checks of `jbd2_open_handle`. -/
structure OpenedJournal where
  sb : Block
  logSize : ℤ
  blocksize : ℤ
  blocksize_range : 0 ≤ blocksize ∧ blocksize < 2 ^ 32
  logSize_range : 0 ≤ logSize ∧ logSize < 2 ^ 64
  checked : jbd2OpenChecks sb logSize blocksize = .pass

/-- The handle of an opened journal. -/
def OpenedJournal.handle (j : OpenedJournal) : Jbd2Handle := openedHandle j.sb j.blocksize

end Ext4Fsd.Journal.Open
