import Ext4Fsd.Journal.Open

/-! # What opening a journal comes to

`jbd2_open_handle` with everything it acquires and releases. Whatever fails, it gives all of it back
(`openHandle_releases`); but the status is never set to success, the superblock is not read from the
start of the log, and the feature tests are inverted, so that a valid journal is never opened.
`opensExactlyValid_iff` says for which failures the answer is still the right one. -/

namespace Ext4Fsd.Journal.OpenResult

open Ext4Fsd.Lib.CInt Ext4Fsd.Journal.Format Ext4Fsd.Journal.Tags Ext4Fsd.Journal.Open

/-! ### Acquiring and releasing -/

/-- What `jbd2_open_handle` acquires. -/
inductive Resource
  | handle
  | cacheMap
  | pin
  | superblock
  | lock
  | lbcbCache
  | revokeCache
  deriving DecidableEq, Repr

/-- The locals of `jbd2_open_handle`: `bcb` and `jhSb` say that the pointer is set. -/
structure OpenLocals where
  bcb : Bool
  jhSb : Bool
  lockInited : Bool
  lbcbCacheInited : Bool
  revokeCacheInited : Bool
  status : NtStatus
  handle : Option Jbd2Handle
  held : List Resource

/-- The locals before the `__try` block. -/
def openStart : OpenLocals where
  bcb := false
  jhSb := false
  lockInited := false
  lbcbCacheInited := false
  revokeCacheInited := false
  status := .unsuccessful
  handle := none
  held := [.cacheMap, .handle]

/-- The `__try` block; `none` is a fault. -/
def openTry (sbAlloc : Bool) (pinRead : ℤ → Option Block) (logSize blocksize : ℤ) :
    Option OpenLocals :=
  match pinRead (blocknrToOffset logSize blocksize) with
  | none => some openStart
  | some sb =>
    let l := { openStart with bcb := true, held := .pin :: openStart.held }
    match jbd2OpenChecks sb logSize blocksize with
    | .leave status => some { l with status := status }
    | .fault => none
    | .pass =>
      if !sbAlloc then some { l with status := .insufficientResources }
      else some { l with
        jhSb := true
        lockInited := true
        lbcbCacheInited := true
        revokeCacheInited := true
        handle := some (openedHandle sb blocksize)
        held := .revokeCache :: .lbcbCache :: .lock :: .superblock :: l.held }

/-- A conditional release. -/
def releaseIf (b : Bool) (r : Resource) (held : List Resource) : List Resource :=
  if b then held.erase r else held

/-- The `__finally` block: the status, the handle stored through `handle_ret`, what is still
held. -/
def openFinally (l : OpenLocals) : NtStatus × Option Jbd2Handle × List Resource :=
  let held := releaseIf l.bcb .pin l.held
  if !l.status.ntSuccess then
    let held := releaseIf l.jhSb .superblock held
    let held := releaseIf l.lockInited .lock held
    let held := releaseIf l.lbcbCacheInited .lbcbCache held
    let held := releaseIf l.revokeCacheInited .revokeCache held
    (l.status, none, (held.erase .cacheMap).erase .handle)
  else (l.status, l.handle, held)

/-- **`jbd2_open_handle`**: the status, the handle stored, and what is held on return. -/
def openHandle (handleAlloc sbAlloc : Bool) (pinRead : ℤ → Option Block) (logSize blocksize : ℤ) :
    Option (NtStatus × Option Jbd2Handle × List Resource) :=
  if !handleAlloc then some (.insufficientResources, none, [])
  else (openTry sbAlloc pinRead logSize blocksize).map openFinally

section
variable (handleAlloc sbAlloc : Bool) (pinRead : ℤ → Option Block) (logSize blocksize : ℤ)

/-- Status and handle are those of `jbd2OpenHandle`. -/
theorem openHandle_fst :
    (openHandle handleAlloc sbAlloc pinRead logSize blocksize).map (fun r => (r.1, r.2.1)) =
      jbd2OpenHandle handleAlloc sbAlloc pinRead logSize blocksize := by
  unfold openHandle jbd2OpenHandle openTry openBody
  cases handleAlloc with
  | false => rfl
  | true =>
    cases pinRead (blocknrToOffset logSize blocksize) with
    | none => rfl
    | some sb =>
      dsimp only
      cases hc : jbd2OpenChecks sb logSize blocksize with
      | pass => cases sbAlloc <;> rfl
      | leave status => cases status <;> rfl
      | fault => rfl

/-- **A call that fails stores no handle and gives everything back.** -/
theorem openHandle_releases :
    ∀ r ∈ openHandle handleAlloc sbAlloc pinRead logSize blocksize,
      r.1.ntSuccess = false → r.2 = (none, []) := by
  intro r hr hst
  unfold openHandle at hr
  split_ifs at hr
  · cases hr
    rfl
  · obtain ⟨l, hl, rfl⟩ := Option.map_eq_some_iff.mp hr
    unfold openFinally at hst ⊢
    by_cases hs : l.status.ntSuccess = true
    · rw [if_neg (by simp [hs])] at hst
      rw [hs] at hst
      cases hst
    · rw [if_pos (by simp [hs])]
      unfold openTry at hl
      cases hread : pinRead (blocknrToOffset logSize blocksize) with
      | none => rw [hread] at hl; cases hl; rfl
      | some sb =>
        rw [hread] at hl
        dsimp only at hl
        cases hc : jbd2OpenChecks sb logSize blocksize with
        | pass => rw [hc] at hl; cases sbAlloc <;> cases hl <;> rfl
        | leave status => rw [hc] at hl; cases hl; rfl
        | fault => rw [hc] at hl; cases hl

/-! ### Valid journals -/

/-- The superblock is one of a journal of `logSize` bytes with the block size `blocksize`. -/
structure SuperblockValid (sb : Block) : Prop where
  header : jbd2VerifySuperblock sb = true
  size : toU32 (sBlocksize sb) = blocksize
  fits : toU32 (sMaxlen sb) * blocksize ≤ logSize

/-- All feature bits are known. -/
def FeaturesKnown (sb : Block) : Prop :=
  jbd2FeaturesSupported (sFeatureIncompat sb) jbd2KnownIncompatFeatures = true ∧
    jbd2FeaturesSupported (sFeatureRoCompat sb) jbd2KnownRocompatFeatures = true

/-- The handle of the superblock `sb`, whose uuid is at the offset 0x30. -/
def HandleOf (sb : Block) (h : Jbd2Handle) : Prop :=
  h.jhStart = sFirst sb ∧ h.jhEnd = toI32 (sMaxlen sb - 1) ∧
    h.jhUuid = (List.range uuidSize).map fun i => sb (0x30 + i)

/-- The results of opening a journal with the superblock `sb`, `allocs` being whether the
allocations succeed, that tell the truth. -/
inductive Truthful (sb : Block) (allocs : Bool) :
    NtStatus × Option Jbd2Handle × List Resource → Prop
  | opened {h : Jbd2Handle} {held : List Resource} (hvalid : SuperblockValid logSize blocksize sb)
      (hknown : FeaturesKnown sb) (halloc : allocs = true) (hh : HandleOf sb h) :
      Truthful sb allocs (.success, some h, held)
  | corrupt (hinvalid : ¬ SuperblockValid logSize blocksize sb) :
      Truthful sb allocs (.diskCorruptError, none, [])
  | unknown (hunknown : ¬ FeaturesKnown sb) : Truthful sb allocs (.unrecognizedVolume, none, [])
  | noMemory (halloc : allocs = false) : Truthful sb allocs (.insufficientResources, none, [])

/-- **Opening accepts exactly the valid journals**, `sb` being block 0 of the log. -/
def OpensExactlyValid (sb : Block) : Prop :=
  ∃ r, openHandle handleAlloc sbAlloc pinRead logSize blocksize = some r ∧
    Truthful logSize blocksize sb (handleAlloc && sbAlloc) r

/-! ### When it does -/

/-- The tests of magic, type and sizes that the block `sb` fails. -/
def Rejected (sb : Block) : Prop :=
  jbd2VerifySuperblock sb = false ∨ toU32 (sBlocksize sb) ≠ blocksize ∨
    blocksize ≠ 0 ∧ toU64 (sMaxlen sb) < offsetToBlocknr logSize blocksize

/-- One of the inverted feature tests stops at the block `sb`: its features are supported. -/
def FeatureStop (sb : Block) : Prop :=
  jbd2FeaturesSupported (sFeatureIncompat sb) jbd2KnownIncompatFeatures = true ∨
    jbd2FeaturesSupported (sFeatureRoCompat sb) jbd2KnownRocompatFeatures = true

/-- The block that is read, at the byte offset `log_size * blocksize`. -/
def readBlock : Option Block := pinRead (blocknrToOffset logSize blocksize)

/-- **The inputs on which the answer is right**, `sb₀` being block 0 of the log: the handle cannot
be allocated, or the block read stops the checks for a reason that holds of `sb₀`, or it passes them
and the copy of the superblock cannot be allocated. -/
inductive RightAnswer (sb₀ : Block) : Prop
  | noHandle (halloc : handleAlloc = false)
  | corrupt (sb : Block) (hread : readBlock pinRead logSize blocksize = some sb)
      (hrej : Rejected logSize blocksize sb) (hinvalid : ¬ SuperblockValid logSize blocksize sb₀)
  | unknown (sb : Block) (hread : readBlock pinRead logSize blocksize = some sb)
      (hrej : ¬ Rejected logSize blocksize sb) (h0 : blocksize ≠ 0) (hstop : FeatureStop sb)
      (hunknown : ¬ FeaturesKnown sb₀)
  | noMemory (sb : Block) (hread : readBlock pinRead logSize blocksize = some sb)
      (hrej : ¬ Rejected logSize blocksize sb) (h0 : blocksize ≠ 0) (hstop : ¬ FeatureStop sb)
      (halloc : sbAlloc = false)

variable {handleAlloc sbAlloc pinRead logSize blocksize}

/-! The result, once the handle has been allocated. -/

theorem openHandle_noRead (hread : readBlock pinRead logSize blocksize = none) :
    openHandle true sbAlloc pinRead logSize blocksize = some (.unsuccessful, none, []) := by
  unfold openHandle openTry
  unfold readBlock at hread
  rw [if_neg (by decide), hread]
  rfl

section
variable {sb : Block} (hread : readBlock pinRead logSize blocksize = some sb)
include hread

theorem openHandle_of_read : openHandle true sbAlloc pinRead logSize blocksize =
    match jbd2OpenChecks sb logSize blocksize with
    | .leave status => some (openFinally
      { openStart with bcb := true, held := .pin :: openStart.held, status := status })
    | .fault => none
    | .pass => some (if sbAlloc then .unsuccessful else .insufficientResources, none, []) := by
  unfold openHandle openTry
  unfold readBlock at hread
  rw [if_neg (by decide), hread]
  dsimp only
  cases jbd2OpenChecks sb logSize blocksize with
  | pass => cases sbAlloc <;> rfl
  | leave status => rfl
  | fault => rfl

theorem openHandle_rejected (hrej : Rejected logSize blocksize sb) :
    openHandle true sbAlloc pinRead logSize blocksize = some (.diskCorruptError, none, []) := by
  have hc : jbd2OpenChecks sb logSize blocksize = .leave .diskCorruptError := by
    unfold Rejected at hrej
    unfold jbd2OpenChecks
    split_ifs <;> simp_all
  rw [openHandle_of_read hread, hc]
  rfl

theorem openHandle_fault (hrej : ¬ Rejected logSize blocksize sb) (h0 : blocksize = 0) :
    openHandle true sbAlloc pinRead logSize blocksize = none := by
  have hc : jbd2OpenChecks sb logSize blocksize = .fault := by
    unfold Rejected at hrej
    unfold jbd2OpenChecks
    split_ifs <;> simp_all
  rw [openHandle_of_read hread, hc]

theorem openHandle_featureStop (hrej : ¬ Rejected logSize blocksize sb) (h0 : blocksize ≠ 0)
    (hstop : FeatureStop sb) :
    openHandle true sbAlloc pinRead logSize blocksize = some (.unrecognizedVolume, none, []) := by
  have hc : jbd2OpenChecks sb logSize blocksize = .leave .unrecognizedVolume := by
    unfold Rejected at hrej
    unfold FeatureStop at hstop
    unfold jbd2OpenChecks
    split_ifs <;> simp_all
  rw [openHandle_of_read hread, hc]
  rfl

theorem openHandle_pass (hrej : ¬ Rejected logSize blocksize sb) (h0 : blocksize ≠ 0)
    (hstop : ¬ FeatureStop sb) : openHandle true sbAlloc pinRead logSize blocksize =
      some (if sbAlloc then .unsuccessful else .insufficientResources, none, []) := by
  have hc : jbd2OpenChecks sb logSize blocksize = .pass := by
    unfold Rejected at hrej
    unfold FeatureStop at hstop
    unfold jbd2OpenChecks
    split_ifs <;> simp_all
  rw [openHandle_of_read hread, hc]

end

theorem truthful_of_right {sb₀ : Block}
    (hr : RightAnswer handleAlloc sbAlloc pinRead logSize blocksize sb₀) :
    OpensExactlyValid handleAlloc sbAlloc pinRead logSize blocksize sb₀ := by
  cases handleAlloc with
  | false => exact ⟨_, rfl, .noMemory rfl⟩
  | true =>
    cases hr with
    | noHandle halloc => cases halloc
    | corrupt sb hread hrej hinvalid => exact ⟨_, openHandle_rejected hread hrej, .corrupt hinvalid⟩
    | unknown sb hread hrej h0 hstop hunknown =>
      exact ⟨_, openHandle_featureStop hread hrej h0 hstop, .unknown hunknown⟩
    | noMemory sb hread hrej h0 hstop halloc =>
      subst halloc
      exact ⟨_, openHandle_pass hread hrej h0 hstop, .noMemory rfl⟩

theorem right_of_truthful {sb₀ : Block}
    (ho : OpensExactlyValid handleAlloc sbAlloc pinRead logSize blocksize sb₀) :
    RightAnswer handleAlloc sbAlloc pinRead logSize blocksize sb₀ := by
  obtain ⟨r, hr, htrue⟩ := ho
  cases handleAlloc with
  | false => exact .noHandle rfl
  | true =>
    cases hread : readBlock pinRead logSize blocksize with
    | none =>
      rw [openHandle_noRead hread] at hr
      cases hr
      cases htrue
    | some sb =>
      by_cases hrej : Rejected logSize blocksize sb
      · rw [openHandle_rejected hread hrej] at hr
        cases hr
        cases htrue with
        | corrupt hinvalid => exact .corrupt sb hread hrej hinvalid
      by_cases h0 : blocksize = 0
      · rw [openHandle_fault hread hrej h0] at hr
        cases hr
      by_cases hstop : FeatureStop sb
      · rw [openHandle_featureStop hread hrej h0 hstop] at hr
        cases hr
        cases htrue with
        | unknown hunknown => exact .unknown sb hread hrej h0 hstop hunknown
      · rw [openHandle_pass hread hrej h0 hstop] at hr
        cases sbAlloc with
        | true => cases hr; cases htrue
        | false => exact .noMemory sb hread hrej h0 hstop rfl

/-- **Opening tells the truth about the journal exactly on these inputs.** -/
theorem opensExactlyValid_iff {sb₀ : Block} :
    OpensExactlyValid handleAlloc sbAlloc pinRead logSize blocksize sb₀ ↔
      RightAnswer handleAlloc sbAlloc pinRead logSize blocksize sb₀ :=
  ⟨right_of_truthful, truthful_of_right⟩

end

/-! ### A valid journal -/

/-- The superblock of a journal of 8 blocks. -/
def validSuperblock : Block :=
  putBe32 (putBe32 (putBe32 (putBe32 (putBe32 (fun _ => 0) 0 jbd2MagicNumber) 4 4) 0x0c 1024)
    0x10 8) 0x14 1

example : SuperblockValid 8192 1024 validSuperblock ∧ FeaturesKnown validSuperblock := by
  refine ⟨⟨?_, ?_, ?_⟩, ?_, ?_⟩ <;> decide +kernel

/-- The log: the superblock, and nothing behind it that can be read. -/
def validLog (off : ℤ) : Option Block := if off = 0 then some validSuperblock else none

theorem opensExactlyValid_validLog :
    OpensExactlyValid true true validLog 8192 1024 validSuperblock ↔
      RightAnswer true true validLog 8192 1024 validSuperblock :=
  opensExactlyValid_iff

/-- The superblock is not even read. -/
theorem validLog_not_opened :
    ¬ ∀ (handleAlloc sbAlloc : Bool) (pinRead : ℤ → Option Block) (logSize blocksize : ℤ)
      (sb₀ : Block), pinRead 0 = some sb₀ →
      OpensExactlyValid handleAlloc sbAlloc pinRead logSize blocksize sb₀ := by
  intro hall
  obtain ⟨r, hr, htrue⟩ := hall true true validLog 8192 1024 validSuperblock (if_pos rfl)
  have hread : readBlock validLog 8192 1024 = none := by decide +kernel
  rw [openHandle_noRead hread] at hr
  cases hr
  cases htrue

end Ext4Fsd.Journal.OpenResult
