import Ext4Fsd.Lib.Recording
import Ext4Fsd.Journal.Recovery

/-! # What the parsers of a block touch

The four loops over the bytes of a descriptor or revoke block, instrumented: every field they read
is recorded with its offset and width, every tag they come to, every block of the log they ask for
and every block they write to the client. Forgetting the records gives the functions of `Tags` and
`Recovery` back (`val_countTags`, `val_csumVerify`, `val_replayDescrBlock`,
`val_scanRevokeEntries`).

A loop whose turns run out before it is done records `cut`, so that a log without it is the log of a
whole run. -/

namespace Ext4Fsd.Journal.Parse

open Ext4Fsd.Lib.CInt Ext4Fsd.Lib.Recording
open Ext4Fsd.Journal.Format Ext4Fsd.Journal.Tags Ext4Fsd.Journal.Recovery

inductive Access
  /-- The body of a loop is entered with the tag at `off`. -/
  | tag (off : ℕ)
  /-- `len` bytes of the block are read at `off`. -/
  | field (off len : ℕ)
  /-- The log block `blocknr` is pinned for the tag at `off`, the `nr`-th. -/
  | data (off : ℕ) (nr blocknr : ℤ)
  /-- The log block `source` is copied to the client, with the magic number put back or not. -/
  | write (fsBlocknr source : ℤ) (escape : Bool)
  /-- The turns granted to the loop have run out. -/
  | cut
  deriving DecidableEq, Repr

def Access.tag? : Access → Option ℕ
  | .tag off => some off
  | _ => none

def Access.data? : Access → Option (ℕ × ℤ × ℤ)
  | .data off nr blocknr => some (off, nr, blocknr)
  | _ => none

def Access.write? : Access → Option (ℤ × ℤ × Bool)
  | .write fsBlocknr source escape => some (fsBlocknr, source, escape)
  | _ => none

/-- A kind of field: its width, and how it is read from the bytes at an offset. -/
structure FieldKind (α : Type) where
  width : ℕ
  get : Block → ℕ → α
  /-- Only the bytes of the field are read. -/
  get_eq : ∀ b b' off, (∀ i < width, b (off + i) = b' (off + i)) → get b off = get b' off

theorem be16_eq {b b' : Block} {off : ℕ} (heq : ∀ i < 2, b (off + i) = b' (off + i)) :
    be16 b off = be16 b' off := by
  have h0 := heq 0 (by decide)
  rw [Nat.add_zero] at h0
  unfold be16
  rw [h0, heq 1 (by decide)]

theorem be32_eq {b b' : Block} {off : ℕ} (heq : ∀ i < 4, b (off + i) = b' (off + i)) :
    be32 b off = be32 b' off := by
  have hhigh : be16 b off = be16 b' off := be16_eq fun i hi => heq i (by omega)
  have hlow : be16 b (off + 2) = be16 b' (off + 2) := be16_eq fun i hi => by
    rw [Nat.add_assoc]
    exact heq (2 + i) (by omega)
  unfold be32
  rw [hhigh, hlow]

theorem be64_eq {b b' : Block} {off : ℕ} (heq : ∀ i < 8, b (off + i) = b' (off + i)) :
    be64 b off = be64 b' off := by
  have hhigh : be32 b off = be32 b' off := be32_eq fun i hi => heq i (by omega)
  have hlow : be32 b (off + 4) = be32 b' (off + 4) := be32_eq fun i hi => by
    rw [Nat.add_assoc]
    exact heq (4 + i) (by omega)
  unfold be64
  rw [hhigh, hlow]

@[simps] def be16Field : FieldKind ℕ := ⟨2, be16, fun _ _ _ => be16_eq⟩

@[simps] def be32Field : FieldKind ℕ := ⟨4, be32, fun _ _ _ => be32_eq⟩

/-- A field of type `__u16`. -/
@[simps] def cpu16Field : FieldKind ℤ :=
  ⟨2, be16ToCpu, fun _ _ _ heq => by unfold be16ToCpu; rw [be16_eq heq]⟩

/-- A field of type `__u32`. -/
@[simps] def cpu32Field : FieldKind ℤ :=
  ⟨4, be32ToCpu, fun _ _ _ heq => by unfold be32ToCpu; rw [be32_eq heq]⟩

/-- A field of type `__u64`. -/
@[simps] def cpu64Field : FieldKind ℤ :=
  ⟨8, be64ToCpu, fun _ _ _ heq => by unfold be64ToCpu; rw [be64_eq heq]⟩

/-- Read a field at `off`. -/
def field {α : Type} (f : FieldKind α) (buf : Block) (off : ℕ) : Traced Access α := do
  emit (.field off f.width)
  pure (f.get buf off)

/-- No turn is left; `more` says that the loop would take one. -/
def cut {α : Type} (more : Prop) [Decidable more] (a : α) : Traced Access α :=
  if more then do
    emit .cut
    pure a
  else pure a

variable (env : Env) (h : Jbd2Handle)

/-! ### Fields of a tag -/

def tagBlocknr (buf : Block) (tag : ℕ) : Traced Access ℤ := do
  let blocknr ← field cpu32Field buf tag
  if jbd2HasFeature64bit h.jhSb then do
    let high ← field cpu32Field buf (tag + 8)
    pure (orU64 blocknr high)
  else pure blocknr

def flags (buf : Block) (tag : ℕ) : Traced Access ℕ :=
  if jbd2HasFeatureCsum3 h.jhSb then field be32Field buf (tag + 4)
  else field be16Field buf (tag + 6)

def testFlag (buf : Block) (tag : ℕ) (flag : ℕ) : Traced Access Bool := do
  let f ← flags h buf tag
  pure (decide (Nat.land f flag ≠ 0))

def tagSize (buf : Block) (tag : ℕ) : Traced Access ℕ := do
  let same ← testFlag h buf tag jbd2FlagSameUuid
  pure (if same then jbd2MinTagSize h else jbd2MinTagSize h + uuidSize)

def tagCsum (buf : Block) (tag : ℕ) : Traced Access ℤ :=
  if jbd2HasFeatureCsum3 h.jhSb then field cpu32Field buf (tag + 12)
  else field cpu16Field buf (tag + 4)

/-! ### The loops over the tags -/

/-- The loop of `jbd2_count_tags`. -/
def countTagsLoop (buf : Block) : ℕ → ℕ → ℕ → Traced Access ℕ
  | 0, tagp, nr => cut (tagp + jbd2MinTagSize h ≤ tagLimit h) nr
  | fuel + 1, tagp, nr =>
    if (tagp : ℤ) + jbd2MinTagSize h ≤ tagLimit h then do
      emit (.tag tagp)
      let last ← testFlag h buf tagp jbd2FlagLastTag
      if last then pure nr
      else do
        let size ← tagSize h buf tagp
        countTagsLoop buf fuel (tagp + size) (nr + 1)
    else pure nr

/-- `jbd2_count_tags`. -/
def countTags (buf : Block) : Traced Access ℕ :=
  countTagsLoop h buf h.jhBlocksize.toNat sizeofJournalHeader 0

/-- The checksum of the data block `source` that a tag is compared with. -/
def calculatedCsum (source : ℤ) : ℤ :=
  let sum := env.chksum h.jhCsumSeed (env.log source) h.jhBlocksize
  if jbd2HasFeatureCsum2 h.jhSb then sum % 2 ^ 16 else sum

/-- The loop of `jbd2_blocks_csum_verify`. The block number of the tag is read and not used. -/
def csumVerifyLoop (blocknr : ℤ) (buf : Block) :
    ℕ → ℕ → ℤ → World → Traced Access (NtStatus × World)
  | 0, tagp, _, w => cut (tagp + jbd2MinTagSize h ≤ h.jhBlocksize) (.success, w)
  | fuel + 1, tagp, nr, w =>
    if (tagp : ℤ) + jbd2MinTagSize h ≤ h.jhBlocksize then do
      emit (.tag tagp)
      let _ ← tagBlocknr h buf tagp
      let from_ := toI32 (blocknr + nr)
      emit (.data tagp nr from_)
      let r := ccPinRead env w from_
      if !r.1 then pure (.unexpectedIoError, r.2)
      else do
        let csum ← tagCsum h buf tagp
        if calculatedCsum env h from_ ≠ csum then pure (.unsuccessful, r.2)
        else do
          let last ← testFlag h buf tagp jbd2FlagLastTag
          if last then pure (.success, r.2)
          else do
            let size ← tagSize h buf tagp
            csumVerifyLoop blocknr buf fuel (tagp + size) (nr + 1) r.2
    else pure (.success, w)

/-- `jbd2_blocks_csum_verify`. -/
def csumVerify (blocknr : ℤ) (buf : Block) (w : World) : Traced Access (NtStatus × World) :=
  if !jbd2HasCsumV2or3 h.jhSb then pure (.success, w)
  else csumVerifyLoop env h blocknr buf h.jhBlocksize.toNat sizeofJournalHeader 1 w

/-- The body of the loop of `jbd2_replay_descr_block` past the revoke check. -/
def copyTag (tid blocknr : ℤ) (buf : Block) (fsBlocknr : ℤ) (tagp : ℕ) (nr : ℤ) (w : World) :
    Traced Access (NtStatus × World) := do
  let from_ := toI32 (blocknr + nr)
  emit (.data tagp nr from_)
  let r := ccPinRead env w from_
  if !r.1 then pure (.unexpectedIoError, r.2)
  else do
    let r' := ccPreparePinWrite env r.2
    if !r'.1 then pure (.unexpectedIoError, r'.2)
    else do
      let escape ← testFlag h buf tagp jbd2FlagEscape
      emit (.write fsBlocknr from_ escape)
      pure (.success, { r'.2.record (.write tid blocknr nr fsBlocknr) with
        client := Function.update r'.2.client fsBlocknr (unescape escape (env.log from_)) })

/-- The loop of `jbd2_replay_descr_block`. -/
def replayDescrBlockLoop (tid blocknr : ℤ) (buf : Block) :
    ℕ → ℕ → ℤ → World → Traced Access (NtStatus × World)
  | 0, tagp, _, w => cut (tagp + jbd2MinTagSize h ≤ tagLimit h) (.success, w)
  | fuel + 1, tagp, nr, w =>
    if (tagp : ℤ) + jbd2MinTagSize h ≤ tagLimit h then do
      emit (.tag tagp)
      let fsBlocknr ← tagBlocknr h buf tagp
      let r := revokeCheck w fsBlocknr
      if revoked tid r.1 then do
        let size ← tagSize h buf tagp
        replayDescrBlockLoop tid blocknr buf fuel (tagp + size) (nr + 1) r.2
      else do
        let r' ← copyTag env h tid blocknr buf fsBlocknr tagp nr r.2
        if !r'.1.ntSuccess then pure r'
        else do
          let last ← testFlag h buf tagp jbd2FlagLastTag
          if last then pure r'
          else do
            let size ← tagSize h buf tagp
            replayDescrBlockLoop tid blocknr buf fuel (tagp + size) (nr + 1) r'.2
    else pure (.success, w)

/-- `jbd2_replay_descr_block`. -/
def replayDescrBlock (tid blocknr : ℤ) (buf : Block) (w : World) :
    Traced Access (NtStatus × World) :=
  replayDescrBlockLoop env h tid blocknr buf h.jhBlocksize.toNat sizeofJournalHeader 1 w

/-! ### Revoke blocks -/

def revokeEntryBlocknr (buf : Block) (entry : ℕ) : Traced Access ℤ :=
  if jbd2HasFeature64bit h.jhSb then field cpu64Field buf entry
  else field cpu32Field buf entry

/-- The loop of `jbd2_scan_revoke_entries`. -/
def scanRevokeEntriesLoop (tid : ℤ) (buf : Block) (rcount : ℤ) :
    ℕ → ℕ → World → Traced Access (Option NtStatus × World)
  | 0, bufp, w => cut (bufp + jbd2RevokeEntrySize h ≤ rcount) (some .success, w)
  | fuel + 1, bufp, w =>
    if (bufp : ℤ) + jbd2RevokeEntrySize h ≤ rcount then do
      let fsBlocknr ← revokeEntryBlocknr h buf bufp
      match jbd2RevokeEntryGet env w fsBlocknr with
      | (.noMemory, w) => pure (some .insufficientResources, w)
      | (.fault, w) => pure (none, w)
      | (.entry re, w) =>
        let w := jbd2RevokeEntryPut (setRevoke w fsBlocknr (some { re with reTid := tid }))
          fsBlocknr
        scanRevokeEntriesLoop tid buf rcount fuel (bufp + jbd2RevokeEntrySize h) w
    else pure (some .success, w)

/-- `jbd2_scan_revoke_entries`. -/
def scanRevokeEntries (tid : ℤ) (buf : Block) (w : World) :
    Traced Access (Option NtStatus × World) := do
  let count ← field cpu32Field buf 12
  if toU64 count > rcountLimit h then pure (some .diskCorruptError, w)
  else scanRevokeEntriesLoop env h tid buf (toU64 count) (toU64 count).toNat sizeofJournalHeader w

/-! ### Without the records -/

section
variable {env h} {buf : Block} {tag : ℕ}

@[simp] theorem val_field {α : Type} (f : FieldKind α) (off : ℕ) :
    (field f buf off).val = f.get buf off := (rfl)

@[simp] theorem val_cut {α : Type} (more : Prop) [Decidable more] (a : α) :
    (cut more a).val = a := by
  unfold cut
  split_ifs <;> rfl

@[simp] theorem val_tagBlocknr : (tagBlocknr h buf tag).val = jbd2TagBlocknr h buf tag := by
  simp only [tagBlocknr, jbd2TagBlocknr, val_bind, val_field, val_ite, val_pure, cpu32Field_get]

@[simp] theorem val_flags : (flags h buf tag).val = tagFlags h buf tag := by
  simp only [flags, tagFlags, val_ite, val_field, be32Field_get, be16Field_get]

@[simp] theorem val_testFlag (flag : ℕ) :
    (testFlag h buf tag flag).val = jbd2TestFlag h buf tag flag := by
  simp only [testFlag, jbd2TestFlag, val_bind, val_flags, val_pure]

@[simp] theorem val_tagSize : (tagSize h buf tag).val = jbd2TagSize h buf tag := by
  simp only [tagSize, jbd2TagSize, val_bind, val_testFlag, val_pure]

@[simp] theorem val_tagCsum : (tagCsum h buf tag).val = jbd2TagCsum h buf tag := by
  simp only [tagCsum, jbd2TagCsum, val_ite, val_field, cpu32Field_get, cpu16Field_get]

@[simp] theorem val_revokeEntryBlocknr :
    (revokeEntryBlocknr h buf tag).val = jbd2RevokeEntryBlocknr h buf tag := by
  simp only [revokeEntryBlocknr, jbd2RevokeEntryBlocknr, val_ite, val_field, cpu64Field_get,
    cpu32Field_get]

theorem val_countTagsLoop : ∀ fuel tagp nr,
    (countTagsLoop h buf fuel tagp nr).val = jbd2CountTagsLoop h buf fuel tagp nr := by
  intro fuel
  induction fuel with
  | zero => intro tagp nr; simp only [countTagsLoop, jbd2CountTagsLoop, val_cut]
  | succ fuel ih =>
    intro tagp nr
    simp only [countTagsLoop, jbd2CountTagsLoop, val_ite, val_bind, val_testFlag, val_tagSize,
      val_pure, ih]

theorem val_countTags : (countTags h buf).val = jbd2CountTags h buf := by
  unfold countTags jbd2CountTags
  exact val_countTagsLoop _ _ _

theorem val_csumVerifyLoop (blocknr : ℤ) : ∀ fuel tagp nr w,
    (csumVerifyLoop env h blocknr buf fuel tagp nr w).val =
      jbd2BlocksCsumVerifyLoop env h blocknr buf fuel tagp nr w := by
  intro fuel
  induction fuel with
  | zero => intro tagp nr w; simp only [csumVerifyLoop, jbd2BlocksCsumVerifyLoop, val_cut]
  | succ fuel ih =>
    intro tagp nr w
    simp only [csumVerifyLoop, jbd2BlocksCsumVerifyLoop, calculatedCsum, val_ite, val_bind,
      val_tagCsum, val_testFlag, val_tagSize, val_pure, ih]

theorem val_csumVerify (blocknr : ℤ) (w : World) :
    (csumVerify env h blocknr buf w).val = jbd2BlocksCsumVerify env h blocknr buf w := by
  simp only [csumVerify, jbd2BlocksCsumVerify, val_ite, val_pure, val_csumVerifyLoop]

theorem val_copyTag (tid blocknr nr : ℤ) (tagp : ℕ) (w : World) :
    (copyTag env h tid blocknr buf (jbd2TagBlocknr h buf tagp) tagp nr w).val =
      replayTag env h tid blocknr buf tagp nr w := by
  simp only [copyTag, replayTag, val_ite, val_bind, val_testFlag, val_pure]

theorem val_replayDescrBlockLoop (tid blocknr : ℤ) : ∀ fuel tagp nr w,
    (replayDescrBlockLoop env h tid blocknr buf fuel tagp nr w).val =
      jbd2ReplayDescrBlockLoop env h tid blocknr buf fuel tagp nr w := by
  intro fuel
  induction fuel with
  | zero => intro tagp nr w; simp only [replayDescrBlockLoop, jbd2ReplayDescrBlockLoop, val_cut]
  | succ fuel ih =>
    intro tagp nr w
    simp only [replayDescrBlockLoop, jbd2ReplayDescrBlockLoop, val_ite, val_bind, val_tagBlocknr,
      val_copyTag, val_testFlag, val_tagSize, val_pure, ih]

theorem val_replayDescrBlock (tid blocknr : ℤ) (w : World) :
    (replayDescrBlock env h tid blocknr buf w).val =
      jbd2ReplayDescrBlock env h tid blocknr buf w := by
  unfold replayDescrBlock jbd2ReplayDescrBlock
  exact val_replayDescrBlockLoop _ _ _ _ _ _

theorem val_scanRevokeEntriesLoop (tid rcount : ℤ) : ∀ fuel bufp w,
    (scanRevokeEntriesLoop env h tid buf rcount fuel bufp w).val =
      jbd2ScanRevokeEntriesLoop env h tid buf rcount fuel bufp w := by
  intro fuel
  induction fuel with
  | zero => intro bufp w; simp only [scanRevokeEntriesLoop, jbd2ScanRevokeEntriesLoop, val_cut]
  | succ fuel ih =>
    intro bufp w
    simp only [scanRevokeEntriesLoop, jbd2ScanRevokeEntriesLoop, val_ite, val_bind, val_pure,
      val_revokeEntryBlocknr]
    rcases jbd2RevokeEntryGet env w (jbd2RevokeEntryBlocknr h buf bufp) with ⟨_ | _ | re, w'⟩
    · simp only [val_pure]
    · simp only [val_pure]
    · simp only [ih]

theorem val_scanRevokeEntries (tid : ℤ) (w : World) :
    (scanRevokeEntries env h tid buf w).val = jbd2ScanRevokeEntries env h tid buf w := by
  unfold scanRevokeEntries jbd2ScanRevokeEntries
  rw [val_bind, val_field, val_ite, val_pure, val_scanRevokeEntriesLoop]
  rfl

end

end Ext4Fsd.Journal.Parse
