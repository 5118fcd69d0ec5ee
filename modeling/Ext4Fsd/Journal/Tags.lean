import Ext4Fsd.Journal.Format

/-! # Descriptor tags and block checksums

The readers of one metadata block that need nothing but its bytes: the size and the fields of a tag,
the number of tags of a descriptor block, and the checks of header and checksum that every pass of
recovery makes on a block. The feature predicates are evaluated on the superblock copy `jhSb`.

The checksum routine (`jbd2_chksum`, a CRC32C) is the parameter `chksum`: seed, buffer, size. -/

namespace Ext4Fsd.Journal.Tags

open Ext4Fsd.Lib.CInt Ext4Fsd.Journal.Format

/-- The type of `jbd2_chksum (crc, buf, bufsz)`. -/
abbrev Chksum := ℤ → Block → ℤ → ℤ

variable (chksum : Chksum) (h : Jbd2Handle)

/-! ### Tags -/

/-- `jbd2_min_tag_size`: 16 bytes with `journal_block_tag3_t`; otherwise 12, two more with
checksums v2, and four less without the high half of the block number. -/
def jbd2MinTagSize : ℕ :=
  if jbd2HasFeatureCsum3 h.jhSb then 16
  else
    let sz := if jbd2HasFeatureCsum2 h.jhSb then 12 + 2 else 12
    if jbd2HasFeature64bit h.jhSb then sz else sz - 4

/-- `a | b` on two `__u64`. -/
def orU64 (a b : ℤ) : ℤ := toI64 (Nat.lor (toU64 a).toNat (toU64 b).toNat)

/-- `jbd2_tag_blocknr`: both halves have the same offset in either tag layout. The high half is
or-ed in unshifted. -/
def jbd2TagBlocknr (buf : Block) (tag : ℕ) : ℤ :=
  let blocknr := be32ToCpu buf tag
  if jbd2HasFeature64bit h.jhSb then orU64 blocknr (be32ToCpu buf (tag + 8)) else blocknr

/-- `t_flags` of `journal_block_tag3_t` or of `journal_block_tag_t`. -/
def tagFlags (buf : Block) (tag : ℕ) : ℕ :=
  if jbd2HasFeatureCsum3 h.jhSb then be32 buf (tag + 4) else be16 buf (tag + 6)

/-- `jbd2_test_flag`. -/
def jbd2TestFlag (buf : Block) (tag : ℕ) (flag : ℕ) : Bool :=
  decide (Nat.land (tagFlags h buf tag) flag ≠ 0)

/-- `jbd2_tag_size`. -/
def jbd2TagSize (buf : Block) (tag : ℕ) : ℕ :=
  if jbd2TestFlag h buf tag jbd2FlagSameUuid then jbd2MinTagSize h
  else jbd2MinTagSize h + uuidSize

/-- `jbd2_tag_csum`. -/
def jbd2TagCsum (buf : Block) (tag : ℕ) : ℤ :=
  if jbd2HasFeatureCsum3 h.jhSb then be32ToCpu buf (tag + 12) else be16ToCpu buf (tag + 4)

/-- The end of the tag area: the checksum tail is left out when there is one. -/
def tagLimit : ℤ :=
  if jbd2HasCsumV2or3 h.jhSb then h.jhBlocksize - sizeofJournalBlockTail else h.jhBlocksize

/-- The loop of `jbd2_count_tags` from the tag at `tagp`, `nr` tags counted. The tag flagged last
ends the loop before it is counted. -/
def jbd2CountTagsLoop (buf : Block) : ℕ → ℕ → ℕ → ℕ
  | 0, _, nr => nr
  | fuel + 1, tagp, nr =>
    if (tagp : ℤ) + jbd2MinTagSize h ≤ tagLimit h then
      if jbd2TestFlag h buf tagp jbd2FlagLastTag then nr
      else jbd2CountTagsLoop buf fuel (tagp + jbd2TagSize h buf tagp) (nr + 1)
    else nr

/-- `jbd2_count_tags`. A tag takes at least one byte, so a block has fewer tags than bytes. -/
def jbd2CountTags (buf : Block) : ℕ :=
  jbd2CountTagsLoop h buf h.jhBlocksize.toNat sizeofJournalHeader 0

/-! ### Verification of a block -/

/-- `jbd2_verify_metadata_block`. The block type is signed: what is not above 5 includes every
type from `2^31` on. -/
def jbd2VerifyMetadataBlock (buf : Block) : Bool :=
  if hMagic buf ≠ jbd2MagicNumber then false
  else if hBlocktype buf = 0 ∨ hBlocktype buf > jbd2RevokeBlock then false
  else true

/-- The check shared by the three block types: the checksum of the block, taken with the field at
`off` set to zero, is the one stored there. -/
def blockCsumVerify (off : ℕ) (buf : Block) : Bool :=
  if !jbd2HasCsumV2or3 h.jhSb then true
  else
    let provided := be32 buf off
    let calculated := chksum h.jhCsumSeed (putBe32 buf off 0) h.jhBlocksize
    decide ((provided : ℤ) = toU32 calculated)

/-- The offset of `journal_block_tail_t`. -/
def tailOffset : ℕ := (h.jhBlocksize - sizeofJournalBlockTail).toNat

/-- The offset of `h_chksum[0]` in `journal_commit_header`. -/
def commitChksumOffset : ℕ := 16

/-- `jbd2_descr_block_csum_verify`. -/
def jbd2DescrBlockCsumVerify (buf : Block) : Bool := blockCsumVerify chksum h (tailOffset h) buf

/-- `jbd2_commit_block_csum_verify`. -/
def jbd2CommitBlockCsumVerify (buf : Block) : Bool :=
  blockCsumVerify chksum h commitChksumOffset buf

/-- `jbd2_revoke_block_csum_verify`. -/
def jbd2RevokeBlockCsumVerify (buf : Block) : Bool := blockCsumVerify chksum h (tailOffset h) buf

/-- `jbd2_verify_descr_block`. -/
def jbd2VerifyDescrBlock (buf : Block) : Bool :=
  if hMagic buf ≠ jbd2MagicNumber then false else jbd2DescrBlockCsumVerify chksum h buf

/-- `jbd2_verify_commit_block`. -/
def jbd2VerifyCommitBlock (buf : Block) : Bool :=
  if hMagic buf ≠ jbd2MagicNumber then false else jbd2CommitBlockCsumVerify chksum h buf

/-- `jbd2_verify_revoke_block`. -/
def jbd2VerifyRevokeBlock (buf : Block) : Bool :=
  if hMagic buf ≠ jbd2MagicNumber then false else jbd2RevokeBlockCsumVerify chksum h buf

/-! ### Bounds -/

theorem jbd2MinTagSize_ge : 8 ≤ jbd2MinTagSize h := by
  unfold jbd2MinTagSize
  split_ifs <;> simp

theorem jbd2TagSize_ge (buf : Block) (tag : ℕ) : jbd2MinTagSize h ≤ jbd2TagSize h buf tag := by
  unfold jbd2TagSize
  split_ifs <;> omega

/-- The most tags a descriptor block of this journal can count. -/
def maxTags : ℕ := (tagLimit h - sizeofJournalHeader).toNat / jbd2MinTagSize h

theorem jbd2CountTagsLoop_le (buf : Block) : ∀ fuel tagp nr,
    jbd2CountTagsLoop h buf fuel tagp nr ≤ nr + (tagLimit h - tagp).toNat / jbd2MinTagSize h := by
  intro fuel
  induction fuel with
  | zero => intro tagp nr; exact Nat.le_add_right _ _
  | succ fuel ih =>
    intro tagp nr
    have hmin := jbd2MinTagSize_ge h
    have hsz := jbd2TagSize_ge h buf tagp
    rw [jbd2CountTagsLoop]
    split_ifs with hlim hlast
    · exact Nat.le_add_right _ _
    · refine (ih _ _).trans ?_
      have hle : (tagLimit h - ((tagp + jbd2TagSize h buf tagp : ℕ) : ℤ)).toNat + jbd2MinTagSize h ≤
          (tagLimit h - tagp).toNat := by push_cast; omega
      have hdiv := Nat.div_le_div_right (c := jbd2MinTagSize h) hle
      rw [Nat.add_div_right _ (by omega)] at hdiv
      omega
    · exact Nat.le_add_right _ _

theorem jbd2CountTags_le (buf : Block) : jbd2CountTags h buf ≤ maxTags h := by
  have := jbd2CountTagsLoop_le h buf h.jhBlocksize.toNat sizeofJournalHeader 0
  unfold jbd2CountTags maxTags
  omega

end Ext4Fsd.Journal.Tags
