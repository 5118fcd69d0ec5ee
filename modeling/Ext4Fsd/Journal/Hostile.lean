import Ext4Fsd.Journal.Turns

/-! # Blocks made to pass the checks

The log of a journal is whatever has been written there. These blocks carry the header of a given
type and transaction, as many tags as fit, and a checksum that verifies: with them a log takes a
pass to any block of the ring. -/

namespace Ext4Fsd.Journal.Hostile

open Ext4Fsd.Lib.CInt
open Ext4Fsd.Journal.Format Ext4Fsd.Journal.Tags Ext4Fsd.Journal.Recovery Ext4Fsd.Journal.Effects
open Ext4Fsd.Journal.Turns

variable (chksum : Chksum) (h : Jbd2Handle)

/-- Tags of the least size, none of them flagged last. -/
def tagBytes : Block := fun o =>
  if sizeofJournalHeader ≤ o ∧ (o - sizeofJournalHeader) % jbd2MinTagSize h = 7 then 2 else 0

/-- A block of the given type and transaction, filled with tags. -/
def rawBlock (type : ℕ) (tid : ℤ) : Block :=
  putBe32 (putBe32 (putBe32 (tagBytes h) 0 jbd2MagicNumber) 4 type) 8 (toU32 tid).toNat

/-- The block with the checksum that belongs at `off`. -/
def sealBlock (off : ℕ) (b : Block) : Block :=
  putBe32 b off (toU32 (chksum h.jhCsumSeed (putBe32 b off 0) h.jhBlocksize)).toNat

variable {chksum h}

theorem toU32_toNat_lt (x : ℤ) : (toU32 x).toNat < 2 ^ 32 := by
  have h0 := toU32_nonneg x
  have h1 := toU32_lt x
  omega

theorem headerOf_rawBlock (type : ℕ) {tid : ℤ} (h0 : 0 < type) (h5 : type ≤ 5)
    (htid : tid ∈ Set.range toI32) : HeaderOf type (rawBlock h type tid) tid := by
  have htype : hBlocktype (rawBlock h type tid) = type := by
    unfold hBlocktype be32ToCpu rawBlock
    rw [be32_putBe32_of_disjoint _ _ (by omega), be32_putBe32 _ _ (by omega),
      toI32_of_range (by omega) (by omega)]
  have hmagic : hMagic (rawBlock h type tid) = jbd2MagicNumber := by
    unfold hMagic rawBlock
    rw [be32_putBe32_of_disjoint _ _ (by omega), be32_putBe32_of_disjoint _ _ (by omega),
      be32_putBe32 _ _ (by decide)]
  refine ⟨?_, ?_, htype⟩
  · unfold jbd2VerifyMetadataBlock jbd2RevokeBlock
    rw [htype, hmagic, if_neg (by simp), if_neg (by omega)]
  · obtain ⟨x, rfl⟩ := htid
    unfold hSequence be32ToCpu rawBlock
    rw [be32_putBe32 _ _ (toU32_toNat_lt _), Int.toNat_of_nonneg (toU32_nonneg _), toI32_toU32,
      toI32_toI32]

/-- The checksum is behind the header. -/
theorem headerOf_sealBlock {type : ℤ} {b : Block} {tid : ℤ} {off : ℕ} (hh : HeaderOf type b tid)
    (hoff : 12 ≤ off) : HeaderOf type (sealBlock chksum h off b) tid := by
  have hfield : ∀ o, o + 4 ≤ 12 → be32 (sealBlock chksum h off b) o = be32 b o := fun o ho =>
    be32_putBe32_of_disjoint _ _ (by omega)
  obtain ⟨h1, h2, h3⟩ := hh
  unfold jbd2VerifyMetadataBlock hMagic hBlocktype be32ToCpu at h1
  unfold hSequence be32ToCpu at h2
  unfold hBlocktype be32ToCpu at h3
  refine ⟨?_, ?_, ?_⟩
  · unfold jbd2VerifyMetadataBlock hMagic hBlocktype be32ToCpu
    rw [hfield 0 (by omega), hfield 4 (by omega)]
    exact h1
  · unfold hSequence be32ToCpu
    rw [hfield 8 (by omega)]
    exact h2
  · unfold hBlocktype be32ToCpu
    rw [hfield 4 (by omega)]
    exact h3

theorem HeaderOf.magic {type : ℤ} {b : Block} {tid : ℤ} (hh : HeaderOf type b tid) :
    hMagic b = jbd2MagicNumber := by
  by_contra hne
  have h1 := hh.header
  unfold jbd2VerifyMetadataBlock at h1
  rw [if_pos hne] at h1
  cases h1

theorem blockCsumVerify_sealBlock (off : ℕ) (b : Block) :
    blockCsumVerify chksum h off (sealBlock chksum h off b) = true := by
  unfold blockCsumVerify
  split_ifs
  · rfl
  · unfold sealBlock
    rw [putBe32_putBe32, be32_putBe32 _ _ (toU32_toNat_lt _)]
    exact decide_eq_true (Int.toNat_of_nonneg (toU32_nonneg _))

theorem blockCsumVerify_off (hcs : jbd2HasCsumV2or3 h.jhSb = false) (off : ℕ) (b : Block) :
    blockCsumVerify chksum h off b = true := by
  unfold blockCsumVerify
  rw [if_pos (by simp [hcs])]

theorem commitOf_sealBlock {tid : ℤ} (htid : tid ∈ Set.range toI32) :
    CommitOf chksum h (sealBlock chksum h commitChksumOffset (rawBlock h 2 tid)) tid := by
  have hh : HeaderOf jbd2CommitBlock
    (sealBlock chksum h commitChksumOffset (rawBlock h 2 tid)) tid :=
    headerOf_sealBlock (headerOf_rawBlock 2 (by omega) (by omega) htid) (by decide)
  refine ⟨hh, ?_⟩
  unfold jbd2VerifyCommitBlock
  rw [if_neg (by simp [HeaderOf.magic hh])]
  exact blockCsumVerify_sealBlock _ _

theorem descrOf_sealBlock {tid : ℤ} (htid : tid ∈ Set.range toI32) (hroom : Room h h.jhBlocksize) :
    DescrOf chksum h (sealBlock chksum h (tailOffset h) (rawBlock h 1 tid)) tid := by
  have hoff : 12 ≤ tailOffset h := by
    have hmin := jbd2MinTagSize_ge h
    unfold Room sizeofJournalHeader at hroom
    unfold tailOffset sizeofJournalBlockTail
    omega
  have hh : HeaderOf jbd2DescriptorBlock
    (sealBlock chksum h (tailOffset h) (rawBlock h 1 tid)) tid :=
    headerOf_sealBlock (headerOf_rawBlock 1 (by omega) (by omega) htid) hoff
  refine ⟨hh, ?_⟩
  unfold jbd2VerifyDescrBlock
  rw [if_neg (by simp [HeaderOf.magic hh])]
  exact blockCsumVerify_sealBlock _ _

/-- Without checksums the blocks verify as they are. -/
theorem descrOf_rawBlock {tid : ℤ} (htid : tid ∈ Set.range toI32)
    (hcs : jbd2HasCsumV2or3 h.jhSb = false) : DescrOf chksum h (rawBlock h 1 tid) tid := by
  have hh : HeaderOf jbd2DescriptorBlock (rawBlock h 1 tid) tid :=
    headerOf_rawBlock 1 (by omega) (by omega) htid
  refine ⟨hh, ?_⟩
  unfold jbd2VerifyDescrBlock
  rw [if_neg (by simp [HeaderOf.magic hh])]
  exact blockCsumVerify_off hcs _ _

theorem revokeOf_rawBlock {tid : ℤ} (htid : tid ∈ Set.range toI32)
    (hcs : jbd2HasCsumV2or3 h.jhSb = false) : RevokeOf chksum h (rawBlock h 5 tid) tid := by
  have hh : HeaderOf jbd2RevokeBlock (rawBlock h 5 tid) tid :=
    headerOf_rawBlock 5 (by omega) (by omega) htid
  refine ⟨hh, ?_⟩
  unfold jbd2VerifyRevokeBlock
  rw [if_neg (by simp [HeaderOf.magic hh])]
  exact blockCsumVerify_off hcs _ _

/-! ### The tags -/

/-- Past the header the block holds the tags. -/
theorem rawBlock_byte (type : ℕ) (tid : ℤ) {o : ℕ} (ho : 12 ≤ o) :
    rawBlock h type tid o = tagBytes h o := by
  unfold rawBlock putBe32
  rw [if_neg (by omega), if_neg (by omega), if_neg (by omega), if_neg (by omega),
    if_neg (by omega), if_neg (by omega), if_neg (by omega), if_neg (by omega),
    if_neg (by omega), if_neg (by omega), if_neg (by omega), if_neg (by omega)]

/-- The flags of every tag say "same uuid" and nothing else. -/
theorem tagFlags_rawBlock (hcs : jbd2HasCsumV2or3 h.jhSb = false) (type : ℕ) (tid : ℤ) (k : ℕ) :
    tagFlags h (rawBlock h type tid) (12 + k * jbd2MinTagSize h) = 2 := by
  have hmin := jbd2MinTagSize_ge h
  have h3 : jbd2HasFeatureCsum3 h.jhSb = false := by
    unfold jbd2HasCsumV2or3 at hcs
    exact (Bool.or_eq_false_iff.mp hcs).2
  have hbyte : ∀ j < 8, rawBlock h type tid (12 + k * jbd2MinTagSize h + j) =
      if j = 7 then 2 else 0 := by
    intro j hj
    rw [rawBlock_byte _ _ (by omega)]
    unfold tagBytes sizeofJournalHeader
    have hmod : (12 + k * jbd2MinTagSize h + j - 12) % jbd2MinTagSize h = j := by
      rw [show 12 + k * jbd2MinTagSize h + j - 12 = j + k * jbd2MinTagSize h by omega,
        Nat.add_mul_mod_self_right, Nat.mod_eq_of_lt (by omega)]
    rw [hmod]
    by_cases h7 : j = 7
    · rw [if_pos ⟨by omega, h7⟩, if_pos h7]
    · rw [if_neg (fun hc => h7 hc.2), if_neg h7]
  unfold tagFlags
  rw [if_neg (by simp [h3])]
  unfold be16
  rw [hbyte 6 (by omega), show 12 + k * jbd2MinTagSize h + 6 + 1 = 12 + k * jbd2MinTagSize h + 7 by
    omega, hbyte 7 (by omega)]
  rfl

theorem countTagsLoop_rawBlock (hcs : jbd2HasCsumV2or3 h.jhSb = false) (type : ℕ) (tid : ℤ) :
    ∀ fuel k, k ≤ maxTags h → maxTags h ≤ k + fuel →
    jbd2CountTagsLoop h (rawBlock h type tid) fuel (12 + k * jbd2MinTagSize h) k = maxTags h := by
  have hmin := jbd2MinTagSize_ge h
  intro fuel
  induction fuel with
  | zero => intro k h1 h2; exact le_antisymm h1 h2
  | succ fuel ih =>
    intro k h1 h2
    have hflags := tagFlags_rawBlock hcs type tid k
    have hlast : jbd2TestFlag h (rawBlock h type tid) (12 + k * jbd2MinTagSize h)
        jbd2FlagLastTag = false := by
      unfold jbd2TestFlag
      rw [hflags]
      rfl
    have hsize : jbd2TagSize h (rawBlock h type tid) (12 + k * jbd2MinTagSize h) =
        jbd2MinTagSize h := by
      unfold jbd2TagSize jbd2TestFlag
      rw [hflags]
      exact if_pos rfl
    rw [jbd2CountTagsLoop]
    by_cases hfit : ((12 + k * jbd2MinTagSize h : ℕ) : ℤ) + jbd2MinTagSize h ≤ tagLimit h
    · have hk : k + 1 ≤ maxTags h := by
        unfold maxTags
        rw [Nat.le_div_iff_mul_le (by omega), Nat.succ_mul]
        unfold sizeofJournalHeader
        omega
      rw [if_pos hfit, hlast, if_neg (by simp), hsize,
        show 12 + k * jbd2MinTagSize h + jbd2MinTagSize h = 12 + (k + 1) * jbd2MinTagSize h by ring]
      exact ih (k + 1) hk (by omega)
    · rw [if_neg hfit]
      refine le_antisymm h1 ?_
      unfold maxTags
      rw [← Nat.lt_succ_iff, Nat.div_lt_iff_lt_mul (by omega), Nat.succ_mul]
      unfold sizeofJournalHeader
      omega

/-- **The block has as many tags as a descriptor block of the journal can count.** -/
theorem countTags_rawBlock (hcs : jbd2HasCsumV2or3 h.jhSb = false) (type : ℕ) (tid : ℤ) :
    jbd2CountTags h (rawBlock h type tid) = maxTags h := by
  have hfuel : maxTags h ≤ 0 + h.jhBlocksize.toNat := by
    have hlim : tagLimit h ≤ h.jhBlocksize := by
      unfold tagLimit
      split_ifs <;> omega
    refine (Nat.div_le_self _ _).trans ?_
    omega
  have hloop := countTagsLoop_rawBlock hcs type tid h.jhBlocksize.toNat 0 (Nat.zero_le _) hfuel
  rw [Nat.zero_mul, Nat.add_zero] at hloop
  exact hloop

end Ext4Fsd.Journal.Hostile
