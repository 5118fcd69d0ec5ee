import Ext4Fsd.Journal.Crc32c
import Ext4Fsd.Journal.Readers

/-! # The checksums of the tags

A tag carries the CRC-32C of the journal's seed, the number of its transaction and its data block,
all of it in `journal_block_tag3_t` and its low half in `journal_block_tag_t` (`CsumDue`).

`jbd2_blocks_csum_verify` leaves the number of the transaction out, reads the short field as a
signed number, does not go around the end of the log (`CarriesPlain`), and goes through the tags of
the whole block. Its verdict is the documented one if the two sums of every tag meet and nothing in
the tail is found out of order (`RulesMeet`), or if the stored checksums are wrong by the one rule
and by the other (`WrongBothWays`). Where no byte of the data blocks disturbs the checksum routine
it is so only then (`csumsDocumented_when`). -/

namespace Ext4Fsd.Journal.TagCsums

open Ext4Fsd.Lib.CInt Ext4Fsd.Lib.Crc
open Ext4Fsd.Common.DrvCrc32 (castagnoli castagnoli_eq NothingAdded Platform drvCrc32c crc32cTab_of
  isCrc_of_nothingAdded)
open Ext4Fsd.Journal.Format Ext4Fsd.Journal.Tags Ext4Fsd.Journal.Recovery Ext4Fsd.Journal.Turns
open Ext4Fsd.Journal.Transactions (ringAdd)
open Ext4Fsd.Journal.Termination Ext4Fsd.Journal.Crc32c
open Ext4Fsd.Journal.Parse Ext4Fsd.Journal.TagWalk Ext4Fsd.Journal.Readers
open Ext4Fsd.Journal.InBlock (csumJournal)

section
variable (env : Env) (h : Jbd2Handle) (pf : Platform) (d : ℤ) (buf : Block) (w : World)

/-- The checksum routine is `drv_crc32c` of the platform. Where this reads outside of its table the
routine gives some 32-bit value. -/
structure ChksumOn : Prop where
  seed : h.jhCsumSeed ∈ Set.range toI32
  range : ∀ b, env.chksum h.jhCsumSeed b h.jhBlocksize ∈ Set.range toI32
  value : ∀ b v, drvCrc32c pf h.jhCsumSeed (bytesOf b h.jhBlocksize) = some v →
    env.chksum h.jhCsumSeed b h.jhBlocksize = v

/-- The CRC-32C of the seed, the transaction `seq` and the log block `b`. -/
def dueCsum (seq : ℕ) (b : ℤ) : ℕ :=
  crcBytes castagnoli (toU32 h.jhCsumSeed).toNat
    (be32Bytes seq ++ bytesOf (env.log b) h.jhBlocksize)

/-- The CRC-32C of the seed and the log block `b`. -/
def plainCsum (b : ℤ) : ℕ :=
  crcBytes castagnoli (toU32 h.jhCsumSeed).toNat (bytesOf (env.log b) h.jhBlocksize)

/-- **The tag `p.1`, the `p.2`-th of the descriptor block at `d`, carries the documented
checksum.** -/
structure CsumDue (seq : ℕ) (p : ℕ × ℕ) : Prop where
  v3 : jbd2HasFeatureCsum3 h.jhSb = true →
    be32 buf (p.1 + 12) = dueCsum env h seq (ringAdd h d p.2)
  v2 : jbd2HasFeatureCsum3 h.jhSb = false →
    be16 buf (p.1 + 4) = dueCsum env h seq (ringAdd h d p.2) % 2 ^ 16

/-- **The checksums are verified as documented**: with success exactly when every tag of the
descriptor block carries its checksum. -/
def CsumsDocumented (seq : ℕ) : Prop :=
  (jbd2BlocksCsumVerify env h d buf w).1 = .success ↔
    ∀ p ∈ (descrTags h buf).zipIdx 1, CsumDue env h d buf seq p

/-! ### The condition -/

/-- The stored checksum of the tag `p.1` is that of the seed and the block `d + p.2` alone, and does
not read as a negative number. -/
structure CarriesPlain (p : ℕ × ℕ) : Prop where
  v3 : jbd2HasFeatureCsum3 h.jhSb = true → be32 buf (p.1 + 12) = plainCsum env h (toI32 (d + p.2))
  v2 : jbd2HasFeatureCsum3 h.jhSb = false →
    be16 buf (p.1 + 4) = plainCsum env h (toI32 (d + p.2)) % 2 ^ 16 ∧ be16 buf (p.1 + 4) < 2 ^ 15

/-- **The sums of the `nr`-th tag meet**: as much of them as is stored is the same with the number
of the transaction as without it, and around the end of the log as past it. -/
structure SumsMeet (seq nr : ℕ) : Prop where
  v3 : jbd2HasFeatureCsum3 h.jhSb = true →
    plainCsum env h (toI32 (d + nr)) = dueCsum env h seq (ringAdd h d nr)
  v2 : jbd2HasFeatureCsum3 h.jhSb = false →
    plainCsum env h (toI32 (d + nr)) % 2 ^ 16 = dueCsum env h seq (ringAdd h d nr) % 2 ^ 16 ∧
      dueCsum env h seq (ringAdd h d nr) % 2 ^ 16 < 2 ^ 15

/-- No byte of the log block `b` adds anything to the CRC-32C of the seed and the block. -/
def Undisturbed (b : ℤ) : Prop :=
  NothingAdded pf castagnoli (toU32 h.jhCsumSeed).toNat (bytesOf (env.log b) h.jhBlocksize)

/-- **The two rules meet on the descriptor block**: on each of its tags, and what the tail of the
block holds is in order by the rule of the code. -/
structure RulesMeet (seq : ℕ) : Prop where
  data : ∀ p ∈ (blockTags h buf).zipIdx 1, Undisturbed env h pf (toI32 (d + p.2))
  sums : ∀ p ∈ (descrTags h buf).zipIdx 1, SumsMeet env h d seq p.2
  tail : ∀ p ∈ (blockTags h buf).zipIdx 1, p ∉ (descrTags h buf).zipIdx 1 →
    CarriesPlain env h d buf p

/-- **The stored checksums are wrong both ways**: one of them without the number of the transaction,
and one of them with it. -/
structure WrongBothWays (seq : ℕ) : Prop where
  plain : ∃ p ∈ (blockTags h buf).zipIdx 1,
    Undisturbed env h pf (toI32 (d + p.2)) ∧ ¬ CarriesPlain env h d buf p
  due : ∃ p ∈ (descrTags h buf).zipIdx 1, ¬ CsumDue env h d buf seq p

end

section
variable {env : Env} {h : Jbd2Handle} {pf : Platform} {d : ℤ} {buf : Block} {w : World}

/-- On a block that does not disturb it the routine has the CRC-32C. -/
theorem chksum_eq_plainCsum (hchk : ChksumOn env h pf) {b : ℤ} (hnone : Undisturbed env h pf b) :
    (toU32 (env.chksum h.jhCsumSeed (env.log b) h.jhBlocksize)).toNat = plainCsum env h b := by
  obtain ⟨seed, hseed⟩ := hchk.seed
  unfold Undisturbed at hnone
  rw [← castagnoli_eq, ← hseed, toU32_toI32] at hnone
  have hcrc := isCrc_of_nothingAdded crc32cTab_of (by decide +kernel) hnone
  obtain ⟨v, hrun⟩ := Option.ne_none_iff_exists'.mp hcrc.inside
  have hval := hcrc.value v hrun
  rw [hseed] at hrun hval
  rw [hchk.value _ v hrun, hval, castagnoli_eq]
  rfl

/-- What the comparison of a tag comes to. -/
theorem csumMatches_iff (hchk : ChksumOn env h pf)
    (hone : jbd2HasFeatureCsum2 h.jhSb = !jbd2HasFeatureCsum3 h.jhSb) {p : ℕ × ℕ}
    (hnone : Undisturbed env h pf (toI32 (d + p.2))) :
    CsumMatches env h d buf p ↔ CarriesPlain env h d buf p := by
  obtain ⟨x, hx⟩ := hchk.range (env.log (toI32 (d + p.2)))
  have h32 := be32_lt buf (p.1 + 12)
  have h16 := be16_lt buf (p.1 + 4)
  have hright := chksum_eq_plainCsum hchk hnone
  rw [← hx, toU32_toI32] at hright
  have hlow : (toU32 x).toNat = x % 2 ^ 32 := by
    unfold toU32
    omega
  unfold CsumMatches calculatedCsum jbd2TagCsum be32ToCpu be16ToCpu
  dsimp only
  rw [hone, ← hx]
  cases h3 : jbd2HasFeatureCsum3 h.jhSb with
  | true =>
    simp only [Bool.not_true, Bool.false_eq_true, if_false, if_true]
    rw [toI32_eq_iff, toU32_of_range (x := be32 buf (p.1 + 12)) (by omega) (by omega)]
    constructor
    · intro heq
      refine ⟨fun _ => ?_, fun hc => ?_⟩
      · rw [← hright]
        unfold toU32 at heq ⊢
        omega
      · rw [h3] at hc
        cases hc
    · intro hplain
      have heq := hplain.v3 h3
      rw [← hright] at heq
      unfold toU32 at heq ⊢
      omega
  | false =>
    simp only [Bool.not_false, if_true, Bool.false_eq_true, if_false]
    have hmod : toI32 x % 2 ^ 16 = (plainCsum env h (toI32 (d + p.2)) % 2 ^ 16 : ℕ) := by
      rw [← hright]
      unfold toI32 toU32
      omega
    rw [hmod]
    constructor
    · intro heq
      refine ⟨fun hc => ?_, fun _ => ?_⟩
      · rw [h3] at hc
        cases hc
      · unfold toI16 at heq
        omega
    · intro hplain
      obtain ⟨hsum, hpos⟩ := hplain.v2 h3
      unfold toI16
      omega

/-- The checksum run meets the tags of the descriptor block with the same numbers. -/
theorem zipIdx_descrTags_subset : (descrTags h buf).zipIdx 1 ⊆ (blockTags h buf).zipIdx 1 := by
  obtain ⟨more, hmore⟩ : descrTags h buf <+: blockTags h buf :=
    tagsFrom_prefix tagLimit_le_blocksize
  rw [← hmore, List.zipIdx_append]
  exact List.subset_append_left _ _

/-- Where its sums meet, a tag that carries its checksum is in order, and no other. -/
theorem csumDue_iff {seq : ℕ} {p : ℕ × ℕ} (hmeet : SumsMeet env h d seq p.2) :
    CsumDue env h d buf seq p ↔ CarriesPlain env h d buf p := by
  constructor
  · intro hdue
    refine ⟨fun h3 => by rw [hdue.v3 h3, hmeet.v3 h3], fun h2 => ?_⟩
    obtain ⟨hsum, hpos⟩ := hmeet.v2 h2
    rw [hdue.v2 h2]
    exact ⟨hsum.symm, hpos⟩
  · intro hplain
    exact ⟨fun h3 => by rw [hplain.v3 h3, hmeet.v3 h3],
      fun h2 => by rw [(hplain.v2 h2).1, (hmeet.v2 h2).1]⟩

/-- The sums of a tag that is in order by both rules meet. -/
theorem sumsMeet_of_both {seq : ℕ} {p : ℕ × ℕ} (hdue : CsumDue env h d buf seq p)
    (hplain : CarriesPlain env h d buf p) : SumsMeet env h d seq p.2 := by
  refine ⟨fun h3 => by rw [← hplain.v3 h3, hdue.v3 h3], fun h2 => ?_⟩
  obtain ⟨hsum, hpos⟩ := hplain.v2 h2
  rw [← hdue.v2 h2, ← hsum]
  exact ⟨rfl, hpos⟩

/-- **Sums of 32 bits meet** on a block this side of the end of the log exactly when the number of
the transaction leaves the seed alone: no data block brings two states of the CRC together. -/
theorem sumsMeet_iff {seq nr : ℕ} (h3 : jbd2HasFeatureCsum3 h.jhSb = true)
    (hring : toI32 (d + nr) = ringAdd h d nr) : SumsMeet env h d seq nr ↔
      crcBytes castagnoli (toU32 h.jhCsumSeed).toNat (be32Bytes seq) =
      (toU32 h.jhCsumSeed).toNat := by
  have hseed : (toU32 h.jhCsumSeed).toNat < 2 ^ (31 + 1) := by
    unfold toU32
    omega
  have hpoly : castagnoli < 2 ^ (31 + 1) := by decide
  have hsum : plainCsum env h (toI32 (d + nr)) = dueCsum env h seq (ringAdd h d nr) ↔
      crcBytes castagnoli (toU32 h.jhCsumSeed).toNat (be32Bytes seq) =
        (toU32 h.jhCsumSeed).toNat := by
    unfold plainCsum dueCsum
    rw [hring, crcBytes_append]
    constructor
    · intro heq
      exact (crcBytes_injective (by decide) (by decide) hpoly _ hseed
        (crcBytes_lt (by decide) hpoly _ hseed) heq).symm
    · intro hneutral
      rw [hneutral]
  rw [← hsum]
  refine ⟨fun hmeet => hmeet.v3 h3, fun heq => ⟨fun _ => heq, fun h2 => ?_⟩⟩
  rw [h3] at h2
  cases h2

/-- The run succeeds exactly when every tag of the block matches. -/
theorem verified_iff (hone : jbd2HasFeatureCsum2 h.jhSb = !jbd2HasFeatureCsum3 h.jhSb)
    (hr : ReadsFrom env.oracle w) : (jbd2BlocksCsumVerify env h d buf w).1 = .success ↔
      ∀ p ∈ (blockTags h buf).zipIdx 1, CsumMatches env h d buf p := by
  have hon : jbd2HasCsumV2or3 h.jhSb = true := by
    unfold jbd2HasCsumV2or3
    rw [hone]
    cases jbd2HasFeatureCsum3 h.jhSb <;> rfl
  exact (csumVerify_run hr hon).1

/-- **When the checksums are verified as documented**: the two rules meet, or the stored checksums
are wrong both ways. -/
theorem csumsDocumented_when (hchk : ChksumOn env h pf)
    (hone : jbd2HasFeatureCsum2 h.jhSb = !jbd2HasFeatureCsum3 h.jhSb)
    (hr : ReadsFrom env.oracle w) (seq : ℕ) :
    (RulesMeet env h pf d buf seq ∨ WrongBothWays env h pf d buf seq →
      CsumsDocumented env h d buf w seq) ∧
      ((∀ p ∈ (blockTags h buf).zipIdx 1, Undisturbed env h pf (toI32 (d + p.2))) →
        CsumsDocumented env h d buf w seq →
          RulesMeet env h pf d buf seq ∨ WrongBothWays env h pf d buf seq) := by
  have hcode := @verified_iff env h d buf w hone hr
  have hplain : ∀ p : ℕ × ℕ, Undisturbed env h pf (toI32 (d + p.2)) →
      (CsumMatches env h d buf p ↔ CarriesPlain env h d buf p) :=
    fun p hnone => csumMatches_iff hchk hone hnone
  unfold CsumsDocumented
  rw [hcode]
  constructor
  · rintro (hmeet | hwrong)
    · constructor
      · intro hall p hp
        have hin := zipIdx_descrTags_subset hp
        exact (csumDue_iff (hmeet.sums p hp)).mpr ((hplain p (hmeet.data p hin)).mp (hall p hin))
      · intro hall p hp
        rw [hplain p (hmeet.data p hp)]
        by_cases hdescr : p ∈ (descrTags h buf).zipIdx 1
        · exact (csumDue_iff (hmeet.sums p hdescr)).mp (hall p hdescr)
        · exact hmeet.tail p hp hdescr
    · obtain ⟨p, hp, hnone, hno⟩ := hwrong.plain
      obtain ⟨q, hq, hundue⟩ := hwrong.due
      exact ⟨fun hall => absurd ((hplain p hnone).mp (hall p hp)) hno,
        fun hall => absurd (hall q hq) hundue⟩
  · intro hnone hdoc
    by_cases hall : ∀ p ∈ (descrTags h buf).zipIdx 1, CsumDue env h d buf seq p
    · have hcarries : ∀ p ∈ (blockTags h buf).zipIdx 1, CarriesPlain env h d buf p :=
        fun p hp => (hplain p (hnone p hp)).mp (hdoc.mpr hall p hp)
      exact .inl ⟨hnone, fun p hp => sumsMeet_of_both (hall p hp)
        (hcarries p (zipIdx_descrTags_subset hp)), fun p hp _ => hcarries p hp⟩
    · have hfail : ¬ ∀ p ∈ (blockTags h buf).zipIdx 1, CsumMatches env h d buf p :=
        fun hm => hall (hdoc.mp hm)
      push Not at hall hfail
      obtain ⟨p, hp, hno⟩ := hfail
      exact .inr ⟨⟨p, hp, hnone p hp, fun hc => hno ((hplain p (hnone p hp)).mpr hc)⟩, hall⟩

end

/-! ### A data block of zeros -/

/-- Every block of the log is zero. -/
def zeroEnv : Env := ⟨fun _ _ => 0, jbd2Chksum, noEntries⟩

/-- A descriptor block with one tag, for block 5, and the checksum 0. -/
def csumTag : Block := putBe32 (putBe32 (headerBlock 1 1) 12 5) 16 0xa

theorem bytesOf_zero (n : ℤ) : bytesOf (fun _ => 0) n = List.replicate n.toNat 0 := by
  unfold bytesOf
  rw [List.map_const', List.length_range]

theorem plainCsum_zeros (b : ℤ) : plainCsum zeroEnv csumJournal b = 0 := by
  have hbytes : bytesOf (zeroEnv.log b) csumJournal.jhBlocksize = List.replicate _ 0 :=
    bytesOf_zero _
  unfold plainCsum
  rw [hbytes]
  exact crcBytes_zero _ _

theorem csumJournal_seed : csumJournal.jhCsumSeed = toI32 0 := by decide +kernel

theorem zeroEnv_chksum : ChksumOn zeroEnv csumJournal .x86 := by
  refine ⟨csumJournal_seed ▸ Set.mem_range_self 0, fun b => ?_, fun b v hv => ?_⟩
  · rw [show zeroEnv.chksum = jbd2Chksum from rfl, csumJournal_seed]
    exact jbd2Chksum_range (Set.mem_range_self 0) _ _
  · rw [show zeroEnv.chksum = jbd2Chksum from rfl, jbd2Chksum, hv]
    rfl

/-- Zeros do not disturb the routine. -/
theorem zeroEnv_undisturbed (b : ℤ) : Undisturbed zeroEnv csumJournal .x86 b := by
  have hbytes : bytesOf (zeroEnv.log b) csumJournal.jhBlocksize = List.replicate _ 0 :=
    bytesOf_zero _
  unfold Undisturbed
  rw [hbytes, csumJournal_seed, toU32_toI32]
  refine fun fst q snd heq => ⟨?_, fun hc => by cases hc⟩
  have hfst : fst = List.replicate fst.length 0 :=
    List.eq_replicate_of_mem fun b hb =>
      List.eq_of_mem_replicate (heq ▸ List.mem_append_left _ hb)
  have hzero : crcBytes castagnoli (toU32 0).toNat fst = 0 := by
    rw [hfst]
    exact crcBytes_zero _ _
  rw [hzero]
  decide

/-- The checksum 0 is the documented one of transaction 0. -/
theorem csumsDocumented_zero :
    CsumsDocumented zeroEnv csumJournal 1 csumTag (World.init fun _ _ => 0) 0 := by
  have h3 : jbd2HasFeatureCsum3 csumJournal.jhSb = true := by decide +kernel
  have hone : jbd2HasFeatureCsum2 csumJournal.jhSb = !jbd2HasFeatureCsum3 csumJournal.jhSb := by
    decide +kernel
  have hblock : blockTags csumJournal csumTag = [12] := by decide +kernel
  have hdescr : descrTags csumJournal csumTag = [12] := by decide +kernel
  have hring : toI32 (1 + (1 : ℕ)) = ringAdd csumJournal 1 1 := by decide +kernel
  refine (csumsDocumented_when zeroEnv_chksum hone (fun _ _ => rfl) 0).1
    (.inl ⟨fun p _ => zeroEnv_undisturbed _, ?_, ?_⟩)
  · rw [hdescr, List.zipIdx_singleton, List.forall_mem_singleton]
    exact (sumsMeet_iff h3 hring).mpr (by decide +kernel)
  · rw [hblock, hdescr]
    exact fun p hp hno => absurd hp hno

/-- It is not that of transaction 1, and is accepted all the same. -/
theorem sequence_not_checked : ¬ ∀ (pf : Platform) (env : Env) (h : Jbd2Handle) (d : ℤ)
    (buf : Block) (w : World) (seq : ℕ), ChksumOn env h pf →
    jbd2HasFeatureCsum2 h.jhSb = (!jbd2HasFeatureCsum3 h.jhSb) → ReadsFrom env.oracle w →
    CsumsDocumented env h d buf w seq := by
  intro hall
  have h3 : jbd2HasFeatureCsum3 csumJournal.jhSb = true := by decide +kernel
  have hone : jbd2HasFeatureCsum2 csumJournal.jhSb = !jbd2HasFeatureCsum3 csumJournal.jhSb := by
    decide +kernel
  have hblock : blockTags csumJournal csumTag = [12] := by decide +kernel
  have hdescr : descrTags csumJournal csumTag = [12] := by decide +kernel
  have hring : toI32 (1 + (1 : ℕ)) = ringAdd csumJournal 1 1 := by decide +kernel
  have hstored : be32 csumTag (12 + 12) = 0 := by decide +kernel
  have hr : ReadsFrom zeroEnv.oracle (World.init fun _ _ => 0) := fun _ _ => rfl
  have hcarries : CarriesPlain zeroEnv csumJournal 1 csumTag (12, 1) := by
    refine ⟨fun _ => by rw [plainCsum_zeros]; exact hstored, fun h2 => ?_⟩
    rw [h3] at h2
    cases h2
  have hsuc : (jbd2BlocksCsumVerify zeroEnv csumJournal 1 csumTag
      (World.init fun _ _ => 0)).1 = .success := by
    rw [verified_iff hone hr, hblock, List.zipIdx_singleton, List.forall_mem_singleton]
    exact (csumMatches_iff zeroEnv_chksum hone (zeroEnv_undisturbed _)).mpr hcarries
  have hdue := (hall .x86 zeroEnv csumJournal 1 csumTag (World.init fun _ _ => 0) 1 zeroEnv_chksum
    hone hr).mp hsuc
  rw [hdescr, List.zipIdx_singleton, List.forall_mem_singleton] at hdue
  have hneutral := (sumsMeet_iff h3 hring).mp (sumsMeet_of_both hdue hcarries)
  exact absurd hneutral (by decide +kernel)

end Ext4Fsd.Journal.TagCsums
