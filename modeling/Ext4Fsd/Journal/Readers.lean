import Ext4Fsd.Journal.InBlock
import Ext4Fsd.Journal.Replayed

/-! # The readers of a descriptor block

A descriptor block is read three times: its tags are counted, the checksums of its data blocks are
verified, its data blocks are copied. All three should come to the same tags, and the count should
lead to the block behind the data (`ReadersAgree`).

The count leaves out a tag that is flagged last. The checksum run takes the tail of the block for
room for tags. The readers agree exactly when neither shows (`readersAgree_iff`). -/

namespace Ext4Fsd.Journal.Readers

open Ext4Fsd.Lib.CInt Ext4Fsd.Lib.Recording
open Ext4Fsd.Journal.Format Ext4Fsd.Journal.Tags Ext4Fsd.Journal.Recovery Ext4Fsd.Journal.Turns
open Ext4Fsd.Journal.Termination Ext4Fsd.Journal.Contents
open Ext4Fsd.Journal.Parse Ext4Fsd.Journal.TagWalk Ext4Fsd.Journal.Replayed

section
variable (env : Env) (h : Jbd2Handle) (tid d : ℤ) (buf : Block) (w : World)

/-- No tag of the descriptor block is revoked. -/
def NoneRevoked : Prop :=
  ∀ t ∈ descrTags h buf, revoked tid (w.revokeTable (jbd2TagBlocknr h buf t)) = false

/-- **The readers of the descriptor block at `d` see the same tags**, the tags of the block. -/
structure ReadersAgree : Prop where
  counted : view Access.tag? (countTags h buf) = descrTags h buf
  verified : jbd2HasCsumV2or3 h.jhSb = true → (jbd2BlocksCsumVerify env h d buf w).1 = .success →
    view Access.tag? (csumVerify env h d buf w) = descrTags h buf
  replayed : NoneRevoked h tid buf w →
    view Access.tag? (replayDescrBlock env h tid d buf w) = descrTags h buf
  count : jbd2CountTags h buf = (descrTags h buf).length
  next : advance h d (jbd2CountTags h buf + 1) = advance h d ((descrTags h buf).length + 1)

/-- Every data block carries the checksum of its tag, when the room for tags is taken to be the
whole block. -/
def DataMatch : Prop := AllMatch env h d buf h.jhBlocksize.toNat sizeofJournalHeader 1

end

section
variable {env : Env} {h : Jbd2Handle} {tid d : ℤ} {buf : Block} {w : World}

/-- While nothing fails and nothing is revoked, the replay comes to the tags of the block. -/
theorem replayDescrBlock_tags (hr : ReadsFrom env.oracle w) (hw : WritesFrom env.oracle w)
    (hnone : NoneRevoked h tid buf w) :
    view Access.tag? (replayDescrBlock env h tid d buf w) = descrTags h buf := by
  have htags : visitedFrom h buf (tagLimit h) (fun _ => false) h.jhBlocksize.toNat
      sizeofJournalHeader = descrTags h buf := visitedFrom_none fun _ _ => rfl
  have htable : ∀ w w' : World, w'.revokeTable = w.revokeTable → NoneRevoked h tid buf w →
      NoneRevoked h tid buf w' := fun w w' hw hI t ht => by rw [hw]; exact hI t ht
  obtain ⟨hrun, -⟩ := @replayDescrBlockLoop_run env h tid d buf (NoneRevoked h tid buf)
    (fun _ => false) htable (fun w t hI t' ht' => not_revoked_revokeCheck (hI t' ht'))
    h.jhBlocksize.toNat sizeofJournalHeader 1 w _ (room_start tagLimit_le_blocksize) hr hw hnone
    (by rw [htags]; exact fun t ht w hI => hI t ht) rfl
  rw [htags] at hrun
  exact hrun

/-- The count is the number of tags exactly when none of them is flagged last. -/
theorem countTags_eq_length_iff : jbd2CountTags h buf = (descrTags h buf).length ↔
    ∀ t ∈ descrTags h buf, ¬ IsLast h buf t := by
  rw [countTags_eq, List.countP_eq_length]
  refine forall₂_congr fun t _ => ?_
  simp

/-- The checksum run succeeds exactly when the data matches, and then comes to the tags that would
fit into the whole block. -/
theorem csumVerify_run (hr : ReadsFrom env.oracle w) (hc : jbd2HasCsumV2or3 h.jhSb = true) :
    ((jbd2BlocksCsumVerify env h d buf w).1 = .success ↔ DataMatch env h d buf) ∧
    ((jbd2BlocksCsumVerify env h d buf w).1 = .success →
      view Access.tag? (csumVerify env h d buf w) = blockTags h buf) := by
  have hon : csumVerify env h d buf w =
      csumVerifyLoop env h d buf h.jhBlocksize.toNat sizeofJournalHeader 1 w := by
    unfold csumVerify
    rw [hc]
    rfl
  rw [← val_csumVerify, hon]
  exact csumVerifyLoop_run d h.jhBlocksize.toNat sizeofJournalHeader 1 w (room_start le_rfl) hr

/-- **When the readers agree**: no tag is flagged last, and with checksums on the tail of the block
is not taken for a further tag. -/
theorem readersAgree_iff (hr : ReadsFrom env.oracle w) (hw : WritesFrom env.oracle w) :
    ReadersAgree env h tid d buf w ↔ (∀ t ∈ descrTags h buf, ¬ IsLast h buf t) ∧
      (jbd2HasCsumV2or3 h.jhSb = true → DataMatch env h d buf →
        ¬ Fits h h.jhBlocksize (descrEnd h buf)) := by
  have hblock := @tagsFrom_eq_iff h buf (tagLimit h) h.jhBlocksize tagLimit_le_blocksize
    h.jhBlocksize.toNat sizeofJournalHeader (room_start le_rfl)
  constructor
  · intro hag
    have hno := countTags_eq_length_iff.mp hag.count
    refine ⟨hno, fun hc hm => (hblock hno).mp ?_⟩
    obtain ⟨hok, htags⟩ := @csumVerify_run env h d buf w hr hc
    have hs := hok.mpr hm
    exact (htags hs).symm.trans (hag.verified hc hs)
  · rintro ⟨hno, htail⟩
    have hcount := countTags_eq_length_iff.mpr hno
    refine ⟨countTags_tags, fun hc hs => ?_, replayDescrBlock_tags hr hw, hcount, by rw [hcount]⟩
    obtain ⟨hok, htags⟩ := @csumVerify_run env h d buf w hr hc
    exact (htags hs).trans ((hblock hno).mpr (htail hc (hok.mp hs)))

/-! ### Two descriptor blocks -/

/-- A block full of tags, none of them flagged last, is read alike by all three. -/
theorem readersAgree_fullBlock : ReadersAgree ⟨fun _ => headerBlock 1 1, fun _ _ _ => 0, noEntries⟩
    (smallJournal 1) 1 1 (headerBlock 1 1) (World.init fun _ _ => 0) := by
  have hno : ∀ t ∈ descrTags (smallJournal 1) (headerBlock 1 1),
      ¬ IsLast (smallJournal 1) (headerBlock 1 1) t := by decide +kernel
  have hoff : jbd2HasCsumV2or3 (smallJournal 1).jhSb = false := by decide +kernel
  refine (readersAgree_iff (fun _ _ => rfl) (fun _ _ => rfl)).mpr ⟨hno, fun hc => ?_⟩
  rw [hoff] at hc
  cases hc

/-- A tag that is flagged last is not counted. -/
theorem lastTag_not_counted : ¬ ∀ (env : Env) (h : Jbd2Handle) (tid d : ℤ) (buf : Block)
    (w : World),
    ReadsFrom env.oracle w → WritesFrom env.oracle w → ReadersAgree env h tid d buf w := by
  intro hall
  have hag := hall ⟨oneTransaction, fun _ _ _ => 0, noEntries⟩ (smallJournal 1) 1 1
    (oneTransaction 1) (World.init fun _ _ => 0) (fun _ _ => rfl) (fun _ _ => rfl)
  have hcount : jbd2CountTags (smallJournal 1) (oneTransaction 1) = 0 := by decide +kernel
  have htags : descrTags (smallJournal 1) (oneTransaction 1) = [12] := by decide +kernel
  have heq := hag.count
  rw [hcount, htags] at heq
  cases heq

end

end Ext4Fsd.Journal.Readers
