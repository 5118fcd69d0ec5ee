import Ext4Fsd.Journal.DataBlocks

/-! # Parsing stays in the block

The four loops over the bytes of a descriptor or revoke block, for blocks of at least 1024 bytes
with any content: they end by themselves, every field they read lies in the block, and those over
tags come to no more tags than fit (`parsesInside`). So what they do is up to the bytes of the block
(`parses_block`). -/

namespace Ext4Fsd.Journal.InBlock

open Ext4Fsd.Lib.CInt Ext4Fsd.Lib.Recording
open Ext4Fsd.Journal.Format Ext4Fsd.Journal.Tags Ext4Fsd.Journal.Recovery
open Ext4Fsd.Journal.Termination Ext4Fsd.Journal.Contents
open Ext4Fsd.Journal.Parse Ext4Fsd.Journal.TagWalk Ext4Fsd.Journal.DataBlocks

/-- A field that is read lies in a block of `size` bytes, and no loop is cut off. -/
def Inside (size : ℤ) : Access → Prop
  | .field off len => (off : ℤ) + len ≤ size
  | .cut => False
  | _ => True

section
variable {h : Jbd2Handle} {limit size : ℤ}

theorem turnOk_inside (hle : limit ≤ size) : TurnOk h limit (Inside size) := by
  refine ⟨fun _ _ => trivial, fun t hf off len _ hoff => ?_⟩
  have hlen : (off : ℤ) + len ≤ t + jbd2MinTagSize h := by exact_mod_cast hoff
  exact (hlen.trans hf).trans hle

variable {env : Env} {tid : ℤ} {buf : Block}

/-! ### Revoke blocks -/

theorem logs_revokeEntryBlocknr {P : Access → Prop} {entry : ℕ}
    (hP : ∀ len, len ≤ jbd2RevokeEntrySize h → P (.field entry len)) :
    Logs P (revokeEntryBlocknr h buf entry) := by
  unfold jbd2RevokeEntrySize at hP
  refine logs_ite (fun h64 => logs_field (hP _ ?_)) fun h64 => logs_field (hP _ ?_)
  · rw [if_pos h64, cpu64Field_width]
  · rw [if_neg h64, cpu32Field_width]

theorem jbd2RevokeEntrySize_ge : 4 ≤ jbd2RevokeEntrySize h := by
  unfold jbd2RevokeEntrySize
  split_ifs <;> omega

theorem logs_scanRevokeEntriesLoop {count : ℤ} (hcount : count ≤ size) :
    ∀ fuel (bufp : ℕ) w, (count - bufp).toNat ≤ fuel →
      Logs (Inside size) (scanRevokeEntriesLoop env h tid buf count fuel bufp w) := by
  have hsz := jbd2RevokeEntrySize_ge (h := h)
  intro fuel
  induction fuel with
  | zero =>
    intro bufp w hfuel
    rw [scanRevokeEntriesLoop]
    exact logs_ite (fun hmore => absurd hmore (by omega)) fun _ => logs_pure _
  | succ fuel ih =>
    intro bufp w hfuel
    rw [scanRevokeEntriesLoop]
    refine logs_ite (fun hmore => ?_) fun _ => logs_pure _
    have hfield : ∀ len, len ≤ jbd2RevokeEntrySize h → Inside size (.field bufp len) := by
      intro len hlen
      have hend : (bufp : ℤ) + len ≤ size := by omega
      exact hend
    refine logs_bind (logs_revokeEntryBlocknr hfield) ?_
    rcases jbd2RevokeEntryGet env w (revokeEntryBlocknr h buf bufp).val with ⟨_ | _ | re, w'⟩
    · exact logs_pure _
    · exact logs_pure _
    · exact ih _ _ (by push_cast; omega)

/-- The count of a revoke block is held against the room there is. -/
theorem rcountLimit_le (hbs : 1024 ≤ h.jhBlocksize) : rcountLimit h ≤ h.jhBlocksize := by
  unfold rcountLimit toU64
  have htail : sizeofJournalBlockTail = 4 := rfl
  split_ifs <;> omega

theorem logs_scanRevokeEntries (hbs : 1024 ≤ h.jhBlocksize) (w : World) :
    Logs (Inside h.jhBlocksize) (scanRevokeEntries env h tid buf w) := by
  have hcount : Inside h.jhBlocksize (.field 12 4) := by
    have hend : ((12 : ℕ) : ℤ) + (4 : ℕ) ≤ h.jhBlocksize := by push_cast; omega
    exact hend
  refine logs_bind (logs_field hcount) (logs_ite (fun _ => logs_pure _) fun hle => ?_)
  rw [val_field, not_lt] at hle
  rw [val_field]
  exact logs_scanRevokeEntriesLoop (hle.trans (rcountLimit_le hbs)) _ _ _ (by omega)

/-! ### All four loops -/

/-- The tags that fit into a block. -/
def tagsThatFit (h : Jbd2Handle) : ℕ :=
  (h.jhBlocksize.toNat - sizeofJournalHeader) / jbd2MinTagSize h

theorem length_le_tagsThatFit {α : Type} {x : Traced Access α} {nr : ℤ}
    (hx : Paced h limit sizeofJournalHeader nr x) (hle : limit ≤ h.jhBlocksize) :
    (view Access.tag? x).length ≤ tagsThatFit h := by
  have hmin := jbd2MinTagSize_ge h
  unfold tagsThatFit
  rw [Nat.le_div_iff_mul_le (by omega)]
  exact hx.room.trans (by omega)

/-- **What the loops over a block do to it**: they read fields inside it only, end by themselves,
and come to no more tags than fit. -/
structure ParsesInside (env : Env) (h : Jbd2Handle) (tid blocknr : ℤ) (buf : Block) (w : World) :
    Prop where
  countTags : Logs (Inside h.jhBlocksize) (countTags h buf)
  csumVerify : Logs (Inside h.jhBlocksize) (csumVerify env h blocknr buf w)
  replayDescrBlock : Logs (Inside h.jhBlocksize) (replayDescrBlock env h tid blocknr buf w)
  scanRevokeEntries : Logs (Inside h.jhBlocksize) (scanRevokeEntries env h tid buf w)
  countTags_length : (view Access.tag? (Parse.countTags h buf)).length ≤ tagsThatFit h
  csumVerify_length :
    (view Access.tag? (Parse.csumVerify env h blocknr buf w)).length ≤ tagsThatFit h
  replayDescrBlock_length :
    (view Access.tag? (Parse.replayDescrBlock env h tid blocknr buf w)).length ≤ tagsThatFit h

/-- **Parsing stays in the block**, whatever it holds and whatever fails on the way. -/
theorem parsesInside (env : Env) (h : Jbd2Handle) (tid blocknr : ℤ) (buf : Block) (w : World)
    (hbs : 1024 ≤ h.jhBlocksize) : ParsesInside env h tid blocknr buf w where
  countTags := logs_countTags (turnOk_inside tagLimit_le_blocksize)
  csumVerify := logs_csumVerify (turnOk_inside le_rfl) (fun _ _ => trivial) w
  replayDescrBlock := logs_replayDescrBlock (turnOk_inside tagLimit_le_blocksize)
    (fun _ _ => trivial) (fun _ _ _ => trivial) tid w
  scanRevokeEntries := logs_scanRevokeEntries hbs w
  countTags_length := length_le_tagsThatFit paced_countTags tagLimit_le_blocksize
  csumVerify_length := length_le_tagsThatFit (paced_csumVerify w) le_rfl
  replayDescrBlock_length := length_le_tagsThatFit (paced_replayDescrBlock w) tagLimit_le_blocksize

/-- A journal with checksums of version 3 and the seed 0. -/
def csumJournal : Jbd2Handle :=
  { smallJournal 1 with jhSb := putBe32 (putBe32 (smallJournal 1).jhSb 4 4) 0x28 0x10 }

/-- A block full of tags of version 3. -/
theorem parsesInside_fullBlock : ParsesInside ⟨fun _ => headerBlock 1 1, fun _ _ _ => 0, noEntries⟩
    csumJournal 1 1 (headerBlock 1 1) (World.init fun _ _ => 0) :=
  parsesInside _ _ _ _ _ _ (by decide)

/-! ### The records are the reads -/

/-- The two blocks agree on the bytes of the field. -/
def Agree (buf buf' : Block) : Access → Prop
  | .field off len => ∀ i < len, buf (off + i) = buf' (off + i)
  | _ => True

section
variable {buf' : Block} {t : ℕ}

theorem follows_field {α : Type} {f : FieldKind α} {off : ℕ} :
    Follows (Agree buf buf') (field f buf off) (field f buf' off) := by
  intro hlogs
  have hagree := hlogs (.field off f.width) List.mem_cons_self
  unfold field
  rw [f.get_eq buf buf' off hagree]

theorem follows_tagBlocknr :
    Follows (Agree buf buf') (tagBlocknr h buf t) (tagBlocknr h buf' t) :=
  follows_bind follows_field (follows_ite (fun _ => follows_bind follows_field (follows_refl _))
    fun _ => follows_refl _)

theorem follows_testFlag (flag : ℕ) :
    Follows (Agree buf buf') (testFlag h buf t flag) (testFlag h buf' t flag) :=
  follows_bind (follows_ite (fun _ => follows_field) fun _ => follows_field) (follows_refl _)

theorem follows_tagSize : Follows (Agree buf buf') (tagSize h buf t) (tagSize h buf' t) :=
  follows_bind (follows_testFlag _) (follows_refl _)

theorem follows_tagCsum : Follows (Agree buf buf') (tagCsum h buf t) (tagCsum h buf' t) :=
  follows_ite (fun _ => follows_field) fun _ => follows_field

theorem follows_countTagsLoop : ∀ fuel tagp nr,
    Follows (Agree buf buf') (countTagsLoop h buf fuel tagp nr)
      (countTagsLoop h buf' fuel tagp nr) := by
  intro fuel
  induction fuel with
  | zero => intro tagp nr; exact follows_refl _
  | succ fuel ih =>
    intro tagp nr
    rw [countTagsLoop, countTagsLoop]
    refine follows_ite (fun _ => ?_) fun _ => follows_refl _
    refine follows_bind (follows_refl _) (follows_bind (follows_testFlag _) ?_)
    refine follows_ite (fun _ => follows_refl _) fun _ => follows_bind follows_tagSize ?_
    exact ih _ _

theorem follows_csumVerifyLoop {blocknr : ℤ} : ∀ fuel tagp nr w,
    Follows (Agree buf buf') (csumVerifyLoop env h blocknr buf fuel tagp nr w)
      (csumVerifyLoop env h blocknr buf' fuel tagp nr w) := by
  intro fuel
  induction fuel with
  | zero => intro tagp nr w; exact follows_refl _
  | succ fuel ih =>
    intro tagp nr w
    rw [csumVerifyLoop, csumVerifyLoop]
    refine follows_ite (fun _ => ?_) fun _ => follows_refl _
    refine follows_bind (follows_refl _) (follows_bind follows_tagBlocknr ?_)
    refine follows_bind (follows_refl _) (follows_ite (fun _ => follows_refl _) fun _ => ?_)
    refine follows_bind follows_tagCsum (follows_ite (fun _ => follows_refl _) fun _ => ?_)
    refine follows_bind (follows_testFlag _) (follows_ite (fun _ => follows_refl _) fun _ => ?_)
    exact follows_bind follows_tagSize (ih _ _ _)

theorem follows_copyTag {blocknr fsBlocknr nr : ℤ} {w : World} :
    Follows (Agree buf buf') (copyTag env h tid blocknr buf fsBlocknr t nr w)
      (copyTag env h tid blocknr buf' fsBlocknr t nr w) := by
  refine follows_bind (follows_refl _) (follows_ite (fun _ => follows_refl _) fun _ => ?_)
  refine follows_ite (fun _ => follows_refl _) fun _ => ?_
  exact follows_bind (follows_testFlag _) (follows_refl _)

theorem follows_replayDescrBlockLoop {blocknr : ℤ} : ∀ fuel tagp nr w,
    Follows (Agree buf buf') (replayDescrBlockLoop env h tid blocknr buf fuel tagp nr w)
      (replayDescrBlockLoop env h tid blocknr buf' fuel tagp nr w) := by
  intro fuel
  induction fuel with
  | zero => intro tagp nr w; exact follows_refl _
  | succ fuel ih =>
    intro tagp nr w
    rw [replayDescrBlockLoop, replayDescrBlockLoop]
    refine follows_ite (fun _ => ?_) fun _ => follows_refl _
    refine follows_bind (follows_refl _) (follows_bind follows_tagBlocknr ?_)
    refine follows_ite (fun _ => follows_bind follows_tagSize (ih _ _ _)) fun _ => ?_
    refine follows_bind follows_copyTag (follows_ite (fun _ => follows_refl _) fun _ => ?_)
    refine follows_bind (follows_testFlag _) (follows_ite (fun _ => follows_refl _) fun _ => ?_)
    exact follows_bind follows_tagSize (ih _ _ _)

theorem follows_scanRevokeEntriesLoop {count : ℤ} : ∀ fuel bufp w,
    Follows (Agree buf buf') (scanRevokeEntriesLoop env h tid buf count fuel bufp w)
      (scanRevokeEntriesLoop env h tid buf' count fuel bufp w) := by
  intro fuel
  induction fuel with
  | zero => intro bufp w; exact follows_refl _
  | succ fuel ih =>
    intro bufp w
    rw [scanRevokeEntriesLoop, scanRevokeEntriesLoop]
    refine follows_ite (fun _ => follows_bind (follows_ite (fun _ => follows_field) fun _ =>
      follows_field) ?_) fun _ => follows_refl _
    rcases jbd2RevokeEntryGet env w (revokeEntryBlocknr h buf bufp).val with ⟨_ | _ | re, w'⟩
    · exact follows_refl _
    · exact follows_refl _
    · exact ih _ _

theorem follows_scanRevokeEntries {w : World} :
    Follows (Agree buf buf') (scanRevokeEntries env h tid buf w)
      (scanRevokeEntries env h tid buf' w) :=
  follows_bind follows_field (follows_ite (fun _ => follows_refl _) fun _ =>
    follows_scanRevokeEntriesLoop _ _ _)

/-- What lies in the block is the same in two blocks of the journal with the same bytes. -/
theorem logs_agree {α : Type} {x : Traced Access α} (hx : Logs (Inside size) x)
    (hbuf : ∀ i : ℕ, (i : ℤ) < size → buf i = buf' i) : Logs (Agree buf buf') x := by
  intro e he
  have hin := hx e he
  cases e with
  | field off len =>
    change (off : ℤ) + len ≤ size at hin
    exact fun i hi => hbuf (off + i) (by push_cast; omega)
  | _ => trivial

/-- **What the loops do is up to the bytes of the block**: what they record is what they read. -/
theorem parses_block {blocknr : ℤ} {w : World} (hbs : 1024 ≤ h.jhBlocksize)
    (hbuf : ∀ i : ℕ, (i : ℤ) < h.jhBlocksize → buf i = buf' i) :
    countTags h buf' = countTags h buf ∧
      csumVerify env h blocknr buf' w = csumVerify env h blocknr buf w ∧
      replayDescrBlock env h tid blocknr buf' w = replayDescrBlock env h tid blocknr buf w ∧
      scanRevokeEntries env h tid buf' w = scanRevokeEntries env h tid buf w := by
  obtain ⟨hcount, hcsum, hreplay, hscan, -⟩ := parsesInside env h tid blocknr buf w hbs
  exact ⟨follows_countTagsLoop _ _ _ (logs_agree hcount hbuf),
    follows_ite (fun _ => follows_refl _) (fun _ => follows_csumVerifyLoop _ _ _ _)
      (logs_agree hcsum hbuf),
    follows_replayDescrBlockLoop _ _ _ _ (logs_agree hreplay hbuf),
    follows_scanRevokeEntries (logs_agree hscan hbuf)⟩

end

end

end Ext4Fsd.Journal.InBlock
