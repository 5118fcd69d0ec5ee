import Ext4Fsd.Journal.Parse
import Ext4Fsd.Journal.Turns

/-! # The tags of a descriptor block

`tagsFrom` lists the tags from one of them on, up to the first that is flagged last or to the end of
the room; `descrTags` are the tags of a descriptor block. The three loops over tags are described by
such lists: how many tags are counted (`countTags_eq`), which tags a checksum run comes to that
finds nothing wrong (`csumVerifyLoop_run`), which tags the replay comes to (`visitedFrom_eq_iff`).

What no loop can do, whatever the block holds, is in `logs_csumVerify` and its siblings: a turn only
reads fields within the least size of its tag. -/

namespace Ext4Fsd.Journal.TagWalk

open Ext4Fsd.Lib.CInt Ext4Fsd.Lib.Recording
open Ext4Fsd.Journal.Format Ext4Fsd.Journal.Tags Ext4Fsd.Journal.Recovery Ext4Fsd.Journal.Turns
open Ext4Fsd.Journal.Parse

/-! ### Lists of tags -/

section
variable (h : Jbd2Handle) (buf : Block) (limit : ℤ)

/-- A tag of the least size at `t` ends before the limit. -/
abbrev Fits (t : ℕ) : Prop := (t : ℤ) + jbd2MinTagSize h ≤ limit

/-- The tag at `t` is flagged last. -/
abbrev IsLast (t : ℕ) : Prop := jbd2TestFlag h buf t jbd2FlagLastTag = true

/-- The tags from the one at `tagp` on. -/
def tagsFrom : ℕ → ℕ → List ℕ
  | 0, _ => []
  | fuel + 1, tagp =>
    if Fits h limit tagp then
      if IsLast h buf tagp then [tagp]
      else tagp :: tagsFrom fuel (tagp + jbd2TagSize h buf tagp)
    else []

/-- Where the tags from the one at `tagp` on end. -/
def endFrom : ℕ → ℕ → ℕ
  | 0, tagp => tagp
  | fuel + 1, tagp =>
    if Fits h limit tagp then
      if IsLast h buf tagp then tagp + jbd2TagSize h buf tagp
      else endFrom fuel (tagp + jbd2TagSize h buf tagp)
    else tagp

/-- The tags the replay comes to when `rev` are revoked: behind those the flag is not looked at. -/
def visitedFrom (rev : ℕ → Bool) : ℕ → ℕ → List ℕ
  | 0, _ => []
  | fuel + 1, tagp =>
    if Fits h limit tagp then
      if rev tagp = false ∧ IsLast h buf tagp then [tagp]
      else tagp :: visitedFrom rev fuel (tagp + jbd2TagSize h buf tagp)
    else []

end

section
variable (h : Jbd2Handle) (buf : Block)

/-- **The tags of a descriptor block**: from the end of the header up to the first one that is
flagged last, or to the end of the room before the checksum tail. -/
def descrTags : List ℕ := tagsFrom h buf (tagLimit h) h.jhBlocksize.toNat sizeofJournalHeader

/-- The tags when the room is taken to be the whole block. -/
def blockTags : List ℕ := tagsFrom h buf h.jhBlocksize h.jhBlocksize.toNat sizeofJournalHeader

/-- Where the tags of a descriptor block end. -/
def descrEnd : ℕ := endFrom h buf (tagLimit h) h.jhBlocksize.toNat sizeofJournalHeader

end

section
variable {h : Jbd2Handle} {buf : Block} {limit : ℤ}

theorem tagsFrom_stop {fuel tagp : ℕ} (hf : ¬ Fits h limit tagp) :
    tagsFrom h buf limit fuel tagp = [] := by
  cases fuel with
  | zero => rfl
  | succ fuel => rw [tagsFrom, if_neg hf]

theorem tagsFrom_last {fuel tagp : ℕ} (hf : Fits h limit tagp) (hl : IsLast h buf tagp) :
    tagsFrom h buf limit (fuel + 1) tagp = [tagp] := by
  rw [tagsFrom, if_pos hf, if_pos hl]

theorem tagsFrom_next {fuel tagp : ℕ} (hf : Fits h limit tagp) (hl : ¬ IsLast h buf tagp) :
    tagsFrom h buf limit (fuel + 1) tagp =
      tagp :: tagsFrom h buf limit fuel (tagp + jbd2TagSize h buf tagp) := by
  rw [tagsFrom, if_pos hf, if_neg hl]

/-- A turn leaves less room, so that the turns granted suffice. -/
theorem room_next {fuel tagp : ℕ} (hf : Fits h limit tagp)
    (hfuel : (limit - tagp).toNat ≤ fuel + 1) :
    (limit - ((tagp + jbd2TagSize h buf tagp : ℕ) : ℤ)).toNat ≤ fuel := by
  have hmin := jbd2MinTagSize_ge h
  have hsz := jbd2TagSize_ge h buf tagp
  unfold Fits at hf
  push_cast
  omega

theorem not_fits_of_no_turn {tagp : ℕ} (hfuel : (limit - tagp).toNat ≤ 0) :
    ¬ Fits h limit tagp := by
  have hmin := jbd2MinTagSize_ge h
  unfold Fits
  omega

theorem tagLimit_le_blocksize : tagLimit h ≤ h.jhBlocksize := by
  unfold tagLimit
  split_ifs <;> omega

/-- The turns granted to the loops suffice. -/
theorem room_start (hlim : limit ≤ h.jhBlocksize) :
    (limit - (sizeofJournalHeader : ℕ)).toNat ≤ h.jhBlocksize.toNat := by
  unfold sizeofJournalHeader
  omega

/-- More room gives the same tags exactly when no further tag fits behind them. -/
theorem tagsFrom_eq_iff {limit' : ℤ} (hle : limit ≤ limit') : ∀ {fuel tagp : ℕ},
    (limit' - tagp).toNat ≤ fuel → (∀ t ∈ tagsFrom h buf limit fuel tagp, ¬ IsLast h buf t) →
    (tagsFrom h buf limit' fuel tagp = tagsFrom h buf limit fuel tagp ↔
      ¬ Fits h limit' (endFrom h buf limit fuel tagp)) := by
  intro fuel
  induction fuel with
  | zero =>
    intro tagp hfuel _
    exact ⟨fun _ => not_fits_of_no_turn hfuel, fun _ => rfl⟩
  | succ fuel ih =>
    intro tagp hfuel hno
    by_cases hf : Fits h limit tagp
    · have hf' : Fits h limit' tagp := le_trans hf hle
      have hl : ¬ IsLast h buf tagp := by
        intro hl
        exact hno tagp (by rw [tagsFrom_last hf hl]; exact List.mem_singleton_self _) hl
      rw [tagsFrom_next hf hl] at hno
      rw [tagsFrom_next hf hl, tagsFrom_next hf' hl, List.cons.injEq, endFrom, if_pos hf, if_neg hl,
        ← ih (room_next hf' hfuel) fun t ht => hno t (List.mem_cons_of_mem _ ht)]
      exact and_iff_right rfl
    · rw [tagsFrom_stop hf, endFrom, if_neg hf]
      constructor
      · intro hnil hf'
        by_cases hl : IsLast h buf tagp
        · rw [tagsFrom_last hf' hl] at hnil
          cases hnil
        · rw [tagsFrom_next hf' hl] at hnil
          cases hnil
      · exact tagsFrom_stop

/-- Less room gives the first of the tags. -/
theorem tagsFrom_prefix {limit' : ℤ} (hle : limit ≤ limit') : ∀ {fuel tagp : ℕ},
    tagsFrom h buf limit fuel tagp <+: tagsFrom h buf limit' fuel tagp := by
  intro fuel
  induction fuel with
  | zero => intro tagp; exact List.prefix_rfl
  | succ fuel ih =>
    intro tagp
    by_cases hf : Fits h limit tagp
    · have hf' : Fits h limit' tagp := le_trans hf hle
      by_cases hl : IsLast h buf tagp
      · rw [tagsFrom_last hf hl, tagsFrom_last hf' hl]
      · rw [tagsFrom_next hf hl, tagsFrom_next hf' hl]
        exact (List.prefix_cons_inj tagp).mpr ih
    · rw [tagsFrom_stop hf]
      exact List.nil_prefix

/-- Where nothing is revoked, the replay comes to the tags. -/
theorem visitedFrom_none {rev : ℕ → Bool} : ∀ {fuel tagp},
    (∀ t ∈ tagsFrom h buf limit fuel tagp, rev t = false) →
    visitedFrom h buf limit rev fuel tagp = tagsFrom h buf limit fuel tagp := by
  intro fuel
  induction fuel with
  | zero => intro tagp _; rfl
  | succ fuel ih =>
    intro tagp hrev
    rw [visitedFrom]
    by_cases hf : Fits h limit tagp
    · by_cases hl : IsLast h buf tagp
      · rw [tagsFrom_last hf hl] at hrev ⊢
        rw [if_pos hf, if_pos ⟨hrev tagp (List.mem_singleton_self _), hl⟩]
      · rw [tagsFrom_next hf hl] at hrev ⊢
        rw [if_pos hf, if_neg (fun hc => hl hc.2),
          ih fun t ht => hrev t (List.mem_cons_of_mem _ ht)]
    · rw [if_neg hf, tagsFrom_stop hf]

theorem visitedFrom_stop {rev : ℕ → Bool} {fuel tagp : ℕ} (hf : ¬ Fits h limit tagp) :
    visitedFrom h buf limit rev fuel tagp = [] := by
  cases fuel with
  | zero => rfl
  | succ fuel => rw [visitedFrom, if_neg hf]

/-- The replay comes to the tags exactly when it does not pass a last tag that is revoked. -/
theorem visitedFrom_eq_iff {rev : ℕ → Bool} : ∀ {fuel tagp : ℕ},
    (limit - tagp).toNat ≤ fuel →
    (visitedFrom h buf limit rev fuel tagp = tagsFrom h buf limit fuel tagp ↔
      ∀ t ∈ tagsFrom h buf limit fuel tagp, IsLast h buf t → rev t = true →
        ¬ Fits h limit (endFrom h buf limit fuel tagp)) := by
  intro fuel
  induction fuel with
  | zero => intro tagp _; exact ⟨fun _ t ht => (by cases ht), fun _ => rfl⟩
  | succ fuel ih =>
    intro tagp hfuel
    rw [visitedFrom, endFrom]
    by_cases hf : Fits h limit tagp
    · have hroom := @room_next h buf limit fuel tagp hf hfuel
      rw [if_pos hf, if_pos hf]
      by_cases hl : IsLast h buf tagp
      · rw [tagsFrom_last hf hl, if_pos hl, List.forall_mem_singleton]
        cases hr : rev tagp with
        | false =>
          rw [if_pos ⟨rfl, hl⟩]
          exact ⟨fun _ _ hc => (by cases hc), fun _ => rfl⟩
        | true =>
          rw [if_neg (fun hc => by cases hc.1), List.cons.injEq]
          constructor
          · rintro ⟨-, hnil⟩ - - hnext
            cases fuel with
            | zero => exact not_fits_of_no_turn hroom hnext
            | succ fuel =>
              rw [visitedFrom, if_pos hnext] at hnil
              split_ifs at hnil
          · intro hno
            exact ⟨rfl, visitedFrom_stop (hno hl rfl)⟩
      · rw [tagsFrom_next hf hl, if_neg (fun hc => hl hc.2), if_neg hl, List.cons.injEq, ih hroom,
          List.forall_mem_cons]
        exact ⟨fun hall => ⟨fun hc => absurd hc hl, hall.2⟩, fun hall => ⟨rfl, hall.2⟩⟩
    · rw [if_neg hf, tagsFrom_stop hf]
      exact ⟨fun _ t ht => (by cases ht), fun _ => rfl⟩

end

/-! ### What a turn can record -/

section
variable {h : Jbd2Handle} {buf : Block} {P : Access → Prop} {t : ℕ}

/-- `P` holds of every field within the least size of the tag at `t`. -/
def FieldsOk (h : Jbd2Handle) (P : Access → Prop) (t : ℕ) : Prop :=
  ∀ off len, t ≤ off → off + len ≤ t + jbd2MinTagSize h → P (.field off len)

theorem minTagSize_64bit (h64 : jbd2HasFeature64bit h.jhSb = true) : 12 ≤ jbd2MinTagSize h := by
  unfold jbd2MinTagSize
  rw [h64]
  split_ifs <;> simp_all

theorem minTagSize_csum3 (h3 : jbd2HasFeatureCsum3 h.jhSb = true) : jbd2MinTagSize h = 16 := by
  unfold jbd2MinTagSize
  rw [if_pos h3]

theorem logs_field {α : Type} {f : FieldKind α} {off : ℕ} (hP : P (.field off f.width)) :
    Logs P (field f buf off) := logs_bind (logs_emit hP) (logs_pure _)

theorem FieldsOk.logs_field {α : Type} {f : FieldKind α} {off : ℕ} (hP : FieldsOk h P t)
    (hle : t ≤ off) (hend : off + f.width ≤ t + jbd2MinTagSize h) : Logs P (field f buf off) :=
  TagWalk.logs_field (hP off f.width hle hend)

theorem logs_tagBlocknr (hP : FieldsOk h P t) : Logs P (tagBlocknr h buf t) := by
  have hmin := jbd2MinTagSize_ge h
  refine logs_bind (hP.logs_field le_rfl (by rw [cpu32Field_width]; omega))
    (logs_ite (fun h64 => ?_)
    fun _ => logs_pure _)
  have h12 := minTagSize_64bit h64
  exact logs_bind (hP.logs_field (by omega) (by rw [cpu32Field_width]; omega)) (logs_pure _)

theorem logs_flags (hP : FieldsOk h P t) : Logs P (flags h buf t) := by
  have hmin := jbd2MinTagSize_ge h
  exact logs_ite (fun _ => hP.logs_field (by omega) (by rw [be32Field_width]; omega)) fun _ =>
    hP.logs_field (by omega) (by rw [be16Field_width]; omega)

theorem logs_testFlag (hP : FieldsOk h P t) (flag : ℕ) : Logs P (testFlag h buf t flag) :=
  logs_bind (logs_flags hP) (logs_pure _)

theorem logs_tagSize (hP : FieldsOk h P t) : Logs P (tagSize h buf t) :=
  logs_bind (logs_testFlag hP _) (logs_pure _)

theorem logs_tagCsum (hP : FieldsOk h P t) : Logs P (tagCsum h buf t) := by
  have hmin := jbd2MinTagSize_ge h
  refine logs_ite (fun h3 => ?_) fun _ =>
    hP.logs_field (by omega) (by rw [cpu16Field_width]; omega)
  have h16 := minTagSize_csum3 h3
  exact hP.logs_field (by omega) (by rw [cpu32Field_width]; omega)

/-- What a turn of a loop over the room up to `limit` can record of its tag. -/
structure TurnOk (h : Jbd2Handle) (limit : ℤ) (P : Access → Prop) : Prop where
  tag : ∀ t, Fits h limit t → P (.tag t)
  fields : ∀ t, Fits h limit t → FieldsOk h P t

variable {limit : ℤ}

/-- With turns enough for the room, the loop is not cut off. -/
theorem logs_cut {α : Type} {tagp : ℕ} {a : α} (hfuel : (limit - tagp).toNat ≤ 0) :
    Logs P (cut (Fits h limit tagp) a) :=
  logs_ite (fun hf => absurd hf (not_fits_of_no_turn hfuel)) fun _ => logs_pure a

theorem logs_countTagsLoop (hP : TurnOk h (tagLimit h) P) : ∀ fuel (tagp : ℕ) nr,
    (tagLimit h - tagp).toNat ≤ fuel → Logs P (countTagsLoop h buf fuel tagp nr) := by
  intro fuel
  induction fuel with
  | zero => intro tagp nr hfuel; rw [countTagsLoop]; exact logs_cut hfuel
  | succ fuel ih =>
    intro tagp nr hfuel
    rw [countTagsLoop]
    refine logs_ite (fun hf => ?_) fun _ => logs_pure _
    have hfields := hP.fields tagp hf
    refine logs_bind (logs_emit (hP.tag _ hf)) (logs_bind (logs_testFlag hfields _) ?_)
    refine logs_ite (fun _ => logs_pure _) fun _ => logs_bind (logs_tagSize hfields) ?_
    rw [val_tagSize]
    exact ih _ _ (room_next hf hfuel)

theorem logs_countTags (hP : TurnOk h (tagLimit h) P) : Logs P (countTags h buf) :=
  logs_countTagsLoop hP _ _ _ (room_start tagLimit_le_blocksize)

variable {env : Env} {blocknr : ℤ}

/-- Every data block is the one as many blocks behind the descriptor block as its tag's number. -/
def DataOk (P : Access → Prop) (blocknr : ℤ) : Prop :=
  ∀ t nr, P (.data t nr (toI32 (blocknr + nr)))

theorem logs_csumVerifyLoop (hP : TurnOk h h.jhBlocksize P) (hdata : DataOk P blocknr) :
    ∀ fuel (tagp : ℕ) nr w, (h.jhBlocksize - tagp).toNat ≤ fuel →
      Logs P (csumVerifyLoop env h blocknr buf fuel tagp nr w) := by
  intro fuel
  induction fuel with
  | zero => intro tagp nr w hfuel; rw [csumVerifyLoop]; exact logs_cut hfuel
  | succ fuel ih =>
    intro tagp nr w hfuel
    rw [csumVerifyLoop]
    refine logs_ite (fun hf => ?_) fun _ => logs_pure _
    have hfields := hP.fields tagp hf
    refine logs_bind (logs_emit (hP.tag _ hf)) (logs_bind (logs_tagBlocknr hfields) ?_)
    refine logs_bind (logs_emit (hdata _ _)) (logs_ite (fun _ => logs_pure _) fun _ => ?_)
    refine logs_bind (logs_tagCsum hfields) (logs_ite (fun _ => logs_pure _) fun _ => ?_)
    refine logs_bind (logs_testFlag hfields _) (logs_ite (fun _ => logs_pure _) fun _ => ?_)
    refine logs_bind (logs_tagSize hfields) ?_
    rw [val_tagSize]
    exact ih _ _ _ (room_next hf hfuel)

theorem logs_csumVerify (hP : TurnOk h h.jhBlocksize P) (hdata : DataOk P blocknr) (w : World) :
    Logs P (csumVerify env h blocknr buf w) :=
  logs_ite (fun _ => logs_pure _) fun _ =>
    logs_csumVerifyLoop hP hdata _ _ _ _ (room_start le_rfl)

/-- Every block is written from the data block of its tag. -/
def WriteOk (P : Access → Prop) (blocknr : ℤ) : Prop :=
  ∀ fsBlocknr nr escape, P (.write fsBlocknr (toI32 (blocknr + nr)) escape)

theorem logs_copyTag (hP : FieldsOk h P t) (hdata : DataOk P blocknr) (hwrite : WriteOk P blocknr)
    (tid fsBlocknr nr : ℤ) (w : World) :
    Logs P (copyTag env h tid blocknr buf fsBlocknr t nr w) := by
  refine logs_bind (logs_emit (hdata _ _)) (logs_ite (fun _ => logs_pure _) fun _ => ?_)
  refine logs_ite (fun _ => logs_pure _) fun _ => logs_bind (logs_testFlag hP _) ?_
  exact logs_bind (logs_emit (hwrite _ _ _)) (logs_pure _)

theorem logs_replayDescrBlockLoop (hP : TurnOk h (tagLimit h) P) (hdata : DataOk P blocknr)
    (hwrite : WriteOk P blocknr) (tid : ℤ) : ∀ fuel (tagp : ℕ) nr w,
    (tagLimit h - tagp).toNat ≤ fuel →
      Logs P (replayDescrBlockLoop env h tid blocknr buf fuel tagp nr w) := by
  intro fuel
  induction fuel with
  | zero => intro tagp nr w hfuel; rw [replayDescrBlockLoop]; exact logs_cut hfuel
  | succ fuel ih =>
    intro tagp nr w hfuel
    rw [replayDescrBlockLoop]
    refine logs_ite (fun hf => ?_) fun _ => logs_pure _
    have hfields := hP.fields tagp hf
    have hrest : ∀ nr w, Logs P (replayDescrBlockLoop env h tid blocknr buf fuel
        (tagp + (tagSize h buf tagp).val) nr w) := by
      intro nr w
      rw [val_tagSize]
      exact ih _ _ _ (room_next hf hfuel)
    refine logs_bind (logs_emit (hP.tag _ hf)) (logs_bind (logs_tagBlocknr hfields) ?_)
    refine logs_ite (fun _ => logs_bind (logs_tagSize hfields) (hrest _ _)) fun _ => ?_
    refine logs_bind (logs_copyTag hfields hdata hwrite _ _ _ _) ?_
    refine logs_ite (fun _ => logs_pure _) fun _ => logs_bind (logs_testFlag hfields _) ?_
    exact logs_ite (fun _ => logs_pure _) fun _ => logs_bind (logs_tagSize hfields) (hrest _ _)

theorem logs_replayDescrBlock (hP : TurnOk h (tagLimit h) P) (hdata : DataOk P blocknr)
    (hwrite : WriteOk P blocknr) (tid : ℤ) (w : World) :
    Logs P (replayDescrBlock env h tid blocknr buf w) :=
  logs_replayDescrBlockLoop hP hdata hwrite tid _ _ _ _ (room_start tagLimit_le_blocksize)

end

/-! ### What the loops come to -/

section
variable {h : Jbd2Handle} {buf : Block} {γ : Type} {f : Access → Option γ} {t : ℕ}

/-- A view that leaves out the fields. -/
def NoFields (f : Access → Option γ) : Prop := ∀ off len, f (.field off len) = none

theorem noFields_tag : NoFields Access.tag? := fun _ _ => rfl

theorem noFields_write : NoFields Access.write? := fun _ _ => rfl

theorem view_tagBlocknr (hf : NoFields f) : view f (tagBlocknr h buf t) = [] :=
  view_eq_nil (logs_tagBlocknr fun off len _ _ => hf off len)

theorem view_testFlag (hf : NoFields f) (flag : ℕ) : view f (testFlag h buf t flag) = [] :=
  view_eq_nil (logs_testFlag (fun off len _ _ => hf off len) flag)

theorem view_tagSize (hf : NoFields f) : view f (tagSize h buf t) = [] :=
  view_eq_nil (logs_tagSize fun off len _ _ => hf off len)

theorem view_tagCsum (hf : NoFields f) : view f (tagCsum h buf t) = [] :=
  view_eq_nil (logs_tagCsum fun off len _ _ => hf off len)

theorem view_cut {α : Type} {tagp : ℕ} {limit : ℤ} {a : α} (hfuel : (limit - tagp).toNat ≤ 0) :
    view f (cut (Fits h limit tagp) a) = [] := view_eq_nil (logs_cut hfuel)

theorem countTagsLoop_tags : ∀ fuel (tagp : ℕ) nr, (tagLimit h - tagp).toNat ≤ fuel →
    view Access.tag? (countTagsLoop h buf fuel tagp nr) =
      tagsFrom h buf (tagLimit h) fuel tagp := by
  intro fuel
  induction fuel with
  | zero => intro tagp nr hfuel; rw [countTagsLoop]; exact view_cut hfuel
  | succ fuel ih =>
    intro tagp nr hfuel
    rw [countTagsLoop, view_ite, tagsFrom]
    split_ifs with hf hl
    · rw [view_bind, view_bind, view_emit, view_testFlag noFields_tag, view_ite, val_testFlag,
        if_pos hl]
      rfl
    · rw [view_bind, view_bind, view_emit, view_testFlag noFields_tag, view_ite, val_testFlag,
        if_neg hl, view_bind, view_tagSize noFields_tag, val_tagSize, ih _ _ (room_next hf hfuel)]
      rfl
    · rfl

theorem countTags_tags : view Access.tag? (countTags h buf) = descrTags h buf :=
  countTagsLoop_tags _ _ _ (room_start tagLimit_le_blocksize)

theorem countTagsLoop_eq : ∀ fuel tagp nr, jbd2CountTagsLoop h buf fuel tagp nr =
    nr + (tagsFrom h buf (tagLimit h) fuel tagp).countP fun t =>
    !jbd2TestFlag h buf t jbd2FlagLastTag := by
  intro fuel
  induction fuel with
  | zero => intro tagp nr; rfl
  | succ fuel ih =>
    intro tagp nr
    rw [jbd2CountTagsLoop]
    by_cases hf : Fits h (tagLimit h) tagp
    · rw [if_pos hf]
      by_cases hl : IsLast h buf tagp
      · rw [if_pos hl, tagsFrom_last hf hl]
        simp [hl]
      · rw [if_neg hl, tagsFrom_next hf hl, ih]
        simp only [Bool.not_eq_true] at hl
        rw [List.countP_cons_of_pos (by simp [hl])]
        omega
    · rw [if_neg hf, tagsFrom_stop hf]
      rfl

/-- **The tags are counted but for the one flagged last.** -/
theorem countTags_eq : jbd2CountTags h buf =
    (descrTags h buf).countP fun t => !jbd2TestFlag h buf t jbd2FlagLastTag := by
  unfold jbd2CountTags descrTags
  rw [countTagsLoop_eq, Nat.zero_add]

variable {env : Env}

/-- The `nr`-th tag, at `t`, is found to carry the checksum of its data block. -/
def CsumMatches (env : Env) (h : Jbd2Handle) (blocknr : ℤ) (buf : Block) (p : ℕ × ℕ) : Prop :=
  calculatedCsum env h (toI32 (blocknr + p.2)) = jbd2TagCsum h buf p.1

/-- Every tag from the one at `tagp` on does. -/
def AllMatch (env : Env) (h : Jbd2Handle) (blocknr : ℤ) (buf : Block) (fuel tagp nr : ℕ) : Prop :=
  ∀ p ∈ (tagsFrom h buf h.jhBlocksize fuel tagp).zipIdx nr, CsumMatches env h blocknr buf p

/-- Where the reads succeed, the checksum run finds nothing wrong exactly when every tag of the
block matches, and then it comes to all of them. -/
theorem csumVerifyLoop_run (blocknr : ℤ) : ∀ (fuel tagp nr : ℕ) w,
    (h.jhBlocksize - tagp).toNat ≤ fuel → ReadsFrom env.oracle w →
    ((csumVerifyLoop env h blocknr buf fuel tagp nr w).val.1 = .success ↔
      AllMatch env h blocknr buf fuel tagp nr) ∧
    ((csumVerifyLoop env h blocknr buf fuel tagp nr w).val.1 = .success →
      view Access.tag? (csumVerifyLoop env h blocknr buf fuel tagp nr w) =
        tagsFrom h buf h.jhBlocksize fuel tagp) := by
  intro fuel
  induction fuel with
  | zero =>
    intro tagp nr w hfuel _
    rw [csumVerifyLoop, val_cut]
    exact ⟨⟨fun _ p hp => absurd hp (by simp [tagsFrom]), fun _ => rfl⟩, fun _ => view_cut hfuel⟩
  | succ fuel ih =>
    intro tagp nr w hfuel hr
    unfold AllMatch
    rw [csumVerifyLoop]
    by_cases hf : Fits h h.jhBlocksize tagp
    · have hread := ccPinRead_fst hr (toI32 (blocknr + nr))
      obtain ⟨ih1, ih2⟩ := ih (tagp + jbd2TagSize h buf tagp) (nr + 1)
        (ccPinRead env w (toI32 (blocknr + nr))).2 (room_next hf hfuel) (ccPinRead_readsFrom hr _)
      have hview : view Access.tag? (tagBlocknr h buf tagp) = [] := view_tagBlocknr noFields_tag
      rw [if_pos hf]
      dsimp only
      rw [hread, val_bind, val_bind, val_bind, view_bind, view_bind, view_bind, hview]
      simp only [Bool.not_true, Bool.false_eq_true, if_false, view_emit]
      rw [val_bind, view_bind, view_tagCsum noFields_tag, val_tagCsum]
      by_cases hm : calculatedCsum env h (toI32 (blocknr + nr)) = jbd2TagCsum h buf tagp
      · rw [if_neg (not_not.mpr hm), val_bind, view_bind, val_testFlag, view_testFlag noFields_tag]
        by_cases hl : IsLast h buf tagp
        · rw [if_pos hl, tagsFrom_last hf hl, val_pure]
          refine ⟨⟨fun _ p hp => ?_, fun _ => rfl⟩, fun _ => rfl⟩
          rw [List.zipIdx_singleton, List.mem_singleton] at hp
          rw [hp]
          exact hm
        · have hcast : (nr : ℤ) + 1 = (nr + 1 : ℕ) := by push_cast; rfl
          rw [if_neg hl, tagsFrom_next hf hl, val_bind, view_bind, val_tagSize,
            view_tagSize noFields_tag, hcast, ih1, List.zipIdx_cons, List.forall_mem_cons]
          refine ⟨(and_iff_right hm).symm, fun hok => ?_⟩
          rw [ih2 (ih1.mpr hok)]
          rfl
      · rw [if_pos hm, val_pure]
        refine ⟨⟨fun hok => (by cases hok), fun hall => absurd (hall (tagp, nr) ?_) hm⟩,
          fun hok => ?_⟩
        · by_cases hl : IsLast h buf tagp
          · rw [tagsFrom_last hf hl]
            exact List.mem_singleton_self _
          · rw [tagsFrom_next hf hl, List.zipIdx_cons]
            exact List.mem_cons_self
        · cases hok
    · rw [if_neg hf, tagsFrom_stop hf]
      exact ⟨⟨fun _ p hp => absurd hp (by simp), fun _ => rfl⟩, fun _ => rfl⟩

end

end Ext4Fsd.Journal.TagWalk
