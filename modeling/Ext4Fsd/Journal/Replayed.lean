import Ext4Fsd.Journal.TagWalk
import Ext4Fsd.Lib.Writes

/-! # What the replay of a descriptor block writes

While nothing fails, `jbd2_replay_descr_block` copies one data block for every tag it comes to that
no entry of the revoke table suppresses (`replayDescrBlock_run`). The table is only looked at: an
entry rests in it with a count of zero, and is put back as it was (`revokeCheck_resting`). -/

namespace Ext4Fsd.Journal.Replayed

open Ext4Fsd.Lib.CInt Ext4Fsd.Lib.Recording Ext4Fsd.Lib.Writes
open Ext4Fsd.Journal.Format Ext4Fsd.Journal.Tags Ext4Fsd.Journal.Recovery Ext4Fsd.Journal.Effects
open Ext4Fsd.Journal.Turns Ext4Fsd.Journal.Parse Ext4Fsd.Journal.TagWalk

/-! ### The revoke check -/

section
variable {w : World} {tid b : ℤ}

/-- Nobody holds an entry: the count of every entry is zero, as between any two operations. -/
def Resting (w : World) : Prop := ∀ b re, w.revokeTable b = some re → re.thRefcount = 0

theorem revokeCheck_some {re : Jbd2RevokeEntry} (hb : w.revokeTable b = some re) :
    (revokeCheck w b).1 = some { re with thRefcount := re.thRefcount + 1 } := by
  unfold revokeCheck jbd2RevokeEntryFind
  rw [hb]
  rfl

/-- The verdict on a tag is that of the entry of its block. -/
theorem revoked_revokeCheck :
    revoked tid (revokeCheck w b).1 = revoked tid (w.revokeTable b) := by
  cases hb : w.revokeTable b with
  | none => rw [revokeCheck_empty hb]
  | some re => rw [revokeCheck_some hb]; rfl

/-- What a check leaves of the entry of its block: itself, if nobody held it. -/
def putBack (re : Jbd2RevokeEntry) : Option Jbd2RevokeEntry :=
  if re.thRefcount = 0 then some re else none

theorem revokeCheck_table : (revokeCheck w b).2.revokeTable =
    Function.update w.revokeTable b ((w.revokeTable b).bind putBack) := by
  cases hb : w.revokeTable b with
  | none =>
    rw [revokeCheck_empty hb, Option.bind_none, ← hb, Function.update_eq_self]
  | some re =>
    have hcount : re.thRefcount + 1 - 1 = re.thRefcount := add_sub_cancel_right _ _
    have hself : { re with thRefcount := re.thRefcount + 1 - 1 } = re := by rw [hcount]
    have hfind : jbd2RevokeEntryFind w b = (some { re with thRefcount := re.thRefcount + 1 },
        setRevoke w b (some { re with thRefcount := re.thRefcount + 1 })) := by
      unfold jbd2RevokeEntryFind
      rw [hb]
    have hat : (setRevoke w b (some { re with thRefcount := re.thRefcount + 1 })).revokeTable b =
        some { re with thRefcount := re.thRefcount + 1 } := Function.update_self _ _ _
    rw [Option.bind_some]
    unfold revokeCheck putBack
    rw [hfind]
    dsimp only
    rw [if_pos Option.isSome_some]
    unfold jbd2RevokeEntryPut
    rw [hat]
    dsimp only
    rw [hcount]
    split_ifs
    · exact Function.update_idem _ _ _
    · exact Function.update_idem _ _ _

/-- What is not suppressed stays so. -/
theorem not_revoked_revokeCheck {b' : ℤ} (h : revoked tid (w.revokeTable b') = false) :
    revoked tid ((revokeCheck w b).2.revokeTable b') = false := by
  rw [revokeCheck_table]
  by_cases hb : b' = b
  · rw [hb] at h
    rw [hb, Function.update_self]
    cases hre : w.revokeTable b with
    | none => rfl
    | some re =>
      rw [hre] at h
      rw [Option.bind_some]
      unfold putBack
      split_ifs
      · exact h
      · rfl
  · rw [Function.update_of_ne hb]
    exact h

/-- A resting table is not changed by a check. -/
theorem revokeCheck_resting (hrest : Resting w) :
    (revokeCheck w b).2.revokeTable = w.revokeTable := by
  have hback : (w.revokeTable b).bind putBack = w.revokeTable b := by
    cases hb : w.revokeTable b with
    | none => rfl
    | some re => exact if_pos (hrest b re hb)
  rw [revokeCheck_table, hback, Function.update_eq_self]

end

/-! ### A run while nothing fails -/

section
variable (env : Env) (h : Jbd2Handle) (blocknr : ℤ) (buf : Block)

/-- The copy for the tag `p.1`, the `p.2`-th: where to, where from, and whether the magic number is
put back. -/
def tagWrite (p : ℕ × ℕ) : ℤ × ℤ × Bool :=
  (jbd2TagBlocknr h buf p.1, toI32 (blocknr + p.2), jbd2TestFlag h buf p.1 jbd2FlagEscape)

/-- The copies for the tags that are not revoked. -/
def tagWrites (rev : ℕ → Bool) (ts : List ℕ) (nr : ℕ) : List (ℤ × ℤ × Bool) :=
  ((ts.zipIdx nr).filter fun p => !rev p.1).map (tagWrite h blocknr buf)

/-- What a copy stores in the client. -/
def stored (c : ℤ × ℤ × Bool) : ℤ × Block := (c.1, unescape c.2.2 (env.log c.2.1))

end

section
variable {env : Env} {h : Jbd2Handle} {tid blocknr : ℤ} {buf : Block}

theorem tagWrites_cons (rev : ℕ → Bool) (t : ℕ) (ts : List ℕ) (nr : ℕ) :
    tagWrites h blocknr buf rev (t :: ts) nr =
      (if rev t then [] else [tagWrite h blocknr buf (t, nr)]) ++
        tagWrites h blocknr buf rev ts (nr + 1) := by
  unfold tagWrites
  rw [List.zipIdx_cons]
  cases hr : rev t <;> simp [hr]

/-- A copy while nothing fails. -/
theorem copyTag_run {w : World} (hr : ReadsFrom env.oracle w) (hw : WritesFrom env.oracle w)
    {tagp nr : ℕ} {x : Traced Access (NtStatus × World)}
    (hx : copyTag env h tid blocknr buf (jbd2TagBlocknr h buf tagp) tagp nr w = x) :
    x.val.1 = .success ∧ view Access.tag? x = [] ∧
      view Access.write? x = [tagWrite h blocknr buf (tagp, nr)] ∧
      x.val.2.revokeTable = w.revokeTable ∧
      x.val.2.client = applyWrites [stored env (tagWrite h blocknr buf (tagp, nr))] w.client := by
  have hread : (ccPinRead env w (toI32 (blocknr + nr))).1 = true := ccPinRead_fst hr _
  have hwrite : (ccPreparePinWrite env (ccPinRead env w (toI32 (blocknr + nr))).2).1 = true :=
    hw _ le_rfl
  unfold copyTag at hx
  dsimp only at hx
  rw [hread, hwrite] at hx
  simp only [Bool.not_true, Bool.false_eq_true, if_false] at hx
  rw [← hx]
  simp only [val_bind, view_bind, view_emit, val_testFlag, view_testFlag noFields_tag,
    view_testFlag noFields_write, val_pure, view_pure]
  refine ⟨trivial, rfl, rfl, rfl, ?_⟩
  have hclient : (ccPreparePinWrite env (ccPinRead env w (toI32 (blocknr + nr))).2).2.client =
      w.client := rfl
  rw [applyWrites_cons, applyWrites_nil, hclient]
  unfold stored tagWrite
  dsimp only

/-- A turn at a tag that is revoked. -/
theorem replayDescrBlockLoop_revoked {fuel tagp nr : ℕ} {w : World}
    {x y : Traced Access (NtStatus × World)} (hf : Fits h (tagLimit h) tagp)
    (hv : revoked tid (revokeCheck w (jbd2TagBlocknr h buf tagp)).1 = true)
    (hy : replayDescrBlockLoop env h tid blocknr buf fuel (tagp + jbd2TagSize h buf tagp)
      (nr + 1 : ℕ) (revokeCheck w (jbd2TagBlocknr h buf tagp)).2 = y)
    (hx : replayDescrBlockLoop env h tid blocknr buf (fuel + 1) tagp nr w = x) :
    view Access.tag? x = tagp :: view Access.tag? y ∧
      view Access.write? x = view Access.write? y ∧ x.val = y.val := by
  have hcast : (nr : ℤ) + 1 = (nr + 1 : ℕ) := by push_cast; rfl
  rw [replayDescrBlockLoop, if_pos hf] at hx
  rw [← hx]
  simp only [val_bind, view_bind, val_tagBlocknr, view_tagBlocknr noFields_tag,
    view_tagBlocknr noFields_write, view_emit, hv, if_true, val_tagSize, view_tagSize noFields_tag,
    view_tagSize noFields_write, hcast, hy, List.nil_append, and_true]
  exact ⟨rfl, rfl⟩

/-- A turn whose copy succeeds. -/
theorem replayDescrBlockLoop_copied {fuel tagp nr : ℕ} {w : World}
    {x c y : Traced Access (NtStatus × World)} (hf : Fits h (tagLimit h) tagp)
    (hv : revoked tid (revokeCheck w (jbd2TagBlocknr h buf tagp)).1 = false)
    (hc : copyTag env h tid blocknr buf (jbd2TagBlocknr h buf tagp) tagp nr
      (revokeCheck w (jbd2TagBlocknr h buf tagp)).2 = c) (hok : c.val.1 = .success)
    (hy : replayDescrBlockLoop env h tid blocknr buf fuel (tagp + jbd2TagSize h buf tagp)
      (nr + 1 : ℕ) c.val.2 = y)
    (hx : replayDescrBlockLoop env h tid blocknr buf (fuel + 1) tagp nr w = x) :
    view Access.tag? x = tagp :: (view Access.tag? c ++
        if IsLast h buf tagp then [] else view Access.tag? y) ∧
      view Access.write? x =
        view Access.write? c ++ (if IsLast h buf tagp then [] else view Access.write? y) ∧
      x.val = if IsLast h buf tagp then c.val else y.val := by
  have hcast : (nr : ℤ) + 1 = (nr + 1 : ℕ) := by push_cast; rfl
  have hns : (!c.val.1.ntSuccess) = false := by rw [hok]; rfl
  rw [replayDescrBlockLoop, if_pos hf] at hx
  rw [← hx]
  simp only [val_bind, view_bind, val_tagBlocknr, view_tagBlocknr noFields_tag,
    view_tagBlocknr noFields_write, view_emit, hv, Bool.false_eq_true, if_false]
  rw [hc, hns]
  simp only [Bool.false_eq_true, if_false, val_bind, view_bind, val_testFlag]
  rw [view_testFlag noFields_tag, view_testFlag noFields_write]
  by_cases hl : IsLast h buf tagp
  · simp only [if_pos hl, view_pure, val_pure, and_true]
    exact ⟨rfl, rfl⟩
  · simp only [if_neg hl, view_bind, val_bind, view_tagSize noFields_tag,
      view_tagSize noFields_write, val_tagSize, hcast, hy, and_true]
    exact ⟨rfl, rfl⟩

/-- **A run while nothing fails.** `I` is what is known of the table all along, `rev` the verdicts
it gives on the tags the loop comes to. -/
theorem replayDescrBlockLoop_run {I : World → Prop} {rev : ℕ → Bool}
    (htable : ∀ w w', w'.revokeTable = w.revokeTable → I w → I w')
    (hcheck : ∀ w t, I w → I (revokeCheck w (jbd2TagBlocknr h buf t)).2) :
    ∀ (fuel tagp nr : ℕ) w {x}, (tagLimit h - tagp).toNat ≤ fuel →
      ReadsFrom env.oracle w → WritesFrom env.oracle w → I w →
      (∀ t ∈ visitedFrom h buf (tagLimit h) rev fuel tagp, ∀ w, I w →
        revoked tid (w.revokeTable (jbd2TagBlocknr h buf t)) = rev t) →
      replayDescrBlockLoop env h tid blocknr buf fuel tagp nr w = x →
      view Access.tag? x = visitedFrom h buf (tagLimit h) rev fuel tagp ∧
      view Access.write? x =
        tagWrites h blocknr buf rev (visitedFrom h buf (tagLimit h) rev fuel tagp) nr ∧
      x.val.2.client = applyWrites
        ((tagWrites h blocknr buf rev (visitedFrom h buf (tagLimit h) rev fuel tagp) nr).map
          (stored env)) w.client := by
  intro fuel
  induction fuel with
  | zero =>
    intro tagp nr w x hfuel _ _ _ _ hx
    rw [replayDescrBlockLoop] at hx
    rw [← hx, view_cut hfuel, view_cut hfuel, val_cut]
    exact ⟨rfl, rfl, rfl⟩
  | succ fuel ih =>
    intro tagp nr w x hfuel hr hw hI hrev hx
    by_cases hf : Fits h (tagLimit h) tagp
    · have hmem : tagp ∈ visitedFrom h buf (tagLimit h) rev (fuel + 1) tagp := by
        rw [visitedFrom, if_pos hf]
        split_ifs
        · exact List.mem_singleton_self _
        · exact List.mem_cons_self
      have hI1 := hcheck w tagp hI
      have heff :=
        revokeCheck_effect (E := fun _ => True) (c := False) w (jbd2TagBlocknr h buf tagp)
      have hclient := heff.client not_false
      have hr1 := hr.mono heff.pinReads
      have hw1 := hw.mono heff.pinWrites
      have hv : revoked tid (revokeCheck w (jbd2TagBlocknr h buf tagp)).1 = rev tagp :=
        revoked_revokeCheck.trans (hrev tagp hmem w hI)
      cases hrt : rev tagp with
      | true =>
        have hvis : visitedFrom h buf (tagLimit h) rev (fuel + 1) tagp = tagp ::
            visitedFrom h buf (tagLimit h) rev fuel (tagp + jbd2TagSize h buf tagp) := by
          rw [visitedFrom, if_pos hf, if_neg (by simp [hrt])]
        rw [hvis] at hrev ⊢
        obtain ⟨h1, h2, h3⟩ := replayDescrBlockLoop_revoked hf (hv.trans hrt) rfl hx
        obtain ⟨ih1, ih2, ih3⟩ := ih (tagp + jbd2TagSize h buf tagp) (nr + 1) _
          (room_next hf hfuel) hr1 hw1 hI1 (fun t ht => hrev t (List.mem_cons_of_mem _ ht)) rfl
        rw [hclient] at ih3
        rw [h1, h2, h3, ih1, ih2, ih3, tagWrites_cons, hrt, if_pos rfl, List.nil_append]
        exact ⟨rfl, rfl, rfl⟩
      | false =>
        obtain ⟨hc1, hc2, hc3, hc4, hc5⟩ :=
          @copyTag_run env h tid blocknr buf _ hr1 hw1 tagp nr _ rfl
        obtain ⟨h1, h2, h3⟩ := replayDescrBlockLoop_copied hf (hv.trans hrt) rfl hc1 rfl hx
        rw [hclient] at hc5
        rw [h1, h2, h3, hc2, hc3]
        by_cases hl : IsLast h buf tagp
        · have hvis : visitedFrom h buf (tagLimit h) rev (fuel + 1) tagp = [tagp] := by
            rw [visitedFrom, if_pos hf, if_pos ⟨hrt, hl⟩]
          rw [hvis, if_pos hl, if_pos hl, if_pos hl, tagWrites_cons, hrt]
          exact ⟨rfl, rfl, hc5⟩
        · have hvis : visitedFrom h buf (tagLimit h) rev (fuel + 1) tagp = tagp ::
              visitedFrom h buf (tagLimit h) rev fuel (tagp + jbd2TagSize h buf tagp) := by
            rw [visitedFrom, if_pos hf, if_neg (fun hcc => hl hcc.2)]
          have heff2 := replayTag_effect env h tid blocknr buf tagp nr
            (revokeCheck w (jbd2TagBlocknr h buf tagp)).2
          rw [← val_copyTag] at heff2
          obtain ⟨ih1, ih2, ih3⟩ := ih (tagp + jbd2TagSize h buf tagp) (nr + 1) _
            (room_next hf hfuel) (hr1.mono heff2.pinReads) (hw1.mono heff2.pinWrites)
            (htable _ _ hc4 hI1)
            (fun t ht => hrev t (by rw [hvis]; exact List.mem_cons_of_mem _ ht)) rfl
          rw [hvis, if_neg hl, if_neg hl, if_neg hl, tagWrites_cons, hrt, ih1, ih2, ih3, hc5,
            List.map_append, applyWrites_append]
          exact ⟨rfl, rfl, rfl⟩
    · rw [replayDescrBlockLoop, if_neg hf] at hx
      rw [← hx, visitedFrom, if_neg hf]
      exact ⟨rfl, rfl, rfl⟩

end

end Ext4Fsd.Journal.Replayed
