import Ext4Fsd.Journal.TagWalk
import Ext4Fsd.Journal.ScanResult

/-! # Where the data blocks are found

The loops over the tags read one data block for a tag. `Paced` describes what such a loop comes to,
whatever fails on the way and whatever the block holds: the tags are a least size apart, and the
data block of the `i`-th tag is asked for at the `i`-th turn.

The position of that block is the number of the descriptor block plus `i`, not wrapped. In the ring
it is the block `i` steps further exactly as long as the end of the log has not been passed
(`dataBlock_eq_ringAdd_iff`). -/

namespace Ext4Fsd.Journal.DataBlocks

open Ext4Fsd.Lib.CInt Ext4Fsd.Lib.Recording
open Ext4Fsd.Journal.Format Ext4Fsd.Journal.Tags Ext4Fsd.Journal.Recovery
open Ext4Fsd.Journal.Termination Ext4Fsd.Journal.Transactions Ext4Fsd.Journal.Contents
open Ext4Fsd.Journal.ScanResult
open Ext4Fsd.Journal.Parse Ext4Fsd.Journal.TagWalk

/-! ### The pace of a loop -/

section
variable {h : Jbd2Handle} {limit : ℤ} {tagp : ℕ} {nr : ℤ} {α β : Type} {x : Traced Access α}

/-- What a loop from the tag at `tagp` on comes to, the `nr`-th, in the room up to `limit`. -/
structure Paced (h : Jbd2Handle) (limit : ℤ) (tagp : ℕ) (nr : ℤ) (x : Traced Access α) : Prop where
  room : (view Access.tag? x).length * jbd2MinTagSize h ≤ (limit - tagp).toNat
  numbered : ∀ d ∈ view Access.data? x,
    ∃ i : ℕ, d.2.1 = nr + i ∧ (view Access.tag? x)[i]? = some d.1

/-- What such a loop still comes to once it has come to its first tag. -/
structure MidTurn (h : Jbd2Handle) (limit : ℤ) (tagp : ℕ) (nr : ℤ) (x : Traced Access α) :
    Prop where
  room : (view Access.tag? x).length * jbd2MinTagSize h + jbd2MinTagSize h ≤ (limit - tagp).toNat
  numbered : ∀ d ∈ view Access.data? x, (d.1 = tagp ∧ d.2.1 = nr) ∨
    ∃ i : ℕ, d.2.1 = nr + 1 + i ∧ (view Access.tag? x)[i]? = some d.1

/-- What a turn can record besides its tag: no data block but that of its tag. -/
def Own (tagp : ℕ) (nr : ℤ) : Access → Prop
  | .tag _ => False
  | .data off n _ => off = tagp ∧ n = nr
  | _ => True

theorem own_tags (hx : Logs (Own tagp nr) x) : view Access.tag? x = [] := by
  refine view_eq_nil fun e he => ?_
  have ho := hx e he
  cases e with
  | tag off => exact ho.elim
  | _ => rfl

theorem own_data (hx : Logs (Own tagp nr) x) {d : ℕ × ℤ × ℤ} (hd : d ∈ view Access.data? x) :
    d.1 = tagp ∧ d.2.1 = nr := by
  obtain ⟨e, he, hed⟩ := mem_view.mp hd
  have ho := hx e he
  cases e with
  | data off n b =>
    cases hed
    exact ho
  | _ => cases hed

theorem fieldsOk_own {t : ℕ} : FieldsOk h (Own tagp nr) t := fun _ _ _ _ => trivial

/-- A loop that comes to no tag. -/
theorem paced_of_nil (htags : view Access.tag? x = []) (hdata : view Access.data? x = []) :
    Paced h limit tagp nr x := by
  refine ⟨by simp [htags], fun d hd => ?_⟩
  rw [hdata] at hd
  cases hd

/-- The turn begins. -/
theorem paced_turn {f : Unit → Traced Access α} (hf : MidTurn h limit tagp nr (f ())) :
    Paced h limit tagp nr (emit (.tag tagp) >>= f) := by
  have htags : view Access.tag? (emit (.tag tagp) >>= f) = tagp :: view Access.tag? (f ()) := by
    rw [view_bind, view_emit]
    rfl
  have hdata : view Access.data? (emit (.tag tagp) >>= f) = view Access.data? (f ()) := by
    rw [view_bind, view_emit]
    rfl
  constructor
  · rw [htags, List.length_cons, Nat.succ_mul]
    exact hf.room
  · intro d hd
    rw [hdata] at hd
    rw [htags]
    rcases hf.numbered d hd with ⟨h1, h2⟩ | ⟨i, h1, h2⟩
    · exact ⟨0, by rw [h2, Nat.cast_zero, add_zero], by rw [h1]; rfl⟩
    · exact ⟨i + 1, by rw [h1]; push_cast; ring, h2⟩

theorem midTurn_bind {y : Traced Access β} {f : β → Traced Access α} (hy : Logs (Own tagp nr) y)
    (hf : MidTurn h limit tagp nr (f y.val)) : MidTurn h limit tagp nr (y >>= f) := by
  have htags : view Access.tag? (y >>= f) = view Access.tag? (f y.val) := by
    rw [view_bind, own_tags hy, List.nil_append]
  constructor
  · rw [htags]
    exact hf.room
  · intro d hd
    rw [view_bind, List.mem_append] at hd
    rw [htags]
    rcases hd with hd | hd
    · exact .inl (own_data hy hd)
    · exact hf.numbered d hd

theorem midTurn_ite {c : Prop} [Decidable c] {y : Traced Access α}
    (hx : c → MidTurn h limit tagp nr x) (hy : ¬ c → MidTurn h limit tagp nr y) :
    MidTurn h limit tagp nr (if c then x else y) := by
  split_ifs with h
  · exact hx h
  · exact hy h

/-- The turn ends the loop. -/
theorem midTurn_stop (hf : Fits h limit tagp) (a : α) :
    MidTurn h limit tagp nr (pure a : Traced Access α) := by
  constructor
  · rw [view_pure, List.length_nil]
    unfold Fits at hf
    omega
  · intro d hd
    cases hd

/-- The turn is followed by the others. -/
theorem midTurn_next {buf : Block} (hf : Fits h limit tagp)
    (hx : Paced h limit (tagp + jbd2TagSize h buf tagp) (nr + 1) x) :
    MidTurn h limit tagp nr x := by
  constructor
  · have hroom := hx.room
    have hsz := jbd2TagSize_ge h buf tagp
    unfold Fits at hf
    push_cast at hroom
    omega
  · intro d hd
    exact .inr (hx.numbered d hd)

end

section
variable {env : Env} {h : Jbd2Handle} {tid blocknr : ℤ} {buf : Block}

theorem paced_countTagsLoop : ∀ fuel (tagp : ℕ) nr nr', (tagLimit h - tagp).toNat ≤ fuel →
    Paced h (tagLimit h) tagp nr' (countTagsLoop h buf fuel tagp nr) := by
  intro fuel
  induction fuel with
  | zero =>
    intro tagp nr nr' hfuel
    rw [countTagsLoop]
    exact paced_of_nil (view_cut hfuel) (view_cut hfuel)
  | succ fuel ih =>
    intro tagp nr nr' hfuel
    rw [countTagsLoop]
    by_cases hf : Fits h (tagLimit h) tagp
    · rw [if_pos hf]
      refine paced_turn (midTurn_bind (logs_testFlag fieldsOk_own _) ?_)
      refine midTurn_ite (fun _ => midTurn_stop hf _) fun _ => ?_
      refine midTurn_bind (logs_tagSize fieldsOk_own) ?_
      rw [val_tagSize]
      exact midTurn_next hf (ih _ _ _ (room_next hf hfuel))
    · rw [if_neg hf]
      exact paced_of_nil rfl rfl

theorem paced_csumVerifyLoop : ∀ fuel (tagp : ℕ) nr w, (h.jhBlocksize - tagp).toNat ≤ fuel →
    Paced h h.jhBlocksize tagp nr (csumVerifyLoop env h blocknr buf fuel tagp nr w) := by
  intro fuel
  induction fuel with
  | zero =>
    intro tagp nr w hfuel
    rw [csumVerifyLoop]
    exact paced_of_nil (view_cut hfuel) (view_cut hfuel)
  | succ fuel ih =>
    intro tagp nr w hfuel
    rw [csumVerifyLoop]
    by_cases hf : Fits h h.jhBlocksize tagp
    · have hown : Own tagp nr (.data tagp nr (toI32 (blocknr + nr))) := ⟨rfl, rfl⟩
      rw [if_pos hf]
      refine paced_turn (midTurn_bind (logs_tagBlocknr fieldsOk_own) ?_)
      refine midTurn_bind (logs_emit hown) (midTurn_ite (fun _ => midTurn_stop hf _) fun _ => ?_)
      refine midTurn_bind (logs_tagCsum fieldsOk_own) ?_
      refine midTurn_ite (fun _ => midTurn_stop hf _) fun _ => ?_
      refine midTurn_bind (logs_testFlag fieldsOk_own _) ?_
      refine midTurn_ite (fun _ => midTurn_stop hf _) fun _ => ?_
      refine midTurn_bind (logs_tagSize fieldsOk_own) ?_
      rw [val_tagSize]
      exact midTurn_next hf (ih _ _ _ (room_next hf hfuel))
    · rw [if_neg hf]
      exact paced_of_nil rfl rfl

theorem own_copyTag (fsBlocknr : ℤ) (tagp : ℕ) (nr : ℤ) (w : World) :
    Logs (Own tagp nr) (copyTag env h tid blocknr buf fsBlocknr tagp nr w) := by
  have hown : Own tagp nr (.data tagp nr (toI32 (blocknr + nr))) := ⟨rfl, rfl⟩
  refine logs_bind (logs_emit hown) (logs_ite (fun _ => logs_pure _) fun _ => ?_)
  refine logs_ite (fun _ => logs_pure _) fun _ => logs_bind (logs_testFlag fieldsOk_own _) ?_
  exact logs_bind (logs_emit trivial) (logs_pure _)

theorem paced_replayDescrBlockLoop : ∀ fuel (tagp : ℕ) nr w, (tagLimit h - tagp).toNat ≤ fuel →
    Paced h (tagLimit h) tagp nr (replayDescrBlockLoop env h tid blocknr buf fuel tagp nr w) := by
  intro fuel
  induction fuel with
  | zero =>
    intro tagp nr w hfuel
    rw [replayDescrBlockLoop]
    exact paced_of_nil (view_cut hfuel) (view_cut hfuel)
  | succ fuel ih =>
    intro tagp nr w hfuel
    rw [replayDescrBlockLoop]
    by_cases hf : Fits h (tagLimit h) tagp
    · have hrest : ∀ w, MidTurn h (tagLimit h) tagp nr (tagSize h buf tagp >>= fun size =>
          replayDescrBlockLoop env h tid blocknr buf fuel (tagp + size) (nr + 1) w) := by
        intro w
        refine midTurn_bind (logs_tagSize fieldsOk_own) ?_
        rw [val_tagSize]
        exact midTurn_next hf (ih _ _ _ (room_next hf hfuel))
      rw [if_pos hf]
      refine paced_turn (midTurn_bind (logs_tagBlocknr fieldsOk_own) ?_)
      refine midTurn_ite (fun _ => hrest _) fun _ => midTurn_bind (own_copyTag _ _ _ _) ?_
      refine midTurn_ite (fun _ => midTurn_stop hf _) fun _ => ?_
      refine midTurn_bind (logs_testFlag fieldsOk_own _) ?_
      exact midTurn_ite (fun _ => midTurn_stop hf _) fun _ => hrest _
    · rw [if_neg hf]
      exact paced_of_nil rfl rfl

theorem paced_countTags : Paced h (tagLimit h) sizeofJournalHeader 1 (countTags h buf) :=
  paced_countTagsLoop _ _ _ _ (room_start tagLimit_le_blocksize)

theorem paced_csumVerify (w : World) :
    Paced h h.jhBlocksize sizeofJournalHeader 1 (csumVerify env h blocknr buf w) := by
  unfold csumVerify
  split_ifs
  · exact paced_of_nil rfl rfl
  · exact paced_csumVerifyLoop _ _ _ _ (room_start le_rfl)

theorem paced_replayDescrBlock (w : World) :
    Paced h (tagLimit h) sizeofJournalHeader 1 (replayDescrBlock env h tid blocknr buf w) :=
  paced_replayDescrBlockLoop _ _ _ _ (room_start tagLimit_le_blocksize)

end

/-! ### The block of the `i`-th tag -/

section
variable {h : Jbd2Handle} {α : Type} {x : Traced Access α}

/-- `b` is the log block that `x` pins for the `i`-th tag it comes to. -/
def PinnedFor (x : Traced Access α) (i : ℕ) (b : ℤ) : Prop :=
  ∃ off, (view Access.tag? x)[i - 1]? = some off ∧ (off, (i : ℤ), b) ∈ view Access.data? x

/-- A block that is pinned is pinned for one of the tags. -/
theorem exists_pinnedFor {limit : ℤ} {tagp : ℕ} (hx : Paced h limit tagp 1 x) {d : ℕ × ℤ × ℤ}
    (hd : d ∈ view Access.data? x) : ∃ i, 1 ≤ i ∧ PinnedFor x i d.2.2 := by
  obtain ⟨i, h1, h2⟩ := hx.numbered d hd
  refine ⟨i + 1, by omega, d.1, h2, ?_⟩
  have hnr : ((i + 1 : ℕ) : ℤ) = d.2.1 := by rw [h1]; push_cast; ring
  rw [hnr]
  exact hd

variable {env : Env} {tid d : ℤ} {buf : Block} {w : World}

/-- The replay of the descriptor block at `d`, or the run of the checksums over it, pins the log
block `b` for the `i`-th tag. -/
def DataBlock (env : Env) (h : Jbd2Handle) (tid d : ℤ) (buf : Block) (w : World) (i : ℕ) (b : ℤ) :
    Prop :=
  PinnedFor (replayDescrBlock env h tid d buf w) i b ∨ PinnedFor (csumVerify env h d buf w) i b

/-- Every data block is the one as many blocks behind `d` as its number says. -/
def Unwrapped (d : ℤ) : Access → Prop
  | .data _ nr b => b = toI32 (d + nr)
  | _ => True

theorem PinnedFor.unwrapped {i : ℕ} {b : ℤ} (hp : PinnedFor x i b) (hx : Logs (Unwrapped d) x) :
    b = toI32 (d + i) := by
  obtain ⟨off, -, hmem⟩ := hp
  obtain ⟨e, he, hed⟩ := mem_view.mp hmem
  have hu := hx e he
  cases e with
  | data off' nr b' =>
    cases hed
    exact hu
  | _ => cases hed

theorem DataBlock.unwrapped {i : ℕ} {b : ℤ} (hb : DataBlock env h tid d buf w i b) :
    b = toI32 (d + i) := by
  have hturn : ∀ limit, TurnOk h limit (Unwrapped d) := fun limit =>
    ⟨fun _ _ => trivial, fun _ _ _ _ _ _ => trivial⟩
  have hdata : DataOk (Unwrapped d) d := fun _ _ => rfl
  have hwrite : WriteOk (Unwrapped d) d := fun _ _ _ => trivial
  rcases hb with hb | hb
  · exact hb.unwrapped (logs_replayDescrBlock (hturn _) hdata hwrite tid w)
  · exact hb.unwrapped (logs_csumVerify (hturn _) hdata w)

/-- The block `i` behind `d` is the one `i` steps further in the ring as long as the end of the log
has not been passed. A ring of all block numbers has no end that could be passed. -/
theorem toI32_eq_ringAdd_iff (h0 : -2 ^ 31 ≤ h.jhStart) (h1 : h.jhEnd < 2 ^ 31) (hd : InRing h d)
    {i : ℕ} (hi : (i : ℤ) ≤ h.jhEnd - h.jhStart ∨ i ≤ 2 ^ 30) :
    toI32 (d + i) = ringAdd h d i ↔ d + i ≤ h.jhEnd ∨ h.jhEnd - h.jhStart + 1 = 2 ^ 32 := by
  by_cases hle : (i : ℤ) ≤ h.jhEnd - h.jhStart
  · rw [ringAdd_eq hd i (by omega)]
    unfold InRing at hd
    unfold toI32
    split_ifs <;> omega
  · -- More than one turn: the block behind the log is no block of the ring.
    have hring := ringAdd_mem hd i
    unfold InRing at hd hring
    unfold toI32
    omega

/-- **The `i`-th data block of the descriptor block at `d` is found `i` steps along the ring exactly
when the log does not end in between.** -/
theorem dataBlock_eq_ringAdd_iff (h0 : -2 ^ 31 ≤ h.jhStart) (h1 : h.jhEnd < 2 ^ 31)
    (hd : InRing h d) {i : ℕ} (hi : (i : ℤ) ≤ h.jhEnd - h.jhStart) {b : ℤ}
    (hb : DataBlock env h tid d buf w i b) :
    b = ringAdd h d i ↔ d + i ≤ h.jhEnd ∨ h.jhEnd - h.jhStart + 1 = 2 ^ 32 := by
  rw [hb.unwrapped]
  exact toI32_eq_ringAdd_iff h0 h1 hd (.inl hi)

/-! ### A descriptor block with one tag -/

/-- The block behind a descriptor block in the middle of the log. -/
theorem dataBlock_oneTag : (2 : ℤ) = ringAdd (smallJournal 1) 1 1 ↔
    (1 : ℤ) + (1 : ℕ) ≤ (smallJournal 1).jhEnd ∨
      (smallJournal 1).jhEnd - (smallJournal 1).jhStart + 1 = 2 ^ 32 := by
  have hpin : DataBlock ⟨oneTransaction, fun _ _ _ => 0, noEntries⟩ (smallJournal 1) 1 1
      (oneTransaction 1) (World.init fun _ _ => 0) 1 2 := by
    refine .inl ⟨12, ?_, ?_⟩ <;> decide +kernel
  have hring : InRing (smallJournal 1) 1 := by constructor <;> decide
  exact dataBlock_eq_ringAdd_iff (by decide) (by decide) hring (by decide) hpin

/-- With the descriptor block at the end of the log, a block behind the log is read. -/
theorem dataBlock_behind_log : ¬ ∀ (env : Env) (h : Jbd2Handle) (tid d : ℤ) (buf : Block)
    (w : World)
    (i : ℕ) (b : ℤ), -2 ^ 31 ≤ h.jhStart → h.jhEnd < 2 ^ 31 → InRing h d → 1 ≤ i →
    (i : ℤ) ≤ h.jhEnd - h.jhStart → DataBlock env h tid d buf w i b → b = ringAdd h d i := by
  intro hall
  have hpin : DataBlock ⟨oneTransaction, fun _ _ _ => 0, noEntries⟩ (smallJournal 1) 1 7
      (oneTransaction 1) (World.init fun _ _ => 0) 1 8 := by
    refine .inl ⟨12, ?_, ?_⟩ <;> decide +kernel
  have hring : InRing (smallJournal 1) 7 := by constructor <;> decide
  have hnext : ringAdd (smallJournal 1) 7 1 = 1 := by decide +kernel
  have heq := hall _ _ 1 7 _ _ 1 8 (by decide) (by decide) hring le_rfl (by decide) hpin
  rw [hnext] at heq
  exact absurd heq (by decide)

end

end Ext4Fsd.Journal.DataBlocks
