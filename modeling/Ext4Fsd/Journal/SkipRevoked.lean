import Ext4Fsd.Journal.Readers

/-! # Revoked tags are skipped

What the replay of a descriptor block should write: for every tag of the block, in order, that no
entry of the revoke table from its transaction on suppresses, one copy of its data block
(`keptWrites`).

The code comes to that under three conditions (`skipsRevoked_iff`). A tag flagged last that is
revoked is passed before the flag is looked at. The comparison of tids finds no tid to be before
another one, so that only an entry of the same transaction suppresses. Data blocks are not looked
for around the end of the log. -/

namespace Ext4Fsd.Journal.SkipRevoked

open Ext4Fsd.Lib.CInt Ext4Fsd.Lib.Recording Ext4Fsd.Lib.Writes
open Ext4Fsd.Journal.Format Ext4Fsd.Journal.Tags Ext4Fsd.Journal.Recovery Ext4Fsd.Journal.Turns
open Ext4Fsd.Journal.Transactions (ringAdd)
open Ext4Fsd.Journal.ScanResult (InRing)
open Ext4Fsd.Journal.Termination Ext4Fsd.Journal.Contents
open Ext4Fsd.Journal.Parse Ext4Fsd.Journal.TagWalk Ext4Fsd.Journal.DataBlocks
open Ext4Fsd.Journal.InBlock Ext4Fsd.Journal.Replayed

/-! ### What should be written -/

section
variable (env : Env) (h : Jbd2Handle) (tid d : ℤ) (buf : Block) (w : World)

/-- The entry is of the transaction `tid` or of a later one. -/
def suppresses (tid : ℤ) (entry : Option Jbd2RevokeEntry) : Bool :=
  entry.any fun re => decide (0 ≤ toI32 (re.reTid - tid))

/-- The revoke entry for the block of the tag at `t`. -/
def entryOf (t : ℕ) : Option Jbd2RevokeEntry := w.revokeTable (jbd2TagBlocknr h buf t)

/-- The copy that is due for the tag `p.1`, the `p.2`-th. -/
def dueWrite (p : ℕ × ℕ) : ℤ × ℤ × Bool :=
  (jbd2TagBlocknr h buf p.1, ringAdd h d p.2, jbd2TestFlag h buf p.1 jbd2FlagEscape)

/-- **The copies that are due**: one for every tag that is not suppressed. -/
def keptWrites : List (ℤ × ℤ × Bool) :=
  (((descrTags h buf).zipIdx 1).filter fun p => !suppresses tid (entryOf h buf w p.1)).map
    (dueWrite h d buf)

/-- **The replay of the descriptor block at `d` skips the revoked tags and changes nothing
else.** -/
structure SkipsRevoked : Prop where
  tags : view Access.tag? (replayDescrBlock env h tid d buf w) = descrTags h buf
  writes : view Access.write? (replayDescrBlock env h tid d buf w) = keptWrites h tid d buf w
  client : (jbd2ReplayDescrBlock env h tid d buf w).2.client =
    applyWrites ((keptWrites h tid d buf w).map (stored env)) w.client

/-- When it does. -/
structure SkipsWhen : Prop where
  /-- Behind a last tag that is revoked there is no room for a tag. -/
  last : ∀ t ∈ descrTags h buf, IsLast h buf t → revoked tid (entryOf h buf w t) = true →
    ¬ Fits h (tagLimit h) (descrEnd h buf)
  /-- No entry for a tag is of a later transaction. -/
  tids : ∀ t ∈ descrTags h buf, ∀ re, entryOf h buf w t = some re → 0 ≤ toI32 (re.reTid - tid) →
    toU32 (re.reTid - tid) = 0
  /-- The log does not end before the data block of a tag that is not suppressed. -/
  placed : ∀ p ∈ (descrTags h buf).zipIdx 1, suppresses tid (entryOf h buf w p.1) = false →
    d + p.2 ≤ h.jhEnd ∨ h.jhEnd - h.jhStart + 1 = 2 ^ 32

end

/-! ### Two filters of one list -/

/-- If all that `q` keeps is kept by `p`, the images agree exactly when `p` keeps no more and the
two maps agree on what is kept. -/
theorem map_filter_eq_iff {α β : Type} {p q : α → Bool} {f g : α → β} : ∀ {l : List α},
    (∀ a ∈ l, q a = true → p a = true) →
    ((l.filter p).map f = (l.filter q).map g ↔
      (∀ a ∈ l, p a = true → q a = true) ∧ ∀ a ∈ l, q a = true → f a = g a) := by
  intro l
  induction l with
  | nil => intro _; simp
  | cons a l ih =>
    intro hqp
    have hl : ∀ a ∈ l, q a = true → p a = true := fun b hb => hqp b (List.mem_cons_of_mem _ hb)
    rw [List.forall_mem_cons, List.forall_mem_cons]
    by_cases hq : q a = true
    · have hp := hqp a List.mem_cons_self hq
      rw [List.filter_cons_of_pos hp, List.filter_cons_of_pos hq, List.map_cons, List.map_cons,
        List.cons.injEq, ih hl]
      constructor
      · rintro ⟨h1, h2, h3⟩
        exact ⟨⟨fun _ => hq, h2⟩, fun _ => h1, h3⟩
      · rintro ⟨⟨-, h2⟩, h1, h3⟩
        exact ⟨h1 hq, h2, h3⟩
    · rw [List.filter_cons_of_neg hq]
      by_cases hp : p a = true
      · rw [List.filter_cons_of_pos hp, List.map_cons]
        constructor
        · intro heq
          -- The longer list cannot be the image of the shorter one.
          have hlen := congrArg List.length heq
          have hle : l.countP q ≤ l.countP p := List.countP_mono_left hl
          rw [List.length_cons, List.length_map, List.length_map, ← List.countP_eq_length_filter,
            ← List.countP_eq_length_filter] at hlen
          omega
        · rintro ⟨⟨hpq, -⟩, -⟩
          exact absurd (hpq hp) hq
      · rw [List.filter_cons_of_neg hp, ih hl]
        constructor
        · rintro ⟨h1, h2⟩
          exact ⟨⟨fun hc => absurd hc hp, h1⟩, fun hc => absurd hc hq, h2⟩
        · rintro ⟨⟨-, h1⟩, -, h2⟩
          exact ⟨h1, h2⟩

/-! ### The replay while nothing fails -/

section
variable {env : Env} {h : Jbd2Handle} {tid d : ℤ} {buf : Block} {w : World}

/-- The verdict of the code on the tag at `t`. -/
def verdict (h : Jbd2Handle) (tid : ℤ) (buf : Block) (w : World) (t : ℕ) : Bool :=
  revoked tid (entryOf h buf w t)

/-- The code only suppresses for an entry of the same transaction. -/
theorem revoked_iff {entry : Option Jbd2RevokeEntry} :
    revoked tid entry = true ↔ ∃ re, entry = some re ∧ toU32 (re.reTid - tid) = 0 := by
  have hcmp : ∀ a : ℤ, jbd2TidCmp tid a ≤ 0 ↔ toU32 (a - tid) = 0 := by
    intro a
    rw [← not_lt, ← gt_iff_lt, jbd2TidCmp_pos_iff, not_not]
    unfold toU32
    omega
  cases entry with
  | none => simp [revoked]
  | some re =>
    simp only [revoked, Option.any_some, decide_eq_true_eq, hcmp, Option.some.injEq,
      exists_eq_left']

theorem suppresses_iff {entry : Option Jbd2RevokeEntry} :
    suppresses tid entry = true ↔ ∃ re, entry = some re ∧ 0 ≤ toI32 (re.reTid - tid) := by
  cases entry with
  | none => simp [suppresses]
  | some re => simp [suppresses]

theorem suppresses_of_revoked {entry : Option Jbd2RevokeEntry} (hr : revoked tid entry = true) :
    suppresses tid entry = true := by
  obtain ⟨re, he, h0⟩ := revoked_iff.mp hr
  refine suppresses_iff.mpr ⟨re, he, ?_⟩
  unfold toU32 at h0
  unfold toI32
  omega

/-- The tags the replay comes to, and what it writes. -/
theorem replayDescrBlock_run (hrest : Resting w) (hr : ReadsFrom env.oracle w)
    (hw : WritesFrom env.oracle w) {visits : List ℕ}
    (hv : visitedFrom h buf (tagLimit h) (verdict h tid buf w) h.jhBlocksize.toNat
      sizeofJournalHeader = visits) :
    view Access.tag? (replayDescrBlock env h tid d buf w) = visits ∧
    view Access.write? (replayDescrBlock env h tid d buf w) =
      tagWrites h d buf (verdict h tid buf w) visits 1 ∧
    (jbd2ReplayDescrBlock env h tid d buf w).2.client = applyWrites
      ((tagWrites h d buf (verdict h tid buf w) visits 1).map (stored env)) w.client := by
  have htable : ∀ w' w'' : World, w''.revokeTable = w'.revokeTable →
      w'.revokeTable = w.revokeTable → w''.revokeTable = w.revokeTable :=
    fun _ _ h1 h2 => h1.trans h2
  have hcheck : ∀ (w' : World) (t : ℕ), w'.revokeTable = w.revokeTable →
      (revokeCheck w' (jbd2TagBlocknr h buf t)).2.revokeTable = w.revokeTable := by
    intro w' t hw'
    have hrest' : Resting w' := fun b re hb => hrest b re (by rw [← hw']; exact hb)
    rw [revokeCheck_resting hrest', hw']
  rw [← val_replayDescrBlock, ← hv]
  exact @replayDescrBlockLoop_run env h tid d buf (fun w' => w'.revokeTable = w.revokeTable)
    (verdict h tid buf w) htable hcheck h.jhBlocksize.toNat sizeofJournalHeader 1 w _
    (room_start tagLimit_le_blocksize) hr hw rfl
    (fun t _ w' hw' => by rw [hw']; rfl) rfl

/-- A block has far fewer tags than the log has block numbers. -/
theorem zipIdx_le (hbs : h.jhBlocksize < 2 ^ 31) {p : ℕ × ℕ} (hp : p ∈ (descrTags h buf).zipIdx 1) :
    p.2 ≤ 2 ^ 30 := by
  have hlen : (descrTags h buf).length ≤ tagsThatFit h := by
    rw [← countTags_tags]
    exact length_le_tagsThatFit paced_countTags tagLimit_le_blocksize
  have hfit : tagsThatFit h ≤ (h.jhBlocksize.toNat - sizeofJournalHeader) / 8 :=
    Nat.div_le_div_left (jbd2MinTagSize_ge h) (by decide)
  have hidx := List.snd_lt_of_mem_zipIdx hp
  omega

/-- The copies are the due ones exactly when the verdicts are right and the data blocks in place. -/
theorem tagWrites_eq_iff (h0 : -2 ^ 31 ≤ h.jhStart) (h1 : h.jhEnd < 2 ^ 31)
    (hbs : h.jhBlocksize < 2 ^ 31) (hd : InRing h d) :
    tagWrites h d buf (verdict h tid buf w) (descrTags h buf) 1 = keptWrites h tid d buf w ↔
      (∀ t ∈ descrTags h buf, ∀ re, entryOf h buf w t = some re → 0 ≤ toI32 (re.reTid - tid) →
        toU32 (re.reTid - tid) = 0) ∧
      ∀ p ∈ (descrTags h buf).zipIdx 1, suppresses tid (entryOf h buf w p.1) = false →
        d + p.2 ≤ h.jhEnd ∨ h.jhEnd - h.jhStart + 1 = 2 ^ 32 := by
  have hsub : ∀ p ∈ (descrTags h buf).zipIdx 1, (!suppresses tid (entryOf h buf w p.1)) = true →
      (!verdict h tid buf w p.1) = true := by
    intro p _ hs
    rw [Bool.not_eq_true'] at hs ⊢
    by_contra hr
    rw [suppresses_of_revoked (Bool.not_eq_false _ ▸ hr)] at hs
    cases hs
  unfold tagWrites keptWrites
  rw [map_filter_eq_iff hsub]
  refine and_congr ?_ (forall₂_congr fun p hp => ?_)
  · constructor
    · intro hall t ht re he hpos
      rw [← List.zipIdx_map_fst 1 (descrTags h buf)] at ht
      obtain ⟨p, hp, rfl⟩ := List.mem_map.mp ht
      by_contra hne
      have hno : verdict h tid buf w p.1 = false := by
        by_contra hr
        obtain ⟨re', he', h0'⟩ := revoked_iff.mp (Bool.not_eq_false _ ▸ hr)
        rw [he] at he'
        cases he'
        exact hne h0'
      have hs := hall p hp (by rw [hno]; rfl)
      rw [suppresses_iff.mpr ⟨re, he, hpos⟩] at hs
      cases hs
    · intro hall p hp hno
      have ht : p.1 ∈ descrTags h buf := List.fst_mem_of_mem_zipIdx hp
      rw [Bool.not_eq_true'] at hno ⊢
      by_contra hs
      obtain ⟨re, he, hpos⟩ := suppresses_iff.mp (Bool.not_eq_false _ ▸ hs)
      rw [verdict, revoked_iff.mpr ⟨re, he, hall _ ht re he hpos⟩] at hno
      cases hno
  · rw [Bool.not_eq_true']
    refine forall_congr' fun _ => ?_
    unfold tagWrite dueWrite
    rw [Prod.mk.injEq, Prod.mk.injEq, ← toI32_eq_ringAdd_iff h0 h1 hd (.inr (zipIdx_le hbs hp))]
    exact ⟨fun hc => hc.2.1, fun hc => ⟨rfl, hc, rfl⟩⟩

/-- **When the replay of a descriptor block skips the revoked tags and changes nothing else.** -/
theorem skipsRevoked_iff (h0 : -2 ^ 31 ≤ h.jhStart) (h1 : h.jhEnd < 2 ^ 31)
    (hbs : h.jhBlocksize < 2 ^ 31) (hd : InRing h d) (hrest : Resting w)
    (hr : ReadsFrom env.oracle w) (hw : WritesFrom env.oracle w) :
    SkipsRevoked env h tid d buf w ↔ SkipsWhen h tid d buf w := by
  have hlast : visitedFrom h buf (tagLimit h) (verdict h tid buf w) h.jhBlocksize.toNat
      sizeofJournalHeader = descrTags h buf ↔ _ :=
    visitedFrom_eq_iff (room_start tagLimit_le_blocksize)
  have hwrites := @tagWrites_eq_iff h tid d buf w h0 h1 hbs hd
  constructor
  · rintro ⟨htags, hkept, -⟩
    obtain ⟨hv, hws, -⟩ := @replayDescrBlock_run env h tid d buf w hrest hr hw _ rfl
    have hvis := hv.symm.trans htags
    rw [hvis, hkept] at hws
    obtain ⟨htids, hplaced⟩ := hwrites.mp hws.symm
    exact ⟨hlast.mp hvis, htids, hplaced⟩
  · rintro ⟨hl, htids, hplaced⟩
    obtain ⟨hv, hws, hc⟩ := @replayDescrBlock_run env h tid d buf w hrest hr hw _ (hlast.mpr hl)
    have hkept := hwrites.mpr ⟨htids, hplaced⟩
    rw [hkept] at hc
    exact ⟨hv, hws.trans hkept, hc⟩

end

/-! ### Two descriptor blocks -/

/-- Block 5 is revoked by transaction 1. -/
def blockRevoked : World :=
  { World.init fun _ _ => 0 with
    revokeTable := fun b => if b = 5 then some ⟨0, false, 1⟩ else none }

theorem resting_blockRevoked : Resting blockRevoked := by
  intro b re hb
  dsimp only [blockRevoked] at hb
  split_ifs at hb
  cases hb
  rfl

/-- A descriptor block with a tag for block 5 and a last tag for block 6. -/
def twoTags : Block :=
  putBe32 (putBe32 (putBe32 (putBe32 (headerBlock 1 1) 12 5) 16 2) 20 6) 24 0xa

/-- The first of two tags is skipped. -/
theorem skipsRevoked_firstTag :
    SkipsRevoked ⟨oneTransaction, fun _ _ _ => 0, noEntries⟩ (smallJournal 1) 1 1 twoTags
      blockRevoked := by
  have htags : descrTags (smallJournal 1) twoTags = [12, 20] := by decide +kernel
  have hfirst : entryOf (smallJournal 1) twoTags blockRevoked 12 = some ⟨0, false, 1⟩ := by
    decide +kernel
  have hsecond : entryOf (smallJournal 1) twoTags blockRevoked 20 = none := by decide +kernel
  have hlast : ¬ IsLast (smallJournal 1) twoTags 12 := by decide +kernel
  have hring : InRing (smallJournal 1) 1 := by constructor <;> decide
  refine (skipsRevoked_iff (by decide) (by decide) (by decide) hring resting_blockRevoked
    (fun _ _ => rfl) (fun _ _ => rfl)).mpr ⟨?_, ?_, ?_⟩
  · rw [htags]
    intro t ht hl hr
    simp only [List.mem_cons, List.not_mem_nil, or_false] at ht
    rcases ht with rfl | rfl
    · exact absurd hl hlast
    · rw [hsecond] at hr
      cases hr
  · rw [htags]
    intro t ht re he _
    simp only [List.mem_cons, List.not_mem_nil, or_false] at ht
    rcases ht with rfl | rfl
    · rw [hfirst] at he
      cases he
      rfl
    · rw [hsecond] at he
      cases he
  · rw [htags]
    intro p hp _
    simp only [List.zipIdx_cons, List.zipIdx_nil, List.mem_cons, List.not_mem_nil, or_false] at hp
    rcases hp with rfl | rfl <;> exact .inl (by decide)

/-- Behind a last tag that is revoked, bytes are taken for tags. -/
theorem lastTag_revoked : ¬ ∀ (env : Env) (h : Jbd2Handle) (tid d : ℤ) (buf : Block) (w : World),
    -2 ^ 31 ≤ h.jhStart → h.jhEnd < 2 ^ 31 → h.jhBlocksize < 2 ^ 31 → InRing h d → Resting w →
    ReadsFrom env.oracle w → WritesFrom env.oracle w → SkipsRevoked env h tid d buf w := by
  intro hall
  have hring : InRing (smallJournal 1) 1 := by constructor <;> decide
  have hskip := hall ⟨oneTransaction, fun _ _ _ => 0, noEntries⟩ (smallJournal 1) 1 1
    (oneTransaction 1) blockRevoked (by decide) (by decide) (by decide) hring resting_blockRevoked
    (fun _ _ => rfl) (fun _ _ => rfl)
  have hmore : view Access.tag? (replayDescrBlock ⟨oneTransaction, fun _ _ _ => 0, noEntries⟩
      (smallJournal 1) 1 1 (oneTransaction 1) blockRevoked) ≠
      descrTags (smallJournal 1) (oneTransaction 1) := by decide +kernel
  exact hmore hskip.tags

end Ext4Fsd.Journal.SkipRevoked
