import Ext4Fsd.Journal.SkipRevoked

/-! # What is recorded of a revoke block

The entries of a revoke block lie between its header of 16 bytes and the byte its count names.
`jbd2_scan_revoke_entries` takes them to start right behind the common header of 12 bytes: the first
word it takes for an entry is the count itself, and wide entries are read half an entry too early.
What is not in the table yet makes `jbd2_revoke_entry_get` store through a null pointer.

`recordsExactly_iff` says when the table comes out right all the same. -/

namespace Ext4Fsd.Journal.RevokeBlocks

open Ext4Fsd.Lib.CInt
open Ext4Fsd.Journal.Format Ext4Fsd.Journal.Tags Ext4Fsd.Journal.Recovery
open Ext4Fsd.Journal.Transactions (revokedBlocks)
open Ext4Fsd.Journal.Termination Ext4Fsd.Journal.InBlock Ext4Fsd.Journal.Replayed

section
variable (env : Env) (h : Jbd2Handle) (tid : ℤ) (buf : Block) (w : World)

/-! ### What should be recorded -/

/-- The tid the table holds for the block `b`. -/
def tidOf (b : ℤ) : Option ℤ := (w.revokeTable b).map Jbd2RevokeEntry.reTid

/-- The blocks of a revoke block, as the 64-bit words the table is keyed by. -/
def dueKeys : List ℤ := (revokedBlocks h buf).map toI64

/-- The room for entries: the block without its checksum tail. -/
def entryRoom : ℤ := h.jhBlocksize - if jbd2HasCsumV2or3 h.jhSb then sizeofJournalBlockTail else 0

/-- The count of the block is more than there is room for. -/
def Overfull : Prop := (be32 buf 12 : ℤ) > entryRoom h

/-- **The revoke block is recorded exactly**: an overfull one is refused, and of any other one the
blocks are recorded with the tid `tid`, and nothing else changes. -/
structure RecordsExactly : Prop where
  overfull : Overfull h buf → jbd2ScanRevokeEntries env h tid buf w = (some .diskCorruptError, w)
  success : ¬ Overfull h buf → (jbd2ScanRevokeEntries env h tid buf w).1 = some .success
  tids : ¬ Overfull h buf → ∀ b, tidOf (jbd2ScanRevokeEntries env h tid buf w).2 b =
    if b ∈ dueKeys h buf then some tid else tidOf w b

/-! ### What is recorded -/

/-- The words the code takes for entries. -/
def takenKeys : List ℤ :=
  (List.range ((be32 buf 12 - sizeofJournalHeader) / jbd2RevokeEntrySize h)).map fun k =>
    jbd2RevokeEntryBlocknr h buf (sizeofJournalHeader + k * jbd2RevokeEntrySize h)

/-- The loop of `jbd2_scan_revoke_entries` over the blocks themselves. -/
def recordAll : List ℤ → World → Option NtStatus × World
  | [], w => (some .success, w)
  | b :: bs, w =>
    match jbd2RevokeEntryGet env w b with
    | (.noMemory, w) => (some .insufficientResources, w)
    | (.fault, w) => (none, w)
    | (.entry re, w) =>
      recordAll bs (jbd2RevokeEntryPut (setRevoke w b (some { re with reTid := tid })) b)

end

section
variable {env : Env} {h : Jbd2Handle} {tid : ℤ} {buf : Block} {w : World}

theorem scanRevokeEntriesLoop_eq {count : ℕ} : ∀ (fuel bufp : ℕ) w, count - bufp ≤ fuel →
    jbd2ScanRevokeEntriesLoop env h tid buf count fuel bufp w = recordAll env tid
      ((List.range ((count - bufp) / jbd2RevokeEntrySize h)).map fun k =>
        jbd2RevokeEntryBlocknr h buf (bufp + k * jbd2RevokeEntrySize h)) w := by
  have hsz := jbd2RevokeEntrySize_ge (h := h)
  intro fuel
  induction fuel with
  | zero =>
    intro bufp w hfuel
    rw [Nat.le_zero.mp hfuel, Nat.zero_div]
    rfl
  | succ fuel ih =>
    intro bufp w hfuel
    rw [jbd2ScanRevokeEntriesLoop]
    by_cases hf : bufp + jbd2RevokeEntrySize h ≤ count
    · have hdiv : (count - bufp) / jbd2RevokeEntrySize h =
          (count - (bufp + jbd2RevokeEntrySize h)) / jbd2RevokeEntrySize h + 1 := by
        have hsub : count - bufp =
            count - (bufp + jbd2RevokeEntrySize h) + jbd2RevokeEntrySize h := by omega
        rw [hsub, Nat.add_div_right _ (by omega)]
      have hrest : ∀ k, bufp + (k + 1) * jbd2RevokeEntrySize h =
          bufp + jbd2RevokeEntrySize h + k * jbd2RevokeEntrySize h := by
        intro k
        rw [Nat.succ_mul]
        omega
      have hpos : (bufp : ℤ) + jbd2RevokeEntrySize h ≤ count := by exact_mod_cast hf
      rw [if_pos hpos, hdiv, List.range_succ_eq_map, List.map_cons, List.map_map, recordAll,
        Nat.zero_mul, Nat.add_zero]
      dsimp only
      generalize jbd2RevokeEntryGet env w (jbd2RevokeEntryBlocknr h buf bufp) = r
      obtain ⟨g, w'⟩ := r
      cases g with
      | noMemory => rfl
      | fault => rfl
      | entry re =>
        dsimp only
        rw [ih _ _ (by omega)]
        simp only [Function.comp_def, Nat.succ_eq_add_one, hrest]
    · have hneg : ¬ (bufp : ℤ) + jbd2RevokeEntrySize h ≤ count := by exact_mod_cast hf
      rw [if_neg hneg, Nat.div_eq_of_lt (by omega)]
      rfl

/-- What is left when the entry of `b` has been recorded: a resting one. -/
def recorded (tid : ℤ) (re : Jbd2RevokeEntry) : Jbd2RevokeEntry :=
  { re with reIsNew := false, reTid := tid }

/-- The world after the entry `re` of `b` has been recorded. -/
def recordedIn (w : World) (b tid : ℤ) (re : Jbd2RevokeEntry) : World :=
  { w with
    allocs := w.allocs + 1
    revokeTable := Function.update w.revokeTable b (some (recorded tid re)) }

theorem recordAll_noMemory {b : ℤ} {bs : List ℤ} (ha : env.oracle.alloc w.allocs = false) :
    (recordAll env tid (b :: bs) w).1 = some .insufficientResources := by
  rw [recordAll]
  unfold jbd2RevokeEntryGet
  simp only [ha, Bool.not_false, if_true]

theorem recordAll_fault {b : ℤ} {bs : List ℤ} (ha : env.oracle.alloc w.allocs = true)
    (hb : w.revokeTable b = none) : (recordAll env tid (b :: bs) w).1 = none := by
  rw [recordAll]
  unfold jbd2RevokeEntryGet
  simp only [ha, hb, Bool.not_true, Bool.false_eq_true, if_false]

theorem recordAll_next {b : ℤ} {bs : List ℤ} {re : Jbd2RevokeEntry} (hrest : Resting w)
    (ha : env.oracle.alloc w.allocs = true) (hb : w.revokeTable b = some re) :
    recordAll env tid (b :: bs) w = recordAll env tid bs (recordedIn w b tid re) := by
  have h0 := hrest b re hb
  rw [recordAll]
  unfold jbd2RevokeEntryGet
  simp only [ha, hb, Bool.not_true, Bool.false_eq_true, if_false]
  congr 1
  unfold jbd2RevokeEntryPut setRevoke
  simp only [Function.update_self, h0, zero_add, sub_self, if_true, Function.update_idem]
  unfold recordedIn recorded
  rw [h0]

theorem resting_recordedIn {b : ℤ} {re : Jbd2RevokeEntry} (hrest : Resting w)
    (hb : w.revokeTable b = some re) : Resting (recordedIn w b tid re) := by
  intro b' re' hb'
  unfold recordedIn at hb'
  dsimp only at hb'
  by_cases hbb : b' = b
  · rw [hbb, Function.update_self] at hb'
    cases hb'
    exact hrest b re hb
  · rw [Function.update_of_ne hbb] at hb'
    exact hrest b' re' hb'

theorem recordedIn_eq_none_iff {b c : ℤ} {re : Jbd2RevokeEntry} (hb : w.revokeTable b = some re) :
    (recordedIn w b tid re).revokeTable c = none ↔ w.revokeTable c = none := by
  unfold recordedIn
  dsimp only
  by_cases hc : c = b
  · rw [hc, Function.update_self, hb]
    simp
  · rw [Function.update_of_ne hc]

theorem tidOf_recordedIn {b c : ℤ} {re : Jbd2RevokeEntry} :
    tidOf (recordedIn w b tid re) c = if c = b then some tid else tidOf w c := by
  unfold tidOf recordedIn
  dsimp only
  by_cases hc : c = b
  · rw [if_pos hc, hc, Function.update_self]
    rfl
  · rw [if_neg hc, Function.update_of_ne hc]

/-- Recording succeeds exactly when every block has an entry already and every allocation succeeds;
then the blocks recorded carry the tid. -/
theorem recordAll_run : ∀ {bs : List ℤ} {w : World}, Resting w →
    ((recordAll env tid bs w).1 = some .success ↔
      (∀ b ∈ bs, w.revokeTable b ≠ none) ∧
        ∀ k < bs.length, env.oracle.alloc (w.allocs + k) = true) ∧
    ((recordAll env tid bs w).1 = some .success → ∀ b, tidOf (recordAll env tid bs w).2 b =
      if b ∈ bs then some tid else tidOf w b) := by
  intro bs
  induction bs with
  | nil =>
    intro w _
    refine ⟨⟨fun _ => ⟨nofun, nofun⟩, fun _ => rfl⟩, fun _ b => ?_⟩
    rw [if_neg List.not_mem_nil]
    rfl
  | cons b bs ih =>
    intro w hrest
    rw [List.forall_mem_cons, List.length_cons, Nat.forall_lt_succ_left, Nat.add_zero]
    cases ha : env.oracle.alloc w.allocs with
    | false =>
      rw [recordAll_noMemory ha]
      exact ⟨⟨nofun, fun hc => (by cases hc.2.1)⟩, nofun⟩
    | true =>
      cases hb : w.revokeTable b with
      | none =>
        rw [recordAll_fault ha hb]
        exact ⟨⟨nofun, fun hc => absurd rfl hc.1.1⟩, nofun⟩
      | some re =>
        obtain ⟨ih1, ih2⟩ := ih (@resting_recordedIn tid w b re hrest hb)
        rw [recordAll_next hrest ha hb]
        constructor
        · rw [ih1]
          have hallocs : ∀ k, (recordedIn w b tid re).allocs + k = w.allocs + (k + 1) := by
            intro k
            unfold recordedIn
            dsimp only
            omega
          simp only [ne_eq, recordedIn_eq_none_iff hb, hallocs, reduceCtorEq, not_false_eq_true,
            true_and]
        · intro hs c
          rw [ih2 hs, tidOf_recordedIn]
          by_cases hc : c = b
          · rw [if_pos hc, hc, if_pos List.mem_cons_self]
            split_ifs <;> rfl
          · rw [if_neg hc]
            simp only [List.mem_cons, hc, false_or]

/-! ### When the table comes out right -/

/-- What `RecordsExactly` comes down to for a block that is not overfull. -/
structure RecordsWhen (env : Env) (h : Jbd2Handle) (tid : ℤ) (buf : Block) (w : World) : Prop where
  /-- Whatever the code takes for an entry is in the table already. -/
  present : ∀ b ∈ takenKeys h buf, w.revokeTable b ≠ none
  alloc : ∀ k < (takenKeys h buf).length, env.oracle.alloc (w.allocs + k) = true
  /-- Where the words from byte 12 on and the entries differ, the table has this tid already. -/
  same : ∀ b, ¬ (b ∈ takenKeys h buf ↔ b ∈ dueKeys h buf) → tidOf w b = some tid

/-- The count is compared as it stands in the block. -/
theorem rcount_cases (h4 : sizeofJournalBlockTail ≤ h.jhBlocksize) (hbs : h.jhBlocksize < 2 ^ 31) :
    (rcount buf > rcountLimit h ↔ Overfull h buf) ∧
      (¬ Overfull h buf → rcount buf = be32 buf 12) := by
  have hlt := be32_lt buf 12
  have htail : sizeofJournalBlockTail = 4 := rfl
  have hlimit : rcountLimit h = entryRoom h ∧ 0 ≤ entryRoom h ∧ entryRoom h < 2 ^ 31 := by
    unfold rcountLimit entryRoom toU64
    split_ifs <;> omega
  rw [hlimit.1]
  unfold Overfull rcount be32ToCpu toU64 toI32
  constructor <;> omega

/-- **When a revoke block is recorded exactly.** -/
theorem recordsExactly_iff (h4 : sizeofJournalBlockTail ≤ h.jhBlocksize)
    (hbs : h.jhBlocksize < 2 ^ 31) (hrest : Resting w) :
    RecordsExactly env h tid buf w ↔ (¬ Overfull h buf → RecordsWhen env h tid buf w) := by
  obtain ⟨hover, hcount⟩ := @rcount_cases h buf h4 hbs
  by_cases ho : Overfull h buf
  · have href : jbd2ScanRevokeEntries env h tid buf w = (some .diskCorruptError, w) := by
      unfold jbd2ScanRevokeEntries
      rw [if_pos (hover.mpr ho)]
    exact ⟨fun _ hno => absurd ho hno,
      fun _ => ⟨fun _ => href, fun hno => absurd ho hno, fun hno => absurd ho hno⟩⟩
  · have hrun : jbd2ScanRevokeEntries env h tid buf w = recordAll env tid (takenKeys h buf) w := by
      unfold jbd2ScanRevokeEntries takenKeys
      rw [if_neg (mt hover.mp ho), hcount ho, Int.toNat_natCast]
      exact scanRevokeEntriesLoop_eq _ _ _ (Nat.sub_le _ _)
    obtain ⟨hsuc, htids⟩ := @recordAll_run env tid (takenKeys h buf) w hrest
    rw [← hrun] at hsuc htids
    constructor
    · rintro ⟨-, hs, ht⟩ -
      obtain ⟨hp, ha⟩ := hsuc.mp (hs ho)
      refine ⟨hp, ha, fun b hb => ?_⟩
      have h1 := htids (hs ho) b
      rw [ht ho b] at h1
      by_cases hk : b ∈ takenKeys h buf
      · have hd : b ∉ dueKeys h buf := fun hd => hb ⟨fun _ => hd, fun _ => hk⟩
        rw [if_neg hd, if_pos hk] at h1
        exact h1
      · have hd : b ∈ dueKeys h buf := by
          by_contra hd
          exact hb ⟨fun hc => absurd hc hk, fun hc => absurd hc hd⟩
        rw [if_pos hd, if_neg hk] at h1
        exact h1.symm
    · intro hwhen
      obtain ⟨hp, ha, hsame⟩ := hwhen ho
      have hs := hsuc.mpr ⟨hp, ha⟩
      refine ⟨fun hc => absurd hc ho, fun _ => hs, fun _ b => ?_⟩
      rw [htids hs b]
      by_cases hb : b ∈ takenKeys h buf ↔ b ∈ dueKeys h buf
      · simp only [hb]
      · rw [hsame b hb]
        split_ifs <;> rfl

end

/-! ### A revoke block with one entry -/

/-- Everything succeeds. -/
def allSucceeds : Oracle := ⟨fun _ => true, fun _ => true, fun _ => true⟩

/-- A revoke block of transaction 1 for the block `b`. -/
def oneRevoke (b : ℕ) : Block := putBe32 (putBe32 (headerBlock 5 1) 12 20) 16 b

/-- The blocks 5 and 20 have entries already, of another transaction. -/
def alreadyRevoked : World :=
  { World.init fun _ _ => 0 with
    revokeTable := fun b => if b = 5 ∨ b = 20 then some ⟨0, false, 7⟩ else none }

theorem resting_alreadyRevoked : Resting alreadyRevoked := by
  intro b re hb
  dsimp only [alreadyRevoked] at hb
  split_ifs at hb
  cases hb
  rfl

/-- The count happens to be the block that is revoked. -/
theorem recordsExactly_oneRevoke : RecordsExactly ⟨fun _ _ => 0, fun _ _ _ => 0, allSucceeds⟩
    (smallJournal 1) 1 (oneRevoke 20) alreadyRevoked := by
  have htaken : takenKeys (smallJournal 1) (oneRevoke 20) = [20, 20] := by decide +kernel
  have hdue : dueKeys (smallJournal 1) (oneRevoke 20) = [20] := by decide +kernel
  refine (recordsExactly_iff (by decide) (by decide) resting_alreadyRevoked).mpr fun _ =>
    ⟨?_, fun _ _ => rfl, ?_⟩
  · rw [htaken]
    intro b hb
    simp only [List.mem_cons, List.not_mem_nil, or_false, or_self] at hb
    rw [hb]
    exact Option.some_ne_none _
  · intro b hb
    rw [htaken, hdue] at hb
    exact absurd (by simp) hb

/-- The count is taken for a block that is revoked. -/
theorem count_recorded : ¬ ∀ (env : Env) (h : Jbd2Handle) (tid : ℤ) (buf : Block) (w : World),
    sizeofJournalBlockTail ≤ h.jhBlocksize → h.jhBlocksize < 2 ^ 31 → Resting w →
    (∀ n, env.oracle.alloc n = true) → RecordsExactly env h tid buf w := by
  intro hall
  have hrec := hall ⟨fun _ _ => 0, fun _ _ _ => 0, allSucceeds⟩ (smallJournal 1) 1 (oneRevoke 5)
    alreadyRevoked (by decide) (by decide) resting_alreadyRevoked fun _ => rfl
  have hnot : ¬ Overfull (smallJournal 1) (oneRevoke 5) := by
    unfold Overfull
    decide +kernel
  have hdue : dueKeys (smallJournal 1) (oneRevoke 5) = [5] := by decide +kernel
  have hphantom : tidOf (jbd2ScanRevokeEntries ⟨fun _ _ => 0, fun _ _ _ => 0, allSucceeds⟩
      (smallJournal 1) 1 (oneRevoke 5) alreadyRevoked).2 20 = some 1 := by decide +kernel
  have h20 := hrec.tids hnot 20
  rw [hphantom, hdue] at h20
  exact absurd h20 (by decide)

end Ext4Fsd.Journal.RevokeBlocks
