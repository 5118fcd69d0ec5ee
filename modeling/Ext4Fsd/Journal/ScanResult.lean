import Ext4Fsd.Journal.Passes
import Ext4Fsd.Journal.Contents

/-! # What the scan reports

The log from `s_start` on is a sequence of complete transactions, `CommittedPrefix` says of how
many. The scan follows it up to the first block from which it goes on to another one than the log
does (`Strays`): `jbd2_count_tags` does not count the tag flagged last, so that the scan goes on at
the last data block, and `jbd2_wrap` goes around the log once only. A scan that strays in the
unfinished transaction at the end only, and comes to no commit block behind it, reports the
committed prefix (`scan_reports`); another one does so by chance at most, where it strays from a
complete transaction and finds commit blocks all the same. -/

namespace Ext4Fsd.Journal.ScanResult

open Ext4Fsd.Lib.CInt Ext4Fsd.Lib.Walk
open Ext4Fsd.Journal.Format Ext4Fsd.Journal.Tags Ext4Fsd.Journal.Recovery Ext4Fsd.Journal.Effects
open Ext4Fsd.Journal.Turns Ext4Fsd.Journal.LogChain Ext4Fsd.Journal.Runs
open Ext4Fsd.Journal.Termination Ext4Fsd.Journal.Visits Ext4Fsd.Journal.Passes
open Ext4Fsd.Journal.Transactions Ext4Fsd.Journal.Contents
open Ext4Fsd.Journal.TagWalk (descrTags)

/-! ### The committed prefix of a log -/

section
variable (log : ℤ → Block) (chksum : Chksum) (h : Jbd2Handle)

/-- **The blocks from `b` to before `c` are a complete transaction `tid`**: descriptor blocks with
as many data blocks as they have tags, revoke blocks, and a commit block. -/
inductive Complete (tid : ℤ) : ℤ → ℤ → Prop
  | commit {b : ℤ} (hc : CommitOf chksum h (log b) tid) : Complete tid b (ringNext h b)
  | descr {b c : ℤ} (hd : DescrOf chksum h (log b) tid)
      (hrest : Complete tid (ringAdd h b ((descrTags h (log b)).length + 1)) c) : Complete tid b c
  | revoke {b c : ℤ} (hr : RevokeOf chksum h (log b) tid) (hrest : Complete tid (ringNext h b) c) :
      Complete tid b c

/-- **The longest sequence of complete transactions from block `b` and tid `tid` on has `k` of
them.** -/
inductive CommittedPrefix : ℤ → ℤ → ℕ → Prop
  | stop {b tid : ℤ} (hno : ∀ c, ¬ Complete log chksum h tid b c) : CommittedPrefix b tid 0
  | txn {b c tid : ℤ} {k : ℕ} (ht : Complete log chksum h tid b c)
      (hrest : CommittedPrefix c (toI32 (tid + 1)) k) : CommittedPrefix b tid (k + 1)

/-- The scan reports `k` transactions from `s_sequence` on. -/
structure Reports (i : RecoveryInfo) (k : ℕ) : Prop where
  start : i.riStartTxn = sSequence h.jhSb
  hasTxn : i.riHasTxn = true ↔ 0 < k
  endTxn : 0 < k → i.riEndTxn = toI32 (sSequence h.jhSb + (k - 1))

/-! ### When the scan reports it -/

/-- **The scan strays at the position**: it goes on from there, but not to the block that follows in
the log. -/
inductive Strays (s : Pos) : Prop
  | descr (hd : DescrOf chksum h (log s.1) s.2)
      (hne : advance h s.1 (jbd2CountTags h (log s.1) + 1) ≠
        ringAdd h s.1 ((descrTags h (log s.1)).length + 1))
  | commit (hc : CommitOf chksum h (log s.1) s.2) (hne : advance h s.1 1 ≠ ringNext h s.1)
  | revoke (hr : RevokeOf chksum h (log s.1) s.2) (hne : advance h s.1 1 ≠ ringNext h s.1)

/-- The scan strays for the first time at the `j`-th position. -/
structure FirstStray (j : ℕ) (s : Pos) : Prop where
  reached : walk (logStep log chksum h .scan) j (startPos h) = some s
  strays : Strays log chksum h s
  first : ∀ i < j, ∀ u, walk (logStep log chksum h .scan) i (startPos h) = some u →
    ¬ Strays log chksum h u

/-- A complete transaction goes on from the position. -/
def CompleteFrom (s : Pos) : Prop := ∃ c, Complete log chksum h s.2 s.1 c

/-- The scan comes to a commit block from the position on. -/
def CommitBehind (s : Pos) : Prop :=
  ∃ i b tid, walk (logStep log chksum h .scan) i s = some (b, tid) ∧ CommitOf chksum h (log b) tid

/-- **The scan strays in the tail only**: in the unfinished transaction, with no commit block
behind. -/
def StraysInTail : Prop :=
  ∀ j s, FirstStray log chksum h j s →
    ¬ CompleteFrom log chksum h s ∧ ¬ CommitBehind log chksum h s

/-- The scan strays from a complete transaction, and comes to a commit block behind it. -/
def CommitsAstray : Prop :=
  ∃ j s, FirstStray log chksum h j s ∧ CompleteFrom log chksum h s ∧ CommitBehind log chksum h s

end

variable {log : ℤ → Block} {chksum : Chksum} {h : Jbd2Handle}

/-! ### The ring -/

/-- The block is in the ring. -/
def InRing (h : Jbd2Handle) (b : ℤ) : Prop := h.jhStart ≤ b ∧ b ≤ h.jhEnd

theorem ringNext_mem {b : ℤ} (hb : InRing h b) : InRing h (ringNext h b) := by
  unfold InRing at *
  unfold ringNext
  split_ifs <;> omega

theorem ringAdd_zero (b : ℤ) : ringAdd h b 0 = b := Function.iterate_zero_apply _ _

theorem ringAdd_succ (b : ℤ) (n : ℕ) : ringAdd h b (n + 1) = ringNext h (ringAdd h b n) :=
  Function.iterate_succ_apply' _ _ _

theorem ringAdd_mem {b : ℤ} (hb : InRing h b) (n : ℕ) : InRing h (ringAdd h b n) := by
  induction n with
  | zero => rw [ringAdd_zero]; exact hb
  | succ n ih => rw [ringAdd_succ]; exact ringNext_mem ih

/-- One turn around the ring is one subtraction. -/
theorem ringAdd_eq {b : ℤ} (hb : InRing h b) : ∀ n : ℕ, (n : ℤ) ≤ h.jhEnd - h.jhStart + 1 →
    ringAdd h b n = if b + n > h.jhEnd then b + n - (h.jhEnd - h.jhStart + 1) else b + n := by
  unfold InRing at hb
  intro n
  induction n with
  | zero => intro _; rw [ringAdd_zero, if_neg (by push_cast; omega)]; push_cast; omega
  | succ n ih =>
    intro hn
    rw [ringAdd_succ, ih (by push_cast at hn; omega)]
    unfold ringNext
    push_cast at hn ⊢
    split_ifs <;> omega

/-! ### Reading the prefix from its first block -/

section
variable {b tid : ℤ}

theorem complete_descr_iff (hd : DescrOf chksum h (log b) tid) {c : ℤ} :
    Complete log chksum h tid b c ↔
      Complete log chksum h tid (ringAdd h b ((descrTags h (log b)).length + 1)) c := by
  refine ⟨fun hc => ?_, .descr hd⟩
  cases hc with
  | commit hc =>
    exact absurd (hd.type.symm.trans hc.type) (by decide)
  | descr _ hrest => exact hrest
  | revoke hr => exact absurd (hd.type.symm.trans hr.type) (by decide)

theorem complete_revoke_iff (hr : RevokeOf chksum h (log b) tid) {c : ℤ} :
    Complete log chksum h tid b c ↔ Complete log chksum h tid (ringNext h b) c := by
  refine ⟨fun hc => ?_, .revoke hr⟩
  cases hc with
  | commit hc => exact absurd (hr.type.symm.trans hc.type) (by decide)
  | descr hd => exact absurd (hr.type.symm.trans hd.type) (by decide)
  | revoke _ hrest => exact hrest

theorem complete_commit_iff (hm : CommitOf chksum h (log b) tid) {c : ℤ} :
    Complete log chksum h tid b c ↔ c = ringNext h b := by
  refine ⟨fun hc => ?_, fun hc => hc ▸ .commit hm⟩
  cases hc with
  | commit => rfl
  | descr hd => exact absurd (hm.type.symm.trans hd.type) (by decide)
  | revoke hr => exact absurd (hm.type.symm.trans hr.type) (by decide)

/-- Two blocks from which the same transactions follow have the same prefix. -/
theorem committedPrefix_congr {b' : ℤ}
    (hc : ∀ c, Complete log chksum h tid b c ↔ Complete log chksum h tid b' c) {k : ℕ} :
    CommittedPrefix log chksum h b tid k ↔ CommittedPrefix log chksum h b' tid k := by
  constructor
  · intro hp
    cases hp with
    | stop hno => exact .stop fun c hc' => hno c ((hc c).mpr hc')
    | txn ht hrest => exact .txn ((hc _).mp ht) hrest
  · intro hp
    cases hp with
    | stop hno => exact .stop fun c hc' => hno c ((hc c).mp hc')
    | txn ht hrest => exact .txn ((hc _).mpr ht) hrest

theorem committedPrefix_commit_iff (hm : CommitOf chksum h (log b) tid) {k : ℕ} :
    CommittedPrefix log chksum h b tid k ↔
      ∃ k', k = k' + 1 ∧ CommittedPrefix log chksum h (ringNext h b) (toI32 (tid + 1)) k' := by
  constructor
  · intro hp
    cases hp with
    | stop hno => exact absurd (.commit hm) (hno (ringNext h b))
    | txn ht hrest =>
      rw [(complete_commit_iff hm).mp ht] at hrest
      exact ⟨_, rfl, hrest⟩
  · rintro ⟨k', rfl, hp⟩
    exact .txn (.commit hm) hp

theorem committedPrefix_stop_iff (hno : ∀ c, ¬ Complete log chksum h tid b c) {k : ℕ} :
    CommittedPrefix log chksum h b tid k ↔ k = 0 := by
  constructor
  · intro hp
    cases hp with
    | stop => rfl
    | txn ht => exact absurd ht (hno _)
  · rintro rfl
    exact .stop hno

end

/-! ### Along the walk of the scan -/

/-- The number of commit blocks visited. -/
def commits (vs : List Visit) : ℕ := vs.countP fun v => decide (IsCommit v)

theorem commits_append (vs vs' : List Visit) : commits (vs ++ vs') = commits vs + commits vs' :=
  List.countP_append

theorem commits_visitsAt_of_ne {s : Pos} (hne : hBlocktype (log s.1) ≠ jbd2CommitBlock) :
    commits (visitsAt log s) = 0 := by
  unfold visitsAt commits
  split_ifs
  · simp [IsCommit, hne]
  · rfl

theorem commits_visitsAt_commit {s : Pos} (hc : hBlocktype (log s.1) = jbd2CommitBlock) :
    commits (visitsAt log s) = 1 := by
  unfold visitsAt commits
  rw [if_pos (.inr (.inl hc))]
  simp [IsCommit, hc]

/-- Where the scan goes from a position. -/
theorem scanStep_cases {b tid : ℤ} {t : Pos} (hst : logStep log chksum h .scan (b, tid) = some t) :
    DescrOf chksum h (log b) tid ∧ t = (advance h b (jbd2CountTags h (log b) + 1), tid) ∨
      CommitOf chksum h (log b) tid ∧ t = (advance h b 1, toI32 (tid + 1)) ∨
      RevokeOf chksum h (log b) tid ∧ t = (advance h b 1, tid) ∨
      (hBlocktype (log b) ≠ jbd2DescriptorBlock ∧ hBlocktype (log b) ≠ jbd2CommitBlock) ∧
        t = (b, tid) := by
  unfold logStep logNext logBlock logDescr logCommit logRevoke at hst
  dsimp only at hst
  split_ifs at hst with hg hh hd hv hcs hc hv hr hv <;> cases hst
  all_goals rw [Bool.or_eq_true, not_or] at hh
  · exact .inl ⟨⟨⟨by simpa using hh.1, by simpa using hh.2, hd⟩, by simpa using hv⟩, rfl⟩
  · exact .inr (.inl ⟨⟨⟨by simpa using hh.1, by simpa using hh.2, hc⟩, by simpa using hv⟩, rfl⟩)
  · exact .inr (.inr (.inl
      ⟨⟨⟨by simpa using hh.1, by simpa using hh.2, hr⟩, by simpa using hv⟩, rfl⟩))
  · exact .inr (.inr (.inr ⟨⟨hd, hc⟩, rfl⟩))

/-- The scan does not end with success at a descriptor block that verifies. -/
theorem logNext_descr_ne {b tid : ℤ} (hd : DescrOf chksum h (log b) tid) :
    logNext log chksum h .scan (b, tid) ≠ .error .success := by
  intro hs
  by_cases hcsum : (dataCsumStatus log chksum h b).ntSuccess = true
  · rw [logNext_descr (.inl rfl) hd fun _ => hcsum] at hs
    cases hs
  · rw [logNext_of_passes (.inl rfl)] at hs
    unfold logBlock logDescr at hs
    rw [if_neg (by simp [hd.header, hd.sequence]), if_pos hd.type, if_neg (by simp [hd.csum]),
      if_pos ⟨rfl, by simpa using hcsum⟩] at hs
    rw [Except.error.inj hs] at hcsum
    exact hcsum rfl

/-- **Where it does not stray, the scan goes on at the next block of the prefix.** -/
theorem committedPrefix_step {s t : Pos} (hring : InRing h s.1) (hs : ¬ Strays log chksum h s)
    (hst : logStep log chksum h .scan s = some t) :
    InRing h t.1 ∧ ∀ k, CommittedPrefix log chksum h s.1 s.2 k ↔
      ∃ k', k = commits (visitsAt log s) + k' ∧ CommittedPrefix log chksum h t.1 t.2 k' := by
  obtain ⟨b, tid⟩ := s
  rcases scanStep_cases hst with ⟨hd, rfl⟩ | ⟨hc, rfl⟩ | ⟨hr, rfl⟩ | ⟨hne, rfl⟩
  · have hadv : advance h b (jbd2CountTags h (log b) + 1) =
        ringAdd h b ((descrTags h (log b)).length + 1) := by
      by_contra hne
      exact hs (.descr hd hne)
    rw [hadv, commits_visitsAt_of_ne (s := (b, tid)) (by rw [hd.type]; decide)]
    refine ⟨ringAdd_mem hring _, fun k => ?_⟩
    rw [committedPrefix_congr fun c => complete_descr_iff hd]
    simp
  · have hadv : advance h b 1 = ringNext h b := by
      by_contra hne
      exact hs (.commit hc hne)
    rw [hadv, commits_visitsAt_commit (s := (b, tid)) hc.type]
    refine ⟨ringNext_mem hring, fun k => ?_⟩
    rw [committedPrefix_commit_iff hc]
    simp [Nat.add_comm]
  · have hadv : advance h b 1 = ringNext h b := by
      by_contra hne
      exact hs (.revoke hr hne)
    rw [hadv, commits_visitsAt_of_ne (s := (b, tid)) (by rw [hr.type]; decide)]
    refine ⟨ringNext_mem hring, fun k => ?_⟩
    rw [committedPrefix_congr fun c => complete_revoke_iff hr]
    simp
  · rw [commits_visitsAt_of_ne (s := (b, tid)) hne.2]
    exact ⟨hring, fun k => by simp⟩

/-- The same along a walk that does not stray. -/
theorem committedPrefix_walk : ∀ n (s t : Pos), InRing h s.1 →
    walk (logStep log chksum h .scan) n s = some t →
    (∀ i < n, ∀ u, walk (logStep log chksum h .scan) i s = some u → ¬ Strays log chksum h u) →
    InRing h t.1 ∧ ∀ k, CommittedPrefix log chksum h s.1 s.2 k ↔
      ∃ k', k = commits (walkVisits log chksum h .scan s n) + k' ∧
        CommittedPrefix log chksum h t.1 t.2 k' := by
  intro n
  induction n with
  | zero =>
    intro s t hring hw _
    cases hw
    refine ⟨hring, fun k => ?_⟩
    rw [walkVisits_zero]
    simp [commits]
  | succ n ih =>
    intro s t hring hw hp
    rw [walk_succ', Option.bind_eq_some_iff] at hw
    obtain ⟨u, hu, hw⟩ := hw
    obtain ⟨hring', hstep⟩ :=
      committedPrefix_step hring (hp 0 n.succ_pos s (walk_zero s)) hu
    obtain ⟨hringt, hrest⟩ := ih u t hring' hw fun i hi v hv => hp (i + 1) (by omega) v (by
      rw [walk_succ', hu]
      exact hv)
    refine ⟨hringt, fun k => ?_⟩
    rw [hstep, walkVisits_succ' hu, commits_append]
    constructor
    · rintro ⟨k', rfl, hk'⟩
      obtain ⟨k'', rfl, hk''⟩ := (hrest k').mp hk'
      exact ⟨k'', by omega, hk''⟩
    · rintro ⟨k'', rfl, hk''⟩
      exact ⟨_, by rw [Nat.add_assoc], (hrest _).mpr ⟨k'', rfl, hk''⟩⟩

/-! ### What the scan has noted -/

theorem foldl_note_visitsAt_of_ne {s : Pos} (hne : hBlocktype (log s.1) ≠ jbd2CommitBlock)
    (i : RecoveryInfo) : (visitsAt log s).foldl note i = i := by
  unfold visitsAt
  split_ifs
  · rw [List.foldl_cons, List.foldl_nil, note_of_ne _ _ _ hne]
  · rfl

theorem foldl_note_visitsAt_commit {s : Pos} (hc : hBlocktype (log s.1) = jbd2CommitBlock)
    (i : RecoveryInfo) :
    (visitsAt log s).foldl note i = { i with riEndTxn := s.2, riHasTxn := true } := by
  unfold visitsAt
  rw [if_pos (.inr (.inl hc)), List.foldl_cons, List.foldl_nil, hc, note_commit]

/-- The tids of the commit blocks on the walk follow each other. -/
theorem scan_noted : ∀ n (s t : Pos), s.2 ∈ Set.range toI32 →
    walk (logStep log chksum h .scan) n s = some t → ∀ i : RecoveryInfo,
    (walkVisits log chksum h .scan s n).foldl note i =
      { riStartTxn := i.riStartTxn
        riEndTxn := if commits (walkVisits log chksum h .scan s n) = 0 then i.riEndTxn
          else toI32 (s.2 + (commits (walkVisits log chksum h .scan s n) - 1))
        riHasTxn := i.riHasTxn || decide (0 < commits (walkVisits log chksum h .scan s n)) } := by
  intro n
  induction n with
  | zero =>
    intro s t _ _ i
    rw [walkVisits_zero]
    simp [commits]
  | succ n ih =>
    intro s t hs hw i
    rw [walk_succ', Option.bind_eq_some_iff] at hw
    obtain ⟨u, hu, hw⟩ := hw
    rw [walkVisits_succ' hu, List.foldl_append, commits_append]
    by_cases hc : hBlocktype (log s.1) = jbd2CommitBlock
    · have hu2 : u.2 = toI32 (s.2 + 1) := by
        obtain ⟨b, tid⟩ := s
        rcases scanStep_cases hu with ⟨hd, -⟩ | ⟨-, rfl⟩ | ⟨hr, -⟩ | ⟨hne, -⟩
        · exact absurd (hd.type.symm.trans hc) (by decide)
        · rfl
        · exact absurd (hr.type.symm.trans hc) (by decide)
        · exact absurd hc hne.2
      rw [foldl_note_visitsAt_commit hc, ih u t (hu2 ▸ ⟨_, rfl⟩) hw, commits_visitsAt_commit hc,
        hu2]
      generalize commits (walkVisits log chksum h .scan u n) = c
      obtain ⟨x, hx⟩ := hs
      have hend : (if c = 0 then s.2 else toI32 (toI32 (s.2 + 1) + (c - 1))) =
          toI32 (s.2 + (((1 + c : ℕ) : ℤ) - 1)) := by
        push_cast
        rw [add_sub_cancel_left]
        by_cases h0 : c = 0
        · rw [if_pos h0, h0, ← hx, Nat.cast_zero, add_zero, toI32_toI32]
        · rw [if_neg h0, toI32_toI32_add, show s.2 + 1 + ((c : ℤ) - 1) = s.2 + c by ring]
      have htxn : (i.riHasTxn || decide (0 < 1 + c)) = true := by simp
      dsimp only
      rw [hend, if_neg (show ¬ 1 + c = 0 by omega), htxn, Bool.true_or]
    · have hu2 : u.2 = s.2 := by
        obtain ⟨b, tid⟩ := s
        rcases scanStep_cases hu with ⟨-, rfl⟩ | ⟨hm, -⟩ | ⟨-, rfl⟩ | ⟨-, rfl⟩
        · rfl
        · exact absurd hm.type hc
        · rfl
        · rfl
      rw [foldl_note_visitsAt_of_ne hc, ih u t (hu2 ▸ hs) hw, commits_visitsAt_of_ne hc, hu2,
        Nat.zero_add]

/-- What the scan reports is right exactly when the number of commit blocks it has visited is, up to
the wrap of the tids. -/
theorem reports_iff {m : ℕ} {t : Pos}
    (hw : walk (logStep log chksum h .scan) m (startPos h) = some t) {k : ℕ} :
    Reports h ((walkVisits log chksum h .scan (startPos h) m).foldl note
      ⟨sSequence h.jhSb, 0, false⟩)
        k ↔
      (0 < commits (walkVisits log chksum h .scan (startPos h) m) ↔ 0 < k) ∧
        (0 < k → toI32 (sSequence h.jhSb +
          (commits (walkVisits log chksum h .scan (startPos h) m) - 1)) =
            toI32 (sSequence h.jhSb + (k - 1))) := by
  have hnoted := scan_noted m (startPos h) t ⟨_, rfl⟩ hw ⟨sSequence h.jhSb, 0, false⟩
  rw [hnoted, startPos_snd]
  generalize commits (walkVisits log chksum h .scan (startPos h) m) = c
  constructor
  · rintro ⟨-, h1, h2⟩
    have h1' : 0 < c ↔ 0 < k := by simpa using h1
    refine ⟨h1', fun hk => ?_⟩
    have h2' := h2 hk
    dsimp only at h2'
    rwa [if_neg (by have := h1'.mpr hk; omega)] at h2'
  · rintro ⟨h1, h2⟩
    refine ⟨rfl, by simpa using h1, fun hk => ?_⟩
    dsimp only
    rw [if_neg (by have := h1.mpr hk; omega)]
    exact h2 hk

/-! ### The prefix is shorter than the ring -/

theorem complete_commit {tid b c : ℤ} (hc : Complete log chksum h tid b c) (hb : InRing h b) :
    InRing h c ∧ ∃ d, InRing h d ∧ CommitOf chksum h (log d) tid := by
  induction hc with
  | commit hc => exact ⟨ringNext_mem hb, _, hb, hc⟩
  | descr _ _ ih => exact ih (ringAdd_mem hb _)
  | revoke _ _ ih => exact ih (ringNext_mem hb)

/-- The commit blocks of the prefix. -/
theorem exists_commitBlocks {b tid : ℤ} {k : ℕ} (hp : CommittedPrefix log chksum h b tid k)
    (htid : tid ∈ Set.range toI32) (hb : InRing h b) :
    ∃ f : ℕ → ℤ, ∀ i < k, InRing h (f i) ∧ CommitOf chksum h (log (f i)) (toI32 (tid + i)) := by
  induction hp with
  | stop => exact ⟨fun _ => 0, nofun⟩
  | @txn b c tid k ht hrest ih =>
    obtain ⟨hc, d, hd, hm⟩ := complete_commit ht hb
    obtain ⟨f, hf⟩ := ih ⟨_, rfl⟩ hc
    refine ⟨fun i => if i = 0 then d else f (i - 1), fun i hi => ?_⟩
    by_cases h0 : i = 0
    · obtain ⟨x, rfl⟩ := htid
      dsimp only
      rw [if_pos h0, h0, Nat.cast_zero, add_zero, toI32_toI32]
      exact ⟨hd, hm⟩
    · dsimp only
      rw [if_neg h0]
      have hfi := hf (i - 1) (by omega)
      rw [toI32_toI32_add] at hfi
      have hsum : tid + 1 + ((i - 1 : ℕ) : ℤ) = tid + i := by omega
      rwa [hsum] at hfi

/-- With a block in the ring that is no commit block, there are fewer than `2^32` of them. -/
theorem committedPrefix_lt (h0 : -2 ^ 31 ≤ h.jhStart) (h1 : h.jhEnd < 2 ^ 31) {b tid d : ℤ} {k : ℕ}
    (hp : CommittedPrefix log chksum h b tid k) (htid : tid ∈ Set.range toI32) (hb : InRing h b)
    (hd : InRing h d) (hne : hBlocktype (log d) ≠ jbd2CommitBlock) : k < 2 ^ 32 := by
  have hmem : ∀ {b : ℤ}, InRing h b → b ∈ Set.range toI32 := fun {b} hb =>
    ⟨b, toI32_of_range (by unfold InRing at hb; omega) (by unfold InRing at hb; omega)⟩
  obtain ⟨f, hf⟩ := exists_commitBlocks hp htid hb
  by_contra hk
  exact hne (type_of_allTids (fun n hn => ⟨f n, hmem (hf n (by omega)).1, (hf n (by omega)).2⟩)
    (hmem hd))

/-- The commit blocks of a walk, by their transactions. -/
theorem exists_commits : ∀ n (s t : Pos), s ∈ Positions →
    walk (logStep log chksum h .scan) n s = some t →
    ∀ i < commits (walkVisits log chksum h .scan s n),
      ∃ c ∈ Set.range toI32, CommitOf chksum h (log c) (toI32 (s.2 + (i : ℕ))) := by
  intro n
  induction n with
  | zero =>
    intro s t _ _ i hi
    rw [walkVisits_zero] at hi
    simp [commits] at hi
  | succ n ih =>
    intro s t hs hw i hi
    rw [walk_succ', Option.bind_eq_some_iff] at hw
    obtain ⟨u, hu, hw⟩ := hw
    have hrest := ih u t (logStep_mem hs hu) hw
    rw [walkVisits_succ' hu, commits_append] at hi
    obtain ⟨b, tid⟩ := s
    obtain ⟨hb, x, rfl⟩ := hs
    rcases scanStep_cases hu with ⟨hd, rfl⟩ | ⟨hc, rfl⟩ | ⟨hr, rfl⟩ | ⟨hne, rfl⟩
    · rw [commits_visitsAt_of_ne (s := (b, toI32 x)) (by rw [hd.type]; decide), Nat.zero_add] at hi
      exact hrest i hi
    · rw [commits_visitsAt_commit (s := (b, toI32 x)) hc.type] at hi
      by_cases h0 : i = 0
      · refine ⟨b, hb, ?_⟩
        rw [h0, Nat.cast_zero, add_zero, toI32_toI32]
        exact hc
      · have hi' := hrest (i - 1) (by omega)
        rw [toI32_toI32_add] at hi'
        have hsum : toI32 x + 1 + ((i - 1 : ℕ) : ℤ) = toI32 x + i := by omega
        rwa [hsum] at hi'
    · rw [commits_visitsAt_of_ne (s := (b, toI32 x)) (by rw [hr.type]; decide), Nat.zero_add] at hi
      exact hrest i hi
    · rw [commits_visitsAt_of_ne (s := (b, toI32 x)) hne.2, Nat.zero_add] at hi
      exact hrest i hi

/-- From a block that is no commit block on, there are fewer than `2^32` of them. -/
theorem commits_lt {n : ℕ} {s t : Pos} (hs : s ∈ Positions)
    (hw : walk (logStep log chksum h .scan) n s = some t)
    (hne : hBlocktype (log s.1) ≠ jbd2CommitBlock) :
    commits (walkVisits log chksum h .scan s n) < 2 ^ 32 := by
  by_contra hk
  exact hne (type_of_allTids (fun i hi => exists_commits n s t hs hw i (by omega)) hs.1)

/-! ### Where the log ends -/

/-- Where the log ends for the scan, no complete transaction follows. -/
theorem not_complete_of_stop {s : Pos} (hs : logNext log chksum h .scan s = .error .success)
    (c : ℤ) : ¬ Complete log chksum h s.2 s.1 c := by
  obtain ⟨b, tid⟩ := s
  intro hc
  cases hc with
  | commit hm => rw [logNext_commit (.inl rfl) hm] at hs; cases hs
  | revoke hr => rw [logNext_revoke (.inl rfl) hr] at hs; cases hs
  | descr hd => exact logNext_descr_ne hd hs

/-! ### The commit blocks of the scan and of the prefix -/

section
variable {m k : ℕ} {t : Pos}

/-- A scan that does not stray visits the commit blocks of the prefix. -/
theorem commits_of_noStray (hstart : InRing h (sStart h.jhSb))
    (hw : walk (logStep log chksum h .scan) m (startPos h) = some t)
    (hend : logNext log chksum h .scan t = .error .success)
    (hno : ∀ j s, ¬ FirstStray log chksum h j s)
    (hp : CommittedPrefix log chksum h (sStart h.jhSb) (sSequence h.jhSb) k) :
    k = commits (walkVisits log chksum h .scan (startPos h) m) := by
  have hnone : ∀ i u, walk (logStep log chksum h .scan) i (startPos h) = some u →
      ¬ Strays log chksum h u := by
    intro i
    induction i using Nat.strong_induction_on with
    | _ i ih => exact fun u hu hs => hno i u ⟨hu, hs, ih⟩
  obtain ⟨-, hk⟩ := committedPrefix_walk m (startPos h) t (by rw [startPos_fst]; exact hstart) hw
    fun i _ u hu => hnone i u hu
  obtain ⟨k', rfl, hk'⟩ := (hk k).mp hp
  rw [(committedPrefix_stop_iff (not_complete_of_stop hend)).mp hk', Nat.add_zero]

/-- Where the scan strays, it has visited the commit blocks of the prefix so far. -/
theorem commits_of_firstStray (hstart : InRing h (sStart h.jhSb))
    (hw : walk (logStep log chksum h .scan) m (startPos h) = some t)
    (hend : logNext log chksum h .scan t = .error .success) {j : ℕ} {s : Pos}
    (hs : FirstStray log chksum h j s)
    (hp : CommittedPrefix log chksum h (sStart h.jhSb) (sSequence h.jhSb) k) :
    InRing h s.1 ∧ ∃ c n k', walk (logStep log chksum h .scan) n s = some t ∧
      commits (walkVisits log chksum h .scan (startPos h) m) =
        c + commits (walkVisits log chksum h .scan s n) ∧
      k = c + k' ∧ CommittedPrefix log chksum h s.1 s.2 k' := by
  have hjm : j ≤ m := by
    by_contra hlt
    have hstop : walk (logStep log chksum h .scan) (m + 1) (startPos h) = none := by
      rw [walk_succ, hw]
      exact logStep_none hend
    have hreached := hs.reached
    rw [walk_none_of_le hstop (by omega)] at hreached
    cases hreached
  obtain ⟨n, rfl⟩ := Nat.exists_eq_add_of_le hjm
  have hn : walk (logStep log chksum h .scan) n s = some t := by
    rw [walk_add, hs.reached] at hw
    exact hw
  obtain ⟨hring, hk⟩ := committedPrefix_walk j (startPos h) s
    (by rw [startPos_fst]; exact hstart) hs.reached hs.first
  obtain ⟨k', rfl, hk'⟩ := (hk k).mp hp
  refine ⟨hring, _, n, k', hn, ?_, rfl, hk'⟩
  rw [walkVisits_add hs.reached, commits_append]

/-- Commit blocks are visited exactly where the scan comes to one. -/
theorem commits_pos_iff {n : ℕ} {s : Pos} (hn : walk (logStep log chksum h .scan) n s = some t)
    (hend : logNext log chksum h .scan t = .error .success) :
    0 < commits (walkVisits log chksum h .scan s n) ↔ CommitBehind log chksum h s := by
  unfold CommitBehind
  rw [← exists_commit_from_iff hn (logStep_none hend), commits, List.countP_pos_iff]
  simp

theorem prefix_pos_iff {s : Pos} (hp : CommittedPrefix log chksum h s.1 s.2 k) :
    0 < k ↔ CompleteFrom log chksum h s := by
  constructor
  · intro hk
    cases hp with
    | stop => omega
    | txn ht => exact ⟨_, ht⟩
  · rintro ⟨c, hc⟩
    cases hp with
    | stop hno => exact absurd hc (hno c)
    | txn => exact Nat.succ_pos _

end

/-! ### The report -/

variable {env : Env} {w : World} {n k : ℕ} {q : Pass}

/-- The scan that strays in the tail only reports the prefix. -/
theorem reports_of_straysInTail (hstart : InRing h (sStart h.jhSb))
    (hscan : jbd2ReplayOnePass env h .scan w n = .done .success q)
    (hp : CommittedPrefix env.log env.chksum h (sStart h.jhSb) (sSequence h.jhSb) k)
    (htail : StraysInTail env.log env.chksum h) : Reports h q.info k := by
  obtain ⟨m, t, hw, hend, -, -, hinfo⟩ := scan_success hscan
  have hcount : k = commits (walkVisits env.log env.chksum h .scan (startPos h) m) := by
    by_cases hno : ∀ j s, ¬ FirstStray env.log env.chksum h j s
    · exact commits_of_noStray hstart hw hend hno hp
    · push Not at hno
      obtain ⟨j, s, hs⟩ := hno
      obtain ⟨hcomplete, hbehind⟩ := htail j s hs
      obtain ⟨-, c, i, k', hi, hc, hk, hk'⟩ := commits_of_firstStray hstart hw hend hs hp
      have h1 := mt (prefix_pos_iff hk').mp hcomplete
      have h2 := mt (commits_pos_iff hi hend).mp hbehind
      omega
  rw [hinfo, reports_iff hw, ← hcount]
  exact ⟨Iff.rfl, fun _ => rfl⟩

/-- A scan that reports the prefix strays in the tail only, or comes to commit blocks astray. -/
theorem straysInTail_of_reports (hstart : InRing h (sStart h.jhSb)) (h0 : -2 ^ 31 ≤ h.jhStart)
    (h1 : h.jhEnd < 2 ^ 31) (hscan : jbd2ReplayOnePass env h .scan w n = .done .success q)
    (hp : CommittedPrefix env.log env.chksum h (sStart h.jhSb) (sSequence h.jhSb) k)
    (hrep : Reports h q.info k) :
    StraysInTail env.log env.chksum h ∨ CommitsAstray env.log env.chksum h := by
  obtain ⟨m, t, hw, hend, -, -, hinfo⟩ := scan_success hscan
  by_contra hno
  rw [not_or] at hno
  refine hno.1 fun j s hs => ?_
  obtain ⟨hring, c, i, k', hi, hc, hk, hk'⟩ := commits_of_firstStray hstart hw hend hs hp
  have hcomplete := prefix_pos_iff hk'
  have hbehind := commits_pos_iff hi hend
  rw [hinfo, reports_iff hw, hc, hk] at hrep
  obtain ⟨hiff, htid⟩ := hrep
  have hpos : s ∈ Positions :=
    walk_invariant startPos_mem (fun _ _ hs hst => logStep_mem hs hst) _ _ hs.reached
  -- the block it strays at is no commit block, so that the differences are below `2^32`
  have hbound : CompleteFrom env.log env.chksum h s ∨ CommitBehind env.log env.chksum h s →
      k' < 2 ^ 32 ∧ commits (walkVisits env.log env.chksum h .scan s i) < 2 ^ 32 := by
    intro heither
    have htype : hBlocktype (env.log s.1) ≠ jbd2CommitBlock := by
      cases hs.strays with
      | descr hd => rw [hd.type]; decide
      | revoke hr => rw [hr.type]; decide
      | commit hm => exact absurd ⟨j, s, hs, ⟨_, .commit hm⟩, 0, s.1, s.2, walk_zero s, hm⟩ hno.2
    exact ⟨committedPrefix_lt h0 h1 hk' hpos.2 hring hring htype, commits_lt hpos hi htype⟩
  by_contra heither
  rw [not_and_or, not_not, not_not] at heither
  obtain ⟨hlt, hlt'⟩ := hbound heither
  have hnot : ¬ (CompleteFrom env.log env.chksum h s ∧ CommitBehind env.log env.chksum h s) :=
    fun hboth => hno.2 ⟨j, s, hs, hboth⟩
  rw [← hcomplete, ← hbehind] at heither hnot
  generalize commits (walkVisits env.log env.chksum h .scan s i) = x at *
  have heq := htid (by omega)
  rw [toI32_eq_iff] at heq
  unfold toU32 at heq
  omega

/-- The transaction 1, and a descriptor block of the transaction 2 with one tag. -/
def unfinished : ℤ → Block := fun b =>
  if b = 1 then headerBlock 2 1
  else if b = 2 then putBe32 (putBe32 (headerBlock 1 2) 12 5) 16 0xa
  else fun _ => 0

theorem smallJournal_inRing : InRing (smallJournal 1) (sStart (smallJournal 1).jhSb) := by
  have hring : (smallJournal 1).jhStart = 1 ∧ (smallJournal 1).jhEnd = 7 := ⟨rfl, rfl⟩
  rw [InRing, smallJournal_start.1, hring.1, hring.2]
  norm_num

theorem unfinished_walk : startPos (smallJournal 1) = (1, 1) ∧
    logStep unfinished (fun _ _ _ => 0) (smallJournal 1) .scan (1, 1) = some (2, 2) ∧
    logStep unfinished (fun _ _ _ => 0) (smallJournal 1) .scan (2, 2) = some (3, 2) ∧
    logStep unfinished (fun _ _ _ => 0) (smallJournal 1) .scan (3, 2) = none := by
  decide +kernel

/-- The scan takes the data block of the tag for a metadata block, and stops there. -/
theorem unfinished_scans {i : ℕ} {s t : Pos} (hs : s = (1, 1) ∨ s = (2, 2))
    (hi : walk (logStep unfinished (fun _ _ _ => 0) (smallJournal 1) .scan) i s = some t) :
    t = s ∨ t = (2, 2) ∨ t = (3, 2) := by
  obtain ⟨-, h1, h2, h3⟩ := unfinished_walk
  generalize logStep unfinished (fun _ _ _ => 0) (smallJournal 1) .scan = f at h1 h2 h3 hi
  have hlast : ∀ i t, walk f i (2, 2) = some t → t = (2, 2) ∨ t = (3, 2) := by
    intro i t hi
    rcases i with _ | _ | i
    · exact .inl (Option.some.inj hi).symm
    · rw [walk_one, h2, Option.some_inj] at hi
      exact .inr hi.symm
    · rw [walk_succ', h2, Option.bind_some, walk_succ', h3] at hi
      cases hi
  rcases hs with rfl | rfl
  · rcases i with _ | i
    · exact .inl (Option.some.inj hi).symm
    · rw [walk_succ', h1, Option.bind_some] at hi
      exact .inr (hlast i t hi)
  · exact .inr (hlast i t hi)

theorem unfinished_blocks : CommitOf (fun _ _ _ => 0) (smallJournal 1) (unfinished 1) 1 ∧
    DescrOf (fun _ _ _ => 0) (smallJournal 1) (unfinished 2) 2 ∧
    jbd2VerifyMetadataBlock (unfinished 3) = false ∧
    jbd2VerifyMetadataBlock (unfinished 4) = false := by decide +kernel

/-- Where the blocks of the log lead, and where the scan goes from them. -/
theorem unfinished_moves : ringNext (smallJournal 1) 1 = 2 ∧ toI32 (1 + 1) = 2 ∧
    advance (smallJournal 1) 1 1 = 2 ∧
    advance (smallJournal 1) 2 (jbd2CountTags (smallJournal 1) (unfinished 2) + 1) = 3 ∧
    ringAdd (smallJournal 1) 2 ((descrTags (smallJournal 1) (unfinished 2)).length + 1) = 4 := by
  decide +kernel

/-- The transaction 2 is not complete. -/
theorem unfinished_tail :
    ¬ CompleteFrom unfinished (fun _ _ _ => 0) (smallJournal 1) (2, 2) := by
  obtain ⟨-, hdescr, -, hbad⟩ := unfinished_blocks
  obtain ⟨-, -, -, -, hadd⟩ := unfinished_moves
  rintro ⟨c, hc⟩
  rw [complete_descr_iff hdescr, hadd] at hc
  exact not_complete_of_stop (logNext_stop (.inl rfl) hbad) c hc

theorem unfinished_prefix : CommittedPrefix unfinished (fun _ _ _ => 0) (smallJournal 1)
    (sStart (smallJournal 1).jhSb) (sSequence (smallJournal 1).jhSb) 1 := by
  obtain ⟨hnext, htid, -⟩ := unfinished_moves
  rw [smallJournal_start.1, smallJournal_start.2]
  refine .txn (.commit unfinished_blocks.1) ?_
  rw [hnext, htid]
  exact .stop fun c hc => unfinished_tail ⟨c, hc⟩

/-- The scan strays at the descriptor block of the transaction 2. -/
theorem unfinished_strays : FirstStray unfinished (fun _ _ _ => 0) (smallJournal 1) 1 (2, 2) := by
  obtain ⟨h0, h1, -, -⟩ := unfinished_walk
  obtain ⟨hcommit, hdescr, -, -⟩ := unfinished_blocks
  obtain ⟨hnext, -, hadv, hcount, hadd⟩ := unfinished_moves
  refine ⟨?_, .descr hdescr (by dsimp only; rw [hcount, hadd]; decide), fun i hi u hu hs => ?_⟩
  · rw [walk_one, h0]
    exact h1
  · rw [Nat.lt_one_iff.mp hi, walk_zero, h0, Option.some_inj] at hu
    subst hu
    cases hs with
    | descr hd => exact absurd (hd.type.symm.trans hcommit.type) (by decide)
    | commit _ hne => exact hne (hadv.trans hnext.symm)
    | revoke hr => exact absurd (hr.type.symm.trans hcommit.type) (by decide)

theorem unfinished_straysInTail :
    StraysInTail unfinished (fun _ _ _ => 0) (smallJournal 1) := by
  intro j s hs
  -- there is but one first stray
  have hfirst : j = 1 := by
    rcases Nat.lt_trichotomy j 1 with h | h | h
    · exact absurd hs.strays (unfinished_strays.first j h s hs.reached)
    · exact h
    · exact absurd unfinished_strays.strays (hs.first 1 h _ unfinished_strays.reached)
  subst hfirst
  obtain rfl := Option.some.inj (hs.reached.symm.trans unfinished_strays.reached)
  refine ⟨unfinished_tail, ?_⟩
  rintro ⟨i, b, tid, hi, hc⟩
  obtain ⟨-, hdescr, hbad, -⟩ := unfinished_blocks
  rcases unfinished_scans (.inr rfl) hi with hpos | hpos | hpos <;> cases hpos
  · exact absurd (hc.type.symm.trans hdescr.type) (by decide)
  · exact absurd (hc.type.symm.trans hdescr.type) (by decide)
  · exact absurd hc.header (by rw [hbad]; decide)

theorem oneTransaction_scans {i : ℕ} {s : Pos}
    (hi : walk (logStep oneTransaction (fun _ _ _ => 0) (smallJournal 1) .scan) i
      (startPos (smallJournal 1)) = some s) : s = (1, 1) ∨ s = (2, 1) := by
  obtain ⟨hstart, hstep, hstop⟩ := oneTransaction_walk
  rw [hstart] at hi
  generalize logStep oneTransaction (fun _ _ _ => 0) (smallJournal 1) .scan = f at hi hstep hstop
  rcases i with _ | _ | i
  · exact .inl (Option.some.inj hi).symm
  · rw [walk_one, hstep, Option.some_inj] at hi
    exact .inr hi.symm
  · rw [walk_succ', hstep, Option.bind_some, walk_succ', hstop] at hi
    cases hi

theorem oneTransaction_prefix : CommittedPrefix oneTransaction (fun _ _ _ => 0) (smallJournal 1)
    (sStart (smallJournal 1).jhSb) (sSequence (smallJournal 1).jhSb) 1 := by
  obtain ⟨hdescr, hcommit, -, hbad, hnext⟩ := oneTransaction_blocks
  have hadd : ringAdd (smallJournal 1) 1
      ((descrTags (smallJournal 1) (oneTransaction 1)).length + 1) = 3 := by decide +kernel
  rw [smallJournal_start.1, smallJournal_start.2]
  refine .txn (.descr hdescr (by rw [hadd]; exact .commit hcommit)) (.stop fun c hc => ?_)
  rw [hnext] at hc
  exact not_complete_of_stop (s := (4, _)) (logNext_stop (.inl rfl) hbad) c hc

theorem oneTransaction_scan (w : World) : ∃ N q,
    jbd2ReplayOnePass ⟨oneTransaction, fun _ _ _ => 0, noEntries⟩ (smallJournal 1) .scan w N =
      .done .success q := by
  obtain ⟨hstart, hstep, -⟩ := oneTransaction_walk
  exact @scan_succeeds ⟨oneTransaction, fun _ _ _ => 0, noEntries⟩ (smallJournal 1) w
    (fun _ _ => rfl) (fun _ _ => rfl) 1 (2, 1) (by rw [walk_one, hstart]; exact hstep)
    (logNext_stop (.inl rfl) oneTransaction_blocks.2.2.1)

end Ext4Fsd.Journal.ScanResult
