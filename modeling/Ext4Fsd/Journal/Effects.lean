import Ext4Fsd.Journal.Recovery

/-! # What a turn of a pass does to the world

`Effect E c t w w'` says how recovery gets from `w` to `w'`: the events recorded on the way all
satisfy `E`, the call counters do not go back, the client file changes only if `c` and the revoke
table only if `t`. There is one lemma for each operation of `Recovery`, and from these one for a
whole turn (`passStep_effect`): the events of a turn are those of `Emits`, and only a descriptor
block of the replay pass (`Replays`) touches the client.

The runs of `jbd2_replay_journal` are then followed by `recovery_invariant` and
`recovery_events`. -/

namespace Ext4Fsd.Journal.Effects

open Ext4Fsd.Lib.CInt
open Ext4Fsd.Journal.Format Ext4Fsd.Journal.Tags Ext4Fsd.Journal.Recovery

structure Effect (E : Event → Prop) (c t : Prop) (w w' : World) : Prop where
  events : ∃ evs, w'.events = w.events ++ evs ∧ ∀ e ∈ evs, E e
  pinReads : w.pinReads ≤ w'.pinReads
  pinWrites : w.pinWrites ≤ w'.pinWrites
  client : ¬ c → w'.client = w.client
  table : ¬ t → w'.revokeTable = w.revokeTable

section
variable {E E' : Event → Prop} {c c' t t' : Prop} {w w' w'' : World}

theorem Effect.refl (w : World) : Effect E c t w w :=
  ⟨⟨[], by simp, by simp⟩, le_rfl, le_rfl, fun _ => rfl, fun _ => rfl⟩

theorem Effect.trans (h : Effect E c t w w') (h' : Effect E c t w' w'') : Effect E c t w w'' := by
  obtain ⟨evs, he, hE⟩ := h.events
  obtain ⟨evs', he', hE'⟩ := h'.events
  refine ⟨⟨evs ++ evs', by rw [he', he, List.append_assoc], fun e hm => ?_⟩,
    h.pinReads.trans h'.pinReads, h.pinWrites.trans h'.pinWrites,
    fun hc => (h'.client hc).trans (h.client hc), fun ht => (h'.table ht).trans (h.table ht)⟩
  exact (List.mem_append.mp hm).elim (hE e) (hE' e)

theorem Effect.mono (h : Effect E c t w w') (hE : ∀ e, E e → E' e) (hc : c → c') (ht : t → t') :
    Effect E' c' t' w w' := by
  obtain ⟨evs, he, hm⟩ := h.events
  exact ⟨⟨evs, he, fun e h => hE e (hm e h)⟩, h.pinReads, h.pinWrites,
    fun h' => h.client (mt hc h'), fun h' => h.table (mt ht h')⟩

/-- An event recorded along the way is one of `E`. -/
theorem Effect.mem_events (h : Effect E c t w w') {e : Event} (he : e ∈ w'.events) :
    e ∈ w.events ∨ E e := by
  obtain ⟨evs, heq, hE⟩ := h.events
  rw [heq] at he
  exact (List.mem_append.mp he).imp id (hE e)

theorem Effect.events_subset (h : Effect E c t w w') {e : Event} (he : e ∈ w.events) :
    e ∈ w'.events := by
  obtain ⟨evs, heq, -⟩ := h.events
  rw [heq]
  exact List.mem_append_left _ he

end

theorem record_effect {E : Event → Prop} {c t : Prop} (w : World) {e : Event} (he : E e) :
    Effect E c t w (w.record e) :=
  ⟨⟨[e], rfl, by simpa using he⟩, le_rfl, le_rfl, fun _ => rfl, fun _ => rfl⟩

variable (env : Env) (h : Jbd2Handle)

/-! ### The helpers -/

theorem ccPinRead_effect {E : Event → Prop} {c t : Prop} (w : World) {b : ℤ} (he : E (.pinRead b)) :
    Effect E c t w (ccPinRead env w b).2 :=
  ⟨⟨[.pinRead b], rfl, by simpa using he⟩, Nat.le_succ _, le_rfl, fun _ => rfl, fun _ => rfl⟩

theorem ccPreparePinWrite_effect {E : Event → Prop} {c t : Prop} (w : World) :
    Effect E c t w (ccPreparePinWrite env w).2 :=
  ⟨⟨[], by simp [ccPreparePinWrite], by simp⟩, le_rfl, Nat.le_succ _, fun _ => rfl, fun _ => rfl⟩

theorem setRevoke_effect {E : Event → Prop} {c : Prop} (w : World) (b : ℤ)
    (re : Option Jbd2RevokeEntry) : Effect E c True w (setRevoke w b re) :=
  ⟨⟨[], by simp [setRevoke], by simp⟩, le_rfl, le_rfl, fun _ => rfl, fun ht => (ht trivial).elim⟩

theorem put_effect {E : Event → Prop} {c : Prop} (w : World) (b : ℤ) :
    Effect E c True w (jbd2RevokeEntryPut w b) := by
  unfold jbd2RevokeEntryPut
  split
  · exact Effect.refl w
  · split_ifs <;> exact setRevoke_effect _ _ _

theorem get_effect {E : Event → Prop} {c : Prop} (w : World) (b : ℤ) :
    Effect E c True w (jbd2RevokeEntryGet env w b).2 := by
  have hcount : Effect E c True w { w with allocs := w.allocs + 1 } :=
    ⟨⟨[], by simp, by simp⟩, le_rfl, le_rfl, fun _ => rfl, fun _ => rfl⟩
  unfold jbd2RevokeEntryGet
  dsimp only
  split_ifs
  · exact hcount
  · cases w.revokeTable b with
    | none => exact hcount
    | some re => exact hcount.trans (setRevoke_effect _ _ _)

theorem revokeCheck_effect {E : Event → Prop} {c : Prop} (w : World) (b : ℤ) :
    Effect E c True w (revokeCheck w b).2 := by
  have hfind : Effect E c True w (jbd2RevokeEntryFind w b).2 := by
    unfold jbd2RevokeEntryFind
    split
    · exact Effect.refl w
    · exact setRevoke_effect _ _ _
  unfold revokeCheck
  dsimp only
  split_ifs
  · exact hfind.trans (put_effect _ _)
  · exact hfind

/-- A table without entries suppresses nothing and stays as it is. -/
theorem revokeCheck_empty {w : World} {b : ℤ} (hb : w.revokeTable b = none) :
    revokeCheck w b = (none, w) := by
  unfold revokeCheck jbd2RevokeEntryFind
  simp [hb]

theorem csumLoop_effect {c t : Prop} (b : ℤ) (buf : Block) : ∀ fuel tagp nr w,
    Effect (fun e => ∃ k, e = .pinRead (toI32 (b + k))) c t w
      (jbd2BlocksCsumVerifyLoop env h b buf fuel tagp nr w).2 := by
  intro fuel
  induction fuel with
  | zero => intro tagp nr w; exact Effect.refl w
  | succ fuel ih =>
    intro tagp nr w
    have hread := ccPinRead_effect env (E := fun e => ∃ k, e = .pinRead (toI32 (b + k))) (c := c)
      (t := t) w ⟨nr, rfl⟩
    rw [jbd2BlocksCsumVerifyLoop]
    dsimp only
    generalize (if jbd2HasFeatureCsum2 h.jhSb then _ else _) = calculated
    split_ifs
    · exact hread
    · exact hread
    · exact hread
    · exact hread.trans (ih _ _ _)
    · exact Effect.refl w

/-- The block has room for a tag after its header. -/
def Room (size : ℤ) : Prop := (sizeofJournalHeader : ℤ) + jbd2MinTagSize h ≤ size

instance (size : ℤ) : Decidable (Room h size) := by unfold Room; infer_instance

theorem csumLoop_no_room (hroom : ¬ Room h h.jhBlocksize) (b : ℤ) (buf : Block) (fuel : ℕ) (nr : ℤ)
    (w : World) :
    jbd2BlocksCsumVerifyLoop env h b buf fuel sizeofJournalHeader nr w = (.success, w) := by
  cases fuel with
  | zero => rfl
  | succ fuel => rw [jbd2BlocksCsumVerifyLoop, if_neg (by exact_mod_cast hroom)]

theorem csumVerify_effect {c t : Prop} (b : ℤ) (buf : Block) (w : World) :
    Effect (fun e => jbd2HasCsumV2or3 h.jhSb = true ∧ Room h h.jhBlocksize ∧
        ∃ k, e = .pinRead (toI32 (b + k))) c t w (jbd2BlocksCsumVerify env h b buf w).2 := by
  unfold jbd2BlocksCsumVerify
  by_cases hcs : jbd2HasCsumV2or3 h.jhSb = true
  · rw [if_neg (by simp [hcs])]
    by_cases hroom : Room h h.jhBlocksize
    · exact (csumLoop_effect env h b buf _ _ _ w).mono (fun e he => ⟨hcs, hroom, he⟩) id id
    · rw [csumLoop_no_room env h hroom]
      exact Effect.refl w
  · rw [if_pos (by simp [hcs])]
    exact Effect.refl w

/-- What the replay of one descriptor block may record. -/
def ReplayEvent (tid b : ℤ) (e : Event) : Prop :=
  ∃ k, e = .pinRead (toI32 (b + k)) ∨ ∃ fs, e = .write tid b k fs

theorem replayTag_effect (tid b : ℤ) (buf : Block) (tagp : ℕ) (nr : ℤ) (w : World) :
    Effect (ReplayEvent tid b) True True w (replayTag env h tid b buf tagp nr w).2 := by
  have hread := ccPinRead_effect env (E := ReplayEvent tid b) (c := True) (t := True) w
    ⟨nr, .inl rfl⟩
  unfold replayTag
  dsimp only
  split_ifs
  · exact hread
  · exact hread.trans (ccPreparePinWrite_effect env _)
  · refine hread.trans ((ccPreparePinWrite_effect env _).trans ?_)
    exact ⟨⟨[.write tid b nr (jbd2TagBlocknr h buf tagp)], rfl, by simp [ReplayEvent]⟩, le_rfl,
      le_rfl, fun hc => (hc trivial).elim, fun ht => (ht trivial).elim⟩

theorem replayLoop_effect (tid b : ℤ) (buf : Block) : ∀ fuel tagp nr w,
    Effect (ReplayEvent tid b) True True w
      (jbd2ReplayDescrBlockLoop env h tid b buf fuel tagp nr w).2 := by
  intro fuel
  induction fuel with
  | zero => intro tagp nr w; exact Effect.refl w
  | succ fuel ih =>
    intro tagp nr w
    have hcheck := revokeCheck_effect (E := ReplayEvent tid b) (c := True) w
      (jbd2TagBlocknr h buf tagp)
    have htag := hcheck.trans (replayTag_effect env h tid b buf tagp nr _)
    rw [jbd2ReplayDescrBlockLoop]
    dsimp only
    split_ifs
    · exact hcheck.trans (ih _ _ _)
    · exact htag
    · exact htag
    · exact htag.trans (ih _ _ _)
    · exact Effect.refl w

theorem replayDescrBlock_effect (tid b : ℤ) (buf : Block) (w : World) :
    Effect (fun e => Room h (tagLimit h) ∧ ReplayEvent tid b e) True True w
      (jbd2ReplayDescrBlock env h tid b buf w).2 := by
  unfold jbd2ReplayDescrBlock
  by_cases hroom : Room h (tagLimit h)
  · exact (replayLoop_effect env h tid b buf _ _ _ w).mono (fun e he => ⟨hroom, he⟩) id id
  · cases h.jhBlocksize.toNat with
    | zero => exact Effect.refl w
    | succ fuel =>
      rw [jbd2ReplayDescrBlockLoop, if_neg (by exact_mod_cast hroom)]
      exact Effect.refl w

theorem scanRevokeLoop_effect {E : Event → Prop} {c : Prop} (tid : ℤ) (buf : Block) (rcount : ℤ) :
    ∀ fuel bufp w, Effect E c True w
      (jbd2ScanRevokeEntriesLoop env h tid buf rcount fuel bufp w).2 := by
  intro fuel
  induction fuel with
  | zero => intro bufp w; exact Effect.refl w
  | succ fuel ih =>
    intro bufp w
    rw [jbd2ScanRevokeEntriesLoop]
    dsimp only
    split_ifs
    · have hget := get_effect env (E := E) (c := c) w (jbd2RevokeEntryBlocknr h buf bufp)
      generalize jbd2RevokeEntryGet env w (jbd2RevokeEntryBlocknr h buf bufp) = r at hget
      obtain ⟨g, w'⟩ := r
      cases g with
      | noMemory => exact hget
      | fault => exact hget
      | entry re =>
        exact hget.trans ((setRevoke_effect _ _ _).trans ((put_effect _ _).trans (ih _ _)))
    · exact Effect.refl w

theorem scanRevokeEntries_effect {E : Event → Prop} {c : Prop} (tid : ℤ) (buf : Block) (w : World) :
    Effect E c True w (jbd2ScanRevokeEntries env h tid buf w).2 := by
  unfold jbd2ScanRevokeEntries
  split_ifs
  · exact Effect.refl w
  · exact scanRevokeLoop_effect env h tid buf _ _ _ w

/-! ### One turn -/

/-- The guard of the later passes stops the pass before it reads. -/
def Beyond (p : Pass) : Prop := p.phase ≠ .scan ∧ jbd2TidCmp p.currTid p.info.riEndTxn > 0

instance (p : Pass) : Decidable (Beyond p) := by unfold Beyond; infer_instance

/-- The block has a proper header with the given type and tid. -/
structure HeaderOf (type : ℤ) (buf : Block) (tid : ℤ) : Prop where
  header : jbd2VerifyMetadataBlock buf = true
  sequence : hSequence buf = tid
  type : hBlocktype buf = type

/-- A descriptor block of the transaction `tid` that verifies. -/
structure DescrOf (chksum : Chksum) (h : Jbd2Handle) (buf : Block) (tid : ℤ) : Prop extends
    HeaderOf jbd2DescriptorBlock buf tid where
  csum : jbd2VerifyDescrBlock chksum h buf = true

/-- A commit block of the transaction `tid` that verifies. -/
structure CommitOf (chksum : Chksum) (h : Jbd2Handle) (buf : Block) (tid : ℤ) : Prop extends
    HeaderOf jbd2CommitBlock buf tid where
  csum : jbd2VerifyCommitBlock chksum h buf = true

/-- A revoke block of the transaction `tid` that verifies. -/
structure RevokeOf (chksum : Chksum) (h : Jbd2Handle) (buf : Block) (tid : ℤ) : Prop extends
    HeaderOf jbd2RevokeBlock buf tid where
  csum : jbd2VerifyRevokeBlock chksum h buf = true

instance (type : ℤ) (buf : Block) (tid : ℤ) : Decidable (HeaderOf type buf tid) :=
  decidable_of_iff
    (jbd2VerifyMetadataBlock buf = true ∧ hSequence buf = tid ∧ hBlocktype buf = type)
    ⟨fun ⟨h1, h2, h3⟩ => ⟨h1, h2, h3⟩, fun h => ⟨h.header, h.sequence, h.type⟩⟩

instance (chksum : Chksum) (h : Jbd2Handle) (buf : Block) (tid : ℤ) :
    Decidable (DescrOf chksum h buf tid) :=
  decidable_of_iff
    (HeaderOf jbd2DescriptorBlock buf tid ∧ jbd2VerifyDescrBlock chksum h buf = true)
    ⟨fun ⟨h1, h2⟩ => ⟨h1, h2⟩, fun hd => ⟨hd.toHeaderOf, hd.csum⟩⟩

instance (chksum : Chksum) (h : Jbd2Handle) (buf : Block) (tid : ℤ) :
    Decidable (CommitOf chksum h buf tid) :=
  decidable_of_iff
    (HeaderOf jbd2CommitBlock buf tid ∧ jbd2VerifyCommitBlock chksum h buf = true)
    ⟨fun ⟨h1, h2⟩ => ⟨h1, h2⟩, fun hc => ⟨hc.toHeaderOf, hc.csum⟩⟩

/-- The turn replays a descriptor block. -/
def Replays (p : Pass) : Prop :=
  p.phase = .replay ∧ DescrOf env.chksum h (env.log p.currBlocknr) p.currTid

/-- The events a turn from `p` may record. -/
inductive Emits (p : Pass) : Event → Prop
  | head : Emits p (.pinRead p.currBlocknr)
  | visit (type : ℤ) : Emits p (.visit p.phase p.currBlocknr type p.currTid)
  | csumData (nr : ℤ) (hphase : p.phase = .scan) (hcsum : jbd2HasCsumV2or3 h.jhSb = true)
      (hroom : Room h h.jhBlocksize) : Emits p (.pinRead (toI32 (p.currBlocknr + nr)))
  | replayData (nr : ℤ) (hr : Replays env h p) (hroom : Room h (tagLimit h)) :
      Emits p (.pinRead (toI32 (p.currBlocknr + nr)))
  | write (nr fs : ℤ) (hr : Replays env h p) (hroom : Room h (tagLimit h)) :
      Emits p (.write p.currTid p.currBlocknr nr fs)

variable {env h} in
theorem Emits.visit_phase {p : Pass} {phase : Phase} {b type tid : ℤ}
    (he : Emits env h p (.visit phase b type tid)) : phase = p.phase := by
  cases he
  rfl

/-- The effect of a turn from `p`. -/
abbrev TurnEffect (p : Pass) (w w' : World) : Prop :=
  Effect (Emits env h p) (Replays env h p) (p.phase = .scanRevoke ∨ Replays env h p) w w'

theorem passStep_of_beyond {p : Pass} (hb : Beyond p) : passStep env h p = .done p.status p := by
  unfold passStep
  exact if_pos hb

/-- A turn past the guard reads the block and looks at it. -/
theorem passStep_of_not_beyond {p : Pass} (hb : ¬ Beyond p) :
    passStep env h p =
      if env.oracle.pinRead p.world.pinReads then
        blockTurn env h (env.log p.currBlocknr)
          { p with world := (ccPinRead env p.world p.currBlocknr).2 }
      else .done .unexpectedIoError
        { p with world := (ccPinRead env p.world p.currBlocknr).2 } := by
  unfold Beyond at hb
  unfold passStep
  rw [if_neg hb]
  dsimp only
  cases hr : env.oracle.pinRead p.world.pinReads <;> simp [ccPinRead, hr]

theorem recoveryStep_world (p : Pass) :
    (recoveryStep env h (.pass p)).world.events = (passStep env h p).pass.world.events := by
  unfold recoveryStep
  dsimp only
  cases hp : passStep env h p with
  | next p' => rfl
  | fault p' => rfl
  | done st p' =>
    dsimp only [afterPass]
    cases st.nonzero <;> cases p.phase.next <;> rfl

variable {env h}

theorem visit_effect {p q : Pass} (hq : q.currBlocknr = p.currBlocknr) (ht : q.currTid = p.currTid)
    (hp : q.phase = p.phase) (type : ℤ) :
    TurnEffect env h p q.world (q.visit type).world := by
  refine record_effect q.world ?_
  rw [hq, ht, hp]
  exact .visit type

theorem checkedNext_effect {p q : Pass} (hq : q.currBlocknr = p.currBlocknr)
    (ht : q.currTid = p.currTid) (hp : q.phase = p.phase) (nrTags : ℕ) {r : NtStatus × World}
    (hr : TurnEffect env h p q.world r.2) :
    TurnEffect env h p q.world (checkedNext h nrTags q r).pass.world := by
  unfold checkedNext
  dsimp only
  split_ifs
  · exact hr
  · exact hr.trans (visit_effect (q := { q with status := r.1, world := r.2 }) hq ht hp _)

theorem descrArm_effect {p : Pass} {w : World}
    (hm : jbd2VerifyMetadataBlock (env.log p.currBlocknr) = true)
    (hs : hSequence (env.log p.currBlocknr) = p.currTid)
    (hd : hBlocktype (env.log p.currBlocknr) = jbd2DescriptorBlock) :
    TurnEffect env h p w
      (descrArm env h (env.log p.currBlocknr) { p with world := w }).pass.world := by
  unfold descrArm
  split_ifs with hv
  · exact Effect.refl w
  · cases hph : p.phase with
    | scan =>
      refine checkedNext_effect (p := p) (q := ⟨.scan, _, _, _, _, w⟩) rfl rfl hph.symm _ ?_
      refine (csumVerify_effect env h p.currBlocknr _ w).mono ?_ id id
      rintro e ⟨hcs, hroom, k, rfl⟩
      exact .csumData k hph hcs hroom
    | scanRevoke =>
      exact visit_effect (p := p) (q := ⟨.scanRevoke, _, _, _, _, w⟩) rfl rfl hph.symm _
    | replay =>
      have hrep : Replays env h p := ⟨hph, ⟨hm, hs, hd⟩, by simpa using hv⟩
      refine checkedNext_effect (p := p) (q := ⟨.replay, _, _, _, _, w⟩) rfl rfl hph.symm _ ?_
      refine (replayDescrBlock_effect env h p.currTid p.currBlocknr _ w).mono ?_ (fun _ => hrep)
        (fun _ => .inr hrep)
      rintro e ⟨hroom, k, rfl | ⟨fs, rfl⟩⟩
      · exact .replayData k hrep hroom
      · exact .write k fs hrep hroom

theorem commitArm_effect {p : Pass} {w : World} (buf : Block) :
    TurnEffect env h p w (commitArm env h buf { p with world := w }).pass.world := by
  unfold commitArm
  by_cases hv : jbd2VerifyCommitBlock env.chksum h buf = true
  · rw [if_neg (by simp [hv])]
    exact visit_effect (p := p) (q := { p with world := w }) rfl rfl rfl _
  · rw [if_pos (by simp [hv])]
    exact Effect.refl w

theorem revokeArm_effect {p : Pass} {w : World} (buf : Block) :
    TurnEffect env h p w (revokeArm env h buf { p with world := w }).pass.world := by
  have hscan : TurnEffect env h p w (if p.phase = .scanRevoke then
      jbd2ScanRevokeEntries env h p.currTid buf w else (some .success, w)).2 := by
    by_cases hph : p.phase = .scanRevoke
    · rw [if_pos hph]
      exact (scanRevokeEntries_effect env h (E := Emits env h p) (c := Replays env h p)
        p.currTid buf w).mono (fun _ he => he) (fun hc => hc) (fun _ => .inl hph)
    · rw [if_neg hph]
      exact Effect.refl w
  unfold revokeArm
  by_cases hv : jbd2VerifyRevokeBlock env.chksum h buf = true
  · rw [if_neg (by simp [hv])]
    dsimp only
    generalize (if p.phase = .scanRevoke then
      jbd2ScanRevokeEntries env h p.currTid buf w else (some .success, w)) = r at hscan ⊢
    split_ifs
    · exact hscan
    · exact hscan.trans (visit_effect (p := p) (q := { p with world := r.2 }) rfl rfl rfl _)
  · rw [if_pos (by simp [hv])]
    exact Effect.refl w

theorem blockTurn_effect {p : Pass} {w : World} :
    TurnEffect env h p w
      (blockTurn env h (env.log p.currBlocknr) { p with world := w }).pass.world := by
  unfold blockTurn
  split_ifs with hm hd
  · exact Effect.refl w
  · rw [Bool.or_eq_true, not_or] at hm
    exact descrArm_effect (by simpa using hm.1) (by simpa using hm.2) hd
  · exact commitArm_effect _
  · exact revokeArm_effect _
  · exact Effect.refl w

/-- **The effect of a turn.** -/
theorem passStep_effect (p : Pass) :
    TurnEffect env h p p.world (passStep env h p).pass.world := by
  by_cases hb : Beyond p
  · rw [passStep_of_beyond env h hb]
    exact Effect.refl _
  · have hread := ccPinRead_effect env (E := Emits env h p) (c := Replays env h p)
      (t := p.phase = .scanRevoke ∨ Replays env h p) p.world .head
    rw [passStep_of_not_beyond env h hb]
    split_ifs
    · exact hread.trans blockTurn_effect
    · exact hread

theorem checkedNext_phase (nrTags : ℕ) (p : Pass) (r : NtStatus × World) :
    (checkedNext h nrTags p r).pass.phase = p.phase := by
  unfold checkedNext
  dsimp only
  split_ifs <;> rfl

theorem descrArm_phase (buf : Block) (p : Pass) : (descrArm env h buf p).pass.phase = p.phase := by
  obtain ⟨phase, b, tid, st, i, w⟩ := p
  unfold descrArm
  split_ifs
  · rfl
  · cases phase with
    | scan => exact checkedNext_phase _ _ _
    | scanRevoke => rfl
    | replay => exact checkedNext_phase _ _ _

theorem commitArm_phase (buf : Block) (p : Pass) :
    (commitArm env h buf p).pass.phase = p.phase := by
  unfold commitArm
  split_ifs <;> rfl

theorem revokeArm_phase (buf : Block) (p : Pass) :
    (revokeArm env h buf p).pass.phase = p.phase := by
  unfold revokeArm
  dsimp only
  generalize (if p.phase = .scanRevoke then
    jbd2ScanRevokeEntries env h p.currTid buf p.world else (some .success, p.world)) = r
  split_ifs <;> rfl

/-- A turn does not change the phase. -/
theorem passStep_phase (p : Pass) : (passStep env h p).pass.phase = p.phase := by
  by_cases hb : Beyond p
  · rw [passStep_of_beyond env h hb]
    rfl
  · rw [passStep_of_not_beyond env h hb]
    unfold blockTurn
    split_ifs
    · rfl
    · exact descrArm_phase _ _
    · exact commitArm_phase _ _
    · exact revokeArm_phase _ _
    · rfl
    · rfl

/-- A turn past the guard reads its block. -/
theorem head_event {p : Pass} (hb : ¬ Beyond p) :
    .pinRead p.currBlocknr ∈ (passStep env h p).pass.world.events := by
  have hread : .pinRead p.currBlocknr ∈ (ccPinRead env p.world p.currBlocknr).2.events :=
    List.mem_append_right _ (List.mem_singleton.mpr rfl)
  rw [passStep_of_not_beyond env h hb]
  split_ifs
  · exact blockTurn_effect.events_subset hread
  · exact hread

/-! ### Descriptor blocks -/

theorem checkedNext_events {nrTags : ℕ} {p : Pass} {r : NtStatus × World} {e : Event}
    (he : e ∈ r.2.events) : e ∈ (checkedNext h nrTags p r).pass.world.events := by
  unfold checkedNext
  dsimp only
  split_ifs
  · exact he
  · exact List.mem_append_left _ he

/-- The turn at a descriptor block of the expected transaction. -/
theorem passStep_descr {p : Pass} (hb : ¬ Beyond p)
    (hread : env.oracle.pinRead p.world.pinReads = true)
    (hd : DescrOf env.chksum h (env.log p.currBlocknr) p.currTid) :
    passStep env h p = descrArm env h (env.log p.currBlocknr)
      { p with world := (ccPinRead env p.world p.currBlocknr).2 } := by
  rw [passStep_of_not_beyond env h hb, if_pos hread]
  unfold blockTurn
  rw [if_neg (by simp [hd.header, hd.sequence]), if_pos hd.type]

theorem csum_event_of_descr {p : Pass} (hph : p.phase = .scan)
    (hread : env.oracle.pinRead p.world.pinReads = true)
    (hd : DescrOf env.chksum h (env.log p.currBlocknr) p.currTid) {e : Event}
    (he : e ∈ (jbd2BlocksCsumVerify env h p.currBlocknr (env.log p.currBlocknr)
      (ccPinRead env p.world p.currBlocknr).2).2.events) :
    e ∈ (passStep env h p).pass.world.events := by
  rw [passStep_descr (fun hb => hb.1 hph) hread hd]
  unfold descrArm
  rw [if_neg (by simp [hd.csum])]
  generalize jbd2BlocksCsumVerify env h _ _ _ = r at he ⊢
  dsimp only
  rw [hph]
  exact checkedNext_events he

theorem replay_event_of_descr {p : Pass} (hph : p.phase = .replay) (hb : ¬ Beyond p)
    (hread : env.oracle.pinRead p.world.pinReads = true)
    (hd : DescrOf env.chksum h (env.log p.currBlocknr) p.currTid) {e : Event}
    (he : e ∈ (jbd2ReplayDescrBlock env h p.currTid p.currBlocknr (env.log p.currBlocknr)
      (ccPinRead env p.world p.currBlocknr).2).2.events) :
    e ∈ (passStep env h p).pass.world.events := by
  rw [passStep_descr hb hread hd]
  unfold descrArm
  rw [if_neg (by simp [hd.csum])]
  dsimp only
  rw [hph]
  exact checkedNext_events he

/-- The data checksums read the block after the descriptor block, if there is room for a tag. -/
theorem csumVerify_reads (b : ℤ) (buf : Block) (w : World)
    (hcs : jbd2HasCsumV2or3 h.jhSb = true) (hroom : Room h h.jhBlocksize) :
    .pinRead (toI32 (b + 1)) ∈ (jbd2BlocksCsumVerify env h b buf w).2.events := by
  unfold jbd2BlocksCsumVerify
  rw [if_neg (by simp [hcs])]
  obtain ⟨fuel, hfuel⟩ : ∃ fuel, h.jhBlocksize.toNat = fuel + 1 := by
    refine Nat.exists_eq_succ_of_ne_zero ?_
    unfold Room sizeofJournalHeader at hroom
    omega
  have hread : .pinRead (toI32 (b + 1)) ∈ (ccPinRead env w (toI32 (b + 1))).2.events :=
    List.mem_append_right _ (List.mem_singleton.mpr rfl)
  have hrest := fun tagp =>
    (csumLoop_effect env h (c := True) (t := True) b buf fuel tagp (1 + 1)
      (ccPinRead env w (toI32 (b + 1))).2).events_subset hread
  rw [hfuel, jbd2BlocksCsumVerifyLoop, if_pos (by exact_mod_cast hroom)]
  dsimp only
  generalize (if jbd2HasFeatureCsum2 h.jhSb then _ else _) = calculated
  split_ifs
  · exact hread
  · exact hread
  · exact hread
  · exact hrest _

/-- The replay of a descriptor block reads the block after it and writes it, if there is room for a
tag and no block is revoked. -/
theorem replayDescrBlock_events (tid b : ℤ) (buf : Block) {w : World}
    (htable : ∀ b, w.revokeTable b = none) (hread : env.oracle.pinRead w.pinReads = true)
    (hroom : Room h (tagLimit h)) :
    .pinRead (toI32 (b + 1)) ∈ (jbd2ReplayDescrBlock env h tid b buf w).2.events ∧
      (env.oracle.pinWrite w.pinWrites = true →
        ∃ fs, .write tid b 1 fs ∈ (jbd2ReplayDescrBlock env h tid b buf w).2.events) := by
  unfold jbd2ReplayDescrBlock
  obtain ⟨fuel, hfuel⟩ : ∃ fuel, h.jhBlocksize.toNat = fuel + 1 := by
    refine Nat.exists_eq_succ_of_ne_zero ?_
    unfold Room sizeofJournalHeader tagLimit at hroom
    split_ifs at hroom <;> omega
  have hsub : ∀ e ∈ (replayTag env h tid b buf sizeofJournalHeader 1 w).2.events,
      e ∈ (jbd2ReplayDescrBlockLoop env h tid b buf (fuel + 1)
        sizeofJournalHeader 1 w).2.events := by
    intro e he
    rw [jbd2ReplayDescrBlockLoop, if_pos (by exact_mod_cast hroom)]
    dsimp only
    rw [revokeCheck_empty (htable _)]
    dsimp only
    rw [if_neg (by simp [revoked])]
    split_ifs
    · exact he
    · exact he
    · exact (replayLoop_effect env h tid b buf _ _ _ _).events_subset he
  rw [hfuel]
  refine ⟨hsub _ ?_, fun hwrite => ⟨jbd2TagBlocknr h buf sizeofJournalHeader, hsub _ ?_⟩⟩
  · unfold replayTag
    dsimp only
    split_ifs <;> simp [ccPinRead, ccPreparePinWrite, World.record]
  · unfold replayTag
    dsimp only
    have h1 : (ccPinRead env w (toI32 (b + 1))).1 = true := hread
    have h2 : (ccPreparePinWrite env (ccPinRead env w (toI32 (b + 1))).2).1 = true := hwrite
    rw [if_neg (by simp [h1]), if_neg (by simp [h2])]
    simp [World.record]

/-! ### Runs -/

theorem jbd2ReplayJournal_succ (w : World) (n : ℕ) :
    jbd2ReplayJournal env h w (n + 1) = recoveryStep env h (jbd2ReplayJournal env h w n) :=
  Function.iterate_succ_apply' _ _ _

/-- How a step of recovery comes to a pass: by a turn that goes on, or by the end of a pass with a
status other than success. -/
theorem recoveryStep_pass {r : RecoveryState} {q : Pass} (hs : recoveryStep env h r = .pass q) :
    ∃ p, r = .pass p ∧ (passStep env h p = .next q ∨
      ∃ st p' phase, passStep env h p = .done st p' ∧ st.nonzero = true ∧
        p.phase.next = some phase ∧ q = passStart h phase p'.world) := by
  cases r with
  | done st w => cases hs
  | fault w => cases hs
  | pass p =>
    refine ⟨p, rfl, ?_⟩
    unfold recoveryStep at hs
    dsimp only at hs
    cases hp : passStep env h p with
    | next p' => rw [hp] at hs; cases hs; exact .inl rfl
    | fault p' => rw [hp] at hs; cases hs
    | done st p' =>
      rw [hp] at hs
      refine .inr ⟨st, p', ?_⟩
      dsimp only [afterPass] at hs
      cases hst : st.nonzero <;> cases hph : p.phase.next <;> rw [hst, hph] at hs <;> cases hs
      exact ⟨_, rfl, rfl, rfl, rfl⟩

/-- **The invariant rule for the passes of a run.** -/
theorem recovery_invariant {I : Pass → Prop} {w : World} (h0 : I (passStart h .scan w))
    (hnext : ∀ p p', I p → passStep env h p = .next p' → I p')
    (hpass : ∀ p st p' phase, I p → passStep env h p = .done st p' → st.nonzero = true →
      p.phase.next = some phase → I (passStart h phase p'.world)) :
    ∀ n p, jbd2ReplayJournal env h w n = .pass p → I p := by
  intro n
  induction n with
  | zero => intro p hp; cases hp; exact h0
  | succ n ih =>
    intro q hq
    rw [jbd2ReplayJournal_succ] at hq
    obtain ⟨p, hp, hs | ⟨st, p', phase, hs, hst, hph, rfl⟩⟩ := recoveryStep_pass hq
    · exact hnext p q (ih p hp) hs
    · exact hpass p st p' phase (ih p hp) hs hst hph

theorem recovery_event {w : World} {n : ℕ} {p : Pass}
    (hp : jbd2ReplayJournal env h w n = .pass p) {e : Event}
    (he : e ∈ (passStep env h p).pass.world.events) :
    e ∈ (jbd2ReplayJournal env h w (n + 1)).world.events := by
  rw [jbd2ReplayJournal_succ, hp, recoveryStep_world]
  exact he

/-- The events of a run are those of its turns. -/
theorem recovery_events {w : World} : ∀ n, ∀ e ∈ (jbd2ReplayJournal env h w n).world.events,
    e ∈ w.events ∨
      ∃ m p, jbd2ReplayJournal env h w m = .pass p ∧ ¬ Beyond p ∧ Emits env h p e := by
  intro n
  induction n with
  | zero => intro e he; exact .inl he
  | succ n ih =>
    intro e he
    rw [jbd2ReplayJournal_succ] at he
    cases hr : jbd2ReplayJournal env h w n with
    | done st w' => rw [hr] at he ih; exact ih e he
    | fault w' => rw [hr] at he ih; exact ih e he
    | pass p =>
      rw [hr] at he ih
      rw [recoveryStep_world] at he
      by_cases hb : Beyond p
      · rw [passStep_of_beyond env h hb] at he
        exact ih e he
      · rcases (passStep_effect p).mem_events he with h1 | h1
        · exact ih e h1
        · exact .inr ⟨n, p, hr, hb, h1⟩

end Ext4Fsd.Journal.Effects
