import Ext4Fsd.Journal.Runs
import Ext4Fsd.Lib.Writes

/-! # Restarting the replay pass

The replay pass never looks at the client file, it only writes to it: from two clients it takes the
same turns, records the same events and makes the same writes (`replayPass_onto`). A pass that is
started again on a client some of the writes have reached, with the revoke table as it was, ends
where the first one does (`replay_restarts`). -/

namespace Ext4Fsd.Journal.Restart

open Ext4Fsd.Lib.CInt Ext4Fsd.Lib.Writes
open Ext4Fsd.Journal.Format Ext4Fsd.Journal.Tags Ext4Fsd.Journal.Recovery Ext4Fsd.Journal.Effects
open Ext4Fsd.Journal.Runs

variable (env : Env) (h : Jbd2Handle)

/-! ### The writes of a run -/

/-- The offset of the `nr`-th tag of a descriptor block, the first one being number 1. -/
def tagAt (buf : Block) (nr : ℤ) : ℕ :=
  (fun off => off + jbd2TagSize h buf off)^[(nr - 1).toNat] sizeofJournalHeader

/-- The client block an event writes, and its new contents. -/
def writeOf : Event → Option (ℤ × Block)
  | .write _ descr nr fsBlocknr =>
    some (fsBlocknr,
      unescape (jbd2TestFlag h (env.log descr) (tagAt h (env.log descr) nr) jbd2FlagEscape)
        (env.log (toI32 (descr + nr))))
  | _ => none

/-- The writes recorded in `evs`, the first one first. -/
def writesOf (evs : List Event) : List (ℤ × Block) := evs.filterMap (writeOf env h)

/-- The world with another client file. -/
def onto (w : World) (client : ℤ → Block) : World := { w with client := client }

/-- The turn with another client file. -/
def turnOnto : Turn → (ℤ → Block) → Turn
  | .next p, client => .next { p with world := onto p.world client }
  | .done st p, client => .done st { p with world := onto p.world client }
  | .fault p, client => .fault { p with world := onto p.world client }

@[simp] theorem turnOnto_client (t : Turn) (c : ℤ → Block) :
    (turnOnto t c).pass.world.client = c := by
  cases t <;> rfl

@[simp] theorem turnOnto_self (t : Turn) : turnOnto t t.pass.world.client = t := by
  cases t <;> rfl

theorem tagAt_one (buf : Block) : tagAt h buf 1 = sizeofJournalHeader := rfl

theorem tagAt_succ (buf : Block) {nr : ℤ} (hnr : 1 ≤ nr) :
    tagAt h buf (nr + 1) = tagAt h buf nr + jbd2TagSize h buf (tagAt h buf nr) := by
  unfold tagAt
  rw [show (nr + 1 - 1).toNat = (nr - 1).toNat + 1 by omega, Function.iterate_succ_apply']

theorem writesOf_write (tid descr nr fs : ℤ) : writesOf env h [.write tid descr nr fs] =
    [(fs, unescape (jbd2TestFlag h (env.log descr) (tagAt h (env.log descr) nr) jbd2FlagEscape)
      (env.log (toI32 (descr + nr))))] := rfl

theorem writesOf_append (evs evs' : List Event) :
    writesOf env h (evs ++ evs') = writesOf env h evs ++ writesOf env h evs' :=
  List.filterMap_append

@[simp] theorem onto_client (w : World) : onto w w.client = w := rfl

/-! ### Operations that do not look at the client -/

/-- The operation does not look at the client file, and brings it where its writes do. -/
def Blind {β : Type} (x : World → β × World) : Prop :=
  ∀ w, ∃ evs, (x w).2.events = w.events ++ evs ∧
    ∀ c, x (onto w c) = ((x w).1, onto (x w).2 (applyWrites (writesOf env h evs) c))

section
variable {env h} {β γ : Type}

theorem blind_of_no_event {x : World → β × World} (he : ∀ w, (x w).2.events = w.events)
    (hc : ∀ w c, x (onto w c) = ((x w).1, onto (x w).2 c)) : Blind env h x :=
  fun w => ⟨[], by rw [he, List.append_nil], hc w⟩

theorem Blind.bind {x : World → β × World} {f : β → World → γ × World} (hx : Blind env h x)
    (hf : ∀ b, Blind env h (f b)) : Blind env h fun w => f (x w).1 (x w).2 := by
  intro w
  obtain ⟨evs, he, hc⟩ := hx w
  obtain ⟨evs', he', hc'⟩ := hf (x w).1 (x w).2
  refine ⟨evs ++ evs', by rw [he', he, List.append_assoc], fun c => ?_⟩
  dsimp only
  rw [hc, hc', writesOf_append, applyWrites_append]

theorem Blind.ite {p : Prop} [Decidable p] {x y : World → β × World} (hx : Blind env h x)
    (hy : Blind env h y) : Blind env h fun w => if p then x w else y w := by
  by_cases hp : p
  · simpa [hp] using hx
  · simpa [hp] using hy

theorem blind_return (b : β) : Blind env h fun w => (b, w) :=
  blind_of_no_event (fun _ => rfl) fun _ _ => rfl

end

theorem ccPinRead_blind (b : ℤ) : Blind env h fun w => ccPinRead env w b :=
  fun _ => ⟨[.pinRead b], rfl, fun _ => rfl⟩

theorem ccPreparePinWrite_blind : Blind env h fun w => ccPreparePinWrite env w :=
  blind_of_no_event (fun _ => rfl) fun _ _ => rfl

theorem revokeCheck_blind (b : ℤ) : Blind env h fun w => revokeCheck w b := by
  refine blind_of_no_event (fun w => ?_) fun w c => ?_
  · obtain ⟨evs, he, hm⟩ := (revokeCheck_effect (E := fun _ => False) (c := True) w b).events
    rw [he, List.eq_nil_iff_forall_not_mem.mpr hm, List.append_nil]
  · unfold revokeCheck jbd2RevokeEntryFind
    have htable : (onto w c).revokeTable = w.revokeTable := rfl
    rw [htable]
    cases w.revokeTable b with
    | none => rfl
    | some re =>
      simp only [Option.isSome_some, if_true]
      unfold jbd2RevokeEntryPut
      simp only [setRevoke, Function.update_self]
      split_ifs <;> rfl

/-- The write of one tag. -/
def putTag (tid b nr : ℤ) (tagp : ℕ) (w : World) : NtStatus × World :=
  (.success, { w.record (.write tid b nr (jbd2TagBlocknr h (env.log b) tagp)) with
    client := Function.update w.client (jbd2TagBlocknr h (env.log b) tagp)
      (unescape (jbd2TestFlag h (env.log b) tagp jbd2FlagEscape) (env.log (toI32 (b + nr)))) })

theorem putTag_blind (tid : ℤ) {b nr : ℤ} {tagp : ℕ} (htag : tagp = tagAt h (env.log b) nr) :
    Blind env h (putTag env h tid b nr tagp) := by
  intro w
  refine ⟨[.write tid b nr (jbd2TagBlocknr h (env.log b) tagp)], rfl, fun c => ?_⟩
  rw [writesOf_write, ← htag, applyWrites_cons, applyWrites_nil]
  simp only [putTag, onto, World.record]

theorem replayTag_blind (tid : ℤ) {b nr : ℤ} {tagp : ℕ} (htag : tagp = tagAt h (env.log b) nr) :
    Blind env h fun w => replayTag env h tid b (env.log b) tagp nr w := by
  have hput : Blind env h fun w => if !(ccPreparePinWrite env w).1 then
      (NtStatus.unexpectedIoError, (ccPreparePinWrite env w).2)
      else putTag env h tid b nr tagp (ccPreparePinWrite env w).2 :=
    (ccPreparePinWrite_blind env h).bind
      (f := fun ok w => if !ok then (.unexpectedIoError, w) else putTag env h tid b nr tagp w)
      fun _ => .ite (blind_return _) (putTag_blind env h tid htag)
  exact (ccPinRead_blind env h (toI32 (b + nr))).bind
    (f := fun ok w => if !ok then (.unexpectedIoError, w)
      else if !(ccPreparePinWrite env w).1 then (.unexpectedIoError, (ccPreparePinWrite env w).2)
      else putTag env h tid b nr tagp (ccPreparePinWrite env w).2)
    fun _ => .ite (blind_return _) hput

theorem replayLoop_blind (tid b : ℤ) : ∀ fuel tagp nr, 1 ≤ nr → tagp = tagAt h (env.log b) nr →
    Blind env h fun w => jbd2ReplayDescrBlockLoop env h tid b (env.log b) fuel tagp nr w := by
  intro fuel
  induction fuel with
  | zero => intro tagp nr _ _; exact blind_return _
  | succ fuel ih =>
    intro tagp nr hnr htag
    have hrest := ih (tagp + jbd2TagSize h (env.log b) tagp) (nr + 1) (by omega)
      (by rw [tagAt_succ h _ hnr, ← htag])
    have hlast := (replayTag_blind env h tid htag).bind
      (f := fun st w => if !st.ntSuccess then (st, w)
        else if jbd2TestFlag h (env.log b) tagp jbd2FlagLastTag then (st, w)
        else jbd2ReplayDescrBlockLoop env h tid b (env.log b) fuel
          (tagp + jbd2TagSize h (env.log b) tagp) (nr + 1) w)
      fun _ => .ite (blind_return _) (.ite (blind_return _) hrest)
    have hcheck := (revokeCheck_blind env h (jbd2TagBlocknr h (env.log b) tagp)).bind
      (f := fun entry w => if revoked tid entry then _ else _)
      fun entry => .ite (p := revoked tid entry = true) hrest hlast
    exact .ite hcheck (blind_return _)

theorem replayDescrBlock_blind (tid b : ℤ) :
    Blind env h fun w => jbd2ReplayDescrBlock env h tid b (env.log b) w :=
  replayLoop_blind env h tid b _ _ 1 le_rfl (tagAt_one h _).symm

/-! ### Turns -/

/-- The turn does not look at the client file, and brings it where its writes do. -/
def BlindTurn (t : World → Turn) : Prop :=
  ∀ w, ∃ evs, (t w).pass.world.events = w.events ++ evs ∧
    ∀ c, t (onto w c) = turnOnto (t w) (applyWrites (writesOf env h evs) c)

section
variable {env h} {β : Type}

theorem blindTurn_of_no_event {t : World → Turn} (he : ∀ w, (t w).pass.world.events = w.events)
    (hc : ∀ w c, t (onto w c) = turnOnto (t w) c) : BlindTurn env h t :=
  fun w => ⟨[], by rw [he, List.append_nil], hc w⟩

theorem Blind.bindTurn {x : World → β × World} {f : β → World → Turn} (hx : Blind env h x)
    (hf : ∀ b, BlindTurn env h (f b)) : BlindTurn env h fun w => f (x w).1 (x w).2 := by
  intro w
  obtain ⟨evs, he, hc⟩ := hx w
  obtain ⟨evs', he', hc'⟩ := hf (x w).1 (x w).2
  refine ⟨evs ++ evs', by rw [he', he, List.append_assoc], fun c => ?_⟩
  dsimp only
  rw [hc, hc', writesOf_append, applyWrites_append]

theorem BlindTurn.ite {p : Prop} [Decidable p] {t t' : World → Turn} (ht : BlindTurn env h t)
    (ht' : BlindTurn env h t') : BlindTurn env h fun w => if p then t w else t' w := by
  by_cases hp : p
  · simpa [hp] using ht
  · simpa [hp] using ht'

theorem blind_done (st : NtStatus) (p : Pass) :
    BlindTurn env h fun w => .done st { p with world := w } :=
  blindTurn_of_no_event (fun _ => rfl) fun _ _ => rfl

theorem blind_next (p : Pass) : BlindTurn env h fun w => .next { p with world := w } :=
  blindTurn_of_no_event (fun _ => rfl) fun _ _ => rfl

/-- A visit is no write. -/
theorem blind_visit (p : Pass) (type : ℤ) (i : RecoveryInfo) (tid b : ℤ) :
    BlindTurn env h fun w => .next { ({ p with world := w }).visit type with
      info := i, currTid := tid, currBlocknr := b } :=
  fun _ => ⟨[.visit p.phase p.currBlocknr type p.currTid], rfl, fun _ => rfl⟩

theorem checkedNext_blind (nrTags : ℕ) (p : Pass) (st : NtStatus) :
    BlindTurn env h fun w => checkedNext h nrTags p (st, w) :=
  .ite (p := (!st.ntSuccess) = true) (blind_done st { p with status := st })
    (blind_visit { p with status := st } jbd2DescriptorBlock p.info p.currTid
      (advance h p.currBlocknr (nrTags + 1)))

theorem descrArm_blind {p : Pass} (hph : p.phase = .replay) :
    BlindTurn env h fun w => descrArm env h (env.log p.currBlocknr) { p with world := w } := by
  obtain ⟨phase, b, tid, st, i, w⟩ := p
  have hphase : phase = .replay := hph
  subst hphase
  exact .ite (blind_done .diskCorruptError ⟨.replay, b, tid, st, i, w⟩)
    ((replayDescrBlock_blind env h tid b).bindTurn (f := fun st' w' =>
      checkedNext h (jbd2CountTags h (env.log b)) ⟨.replay, b, tid, st, i, w⟩ (st', w'))
      (checkedNext_blind _ _))

theorem blockTurn_blind {p : Pass} (hph : p.phase = .replay) :
    BlindTurn env h fun w => blockTurn env h (env.log p.currBlocknr) { p with world := w } := by
  have hcommit : BlindTurn env h fun w =>
      commitArm env h (env.log p.currBlocknr) { p with world := w } :=
    .ite (blind_done (stopStatus p.phase) p) (blind_visit p jbd2CommitBlock
      (if p.phase = .scan then { p.info with riEndTxn := p.currTid, riHasTxn := true } else p.info)
      (toI32 (p.currTid + 1)) (advance h p.currBlocknr 1))
  have hrevoke : BlindTurn env h fun w =>
      revokeArm env h (env.log p.currBlocknr) { p with world := w } := by
    unfold revokeArm
    refine .ite (blind_done (stopStatus p.phase) p) ?_
    dsimp only
    have hskip : ∀ w, (if p.phase = .scanRevoke then
        jbd2ScanRevokeEntries env h p.currTid (env.log p.currBlocknr) w
        else (some .success, w)) = (some .success, w) := fun w => if_neg (by rw [hph]; decide)
    simp only [hskip]
    exact blind_visit p jbd2RevokeBlock p.info p.currTid (advance h p.currBlocknr 1)
  unfold blockTurn
  exact .ite (p := (!jbd2VerifyMetadataBlock (env.log p.currBlocknr) ||
      decide (hSequence (env.log p.currBlocknr) ≠ p.currTid)) = true)
    (blind_done (stopStatus p.phase) p)
    (.ite (descrArm_blind hph) (.ite hcommit (.ite hrevoke (blind_next p))))

theorem passStep_blind {p : Pass} (hph : p.phase = .replay) :
    BlindTurn env h fun w => passStep env h { p with world := w } := by
  have hread := (ccPinRead_blind env h p.currBlocknr).bindTurn
    (f := fun ok w => if !ok then .done .unexpectedIoError { p with world := w }
      else blockTurn env h (env.log p.currBlocknr) { p with world := w })
    fun _ => .ite (blind_done .unexpectedIoError p) (blockTurn_blind hph)
  exact .ite (p := p.phase ≠ .scan ∧ jbd2TidCmp p.currTid p.info.riEndTxn > 0)
    (blind_done p.status p) hread

/-! ### The pass -/

theorem BlindTurn.turn {t : World → Turn} (ht : BlindTurn env h t)
    (hph : ∀ w, (t w).pass.phase = .replay) : BlindTurn env h fun w => passTurn env h (t w) := by
  intro w
  have hphase := hph w
  obtain ⟨evs, he, hc⟩ := ht w
  dsimp only
  cases htw : t w with
  | next q =>
    rw [htw] at he hc hphase
    obtain ⟨evs', he', hc'⟩ := @passStep_blind env h q hphase q.world
    refine ⟨evs ++ evs', by rw [← List.append_assoc, ← he]; exact he', fun c => ?_⟩
    rw [hc, writesOf_append, applyWrites_append]
    exact hc' _
  | done st q =>
    rw [htw] at he hc
    exact ⟨evs, he, fun c => by rw [hc]; rfl⟩
  | fault q =>
    rw [htw] at he hc
    exact ⟨evs, he, fun c => by rw [hc]; rfl⟩

/-- **The replay pass on another client** takes the same turns, and brings that client where its
writes do. -/
theorem passRun_blind {p : Pass} (hph : p.phase = .replay) (n : ℕ) :
    BlindTurn env h fun w => passRun env h { p with world := w } n := by
  induction n with
  | zero => exact blind_next p
  | succ n ih =>
    have hturn := ih.turn fun w => (passRun_phase _ n).trans hph
    unfold passRun at hturn ⊢
    simp only [Function.iterate_succ_apply']
    exact hturn

end

/-- The replay pass from the world `w` after `n` turns, `recovery_info` being `i`. -/
def replayPass (i : RecoveryInfo) (w : World) (n : ℕ) : Turn :=
  passRun env h { passStart h .replay w with info := i } n

/-- The writes of that pass so far. -/
def replayWrites (i : RecoveryInfo) (w : World) (n : ℕ) : List (ℤ × Block) :=
  writesOf env h ((replayPass env h i w n).pass.world.events.drop w.events.length)

/-- From every client the pass takes the same turns, and makes the same writes. -/
theorem replayPass_onto (i : RecoveryInfo) (w : World) (n : ℕ) (c : ℤ → Block) :
    replayPass env h i (onto w c) n =
      turnOnto (replayPass env h i w n) (applyWrites (replayWrites env h i w n) c) := by
  obtain ⟨evs, he, hc⟩ :=
    @passRun_blind env h { passStart h .replay w with info := i } rfl n w
  have hevents : (replayPass env h i w n).pass.world.events = w.events ++ evs := he
  have hwrites : replayWrites env h i w n = writesOf env h evs := by
    unfold replayWrites
    rw [hevents, List.drop_left]
  rw [hwrites]
  exact hc c

/-- The client file is where the writes of the pass bring it. -/
theorem replayPass_client (i : RecoveryInfo) (w : World) (n : ℕ) :
    (replayPass env h i w n).pass.world.client = applyWrites (replayWrites env h i w n)
    w.client := by
  have hself := replayPass_onto env h i w n w.client
  rw [onto_client] at hself
  rw [hself, turnOnto_client]

/-- **A replay pass that is restarted after any number of its writes** makes the same writes and
ends with the same client and status, whatever the log, the revoke table and the record of the
transactions; after all of them, it leaves the client as it is. -/
theorem replay_restarts (i : RecoveryInfo) (w : World) (n : ℕ) :
    (∀ k, replayPass env h i (onto w (applyWrites ((replayWrites env h i w n).take k) w.client)) n =
      replayPass env h i w n) ∧
    replayPass env h i (onto w (replayPass env h i w n).pass.world.client) n =
      replayPass env h i w n := by
  have htake : ∀ k, replayPass env h i
      (onto w (applyWrites ((replayWrites env h i w n).take k) w.client)) n =
        replayPass env h i w n := by
    intro k
    rw [replayPass_onto, applyWrites_take, ← replayPass_client, turnOnto_self]
  refine ⟨htake, ?_⟩
  have hall := htake (replayWrites env h i w n).length
  rwa [List.take_length, ← replayPass_client] at hall

end Ext4Fsd.Journal.Restart
