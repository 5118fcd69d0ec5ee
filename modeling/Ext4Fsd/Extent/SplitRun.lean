import Ext4Fsd.Extent.SplitTree

/-! # The run of a split

`splitNode_spec` is `ext4_ext_split_node`: on success the new nodes are entered in the level above,
on a failure the blocks taken so far are given back. `afterSplit_run` is what the caller then does
with the new path entries. -/

namespace Ext4Fsd.Extent.SplitRun

open Ext4Fsd.Lib.Fallible Ext4Fsd.Extent.Layout Ext4Fsd.Extent.Store Ext4Fsd.Extent.Search
open Ext4Fsd.Extent.Insert Ext4Fsd.Extent.Tree Ext4Fsd.Extent.Keys Ext4Fsd.Extent.InsertLeaf
open Ext4Fsd.Extent.Split

/-! ### An index entry -/

/-- The position a new index entry takes beside the entry `p` of the path. -/
def idxPlace (eh : Node) (p key : ℕ) : ℕ := if (eh.slots p).firstBlock < key then p + 1 else p

/-- The index entry as it is written over a slot. -/
def writeIdx (key blk : ℕ) (slot : Slot) : Slot :=
  ext4IdxStorePblock { slot with firstBlock := key } blk

/-- The node with a new index entry at position `x`. -/
def indexed (eh : Node) (x key blk : ℕ) : Node := fillGap (makeGap eh x) x (writeIdx key blk)

/-- An index entry was put into the node of level `i`, whose current entry is now `p'`. -/
structure IndexPut (s t : St) (i p' : ℕ) (eh : Node) : Prop extends Marks s t where
  nodes : t.nodes = Function.update s.nodes (s.path i).header eh
  other : ∀ l, l ≠ i → t.path l = s.path l
  header : (t.path i).header = (s.path i).header
  block : (t.path i).block = (s.path i).block
  level : (t.path i).depth = (s.path i).depth
  index : (t.path i).index = some p'

/-- The node of level `i` takes a new entry for `key` beside the current one. -/
structure TakesIndex (s : St) (hdr : ℕ → Hdr) (pos : ℕ → ℕ) (i key : ℕ) : Prop where
  header : (s.path i).header = hdr i
  held : HeldAt (s.path i)
  index : (s.path i).index = some (pos i)
  lt : pos i < (s.nodes (hdr i)).entriesCount
  room : (s.nodes (hdr i)).entriesCount < (s.nodes (hdr i)).maxEntriesCount
  fits : (s.nodes (hdr i)).maxEntriesCount < 2 ^ 16
  ne : key ≠ ((s.nodes (hdr i)).slots (pos i)).firstBlock

/-- The key for the new nodes when a leaf is split after its entry `p`. -/
def keyOf (eh : Node) (p : ℕ) (newext : Slot) : ℕ :=
  if p + 1 ≠ eh.maxEntriesCount then (eh.slots (p + 1)).firstBlock else newext.firstBlock

/-- The runs the cleanup gives back: the blocks of the new path entries. -/
def cleanupRuns (npath : ℕ → PathEnt) : ℕ → List (ℤ × ℤ)
  | 0 => []
  | n + 1 => if (npath n).block ≠ 0 then (((npath n).block : ℤ), 1) :: cleanupRuns npath n
    else cleanupRuns npath n

section
variable {env : Env} {s t : St} {hdr : ℕ → Hdr} {pos : ℕ → ℕ} {eh : Node}
  {i p key blk D lo n : ℕ} {newext : Slot}

theorem idxPlace_le (hlt : p < eh.entriesCount) : idxPlace eh p key ≤ eh.entriesCount := by
  unfold idxPlace
  split_ifs <;> omega

theorem indexed_header {nodes : Nodes} {k x : ℕ} {h : Hdr} (hh : HeaderOk env nodes k h)
    (hroom : (nodes h).entriesCount < (nodes h).maxEntriesCount)
    (hmax : (nodes h).maxEntriesCount < 2 ^ 16) :
    HeaderOk env (Function.update nodes h (indexed (nodes h) x key blk)) k h := by
  obtain ⟨h1, h2, h3, h4, h5⟩ := hh
  have hcount : (indexed (nodes h) x key blk).entriesCount = (nodes h).entriesCount + 1 :=
    half_of_eq (n := (nodes h).entriesCount + 1) rfl (by omega)
  constructor <;> rw [Function.update_self]
  · exact h1
  · exact h2
  · exact h3
  · exact h4
  · rw [hcount]
    exact hroom

theorem insertIndex_run {setToIx : Bool} (hp : (s.path i).index = some p)
    (hheld : HeldAt (s.path i)) (heh : s.nodes (s.path i).header = eh)
    (hlt : p < eh.entriesCount) (hroom : eh.entriesCount < eh.maxEntriesCount)
    (hmax : eh.maxEntriesCount < 2 ^ 16) (hne : key ≠ (eh.slots p).firstBlock) :
    ∃ t, ext4ExtInsertIndex i key blk setToIx s = (.ok (), t) ∧
      IndexPut s t i (if setToIx then idxPlace eh p key else p)
        (indexed eh (idxPlace eh p key) key blk) := by
  have hplace := @idxPlace_le eh p key hlt
  have hcount : half (eh.entriesCount + 1) = eh.entriesCount + 1 := half_of_eq rfl (by omega)
  subst heh
  unfold ext4ExtInsertIndex
  rw [get_bind]
  simp only [hp, Option.any_some, decide_eq_true_eq, Option.getD_some]
  rw [if_neg hne, if_neg (by omega)]
  change ∃ t, (do
    modify fun s' => s'.setPath i { s.path i with index := some p }
    if (s.nodes (s.path i).header).maxEntriesCount <
        idxPlace (s.nodes (s.path i).header) p key + 1 then fail .eio
    else do
      modify fun s' => s'.setNode (s.path i).header (indexed (s.nodes (s.path i).header)
        (idxPlace (s.nodes (s.path i).header) p key) key blk)
      if half ((s.nodes (s.path i).header).entriesCount + 1) <
          idxPlace (s.nodes (s.path i).header) p key + 1 then fail .eio
      else do
        ext4ExtDirty i
        runIf setToIx (modify fun s' => s'.setPath i { s'.path i with
          index := some (idxPlace (s.nodes (s.path i).header) p key), pBlock := blk }) : Ext Unit) s
      = (.ok (), t) ∧ _
  generalize idxPlace (s.nodes (s.path i).header) p key = x at *
  rw [modify_bind, if_neg (by omega), modify_bind, hcount, if_neg (by omega), dirty_bind]
  have hsame : ({ s.path i with index := some p } : PathEnt) = s.path i := by rw [← hp]
  rw [hsame]
  generalize indexed (s.nodes (s.path i).header) x key blk = eh'
  have hmarks : Marks s (dirtied ((s.setPath i (s.path i)).setNode (s.path i).header eh') i) :=
    marks_dirtied (.refl _) (by simp) (by simpa using hheld)
  cases setToIx
  · rw [runIf_neg (by simp)]
    exact ⟨_, rfl, hmarks, by simp, fun l hl => by simp [hl], by simp, by simp, by simp,
      by simp [hp]⟩
  · rw [runIf_pos rfl]
    exact ⟨_, rfl, hmarks.trans (marks_setPath _), by simp, fun l hl => by simp [hl], by simp,
      by simp, by simp, by simp⟩

/-! ### The split with its cleanup -/

theorem splitKey_run {u : St} (hD : extDepth s = D) (hp : (s.path D).extent = some p) :
    splitKey s newext u = (.ok (keyOf (s.nodes (s.path D).header) p newext), u) := by
  unfold splitKey keyOf
  rw [hD, hp, deref_some, pure_bind_apply]
  split_ifs <;> rfl

theorem cleanupRuns_congr {f g : ℕ → PathEnt} (h : ∀ x, x < n → f x = g x) :
    cleanupRuns f n = cleanupRuns g n := by
  induction n with
  | zero => rfl
  | succ n ih =>
    unfold cleanupRuns
    rw [ih fun x hx => h x (by omega), h n (by omega)]

theorem splitCleanup_run : ∃ N U, splitCleanup n s = (.ok (), { s with
      npath := N
      used := U
      freed := s.freed ++ cleanupRuns s.npath n }) ∧
    ∀ b, U b = true ↔ s.used b = true ∧ ∀ x, x < n → (s.npath x).block ≠ 0 →
      (s.npath x).block ≠ b := by
  induction n generalizing s with
  | zero =>
    refine ⟨s.npath, s.used, ?_, fun b => by simp⟩
    simp [splitCleanup, cleanupRuns]
  | succ n ih =>
    unfold splitCleanup cleanupRuns
    rw [get_bind]
    by_cases h0 : (s.npath n).block ≠ 0
    · rw [runIf_pos h0, if_pos h0, bind_assoc_apply]
      unfold ext4ExtFreeBlocks ext4BallocFreeBlocks
      rw [modify_bind, modify_bind]
      obtain ⟨N, U, h1, h2⟩ := ih (s := St.setNpath { s with
        freed := s.freed ++ [(((s.npath n).block : ℤ), 1)]
        used := fun b => if ((s.npath n).block : ℤ) ≤ b ∧ (b : ℤ) < (s.npath n).block + 1 then false
          else s.used b } n { s.npath n with block := 0 })
      have hruns : cleanupRuns (Function.update s.npath n { s.npath n with block := 0 }) n =
          cleanupRuns s.npath n :=
        cleanupRuns_congr fun x hx => Function.update_of_ne (by omega) _ _
      refine ⟨N, U, ?_, fun b => ?_⟩
      · rw [h1, setNpath_npath, hruns]
        simp [St.setNpath]
      · rw [h2]
        simp only [St.setNpath]
        constructor
        · rintro ⟨h3, h4⟩
          by_cases hb : ((s.npath n).block : ℤ) ≤ b ∧ (b : ℤ) < (s.npath n).block + 1
          · rw [if_pos hb] at h3
            simp at h3
          · rw [if_neg hb] at h3
            refine ⟨h3, fun x hx hne => ?_⟩
            rcases Nat.eq_or_lt_of_le (show x ≤ n by omega) with rfl | hx'
            · omega
            · have := h4 x hx'
              rw [Function.update_of_ne (by omega)] at this
              exact this hne
        · rintro ⟨h3, h4⟩
          have hb := h4 n (by omega) h0
          refine ⟨by rw [if_neg (by omega), h3], fun x hx => ?_⟩
          rw [Function.update_of_ne (by omega)]
          exact h4 x (by omega)
    · rw [runIf_neg h0, if_neg h0, pure_bind_apply]
      obtain ⟨N, U, h1, h2⟩ := @ih s
      refine ⟨N, U, h1, fun b => ?_⟩
      rw [h2]
      refine and_congr_right fun _ => ⟨fun h x hx hne => ?_, fun h x hx => h x (by omega)⟩
      rcases Nat.eq_or_lt_of_le (show x ≤ n by omega) with rfl | hx'
      · exact absurd hne h0
      · exact h x hx' hne

/-- **What `ext4_ext_split_node` has done when it returns.** -/
theorem splitNode_spec (hal : AllocOk env) (hs : Splittable env s hdr pos D lo D) (hlo : lo ≤ D)
    (hD : extDepth s = D) (hdepth : (s.path 0).depth = D)
    (habove : TakesIndex s hdr pos (lo - 1) (keyOf (s.nodes (hdr D)) (pos D) newext))
    {r : Except Errno Bool} (h : ext4ExtSplitNode env lo newext s = (r, t)) :
    ∃ u k new, lo ≤ k ∧ k ≤ D + 1 ∧
      SplitDone env s u hdr pos D (keyOf (s.nodes (hdr D)) (pos D) newext) lo k D new ∧
      k + blocksHad env (ext4ExtFindGoal env newext.firstBlock s) (D - lo + 1) s.calls s.used =
        D + 1 ∧
      ((r = .ok (decide ¬ newext.firstBlock < keyOf (s.nodes (hdr D)) (pos D) newext) ∧ k = lo ∧
          IndexPut u t (lo - 1)
            (if ¬ newext.firstBlock < keyOf (s.nodes (hdr D)) (pos D) newext then
              idxPlace (s.nodes (hdr (lo - 1))) (pos (lo - 1))
                (keyOf (s.nodes (hdr D)) (pos D) newext) else pos (lo - 1))
            (indexed (s.nodes (hdr (lo - 1))) (idxPlace (s.nodes (hdr (lo - 1))) (pos (lo - 1))
              (keyOf (s.nodes (hdr D)) (pos D) newext))
              (keyOf (s.nodes (hdr D)) (pos D) newext) (new lo))) ∨
        ∃ e v, r = .error e ∧ Refused env e ∧ lo < k ∧ NotTaken u v ∧
          splitCleanup (D - lo + 1) v = (.ok (), t)) := by
  have hhdr := hs.header D hlo le_rfl
  have hlo0 := hs.lo_pos
  have hheld : ∀ c, (s.path (s.path 0).depth).header = .block c → s.used c = true := fun c hc => by
    rw [hdepth, hhdr] at hc
    exact hs.used D le_rfl c hc
  unfold ext4ExtSplitNode at h
  rw [get_bind, hD, bind_of_ok (splitKey_run hD (hs.leaf rfl)), hhdr] at h
  generalize hkey : keyOf (s.nodes (hdr D)) (pos D) newext = key at *
  rw [bind_of_ok (attempt_apply _ s)] at h
  rcases hl : splitLoop env newext key D lo (D - lo + 1) D s with ⟨e | _, w⟩
  · rw [bind_of_error hl] at h
    obtain ⟨u, k, new, h1, h2, h3, hk, h4⟩ := splitLoop_spec hal (fun _ => hs) hlo0 (by omega)
      (by omega) hheld hl
    rcases h4 with ⟨h5, -⟩ | ⟨e', h5, hre, h6, h7⟩
    · simp at h5
    · dsimp only at h
      obtain ⟨N, U, hc, -⟩ := @splitCleanup_run w (D - lo + 1)
      rw [bind_of_ok hc] at h
      obtain ⟨rfl, rfl⟩ := Prod.mk.inj h
      obtain rfl := Except.error.inj h5
      exact ⟨u, k, new, h1, h2, h3, hk, Or.inr ⟨e, w, rfl, hre, h7, h6, hc⟩⟩
  · obtain ⟨u, k, new, h1, h2, h3, hk, h4⟩ := splitLoop_spec hal (fun _ => hs) hlo0 (by omega)
      (by omega) hheld hl
    rcases h4 with ⟨-, rfl, rfl⟩ | ⟨e', h5, -⟩
    · rw [bind_of_ok hl, get_bind] at h
      have hsame : w.nodes (hdr (k - 1)) = s.nodes (hdr (k - 1)) := h3.other _ fun l h5 h6 =>
        ⟨hs.distinct.ne (by omega) (by omega) (by omega), hs.hdr_ne (by omega) (h3.fresh l h5 h6).1⟩
      have hnp := (h3.npath k le_rfl hlo).block
      rw [Nat.sub_self] at hnp
      obtain ⟨t', ht', hput⟩ := @insertIndex_run w (s.nodes (hdr (k - 1))) (k - 1) (pos (k - 1)) key
        (w.npath 0).block (decide ¬ newext.firstBlock < key) (by rw [h3.path, habove.index])
        (by rw [h3.path]; exact habove.held) (by rw [h3.path, habove.header, hsame]) habove.lt
        habove.room habove.fits habove.ne
      rw [ht'] at h
      obtain ⟨rfl, rfl⟩ := Prod.mk.inj h
      refine ⟨w, k, new, le_rfl, h2, h3, hk, Or.inl ⟨rfl, rfl, ?_⟩⟩
      rw [hnp] at hput
      simpa using hput
    · simp at h5

/-! ### The path afterwards -/

theorem afterSplit_run {insRight : Bool} : ∃ T N, afterSplit env insRight i n s = (.ok (), { s with
    tails := T
    npath := N
    path := fun l => if insRight ∧ i ≤ l ∧ l < i + n then s.npath (l - i) else s.path l }) := by
  induction n generalizing s with
  | zero =>
    refine ⟨s.tails, s.npath, ?_⟩
    have hpath : (fun l => if insRight ∧ i ≤ l ∧ l < i + 0 then s.npath (l - i) else s.path l) =
        s.path := funext fun l => if_neg (by omega)
    rw [hpath]
    rfl
  | succ n ih =>
    unfold afterSplit
    cases insRight
    · rw [if_neg (by simp), get_bind]
      obtain ⟨T, hT⟩ := @dropRef_run env s (s.npath n)
      rw [bind_of_ok hT, modify_bind]
      obtain ⟨T', N, h⟩ := ih (s := St.setNpath { s with tails := T } n
        { s.npath n with block := 0 })
      refine ⟨T', N, h.trans ?_⟩
      simp [St.setNpath]
    · rw [if_pos rfl]
      unfold ext4ExtReplacePath
      obtain ⟨T, hT⟩ := @dropRefs_run env s (i + n) true
      rw [bind_assoc_apply, bind_of_ok hT, modify_bind]
      obtain ⟨T', N, h⟩ := ih (s := (St.setPath { s with
        tails := T
        path := released s.path (i + n) 1 } (i + n) (s.npath n)).setNpath n .zero)
      refine ⟨T', N, h.trans ?_⟩
      have hpath : (fun l => if i ≤ l ∧ l < i + n then
            Function.update s.npath n PathEnt.zero (l - i)
          else Function.update (released s.path (i + n) 1) (i + n) (s.npath n) l) =
          fun l => if i ≤ l ∧ l < i + (n + 1) then s.npath (l - i) else s.path l := by
        funext l
        by_cases h1 : i ≤ l ∧ l < i + n
        · rw [if_pos h1, if_pos (by omega), Function.update_of_ne (by omega)]
        · rw [if_neg h1]
          by_cases h2 : l = i + n
          · rw [h2, Function.update_self, if_pos (by omega), show i + n - i = n by omega]
          · rw [Function.update_of_ne h2, if_neg (by omega)]
            unfold released
            rw [if_neg (by omega)]
      simp only [true_and]
      rw [← hpath]
      rfl

end

end Ext4Fsd.Extent.SplitRun
