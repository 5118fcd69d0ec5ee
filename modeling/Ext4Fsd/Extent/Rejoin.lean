import Ext4Fsd.Extent.Halves

/-! # One level of a way put together anew

A node on the way gets other entries `A ++ f :: B`, and the way goes on below `f` as it may. What
lies above the node is as it was. `spine_join` reads the whole way off the three parts, and
`Joined.keysHead` says when its keys are exact. -/

namespace Ext4Fsd.Extent.Rejoin

open Ext4Fsd.Lib.Intervals Ext4Fsd.Extent.Layout Ext4Fsd.Extent.Store Ext4Fsd.Extent.Tree
open Ext4Fsd.Extent.Way Ext4Fsd.Extent.Found Ext4Fsd.Extent.Keys

/-- The keys on the way are the first blocks of what lies below them, when the focus holds `l`. -/
def KeysHead (nodes : Nodes) (hdr : ℕ → Hdr) (pos : ℕ → ℕ) (g n j : ℕ) (l : List Slot) : Prop :=
  ∀ i, j ≤ i → i < j + n → ∀ e ∈ (lefts nodes hdr pos g (j + n - (i + 1)) (i + 1) ++ l).head?,
    e.firstBlock = (cur nodes hdr pos i).firstBlock

/-- **A way with a level put together anew.** -/
structure Joined (env : Env) (nodes nodes' : Nodes) (hdr hdr' : ℕ → Hdr) (pos pos' : ℕ → ℕ)
    (m n : ℕ) (A : List Slot) (f : Slot) (B : List Slot) : Prop where
  spine : Spine env nodes' hdr' pos' 0 (m + (n + 1)) 0
  lefts : lefts nodes' hdr' pos' 0 (m + (n + 1)) 0 = lefts nodes hdr pos (0 + (n + 1)) m 0 ++
    (extsOf nodes' (0 + n) A ++ lefts nodes' hdr' pos' 0 n (m + 1))
  rights : rights nodes' hdr' pos' 0 (m + (n + 1)) 0 = rights nodes' hdr' pos' 0 n (m + 1) ++
    extsOf nodes' (0 + n) B ++ rights nodes hdr pos (0 + (n + 1)) m 0
  sibRefs : sibRefs nodes' hdr' pos' 0 (m + (n + 1)) 0 = sibRefs nodes hdr pos (0 + (n + 1)) m 0 ++
    (refsOf nodes' (0 + n) A ++ refsOf nodes' (0 + n) B ++ sibRefs nodes' hdr' pos' 0 n (m + 1))
  hdrs : hdrs hdr' (m + (n + 1)) 0 = hdrs hdr m 0 ++ hdr m :: hdrs hdr' n (m + 1)
  cur : cur nodes' hdr' pos' m = f
  leftsAt : Way.lefts nodes' hdr' pos' 0 (n + 1) m = extsOf nodes' (0 + n) A ++
    Way.lefts nodes' hdr' pos' 0 n (m + 1)
  /-- Above the level nothing has changed. -/
  above : ∀ i, i < m → Way.lefts nodes' hdr' pos' (0 + (n + 1)) (m - (i + 1)) (i + 1) =
      Way.lefts nodes hdr pos (0 + (n + 1)) (m - (i + 1)) (i + 1) ∧
    Way.cur nodes' hdr' pos' i = Way.cur nodes hdr pos i

section
variable {env : Env} {nodes nodes' : Nodes} {hdr hdr' : ℕ → Hdr} {pos pos' : ℕ → ℕ}
  {g n j m : ℕ} {A B l l' : List Slot} {f : Slot}

/-! ### Keys -/

/-- A longer list has the same head. -/
theorem head_of_front {P X Y : List Slot} {e : Slot} (hX : X <+: Y) (he : e ∈ (P ++ X).head?) :
    e ∈ (P ++ Y).head? := by
  obtain ⟨Z, rfl⟩ := hX
  rcases hp : P ++ X with _ | ⟨x, L⟩
  · rw [hp] at he
    simp at he
  · rw [hp] at he
    rw [← List.append_assoc, hp]
    exact he

theorem keysHead_succ : KeysHead nodes hdr pos g (n + 1) j l ↔
    (∀ e ∈ (lefts nodes hdr pos g n (j + 1) ++ l).head?,
      e.firstBlock = (cur nodes hdr pos j).firstBlock) ∧
    KeysHead nodes hdr pos g n (j + 1) l := by
  unfold KeysHead
  constructor
  · intro h
    refine ⟨?_, fun i h1 h2 => ?_⟩
    · have hj := h j le_rfl (by omega)
      rwa [show j + (n + 1) - (j + 1) = n by omega] at hj
    · have hi := h i (by omega) (by omega)
      rwa [show j + (n + 1) - (i + 1) = j + 1 + n - (i + 1) by omega] at hi
  · rintro ⟨h0, h⟩ i h1 h2
    rcases Nat.eq_or_lt_of_le h1 with rfl | h1
    · rwa [show j + (n + 1) - (j + 1) = n by omega]
    · rw [show j + (n + 1) - (i + 1) = j + 1 + n - (i + 1) by omega]
      exact h i (by omega) (by omega)

/-- The keys of the lower levels. -/
theorem keysHead_lower (h : KeysHead nodes hdr pos g (m + n) j l) :
    KeysHead nodes hdr pos g n (j + m) l := by
  intro i h1 h2
  have hi := h i (by omega) (by omega)
  rwa [show j + (m + n) - (i + 1) = j + m + n - (i + 1) by omega] at hi

/-- The keys are decided left of the focus, or else by its first extent. -/
theorem keysHead_iff : KeysHead nodes hdr pos g n j l ↔
    KeysLeft nodes hdr pos g n j ∧ ∀ e ∈ l.head?, KeysFocus nodes hdr pos g e.firstBlock n j := by
  induction n generalizing j with
  | zero =>
    refine ⟨fun _ => ⟨trivial, fun e _ => trivial⟩, fun _ i h1 h2 => by omega⟩
  | succ n ih =>
    have hL : KeysLeft nodes hdr pos g (n + 1) j ↔ (∀ e ∈ (lefts nodes hdr pos g n (j + 1)).head?,
        e.firstBlock = (cur nodes hdr pos j).firstBlock) ∧ KeysLeft nodes hdr pos g n (j + 1) :=
      Iff.rfl
    have hF : ∀ b, KeysFocus nodes hdr pos g b (n + 1) j ↔ (lefts nodes hdr pos g n (j + 1) = [] →
        (cur nodes hdr pos j).firstBlock = b) ∧ KeysFocus nodes hdr pos g b n (j + 1) :=
      fun _ => Iff.rfl
    rw [keysHead_succ, ih, hL]
    simp only [hF]
    rcases lefts nodes hdr pos g n (j + 1) with _ | ⟨x, L⟩
    · simp only [List.nil_append, List.head?_nil, Option.mem_def, reduceCtorEq, false_implies,
        implies_true, true_and, forall_const]
      constructor
      · rintro ⟨h1, h2, h3⟩
        exact ⟨h2, fun e he => ⟨(h1 e he).symm, h3 e he⟩⟩
      · rintro ⟨h1, h2⟩
        exact ⟨fun e he => (h2 e he).1.symm, h1, fun e he => (h2 e he).2⟩
    · simp only [List.cons_append, List.head?_cons, Option.mem_def, Option.some.injEq, forall_eq',
        reduceCtorEq, false_implies, true_and]
      tauto

/-- A well-formed subtree read off a way with a focus of one leaf. -/
theorem half_sub {e : Slot} {es : List Slot} (hs : Spine env nodes hdr pos 0 n j)
    (hk : KeysHead nodes hdr pos 0 n j (e :: es)) (hleaf : HeaderOk env nodes 0 (hdr (j + n)))
    (hent : (nodes (hdr (j + n))).entries = e :: es) :
    Sub env nodes (0 + n) (hdr j) ∧ exts nodes (0 + n) (hdr j) =
      lefts nodes hdr pos 0 n j ++ e :: es ++ rights nodes hdr pos 0 n j := by
  obtain ⟨h1, h2⟩ := keysHead_iff.mp hk
  refine ⟨spine_close hs ((keys_iff hs hent).mpr ⟨h1, h2 e rfl⟩) ⟨hleaf, by simp [hent]⟩, ?_⟩
  rw [exts_spine hs.onPath, exts, hent]

/-! ### Joining -/

theorem spine_join (hpre : Spine env nodes hdr pos (0 + (n + 1)) m 0)
    (hway : ∀ i, i < m → nodes' (hdr i) = nodes (hdr i))
    (hsib : ∀ r ∈ sibRefs nodes hdr pos (0 + (n + 1)) m 0, nodes' r = nodes r)
    (hh : ∀ i, i ≤ m → hdr' i = hdr i) (hp : ∀ i, i < m → pos' i = pos i)
    (hhead : HeaderOk env nodes' (0 + n + 1) (hdr m))
    (hent : (nodes' (hdr m)).entries = A ++ f :: B) (hpm : pos' m = A.length)
    (hA : Forest env nodes' (0 + n) A) (hB : Forest env nodes' (0 + n) B)
    (hchild : hdr' (m + 1) = child f) (hbelow : Spine env nodes' hdr' pos' 0 n (m + 1)) :
    Joined env nodes nodes' hdr hdr' pos pos' m n A f B := by
  have hlen : (nodes' (hdr m)).entriesCount = A.length + (B.length + 1) := by
    rw [← length_entries, hent]
    simp
  have hslot : (nodes' (hdr m)).slots A.length = f := by
    have hlt : A.length < (nodes' (hdr m)).entries.length := by rw [length_entries]; omega
    rw [← getElem_entries hlt]
    simp [hent]
  have hcur : cur nodes' hdr' pos' m = f := by rw [cur, hh m le_rfl, hpm, hslot]
  have hbef : before nodes' hdr' pos' m = A := by
    rw [before, hh m le_rfl, hpm, hent]
    simp
  have haft : after nodes' hdr' pos' m = B := by
    rw [after, hh m le_rfl, hpm, hent, List.drop_append]
    simp
  have hsame : ∀ i, 0 ≤ i → i < 0 + m →
      SameBeside (nodes (hdr i)) (nodes' (hdr i)) (pos i) := fun i _ hi => by
    rw [hway i (by omega)]
    exact .refl _ _
  obtain ⟨h1, h2, h3, h4⟩ := spine_update hpre hsame hsib
  obtain ⟨k1, k2, k3, k4⟩ := @reads_congr nodes' hdr pos (0 + (n + 1)) m 0 hdr' pos'
    (fun i _ hi => hh i (by omega)) fun i _ hi => hp i (by omega)
  have hlevel : Spine env nodes' hdr' pos' 0 (n + 1) (0 + m) := by
    rw [Nat.zero_add]
    refine ⟨by rwa [hh m le_rfl], ?_, by rw [hcur]; exact hchild, ?_, ?_, hbelow⟩
    · rw [hh m le_rfl, hpm, hlen]
      omega
    · rwa [hbef]
    · rwa [haft]
  refine ⟨spine_split.mpr ⟨(spine_congr_way (fun i _ hi => hh i (by omega)) fun i _ hi =>
    hp i (by omega)).mpr h1, hlevel⟩, ?_, ?_, ?_, ?_, hcur, by rw [lefts_succ, hbef],
    fun i hi => ⟨?_, ?_⟩⟩
  · rw [lefts_split, k1, h2, Nat.zero_add m, lefts_succ, hbef]
  · rw [rights_split, k2, h3, Nat.zero_add m, rights_succ, haft]
  · rw [sibRefs_split, k3, h4, Nat.zero_add m, sibRefs_succ, hbef, haft]
  · rw [hdrs_split, k4, Nat.zero_add m, hdrs_succ, hh m le_rfl]
  · -- the levels from `i + 1` to `m` are part of the levels above
    have hpart : Spine env nodes hdr pos (0 + (n + 1)) (m - (i + 1)) (i + 1) := by
      rw [show m = i + 1 + (m - (i + 1)) by omega] at hpre
      have := (spine_split.mp hpre).2
      rwa [show 0 + (i + 1) = i + 1 by omega] at this
    have hsib' : ∀ r ∈ Way.sibRefs nodes hdr pos (0 + (n + 1)) (m - (i + 1)) (i + 1),
        nodes' r = nodes r := fun r hr => hsib r (by
      rw [show m = i + 1 + (m - (i + 1)) by omega, sibRefs_split,
        show 0 + (i + 1) = i + 1 by omega]
      exact List.mem_append_right _ hr)
    rw [(@reads_congr nodes' hdr pos (0 + (n + 1)) (m - (i + 1)) (i + 1) hdr' pos'
      (fun l _ hl => hh l (by omega)) fun l _ hl => hp l (by omega)).1]
    exact (spine_update hpart (fun l _ hl => hsame l (by omega) (by omega)) hsib').2.1
  · rw [Way.cur, Way.cur, hh i (by omega), hp i hi, hway i hi]

/-- The keys of a joined way, from those of the old one: what lies below the joined node starts as
it did. -/
theorem Joined.keysHead (hj : Joined env nodes nodes' hdr hdr' pos pos' m n A f B)
    (hk : KeysHead nodes hdr pos 0 (m + (n + 1)) 0 l)
    (hX : extsOf nodes' (0 + n) A ++ Way.lefts nodes' hdr' pos' 0 n (m + 1) ++ l' <+:
      Way.lefts nodes hdr pos 0 (n + 1) m ++ l)
    (hm : ∀ e ∈ (Way.lefts nodes' hdr' pos' 0 n (m + 1) ++ l').head?,
      e.firstBlock = f.firstBlock)
    (hbelow : KeysHead nodes' hdr' pos' 0 n (m + 1) l') :
    KeysHead nodes' hdr' pos' 0 (m + (n + 1)) 0 l' := by
  intro i _ hi e he
  rcases Nat.lt_trichotomy i m with him | rfl | him
  · obtain ⟨h1, h2⟩ := hj.above i him
    have hold := hk i (by omega) (by omega)
    rw [show 0 + (m + (n + 1)) - (i + 1) = m - (i + 1) + (n + 1) by omega, lefts_split,
      show i + 1 + (m - (i + 1)) = m by omega] at hold he
    rw [h1, hj.leftsAt, List.append_assoc] at he
    rw [h2]
    rw [List.append_assoc] at hold
    exact hold e (head_of_front hX he)
  · rw [hj.cur]
    rw [show 0 + (i + (n + 1)) - (i + 1) = n by omega] at he
    exact hm e he
  · have := hbelow i (by omega) (by omega) e
    rw [show m + 1 + n - (i + 1) = 0 + (m + (n + 1)) - (i + 1) by omega] at this
    exact this he

end

end Ext4Fsd.Extent.Rejoin
