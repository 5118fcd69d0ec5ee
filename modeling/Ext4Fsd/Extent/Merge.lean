import Ext4Fsd.Extent.Insert
import Ext4Fsd.Extent.Mapping

/-! # The merge tests

Two extents that a merge test accepts should be one extent: an extent that holds the logical blocks
of both, each at its physical block and in its state (`Joined`).

The tests look at the state of `ex1` for the length limit only, and their sum of a logical block and
a length is a 32-bit one. So they also accept two extents of different states, and two extents that
adjoin around the end of the logical blocks; otherwise they are sound (`mergeSound_iff`). -/

namespace Ext4Fsd.Extent.Merge

open Ext4Fsd.Lib.Intervals Ext4Fsd.Extent.Layout Ext4Fsd.Extent.Store Ext4Fsd.Extent.Insert
open Ext4Fsd.Extent.Tree Ext4Fsd.Extent.Mapping

/-! ### What a merge should be -/

/-- **`ex` is the two extents in one**. -/
structure Joined (ex1 ex2 ex : Slot) : Prop where
  fits : Fits ex
  len : ext4ExtGetActualLen ex ≤ maxLenOf ex
  holds : ∀ n, Holds ex n ↔ Holds ex1 n ∨ Holds ex2 n
  fst : ∀ n, Holds ex1 n →
    physOf ex n = physOf ex1 n ∧ ext4ExtIsUnwritten ex = ext4ExtIsUnwritten ex1
  snd : ∀ n, Holds ex2 n →
    physOf ex n = physOf ex2 n ∧ ext4ExtIsUnwritten ex = ext4ExtIsUnwritten ex2

/-- **The tests are sound** for the two extents. -/
def MergeSound (ex1 ex2 : Slot) : Prop :=
  ext4ExtCanAppend ex1 ex2 = true ∨ ext4ExtCanPrepend ex1 ex2 = true → ∃ ex, Joined ex1 ex2 ex

/-- `b` comes after `a` on the disk, and in the file up to the width of a logical block. -/
structure Adjoins (a b : Slot) : Prop where
  physical : ext4ExtPblock a + ext4ExtGetActualLen a = ext4ExtPblock b
  logical : extEnd a % 2 ^ 32 = b.firstBlock

/-- The two extents, when they adjoin and are short enough, are of one state and adjoin before the
end of the logical blocks. -/
def OneStretch (ex1 ex2 : Slot) : Prop :=
  ∀ a b, a = ex1 ∧ b = ex2 ∨ a = ex2 ∧ b = ex1 → Adjoins a b →
    ext4ExtGetActualLen ex1 + ext4ExtGetActualLen ex2 ≤ maxLenOf ex1 →
      ext4ExtIsUnwritten ex1 = ext4ExtIsUnwritten ex2 ∧ extEnd a < 2 ^ 32

section
variable {ex1 ex2 ex a b : Slot}

theorem canAppend_iff : ext4ExtCanAppend ex1 ex2 = true ↔
    Adjoins ex1 ex2 ∧ ext4ExtGetActualLen ex1 + ext4ExtGetActualLen ex2 ≤ maxLenOf ex1 := by
  unfold ext4ExtCanAppend
  rw [decide_eq_true_eq]
  constructor
  · rintro ⟨hphys, hlen, hlog⟩
    exact ⟨⟨hphys, hlog⟩, hlen⟩
  · rintro ⟨⟨hphys, hlog⟩, hlen⟩
    exact ⟨hphys, hlen, hlog⟩

theorem canPrepend_iff : ext4ExtCanPrepend ex1 ex2 = true ↔
    Adjoins ex2 ex1 ∧ ext4ExtGetActualLen ex1 + ext4ExtGetActualLen ex2 ≤ maxLenOf ex1 := by
  unfold ext4ExtCanPrepend
  rw [decide_eq_true_eq]
  constructor
  · rintro ⟨hphys, hlen, hlog⟩
    exact ⟨⟨hphys, hlog⟩, hlen⟩
  · rintro ⟨⟨hphys, hlog⟩, hlen⟩
    exact ⟨hphys, hlen, hlog⟩

theorem maxLenOf_congr (hu : ext4ExtIsUnwritten a = ext4ExtIsUnwritten b) :
    maxLenOf a = maxLenOf b := by
  unfold maxLenOf
  rw [hu]

theorem actualLen_le_maxLenOf (h : Fits ex) : ext4ExtGetActualLen ex ≤ maxLenOf ex := by
  unfold maxLenOf
  split_ifs with hu
  · exact (actualLen_of_unwritten h hu).2.1
  · exact actualLen_le h

/-! ### The extent of both -/

/-- The length and the state of the extent of both. -/
theorem addLen_len (hpos : 0 < ext4ExtGetActualLen a)
    (hmax : ext4ExtGetActualLen a + ext4ExtGetActualLen b ≤ maxLenOf a) :
    ext4ExtGetActualLen (addLen a b) = ext4ExtGetActualLen a + ext4ExtGetActualLen b ∧
      ext4ExtIsUnwritten (addLen a b) = ext4ExtIsUnwritten a ∧
      (addLen a b).blockCount < 2 ^ 16 := by
  unfold maxLenOf at hmax
  generalize hsum : ext4ExtGetActualLen a + ext4ExtGetActualLen b = m at hmax
  by_cases hu : ext4ExtIsUnwritten a = true
  · rw [if_pos hu] at hmax
    have hm : m < 2 ^ 15 := by
      unfold extUnwrittenMaxLen extInitMaxLen at hmax
      omega
    have hhalf : half (ext4ExtGetActualLen a + ext4ExtGetActualLen b : ℕ) = m :=
      half_of_eq (by exact_mod_cast hsum) (by omega)
    have hor : m ||| 2 ^ 15 = m + 2 ^ 15 := by
      have hsplit := Nat.two_pow_add_eq_or_of_lt hm 1
      rw [mul_one] at hsplit
      rw [Nat.or_comm, ← hsplit, Nat.add_comm]
    have hcount : (addLen a b).blockCount = m + 2 ^ 15 := by
      unfold addLen ext4ExtMarkUnwritten
      rw [if_pos hu, ← hor, ← hhalf]
      push_cast
      rfl
    unfold ext4ExtGetActualLen ext4ExtIsUnwritten at *
    rw [hcount]
    unfold extInitMaxLen at *
    simp only [decide_eq_true_eq] at hu
    refine ⟨?_, ?_, by omega⟩
    · rw [if_neg (by omega)]
      omega
    · rw [decide_eq_decide]
      omega
  · have hw := Bool.eq_false_of_not_eq_true hu
    rw [if_neg hu] at hmax
    have hhalf : half (ext4ExtGetActualLen a + ext4ExtGetActualLen b : ℕ) = m :=
      half_of_eq (by exact_mod_cast hsum) (by unfold extInitMaxLen at hmax; omega)
    have hcount : (addLen a b).blockCount = m := by
      unfold addLen
      rw [if_neg hu, ← hhalf]
      push_cast
      rfl
    unfold ext4ExtGetActualLen ext4ExtIsUnwritten at *
    rw [hcount, if_pos hmax]
    refine ⟨rfl, ?_, by unfold extInitMaxLen at hmax; omega⟩
    rw [hw, decide_eq_false_iff_not]
    omega

theorem addLen_firstBlock (a b : Slot) : (addLen a b).firstBlock = a.firstBlock := by
  unfold addLen ext4ExtMarkUnwritten
  split_ifs <;> rfl

theorem addLen_pblock (a b : Slot) : ext4ExtPblock (addLen a b) = ext4ExtPblock a := by
  unfold addLen ext4ExtMarkUnwritten ext4ExtPblock
  split_ifs <;> rfl

theorem Joined.symm (hj : Joined ex1 ex2 ex) : Joined ex2 ex1 ex where
  fits := hj.fits
  len := hj.len
  holds n := (hj.holds n).trans or_comm
  fst := hj.snd
  snd := hj.fst

/-- Two extents of one state that adjoin, with room for both in one length, are one extent. -/
theorem joined_addLen (ha : Fits a) (hpos : 0 < ext4ExtGetActualLen a)
    (hu : ext4ExtIsUnwritten a = ext4ExtIsUnwritten b)
    (hmax : ext4ExtGetActualLen a + ext4ExtGetActualLen b ≤ maxLenOf a)
    (hphys : ext4ExtPblock a + ext4ExtGetActualLen a = ext4ExtPblock b)
    (hlog : extEnd a = b.firstBlock) : Joined a b (addLen a b) := by
  obtain ⟨hlen, hstate, hcount⟩ := addLen_len hpos hmax
  have hfirst := addLen_firstBlock a b
  have hhi : (addLen a b).startHi = a.startHi := by
    unfold addLen ext4ExtMarkUnwritten
    split_ifs <;> rfl
  have hlo : (addLen a b).startLo = a.startLo := by
    unfold addLen ext4ExtMarkUnwritten
    split_ifs <;> rfl
  have hfits : Fits (addLen a b) :=
    ⟨hfirst ▸ ha.firstBlock, hcount, hhi ▸ ha.startHi, hlo ▸ ha.startLo⟩
  have hpblock := addLen_pblock a b
  refine ⟨hfits, actualLen_le_maxLenOf hfits, fun n => ?_, fun n _ => ⟨?_, hstate⟩,
    fun n hn => ⟨?_, hstate.trans hu⟩⟩
  · unfold Holds Covers extEnd at *
    rw [hlen, hfirst]
    omega
  · unfold physOf
    rw [hpblock, hfirst]
  · unfold physOf
    unfold Holds Covers extEnd at *
    rw [hpblock, hfirst]
    omega

/-! ### What cannot be one extent -/

theorem holds_first (hpos : 0 < ext4ExtGetActualLen a) : Holds a a.firstBlock := by
  unfold Holds Covers extEnd
  omega

theorem holds_last (hpos : 0 < ext4ExtGetActualLen a) : Holds a (extEnd a - 1) := by
  unfold Holds Covers extEnd
  omega

/-- One extent has one state. -/
theorem Joined.state (hj : Joined ex1 ex2 ex) (h1 : 0 < ext4ExtGetActualLen ex1)
    (h2 : 0 < ext4ExtGetActualLen ex2) : ext4ExtIsUnwritten ex1 = ext4ExtIsUnwritten ex2 :=
  (hj.fst _ (holds_first h1)).2.symm.trans (hj.snd _ (holds_first h2)).2

/-- One extent does not reach around the end of the logical blocks. -/
theorem Joined.no_wrap (hj : Joined a b ex) (ha : Fits a)
    (h1 : 0 < ext4ExtGetActualLen a) (h2 : 0 < ext4ExtGetActualLen b) (hadj : Adjoins a b) :
    extEnd a < 2 ^ 32 := by
  by_contra hwrap
  have hlast := (hj.holds _).mpr (.inl (holds_last h1))
  have hfirst := (hj.holds _).mpr (.inr (holds_first h2))
  have hlen := actualLen_le hj.fits
  have hlen' := actualLen_le ha
  have hlog := hadj.logical
  have ha32 := ha.firstBlock
  unfold Holds Covers extEnd extInitMaxLen at *
  omega

/-- The tests are sound for two extents in the order in which they adjoin. -/
theorem exists_joined_iff (ha : Fits a) (h1 : 0 < ext4ExtGetActualLen a)
    (h2 : 0 < ext4ExtGetActualLen b) (hadj : Adjoins a b)
    (hmax : ext4ExtGetActualLen a + ext4ExtGetActualLen b ≤ maxLenOf a ∨
      ext4ExtGetActualLen a + ext4ExtGetActualLen b ≤ maxLenOf b) :
    (∃ ex, Joined a b ex) ↔ ext4ExtIsUnwritten a = ext4ExtIsUnwritten b ∧ extEnd a < 2 ^ 32 := by
  constructor
  · rintro ⟨ex, hj⟩
    exact ⟨hj.state h1 h2, hj.no_wrap ha h1 h2 hadj⟩
  · rintro ⟨hu, hend⟩
    have hlog := hadj.logical
    rw [Nat.mod_eq_of_lt hend] at hlog
    refine ⟨_, joined_addLen ha h1 hu ?_ hadj.physical hlog⟩
    rw [maxLenOf_congr hu]
    rwa [maxLenOf_congr hu, or_self] at hmax

/-- **When the merge tests are sound.** -/
theorem mergeSound_iff (hfit1 : Fits ex1) (hfit2 : Fits ex2) (h1 : 0 < ext4ExtGetActualLen ex1)
    (h2 : 0 < ext4ExtGetActualLen ex2) : MergeSound ex1 ex2 ↔ OneStretch ex1 ex2 := by
  unfold MergeSound OneStretch
  rw [canAppend_iff, canPrepend_iff]
  constructor
  · rintro hsound a b (⟨rfl, rfl⟩ | ⟨rfl, rfl⟩) hadj hmax
    · exact (exists_joined_iff hfit1 h1 h2 hadj (.inl hmax)).mp (hsound (.inl ⟨hadj, hmax⟩))
    · obtain ⟨ex, hj⟩ := hsound (.inr ⟨hadj, hmax⟩)
      have hiff := exists_joined_iff hfit2 h2 h1 hadj (.inr (by omega))
      obtain ⟨hu, hend⟩ := hiff.mp ⟨ex, hj.symm⟩
      exact ⟨hu.symm, hend⟩
  · rintro hone (⟨hadj, hmax⟩ | ⟨hadj, hmax⟩)
    · exact (exists_joined_iff hfit1 h1 h2 hadj (.inl hmax)).mpr
        (hone ex1 ex2 (.inl ⟨rfl, rfl⟩) hadj hmax)
    · obtain ⟨hu, hend⟩ := hone ex2 ex1 (.inr ⟨rfl, rfl⟩) hadj hmax
      obtain ⟨ex, hj⟩ := (exists_joined_iff hfit2 h2 h1 hadj (.inr (by omega))).mpr
        ⟨hu.symm, hend⟩
      exact ⟨ex, hj.symm⟩

end

/-! ### A written and an unwritten extent -/

/-- Four written blocks. -/
def fourWritten : Slot := ⟨0, 4, 0, 100⟩

/-- Four unwritten blocks behind `fourWritten`. -/
def fourUnwritten : Slot := ⟨4, extInitMaxLen + 4, 0, 104⟩

/-- Four written blocks there. -/
def nextWritten : Slot := ⟨4, 4, 0, 104⟩

theorem fits_fourWritten : Fits fourWritten := by constructor <;> decide

theorem fits_fourUnwritten : Fits fourUnwritten := by constructor <;> decide

/-- Two written extents. -/
theorem mergeSound_written : MergeSound fourWritten nextWritten := by
  refine (mergeSound_iff fits_fourWritten (by constructor <;> decide) (by decide)
    (by decide)).mpr ?_
  rintro a b (⟨rfl, rfl⟩ | ⟨rfl, rfl⟩) _ _ <;> decide

/-- An unwritten extent behind a written one is accepted. -/
theorem mergeSound_states : ¬ ∀ ex1 ex2 : Slot, Fits ex1 → Fits ex2 →
    0 < ext4ExtGetActualLen ex1 → 0 < ext4ExtGetActualLen ex2 → MergeSound ex1 ex2 := by
  intro hall
  obtain ⟨ex, hj⟩ := hall fourWritten fourUnwritten fits_fourWritten fits_fourUnwritten (by decide)
    (by decide) (.inl (by decide))
  exact absurd (hj.state (by decide) (by decide)) (by decide)

end Ext4Fsd.Extent.Merge
