import Mathlib.Tactic
import Mathlib.Data.Int.Interval

/-! # Fixed-width integers as residues

A C integer of width `w` is kept as the integer it denotes. The readings below bring an arbitrary
integer back into the range of a type: `toU32`, `toU64` reduce modulo `2 ^ w`, `toI16`, `toI32`,
`toI64` take the representative around zero. An operation on a fixed-width type is the operation on
`ℤ` followed by the reading of its type.

The lemmas are the ones a proof about such code needs: the ranges, when a reading is the identity,
and that a signed reading is determined by the residue. -/

namespace Ext4Fsd.Lib.CInt

/-- The value in `[0, 2^32)`. -/
def toU32 (x : ℤ) : ℤ := x % 2 ^ 32

/-- The value in `[0, 2^64)`. -/
def toU64 (x : ℤ) : ℤ := x % 2 ^ 64

/-- The value in `[-2^15, 2^15)`. -/
def toI16 (x : ℤ) : ℤ := (x + 2 ^ 15) % 2 ^ 16 - 2 ^ 15

/-- The value in `[-2^31, 2^31)`. -/
def toI32 (x : ℤ) : ℤ := (x + 2 ^ 31) % 2 ^ 32 - 2 ^ 31

/-- The value in `[-2^63, 2^63)`. -/
def toI64 (x : ℤ) : ℤ := (x + 2 ^ 63) % 2 ^ 64 - 2 ^ 63

theorem toU32_nonneg (x : ℤ) : 0 ≤ toU32 x := by unfold toU32; omega

theorem toU32_lt (x : ℤ) : toU32 x < 2 ^ 32 := by unfold toU32; omega

theorem toI32_ge (x : ℤ) : -2 ^ 31 ≤ toI32 x := by unfold toI32; omega

theorem toI32_lt (x : ℤ) : toI32 x < 2 ^ 31 := by unfold toI32; omega

theorem toU32_of_range {x : ℤ} (h0 : 0 ≤ x) (h1 : x < 2 ^ 32) : toU32 x = x := by
  unfold toU32; omega

theorem toI32_of_range {x : ℤ} (h0 : -2 ^ 31 ≤ x) (h1 : x < 2 ^ 31) : toI32 x = x := by
  unfold toI32; omega

@[simp] theorem toI32_toI32 (x : ℤ) : toI32 (toI32 x) = toI32 x :=
  toI32_of_range (toI32_ge x) (toI32_lt x)

/-- Above the half, the signed reading is the value less `2^32`. -/
theorem toI32_of_ge {x : ℤ} (h0 : 2 ^ 31 ≤ x) (h1 : x < 2 ^ 32) : toI32 x = x - 2 ^ 32 := by
  unfold toI32; omega

@[simp] theorem toU32_toI32 (x : ℤ) : toU32 (toI32 x) = toU32 x := by
  unfold toU32 toI32; omega

@[simp] theorem toI32_toU32 (x : ℤ) : toI32 (toU32 x) = toI32 x := by
  unfold toU32 toI32; omega

theorem toI32_toI32_add (x y : ℤ) : toI32 (toI32 x + y) = toI32 (x + y) := by
  unfold toI32; omega

/-- A signed reading only depends on the residue. -/
theorem toI32_eq_iff {x y : ℤ} : toI32 x = toI32 y ↔ toU32 x = toU32 y := by
  unfold toU32 toI32; omega

/-- A signed value is 0 when its bits are. -/
theorem eq_zero_of_toU32 {x : ℤ} (hx : x ∈ Set.range toI32) (h0 : toU32 x = 0) : x = 0 := by
  obtain ⟨y, rfl⟩ := hx
  have h1 := toI32_ge y
  have h2 := toI32_lt y
  unfold toU32 at h0
  omega

/-- The signed values are finitely many. -/
theorem finite_range_toI32 : (Set.range toI32).Finite :=
  (Set.finite_Icc (-2 ^ 31 : ℤ) (2 ^ 31)).subset fun _ ⟨x, hx⟩ =>
    ⟨hx ▸ toI32_ge x, hx ▸ (toI32_lt x).le⟩

/-- `x` and `y` are in the same half of the 32-bit range. -/
def SameHalf (x y : ℤ) : Prop := x < 2 ^ 31 ↔ y < 2 ^ 31

instance (x y : ℤ) : Decidable (SameHalf x y) := by unfold SameHalf; infer_instance

end Ext4Fsd.Lib.CInt
