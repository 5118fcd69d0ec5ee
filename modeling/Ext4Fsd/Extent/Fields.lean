import Ext4Fsd.Extent.Layout
import Mathlib.Data.Nat.Bitwise

/-! # The fields of an entry

The accessors of `ext4_fs.h` for `struct ext4_extent` and `struct ext4_extent_idx`, with the types
of the driver: `__le16`, `__le32` and `ext4_fsblk_t` are signed, `unsigned long` is 32 bits wide.

The operations on the tree are modelled with the unsigned readings of `Layout`, which are those that
the comments of `ext4_fs.h` describe. The two readings are the same on the lengths below `2 ^ 15`
(`actualLen_unsigned_iff`) and on the block numbers whose two parts have their top bits clear
(`pblk_unsigned_iff`).

A block number is put together from its low 32 bits and its high 16 bits, both sign-extended; it
comes back when the bits 31 and 47 are clear (`pblkOf_store_iff`). A length with its top bit set is
negative, so that `ext4_ext_get_actual_len` is negative for every unwritten extent
(`actualLen_markUnwritten`). -/

namespace Ext4Fsd.Extent.Fields

open Ext4Fsd.Lib.CInt

/-! ### The code -/

/-- `struct ext4_extent`. -/
structure Ext4Extent where
  eeBlock : BitVec 32
  eeLen : BitVec 16
  eeStartHi : BitVec 16
  eeStartLo : BitVec 32
  deriving DecidableEq

/-- `struct ext4_extent_idx`. -/
structure Ext4ExtentIdx where
  eiBlock : BitVec 32
  eiLeafLo : BitVec 32
  eiLeafHi : BitVec 16
  eiUnused : BitVec 16
  deriving DecidableEq

/-- `EXT_INIT_MAX_LEN`, of type `unsigned long`. -/
def extInitMaxLen : ℤ := 2 ^ 15

/-- `ext4_ext_mark_unwritten`. -/
def ext4ExtMarkUnwritten (ext : Ext4Extent) : Ext4Extent :=
  { ext with eeLen := ext.eeLen ||| BitVec.ofInt 16 extInitMaxLen }

/-- `ext4_ext_is_unwritten`. The length is converted to `unsigned long`. -/
def ext4ExtIsUnwritten (ext : Ext4Extent) : Bool := toU32 ext.eeLen.toInt > extInitMaxLen

/-- `ext4_ext_get_actual_len`. -/
def ext4ExtGetActualLen (ext : Ext4Extent) : ℤ :=
  toI32 (if toU32 ext.eeLen.toInt ≤ extInitMaxLen then toU32 ext.eeLen.toInt
    else toU32 (ext.eeLen.toInt - extInitMaxLen))

/-- `ext4_ext_mark_initialized`. -/
def ext4ExtMarkInitialized (ext : Ext4Extent) : Ext4Extent :=
  { ext with eeLen := BitVec.ofInt 16 (ext4ExtGetActualLen ext) }

/-- The two parts of a block number put together; both are of signed types. -/
def pblkOf (lo : BitVec 32) (hi : BitVec 16) : BitVec 64 :=
  lo.signExtend 64 ||| (hi.signExtend 64 <<< 31) <<< 1

/-- The low part of a block number. -/
def pblkLo (pb : BitVec 64) : BitVec 32 := (pb &&& 0xffffffff).setWidth 32

/-- The high part of a block number. -/
def pblkHi (pb : BitVec 64) : BitVec 16 :=
  (((pb.sshiftRight 31).sshiftRight 1).setWidth 32 &&& 0xffff).setWidth 16

/-- `ext4_ext_pblk`. -/
def ext4ExtPblk (ex : Ext4Extent) : BitVec 64 := pblkOf ex.eeStartLo ex.eeStartHi

/-- `ext4_idx_pblk`. -/
def ext4IdxPblk (ix : Ext4ExtentIdx) : BitVec 64 := pblkOf ix.eiLeafLo ix.eiLeafHi

/-- `ext4_ext_lblk`. -/
def ext4ExtLblk (ex : Ext4Extent) : BitVec 32 := ex.eeBlock

/-- `ext4_idx_lblk`. -/
def ext4IdxLblk (ix : Ext4ExtentIdx) : BitVec 32 := ix.eiBlock

/-- `ext4_ext_store_pblk`. -/
def ext4ExtStorePblk (ex : Ext4Extent) (pb : BitVec 64) : Ext4Extent :=
  { ex with eeStartLo := pblkLo pb, eeStartHi := pblkHi pb }

/-- `ext4_idx_store_pblk`. -/
def ext4IdxStorePblk (ix : Ext4ExtentIdx) (pb : BitVec 64) : Ext4ExtentIdx :=
  { ix with eiLeafLo := pblkLo pb, eiLeafHi := pblkHi pb }

/-! ### Block numbers -/

section
variable {pb : BitVec 64}

theorem getLsbD_pblkLo (pb : BitVec 64) (i : ℕ) :
    (pblkLo pb).getLsbD i = (decide (i < 32) && pb.getLsbD i) := by
  have hmask : (0xffffffff : BitVec 64) = BitVec.ofNat 64 (2 ^ 32 - 1) := by decide
  unfold pblkLo
  rw [BitVec.getLsbD_setWidth, BitVec.getLsbD_and, hmask, BitVec.getLsbD_ofNat,
    Nat.testBit_two_pow_sub_one]
  by_cases hi : i < 32
  · have hi' : i < 64 := by omega
    simp [hi, hi']
  · simp [hi]

theorem getLsbD_pblkHi (pb : BitVec 64) (i : ℕ) :
    (pblkHi pb).getLsbD i = (decide (i < 16) && pb.getLsbD (i + 32)) := by
  have hmask : (0xffff : BitVec 32) = BitVec.ofNat 32 (2 ^ 16 - 1) := by decide
  unfold pblkHi
  rw [BitVec.getLsbD_setWidth, BitVec.getLsbD_and, hmask, BitVec.getLsbD_ofNat,
    Nat.testBit_two_pow_sub_one, BitVec.getLsbD_setWidth, BitVec.getLsbD_sshiftRight,
    BitVec.getLsbD_sshiftRight]
  by_cases hi : i < 16
  · have hsum : 31 + (1 + i) = i + 32 := by omega
    have h1 : 1 + i < 64 := by omega
    have h2 : i + 32 < 64 := by omega
    have h3 : i < 32 := by omega
    have h4 : ¬ 64 ≤ i := by omega
    have h5 : ¬ 64 ≤ 1 + i := by omega
    simp [hi, h1, h2, h3, h4, h5, hsum]
  · simp [hi]

/-- The bits of the number put together: those of the parts, and the two signs. -/
theorem getLsbD_pblkOf_store (pb : BitVec 64) {i : ℕ} (hi : i < 64) :
    (pblkOf (pblkLo pb) (pblkHi pb)).getLsbD i =
      if i < 32 then pb.getLsbD i
      else pb.getLsbD 31 || if i < 48 then pb.getLsbD i else pb.getLsbD 47 := by
  have hlo : ((pblkLo pb).signExtend 64).getLsbD i =
      if i < 32 then pb.getLsbD i else pb.getLsbD 31 := by
    rw [BitVec.getLsbD_signExtend, BitVec.msb_eq_getLsbD_last, getLsbD_pblkLo, getLsbD_pblkLo]
    split_ifs with h32 <;> simp [hi, h32]
  have hhi : (((pblkHi pb).signExtend 64 <<< 31) <<< 1).getLsbD i =
      if i < 32 then false else if i < 48 then pb.getLsbD i else pb.getLsbD 47 := by
    rw [BitVec.getLsbD_shiftLeft, BitVec.getLsbD_shiftLeft, BitVec.getLsbD_signExtend,
      BitVec.msb_eq_getLsbD_last, getLsbD_pblkHi, getLsbD_pblkHi]
    by_cases h32 : i < 32
    · rw [if_pos h32]
      by_cases h1 : i < 1
      · simp [h1]
      · have h2 : i - 1 < 31 := by omega
        simp [h2]
    · have h1 : ¬ i < 1 := by omega
      have h2 : ¬ i - 1 < 31 := by omega
      have h4 : i - 1 < 64 := by omega
      have h5 : i - 1 - 31 < 64 := by omega
      rw [if_neg h32]
      by_cases h48 : i < 48
      · have hsub : i - 1 - 31 + 32 = i := by omega
        have h3 : i - 1 - 31 < 16 := by omega
        simp [hi, h1, h2, h3, h4, h5, h48, hsub]
      · have h3 : ¬ i - 1 - 31 < 16 := by omega
        simp [hi, h1, h2, h3, h4, h5, h48]
  unfold pblkOf
  rw [BitVec.getLsbD_or, hlo, hhi]
  split_ifs <;> simp

/-- **A stored block number comes back** exactly when its bits 31 and 47 are clear. -/
theorem pblkOf_store_iff (hpb : pb.toNat < 2 ^ 48) :
    pblkOf (pblkLo pb) (pblkHi pb) = pb ↔ pb.getLsbD 31 = false ∧ pb.getLsbD 47 = false := by
  have hhigh : ∀ i, 48 ≤ i → pb.getLsbD i = false := fun i hi =>
    Nat.testBit_eq_false_of_lt (lt_of_lt_of_le hpb (Nat.pow_le_pow_right (by decide) hi))
  constructor
  · intro heq
    have htop := getLsbD_pblkOf_store pb (i := 63) (by decide)
    rw [heq, hhigh 63 (by decide)] at htop
    simpa using htop
  · rintro ⟨h31, h47⟩
    refine BitVec.eq_of_getLsbD_eq fun i hi => ?_
    rw [getLsbD_pblkOf_store pb hi, h31, h47, Bool.false_or]
    split_ifs with h32 h48
    · rfl
    · rfl
    · exact (hhigh i (by omega)).symm

end

/-! ### Lengths -/

section
variable {ext : Ext4Extent}

theorem isUnwritten_iff : ext4ExtIsUnwritten ext = true ↔ ext.eeLen.toInt < 0 := by
  have h0 := BitVec.le_toInt ext.eeLen
  have h1 := BitVec.toInt_lt (x := ext.eeLen)
  unfold ext4ExtIsUnwritten toU32 extInitMaxLen
  rw [decide_eq_true_eq]
  omega

/-- A length with its top bit set comes out negative. -/
theorem actualLen_eq : ext4ExtGetActualLen ext =
    if ext.eeLen.toInt < 0 then ext.eeLen.toInt - 2 ^ 15 else ext.eeLen.toInt := by
  have h0 := BitVec.le_toInt ext.eeLen
  have h1 := BitVec.toInt_lt (x := ext.eeLen)
  unfold ext4ExtGetActualLen toU32 toI32 extInitMaxLen
  split_ifs <;> omega

/-- Only an extent that is not unwritten has an actual length above 0. -/
theorem toInt_of_actualLen (h0 : 0 < ext4ExtGetActualLen ext) :
    ext.eeLen.toInt = ext4ExtGetActualLen ext := by
  rw [actualLen_eq] at h0 ⊢
  split_ifs at h0 ⊢ with hneg
  · omega
  · rfl

theorem toInt_markUnwritten (h0 : 0 ≤ ext.eeLen.toInt) :
    (ext4ExtMarkUnwritten ext).eeLen.toInt = ext.eeLen.toInt - 2 ^ 15 := by
  have hlt : ext.eeLen.toNat < 2 ^ 15 := by
    have hval := BitVec.toInt_eq_toNat_cond ext.eeLen
    have hwidth := ext.eeLen.isLt
    split_ifs at hval with hlow <;> omega
  have hor : ext.eeLen.toNat ||| 2 ^ 15 = ext.eeLen.toNat + 2 ^ 15 := by
    have hsum := Nat.two_pow_add_eq_or_of_lt hlt 1
    rw [mul_one] at hsum
    rw [Nat.or_comm, ← hsum, Nat.add_comm]
  have hnat : (ext4ExtMarkUnwritten ext).eeLen.toNat = ext.eeLen.toNat + 2 ^ 15 := by
    rw [← hor]
    exact BitVec.toNat_or ext.eeLen (BitVec.ofInt 16 extInitMaxLen)
  have hval := BitVec.toInt_eq_toNat_cond (ext4ExtMarkUnwritten ext).eeLen
  have hval' := BitVec.toInt_eq_toNat_cond ext.eeLen
  rw [hnat, if_neg (by omega)] at hval
  rw [if_pos (by omega)] at hval'
  rw [hval, hval']
  omega

/-- The actual length of an extent that has been marked unwritten. -/
theorem actualLen_markUnwritten (h0 : 0 < ext4ExtGetActualLen ext) :
    ext4ExtGetActualLen (ext4ExtMarkUnwritten ext) = ext4ExtGetActualLen ext - 2 ^ 16 := by
  have hlen := toInt_of_actualLen h0
  have h1 := BitVec.toInt_lt (x := ext.eeLen)
  have hmark := @toInt_markUnwritten ext (by omega)
  rw [actualLen_eq, hmark, if_pos (by omega), hlen]
  omega

/-- Marking initialised again restores the extent. -/
theorem markInitialized_markUnwritten (h0 : 0 < ext4ExtGetActualLen ext) :
    ext4ExtMarkInitialized (ext4ExtMarkUnwritten ext) = ext := by
  have hlen := toInt_of_actualLen h0
  have hback : BitVec.ofInt 16 (ext4ExtGetActualLen (ext4ExtMarkUnwritten ext)) = ext.eeLen := by
    have h1 := BitVec.toInt_lt (x := ext.eeLen)
    rw [actualLen_markUnwritten h0, ← hlen]
    refine BitVec.eq_of_toInt_eq ?_
    rw [BitVec.toInt_ofInt, Int.bmod_def]
    split_ifs <;> omega
  unfold ext4ExtMarkInitialized
  rw [hback]
  rfl

theorem isUnwritten_markUnwritten (h0 : 0 < ext4ExtGetActualLen ext) :
    ext4ExtIsUnwritten ext = false ∧ ext4ExtIsUnwritten (ext4ExtMarkUnwritten ext) = true := by
  have hlen := toInt_of_actualLen h0
  have h1 := BitVec.toInt_lt (x := ext.eeLen)
  have hmark := @toInt_markUnwritten ext (by omega)
  rw [isUnwritten_iff, ← Bool.not_eq_true, isUnwritten_iff, hmark]
  omega

end

/-! ### The unsigned reading -/

section
variable {ext : Ext4Extent}

/-- The entry in the words of the disk. -/
def slotOf (ext : Ext4Extent) : Layout.Slot :=
  ⟨ext.eeBlock.toNat, ext.eeLen.toNat, ext.eeStartHi.toNat, ext.eeStartLo.toNat⟩

/-- **The two readings of a length** are the same exactly when its top bit is clear. -/
theorem actualLen_unsigned_iff :
    ext4ExtGetActualLen ext = Layout.ext4ExtGetActualLen (slotOf ext) ↔
      ext.eeLen.toNat < 2 ^ 15 := by
  have hval := BitVec.toInt_eq_toNat_cond ext.eeLen
  have hwidth := ext.eeLen.isLt
  rw [actualLen_eq]
  unfold Layout.ext4ExtGetActualLen Layout.extInitMaxLen slotOf
  dsimp only
  split_ifs at hval ⊢ <;> omega

/-- The two readings take the same extents for unwritten, but for the length `2 ^ 15`. -/
theorem isUnwritten_unsigned_iff :
    ext4ExtIsUnwritten ext = Layout.ext4ExtIsUnwritten (slotOf ext) ↔
      ext.eeLen.toNat ≠ 2 ^ 15 := by
  have hval := BitVec.toInt_eq_toNat_cond ext.eeLen
  have hwidth := ext.eeLen.isLt
  rw [Bool.eq_iff_iff, isUnwritten_iff]
  unfold Layout.ext4ExtIsUnwritten Layout.extInitMaxLen slotOf
  rw [decide_eq_true_eq]
  dsimp only
  split_ifs at hval <;> omega

/-- The parts of the number that is read without signs. -/
theorem pblk_parts (lo : BitVec 32) (hi : BitVec 16) :
    pblkLo (BitVec.ofNat 64 (2 ^ 32 * hi.toNat + lo.toNat)) = lo ∧
      pblkHi (BitVec.ofNat 64 (2 ^ 32 * hi.toNat + lo.toNat)) = hi := by
  have hbit := Nat.testBit_two_pow_mul_add hi.toNat lo.isLt
  refine ⟨BitVec.eq_of_getLsbD_eq fun i hi' => ?_, BitVec.eq_of_getLsbD_eq fun i hi' => ?_⟩
  · have h64 : i < 64 := by omega
    rw [getLsbD_pblkLo, BitVec.getLsbD_ofNat, hbit, if_pos hi']
    simp [hi', h64, BitVec.getLsbD]
  · have h64 : i + 32 < 64 := by omega
    rw [getLsbD_pblkHi, BitVec.getLsbD_ofNat, hbit, if_neg (by omega), Nat.add_sub_cancel]
    simp [hi', h64, BitVec.getLsbD]

/-- **The two readings of a block number** are the same exactly when the top bits of its parts are
clear. -/
theorem pblk_unsigned_iff :
    (ext4ExtPblk ext).toNat = Layout.ext4ExtPblock (slotOf ext) ↔
      ext.eeStartLo.toNat < 2 ^ 31 ∧ ext.eeStartHi.toNat < 2 ^ 15 := by
  have hlo := ext.eeStartLo.isLt
  have hhi := ext.eeStartHi.isLt
  obtain ⟨hpl, hph⟩ := pblk_parts ext.eeStartLo ext.eeStartHi
  obtain ⟨pb, hpb⟩ :
      ∃ pb, pb = BitVec.ofNat 64 (2 ^ 32 * ext.eeStartHi.toNat + ext.eeStartLo.toNat) :=
    ⟨_, rfl⟩
  rw [← hpb] at hpl hph
  have hnat : pb.toNat = 2 ^ 32 * ext.eeStartHi.toNat + ext.eeStartLo.toNat := by
    rw [hpb, BitVec.toNat_ofNat, Nat.mod_eq_of_lt (by omega)]
  have hslot : Layout.ext4ExtPblock (slotOf ext) = pb.toNat := by
    rw [hnat, Nat.add_comm]
    rfl
  have hblk : ext4ExtPblk ext = pblkOf (pblkLo pb) (pblkHi pb) := by
    rw [hpl, hph]
    rfl
  have hbit := Nat.testBit_two_pow_mul_add ext.eeStartHi.toNat hlo
  have h31 : pb.getLsbD 31 = decide (2 ^ 31 ≤ ext.eeStartLo.toNat) := by
    unfold BitVec.getLsbD
    rw [hnat, hbit, if_pos (by decide), Nat.testBit_eq_decide_div_mod_eq]
    exact decide_eq_decide.mpr (by omega)
  have h47 : pb.getLsbD 47 = decide (2 ^ 15 ≤ ext.eeStartHi.toNat) := by
    unfold BitVec.getLsbD
    rw [hnat, hbit, if_neg (by decide), Nat.testBit_eq_decide_div_mod_eq]
    exact decide_eq_decide.mpr (by omega)
  rw [hslot, hblk, BitVec.toNat_inj, pblkOf_store_iff (by omega), h31, h47, decide_eq_false_iff_not,
    decide_eq_false_iff_not, not_le, not_le]

end

/-! ### The documented properties -/

/-- **A block number survives** in the extent `ex` and the index entry `ix`, and changes neither
their logical blocks nor the length. -/
structure KeepsBlock (pb : BitVec 64) (ex : Ext4Extent) (ix : Ext4ExtentIdx) : Prop where
  extPblk : ext4ExtPblk (ext4ExtStorePblk ex pb) = pb
  idxPblk : ext4IdxPblk (ext4IdxStorePblk ix pb) = pb
  extLblk : ext4ExtLblk (ext4ExtStorePblk ex pb) = ext4ExtLblk ex
  idxLblk : ext4IdxLblk (ext4IdxStorePblk ix pb) = ext4IdxLblk ix
  extLen : (ext4ExtStorePblk ex pb).eeLen = ex.eeLen

/-- **The length of `ext` survives** being marked unwritten and initialised again. -/
structure KeepsLength (ext : Ext4Extent) : Prop where
  restored : (ext4ExtMarkInitialized (ext4ExtMarkUnwritten ext)).eeLen = ext.eeLen
  between : ext4ExtGetActualLen (ext4ExtMarkUnwritten ext) = ext4ExtGetActualLen ext
  after : ext4ExtGetActualLen (ext4ExtMarkInitialized (ext4ExtMarkUnwritten ext)) =
    ext4ExtGetActualLen ext
  written : ext4ExtIsUnwritten ext = false
  unwritten : ext4ExtIsUnwritten (ext4ExtMarkUnwritten ext) = true
  initialized : ext4ExtIsUnwritten (ext4ExtMarkInitialized (ext4ExtMarkUnwritten ext)) = false

/-- **The round trips**: a block number survives when its bits 31 and 47 are clear, and no length is
the same number while the extent is unwritten. -/
theorem fields_roundTrip {pb : BitVec 64} (ex : Ext4Extent) (ix : Ext4ExtentIdx) {ext : Ext4Extent}
    (hpb : pb.toNat < 2 ^ 48) (h0 : 1 ≤ ext4ExtGetActualLen ext) :
    (KeepsBlock pb ex ix ↔ pb.getLsbD 31 = false ∧ pb.getLsbD 47 = false) ∧ ¬ KeepsLength ext := by
  refine ⟨⟨fun hkeep => (pblkOf_store_iff hpb).mp hkeep.extPblk, fun hbits => ?_⟩, fun hkeep => ?_⟩
  · have hback := (pblkOf_store_iff hpb).mpr hbits
    exact ⟨hback, hback, rfl, rfl, rfl⟩
  · have hlen := hkeep.between
    rw [actualLen_markUnwritten h0] at hlen
    omega

/-- An extent of one block. -/
def oneBlock : Ext4Extent := ⟨0, 1, 0, 0⟩

/-- An empty index entry. -/
def noIdx : Ext4ExtentIdx := ⟨0, 0, 0, 0⟩

theorem fields_roundTrip_oneBlock : KeepsBlock 0x100000001 oneBlock noIdx ∧
    ¬ KeepsLength oneBlock :=
  (fields_roundTrip oneBlock noIdx (by decide) (by decide)).imp_left
    (·.mpr (by decide))

/-- The block number `2 ^ 31` comes back negative. -/
theorem storePblk_signed : ¬ ∀ (pb : BitVec 64) (ex ext : Ext4Extent) (ix : Ext4ExtentIdx),
    pb.toNat < 2 ^ 48 → 1 ≤ ext4ExtGetActualLen ext → ext4ExtGetActualLen ext ≤ 32767 →
      KeepsBlock pb ex ix ∧ KeepsLength ext := by
  intro hall
  obtain ⟨hkeep, -⟩ := hall 0x80000000 oneBlock oneBlock noIdx (by decide) (by decide) (by decide)
  exact absurd hkeep.extPblk (by decide)

end Ext4Fsd.Extent.Fields
