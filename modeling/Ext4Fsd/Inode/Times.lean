import Ext4Fsd.Lib.CInt
import Mathlib.Data.Nat.Bitwise

/-! # The times of an inode

A time is stored as its low 32 bits and an extra word: two epoch bits under 30 bits of nanoseconds.
The low bits are read back sign-extended, so the epoch has to make up for the sign: it is meant to
be that of the seconds less their signed low word.

`__s32` is an unsigned type here, and `ext4_encode_extra_time` takes the bits 32 and 33 of the
seconds. Every time whose low word has its top bit set comes back in another epoch
(`seconds_back_iff`); the nanoseconds always come back. -/

namespace Ext4Fsd.Inode.Times

open Ext4Fsd.Lib.CInt

/-! ### The code -/

/-- `struct drv_timespec`: two values of type `__s64`, which is unsigned. -/
structure DrvTimespec where
  tvSec : ℤ
  tvNsec : ℤ
  deriving DecidableEq

/-- `EXT4_EPOCH_BITS`. -/
def epochBits : ℕ := 2

/-- `EXT4_EPOCH_MASK`. -/
def epochMask : ℕ := 2 ^ epochBits - 1

/-- `EXT4_NSEC_MASK`, of type `unsigned long`. -/
def nsecMask : ℕ := 2 ^ 32 - 2 ^ epochBits

/-- `ext4_encode_extra_time`. -/
def ext4EncodeExtraTime (time : DrvTimespec) : ℤ :=
  let extra : ℤ := Nat.land (toU64 (time.tvSec - toU32 time.tvSec) / 2 ^ 32).toNat epochMask
  toI32 (Nat.lor (toU64 extra).toNat (toU64 (time.tvNsec * 2 ^ epochBits)).toNat)

/-- `ext4_decode_extra_time`. -/
def ext4DecodeExtraTime (time : DrvTimespec) (extra : ℤ) : DrvTimespec :=
  let epoch := Nat.land (toU32 extra).toNat epochMask
  { tvSec := if epoch ≠ 0 then toU64 (time.tvSec + epoch * 2 ^ 32) else time.tvSec
    tvNsec := (Nat.land (toU32 extra).toNat nsecMask / 2 ^ epochBits : ℕ) }

/-- The times of `struct ext4_inode`. -/
inductive Xtime | iAtime | iCtime | iMtime | iCrtime
  deriving DecidableEq

/-- `FIELD_OFFSET (struct ext4_inode, xtime)`. -/
def Xtime.offset : Xtime → ℕ
  | iAtime => 8
  | iCtime => 12
  | iMtime => 16
  | iCrtime => 144

/-- `FIELD_OFFSET (struct ext4_inode, xtime ## _extra)`. -/
def Xtime.extraOffset : Xtime → ℕ
  | iCtime => 132
  | iMtime => 136
  | iAtime => 140
  | iCrtime => 148

/-- The times in `struct ext4_inode`, a `__le32` and its `_extra` for each. -/
structure Ext4Inode where
  xtime : Xtime → ℤ
  extra : Xtime → ℤ

/-- The inode in memory: its times and the `i_extra_isize` of its `EXT4_I (inode)`. -/
structure InodeInfo where
  xtime : Xtime → DrvTimespec
  iExtraIsize : ℤ

section
variable (goodOldInodeSize : ℤ)

/-- `EXT4_FITS_IN_INODE`, for a field of four bytes; the comparison is unsigned. -/
def fitsInInode (inode : InodeInfo) (offset : ℕ) : Prop :=
  (offset + 4 : ℤ) ≤ toU32 (goodOldInodeSize + inode.iExtraIsize)

instance (inode : InodeInfo) (offset : ℕ) :
    Decidable (fitsInInode goodOldInodeSize inode offset) := by
  unfold fitsInInode; infer_instance

/-- Store the `_extra` of a time when it fits. -/
def setExtra (x : Xtime) (inode : InodeInfo) (raw : Ext4Inode) : Ext4Inode :=
  if fitsInInode goodOldInodeSize inode x.extraOffset then
    { raw with extra := Function.update raw.extra x (ext4EncodeExtraTime (inode.xtime x)) }
  else raw

/-- `EXT4_INODE_SET_XTIME`. -/
def ext4InodeSetXtime (x : Xtime) (inode : InodeInfo) (raw : Ext4Inode) : Ext4Inode :=
  setExtra goodOldInodeSize x inode
    { raw with xtime := Function.update raw.xtime x (toI32 (inode.xtime x).tvSec) }

/-- `EXT4_EINODE_SET_XTIME`. -/
def ext4EinodeSetXtime (x : Xtime) (einode : InodeInfo) (raw : Ext4Inode) : Ext4Inode :=
  setExtra goodOldInodeSize x einode
    (if fitsInInode goodOldInodeSize einode x.offset then
      { raw with xtime := Function.update raw.xtime x (toI32 (einode.xtime x).tvSec) }
    else raw)

/-- Read the `_extra` of a time whose seconds have been read. -/
def getExtra (x : Xtime) (inode : InodeInfo) (raw : Ext4Inode) (time : DrvTimespec) : InodeInfo :=
  let decoded := if fitsInInode goodOldInodeSize inode x.extraOffset then
      ext4DecodeExtraTime time (raw.extra x)
    else { time with tvNsec := 0 }
  { inode with xtime := Function.update inode.xtime x decoded }

/-- `EXT4_INODE_GET_XTIME`; the cast to `signed` makes it sign-extend. -/
def ext4InodeGetXtime (x : Xtime) (inode : InodeInfo) (raw : Ext4Inode) : InodeInfo :=
  getExtra goodOldInodeSize x inode raw
    { inode.xtime x with tvSec := toU64 (toI32 (raw.xtime x)) }

/-- `EXT4_EINODE_GET_XTIME`. -/
def ext4EinodeGetXtime (x : Xtime) (einode : InodeInfo) (raw : Ext4Inode) : InodeInfo :=
  getExtra goodOldInodeSize x einode raw
    { einode.xtime x with
      tvSec := if fitsInInode goodOldInodeSize einode x.offset then toU64 (toI32 (raw.xtime x))
        else 0 }

end

/-! ### The extra word -/

theorem land_epochMask (n : ℕ) : Nat.land n epochMask = n % 4 := Nat.and_two_pow_sub_one_eq_mod n 2

/-- The mask of the nanoseconds takes out the epoch. -/
theorem land_nsecMask {n : ℕ} (hn : n < 2 ^ 32) :
    Nat.land n nsecMask / 2 ^ epochBits = n / 2 ^ epochBits := by
  refine Nat.eq_of_testBit_eq fun i => ?_
  have hmask : nsecMask.testBit (i + epochBits) = decide (i + 2 < 32) := by
    have hsplit : nsecMask = 2 ^ 2 * (2 ^ 30 - 1) := by decide
    rw [hsplit, Nat.testBit_two_pow_mul, Nat.testBit_two_pow_sub_one]
    unfold epochBits
    simp
    omega
  rw [Nat.testBit_div_two_pow, Nat.testBit_div_two_pow]
  refine (Nat.testBit_and n nsecMask _).trans ?_
  rw [hmask]
  by_cases hi : i + 2 < 32
  · simp [hi]
  · have hlarge : n < 2 ^ (i + epochBits) :=
      lt_of_lt_of_le hn (Nat.pow_le_pow_right (by decide) (by unfold epochBits; omega))
    rw [Nat.testBit_eq_false_of_lt hlarge, Bool.false_and]

/-- The epoch and the nanoseconds lie side by side. -/
theorem lor_epoch {e n : ℕ} (he : e < 4) : Nat.lor e (n * 2 ^ epochBits) = e + 4 * n := by
  have hor := Nat.two_pow_add_eq_or_of_lt (i := 2) he n
  change e ||| n * 2 ^ 2 = _
  rw [Nat.or_comm, Nat.mul_comm, ← hor]
  omega

section
variable {sec nsec : ℤ}

/-- **The word stored** for the bits `sec` of the seconds. -/
theorem encode_eq (hnsec : 0 ≤ nsec) (hnsec' : nsec < 2 ^ 30) :
    toU32 (ext4EncodeExtraTime ⟨toU64 sec, nsec⟩) = sec / 2 ^ 32 % 4 + 4 * nsec := by
  have hepoch : (toU64 (toU64 sec - toU32 (toU64 sec)) / 2 ^ 32).toNat % 4 =
      (sec / 2 ^ 32 % 4).toNat := by
    unfold toU64 toU32
    omega
  unfold ext4EncodeExtraTime
  rw [toU32_toI32]
  dsimp only
  rw [land_epochMask, hepoch]
  have hlow : (toU64 ((sec / 2 ^ 32 % 4).toNat : ℤ)).toNat = (sec / 2 ^ 32 % 4).toNat := by
    unfold toU64
    omega
  have hhigh : (toU64 (nsec * 2 ^ epochBits)).toNat = nsec.toNat * 2 ^ epochBits := by
    unfold toU64 epochBits
    omega
  rw [hlow, hhigh, lor_epoch (by omega)]
  unfold toU32
  omega

/-- **The time read back**: the sign-extended low word in the epoch of the bits 32 and 33. -/
theorem decode_encode (t : ℤ) (hnsec : 0 ≤ nsec) (hnsec' : nsec < 2 ^ 30) :
    ext4DecodeExtraTime ⟨toU64 (toI32 sec), t⟩ (ext4EncodeExtraTime ⟨toU64 sec, nsec⟩) =
      ⟨toU64 (toI32 sec + sec / 2 ^ 32 % 4 * 2 ^ 32), nsec⟩ := by
  have hword := @encode_eq sec nsec hnsec hnsec'
  have hepoch : (sec / 2 ^ 32 % 4 + 4 * nsec).toNat % 4 = (sec / 2 ^ 32 % 4).toNat := by omega
  unfold ext4DecodeExtraTime
  dsimp only
  rw [hword, land_epochMask, hepoch, land_nsecMask (by omega), DrvTimespec.mk.injEq]
  constructor
  · split_ifs with hzero
    · unfold toU64
      omega
    · unfold toU64
      omega
  · unfold epochBits
    omega

/-- **The seconds come back** exactly when their low word has a clear top bit. -/
theorem seconds_back_iff (h0 : -0x80000000 ≤ sec) (h1 : sec ≤ 0x37fffffff) :
    toU64 (toI32 sec + sec / 2 ^ 32 % 4 * 2 ^ 32) = toU64 sec ↔ sec % 2 ^ 32 < 2 ^ 31 := by
  unfold toU64 toI32
  omega

end

/-! ### Storing and reading -/

section
variable {goodOldInodeSize : ℤ} {x : Xtime} {inode inode' : InodeInfo} {raw : Ext4Inode}

/-- `EXT4_INODE_GET_XTIME` after `EXT4_INODE_SET_XTIME`. -/
theorem getXtime_setXtime (hfit : fitsInInode goodOldInodeSize inode x.extraOffset)
    (hfit' : fitsInInode goodOldInodeSize inode' x.extraOffset) :
    (ext4InodeGetXtime goodOldInodeSize x inode'
      (ext4InodeSetXtime goodOldInodeSize x inode raw)).xtime x =
    ext4DecodeExtraTime ⟨toU64 (toI32 (inode.xtime x).tvSec), (inode'.xtime x).tvNsec⟩
      (ext4EncodeExtraTime (inode.xtime x)) := by
  simp [ext4InodeGetXtime, ext4InodeSetXtime, getExtra, setExtra, hfit, hfit']

/-- `EXT4_EINODE_GET_XTIME` after `EXT4_EINODE_SET_XTIME`. -/
theorem getEXtime_setEXtime (hfield : fitsInInode goodOldInodeSize inode x.offset)
    (hfield' : fitsInInode goodOldInodeSize inode' x.offset)
    (hfit : fitsInInode goodOldInodeSize inode x.extraOffset)
    (hfit' : fitsInInode goodOldInodeSize inode' x.extraOffset) :
    (ext4EinodeGetXtime goodOldInodeSize x inode'
      (ext4EinodeSetXtime goodOldInodeSize x inode raw)).xtime x =
    ext4DecodeExtraTime ⟨toU64 (toI32 (inode.xtime x).tvSec), (inode'.xtime x).tvNsec⟩
      (ext4EncodeExtraTime (inode.xtime x)) := by
  simp [ext4EinodeGetXtime, ext4EinodeSetXtime, getExtra, setExtra, hfield, hfield', hfit, hfit']

end

/-- The time of `sec` seconds and `nsec` nanoseconds, both 64 bits wide. -/
def timeOf (sec nsec : ℤ) : DrvTimespec := ⟨toU64 sec, nsec⟩

/-- Both macros of a family store the time `time` of `inode` and read the same into `inode'`. -/
def ComesBack (goodOldInodeSize : ℤ) (x : Xtime) (inode inode' : InodeInfo) (raw : Ext4Inode)
    (time : DrvTimespec) : Prop :=
  (ext4InodeGetXtime goodOldInodeSize x inode'
    (ext4InodeSetXtime goodOldInodeSize x inode raw)).xtime x = time ∧
  (ext4EinodeGetXtime goodOldInodeSize x inode'
    (ext4EinodeSetXtime goodOldInodeSize x inode raw)).xtime x = time

/-- The nanoseconds come back, the seconds in the epoch of their bits 32 and 33. -/
theorem comesBack_epoch {goodOldInodeSize : ℤ} {x : Xtime} {inode inode' : InodeInfo}
    {raw : Ext4Inode} {sec nsec : ℤ} (hnsec : 0 ≤ nsec) (hnsec' : nsec < 10 ^ 9)
    (htime : inode.xtime x = timeOf sec nsec)
    (hfits : ∀ i ∈ [inode, inode'], fitsInInode goodOldInodeSize i x.offset ∧
      fitsInInode goodOldInodeSize i x.extraOffset) :
    ComesBack goodOldInodeSize x inode inode' raw
      (timeOf (toI32 sec + sec / 2 ^ 32 % 4 * 2 ^ 32) nsec) := by
  obtain ⟨hfield, hfit⟩ := hfits inode (by simp)
  obtain ⟨hfield', hfit'⟩ := hfits inode' (by simp)
  have hlow : toI32 (toU64 sec) = toI32 sec := by
    unfold toI32 toU64
    omega
  have hback := @decode_encode sec nsec (inode'.xtime x).tvNsec hnsec (by omega)
  unfold ComesBack
  rw [getXtime_setXtime hfit hfit', getEXtime_setEXtime hfield hfield' hfit hfit', htime]
  unfold timeOf
  rw [hlow, hback]
  exact ⟨rfl, rfl⟩

/-- **A time survives a write and a read** exactly when the low word of its seconds has a clear top
bit. -/
theorem comesBack_iff {goodOldInodeSize : ℤ} {x : Xtime} {inode inode' : InodeInfo}
    {raw : Ext4Inode} {sec nsec : ℤ} (h0 : -0x80000000 ≤ sec) (h1 : sec ≤ 0x37fffffff)
    (hnsec : 0 ≤ nsec) (hnsec' : nsec < 10 ^ 9) (htime : inode.xtime x = timeOf sec nsec)
    (hfits : ∀ i ∈ [inode, inode'], fitsInInode goodOldInodeSize i x.offset ∧
      fitsInInode goodOldInodeSize i x.extraOffset) :
    ComesBack goodOldInodeSize x inode inode' raw (inode.xtime x) ↔ sec % 2 ^ 32 < 2 ^ 31 := by
  have hback := @comesBack_epoch _ _ _ _ raw _ _ hnsec hnsec' htime hfits
  rw [← seconds_back_iff h0 h1, htime]
  unfold ComesBack at hback ⊢
  rw [hback.1, hback.2, and_self]
  unfold timeOf
  rw [DrvTimespec.mk.injEq]
  exact and_iff_left rfl

/-- An inode in memory whose times are all `time`. -/
def inodeOf (time : DrvTimespec) : InodeInfo := ⟨fun _ => time, 32⟩

/-- In the first second after the signed 32-bit times. -/
theorem comesBack_epoch_one : ¬ ∀ (goodOldInodeSize : ℤ) (x : Xtime) (inode inode' : InodeInfo)
    (raw : Ext4Inode) (sec nsec : ℤ), -0x80000000 ≤ sec → sec ≤ 0x37fffffff → 0 ≤ nsec →
      nsec < 10 ^ 9 → inode.xtime x = timeOf sec nsec →
      (∀ i ∈ [inode, inode'], fitsInInode goodOldInodeSize i x.offset ∧
        fitsInInode goodOldInodeSize i x.extraOffset) →
      ComesBack goodOldInodeSize x inode inode' raw (inode.xtime x) := by
  intro hall
  have hback := hall 128 .iMtime (inodeOf (timeOf 0x80000000 5)) (inodeOf (timeOf 0 0))
    ⟨fun _ => 0, fun _ => 0⟩ 0x80000000 5 (by decide) (by decide) (by decide) (by decide) rfl
    (by decide)
  exact absurd hback.1 (by decide)

/-- The first second of the epoch 1 with a clear top bit survives. -/
theorem comesBack_iff_low : ComesBack 128 .iMtime (inodeOf (timeOf 0x100000000 5))
    (inodeOf (timeOf 0 0)) ⟨fun _ => 0, fun _ => 0⟩ (timeOf 0x100000000 5) :=
  (@comesBack_iff 128 .iMtime (inodeOf (timeOf 0x100000000 5)) (inodeOf (timeOf 0 0))
    ⟨fun _ => 0, fun _ => 0⟩ 0x100000000 5 (by decide) (by decide) (by decide) (by decide) rfl
    (by decide)).mpr (by decide)

end Ext4Fsd.Inode.Times
