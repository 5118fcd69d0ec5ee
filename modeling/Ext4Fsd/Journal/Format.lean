import Ext4Fsd.Lib.CInt

/-! # The journal format

The blocks of a journal as `jbd2_fs.h` lays them out, read through the accessors of `drv_endian.h`.
A block is a function from byte offsets to bytes; the structures of the header file are fixed
offsets into it. `__u16`, `__u32` and `__u64` are typedefs of *signed* types in `drv_types.h`
(`__s32` is the unsigned one), so `be32_to_cpu` delivers a signed number.

The feature predicates and the walk over the tags of a descriptor block are in `Tags`. -/

namespace Ext4Fsd.Journal.Format

open Ext4Fsd.Lib.CInt

/-- The bytes of one block, by offset. -/
abbrev Block := ℕ → UInt8

/-! ### Big-endian fields -/

/-- The 16-bit big-endian number at `off`. -/
def be16 (b : Block) (off : ℕ) : ℕ := (b off).toNat * 2 ^ 8 + (b (off + 1)).toNat

/-- The 32-bit big-endian number at `off`. -/
def be32 (b : Block) (off : ℕ) : ℕ := be16 b off * 2 ^ 16 + be16 b (off + 2)

/-- The 64-bit big-endian number at `off`. -/
def be64 (b : Block) (off : ℕ) : ℕ := be32 b off * 2 ^ 32 + be32 b (off + 4)

/-- `be16_to_cpu` of the field at `off`, a `__u16`. -/
def be16ToCpu (b : Block) (off : ℕ) : ℤ := toI16 (be16 b off)

/-- `be32_to_cpu` of the field at `off`, a `__u32`. -/
def be32ToCpu (b : Block) (off : ℕ) : ℤ := toI32 (be32 b off)

/-- `be64_to_cpu` of the field at `off`, a `__u64`. -/
def be64ToCpu (b : Block) (off : ℕ) : ℤ := toI64 (be64 b off)

/-- The block with `cpu_to_be32 (v)` stored at `off`. -/
def putBe32 (b : Block) (off : ℕ) (v : ℕ) : Block := fun i =>
  if i = off then UInt8.ofNat (v / 2 ^ 24)
  else if i = off + 1 then UInt8.ofNat (v / 2 ^ 16)
  else if i = off + 2 then UInt8.ofNat (v / 2 ^ 8)
  else if i = off + 3 then UInt8.ofNat v
  else b i

theorem be16_lt (b : Block) (off : ℕ) : be16 b off < 2 ^ 16 := by
  have h1 := (b off).toNat_lt
  have h2 := (b (off + 1)).toNat_lt
  unfold be16
  omega

theorem be32_lt (b : Block) (off : ℕ) : be32 b off < 2 ^ 32 := by
  have h1 := be16_lt b off
  have h2 := be16_lt b (off + 2)
  unfold be32
  omega

theorem be32_putBe32 (b : Block) (off : ℕ) {v : ℕ} (hv : v < 2 ^ 32) :
    be32 (putBe32 b off v) off = v := by
  have h0 : putBe32 b off v off = UInt8.ofNat (v / 2 ^ 24) := if_pos rfl
  have h1 : putBe32 b off v (off + 1) = UInt8.ofNat (v / 2 ^ 16) := by simp [putBe32]
  have h2 : putBe32 b off v (off + 2) = UInt8.ofNat (v / 2 ^ 8) := by simp [putBe32]
  have h3 : putBe32 b off v (off + 2 + 1) = UInt8.ofNat v := by simp [putBe32, Nat.add_assoc]
  unfold be32 be16
  rw [h0, h1, h2, h3]
  simp only [UInt8.toNat_ofNat']
  omega

/-- A store leaves the fields that do not overlap it. -/
theorem be32_putBe32_of_disjoint (b : Block) {off off' : ℕ} (v : ℕ)
    (h : off' + 4 ≤ off ∨ off + 4 ≤ off') : be32 (putBe32 b off v) off' = be32 b off' := by
  have hb : ∀ i, off' ≤ i → i < off' + 4 → putBe32 b off v i = b i := by
    intro i h1 h2
    unfold putBe32
    rw [if_neg (by omega), if_neg (by omega), if_neg (by omega), if_neg (by omega)]
  unfold be32 be16
  rw [hb off' (by omega) (by omega), hb (off' + 1) (by omega) (by omega),
    hb (off' + 2) (by omega) (by omega), hb (off' + 2 + 1) (by omega) (by omega)]

theorem putBe32_putBe32 (b : Block) (off v w : ℕ) :
    putBe32 (putBe32 b off v) off w = putBe32 b off w := by
  funext i
  unfold putBe32
  split_ifs <;> rfl

/-! ### Constants and headers -/

/-- `JBD2_MAGIC_NUMBER`. -/
def jbd2MagicNumber : ℕ := 0xc03b3998

def jbd2DescriptorBlock : ℤ := 1
def jbd2CommitBlock : ℤ := 2
def jbd2SuperblockV1 : ℤ := 3
def jbd2SuperblockV2 : ℤ := 4
def jbd2RevokeBlock : ℤ := 5

/-- `JBD2_FLAG_ESCAPE`, `JBD2_FLAG_SAME_UUID`, `JBD2_FLAG_LAST_TAG`. -/
def jbd2FlagEscape : ℕ := 1
def jbd2FlagSameUuid : ℕ := 2
def jbd2FlagLastTag : ℕ := 8

/-- `sizeof(journal_header_t)`. -/
def sizeofJournalHeader : ℕ := 12

/-- `sizeof(journal_block_tail_t)`. -/
def sizeofJournalBlockTail : ℕ := 4

/-- `UUID_SIZE`. -/
def uuidSize : ℕ := 16

/-- `h_magic`; it is only compared with the unsigned constant. -/
def hMagic (b : Block) : ℕ := be32 b 0
def hBlocktype (b : Block) : ℤ := be32ToCpu b 4
def hSequence (b : Block) : ℤ := be32ToCpu b 8

/-! ### The superblock -/

def sBlocksize (sb : Block) : ℤ := be32ToCpu sb 0x0c
def sMaxlen (sb : Block) : ℤ := be32ToCpu sb 0x10
def sFirst (sb : Block) : ℤ := be32ToCpu sb 0x14
def sSequence (sb : Block) : ℤ := be32ToCpu sb 0x18
def sStart (sb : Block) : ℤ := be32ToCpu sb 0x1c
def sFeatureIncompat (sb : Block) : ℕ := be32 sb 0x28
def sFeatureRoCompat (sb : Block) : ℕ := be32 sb 0x2c
def sMaxTransaction (sb : Block) : ℤ := be32ToCpu sb 0x48

/-- `JBD2_KNOWN_INCOMPAT_FEATURES` and `JBD2_KNOWN_ROCOMPAT_FEATURES`. -/
def jbd2KnownIncompatFeatures : ℕ := 0x1f
def jbd2KnownRocompatFeatures : ℕ := 0

/-- The bit of an incompatible feature, on a superblock new enough to carry feature fields
(`JBD2_FEATURE_INCOMPAT_FUNCS`). -/
def hasIncompat (sb : Block) (bit : ℕ) : Bool :=
  decide (2 ≤ hBlocktype sb) && (sFeatureIncompat sb).testBit bit

def jbd2HasFeature64bit (sb : Block) : Bool := hasIncompat sb 1
def jbd2HasFeatureCsum2 (sb : Block) : Bool := hasIncompat sb 3
def jbd2HasFeatureCsum3 (sb : Block) : Bool := hasIncompat sb 4

/-- Checksums of version 2 or 3 are on. The header files do not define this predicate. -/
def jbd2HasCsumV2or3 (sb : Block) : Bool := jbd2HasFeatureCsum2 sb || jbd2HasFeatureCsum3 sb

/-- The journal handle: the fields recovery reads. -/
structure Jbd2Handle where
  jhSb : Block
  jhCsumSeed : ℤ
  jhBlocksize : ℤ
  jhBlockcnt : ℤ
  jhUuid : List UInt8
  jhMaxTxn : ℤ
  jhStart : ℤ
  jhEnd : ℤ
  jhFreeStart : ℤ
  jhFreeEnd : ℤ
  jhFreeBlockcnt : ℤ

/-- `jbd2_wrap`: one turn around the log. -/
def jbd2Wrap (h : Jbd2Handle) (var : ℤ) : ℤ :=
  if var > h.jhEnd then toI32 (var - (h.jhEnd - h.jhStart + 1)) else var

/-- `jbd2_tid_cmp`. The casts to `__s32` read the difference as an unsigned number. -/
def jbd2TidCmp (a b : ℤ) : ℤ :=
  if toU32 (a - b) < 0 then -1 else if toU32 (a - b) > 0 then 1 else 0

/-- No difference is ever below zero: two different tids compare as "greater" both ways. -/
theorem jbd2TidCmp_pos_iff {a b : ℤ} : jbd2TidCmp a b > 0 ↔ toU32 (a - b) ≠ 0 := by
  have h := toU32_nonneg (a - b)
  unfold jbd2TidCmp
  rw [if_neg (by omega)]
  split_ifs with h1
  · omega
  · omega

/-! ### The status codes -/

/-- The `NTSTATUS` values of the driver's journal code. -/
inductive NtStatus
  | success
  | unsuccessful
  | unexpectedIoError
  | diskCorruptError
  | insufficientResources
  | unrecognizedVolume
  deriving DecidableEq, Repr

/-- `NT_SUCCESS (status)`. -/
def NtStatus.ntSuccess : NtStatus → Bool
  | .success => true
  | _ => false

/-- The value of the status as a truth value, as in `if (!status)`: only `STATUS_SUCCESS` is 0. -/
def NtStatus.nonzero : NtStatus → Bool
  | .success => false
  | _ => true

theorem ntSuccess_iff {st : NtStatus} : st.ntSuccess = true ↔ st = .success := by
  cases st <;> simp [NtStatus.ntSuccess]

theorem nonzero_iff {st : NtStatus} : st.nonzero = true ↔ st.ntSuccess = false := by
  cases st <;> simp [NtStatus.nonzero, NtStatus.ntSuccess]

end Ext4Fsd.Journal.Format
