import Ext4Fsd.Journal.Termination

/-! # Block numbers in tags and in revoke records

A tag stores a block number in two halves, a revoke record stores it in one piece. The two decoders
should give it back, so that tags and records for the same block meet in the revoke table.

The halves come as signed words, and the high one is or-ed in without being shifted: what is decoded
from a tag is below `2 ^ 31` (`jbd2TagBlocknr_lt`). Below that bound all is well
(`namesAlike_iff`). -/

namespace Ext4Fsd.Journal.BlockNumbers

open Ext4Fsd.Lib.CInt
open Ext4Fsd.Journal.Format Ext4Fsd.Journal.Tags Ext4Fsd.Journal.Recovery
open Ext4Fsd.Journal.Termination

/-! ### What is stored -/

section
variable (h : Jbd2Handle) (buf : Block)

/-- `b` is a block number of the journal. -/
structure Representable (b : ℕ) : Prop where
  narrow : jbd2HasFeature64bit h.jhSb = false → b < 2 ^ 32
  wide : b < 2 ^ 63

/-- The tag at `t` stores the block number `b`. -/
structure TagStores (t b : ℕ) : Prop where
  low : be32 buf t = b % 2 ^ 32
  high : jbd2HasFeature64bit h.jhSb = true → be32 buf (t + 8) = b / 2 ^ 32

/-- The revoke record at `e` stores the block number `b`. -/
structure RecordStores (e b : ℕ) : Prop where
  narrow : jbd2HasFeature64bit h.jhSb = false → be32 buf e = b
  wide : jbd2HasFeature64bit h.jhSb = true → be64 buf e = b

/-- `key` is decoded from some tag or record that stores `b`. -/
def KeyOf (b : ℕ) (key : ℤ) : Prop :=
  (∃ buf t, TagStores h buf t b ∧ key = jbd2TagBlocknr h buf t) ∨
    ∃ buf e, RecordStores h buf e b ∧ key = jbd2RevokeEntryBlocknr h buf e

/-- Tags and records give the block number `b` back. -/
structure GivesBack (b : ℕ) : Prop where
  tag : ∀ buf t, TagStores h buf t b → jbd2TagBlocknr h buf t = b
  record : ∀ buf e, RecordStores h buf e b → jbd2RevokeEntryBlocknr h buf e = b

/-- **Tags and records name the blocks `b` and `b'` alike.** -/
structure NamesAlike (b b' : ℕ) : Prop where
  left : GivesBack h b
  right : GivesBack h b'
  same : ∀ k k', KeyOf h b k → KeyOf h b' k' → (k = k' ↔ b = b')

end

section
variable {h : Jbd2Handle} {buf : Block} {t b b' : ℕ}

/-! ### What is decoded from a tag -/

/-- A signed word as 64 bits: below `2 ^ 31`, or with the upper half set. -/
theorem toU64_toI32 (x : ℤ) : (toU64 (toI32 x)).toNat < 2 ^ 31 ∨
    2 ^ 63 ≤ (toU64 (toI32 x)).toNat ∧ (toU64 (toI32 x)).toNat < 2 ^ 64 := by
  have h0 := toI32_ge x
  have h1 := toI32_lt x
  unfold toU64
  omega

/-- Two signed words or-ed together stay below `2 ^ 31`. -/
theorem orU64_toI32_lt (x y : ℤ) : orU64 (toI32 x) (toI32 y) < 2 ^ 31 := by
  have hx := toU64_toI32 x
  have hy := toU64_toI32 y
  unfold orU64
  generalize (toU64 (toI32 x)).toNat = u at hx ⊢
  generalize (toU64 (toI32 y)).toNat = v at hy ⊢
  have hlt : Nat.lor u v < 2 ^ 64 := Nat.or_lt_two_pow (by omega) (by omega)
  have hu : u ≤ Nat.lor u v := Nat.left_le_or
  have hv : v ≤ Nat.lor u v := Nat.right_le_or
  by_cases hsmall : u < 2 ^ 31 ∧ v < 2 ^ 31
  · have hor : Nat.lor u v < 2 ^ 31 := Nat.or_lt_two_pow hsmall.1 hsmall.2
    unfold toI64
    omega
  · unfold toI64
    omega

/-- An empty high half does no harm. -/
theorem orU64_zero {x : ℤ} (h0 : 0 ≤ x) (h1 : x < 2 ^ 31) : orU64 x 0 = x := by
  have hz : (toU64 0).toNat = 0 := rfl
  have hx : ((toU64 x).toNat : ℤ) = x := by
    unfold toU64
    omega
  unfold orU64
  rw [hz, show Nat.lor (toU64 x).toNat 0 = (toU64 x).toNat from Nat.or_zero _, hx]
  unfold toI64
  omega

/-- **No tag is decoded to a block number from `2 ^ 31` on.** -/
theorem jbd2TagBlocknr_lt (h : Jbd2Handle) (buf : Block) (t : ℕ) :
    jbd2TagBlocknr h buf t < 2 ^ 31 := by
  unfold jbd2TagBlocknr be32ToCpu
  dsimp only
  split_ifs
  · exact orU64_toI32_lt _ _
  · exact toI32_lt _

theorem jbd2TagBlocknr_of_lt (ht : TagStores h buf t b) (hb : b < 2 ^ 31) :
    jbd2TagBlocknr h buf t = b := by
  obtain ⟨hlow, hhigh⟩ := ht
  have hl : toI32 (be32 buf t) = b := by
    rw [hlow]
    unfold toI32
    omega
  unfold jbd2TagBlocknr be32ToCpu
  dsimp only
  rw [hl]
  split_ifs with h64
  · have hh : toI32 (be32 buf (t + 8)) = 0 := by
      rw [hhigh h64]
      unfold toI32
      omega
    rw [hh]
    exact orU64_zero (by omega) (by omega)
  · rfl

theorem jbd2RevokeEntryBlocknr_of_lt {e : ℕ} (he : RecordStores h buf e b) (hb : b < 2 ^ 31) :
    jbd2RevokeEntryBlocknr h buf e = b := by
  unfold jbd2RevokeEntryBlocknr
  split_ifs with h64
  · have hw := he.wide h64
    unfold be64ToCpu toI64
    omega
  · have hn := he.narrow (Bool.not_eq_true _ ▸ h64)
    unfold be32ToCpu toI32
    omega

/-! ### Which block numbers survive -/

theorem givesBack_of_lt (hb : b < 2 ^ 31) : GivesBack h b :=
  ⟨fun _ _ ht => jbd2TagBlocknr_of_lt ht hb, fun _ _ he => jbd2RevokeEntryBlocknr_of_lt he hb⟩

/-- Every block number can be stored in a tag. -/
theorem exists_tagStores (h : Jbd2Handle) (hb : b < 2 ^ 63) : ∃ buf, TagStores h buf 0 b := by
  refine ⟨putBe32 (putBe32 (fun _ => 0) 8 (b / 2 ^ 32)) 0 (b % 2 ^ 32), ?_, fun _ => ?_⟩
  · exact be32_putBe32 _ _ (by omega)
  · rw [be32_putBe32_of_disjoint _ _ (by omega)]
    exact be32_putBe32 _ _ (by omega)

theorem givesBack_iff (hb : Representable h b) : GivesBack h b ↔ b < 2 ^ 31 := by
  refine ⟨fun hg => ?_, givesBack_of_lt⟩
  obtain ⟨buf, ht⟩ := exists_tagStores h hb.wide
  have hdec := hg.tag buf 0 ht
  have hlt := jbd2TagBlocknr_lt h buf 0
  omega

theorem GivesBack.key {k : ℤ} (hg : GivesBack h b) (hk : KeyOf h b k) : k = b := by
  rcases hk with ⟨buf, t, ht, hk⟩ | ⟨buf, e, he, hk⟩
  · rw [hk, hg.tag buf t ht]
  · rw [hk, hg.record buf e he]

/-- **Tags and records name two blocks alike exactly below `2 ^ 31`**, with and without 64-bit block
numbers. -/
theorem namesAlike_iff (hb : Representable h b) (hb' : Representable h b') :
    NamesAlike h b b' ↔ b < 2 ^ 31 ∧ b' < 2 ^ 31 := by
  constructor
  · intro hn
    exact ⟨(givesBack_iff hb).mp hn.left, (givesBack_iff hb').mp hn.right⟩
  · rintro ⟨h1, h2⟩
    have hg := (givesBack_iff hb).mpr h1
    have hg' := (givesBack_iff hb').mpr h2
    refine ⟨hg, hg', fun k k' hk hk' => ?_⟩
    rw [hg.key hk, hg'.key hk']
    exact Nat.cast_inj

/-- Two small block numbers. -/
theorem namesAlike_small : NamesAlike (smallJournal 1) 5 6 :=
  (namesAlike_iff ⟨fun _ => by decide, by decide⟩ ⟨fun _ => by decide, by decide⟩).mpr
    ⟨by decide, by decide⟩

/-- A tag for block `2 ^ 31` is decoded to another block. -/
theorem highBlock_renamed : ¬ ∀ (h : Jbd2Handle) (b b' : ℕ), Representable h b →
    Representable h b' → NamesAlike h b b' := by
  intro hall
  have hn := hall (smallJournal 1) (2 ^ 31) 5 ⟨fun _ => by decide, by decide⟩
    ⟨fun _ => by decide, by decide⟩
  have htag : TagStores (smallJournal 1) (putBe32 (fun _ => 0) 0 (2 ^ 31)) 0 (2 ^ 31) :=
    ⟨be32_putBe32 _ _ (by decide), fun hc => absurd hc (by decide +kernel)⟩
  have hlt := jbd2TagBlocknr_lt (smallJournal 1) (putBe32 (fun _ => 0) 0 (2 ^ 31)) 0
  rw [hn.left.tag _ _ htag] at hlt
  exact absurd hlt (by decide)

end

end Ext4Fsd.Journal.BlockNumbers
