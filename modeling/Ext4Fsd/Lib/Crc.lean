import Mathlib.Tactic
import Mathlib.Data.Nat.Bitwise

/-! # Cyclic redundancy checks

The reflected CRC of a polynomial, a natural number whose bit `i` is the coefficient of the power
that is left after `i` more bits: one step for each bit (`crcBit`), eight for each byte (`crcByte`).

A step is linear in exclusive or (`crcBit_xor`), so the eight steps of a byte are one look into a
table of 256 words (`crcByte_eq_table`). With the top bit of the polynomial set no bytes bring two
states together (`crcBytes_injective`). -/

namespace Ext4Fsd.Lib.Crc

/-- The low `w` bits of `p` in reverse order: the reflected form of a polynomial. -/
def reflect (w p : ℕ) : ℕ := (List.range w).foldl (fun r i => 2 * r + p / 2 ^ i % 2) 0

variable (poly : ℕ)

/-- One bit. -/
def crcBit (s : ℕ) : ℕ := if s % 2 = 1 then s / 2 ^^^ poly else s / 2

/-- The word of the table for the byte `i`. -/
def crcTable (i : ℕ) : ℕ := (crcBit poly)^[8] i

/-- One byte. -/
def crcByte (s : ℕ) (b : UInt8) : ℕ := (crcBit poly)^[8] (s ^^^ b.toNat)

/-- **The CRC of some bytes**, from the state `s`. -/
def crcBytes (s : ℕ) (bytes : List UInt8) : ℕ := bytes.foldl (crcByte poly) s

variable {poly}

theorem crcBytes_append (s : ℕ) (bytes bytes' : List UInt8) :
    crcBytes poly s (bytes ++ bytes') = crcBytes poly (crcBytes poly s bytes) bytes' :=
  List.foldl_append

/-! ### The table -/

theorem crcBit_xor (a b : ℕ) : crcBit poly (a ^^^ b) = crcBit poly a ^^^ crcBit poly b := by
  unfold crcBit
  rw [Nat.xor_div_two, Nat.xor_mod_two_eq]
  by_cases ha : a % 2 = 1
  · by_cases hb : b % 2 = 1
    · rw [if_neg (by omega), if_pos ha, if_pos hb, Nat.xor_assoc, ← Nat.xor_assoc poly,
        Nat.xor_comm poly, Nat.xor_assoc (b / 2), Nat.xor_self, Nat.xor_zero]
    · rw [if_pos (by omega), if_pos ha, if_neg hb, Nat.xor_assoc, Nat.xor_assoc,
        Nat.xor_comm poly]
  · by_cases hb : b % 2 = 1
    · rw [if_pos (by omega), if_neg ha, if_pos hb, Nat.xor_assoc]
    · rw [if_neg (by omega), if_neg ha, if_neg hb]

theorem iterate_crcBit_xor (n a b : ℕ) :
    (crcBit poly)^[n] (a ^^^ b) = (crcBit poly)^[n] a ^^^ (crcBit poly)^[n] b := by
  induction n generalizing a b with
  | zero => rfl
  | succ n ih => rw [Function.iterate_succ_apply, Function.iterate_succ_apply,
      Function.iterate_succ_apply, crcBit_xor, ih]

/-- A state whose low bits are zero only moves down. -/
theorem iterate_crcBit_mul (n y : ℕ) : (crcBit poly)^[n] (2 ^ n * y) = y := by
  induction n with
  | zero => rw [pow_zero, one_mul]; rfl
  | succ n ih =>
    have hstep : crcBit poly (2 ^ (n + 1) * y) = 2 ^ n * y := by
      unfold crcBit
      rw [pow_succ, mul_assoc, mul_left_comm, if_neg (by omega)]
      omega
    rw [Function.iterate_succ_apply, hstep, ih]

/-- The low and the high part of a number. -/
theorem mod_xor_mul_div (n s : ℕ) : s % 2 ^ n ^^^ 2 ^ n * (s / 2 ^ n) = s := by
  refine Nat.eq_of_testBit_eq fun i => ?_
  rw [Nat.testBit_xor, Nat.testBit_mod_two_pow, Nat.testBit_two_pow_mul, Nat.testBit_div_two_pow]
  by_cases hi : i < n
  · simp [hi, Nat.not_le.mpr hi]
  · have hle : n ≤ i := Nat.not_lt.mp hi
    simp [hi, hle]

/-- **The eight bits of a byte are one look into the table.** -/
theorem iterate_crcBit_eight (s : ℕ) :
    (crcBit poly)^[8] s = crcTable poly (s % 2 ^ 8) ^^^ s / 2 ^ 8 := by
  conv_lhs => rw [← mod_xor_mul_div 8 s]
  rw [iterate_crcBit_xor, iterate_crcBit_mul]
  rfl

theorem crcByte_eq_table (s : ℕ) (b : UInt8) :
    crcByte poly s b = crcTable poly ((s ^^^ b.toNat) % 2 ^ 8) ^^^ s / 2 ^ 8 := by
  have hb : b.toNat / 2 ^ 8 = 0 := Nat.div_eq_of_lt b.toNat_lt
  unfold crcByte
  rw [iterate_crcBit_eight, Nat.xor_div_two_pow, hb, Nat.xor_zero]

/-- The difference of two states is carried through a byte as the byte carries a state. -/
theorem crcByte_xor (s e : ℕ) (b : UInt8) :
    crcByte poly (s ^^^ e) b = crcByte poly s b ^^^ (crcBit poly)^[8] e := by
  unfold crcByte
  rw [← iterate_crcBit_xor, Nat.xor_right_comm]

/-! ### The states -/

section
variable {w s : ℕ}

theorem crcBit_lt (hpoly : poly < 2 ^ (w + 1)) (hs : s < 2 ^ (w + 1)) :
    crcBit poly s < 2 ^ (w + 1) := by
  have hhalf : s / 2 < 2 ^ (w + 1) := lt_of_le_of_lt (Nat.div_le_self s 2) hs
  unfold crcBit
  split_ifs
  · exact Nat.xor_lt_two_pow hhalf hpoly
  · exact hhalf

theorem iterate_crcBit_lt (hpoly : poly < 2 ^ (w + 1)) (n : ℕ) (hs : s < 2 ^ (w + 1)) :
    (crcBit poly)^[n] s < 2 ^ (w + 1) := by
  induction n generalizing s with
  | zero => exact hs
  | succ n ih => exact ih (crcBit_lt hpoly hs)

theorem crcBit_ne_zero (htop : 2 ^ w ≤ poly) (hs : s < 2 ^ (w + 1)) (h0 : s ≠ 0) :
    crcBit poly s ≠ 0 := by
  unfold crcBit
  split_ifs with hodd
  · rw [Ne, Nat.xor_eq_zero_iff]
    rw [pow_succ] at hs
    omega
  · omega

theorem iterate_crcBit_ne_zero (htop : 2 ^ w ≤ poly) (hpoly : poly < 2 ^ (w + 1)) (n : ℕ)
    (hs : s < 2 ^ (w + 1)) (h0 : s ≠ 0) : (crcBit poly)^[n] s ≠ 0 := by
  induction n generalizing s with
  | zero => exact h0
  | succ n ih => exact ih (crcBit_lt hpoly hs) (crcBit_ne_zero htop hs h0)

theorem crcByte_lt (hw : 7 ≤ w) (hpoly : poly < 2 ^ (w + 1)) (hs : s < 2 ^ (w + 1)) (b : UInt8) :
    crcByte poly s b < 2 ^ (w + 1) := by
  have hb : b.toNat < 2 ^ (w + 1) :=
    lt_of_lt_of_le b.toNat_lt (Nat.pow_le_pow_right (by decide) (by omega))
  exact iterate_crcBit_lt hpoly 8 (Nat.xor_lt_two_pow hs hb)

theorem crcBytes_lt (hw : 7 ≤ w) (hpoly : poly < 2 ^ (w + 1)) (bytes : List UInt8)
    (hs : s < 2 ^ (w + 1)) : crcBytes poly s bytes < 2 ^ (w + 1) := by
  induction bytes generalizing s with
  | nil => exact hs
  | cons b bytes ih => exact ih (crcByte_lt hw hpoly hs b)

/-- **Bytes keep two states apart.** -/
theorem crcBytes_injective (hw : 7 ≤ w) (htop : 2 ^ w ≤ poly) (hpoly : poly < 2 ^ (w + 1)) {s' : ℕ}
    (bytes : List UInt8) (hs : s < 2 ^ (w + 1)) (hs' : s' < 2 ^ (w + 1))
    (heq : crcBytes poly s bytes = crcBytes poly s' bytes) : s = s' := by
  induction bytes generalizing s s' with
  | nil => exact heq
  | cons b bytes ih =>
    have hbyte := ih (crcByte_lt hw hpoly hs b) (crcByte_lt hw hpoly hs' b) heq
    have hdiff : crcByte poly (s ^^^ (s ^^^ s')) b =
        crcByte poly s b ^^^ (crcBit poly)^[8] (s ^^^ s') := crcByte_xor s _ b
    rw [← Nat.xor_assoc, Nat.xor_self, Nat.zero_xor, ← hbyte] at hdiff
    have hzero : (crcBit poly)^[8] (s ^^^ s') = 0 :=
      Nat.xor_right_injective (hdiff.symm.trans (Nat.xor_zero _).symm)
    by_contra hne
    exact iterate_crcBit_ne_zero htop hpoly 8 (Nat.xor_lt_two_pow hs hs')
      (fun h => hne (Nat.xor_eq_zero_iff.mp h)) hzero

theorem crcBytes_zero (poly n : ℕ) : crcBytes poly 0 (List.replicate n 0) = 0 := by
  have hbyte : crcByte poly 0 0 = 0 := by
    unfold crcByte
    rw [show 0 ^^^ (0 : UInt8).toNat = 2 ^ 8 * 0 from rfl, iterate_crcBit_mul]
  induction n with
  | zero => rfl
  | succ n ih =>
    unfold crcBytes at ih ⊢
    rw [List.replicate_succ, List.foldl_cons, hbyte, ih]

end

end Ext4Fsd.Lib.Crc
