import Ext4Fsd.Extent.Tree

/-! # The map of a file

What the extents of a tree are for: a logical block is mapped to a physical block, which is written
or not. `mapOf` reads the map off a list of extents, `lookupResult` is what a lookup of at most
`maxBlocks` blocks is to answer. -/

namespace Ext4Fsd.Extent.Mapping

open Ext4Fsd.Lib.Intervals Ext4Fsd.Extent.Layout Ext4Fsd.Extent.Tree

/-- The logical block `n` lies in the extent. -/
abbrev Holds (ex : Slot) (n : ℕ) : Prop := Covers Slot.firstBlock extEnd ex n

/-- The extent the logical block `n` lies in. -/
abbrev extentAt (l : List Slot) (n : ℕ) : Option Slot := coverOf Slot.firstBlock extEnd l n

/-- The physical block of the logical block `n` of an extent. -/
def physOf (ex : Slot) (n : ℕ) : ℕ := ext4ExtPblock ex + (n - ex.firstBlock)

/-- The physical block of the logical block `n`, and whether it is unwritten. -/
def mapOf (l : List Slot) (n : ℕ) : Option (ℕ × Bool) :=
  (extentAt l n).map fun ex => (physOf ex n, ext4ExtIsUnwritten ex)

/-- The answer to a lookup of `maxBlocks` blocks from `n` on: the first physical block, or `0` when
there is nothing to read, and a count. -/
def lookupResult (l : List Slot) (n : ℕ) (maxBlocks : ℤ) : ℤ × ℤ :=
  match extentAt l n with
  | none => (0, 0)
  | some ex =>
    (if ext4ExtIsUnwritten ex then 0 else physOf ex n, min maxBlocks (extEnd ex - n))

/-- The map `m` with the blocks of `ex` put in. -/
def putIn (m : ℕ → Option (ℕ × Bool)) (ex : Slot) (n : ℕ) : Option (ℕ × Bool) :=
  if Holds ex n then some (physOf ex n, ext4ExtIsUnwritten ex) else m n

section
variable {l : List Slot} {ex : Slot} {n : ℕ}

theorem extentAt_eq_some (hs : Sorted l) : extentAt l n = some ex ↔ ex ∈ l ∧ Holds ex n :=
  coverOf_eq_some hs

theorem mapOf_of_unique (hm : ex ∈ l) (hh : Holds ex n) (hu : ∀ x ∈ l, Holds x n → x = ex) :
    mapOf l n = some (physOf ex n, ext4ExtIsUnwritten ex) := by
  unfold mapOf
  rw [show extentAt l n = some ex from coverOf_of_unique hm hh hu]
  rfl

theorem mapOf_of_holds (hs : Sorted l) (hm : ex ∈ l) (hh : Holds ex n) :
    mapOf l n = some (physOf ex n, ext4ExtIsUnwritten ex) :=
  mapOf_of_unique hm hh fun _ hx hhx => covers_unique hs hx hm hhx hh

/-- **A part of a list of extents gives the same map only when it is the whole list.** -/
theorem mapOf_sublist_iff {l' : List Slot} (hs : Sorted l') (hok : ∀ x ∈ l', ExtOk x)
    (hsub : l.Sublist l') : (∀ n, mapOf l n = mapOf l' n) ↔ l = l' := by
  refine ⟨fun hmap => ?_, fun h _ => by rw [h]⟩
  refine hsub.eq_of_length_le (List.Nodup.length_le_of_subset ?_ fun x hx => ?_)
  · exact (increasing_of_sorted hs hok).imp fun h heq => by
      rw [heq] at h
      exact lt_irrefl _ h
  · have hhold : Holds x x.firstBlock := ⟨le_rfl, (hok x hx).lt_end⟩
    have hm := hmap x.firstBlock
    rw [mapOf_of_holds hs hx hhold] at hm
    unfold mapOf at hm
    obtain ⟨y, hy, -⟩ := Option.map_eq_some_iff.mp hm
    obtain ⟨h1, h2⟩ := (extentAt_eq_some (hs.sublist hsub)).mp hy
    rwa [← covers_unique hs (hsub.subset h1) hx h2 hhold]

/-- **An extent more, in any place, is put into the map.** -/
theorem mapOf_of_mem {l' : List Slot} (hs : Sorted l) (hmem : ∀ x, x ∈ l' ↔ x = ex ∨ x ∈ l)
    (hfree : ∀ x ∈ l, Holds ex n → ¬ Holds x n) : mapOf l' n = putIn (mapOf l) ex n := by
  unfold putIn
  by_cases hn : Holds ex n
  · rw [if_pos hn]
    refine mapOf_of_unique ((hmem ex).mpr (Or.inl rfl)) hn fun x hx hhx => ?_
    rcases (hmem x).mp hx with h | h
    · exact h
    · exact absurd hhx (hfree x h hn)
  rw [if_neg hn]
  rcases hl : extentAt l n with _ | y
  · have hnone : mapOf l n = none := by rw [mapOf, hl, Option.map_none]
    rw [hnone, mapOf, Option.map_eq_none_iff]
    refine coverOf_eq_none.mpr fun x hx hhx => ?_
    rcases (hmem x).mp hx with rfl | h
    · exact hn hhx
    · exact coverOf_eq_none.mp hl x h hhx
  · obtain ⟨hy, hhy⟩ := (extentAt_eq_some hs).mp hl
    rw [mapOf_of_holds hs hy hhy]
    refine mapOf_of_unique ((hmem y).mpr (Or.inr hy)) hhy fun x hx hhx => ?_
    rcases (hmem x).mp hx with rfl | h
    · exact absurd hhx hn
    · exact covers_unique hs h hy hhx hhy

/-- The map of a list of extents is read on either side of a border. -/
theorem mapOf_append {r : List Slot} {m : ℕ} (hl : ∀ x ∈ l, extEnd x ≤ m)
    (hr : ∀ y ∈ r, m ≤ y.firstBlock) :
    mapOf (l ++ r) n = if n < m then mapOf l n else mapOf r n := by
  unfold mapOf
  rw [show extentAt (l ++ r) n = _ from coverOf_append hl hr]
  split_ifs <;> rfl

/-- What a block is mapped to is in the extent it lies in. -/
theorem mapOf_eq_some (hs : Sorted l) {b : ℕ} {u : Bool} : mapOf l n = some (b, u) ↔
    ∃ x ∈ l, Holds x n ∧ physOf x n = b ∧ ext4ExtIsUnwritten x = u := by
  unfold mapOf
  rw [Option.map_eq_some_iff]
  constructor
  · rintro ⟨x, hx, heq⟩
    obtain ⟨h1, h2⟩ := (extentAt_eq_some hs).mp hx
    exact ⟨x, h1, h2, congrArg Prod.fst heq, congrArg Prod.snd heq⟩
  · rintro ⟨x, hx, hh, rfl, rfl⟩
    exact ⟨x, (extentAt_eq_some hs).mpr ⟨hx, hh⟩, rfl⟩

theorem mapOf_eq_none : mapOf l n = none ↔ ∀ ex ∈ l, ¬ Holds ex n := by
  unfold mapOf
  rw [Option.map_eq_none_iff, coverOf_eq_none]

end

end Ext4Fsd.Extent.Mapping
