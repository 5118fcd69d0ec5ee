import Ext4Fsd.Common.DrvCrc32
import Ext4Fsd.Journal.TagWalk

/-! # The checksum routine of the journal

`jbd2_chksum` is `drv_crc32c`, here of a platform of 32 bits, where no read leaves the table
(`drvCrc32c_x86`). -/

namespace Ext4Fsd.Journal.Crc32c

open Ext4Fsd.Lib.CInt
open Ext4Fsd.Common.DrvCrc32
open Ext4Fsd.Journal.Format Ext4Fsd.Journal.Tags

/-- The first `size` bytes of a block. -/
def bytesOf (b : Block) (size : ℤ) : List UInt8 := (List.range size.toNat).map b

/-- The bytes of `cpu_to_be32 (v)`. -/
def be32Bytes (v : ℕ) : List UInt8 :=
  [UInt8.ofNat (v / 2 ^ 24), UInt8.ofNat (v / 2 ^ 16), UInt8.ofNat (v / 2 ^ 8), UInt8.ofNat v]

/-- `jbd2_chksum`. -/
def jbd2Chksum : Chksum := fun crc buf bufsz => (drvCrc32c .x86 crc (bytesOf buf bufsz)).getD 0

theorem jbd2Chksum_range {crc : ℤ} (hc : crc ∈ Set.range toI32) (b : Block) (size : ℤ) :
    jbd2Chksum crc b size ∈ Set.range toI32 := by
  obtain ⟨v, hv, hrun⟩ := drvCrc32c_x86 hc (bytesOf b size)
  unfold jbd2Chksum
  rw [hrun]
  exact hv

end Ext4Fsd.Journal.Crc32c
