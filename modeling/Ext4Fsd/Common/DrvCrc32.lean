import Ext4Fsd.Lib.CInt
import Ext4Fsd.Lib.Crc

/-! # The table CRCs

`drv_crc32` and `drv_crc32c` are one loop, `crc32`, with two tables. The running value is a `__u32`,
which is a signed type, so that its shift fills in the sign; and the table, an array of 32-bit
words, is read through a pointer to `size_t`, which is 64 bits wide on x64: the word `i` read there
is the entries `2 * i` and `2 * i + 1` of the table, and lies outside of it from `i = 128` on.

What a byte adds to the running value beyond the CRC is `stray`. The strays of a buffer are carried
through the bytes that follow as a CRC carries its state, and the code returns the CRC when they
cancel (`crc32_run`), in particular when there are none (`table_crcs`). -/

namespace Ext4Fsd.Common.DrvCrc32

open Ext4Fsd.Lib.CInt Ext4Fsd.Lib.Crc

/-! ### The code -/

/-- The platforms of the project: a `size_t` of 32 bits and one of 64 bits. -/
inductive Platform | x86 | x64
  deriving DecidableEq

/-- The polynomial of CRC-32C, reflected. -/
def castagnoli : ℕ := 0x82f63b78

/-- `crc32_tab`. -/
def crc32Tab : List ℕ := [
  0x00000000, 0x77073096, 0xee0e612c, 0x990951ba, 0x076dc419, 0x706af48f, 0xe963a535,
  0x9e6495a3, 0x0edb8832, 0x79dcb8a4, 0xe0d5e91e, 0x97d2d988, 0x09b64c2b, 0x7eb17cbd,
  0xe7b82d07, 0x90bf1d91, 0x1db71064, 0x6ab020f2, 0xf3b97148, 0x84be41de, 0x1adad47d,
  0x6ddde4eb, 0xf4d4b551, 0x83d385c7, 0x136c9856, 0x646ba8c0, 0xfd62f97a, 0x8a65c9ec,
  0x14015c4f, 0x63066cd9, 0xfa0f3d63, 0x8d080df5, 0x3b6e20c8, 0x4c69105e, 0xd56041e4,
  0xa2677172, 0x3c03e4d1, 0x4b04d447, 0xd20d85fd, 0xa50ab56b, 0x35b5a8fa, 0x42b2986c,
  0xdbbbc9d6, 0xacbcf940, 0x32d86ce3, 0x45df5c75, 0xdcd60dcf, 0xabd13d59, 0x26d930ac,
  0x51de003a, 0xc8d75180, 0xbfd06116, 0x21b4f4b5, 0x56b3c423, 0xcfba9599, 0xb8bda50f,
  0x2802b89e, 0x5f058808, 0xc60cd9b2, 0xb10be924, 0x2f6f7c87, 0x58684c11, 0xc1611dab,
  0xb6662d3d, 0x76dc4190, 0x01db7106, 0x98d220bc, 0xefd5102a, 0x71b18589, 0x06b6b51f,
  0x9fbfe4a5, 0xe8b8d433, 0x7807c9a2, 0x0f00f934, 0x9609a88e, 0xe10e9818, 0x7f6a0dbb,
  0x086d3d2d, 0x91646c97, 0xe6635c01, 0x6b6b51f4, 0x1c6c6162, 0x856530d8, 0xf262004e,
  0x6c0695ed, 0x1b01a57b, 0x8208f4c1, 0xf50fc457, 0x65b0d9c6, 0x12b7e950, 0x8bbeb8ea,
  0xfcb9887c, 0x62dd1ddf, 0x15da2d49, 0x8cd37cf3, 0xfbd44c65, 0x4db26158, 0x3ab551ce,
  0xa3bc0074, 0xd4bb30e2, 0x4adfa541, 0x3dd895d7, 0xa4d1c46d, 0xd3d6f4fb, 0x4369e96a,
  0x346ed9fc, 0xad678846, 0xda60b8d0, 0x44042d73, 0x33031de5, 0xaa0a4c5f, 0xdd0d7cc9,
  0x5005713c, 0x270241aa, 0xbe0b1010, 0xc90c2086, 0x5768b525, 0x206f85b3, 0xb966d409,
  0xce61e49f, 0x5edef90e, 0x29d9c998, 0xb0d09822, 0xc7d7a8b4, 0x59b33d17, 0x2eb40d81,
  0xb7bd5c3b, 0xc0ba6cad, 0xedb88320, 0x9abfb3b6, 0x03b6e20c, 0x74b1d29a, 0xead54739,
  0x9dd277af, 0x04db2615, 0x73dc1683, 0xe3630b12, 0x94643b84, 0x0d6d6a3e, 0x7a6a5aa8,
  0xe40ecf0b, 0x9309ff9d, 0x0a00ae27, 0x7d079eb1, 0xf00f9344, 0x8708a3d2, 0x1e01f268,
  0x6906c2fe, 0xf762575d, 0x806567cb, 0x196c3671, 0x6e6b06e7, 0xfed41b76, 0x89d32be0,
  0x10da7a5a, 0x67dd4acc, 0xf9b9df6f, 0x8ebeeff9, 0x17b7be43, 0x60b08ed5, 0xd6d6a3e8,
  0xa1d1937e, 0x38d8c2c4, 0x4fdff252, 0xd1bb67f1, 0xa6bc5767, 0x3fb506dd, 0x48b2364b,
  0xd80d2bda, 0xaf0a1b4c, 0x36034af6, 0x41047a60, 0xdf60efc3, 0xa867df55, 0x316e8eef,
  0x4669be79, 0xcb61b38c, 0xbc66831a, 0x256fd2a0, 0x5268e236, 0xcc0c7795, 0xbb0b4703,
  0x220216b9, 0x5505262f, 0xc5ba3bbe, 0xb2bd0b28, 0x2bb45a92, 0x5cb36a04, 0xc2d7ffa7,
  0xb5d0cf31, 0x2cd99e8b, 0x5bdeae1d, 0x9b64c2b0, 0xec63f226, 0x756aa39c, 0x026d930a,
  0x9c0906a9, 0xeb0e363f, 0x72076785, 0x05005713, 0x95bf4a82, 0xe2b87a14, 0x7bb12bae,
  0x0cb61b38, 0x92d28e9b, 0xe5d5be0d, 0x7cdcefb7, 0x0bdbdf21, 0x86d3d2d4, 0xf1d4e242,
  0x68ddb3f8, 0x1fda836e, 0x81be16cd, 0xf6b9265b, 0x6fb077e1, 0x18b74777, 0x88085ae6,
  0xff0f6a70, 0x66063bca, 0x11010b5c, 0x8f659eff, 0xf862ae69, 0x616bffd3, 0x166ccf45,
  0xa00ae278, 0xd70dd2ee, 0x4e048354, 0x3903b3c2, 0xa7672661, 0xd06016f7, 0x4969474d,
  0x3e6e77db, 0xaed16a4a, 0xd9d65adc, 0x40df0b66, 0x37d83bf0, 0xa9bcae53, 0xdebb9ec5,
  0x47b2cf7f, 0x30b5ffe9, 0xbdbdf21c, 0xcabac28a, 0x53b39330, 0x24b4a3a6, 0xbad03605,
  0xcdd70693, 0x54de5729, 0x23d967bf, 0xb3667a2e, 0xc4614ab8, 0x5d681b02, 0x2a6f2b94,
  0xb40bbe37, 0xc30c8ea1, 0x5a05df1b, 0x2d02ef8d]

/-- `crc32c_tab`. -/
def crc32cTab : List ℕ := [
  0x00000000, 0xf26b8303, 0xe13b70f7, 0x1350f3f4, 0xc79a971f, 0x35f1141c, 0x26a1e7e8,
  0xd4ca64eb, 0x8ad958cf, 0x78b2dbcc, 0x6be22838, 0x9989ab3b, 0x4d43cfd0, 0xbf284cd3,
  0xac78bf27, 0x5e133c24, 0x105ec76f, 0xe235446c, 0xf165b798, 0x030e349b, 0xd7c45070,
  0x25afd373, 0x36ff2087, 0xc494a384, 0x9a879fa0, 0x68ec1ca3, 0x7bbcef57, 0x89d76c54,
  0x5d1d08bf, 0xaf768bbc, 0xbc267848, 0x4e4dfb4b, 0x20bd8ede, 0xd2d60ddd, 0xc186fe29,
  0x33ed7d2a, 0xe72719c1, 0x154c9ac2, 0x061c6936, 0xf477ea35, 0xaa64d611, 0x580f5512,
  0x4b5fa6e6, 0xb93425e5, 0x6dfe410e, 0x9f95c20d, 0x8cc531f9, 0x7eaeb2fa, 0x30e349b1,
  0xc288cab2, 0xd1d83946, 0x23b3ba45, 0xf779deae, 0x05125dad, 0x1642ae59, 0xe4292d5a,
  0xba3a117e, 0x4851927d, 0x5b016189, 0xa96ae28a, 0x7da08661, 0x8fcb0562, 0x9c9bf696,
  0x6ef07595, 0x417b1dbc, 0xb3109ebf, 0xa0406d4b, 0x522bee48, 0x86e18aa3, 0x748a09a0,
  0x67dafa54, 0x95b17957, 0xcba24573, 0x39c9c670, 0x2a993584, 0xd8f2b687, 0x0c38d26c,
  0xfe53516f, 0xed03a29b, 0x1f682198, 0x5125dad3, 0xa34e59d0, 0xb01eaa24, 0x42752927,
  0x96bf4dcc, 0x64d4cecf, 0x77843d3b, 0x85efbe38, 0xdbfc821c, 0x2997011f, 0x3ac7f2eb,
  0xc8ac71e8, 0x1c661503, 0xee0d9600, 0xfd5d65f4, 0x0f36e6f7, 0x61c69362, 0x93ad1061,
  0x80fde395, 0x72966096, 0xa65c047d, 0x5437877e, 0x4767748a, 0xb50cf789, 0xeb1fcbad,
  0x197448ae, 0x0a24bb5a, 0xf84f3859, 0x2c855cb2, 0xdeeedfb1, 0xcdbe2c45, 0x3fd5af46,
  0x7198540d, 0x83f3d70e, 0x90a324fa, 0x62c8a7f9, 0xb602c312, 0x44694011, 0x5739b3e5,
  0xa55230e6, 0xfb410cc2, 0x092a8fc1, 0x1a7a7c35, 0xe811ff36, 0x3cdb9bdd, 0xceb018de,
  0xdde0eb2a, 0x2f8b6829, 0x82f63b78, 0x709db87b, 0x63cd4b8f, 0x91a6c88c, 0x456cac67,
  0xb7072f64, 0xa457dc90, 0x563c5f93, 0x082f63b7, 0xfa44e0b4, 0xe9141340, 0x1b7f9043,
  0xcfb5f4a8, 0x3dde77ab, 0x2e8e845f, 0xdce5075c, 0x92a8fc17, 0x60c37f14, 0x73938ce0,
  0x81f80fe3, 0x55326b08, 0xa759e80b, 0xb4091bff, 0x466298fc, 0x1871a4d8, 0xea1a27db,
  0xf94ad42f, 0x0b21572c, 0xdfeb33c7, 0x2d80b0c4, 0x3ed04330, 0xccbbc033, 0xa24bb5a6,
  0x502036a5, 0x4370c551, 0xb11b4652, 0x65d122b9, 0x97baa1ba, 0x84ea524e, 0x7681d14d,
  0x2892ed69, 0xdaf96e6a, 0xc9a99d9e, 0x3bc21e9d, 0xef087a76, 0x1d63f975, 0x0e330a81,
  0xfc588982, 0xb21572c9, 0x407ef1ca, 0x532e023e, 0xa145813d, 0x758fe5d6, 0x87e466d5,
  0x94b49521, 0x66df1622, 0x38cc2a06, 0xcaa7a905, 0xd9f75af1, 0x2b9cd9f2, 0xff56bd19,
  0x0d3d3e1a, 0x1e6dcdee, 0xec064eed, 0xc38d26c4, 0x31e6a5c7, 0x22b65633, 0xd0ddd530,
  0x0417b1db, 0xf67c32d8, 0xe52cc12c, 0x1747422f, 0x49547e0b, 0xbb3ffd08, 0xa86f0efc,
  0x5a048dff, 0x8ecee914, 0x7ca56a17, 0x6ff599e3, 0x9d9e1ae0, 0xd3d3e1ab, 0x21b862a8,
  0x32e8915c, 0xc083125f, 0x144976b4, 0xe622f5b7, 0xf5720643, 0x07198540, 0x590ab964,
  0xab613a67, 0xb831c993, 0x4a5a4a90, 0x9e902e7b, 0x6cfbad78, 0x7fab5e8c, 0x8dc0dd8f,
  0xe330a81a, 0x115b2b19, 0x020bd8ed, 0xf0605bee, 0x24aa3f05, 0xd6c1bc06, 0xc5914ff2,
  0x37faccf1, 0x69e9f0d5, 0x9b8273d6, 0x88d28022, 0x7ab90321, 0xae7367ca, 0x5c18e4c9,
  0x4f48173d, 0xbd23943e, 0xf36e6f75, 0x0105ec76, 0x12551f82, 0xe03e9c81, 0x34f4f86a,
  0xc69f7b69, 0xd5cf889d, 0x27a40b9e, 0x79b737ba, 0x8bdcb4b9, 0x988c474d, 0x6ae7c44e,
  0xbe2da0a5, 0x4c4623a6, 0x5f16d052, 0xad7d5351]

/-- `tab[i]`, with the table read as words of type `size_t`; `none` when the word is not in the
table. -/
def entry (pf : Platform) (tab : List ℕ) (i : ℕ) : Option ℕ :=
  match pf with
  | .x86 => tab[i]?
  | .x64 => do
    let lo ← tab[2 * i]?
    let hi ← tab[2 * i + 1]?
    return lo + 2 ^ 32 * hi

/-- The conversion of a `__u32` to `size_t`. -/
def sizeT (pf : Platform) (v : ℤ) : ℕ :=
  match pf with
  | .x86 => (toU32 v).toNat
  | .x64 => (toU64 v).toNat

/-- The body of the loop of `crc32`. -/
def crc32Turn (pf : Platform) (tab : List ℕ) (crc : ℤ) (p : UInt8) : Option ℤ :=
  (entry pf tab (Nat.xor (toU32 crc).toNat p.toNat % 2 ^ 8)).map fun word =>
    toI32 (Nat.xor word (sizeT pf (crc / 2 ^ 8)))

/-- `crc32`, on the `size` bytes at `buf`. -/
def crc32 (pf : Platform) (tab : List ℕ) (crc : ℤ) (buf : List UInt8) : Option ℤ :=
  buf.foldlM (crc32Turn pf tab) crc

/-- `drv_crc32`. -/
def drvCrc32 (pf : Platform) (crc : ℤ) (buf : List UInt8) : Option ℤ := crc32 pf crc32Tab crc buf

/-- `drv_crc32c`. -/
def drvCrc32c (pf : Platform) (crc : ℤ) (buf : List UInt8) : Option ℤ := crc32 pf crc32cTab crc buf

/-- The values are those of a `__u32`. -/
theorem crc32_range {pf : Platform} {tab : List ℕ} {crc v : ℤ} {buf : List UInt8}
    (hc : crc ∈ Set.range toI32) (hv : crc32 pf tab crc buf = some v) : v ∈ Set.range toI32 := by
  unfold crc32 at hv
  induction buf generalizing crc with
  | nil =>
    rw [List.foldlM_nil, Option.pure_def, Option.some_inj] at hv
    exact hv ▸ hc
  | cons p buf ih =>
    rw [List.foldlM_cons, Option.bind_eq_bind, Option.bind_eq_some_iff] at hv
    obtain ⟨u, hu, hrest⟩ := hv
    unfold crc32Turn at hu
    rw [Option.map_eq_some_iff] at hu
    obtain ⟨word, -, hword⟩ := hu
    exact ih (hword ▸ Set.mem_range_self _) hrest

/-- The start value is handed on from one part of the buffer to the next. -/
theorem crc32_append (pf : Platform) (tab : List ℕ) (crc : ℤ) (buf buf' : List UInt8) :
    crc32 pf tab crc (buf ++ buf') = (crc32 pf tab crc buf).bind (crc32 pf tab · buf') :=
  List.foldlM_append

/-! ### What the platform adds to a byte -/

/-- `tab` is the table of `poly`. -/
structure TableOf (tab : List ℕ) (poly : ℕ) : Prop where
  length : tab.length = 2 ^ 8
  entry : ∀ i < 2 ^ 8, tab.getD i 0 = crcTable poly i

/-- The difference between the word read for `i` and the entry `i` of the table. -/
def misread (pf : Platform) (poly i : ℕ) : ℕ :=
  match pf with
  | .x86 => 0
  | .x64 => crcTable poly i ^^^ crcTable poly (2 * i)

/-- The bits that the shift of a running value with the top bit fills in. -/
def signFill (s : ℕ) : ℕ := if 2 ^ 31 ≤ s then 0xff000000 else 0

/-- **What the byte `p` adds to the running value `s`** beyond the CRC. -/
def stray (pf : Platform) (poly s : ℕ) (p : UInt8) : ℕ :=
  misread pf poly ((s ^^^ p.toNat) % 2 ^ 8) ^^^ signFill s

/-- The word read for the byte `p` is in the table. -/
def Inside (pf : Platform) (s : ℕ) (p : UInt8) : Prop := pf = .x64 → (s ^^^ p.toNat) % 2 ^ 8 < 2 ^ 7

instance (pf : Platform) (s : ℕ) (p : UInt8) : Decidable (Inside pf s p) := by
  unfold Inside; infer_instance

section
variable {pf : Platform} {tab : List ℕ} {poly : ℕ} {s : ℕ} {p : UInt8}

theorem TableOf.get (ht : TableOf tab poly) {i : ℕ} (hi : i < 2 ^ 8) :
    tab[i]? = some (crcTable poly i) := by
  have hlen : i < tab.length := by
    rw [ht.length]
    exact hi
  have hval := ht.entry i hi
  rw [List.getD_eq_getElem _ _ hlen] at hval
  rw [List.getElem?_eq_getElem hlen, hval]

theorem TableOf.get_none (ht : TableOf tab poly) {i : ℕ} (hi : 2 ^ 8 ≤ i) : tab[i]? = none := by
  rw [List.getElem?_eq_none_iff, ht.length]
  exact hi

/-- A word in the table: its low half is the entry, but for the misreading. -/
theorem entry_inside (ht : TableOf tab poly) (hpoly : poly < 2 ^ 32) (hin : Inside pf s p) :
    ∃ word, entry pf tab ((s ^^^ p.toNat) % 2 ^ 8) = some word ∧
      word % 2 ^ 32 = crcTable poly ((s ^^^ p.toNat) % 2 ^ 8) ^^^
        misread pf poly ((s ^^^ p.toNat) % 2 ^ 8) := by
  have hi : (s ^^^ p.toNat) % 2 ^ 8 < 2 ^ 8 := Nat.mod_lt _ (by decide)
  unfold Inside at hin
  generalize (s ^^^ p.toNat) % 2 ^ 8 = i at hi hin ⊢
  have hword : ∀ j < 2 ^ 8, crcTable poly j < 2 ^ 32 := fun j hj =>
    iterate_crcBit_lt (w := 31) hpoly 8 (lt_of_lt_of_le hj (by decide))
  cases pf with
  | x86 =>
    refine ⟨crcTable poly i, ht.get hi, ?_⟩
    rw [Nat.mod_eq_of_lt (hword i hi)]
    exact (Nat.xor_zero _).symm
  | x64 =>
    have hlow := hin rfl
    refine ⟨crcTable poly (2 * i) + 2 ^ 32 * crcTable poly (2 * i + 1), ?_, ?_⟩
    · change (tab[2 * i]?.bind fun lo => tab[2 * i + 1]?.bind fun hi => some (lo + 2 ^ 32 * hi)) = _
      rw [ht.get (show 2 * i < 2 ^ 8 by omega), ht.get (show 2 * i + 1 < 2 ^ 8 by omega)]
      rfl
    · unfold misread
      rw [Nat.add_mul_mod_self_left, Nat.mod_eq_of_lt (hword _ (by omega)), ← Nat.xor_assoc,
        Nat.xor_self, Nat.zero_xor]

theorem entry_outside (ht : TableOf tab poly) (hout : ¬ Inside pf s p) :
    entry pf tab ((s ^^^ p.toNat) % 2 ^ 8) = none := by
  unfold Inside at hout
  push Not at hout
  obtain ⟨rfl, hge⟩ := hout
  generalize (s ^^^ p.toNat) % 2 ^ 8 = i at hge ⊢
  change (tab[2 * i]?.bind fun lo => tab[2 * i + 1]?.bind fun hi => some (lo + 2 ^ 32 * hi)) = _
  rw [ht.get_none (show 2 ^ 8 ≤ 2 * i by omega)]
  rfl

/-- The signed shift. -/
theorem toU32_shift {crc : ℤ} (h0 : -2 ^ 31 ≤ crc) (h1 : crc < 2 ^ 31) :
    (toU32 (crc / 2 ^ 8)).toNat = (toU32 crc).toNat / 2 ^ 8 ^^^ signFill (toU32 crc).toNat := by
  unfold signFill
  split_ifs with htop
  · have hlow : (toU32 crc).toNat / 2 ^ 8 < 2 ^ 24 := by
      unfold toU32
      omega
    have hsum : (toU32 (crc / 2 ^ 8)).toNat = 2 ^ 24 * 0xff + (toU32 crc).toNat / 2 ^ 8 := by
      unfold toU32 at htop ⊢
      omega
    have hmod := mod_xor_mul_div 24 (2 ^ 24 * 0xff + (toU32 crc).toNat / 2 ^ 8)
    rw [Nat.mul_add_mod, Nat.mod_eq_of_lt hlow, Nat.mul_add_div (by decide),
      Nat.div_eq_of_lt hlow] at hmod
    rw [hsum, ← hmod]
    norm_num
  · rw [Nat.xor_zero]
    unfold toU32 at htop ⊢
    omega

theorem sizeT_mod (pf : Platform) (v : ℤ) : sizeT pf v % 2 ^ 32 = (toU32 v).toNat := by
  cases pf <;> simp only [sizeT, toU32, toU64] <;> omega

/-- **One turn of the loop** is one byte of the CRC and the stray bits of the byte. -/
theorem crc32Turn_inside (ht : TableOf tab poly) (hpoly : poly < 2 ^ 32) {crc : ℤ}
    (h0 : -2 ^ 31 ≤ crc) (h1 : crc < 2 ^ 31) (hs : (toU32 crc).toNat = s) (hin : Inside pf s p) :
    ∃ v, crc32Turn pf tab crc p = some (toI32 v) ∧
      (toU32 v).toNat = crcByte poly s p ^^^ stray pf poly s p := by
  obtain ⟨word, hentry, hword⟩ := entry_inside ht hpoly hin
  refine ⟨(Nat.xor word (sizeT pf (crc / 2 ^ 8)) : ℕ), ?_, ?_⟩
  · unfold crc32Turn
    rw [hs]
    exact (congrArg _ hentry).trans rfl
  · have hnat : (toU32 (Nat.xor word (sizeT pf (crc / 2 ^ 8)) : ℕ)).toNat =
        Nat.xor word (sizeT pf (crc / 2 ^ 8)) % 2 ^ 32 := by
      unfold toU32
      omega
    have hsplit : Nat.xor word (sizeT pf (crc / 2 ^ 8)) % 2 ^ 32 =
        word % 2 ^ 32 ^^^ sizeT pf (crc / 2 ^ 8) % 2 ^ 32 := Nat.xor_mod_two_pow
    rw [hnat, hsplit, hword, sizeT_mod, toU32_shift h0 h1, hs, crcByte_eq_table]
    unfold stray
    ac_rfl

theorem crc32Turn_outside (ht : TableOf tab poly) {crc : ℤ} (hs : (toU32 crc).toNat = s)
    (hout : ¬ Inside pf s p) : crc32Turn pf tab crc p = none := by
  unfold crc32Turn
  rw [hs]
  exact (congrArg _ (entry_outside ht hout)).trans rfl

end

/-! ### The whole buffer -/

/-- What the strays of the bytes have become at the end of the buffer, from the state `r` of the CRC
and the difference `e` of the running value to it. -/
def astray (pf : Platform) (poly : ℕ) : ℕ → ℕ → List UInt8 → ℕ
  | _, e, [] => e
  | r, e, p :: buf =>
    astray pf poly (crcByte poly r p) ((crcBit poly)^[8] e ^^^ stray pf poly (r ^^^ e) p) buf

/-- Every word read is in the table. -/
def StaysInside (pf : Platform) (poly : ℕ) : ℕ → ℕ → List UInt8 → Prop
  | _, _, [] => True
  | r, e, p :: buf => Inside pf (r ^^^ e) p ∧
    StaysInside pf poly (crcByte poly r p) ((crcBit poly)^[8] e ^^^ stray pf poly (r ^^^ e) p) buf

/-- Words of 32 bits are read as the table has them. -/
theorem staysInside_x86 (poly r e : ℕ) (buf : List UInt8) : StaysInside .x86 poly r e buf := by
  induction buf generalizing r e with
  | nil => trivial
  | cons p buf ih => exact ⟨fun h => Platform.noConfusion h, ih _ _⟩

/-- **The platform does no harm to the buffer**: it makes no access outside of the table, and the
strays of the bytes cancel. -/
structure Harmless (pf : Platform) (poly r : ℕ) (buf : List UInt8) : Prop where
  inside : StaysInside pf poly r 0 buf
  cancel : astray pf poly r 0 buf = 0

section
variable {pf : Platform} {tab : List ℕ} {poly : ℕ}

/-- **A run of the loop**, with the running value `r ^^^ e`. -/
theorem crc32_run (ht : TableOf tab poly) (hpoly : poly < 2 ^ 32) {crc : ℤ} (buf : List UInt8)
    {r e : ℕ} (h0 : -2 ^ 31 ≤ crc) (h1 : crc < 2 ^ 31) (hs : (toU32 crc).toNat = r ^^^ e)
    (hin : StaysInside pf poly r e buf) :
    ∃ v, crc32 pf tab crc buf = some v ∧
      (toU32 v).toNat = crcBytes poly r buf ^^^ astray pf poly r e buf := by
  unfold crc32
  induction buf generalizing crc r e with
  | nil => exact ⟨crc, rfl, hs⟩
  | cons p buf ih =>
    obtain ⟨hp, hrest⟩ := hin
    obtain ⟨v, hturn, hv⟩ := crc32Turn_inside ht hpoly h0 h1 hs hp
    have hnext : (toU32 (toI32 v)).toNat = crcByte poly r p ^^^
        ((crcBit poly)^[8] e ^^^ stray pf poly (r ^^^ e) p) := by
      rw [toU32_toI32, hv, crcByte_xor, Nat.xor_assoc]
    obtain ⟨u, hu, hval⟩ := ih (toI32_ge v) (toI32_lt v) hnext hrest
    refine ⟨u, ?_, hval⟩
    rw [List.foldlM_cons, hturn]
    exact hu

/-- A run that leaves the table. -/
theorem crc32_outside (ht : TableOf tab poly) (hpoly : poly < 2 ^ 32) {crc : ℤ} (buf : List UInt8)
    {r e : ℕ} (h0 : -2 ^ 31 ≤ crc) (h1 : crc < 2 ^ 31) (hs : (toU32 crc).toNat = r ^^^ e)
    (hout : ¬ StaysInside pf poly r e buf) : crc32 pf tab crc buf = none := by
  unfold crc32
  induction buf generalizing crc r e with
  | nil => exact absurd trivial hout
  | cons p buf ih =>
    rw [List.foldlM_cons]
    by_cases hp : Inside pf (r ^^^ e) p
    · obtain ⟨v, hturn, hv⟩ := crc32Turn_inside ht hpoly h0 h1 hs hp
      have hnext : (toU32 (toI32 v)).toNat = crcByte poly r p ^^^
          ((crcBit poly)^[8] e ^^^ stray pf poly (r ^^^ e) p) := by
        rw [toU32_toI32, hv, crcByte_xor, Nat.xor_assoc]
      rw [hturn]
      exact ih (toI32_ge v) (toI32_lt v) hnext fun hrest => hout ⟨hp, hrest⟩
    · rw [crc32Turn_outside ht hs hp]
      rfl

end

/-! ### The documented property -/

/-- **The checksum `run` is the CRC of `poly`** on the buffer `buf` from the start value `crc`: all
its accesses are in the table, its value is the bit-by-bit CRC, and it is the checksum of the second
part of the buffer from that of the first. -/
structure IsCrc (run : ℤ → List UInt8 → Option ℤ) (poly : ℕ) (crc : ℤ) (buf : List UInt8) :
    Prop where
  inside : run crc buf ≠ none
  value : ∀ v, run crc buf = some v → (toU32 v).toNat = crcBytes poly (toU32 crc).toNat buf
  append : ∀ fst snd, buf = fst ++ snd → run crc buf = (run crc fst).bind (run · snd)

theorem isCrc_iff {tab : List ℕ} {poly : ℕ} (ht : TableOf tab poly) (hpoly : poly < 2 ^ 32)
    (pf : Platform) (start : ℤ) (buf : List UInt8) :
    IsCrc (crc32 pf tab) poly (toI32 start) buf ↔ Harmless pf poly (toU32 start).toNat buf := by
  have h0 := toI32_ge start
  have h1 := toI32_lt start
  have hs : (toU32 (toI32 start)).toNat = (toU32 start).toNat ^^^ 0 := by
    rw [toU32_toI32, Nat.xor_zero]
  constructor
  · intro hcrc
    by_cases hin : StaysInside pf poly (toU32 start).toNat 0 buf
    · obtain ⟨v, hv, hval⟩ := crc32_run ht hpoly buf h0 h1 hs hin
      have heq := hcrc.value v hv
      rw [toU32_toI32, hval] at heq
      exact ⟨hin, Nat.xor_right_injective (heq.trans (Nat.xor_zero _).symm)⟩
    · exact absurd (crc32_outside ht hpoly buf h0 h1 hs hin) hcrc.inside
  · rintro ⟨hin, hcancel⟩
    obtain ⟨v, hv, hval⟩ := crc32_run ht hpoly buf h0 h1 hs hin
    refine ⟨by simp [hv], fun u hu => ?_, ?_⟩
    · rw [hv, Option.some_inj] at hu
      rw [← hu, hval, hcancel, Nat.xor_zero, toU32_toI32]
    · rintro fst snd rfl
      exact crc32_append pf tab _ fst snd

theorem crc32Tab_of : TableOf crc32Tab (reflect 32 0x04C11DB7) where
  length := by decide +kernel
  entry := by decide +kernel

theorem castagnoli_eq : reflect 32 0x1EDC6F41 = castagnoli := by decide

theorem crc32cTab_of : TableOf crc32cTab (reflect 32 0x1EDC6F41) where
  length := by decide +kernel
  entry := by
    rw [castagnoli_eq]
    decide +kernel

/-! ### Right after every byte -/

section
variable {pf : Platform} {poly : ℕ}

theorem astray_cons (r e : ℕ) (p : UInt8) (buf : List UInt8) :
    astray pf poly r e (p :: buf) = astray pf poly (crcByte poly r p)
      ((crcBit poly)^[8] e ^^^ stray pf poly (r ^^^ e) p) buf := rfl

theorem staysInside_cons (r e : ℕ) (p : UInt8) (buf : List UInt8) :
    StaysInside pf poly r e (p :: buf) ↔ Inside pf (r ^^^ e) p ∧ StaysInside pf poly
      (crcByte poly r p) ((crcBit poly)^[8] e ^^^ stray pf poly (r ^^^ e) p) buf := Iff.rfl

theorem astray_append (r e : ℕ) (fst snd : List UInt8) :
    astray pf poly r e (fst ++ snd) =
      astray pf poly (crcBytes poly r fst) (astray pf poly r e fst) snd := by
  induction fst generalizing r e with
  | nil => rfl
  | cons p fst ih => exact ih _ _

theorem staysInside_append (r e : ℕ) (fst snd : List UInt8) :
    StaysInside pf poly r e (fst ++ snd) ↔ StaysInside pf poly r e fst ∧
      StaysInside pf poly (crcBytes poly r fst) (astray pf poly r e fst) snd := by
  induction fst generalizing r e with
  | nil => exact ⟨fun h => ⟨trivial, h⟩, fun h => h.2⟩
  | cons p fst ih => exact (and_congr_right fun _ => ih _ _).trans and_assoc.symm

theorem astray_single (r : ℕ) (p : UInt8) : astray pf poly r 0 [p] = stray pf poly r p := by
  have hzero := @iterate_crcBit_mul poly 8 0
  rw [mul_zero] at hzero
  rw [astray_cons, hzero, Nat.zero_xor, Nat.xor_zero]
  rfl

theorem staysInside_single (r : ℕ) (p : UInt8) :
    StaysInside pf poly r 0 [p] ↔ Inside pf r p := by
  rw [staysInside_cons, Nat.xor_zero]
  exact and_iff_left trivial

/-- One byte more does no harm when its word is in the table and nothing strays. -/
theorem harmless_snoc {r : ℕ} {fst : List UInt8} (hfst : Harmless pf poly r fst) (p : UInt8) :
    Harmless pf poly r (fst ++ [p]) ↔
      Inside pf (crcBytes poly r fst) p ∧ stray pf poly (crcBytes poly r fst) p = 0 := by
  constructor
  · rintro ⟨hin, hcancel⟩
    rw [staysInside_append, hfst.cancel, staysInside_single] at hin
    rw [astray_append, hfst.cancel, astray_single] at hcancel
    exact ⟨hin.2, hcancel⟩
  · rintro ⟨hin, hstray⟩
    refine ⟨?_, ?_⟩
    · rw [staysInside_append, hfst.cancel, staysInside_single]
      exact ⟨hfst.inside, hin⟩
    · rw [astray_append, hfst.cancel, astray_single]
      exact hstray

/-- **The code has the CRC after every byte** exactly when no byte adds anything to it. -/
theorem harmless_prefixes_iff (r : ℕ) (buf : List UInt8) :
    (∀ fst snd, buf = fst ++ snd → Harmless pf poly r fst) ↔
      ∀ fst p snd, buf = fst ++ p :: snd →
        Inside pf (crcBytes poly r fst) p ∧ stray pf poly (crcBytes poly r fst) p = 0 := by
  constructor
  · intro hall fst p snd hbuf
    exact (harmless_snoc (hall fst (p :: snd) hbuf) p).mp (hall (fst ++ [p]) snd (by simp [hbuf]))
  · intro hall fst
    induction fst using List.reverseRecOn with
    | nil => exact fun _ _ => ⟨trivial, rfl⟩
    | append_singleton fst p ih =>
      intro snd hbuf
      rw [List.append_assoc] at hbuf
      exact (harmless_snoc (ih _ hbuf) p).mpr (hall fst p snd hbuf)

/-- On a platform of 32 bits only the sign strays. -/
theorem stray_x86_eq_zero (s : ℕ) (p : UInt8) : stray .x86 poly s p = 0 ↔ s < 2 ^ 31 := by
  unfold stray misread signFill
  rw [Nat.zero_xor]
  split_ifs with htop
  · simpa using htop
  · simpa using htop

/-- With the 32-bit platform, the code has the CRC after every byte when and only when no CRC on the
way has its top bit set. -/
theorem harmless_prefixes_x86_iff (r : ℕ) (buf : List UInt8) :
    (∀ fst snd, buf = fst ++ snd → Harmless .x86 poly r fst) ↔
      ∀ fst p snd, buf = fst ++ p :: snd → crcBytes poly r fst < 2 ^ 31 := by
  rw [harmless_prefixes_iff]
  refine forall₄_congr fun fst p snd _ => ?_
  rw [stray_x86_eq_zero]
  exact and_iff_right fun h => Platform.noConfusion h

theorem misread_x64 : ∀ poly ∈ [reflect 32 0x1EDC6F41, reflect 32 0x04C11DB7], ∀ i < 2 ^ 7,
    misread .x64 poly i ≠ 0xff000000 ∧ (misread .x64 poly i = 0 → i = 0) := by decide +kernel

/-- On a platform of 64 bits only the entry 0 is read as itself. -/
theorem stray_x64_eq_zero (hpoly : poly ∈ [reflect 32 0x1EDC6F41, reflect 32 0x04C11DB7]) (s : ℕ)
    (p : UInt8) : Inside .x64 s p ∧ stray .x64 poly s p = 0 ↔
      (s ^^^ p.toNat) % 2 ^ 8 = 0 ∧ s < 2 ^ 31 := by
  unfold Inside stray
  generalize (s ^^^ p.toNat) % 2 ^ 8 = i
  constructor
  · rintro ⟨hin, hstray⟩
    obtain ⟨hsign, hzero⟩ := misread_x64 poly hpoly i (hin rfl)
    unfold signFill at hstray
    split_ifs at hstray with htop
    · exact absurd (Nat.xor_eq_zero_iff.mp hstray) hsign
    · exact ⟨hzero (by rwa [Nat.xor_zero] at hstray), by omega⟩
  · rintro ⟨rfl, hlow⟩
    refine ⟨by simp, ?_⟩
    unfold misread signFill
    rw [Nat.mul_zero, Nat.xor_self, if_neg (by omega)]
    rfl

/-- With the 64-bit platform, the code has the CRC after every byte when and only when every byte
cancels the low byte of a CRC without the top bit. -/
theorem harmless_prefixes_x64_iff (hpoly : poly ∈ [reflect 32 0x1EDC6F41, reflect 32 0x04C11DB7])
    (r : ℕ) (buf : List UInt8) :
    (∀ fst snd, buf = fst ++ snd → Harmless .x64 poly r fst) ↔
      ∀ fst p snd, buf = fst ++ p :: snd →
        (crcBytes poly r fst ^^^ p.toNat) % 2 ^ 8 = 0 ∧ crcBytes poly r fst < 2 ^ 31 := by
  rw [harmless_prefixes_iff]
  exact forall₄_congr fun fst p snd _ => stray_x64_eq_zero hpoly _ p

end

/-! ### The table CRCs -/

/-- **No byte adds anything to the CRC**: no CRC on the way has its top bit set, and on x64 every
byte is the low byte of the CRC of the bytes before it. -/
def NothingAdded (pf : Platform) (poly r : ℕ) (buf : List UInt8) : Prop :=
  ∀ fst p snd, buf = fst ++ p :: snd →
    crcBytes poly r fst < 2 ^ 31 ∧ (pf = .x64 → (crcBytes poly r fst ^^^ p.toNat) % 2 ^ 8 = 0)

/-- A table CRC is right on all first parts of a buffer exactly when no byte adds anything. -/
theorem isCrc_prefixes_iff {tab : List ℕ} {poly : ℕ} (ht : TableOf tab poly)
    (hpoly : poly ∈ [reflect 32 0x1EDC6F41, reflect 32 0x04C11DB7]) (pf : Platform) (start : ℤ)
    (buf : List UInt8) :
    (∀ fst snd, buf = fst ++ snd → IsCrc (crc32 pf tab) poly (toI32 start) fst) ↔
      NothingAdded pf poly (toU32 start).toNat buf := by
  have hlt : ∀ poly ∈ [reflect 32 0x1EDC6F41, reflect 32 0x04C11DB7], poly < 2 ^ 32 := by
    decide +kernel
  have hcrc := fun fst => isCrc_iff ht (hlt poly hpoly) pf start fst
  simp only [hcrc]
  cases pf with
  | x86 =>
    rw [harmless_prefixes_x86_iff]
    exact forall₄_congr fun _ _ _ _ => (and_iff_left fun h => Platform.noConfusion h).symm
  | x64 =>
    rw [harmless_prefixes_x64_iff hpoly]
    exact forall₄_congr fun _ _ _ _ => ⟨fun h => ⟨h.2, fun _ => h.1⟩, fun h => ⟨h.2 rfl, h.1⟩⟩

theorem isCrc_of_nothingAdded {tab : List ℕ} {poly : ℕ} (ht : TableOf tab poly)
    (hpoly : poly ∈ [reflect 32 0x1EDC6F41, reflect 32 0x04C11DB7]) {pf : Platform} {start : ℤ}
    {buf : List UInt8} (hnone : NothingAdded pf poly (toU32 start).toNat buf) :
    IsCrc (crc32 pf tab) poly (toI32 start) buf :=
  (isCrc_prefixes_iff ht hpoly pf start buf).mpr hnone buf [] (List.append_nil buf).symm

/-- A platform of 32 bits has a checksum for every buffer. -/
theorem drvCrc32c_x86 {crc : ℤ} (hc : crc ∈ Set.range toI32) (buf : List UInt8) :
    ∃ v ∈ Set.range toI32, drvCrc32c .x86 crc buf = some v := by
  obtain ⟨x, rfl⟩ := hc
  obtain ⟨v, hv, -⟩ := crc32_run crc32cTab_of (by decide +kernel) buf (toI32_ge x) (toI32_lt x)
    (Nat.xor_zero _).symm (staysInside_x86 _ _ _ _)
  exact ⟨v, crc32_range (Set.mem_range_self _) hv, hv⟩

/-- **The table CRCs against their definitions.** They are the CRCs of a buffer if no byte of it
adds anything, and of all its first parts only then. -/
theorem table_crcs (pf : Platform) (start : ℤ) (buf : List UInt8) :
    ((NothingAdded pf (reflect 32 0x1EDC6F41) (toU32 start).toNat buf →
        IsCrc (drvCrc32c pf) (reflect 32 0x1EDC6F41) (toI32 start) buf) ∧
      (NothingAdded pf (reflect 32 0x04C11DB7) (toU32 start).toNat buf →
        IsCrc (drvCrc32 pf) (reflect 32 0x04C11DB7) (toI32 start) buf)) ∧
    ((∀ fst snd, buf = fst ++ snd →
          IsCrc (drvCrc32c pf) (reflect 32 0x1EDC6F41) (toI32 start) fst) ↔
        NothingAdded pf (reflect 32 0x1EDC6F41) (toU32 start).toNat buf) ∧
    ((∀ fst snd, buf = fst ++ snd →
          IsCrc (drvCrc32 pf) (reflect 32 0x04C11DB7) (toI32 start) fst) ↔
        NothingAdded pf (reflect 32 0x04C11DB7) (toU32 start).toNat buf) := by
  have hc : reflect 32 0x1EDC6F41 ∈ [reflect 32 0x1EDC6F41, reflect 32 0x04C11DB7] := by
    decide +kernel
  have h32 : reflect 32 0x04C11DB7 ∈ [reflect 32 0x1EDC6F41, reflect 32 0x04C11DB7] := by
    decide +kernel
  exact ⟨⟨isCrc_of_nothingAdded crc32cTab_of hc, isCrc_of_nothingAdded crc32Tab_of h32⟩,
    isCrc_prefixes_iff crc32cTab_of hc pf start buf,
    isCrc_prefixes_iff crc32Tab_of h32 pf start buf⟩

/-- Three bytes on the way of which no CRC has its top bit set. -/
theorem table_crcs_threeBytes : IsCrc (drvCrc32c .x86) (reflect 32 0x1EDC6F41) (toI32 0) [5, 9, 1] ∧
    IsCrc (drvCrc32 .x86) (reflect 32 0x04C11DB7) (toI32 0) [5, 9, 1] := by
  have hlow : ∀ poly ∈ [reflect 32 0x1EDC6F41, reflect 32 0x04C11DB7],
      ∀ i < 3, crcBytes poly (toU32 0).toNat ([5, 9, 1].take i) < 2 ^ 31 := by decide +kernel
  have hnone : ∀ poly ∈ [reflect 32 0x1EDC6F41, reflect 32 0x04C11DB7],
      NothingAdded .x86 poly (toU32 0).toNat [5, 9, 1] := by
    refine fun poly hpoly fst p snd hbuf => ⟨?_, fun h => Platform.noConfusion h⟩
    have hlen := congrArg List.length hbuf
    rw [List.length_append, List.length_cons] at hlen
    have htake : ([5, 9, 1] : List UInt8).take fst.length = fst := by rw [hbuf, List.take_left]
    rw [← htake]
    exact hlow poly hpoly fst.length (by simp at hlen; omega)
  obtain ⟨hc, h32⟩ := (table_crcs .x86 0 [5, 9, 1]).1
  exact ⟨hc (hnone _ (by decide +kernel)), h32 (hnone _ (by decide +kernel))⟩

/-- On a buffer of one zero byte, from a start value with the top bit, the shift fills in the
sign. -/
theorem table_crcs_sign_fill :
    ¬ ∀ (pf : Platform) (start : ℤ) (buf : List UInt8), (buf.length : ℤ) < 2 ^ 31 →
      IsCrc (drvCrc32c pf) (reflect 32 0x1EDC6F41) (toI32 start) buf ∧
      IsCrc (drvCrc32 pf) (reflect 32 0x04C11DB7) (toI32 start) buf := by
  intro hall
  obtain ⟨hcrc, -⟩ := hall .x86 (2 ^ 31) [0] (by decide)
  have hcancel := ((isCrc_iff crc32cTab_of (by decide) .x86 (2 ^ 31) [0]).mp hcrc).cancel
  exact absurd hcancel (by decide +kernel)

end Ext4Fsd.Common.DrvCrc32
