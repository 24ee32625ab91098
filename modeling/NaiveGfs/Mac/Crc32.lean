import NaiveGfs.Words.Crc
import NaiveGfs.Words.LittleEndian

/-!
# The checksum of the program

`boot` sends the CRC-32 of the program along with its size. `crc32_inc` takes a byte at a time
out of a table; the table holds what eight shifts make of a byte (`crc32Tab_eq`), so that the
checksum is the remainder of the bits of the program, lowest bit of each byte first.
-/

namespace NaiveGfs

open Crc Polynomial

/-- `crc32_tab`. -/
def crc32Tab : Array UInt32 := #[
  0x00000000, 0x77073096, 0xee0e612c, 0x990951ba, 0x076dc419, 0x706af48f,
  0xe963a535, 0x9e6495a3, 0x0edb8832, 0x79dcb8a4, 0xe0d5e91e, 0x97d2d988,
  0x09b64c2b, 0x7eb17cbd, 0xe7b82d07, 0x90bf1d91, 0x1db71064, 0x6ab020f2,
  0xf3b97148, 0x84be41de, 0x1adad47d, 0x6ddde4eb, 0xf4d4b551, 0x83d385c7,
  0x136c9856, 0x646ba8c0, 0xfd62f97a, 0x8a65c9ec, 0x14015c4f, 0x63066cd9,
  0xfa0f3d63, 0x8d080df5, 0x3b6e20c8, 0x4c69105e, 0xd56041e4, 0xa2677172,
  0x3c03e4d1, 0x4b04d447, 0xd20d85fd, 0xa50ab56b, 0x35b5a8fa, 0x42b2986c,
  0xdbbbc9d6, 0xacbcf940, 0x32d86ce3, 0x45df5c75, 0xdcd60dcf, 0xabd13d59,
  0x26d930ac, 0x51de003a, 0xc8d75180, 0xbfd06116, 0x21b4f4b5, 0x56b3c423,
  0xcfba9599, 0xb8bda50f, 0x2802b89e, 0x5f058808, 0xc60cd9b2, 0xb10be924,
  0x2f6f7c87, 0x58684c11, 0xc1611dab, 0xb6662d3d, 0x76dc4190, 0x01db7106,
  0x98d220bc, 0xefd5102a, 0x71b18589, 0x06b6b51f, 0x9fbfe4a5, 0xe8b8d433,
  0x7807c9a2, 0x0f00f934, 0x9609a88e, 0xe10e9818, 0x7f6a0dbb, 0x086d3d2d,
  0x91646c97, 0xe6635c01, 0x6b6b51f4, 0x1c6c6162, 0x856530d8, 0xf262004e,
  0x6c0695ed, 0x1b01a57b, 0x8208f4c1, 0xf50fc457, 0x65b0d9c6, 0x12b7e950,
  0x8bbeb8ea, 0xfcb9887c, 0x62dd1ddf, 0x15da2d49, 0x8cd37cf3, 0xfbd44c65,
  0x4db26158, 0x3ab551ce, 0xa3bc0074, 0xd4bb30e2, 0x4adfa541, 0x3dd895d7,
  0xa4d1c46d, 0xd3d6f4fb, 0x4369e96a, 0x346ed9fc, 0xad678846, 0xda60b8d0,
  0x44042d73, 0x33031de5, 0xaa0a4c5f, 0xdd0d7cc9, 0x5005713c, 0x270241aa,
  0xbe0b1010, 0xc90c2086, 0x5768b525, 0x206f85b3, 0xb966d409, 0xce61e49f,
  0x5edef90e, 0x29d9c998, 0xb0d09822, 0xc7d7a8b4, 0x59b33d17, 0x2eb40d81,
  0xb7bd5c3b, 0xc0ba6cad, 0xedb88320, 0x9abfb3b6, 0x03b6e20c, 0x74b1d29a,
  0xead54739, 0x9dd277af, 0x04db2615, 0x73dc1683, 0xe3630b12, 0x94643b84,
  0x0d6d6a3e, 0x7a6a5aa8, 0xe40ecf0b, 0x9309ff9d, 0x0a00ae27, 0x7d079eb1,
  0xf00f9344, 0x8708a3d2, 0x1e01f268, 0x6906c2fe, 0xf762575d, 0x806567cb,
  0x196c3671, 0x6e6b06e7, 0xfed41b76, 0x89d32be0, 0x10da7a5a, 0x67dd4acc,
  0xf9b9df6f, 0x8ebeeff9, 0x17b7be43, 0x60b08ed5, 0xd6d6a3e8, 0xa1d1937e,
  0x38d8c2c4, 0x4fdff252, 0xd1bb67f1, 0xa6bc5767, 0x3fb506dd, 0x48b2364b,
  0xd80d2bda, 0xaf0a1b4c, 0x36034af6, 0x41047a60, 0xdf60efc3, 0xa867df55,
  0x316e8eef, 0x4669be79, 0xcb61b38c, 0xbc66831a, 0x256fd2a0, 0x5268e236,
  0xcc0c7795, 0xbb0b4703, 0x220216b9, 0x5505262f, 0xc5ba3bbe, 0xb2bd0b28,
  0x2bb45a92, 0x5cb36a04, 0xc2d7ffa7, 0xb5d0cf31, 0x2cd99e8b, 0x5bdeae1d,
  0x9b64c2b0, 0xec63f226, 0x756aa39c, 0x026d930a, 0x9c0906a9, 0xeb0e363f,
  0x72076785, 0x05005713, 0x95bf4a82, 0xe2b87a14, 0x7bb12bae, 0x0cb61b38,
  0x92d28e9b, 0xe5d5be0d, 0x7cdcefb7, 0x0bdbdf21, 0x86d3d2d4, 0xf1d4e242,
  0x68ddb3f8, 0x1fda836e, 0x81be16cd, 0xf6b9265b, 0x6fb077e1, 0x18b74777,
  0x88085ae6, 0xff0f6a70, 0x66063bca, 0x11010b5c, 0x8f659eff, 0xf862ae69,
  0x616bffd3, 0x166ccf45, 0xa00ae278, 0xd70dd2ee, 0x4e048354, 0x3903b3c2,
  0xa7672661, 0xd06016f7, 0x4969474d, 0x3e6e77db, 0xaed16a4a, 0xd9d65adc,
  0x40df0b66, 0x37d83bf0, 0xa9bcae53, 0xdebb9ec5, 0x47b2cf7f, 0x30b5ffe9,
  0xbdbdf21c, 0xcabac28a, 0x53b39330, 0x24b4a3a6, 0xbad03605, 0xcdd70693,
  0x54de5729, 0x23d967bf, 0xb3667a2e, 0xc4614ab8, 0x5d681b02, 0x2a6f2b94,
  0xb40bbe37, 0xc30c8ea1, 0x5a05df1b, 0x2d02ef8d]

/-- One round of the loop of `crc32_inc`. -/
def crc32Round (crc : UInt32) (p : UInt8) : UInt32 :=
  crc32Tab.getD ((crc ^^^ p.toUInt32) &&& 0xff).toNat 0 ^^^ (crc >>> 8)

/-- `crc32_inc`. -/
def crc32Inc (buf : List UInt8) (crc : UInt32) : UInt32 :=
  buf.foldl crc32Round (crc ^^^ 0xffffffff) ^^^ 0xffffffff

/-- `crc32`. -/
def crc32 (buf : List UInt8) : UInt32 := crc32Inc buf 0

/-! ## The table -/

/-- The generator in the order of the register, without its leading term. -/
def crc32Gen : BitVec 32 := 0xedb88320

/-- The bits of a byte, lowest first. -/
def byteBits (b : UInt8) : List Bool := lowBits 8 b.toBitVec

/-- The bits of some bytes in the order in which the register takes them in. -/
def bitsOf (buf : List UInt8) : List Bool := buf.flatMap byteBits

/-- An entry of the table is what eight shifts make of its index. -/
theorem crc32Tab_eq : ∀ i : Fin 256, (crc32Tab.getD i.val 0).toBitVec =
    run crc32Gen (BitVec.ofNat 32 i.val) (List.replicate 8 false) := by
  decide +kernel

theorem getLsbD_ff (i : ℕ) : (0xff : BitVec 32).getLsbD i = decide (i < 8) := by
  have hbit : Nat.testBit 255 i = decide (i < 8) := Nat.testBit_two_pow_sub_one 8 i
  change (BitVec.ofNat 32 255).getLsbD i = _
  rw [BitVec.getLsbD_ofNat, hbit, Bool.and_eq_right_iff_imp, decide_eq_true_iff,
    decide_eq_true_iff]
  omega

theorem getLsbD_and_ff (x : BitVec 32) (i : ℕ) :
    (x &&& 0xff).getLsbD i = (x.getLsbD i && decide (i < 8)) := by
  rw [BitVec.getLsbD_and, getLsbD_ff]

theorem getLsbD_and_not_ff (x : BitVec 32) (i : ℕ) :
    (x &&& ~~~0xff).getLsbD i = (x.getLsbD i && decide (8 ≤ i)) := by
  rw [BitVec.getLsbD_and, BitVec.getLsbD_not, getLsbD_ff]
  by_cases hi : i < 32
  · have hnot : (!decide (i < 8)) = decide (8 ≤ i) := by
      rw [← decide_not, decide_eq_decide]
      omega
    rw [decide_eq_true hi, Bool.true_and, hnot]
  · rw [BitVec.getLsbD_of_ge x i (by omega), Bool.false_and, Bool.false_and]

/-- The lowest eight bits of a word, and the others. -/
theorem low_xor_high (x : BitVec 32) : (x &&& 0xff) ^^^ (x &&& ~~~0xff) = x := by
  apply BitVec.eq_of_getLsbD_eq
  intro i _
  rw [BitVec.getLsbD_xor, getLsbD_and_ff, getLsbD_and_not_ff]
  by_cases h : i < 8
  · rw [decide_eq_true h, decide_eq_false (by omega), Bool.and_true, Bool.and_false, Bool.xor_false]
  · rw [decide_eq_false h, decide_eq_true (by omega), Bool.and_true, Bool.and_false, Bool.false_xor]

/-- Eight shifts of a word are an entry of the table for its lowest byte. -/
theorem run_eight (x : BitVec 32) :
    run crc32Gen x (List.replicate 8 false) =
      (crc32Tab.getD (x &&& 0xff).toNat 0).toBitVec ^^^ (x >>> 8) := by
  have hclear : ∀ i < 8, (x &&& ~~~0xff).getLsbD i = false := by
    intro i hi
    rw [getLsbD_and_not_ff, decide_eq_false (by omega), Bool.and_false]
  have hmoved : (x &&& ~~~0xff) >>> 8 = x >>> 8 := by
    apply BitVec.eq_of_getLsbD_eq
    intro i _
    rw [BitVec.getLsbD_ushiftRight, BitVec.getLsbD_ushiftRight, getLsbD_and_not_ff,
      decide_eq_true (by omega), Bool.and_true]
  have hlt : (x &&& 0xff).toNat < 256 := by
    rw [BitVec.toNat_and]
    exact Nat.and_lt_two_pow _ (by decide : (0xff#32).toNat < 2 ^ 8)
  have hentry := crc32Tab_eq ⟨(x &&& 0xff).toNat, hlt⟩
  rw [BitVec.ofNat_toNat, BitVec.setWidth_eq] at hentry
  rw [hentry]
  rw [← hmoved, ← run_zeros_xor_high _ _ _ hclear, low_xor_high]

/-- One round takes in the bits of one byte. -/
theorem crc32Round_eq (crc : UInt32) (p : UInt8) :
    (crc32Round crc p).toBitVec = run crc32Gen crc.toBitVec (byteBits p) := by
  let y : BitVec 32 := p.toBitVec.setWidth 32
  have hbits : byteBits p = lowBits 8 y := by
    apply List.map_congr_left
    intro i hi
    have hlt := List.mem_range.mp hi
    simp [y, show i < 32 by omega]
  have hhigh : ∀ i, 8 ≤ i → y.getLsbD i = false := by
    intro i hi
    simp [y, BitVec.getLsbD_of_ge p.toBitVec i hi]
  have hgone : y >>> 8 = 0 := by
    apply BitVec.eq_of_getLsbD_eq
    intro i _
    rw [BitVec.getLsbD_ushiftRight, hhigh (8 + i) (by omega)]
    simp
  have hmoved : (crc.toBitVec ^^^ y) >>> 8 = crc.toBitVec >>> 8 := by
    rw [BitVec.ushiftRight_xor_distrib, hgone]
    exact BitVec.xor_zero
  rw [hbits, run_lowBits _ _ _ hhigh, run_eight, hmoved]
  rfl

/-! ## The checksum as a remainder -/

theorem foldl_crc32Round (buf : List UInt8) (crc : UInt32) :
    (buf.foldl crc32Round crc).toBitVec = run crc32Gen crc.toBitVec (bitsOf buf) := by
  induction buf generalizing crc with
  | nil => rfl
  | cons p buf ih =>
    rw [List.foldl_cons, ih, crc32Round_eq, ← run_append]
    rfl

theorem crc32_xor_ones (buf : List UInt8) :
    (crc32 buf ^^^ 0xffffffff).toBitVec = run crc32Gen 0xffffffff (bitsOf buf) := by
  rw [crc32, crc32Inc, UInt32.xor_assoc, UInt32.xor_self, UInt32.xor_zero, foldl_crc32Round]
  rfl

/-- The checksum of two parts is that of the second, continued from the first. -/
theorem crc32Inc_append (buf more : List UInt8) (crc : UInt32) :
    crc32Inc (buf ++ more) crc = crc32Inc more (crc32Inc buf crc) := by
  simp only [crc32Inc, List.foldl_append, UInt32.xor_assoc, UInt32.xor_self, UInt32.xor_zero]

theorem length_bitsOf (buf : List UInt8) : (bitsOf buf).length = 8 * buf.length := by
  induction buf with
  | nil => rfl
  | cons p buf ih =>
    rw [bitsOf, List.flatMap_cons, List.length_append, List.length_cons]
    change (byteBits p).length + (bitsOf buf).length = _
    rw [ih, byteBits, lowBits, List.length_map, List.length_range]
    omega

/-- The generator is the polynomial of the CRC-32 standard. -/
theorem genPoly_crc32Gen : genPoly crc32Gen = X ^ 32 + X ^ 26 + X ^ 23 + X ^ 22 + X ^ 16 +
    X ^ 12 + X ^ 11 + X ^ 10 + X ^ 8 + X ^ 7 + X ^ 5 + X ^ 4 + X ^ 2 + X + 1 := by
  have hbits : ∀ i ∈ Finset.range 32, crc32Gen.getLsbD i =
      decide (i ∈ [31, 30, 29, 27, 26, 24, 23, 21, 20, 19, 15, 9, 8, 5]) := by decide
  rw [genPoly, toPoly, Finset.sum_congr rfl fun i hi => by rw [hbits i hi]]
  simp only [Finset.sum_range_succ, Finset.sum_range_zero]
  norm_num
  ring

/-- `crc32` is, up to the final complement, the remainder of the bits of the buffer behind 32
ones and in front of 32 zeros. -/
theorem crc32_remainder (buf : List UInt8) :
    toPoly (crc32 buf ^^^ 0xffffffff).toBitVec =
      (X ^ (8 * buf.length) * toPoly (0xffffffff : BitVec 32) + X ^ 32 * ofBits (bitsOf buf)) %ₘ
        (X ^ 32 + X ^ 26 + X ^ 23 + X ^ 22 + X ^ 16 + X ^ 12 + X ^ 11 + X ^ 10 + X ^ 8 + X ^ 7 +
          X ^ 5 + X ^ 4 + X ^ 2 + X + 1) := by
  rw [crc32_xor_ones, toPoly_run (by decide), length_bitsOf, genPoly_crc32Gen]

/-- Buffers whose bits differ only within 32 neighbouring ones have different checksums. -/
theorem crc32_ne_of_burst {buf buf' : List UInt8} {front xs ys back : List Bool}
    (hbuf : bitsOf buf = front ++ xs ++ back) (hbuf' : bitsOf buf' = front ++ ys ++ back)
    (hlen : xs.length = ys.length) (hle : xs.length ≤ 32) (hne : xs ≠ ys) :
    crc32 buf ≠ crc32 buf' := by
  intro h
  have hrun := congrArg (fun c => (c ^^^ 0xffffffff).toBitVec) h
  simp only [crc32_xor_ones, hbuf, hbuf'] at hrun
  exact run_ne_of_burst (by decide) (isCoprime_genPoly (by decide) (by decide)) front back hlen
    hle hne hrun

/-- One flipped bit. -/
theorem crc32_ne_of_flippedBit : crc32 [0x41, 0x42] ≠ crc32 [0x41, 0x43] := by
  have hbuf : bitsOf [0x41, 0x42] =
      byteBits 0x41 ++ [false] ++ [true, false, false, false, false, true, false] := by decide
  have hbuf' : bitsOf [0x41, 0x43] =
      byteBits 0x41 ++ [true] ++ [true, false, false, false, false, true, false] := by decide
  exact crc32_ne_of_burst hbuf hbuf' rfl (by decide) (by decide)

end NaiveGfs
