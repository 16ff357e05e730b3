-- The CRC-32 of buffers (common/crc32.cpp, crc32.hpp). A byte goes through the
-- table at once. What comes out is the remainder of a division of polynomials,
-- and errors in up to 32 adjacent bits show.
import Socle.Lib.ShiftRegister

namespace socle.tools.crc32

open lib.shift_register

/-- `crc32_tab`. -/
def tab : List UInt32 := [
  0x00000000, 0x77073096, 0xee0e612c, 0x990951ba, 0x076dc419, 0x706af48f, 0xe963a535, 0x9e6495a3,
  0x0edb8832, 0x79dcb8a4, 0xe0d5e91e, 0x97d2d988, 0x09b64c2b, 0x7eb17cbd, 0xe7b82d07, 0x90bf1d91,
  0x1db71064, 0x6ab020f2, 0xf3b97148, 0x84be41de, 0x1adad47d, 0x6ddde4eb, 0xf4d4b551, 0x83d385c7,
  0x136c9856, 0x646ba8c0, 0xfd62f97a, 0x8a65c9ec, 0x14015c4f, 0x63066cd9, 0xfa0f3d63, 0x8d080df5,
  0x3b6e20c8, 0x4c69105e, 0xd56041e4, 0xa2677172, 0x3c03e4d1, 0x4b04d447, 0xd20d85fd, 0xa50ab56b,
  0x35b5a8fa, 0x42b2986c, 0xdbbbc9d6, 0xacbcf940, 0x32d86ce3, 0x45df5c75, 0xdcd60dcf, 0xabd13d59,
  0x26d930ac, 0x51de003a, 0xc8d75180, 0xbfd06116, 0x21b4f4b5, 0x56b3c423, 0xcfba9599, 0xb8bda50f,
  0x2802b89e, 0x5f058808, 0xc60cd9b2, 0xb10be924, 0x2f6f7c87, 0x58684c11, 0xc1611dab, 0xb6662d3d,
  0x76dc4190, 0x01db7106, 0x98d220bc, 0xefd5102a, 0x71b18589, 0x06b6b51f, 0x9fbfe4a5, 0xe8b8d433,
  0x7807c9a2, 0x0f00f934, 0x9609a88e, 0xe10e9818, 0x7f6a0dbb, 0x086d3d2d, 0x91646c97, 0xe6635c01,
  0x6b6b51f4, 0x1c6c6162, 0x856530d8, 0xf262004e, 0x6c0695ed, 0x1b01a57b, 0x8208f4c1, 0xf50fc457,
  0x65b0d9c6, 0x12b7e950, 0x8bbeb8ea, 0xfcb9887c, 0x62dd1ddf, 0x15da2d49, 0x8cd37cf3, 0xfbd44c65,
  0x4db26158, 0x3ab551ce, 0xa3bc0074, 0xd4bb30e2, 0x4adfa541, 0x3dd895d7, 0xa4d1c46d, 0xd3d6f4fb,
  0x4369e96a, 0x346ed9fc, 0xad678846, 0xda60b8d0, 0x44042d73, 0x33031de5, 0xaa0a4c5f, 0xdd0d7cc9,
  0x5005713c, 0x270241aa, 0xbe0b1010, 0xc90c2086, 0x5768b525, 0x206f85b3, 0xb966d409, 0xce61e49f,
  0x5edef90e, 0x29d9c998, 0xb0d09822, 0xc7d7a8b4, 0x59b33d17, 0x2eb40d81, 0xb7bd5c3b, 0xc0ba6cad,
  0xedb88320, 0x9abfb3b6, 0x03b6e20c, 0x74b1d29a, 0xead54739, 0x9dd277af, 0x04db2615, 0x73dc1683,
  0xe3630b12, 0x94643b84, 0x0d6d6a3e, 0x7a6a5aa8, 0xe40ecf0b, 0x9309ff9d, 0x0a00ae27, 0x7d079eb1,
  0xf00f9344, 0x8708a3d2, 0x1e01f268, 0x6906c2fe, 0xf762575d, 0x806567cb, 0x196c3671, 0x6e6b06e7,
  0xfed41b76, 0x89d32be0, 0x10da7a5a, 0x67dd4acc, 0xf9b9df6f, 0x8ebeeff9, 0x17b7be43, 0x60b08ed5,
  0xd6d6a3e8, 0xa1d1937e, 0x38d8c2c4, 0x4fdff252, 0xd1bb67f1, 0xa6bc5767, 0x3fb506dd, 0x48b2364b,
  0xd80d2bda, 0xaf0a1b4c, 0x36034af6, 0x41047a60, 0xdf60efc3, 0xa867df55, 0x316e8eef, 0x4669be79,
  0xcb61b38c, 0xbc66831a, 0x256fd2a0, 0x5268e236, 0xcc0c7795, 0xbb0b4703, 0x220216b9, 0x5505262f,
  0xc5ba3bbe, 0xb2bd0b28, 0x2bb45a92, 0x5cb36a04, 0xc2d7ffa7, 0xb5d0cf31, 0x2cd99e8b, 0x5bdeae1d,
  0x9b64c2b0, 0xec63f226, 0x756aa39c, 0x026d930a, 0x9c0906a9, 0xeb0e363f, 0x72076785, 0x05005713,
  0x95bf4a82, 0xe2b87a14, 0x7bb12bae, 0x0cb61b38, 0x92d28e9b, 0xe5d5be0d, 0x7cdcefb7, 0x0bdbdf21,
  0x86d3d2d4, 0xf1d4e242, 0x68ddb3f8, 0x1fda836e, 0x81be16cd, 0xf6b9265b, 0x6fb077e1, 0x18b74777,
  0x88085ae6, 0xff0f6a70, 0x66063bca, 0x11010b5c, 0x8f659eff, 0xf862ae69, 0x616bffd3, 0x166ccf45,
  0xa00ae278, 0xd70dd2ee, 0x4e048354, 0x3903b3c2, 0xa7672661, 0xd06016f7, 0x4969474d, 0x3e6e77db,
  0xaed16a4a, 0xd9d65adc, 0x40df0b66, 0x37d83bf0, 0xa9bcae53, 0xdebb9ec5, 0x47b2cf7f, 0x30b5ffe9,
  0xbdbdf21c, 0xcabac28a, 0x53b39330, 0x24b4a3a6, 0xbad03605, 0xcdd70693, 0x54de5729, 0x23d967bf,
  0xb3667a2e, 0xc4614ab8, 0x5d681b02, 0x2a6f2b94, 0xb40bbe37, 0xc30c8ea1, 0x5a05df1b, 0x2d02ef8d]

/-- A byte of the loop. -/
def add (crc : UInt32) (p : UInt8) : UInt32 :=
  tab.getD ((crc ^^^ p.toUInt32) &&& 0xFF).toNat 0 ^^^ (crc >>> 8)

def compute (crc : UInt32) (buf : List UInt8) : UInt32 :=
  buf.foldl add (crc ^^^ ~~~0) ^^^ ~~~0

example : compute 0 [0x31, 0x32, 0x33, 0x34, 0x35, 0x36, 0x37, 0x38, 0x39] = 0xCBF43926 := by
  decide +kernel

/-! ## The table -/

/-- `$edb88320`, the polynomial with its terms reversed. -/
def feedback : BitVec 32 := 0xEDB88320

/-- The bits of a byte in the order in which they are sent, the lowest one first. -/
def byte_bits (b : UInt8) : List Bool :=
  (List.range 8).map b.toBitVec.getLsbD

def bits (buf : List UInt8) : List Bool :=
  buf.flatMap byte_bits

/-- The feedback terms are the results of eight shifts. -/
theorem tab_eq : tab = (List.range 256).map fun i =>
    UInt32.ofBitVec (shifts feedback 8 (BitVec.ofNat 32 i)) := by
  decide +kernel

theorem tab_getD {i : Nat} (h : i < 256) :
    (tab.getD i 0).toBitVec = shifts feedback 8 (BitVec.ofNat 32 i) := by
  rw [tab_eq]
  simp [h]

@[simp] theorem length_byte_bits (b : UInt8) : (byte_bits b).length = 8 := by
  simp [byte_bits]

theorem length_bits (buf : List UInt8) : (bits buf).length = 8 * buf.length := by
  simp [bits, Nat.mul_comm]

theorem pack_byte_bits (b : UInt8) : (pack (byte_bits b) : BitVec 32) = b.toBitVec.setWidth 32 := by
  apply BitVec.eq_of_getLsbD_eq
  intro i hi
  rw [getLsbD_pack, BitVec.getLsbD_setWidth]
  by_cases h8 : i < 8
  · simp [byte_bits, h8]
  · have hout : b.toBitVec.getLsbD i = false := BitVec.getLsbD_of_ge _ i (by omega)
    simp [byte_bits, h8, hout]

theorem low_byte (x : UInt32) : BitVec.ofNat 32 (x &&& 0xFF).toNat =
    (x.toBitVec.setWidth 8).setWidth 32 := by
  apply BitVec.eq_of_toNat_eq
  have hand : (x &&& 0xFF).toNat = x.toNat % 256 := by
    rw [UInt32.toNat_and]
    exact Nat.and_two_pow_sub_one_eq_mod x.toNat 8
  simp [hand]

/-- A byte of the loop is eight bits that come in one by one. -/
theorem add_toBitVec (crc : UInt32) (p : UInt8) :
    (add crc p).toBitVec = feeds feedback crc.toBitVec (byte_bits p) := by
  have hlow : ((crc ^^^ p.toUInt32) &&& 0xFF).toNat < 256 := by
    rw [UInt32.toNat_and]
    exact Nat.lt_of_le_of_lt Nat.and_le_right (by decide)
  have hp : p.toBitVec.setWidth 32 >>> 8 = 0#32 := by
    apply BitVec.eq_of_getLsbD_eq
    intro i _
    simp
  rw [feeds_eq _ (by simp), pack_byte_bits, length_byte_bits, shifts_split,
    BitVec.ushiftRight_xor_distrib, hp]
  unfold add
  rw [UInt32.toBitVec_xor, tab_getD hlow, low_byte]
  simp

theorem foldl_toBitVec (crc : UInt32) (buf : List UInt8) :
    (buf.foldl add crc).toBitVec = feeds feedback crc.toBitVec (bits buf) := by
  induction buf generalizing crc with
  | nil => rfl
  | cons p buf ih =>
    rw [List.foldl_cons, ih, add_toBitVec, ← feeds_append]
    rfl

theorem compute_toBitVec (crc : UInt32) (buf : List UInt8) :
    (compute crc buf).toBitVec = feeds feedback (~~~crc.toBitVec) (bits buf) ^^^ BitVec.allOnes 32 := by
  have hneg : (crc ^^^ ~~~0).toBitVec = ~~~crc.toBitVec := by simp
  unfold compute
  rw [UInt32.toBitVec_xor, foldl_toBitVec, hneg]
  rfl

/-! ## Division -/

open Polynomial

/-- The polynomial of the source. -/
noncomputable def polynomial : (ZMod 2)[X] :=
  X ^ 32 + X ^ 26 + X ^ 23 + X ^ 22 + X ^ 16 + X ^ 12 + X ^ 11 + X ^ 10 + X ^ 8 + X ^ 7 + X ^ 5 + X ^ 4 +
    X ^ 2 + X ^ 1 + X ^ 0

theorem generator_feedback : generator feedback = polynomial := by
  have hset : (List.range 32).filter feedback.getLsbD =
      [5, 8, 9, 15, 19, 20, 21, 23, 24, 26, 27, 29, 30, 31] := by decide
  rw [generator, poly_eq_sum, hset, polynomial]
  simp only [List.map_cons, List.map_nil, List.sum_cons, List.sum_nil]
  ring

/-- Up to the inversions before and behind it, the sum of a buffer is what is left of its bits when
the polynomial of the source divides them. The sum of what came before stands in front of them. -/
theorem compute_is_remainder (crc : UInt32) (buf : List UInt8) :
    poly (compute crc buf ^^^ ~~~0).toBitVec =
      (X ^ (8 * buf.length) * poly (crc ^^^ ~~~0).toBitVec + X ^ 32 * message (bits buf)) %ₘ
        polynomial := by
  have hback : (compute crc buf ^^^ ~~~0).toBitVec =
      feeds feedback (crc ^^^ ~~~0).toBitVec (bits buf) := by
    unfold compute
    rw [UInt32.xor_assoc, UInt32.xor_self, UInt32.xor_zero, foldl_toBitVec]
  rw [hback, poly_feeds (by decide), length_bits, generator_feedback]

/-! ## Pieces and differences -/

theorem compute_append (crc : UInt32) (a b : List UInt8) :
    compute (compute crc a) b = compute crc (a ++ b) := by
  unfold compute
  rw [UInt32.xor_assoc, UInt32.xor_self, UInt32.xor_zero, List.foldl_append]

/-- A buffer can be summed up in pieces. -/
theorem compute_flatten (crc : UInt32) (pieces : List (List UInt8)) :
    pieces.foldl compute crc = compute crc pieces.flatten := by
  induction pieces generalizing crc with
  | nil => simp [compute]
  | cons a pieces ih => rw [List.foldl_cons, ih, compute_append, List.flatten_cons]

theorem byte_bits_xor (a b : UInt8) :
    byte_bits (a ^^^ b) = List.zipWith xor (byte_bits a) (byte_bits b) := by
  simp [byte_bits]

theorem bits_xor {a d : List UInt8} (h : a.length = d.length) :
    bits (List.zipWith (· ^^^ ·) a d) = List.zipWith xor (bits a) (bits d) := by
  induction a generalizing d with
  | nil => simp [bits]
  | cons x a ih =>
    cases d with
    | nil => simp at h
    | cons y d =>
      have hrest := ih (by simpa using h)
      unfold bits at hrest ⊢
      rw [List.zipWith_cons_cons, List.flatMap_cons, List.flatMap_cons, List.flatMap_cons,
        List.zipWith_append (by simp), byte_bits_xor, hrest]

theorem compute_xor (crc : UInt32) {a d : List UInt8} (h : a.length = d.length) :
    compute crc (List.zipWith (· ^^^ ·) a d) ^^^ compute crc a =
      UInt32.ofBitVec (feeds feedback 0#32 (bits d)) := by
  have hbits : (bits a).length = (bits d).length := by rw [length_bits, length_bits, h]
  apply UInt32.toBitVec_inj.mp
  rw [UInt32.toBitVec_xor, compute_toBitVec, compute_toBitVec, bits_xor h, xor_xor_xor_comm,
    BitVec.xor_self, BitVec.xor_zero, feeds_difference _ hbits]

/-- A difference shows in the sum in one way, whatever the buffer is that it is made to, and whatever
sum the buffer goes on with. -/
theorem differences_show_alike (crc : UInt32) {a d : List UInt8} (h : a.length = d.length) :
    compute crc (List.zipWith (· ^^^ ·) a d) ^^^ compute crc a =
      compute 0 d ^^^ compute 0 (List.replicate d.length 0) := by
  have hzeros : List.zipWith (· ^^^ ·) (List.replicate d.length 0) d = d := by
    apply List.ext_getElem (by simp)
    intro i _ _
    simp
  have hd := compute_xor 0 (a := List.replicate d.length 0) (d := d) (by simp)
  rw [hzeros] at hd
  rw [compute_xor crc h, hd]

theorem differences_show_alike_witness : compute 7 [1 ^^^ 4, 2 ^^^ 8] ^^^ compute 7 [1, 2] =
    compute 0 [4, 8] ^^^ compute 0 [0, 0] :=
  differences_show_alike 7 (a := [1, 2]) (d := [4, 8]) (by simp)

/-! ## Bursts -/

theorem byte_bits_inj {a b : UInt8} (h : byte_bits a = byte_bits b) : a = b := by
  apply UInt8.toBitVec_inj.mp
  have hpack : (pack (byte_bits a) : BitVec 8) = pack (byte_bits b) := by rw [h]
  have hback : ∀ c : UInt8, (pack (byte_bits c) : BitVec 8) = c.toBitVec := by
    intro c
    apply BitVec.eq_of_getLsbD_eq
    intro i hi
    rw [getLsbD_pack]
    simp [byte_bits, hi]
  rw [hback, hback] at hpack
  exact hpack

theorem bits_inj {x y : List UInt8} (h : bits x = bits y) : x = y := by
  have hlen : 8 * x.length = 8 * y.length := by rw [← length_bits, ← length_bits, h]
  induction x generalizing y with
  | nil =>
    cases y with
    | nil => rfl
    | cons b y => simp at hlen
  | cons a x ih =>
    cases y with
    | nil => simp at hlen
    | cons b y =>
      unfold bits at h ih
      rw [List.flatMap_cons, List.flatMap_cons] at h
      obtain ⟨hhead, htail⟩ := List.append_inj h (by simp)
      rw [byte_bits_inj hhead, ih htail (by simpa using hlen)]

/-- Two buffers with differences in up to 32 adjacent bits only have different sums. -/
theorem bursts_are_detected (crc : UInt32) {x y : List UInt8} {l r as bs : List Bool}
    (hx : bits x = l ++ as ++ r) (hy : bits y = l ++ bs ++ r) (hlen : as.length = bs.length)
    (hw : bs.length ≤ 32) (hne : x ≠ y) : compute crc x ≠ compute crc y := by
  intro heq
  apply hne
  have hfeeds := congrArg UInt32.toBitVec heq
  rw [compute_toBitVec, compute_toBitVec, BitVec.xor_left_inj, hx, hy] at hfeeds
  have hwindow := feeds_window (by decide) _ l r hlen hw hfeeds
  apply bits_inj
  rw [hx, hy, hwindow]

theorem bursts_are_detected_witness : compute 0 [1, 2, 3] ≠ compute 0 [1, 0x82, 7] :=
  @bursts_are_detected 0 [1, 2, 3] [1, 0x82, 7] (byte_bits 1) [] (byte_bits 2 ++ byte_bits 3)
    (byte_bits 0x82 ++ byte_bits 7) (by decide) (by decide) (by decide) (by decide) (by decide)

end socle.tools.crc32
