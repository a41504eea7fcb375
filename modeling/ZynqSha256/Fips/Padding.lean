import ZynqSha256.Fips.Sha256

/-! Padding and parsing of a message, FIPS 180-4 sections 5.1.1 and 5.2.1, on bit
strings as the standard has them, and their reading on bytes. -/

namespace Fips180

abbrev Byte := BitVec 8

/-! ## Bits -/

/-- The smallest number of zero bits that ends a block but for its length field. -/
def zeroBits (l : ℕ) : ℕ := (959 - l % 512) % 512

/-- The 64-bit block that is equal to `l`. -/
def lengthBits (l : ℕ) : List Bool := (List.range 64).map fun j => (BitVec.ofNat 64 l).getMsbD j

def pad (m : List Bool) : List Bool :=
  m ++ [true] ++ List.replicate (zeroBits m.length) false ++ lengthBits m.length

/-- The number a bit string stands for, most significant bit first. -/
def value (bs : List Bool) : ℕ := bs.foldl (fun n b => 2 * n + b.toNat) 0

/-- A bit string as 32-bit words. -/
def words (bs : List Bool) : List Word :=
  (List.range (bs.length / 32)).map fun t => BitVec.ofNat 32 (value ((bs.drop (32 * t)).take 32))

/-- SHA-256 of a bit string. -/
def sha256 (m : List Bool) : Hash := chain (words (pad m))

theorem zeroBits_spec (l : ℕ) : (l + 1 + zeroBits l) % 512 = 448 := by
  unfold zeroBits
  omega

theorem zeroBits_le {l k : ℕ} (h : (l + 1 + k) % 512 = 448) : zeroBits l ≤ k := by
  unfold zeroBits
  omega

/-! ## Bytes -/

def byteBits (x : Byte) : List Bool := (List.range 8).map x.getMsbD

def bits (m : List Byte) : List Bool := m.flatMap byteBits

/-- Four bytes to a word, most significant first. -/
def beWords : List Byte → List Word
  | a :: b :: c :: d :: m => (a ++ b ++ c ++ d) :: beWords m
  | _ => []

theorem byteBits_length (x : Byte) : (byteBits x).length = 8 := rfl

theorem bits_append (m m' : List Byte) : bits (m ++ m') = bits m ++ bits m' := List.flatMap_append

theorem bits_cons (x : Byte) (m : List Byte) : bits (x :: m) = byteBits x ++ bits m :=
  List.flatMap_cons

theorem bits_length (m : List Byte) : (bits m).length = 8 * m.length := by
  induction m with
  | nil => rfl
  | cons x m ih =>
    rw [bits_cons, List.length_append, ih, byteBits_length, List.length_cons]
    omega

theorem bits_zeros (z : ℕ) : bits (List.replicate z 0) = List.replicate (8 * z) false := by
  induction z with
  | zero => rfl
  | succ z ih =>
    rw [List.replicate_succ, bits_cons, ih, Nat.mul_succ, Nat.add_comm, List.replicate_add]
    rfl

theorem value_append (bs bs' : List Bool) :
    value (bs ++ bs') = value bs * 2 ^ bs'.length + value bs' := by
  have hgen (n : ℕ) : bs'.foldl (fun n b => 2 * n + b.toNat) n =
      n * 2 ^ bs'.length + value bs' := by
    unfold value
    induction bs' generalizing n with
    | nil => simp
    | cons b bs' ih =>
      rw [List.foldl_cons, List.foldl_cons, ih, ih (2 * 0 + b.toNat), List.length_cons, pow_succ]
      ring
  rw [value, List.foldl_append, hgen]
  rfl

theorem value_byteBits : ∀ x : Byte, value (byteBits x) = x.toNat := by decide +kernel

/-- The word that four bytes spell is their concatenation. -/
theorem word_of_bytes (a b c d : Byte) :
    BitVec.ofNat 32 (value (byteBits a ++ byteBits b ++ byteBits c ++ byteBits d)) =
      a ++ b ++ c ++ d := by
  rw [value_append, value_append, value_append, value_byteBits, value_byteBits, value_byteBits,
    value_byteBits, byteBits_length, byteBits_length, byteBits_length]
  apply BitVec.eq_of_toNat_eq
  have ha := a.isLt
  have hb := b.isLt
  have hc := c.isLt
  have hd := d.isLt
  rw [BitVec.toNat_ofNat, BitVec.toNat_append, BitVec.toNat_append, BitVec.toNat_append,
    ← Nat.shiftLeft_add_eq_or_of_lt hb, ← Nat.shiftLeft_add_eq_or_of_lt hc,
    ← Nat.shiftLeft_add_eq_or_of_lt hd]
  simp only [Nat.shiftLeft_eq]
  omega

theorem words_append {bs bs' : List Bool} (h : bs.length = 32) :
    words (bs ++ bs') = BitVec.ofNat 32 (value bs) :: words bs' := by
  have hlen : (bs ++ bs').length / 32 = bs'.length / 32 + 1 := by
    rw [List.length_append, h]
    omega
  rw [words, hlen, List.range_succ_eq_map, List.map_cons, List.map_map]
  congr 1
  · rw [Nat.mul_zero, List.drop_zero, List.take_append_of_le_length h.ge,
      List.take_of_length_le h.le]
  · apply List.map_congr_left
    intro t _
    rw [Function.comp_apply, Nat.mul_succ, Nat.add_comm, ← List.drop_drop,
      List.drop_append_of_le_length h.ge, List.drop_of_length_le h.le, List.nil_append]

/-- The words of whole words of bytes. -/
theorem words_bits (m : List Byte) (h : m.length % 4 = 0) : words (bits m) = beWords m := by
  induction m using beWords.induct with
  | case1 a b c d m ih =>
    have hm : m.length % 4 = 0 := by
      simp only [List.length_cons] at h
      omega
    rw [bits_cons, bits_cons, bits_cons, bits_cons, ← List.append_assoc, ← List.append_assoc,
      ← List.append_assoc, words_append (by simp [byteBits_length]), word_of_bytes, ih hm, beWords]
  | case2 m hne =>
    have hnil : m = [] := by
      match m, hne with
      | [], _ => rfl
      | [_], _ => simp at h
      | [_, _], _ => simp at h
      | [_, _, _], _ => simp at h
      | a :: b :: c :: d :: m, hne => exact absurd rfl (hne a b c d m)
    rw [hnil]
    rfl

/-! ## Padding a message of bytes -/

/-- The smallest number of zero bytes after the byte 0x80. -/
def zeroBytes (n : ℕ) : ℕ := (119 - n % 64) % 64

theorem zeroBytes_spec (n : ℕ) : (n + 1 + zeroBytes n) % 64 = 56 := by
  unfold zeroBytes
  omega

theorem zeroBytes_le {n z : ℕ} (h : (n + 1 + z) % 64 = 56) : zeroBytes n ≤ z := by
  unfold zeroBytes
  omega

theorem zeroBytes_lt (n : ℕ) : zeroBytes n < 64 := Nat.mod_lt _ (by decide)

/-- The length in bits as eight bytes, most significant first. -/
def be64 (n : ℕ) : List Byte :=
  (List.range 8).map fun j => (BitVec.ofNat 64 n).extractLsb' (56 - 8 * j) 8

theorem bits_be64 (n : ℕ) : bits (be64 n) = lengthBits n := by
  have hbyte (j : ℕ) (hj : j < 8) : byteBits ((BitVec.ofNat 64 n).extractLsb' (56 - 8 * j) 8) =
      (List.range 8).map fun t => (BitVec.ofNat 64 n).getMsbD (8 * j + t) := by
    apply List.map_congr_left
    intro t ht
    rw [List.mem_range] at ht
    rw [BitVec.getMsbD_eq_getLsbD, BitVec.getMsbD_eq_getLsbD, BitVec.getLsbD_extractLsb']
    simp only [ht, show 7 - t < 8 by omega, show 8 * j + t < 64 by omega, decide_true,
      Bool.true_and]
    congr 1
    omega
  have hcat : bits (be64 n) = (List.range 8).flatMap fun j =>
      (List.range 8).map fun t => (BitVec.ofNat 64 n).getMsbD (8 * j + t) := by
    rw [bits, be64, List.flatMap_map]
    apply List.flatMap_congr
    intro j hj
    exact hbyte j (List.mem_range.1 hj)
  rw [hcat]
  rfl

/-- A message of bytes is padded with whole bytes. -/
theorem pad_bits (m : List Byte) :
    pad (bits m) =
      bits (m ++ [0x80] ++ List.replicate (zeroBytes m.length) 0 ++ be64 (8 * m.length)) := by
  have hz : zeroBits (8 * m.length) = 7 + 8 * zeroBytes m.length := by
    have hbytes := zeroBytes_spec m.length
    have hbits := zeroBits_spec (8 * m.length)
    have hle : zeroBits (8 * m.length) ≤ 7 + 8 * zeroBytes m.length := zeroBits_le (by omega)
    have hlt := zeroBytes_lt m.length
    omega
  have hone : bits [0x80] = true :: List.replicate 7 false := by decide
  rw [bits_append, bits_append, bits_append, bits_zeros, bits_be64, hone, pad, bits_length, hz,
    List.replicate_add, ← List.append_assoc, List.append_assoc (bits m) [true]]
  rfl

end Fips180
