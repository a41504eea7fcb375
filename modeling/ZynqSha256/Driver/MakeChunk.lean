import ZynqSha256.Fips.Padding

/-! bench/test_driver/src/main.rs, `make_chunk`: the test driver pads the file it
hashes. `usize` has 32 bits on the driver's target, armv7. -/

namespace ZynqSha256.TestDriver

open Fips180 (Byte)

/-- What a build does with a `usize` operation that overflows. -/
inductive Overflow where
  | panics
  | wraps
deriving DecidableEq, Repr

/-- The value of a `usize` operation with the exact result `n`. -/
def usize (mode : Overflow) (n : ℤ) : Option ℕ :=
  if 0 ≤ n ∧ n < 2 ^ 32 then some n.toNat
  else match mode with
    | .panics => none
    | .wraps => some (n % (2 ^ 32 : ℤ)).toNat

/-- `Vec::resize`. -/
def resize (buffer : List Byte) (newLen : ℕ) (value : Byte) : List Byte :=
  buffer.take newLen ++ List.replicate (newLen - buffer.length) value

/-- `write_u64::<BigEndian>`. -/
def writeU64 (buffer : List Byte) (n : BitVec 64) : List Byte :=
  buffer ++ [n.extractLsb 63 56, n.extractLsb 55 48, n.extractLsb 47 40, n.extractLsb 39 32,
    n.extractLsb 31 24, n.extractLsb 23 16, n.extractLsb 15 8, n.extractLsb 7 0]

/-- The length either branch resizes the buffer to. -/
def resizedLen (mode : Overflow) (len chunkUsedSpace : ℕ) : Option ℕ :=
  if chunkUsedSpace < 56 then do
    let sum ← usize mode (len + 56)
    usize mode (sum - chunkUsedSpace)
  else do
    let sum ← usize mode (len + 64)
    let sum ← usize mode (sum + 56)
    usize mode (sum - chunkUsedSpace)

/-- The buffer afterwards, or `none` where the build panics. -/
def makeChunk (mode : Overflow) (buffer : List Byte) : Option (List Byte) := do
  let msgLen ← usize mode (buffer.length * 8)
  let buffer := buffer ++ [0x80]
  let chunkUsedSpace := buffer.length % 64
  let newLen ← resizedLen mode buffer.length chunkUsedSpace
  let buffer := resize buffer newLen 0x00
  return writeU64 buffer (BitVec.ofNat 64 msgLen)

theorem usize_of_lt {mode : Overflow} {n : ℤ} (h0 : 0 ≤ n) (h : n < 2 ^ 32) :
    usize mode n = some n.toNat := if_pos ⟨h0, h⟩

theorem resize_of_le {buffer : List Byte} {newLen : ℕ} (h : buffer.length ≤ newLen) (x : Byte) :
    resize buffer newLen x = buffer ++ List.replicate (newLen - buffer.length) x := by
  rw [resize, List.take_of_length_le h]

theorem writeU64_eq (buffer : List Byte) (n : ℕ) :
    writeU64 buffer (BitVec.ofNat 64 n) = buffer ++ Fips180.be64 n := rfl

/-- The zero bytes the two branches append after the byte 0x80. -/
def zerosAppended (n : ℕ) : ℕ :=
  if (n + 1) % 64 < 56 then 56 - (n + 1) % 64 else 64 + 56 - (n + 1) % 64

theorem resizedLen_eq (mode : Overflow) {n : ℕ} (h : n + 121 < 2 ^ 32) :
    resizedLen mode (n + 1) ((n + 1) % 64) = some (n + 1 + zerosAppended n) := by
  rw [zerosAppended, resizedLen]
  split
  next hlt =>
    rw [usize_of_lt (by omega) (by omega), Option.bind_eq_bind, Option.bind_some,
      usize_of_lt (by omega) (by omega)]
    congr 1
    omega
  next hge =>
    rw [usize_of_lt (by omega) (by omega), Option.bind_eq_bind, Option.bind_some,
      usize_of_lt (by omega) (by omega), Option.bind_some, usize_of_lt (by omega) (by omega)]
    congr 1
    omega

/-- What `make_chunk` returns while the padded buffer fits: the length is whatever
the multiplication by eight makes of it. -/
theorem makeChunk_of_fits (mode : Overflow) (m : List Byte) (h : m.length + 121 < 2 ^ 32) :
    makeChunk mode m = (usize mode (m.length * 8)).map fun n =>
      m ++ [0x80] ++ List.replicate (zerosAppended m.length) 0 ++ Fips180.be64 n := by
  have hlen : (m ++ [0x80]).length = m.length + 1 := by simp
  have hresized := resizedLen_eq mode (n := m.length) (by omega)
  unfold makeChunk
  cases hmul : usize mode (m.length * 8) with
  | none => rfl
  | some n =>
    rw [Option.bind_eq_bind, Option.bind_some]
    dsimp only
    rw [hlen, hresized, Option.bind_some, resize_of_le (by omega), writeU64_eq, hlen,
      Nat.add_sub_cancel_left]
    rfl

/-- What `make_chunk` returns while eight times the length fits a `usize`. -/
theorem makeChunk_eq (mode : Overflow) (m : List Byte) (h : 8 * m.length < 2 ^ 32) :
    makeChunk mode m = some (m ++ [0x80] ++ List.replicate (zerosAppended m.length) 0 ++
      Fips180.be64 (8 * m.length)) := by
  rw [makeChunk_of_fits mode m (by omega), usize_of_lt (by omega) (by omega), Option.map_some,
    show ((m.length : ℤ) * 8).toNat = 8 * m.length by omega]

/-- A block whose last eight bytes are free already takes the branch that adds another. -/
theorem zerosAppended_eq_iff (n : ℕ) :
    zerosAppended n = Fips180.zeroBytes n ↔ n % 64 ≠ 55 := by
  have hcases : n % 64 = 63 ∨ n % 64 = 55 ∨ n % 64 < 55 ∨ 55 < n % 64 ∧ n % 64 < 63 := by omega
  unfold zerosAppended Fips180.zeroBytes
  rcases hcases with h | h | h | ⟨h1, h2⟩
  · rw [show (n + 1) % 64 = 0 by omega, h]
    decide
  · rw [show (n + 1) % 64 = 56 by omega, h]
    decide
  · rw [if_pos (by omega)]
    omega
  · rw [if_neg (by omega)]
    omega

/-- The buffer becomes the message, the byte 0x80, the fewest zero bytes that leave room
for the length alone, and the length in bits; its blocks hash to SHA-256 of the message. -/
def Pads (mode : Overflow) (m : List Byte) : Prop :=
  ∃ z r, makeChunk mode m = some r ∧
    r = m ++ [0x80] ++ List.replicate z 0 ++ Fips180.be64 (8 * m.length) ∧
    (m.length + 1 + z) % 64 = 56 ∧ (∀ z', (m.length + 1 + z') % 64 = 56 → z ≤ z') ∧
    Fips180.chain (Fips180.beWords r) = Fips180.sha256 (Fips180.bits m)

/-- The standard's padding hashes to SHA-256 of the message. -/
theorem chain_padded (m : List Byte) :
    Fips180.chain (Fips180.beWords (m ++ [0x80] ++
      List.replicate (Fips180.zeroBytes m.length) 0 ++ Fips180.be64 (8 * m.length))) =
        Fips180.sha256 (Fips180.bits m) := by
  rw [Fips180.sha256, Fips180.pad_bits, Fips180.words_bits]
  have hspec := Fips180.zeroBytes_spec m.length
  simp only [List.length_append, List.length_replicate, List.length_singleton, Fips180.be64,
    List.length_map, List.length_range]
  omega

theorem not_pads {mode : Overflow} {m : List Byte} (h : 8 * m.length < 2 ^ 32)
    (h55 : m.length % 64 = 55) : ¬Pads mode m := by
  rintro ⟨z, r, hr, hz, -, hmin, -⟩
  rw [makeChunk_eq mode m h, Option.some.injEq] at hr
  have hlen := congrArg List.length (hr.trans hz)
  have hzero := hmin 0 (by omega)
  have hadded : zerosAppended m.length = 64 := by
    rw [zerosAppended, show (m.length + 1) % 64 = 56 by omega]
    rfl
  simp only [List.length_append, List.length_replicate, hadded] at hlen
  omega

/-- A message of fewer than 2^32 bits is padded as the standard pads it if and only if
its length is not 55 modulo 64: there the code appends a superfluous block of zeros. -/
theorem make_chunk_pads_iff (mode : Overflow) (m : List Byte) (h : 8 * m.length < 2 ^ 32) :
    Pads mode m ↔ m.length % 64 ≠ 55 := by
  constructor
  · intro hp h55
    exact not_pads h h55 hp
  · intro h55
    have hz := (zerosAppended_eq_iff m.length).2 h55
    refine ⟨Fips180.zeroBytes m.length, _, ?_, rfl, Fips180.zeroBytes_spec _,
      fun z' => Fips180.zeroBytes_le, chain_padded m⟩
    rw [makeChunk_eq mode m h, hz]

/-- The message "abc". -/
theorem make_chunk_pads_iff_abc :
    Pads .panics [0x61, 0x62, 0x63] ↔ [0x61, 0x62, 0x63].length % 64 ≠ 55 :=
  make_chunk_pads_iff .panics [0x61, 0x62, 0x63] (by decide)

/-- Fifty-five bytes fit one block with their length, and are padded to two. -/
theorem fifty_five_bytes_overpadded :
    ¬∀ (mode : Overflow) (m : List Byte), 8 * m.length < 2 ^ 32 → Pads mode m := by
  intro h
  have hlen : (List.replicate 55 (0x61 : Byte)).length = 55 := by rw [List.length_replicate]
  exact not_pads (by rw [hlen]; decide) (by rw [hlen])
    (h .panics (List.replicate 55 0x61) (by rw [hlen]; decide))

/-- Their two blocks do not hash to their SHA-256. -/
example : (makeChunk .panics (List.replicate 55 0x61)).map
    (fun r => Fips180.chain (Fips180.beWords r)) ≠
      some (Fips180.sha256 (Fips180.bits (List.replicate 55 0x61))) := by decide +kernel

/-! ## The length trailer -/

/-- No `usize` operation leaves the range: a build that panics on overflow returns. -/
def NoOverflow (m : List Byte) : Prop := makeChunk .panics m ≠ none

/-- The last eight bytes of the buffer are the length in bits, as a 64-bit number. -/
def TrailerOk (mode : Overflow) (m : List Byte) : Prop :=
  ∃ r, makeChunk mode m = some r ∧ r.drop (r.length - 8) = Fips180.be64 (8 * m.length)

/-- The padded buffer is one that a `Vec<u8>` can hold: at most 2^31 - 1 bytes. -/
def Fits (m : List Byte) : Prop := m.length + 1 + zerosAppended m.length + 8 < 2 ^ 31

theorem Fits.length_lt {m : List Byte} (h : Fits m) : m.length + 121 < 2 ^ 32 := by
  unfold Fits at h
  omega

/-- Bits 32 to 39 of a length. -/
theorem be64_getD_three (n : ℕ) : ((Fips180.be64 n).getD 3 0).toNat = n % 2 ^ 64 / 2 ^ 32 % 2 ^ 8 := by
  have h : (Fips180.be64 n).getD 3 0 = (BitVec.ofNat 64 n).extractLsb' 32 8 := rfl
  rw [h, BitVec.extractLsb'_toNat, BitVec.toNat_ofNat, Nat.shiftRight_eq_div_pow]

theorem drop_trailer (l : List Byte) (n : ℕ) :
    (l ++ Fips180.be64 n).drop ((l ++ Fips180.be64 n).length - 8) = Fips180.be64 n := by
  have hlen : (Fips180.be64 n).length = 8 := rfl
  rw [List.length_append, hlen, Nat.add_sub_cancel, List.drop_left]

theorem noOverflow_iff {m : List Byte} (h : Fits m) : NoOverflow m ↔ m.length < 2 ^ 29 := by
  rw [NoOverflow, makeChunk_of_fits .panics m h.length_lt]
  constructor
  · intro hne
    by_contra hge
    rw [usize, if_neg (by omega)] at hne
    exact hne rfl
  · intro hlt
    rw [usize_of_lt (by omega) (by omega)]
    exact Option.some_ne_none _

/-- Beyond 2^32 bits a build that wraps writes the length modulo 2^32. -/
theorem trailerOk_iff (mode : Overflow) {m : List Byte} (h : Fits m) :
    TrailerOk mode m ↔ m.length < 2 ^ 29 := by
  constructor
  · rintro ⟨r, hr, htrail⟩
    by_contra hge
    rw [makeChunk_of_fits mode m h.length_lt] at hr
    cases mode with
    | panics =>
      rw [usize, if_neg (by omega)] at hr
      cases hr
    | wraps =>
      rw [usize, if_neg (by omega), Option.map_some, Option.some.injEq] at hr
      rw [← hr, drop_trailer] at htrail
      have hbyte := congrArg (fun l => (l.getD 3 0).toNat) htrail
      simp only [be64_getD_three] at hbyte
      unfold Fits at h
      omega
  · intro hlt
    exact ⟨_, makeChunk_eq mode m (by omega), drop_trailer _ _⟩

/-- Among the buffers whose padding fits, the ones below 2^29 bytes get their length
without overflow, and no others do. -/
theorem make_chunk_trailer_iff (mode : Overflow) (m : List Byte) (h : Fits m) :
    NoOverflow m ∧ TrailerOk mode m ↔ m.length < 2 ^ 29 := by
  rw [noOverflow_iff h, trailerOk_iff mode h, and_self]

theorem make_chunk_trailer_iff_abc :
    NoOverflow [0x61, 0x62, 0x63] ∧ TrailerOk .wraps [0x61, 0x62, 0x63] ↔
      [0x61, 0x62, 0x63].length < 2 ^ 29 :=
  make_chunk_trailer_iff .wraps [0x61, 0x62, 0x63] (by unfold Fits; decide)

/-- A file of 512 MiB has 2^32 bits, one too many for a `usize`. -/
theorem half_gibibyte_overflows :
    ¬∀ (mode : Overflow) (m : List Byte), Fits m → NoOverflow m ∧ TrailerOk mode m := by
  intro h
  have hlen : (List.replicate (2 ^ 29) (0 : Byte)).length = 2 ^ 29 := List.length_replicate
  have hfits : Fits (List.replicate (2 ^ 29) 0) := by
    unfold Fits
    rw [hlen]
    decide
  have hlt := (noOverflow_iff hfits).1 (h .panics _ hfits).1
  omega

end ZynqSha256.TestDriver
