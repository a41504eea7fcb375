import Mathlib

/-! SHA-256 as FIPS 180-4 states it: the functions of section 4.1.2, the
constants of 4.2.2, the message schedule and rounds of 6.2.2, and the chaining
value of a word sequence. Nothing here mentions an implementation. -/

namespace Fips180

abbrev Word := BitVec 32

/-- The eight hash words, and also the eight working variables `a … h`. -/
abbrev Hash := Vector Word 8

def ch (x y z : Word) : Word := (x &&& y) ^^^ (~~~x &&& z)
def maj (x y z : Word) : Word := (x &&& y) ^^^ (x &&& z) ^^^ (y &&& z)
def bigSigma0 (x : Word) : Word := x.rotateRight 2 ^^^ x.rotateRight 13 ^^^ x.rotateRight 22
def bigSigma1 (x : Word) : Word := x.rotateRight 6 ^^^ x.rotateRight 11 ^^^ x.rotateRight 25
def smallSigma0 (x : Word) : Word := x.rotateRight 7 ^^^ x.rotateRight 18 ^^^ x >>> 3
def smallSigma1 (x : Word) : Word := x.rotateRight 17 ^^^ x.rotateRight 19 ^^^ x >>> 10

/-- The sixty-four round constants. -/
def kTable : List Word :=
  [0x428a2f98, 0x71374491, 0xb5c0fbcf, 0xe9b5dba5, 0x3956c25b, 0x59f111f1, 0x923f82a4, 0xab1c5ed5,
   0xd807aa98, 0x12835b01, 0x243185be, 0x550c7dc3, 0x72be5d74, 0x80deb1fe, 0x9bdc06a7, 0xc19bf174,
   0xe49b69c1, 0xefbe4786, 0x0fc19dc6, 0x240ca1cc, 0x2de92c6f, 0x4a7484aa, 0x5cb0a9dc, 0x76f988da,
   0x983e5152, 0xa831c66d, 0xb00327c8, 0xbf597fc7, 0xc6e00bf3, 0xd5a79147, 0x06ca6351, 0x14292967,
   0x27b70a85, 0x2e1b2138, 0x4d2c6dfc, 0x53380d13, 0x650a7354, 0x766a0abb, 0x81c2c92e, 0x92722c85,
   0xa2bfe8a1, 0xa81a664b, 0xc24b8b70, 0xc76c51a3, 0xd192e819, 0xd6990624, 0xf40e3585, 0x106aa070,
   0x19a4c116, 0x1e376c08, 0x2748774c, 0x34b0bcb5, 0x391c0cb3, 0x4ed8aa4a, 0x5b9cca4f, 0x682e6ff3,
   0x748f82ee, 0x78a5636f, 0x84c87814, 0x8cc70208, 0x90befffa, 0xa4506ceb, 0xbef9a3f7, 0xc67178f2]

def k (t : ℕ) : Word := kTable.getD t 0

/-- The initial hash value, section 5.3.3. -/
def iv : Hash :=
  ⟨#[0x6a09e667, 0xbb67ae85, 0x3c6ef372, 0xa54ff53a,
    0x510e527f, 0x9b05688c, 0x1f83d9ab, 0x5be0cd19], by decide⟩

/-! ## The message schedule -/

/-- `W_t` from the block `m` and the words `w` before it. -/
def scheduleNext (m w : List Word) (t : ℕ) : Word :=
  if t < 16 then m.getD t 0
  else smallSigma1 (w.getD (t - 2) 0) + w.getD (t - 7) 0 +
    smallSigma0 (w.getD (t - 15) 0) + w.getD (t - 16) 0

/-- The first `n` words of the schedule of the block `m`. -/
def schedule (m : List Word) : ℕ → List Word
  | 0 => []
  | t + 1 =>
    let ws := schedule m t
    ws ++ [scheduleNext m ws t]

def w (m : List Word) (t : ℕ) : Word := scheduleNext m (schedule m t) t

theorem schedule_eq_map (m : List Word) (n : ℕ) : schedule m n = (List.range n).map (w m) := by
  induction n with
  | zero => rfl
  | succ n ih =>
    rw [List.range_succ, List.map_append, ← ih]
    rfl

theorem schedule_getD (m : List Word) {n t : ℕ} (h : t < n) : (schedule m n).getD t 0 = w m t := by
  simp [schedule_eq_map, List.getD_eq_getElem?_getD, h]

theorem w_of_lt (m : List Word) {t : ℕ} (h : t < 16) : w m t = m.getD t 0 := by
  simp [w, scheduleNext, h]

/-- The recurrence of section 6.2.2. -/
theorem w_rec (m : List Word) {t : ℕ} (h : 16 ≤ t) :
    w m t = smallSigma1 (w m (t - 2)) + w m (t - 7) + smallSigma0 (w m (t - 15)) + w m (t - 16) := by
  conv_lhs => rw [w, scheduleNext, if_neg (by omega)]
  rw [schedule_getD m (by omega), schedule_getD m (by omega), schedule_getD m (by omega),
    schedule_getD m (by omega)]

/-! ## Rounds and the compression function -/

/-- One round of step 3 of section 6.2.2. -/
def round (v : Hash) (kt wt : Word) : Hash :=
  let t1 := v.get 7 + bigSigma1 (v.get 4) + ch (v.get 4) (v.get 5) (v.get 6) + kt + wt
  let t2 := bigSigma0 (v.get 0) + maj (v.get 0) (v.get 1) (v.get 2)
  #v[t1 + t2, v.get 0, v.get 1, v.get 2, v.get 3 + t1, v.get 4, v.get 5, v.get 6]

/-- The working variables after `n` rounds with the round words `ks` and `ws`. -/
def rounds (ks ws : ℕ → Word) (h : Hash) : ℕ → Hash
  | 0 => h
  | n + 1 => round (rounds ks ws h n) (ks n) (ws n)

/-- The compression function. -/
def compress (h : Hash) (m : List Word) : Hash :=
  Vector.zipWith (· + ·) h (rounds k (w m) h 64)

/-- The one-block message "abc". -/
example : compress iv [0x61626380, 0, 0, 0, 0, 0, 0, 0, 0, 0, 0, 0, 0, 0, 0, 0x18] =
    #v[0xba7816bf, 0x8f01cfea, 0x414140de, 0x5dae2223,
      0xb00361a3, 0x96177a9c, 0xb410ff61, 0xf20015ad] := by decide +kernel

theorem rounds_congr {ks ks' ws ws' : ℕ → Word} (h : Hash) {n : ℕ}
    (hk : ∀ t < n, ks t = ks' t) (hw : ∀ t < n, ws t = ws' t) :
    rounds ks ws h n = rounds ks' ws' h n := by
  induction n with
  | zero => rfl
  | succ n ih =>
    rw [rounds, rounds, ih (fun t ht => hk t (by omega)) (fun t ht => hw t (by omega)),
      hk n (by omega), hw n (by omega)]

/-! ## The chaining value of a word sequence -/

/-- Block `q` of a word sequence. -/
def block (ws : List Word) (q : ℕ) : List Word := (ws.drop (16 * q)).take 16

/-- The chaining value after the complete 16-word blocks of `ws`. -/
def chain (ws : List Word) : Hash :=
  (List.range (ws.length / 16)).foldl (fun h q => compress h (block ws q)) iv

@[simp] theorem chain_nil : chain [] = iv := rfl

theorem block_append {ws t : List Word} {q : ℕ} (h : 16 * (q + 1) ≤ ws.length) :
    block (ws ++ t) q = block ws q := by
  rw [block, block, List.drop_append_of_le_length (by omega),
    List.take_append_of_le_length (by rw [List.length_drop]; omega)]

theorem foldl_block_append (ws t : List Word) (n : ℕ) (h : 16 * n ≤ ws.length) (v : Hash) :
    (List.range n).foldl (fun h q => compress h (block (ws ++ t) q)) v =
      (List.range n).foldl (fun h q => compress h (block ws q)) v := by
  apply List.foldl_ext
  intro v q hq
  rw [block_append (by have := List.mem_range.1 hq; omega)]

/-- A tail that does not complete a block leaves the chaining value alone. -/
theorem chain_append_short {ws t : List Word} (hws : ws.length % 16 = 0) (ht : t.length < 16) :
    chain (ws ++ t) = chain ws := by
  have hlen : (ws ++ t).length / 16 = ws.length / 16 := by rw [List.length_append]; omega
  rw [chain, chain, hlen, foldl_block_append ws t _ (by omega)]

/-- A sixteenth word compresses the block it completes. -/
theorem chain_append_block {ws b : List Word} (hws : ws.length % 16 = 0) (hb : b.length = 16) :
    chain (ws ++ b) = compress (chain ws) b := by
  have hlen : (ws ++ b).length / 16 = ws.length / 16 + 1 := by rw [List.length_append]; omega
  have hblock : block (ws ++ b) (ws.length / 16) = b := by
    rw [block, show 16 * (ws.length / 16) = ws.length by omega, List.drop_left,
      List.take_of_length_le (by omega)]
  rw [chain, hlen, List.range_succ, List.foldl_append, List.foldl_cons, List.foldl_nil, hblock,
    foldl_block_append ws b _ (by omega)]
  rfl

end Fips180
