import ZynqSha256.Fips.Sha256
import ZynqSha256.Lib.Slices

/-! sha256_chunk_compress.v: the round datapath. `stage` is loaded from the
not yet registered `abcdefgh_next`, so the working variables after a round are
a combinational function of `stage` and `abcdefgh`, one cycle before they are
registered. -/

namespace ZynqSha256

open Fips180 (Word Hash)

structure ChunkCompressIn where
  rstN : Bool
  compressStart : Bool
  updateHash : Bool
  inVaild : Bool
  wIn : Word
  kIn : Word

structure ChunkCompress where
  H8 : Hash
  abcdefgh : Vector Word 8
  stage : Vector Word 3

def lsbToMsb (lsb : Word) : Word :=
  lsb.extractLsb 7 0 ++ lsb.extractLsb 15 8 ++ lsb.extractLsb 23 16 ++ lsb.extractLsb 31 24

/-- A byte-swapped word, read from its low byte up, is the word read from its high byte down. -/
theorem leBytes_lsbToMsb (x : Word) : Slices.leBytes (lsbToMsb x) = Slices.beBytes x :=
  Slices.leBytes_append _ _ _ _

namespace ChunkCompress

def reset : ChunkCompress where
  H8 := #v[0x6a09e667, 0xbb67ae85, 0x3c6ef372, 0xa54ff53a,
    0x510e527f, 0x9b05688c, 0x1f83d9ab, 0x5be0cd19]
  abcdefgh := Vector.replicate 8 0
  stage := Vector.replicate 3 0

def abcdefghNext (compressStart : Bool) (p : ChunkCompress) : Vector Word 8 :=
  let tmp1 := p.stage[0]
  let tmp2 := p.stage[1] + p.stage[2]
  let compress := tmp1 + tmp2
  if compressStart then
    #v[compress, p.abcdefgh[0], p.abcdefgh[1], p.abcdefgh[2],
      p.abcdefgh[3] + tmp2, p.abcdefgh[4], p.abcdefgh[5], p.abcdefgh[6]]
  else p.H8

/-- The next `stage` out of `a … h = abcdefgh_next`, while `in_vaild`. -/
def stageNext (wIn kIn : Word) (next : Vector Word 8) : Vector Word 3 :=
  let a := next[0]
  let b := next[1]
  let c := next[2]
  let e := next[4]
  let f := next[5]
  let g := next[6]
  let h := next[7]
  let aRr2 : Word := a.extractLsb 1 0 ++ a.extractLsb 31 2
  let aRr13 : Word := a.extractLsb 12 0 ++ a.extractLsb 31 13
  let aRr22 : Word := a.extractLsb 21 0 ++ a.extractLsb 31 22
  let s0 := aRr2 ^^^ aRr13 ^^^ aRr22
  let maj := (a &&& b) ^^^ (a &&& c) ^^^ (b &&& c)
  let eRr6 : Word := e.extractLsb 5 0 ++ e.extractLsb 31 6
  let eRr11 : Word := e.extractLsb 10 0 ++ e.extractLsb 31 11
  let eRr25 : Word := e.extractLsb 24 0 ++ e.extractLsb 31 25
  let s1 := eRr6 ^^^ eRr11 ^^^ eRr25
  let ch := (e &&& f) ^^^ (~~~e &&& g)
  #v[s0 + maj, s1 + ch, wIn + kIn + h]

def h8Next (i : ChunkCompressIn) (p : ChunkCompress) : Hash :=
  if i.updateHash then Vector.zipWith (· + ·) p.H8 (p.abcdefghNext i.compressStart) else p.H8

def posedge (i : ChunkCompressIn) (p : ChunkCompress) : ChunkCompress :=
  if !i.rstN then reset
  else
    { H8 := p.h8Next i
      abcdefgh := if i.inVaild then p.abcdefghNext i.compressStart else p.abcdefgh
      stage :=
        if i.inVaild then stageNext i.wIn i.kIn (p.abcdefghNext i.compressStart) else p.stage }

/-- The output ports `hash0 … hash7`. -/
def hash (p : ChunkCompress) : Vector Word 8 := p.H8.map lsbToMsb

/-! ## One cycle -/

theorem stageNext_eq (w k : Word) (v : Vector Word 8) :
    stageNext w k v =
      #v[Fips180.bigSigma0 v[0] + Fips180.maj v[0] v[1] v[2],
        Fips180.bigSigma1 v[4] + Fips180.ch v[4] v[5] v[6], w + k + v[7]] := by
  have h2 := Slices.append_eq_rotateRight (a := 2) (b := 30) v[0] (by decide)
  have h13 := Slices.append_eq_rotateRight (a := 13) (b := 19) v[0] (by decide)
  have h22 := Slices.append_eq_rotateRight (a := 22) (b := 10) v[0] (by decide)
  have h6 := Slices.append_eq_rotateRight (a := 6) (b := 26) v[4] (by decide)
  have h11 := Slices.append_eq_rotateRight (a := 11) (b := 21) v[4] (by decide)
  have h25 := Slices.append_eq_rotateRight (a := 25) (b := 7) v[4] (by decide)
  unfold Fips180.bigSigma0 Fips180.bigSigma1
  rw [← h2, ← h13, ← h22, ← h6, ← h11, ← h25]
  rfl

/-- The hash words move only when `update_hash` is high. -/
theorem posedge_H8 {i : ChunkCompressIn} (hr : i.rstN = true) (p : ChunkCompress) :
    (p.posedge i).H8 = p.h8Next i := by
  simp [posedge, hr]

/-- A valid pair adds one standard round to the working variables. -/
theorem abcdefghNext_posedge {i : ChunkCompressIn} (hr : i.rstN = true) (hv : i.inVaild = true)
    (p : ChunkCompress) :
    (p.posedge i).abcdefghNext true =
      Fips180.round (p.abcdefghNext i.compressStart) i.kIn i.wIn := by
  have hstage : (p.posedge i).stage =
      stageNext i.wIn i.kIn (p.abcdefghNext i.compressStart) := by simp [posedge, hr, hv]
  have hregs : (p.posedge i).abcdefgh = p.abcdefghNext i.compressStart := by
    simp [posedge, hr, hv]
  generalize p.abcdefghNext i.compressStart = v at hstage hregs ⊢
  rw [stageNext_eq] at hstage
  -- `T1` is the sum of the last two stages, `T2` the first
  have ht1 : Fips180.bigSigma1 v[4] + Fips180.ch v[4] v[5] v[6] + (i.wIn + i.kIn + v[7]) =
      v[7] + Fips180.bigSigma1 v[4] + Fips180.ch v[4] v[5] v[6] + i.kIn + i.wIn := by ring
  have hnext : (p.posedge i).abcdefghNext true =
      #v[Fips180.bigSigma0 v[0] + Fips180.maj v[0] v[1] v[2] +
          (Fips180.bigSigma1 v[4] + Fips180.ch v[4] v[5] v[6] + (i.wIn + i.kIn + v[7])),
        v[0], v[1], v[2],
        v[3] + (Fips180.bigSigma1 v[4] + Fips180.ch v[4] v[5] v[6] + (i.wIn + i.kIn + v[7])),
        v[4], v[5], v[6]] := by
    simp [abcdefghNext, hstage, hregs]
  rw [hnext, ht1, BitVec.add_comm (Fips180.bigSigma0 _ + _)]
  rfl

/-- Without a valid pair the working variables stand still. -/
theorem abcdefghNext_posedge_idle {i : ChunkCompressIn} (hr : i.rstN = true)
    (hv : i.inVaild = false) (p : ChunkCompress) :
    (p.posedge i).abcdefghNext true = p.abcdefghNext true := by
  simp [abcdefghNext, posedge, hr, hv]

theorem abcdefghNext_false (p : ChunkCompress) : p.abcdefghNext false = p.H8 := by
  simp [abcdefghNext]

end ChunkCompress

end ZynqSha256
