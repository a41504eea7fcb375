import ZynqSha256.Fips.Sha256
import ZynqSha256.Lib.Slices

/-! sha256_chunk_process.v: the message schedule as a sixteen-word shift
register. `s0` and `s1` are computed one word ahead, so the invariant `Holds`
keeps them one index behind the words. -/

namespace ZynqSha256

open Fips180 (Word)

structure ChunkProcessIn where
  rstN : Bool
  processStart : Bool
  datVaildI : Bool
  datMsbI : Word

structure ChunkProcess where
  W : Vector Word 16
  s0 : Word
  s1 : Word

namespace ChunkProcessIn

def pipelineStart (i : ChunkProcessIn) : Bool := i.datVaildI || i.processStart
def wOutVaild (i : ChunkProcessIn) : Bool := i.pipelineStart

end ChunkProcessIn

namespace ChunkProcess

def reset : ChunkProcess := ⟨Vector.replicate 16 0, 0, 0⟩

def s0Next (i : ChunkProcessIn) (p : ChunkProcess) : Word :=
  let wM15 := p.W[1 + 1]
  let wM15Rr7 : Word := wM15.extractLsb 6 0 ++ wM15.extractLsb 31 7
  let wM15Rr18 : Word := wM15.extractLsb 17 0 ++ wM15.extractLsb 31 18
  let wM15R3 := wM15 >>> 3
  if i.pipelineStart then wM15Rr7 ^^^ wM15Rr18 ^^^ wM15R3 else p.s0

def s1Next (i : ChunkProcessIn) (p : ChunkProcess) : Word :=
  let wM2 := p.W[15]
  let wM2Rr17 : Word := wM2.extractLsb 16 0 ++ wM2.extractLsb 31 17
  let wM2Rr19 : Word := wM2.extractLsb 18 0 ++ wM2.extractLsb 31 19
  let wM2R10 := wM2 >>> 10
  if i.pipelineStart then wM2Rr17 ^^^ wM2Rr19 ^^^ wM2R10 else p.s1

def wNew (p : ChunkProcess) : Word :=
  let wM16 := p.W[0]
  let wM7 := p.W[9]
  (wM16 + p.s0) + (wM7 + p.s1)

def wIn (i : ChunkProcessIn) (p : ChunkProcess) : Word := if i.processStart then p.wNew else i.datMsbI
def wOut (i : ChunkProcessIn) (p : ChunkProcess) : Word := p.wIn i

def WNext (i : ChunkProcessIn) (p : ChunkProcess) : Vector Word 16 :=
  Vector.ofFn fun j =>
    if h : j.val = 15 then (if i.pipelineStart then p.wIn i else p.W[15])
    else (if i.pipelineStart then p.W[j.val + 1] else p.W[j])

def posedge (i : ChunkProcessIn) (p : ChunkProcess) : ChunkProcess :=
  if !i.rstN then reset
  else { W := p.WNext i, s0 := p.s0Next i, s1 := p.s1Next i }

/-! ## One cycle -/

theorem s0Next_eq (i : ChunkProcessIn) (p : ChunkProcess) :
    p.s0Next i = if i.pipelineStart then Fips180.smallSigma0 p.W[2] else p.s0 := by
  have h7 := Slices.append_eq_rotateRight (a := 7) (b := 25) p.W[2] (by decide)
  have h18 := Slices.append_eq_rotateRight (a := 18) (b := 14) p.W[2] (by decide)
  unfold s0Next Fips180.smallSigma0
  rw [← h7, ← h18]
  rfl

theorem s1Next_eq (i : ChunkProcessIn) (p : ChunkProcess) :
    p.s1Next i = if i.pipelineStart then Fips180.smallSigma1 p.W[15] else p.s1 := by
  have h17 := Slices.append_eq_rotateRight (a := 17) (b := 15) p.W[15] (by decide)
  have h19 := Slices.append_eq_rotateRight (a := 19) (b := 13) p.W[15] (by decide)
  unfold s1Next Fips180.smallSigma1
  rw [← h17, ← h19]
  rfl

/-- A stalled cycle moves nothing. -/
theorem posedge_idle {i : ChunkProcessIn} (hr : i.rstN = true) (hv : i.pipelineStart = false)
    (p : ChunkProcess) : p.posedge i = p := by
  have hW : p.WNext i = p.W := by
    apply Vector.ext
    intro j hj
    simp only [WNext, hv, Vector.getElem_ofFn, Bool.false_eq_true, if_false]
    split
    next h => simp [h]
    next => rfl
  simp [posedge, hr, hW, s0Next_eq, s1Next_eq, hv]

theorem posedge_W {i : ChunkProcessIn} (hr : i.rstN = true) (hv : i.pipelineStart = true)
    (p : ChunkProcess) {j : ℕ} (hj : j < 15) : (p.posedge i).W[j] = p.W[j + 1] := by
  simp [posedge, hr, WNext, hv, show j ≠ 15 by omega]

theorem posedge_W_last {i : ChunkProcessIn} (hr : i.rstN = true) (hv : i.pipelineStart = true)
    (p : ChunkProcess) : (p.posedge i).W[15] = p.wOut i := by
  simp [posedge, hr, WNext, hv, wOut]

/-! ## The words shifted in -/

/-- `n` words of `w` have been shifted in, whatever stood there before. -/
structure Holds (p : ChunkProcess) (w : ℕ → Word) (n : ℕ) : Prop where
  W : ∀ (j : ℕ) (hj : j < 16), 16 ≤ n + j → p.W[j] = w (n + j - 16)
  s0 : 15 ≤ n → p.s0 = Fips180.smallSigma0 (w (n - 15))
  s1 : 2 ≤ n → p.s1 = Fips180.smallSigma1 (w (n - 2))

theorem holds_zero (p : ChunkProcess) (w : ℕ → Word) : p.Holds w 0 :=
  ⟨fun j hj h => by omega, fun h => by omega, fun h => by omega⟩

theorem Holds.posedge {p : ChunkProcess} {w : ℕ → Word} {n : ℕ} (h : p.Holds w n)
    {i : ChunkProcessIn} (hr : i.rstN = true) (hv : i.pipelineStart = true)
    (hw : p.wOut i = w n) : (p.posedge i).Holds w (n + 1) := by
  refine ⟨fun j hj hn => ?_, fun hn => ?_, fun hn => ?_⟩
  · rcases Nat.lt_succ_iff_lt_or_eq.1 hj with hj | rfl
    · rw [posedge_W hr hv p hj, h.W (j + 1) (by omega) (by omega)]
      congr 1
      omega
    · rw [posedge_W_last hr hv, hw]
      congr 1
  · have hs : (p.posedge i).s0 = p.s0Next i := by simp [ChunkProcess.posedge, hr]
    rw [hs, s0Next_eq, if_pos hv, h.W 2 (by omega) (by omega)]
    congr 2
  · have hs : (p.posedge i).s1 = p.s1Next i := by simp [ChunkProcess.posedge, hr]
    rw [hs, s1Next_eq, if_pos hv, h.W 15 (by omega) (by omega)]
    congr 2

/-- From the sixteenth word on the adders produce the recurrence of FIPS 180-4. -/
theorem Holds.wNew_eq {p : ChunkProcess} {w : ℕ → Word} {n : ℕ} (h : p.Holds w n) (hn : 16 ≤ n) :
    p.wNew = Fips180.smallSigma1 (w (n - 2)) + w (n - 7) + Fips180.smallSigma0 (w (n - 15)) +
      w (n - 16) := by
  have h16 := h.W 0 (by omega) (by omega)
  have h7 := h.W 9 (by omega) (by omega)
  rw [show n + 0 - 16 = n - 16 by omega] at h16
  rw [show n + 9 - 16 = n - 7 by omega] at h7
  rw [wNew, h16, h7, h.s0 (by omega), h.s1 (by omega)]
  ring

end ChunkProcess

end ZynqSha256
