import ZynqSha256.Lib.Clocked
import ZynqSha256.Rtl.ChunkProcess
import ZynqSha256.Rtl.ChunkCompress

/-! The two pipelines on their own, started from any contents of their registers
and stalled at will. A cycle counts where the pipeline's valid signal is high;
what its outputs say depends only on how many such cycles came before. -/

namespace ZynqSha256

open Fips180 (Word Hash)

/-! ## The message schedule -/

namespace ChunkProcess

/-- The valid cycles before cycle `n`. -/
def validBefore (i : ℕ → ChunkProcessIn) (n : ℕ) : ℕ :=
  Nat.count (fun k => (i k).pipelineStart = true) n

/-- The input of the valid cycle with `j` valid cycles before it: a word of the block
`m` while there are any left, then `process_start`. -/
def Feeds (m : List Word) (j : ℕ) (i : ChunkProcessIn) : Prop :=
  if j < m.length then i.datVaildI = true ∧ i.processStart = false ∧ i.datMsbI = m.getD j 0
  else i.processStart = true

/-- Through the first `N` cycles the block `m` is fed, with idle cycles anywhere. -/
structure FedBlock (m : List Word) (i : ℕ → ChunkProcessIn) (N : ℕ) : Prop where
  rstN : ∀ n < N, (i n).rstN = true
  feeds : ∀ n < N, (i n).pipelineStart = true → Feeds m (validBefore i n) (i n)

variable {m : List Word} {i : ℕ → ChunkProcessIn} {N n : ℕ} {p : ChunkProcess}

theorem validBefore_succ (i : ℕ → ChunkProcessIn) (n : ℕ) :
    validBefore i (n + 1) = validBefore i n + if (i n).pipelineStart = true then 1 else 0 :=
  Nat.count_succ _ n

/-- A valid cycle shows the next word of the schedule. -/
theorem Holds.wOut_eq {i : ChunkProcessIn} {j : ℕ} (hm : m.length = 16)
    (h : p.Holds (Fips180.w m) j) (hf : Feeds m j i) : p.wOut i = Fips180.w m j := by
  unfold Feeds at hf
  split at hf
  next hj =>
    obtain ⟨-, hp, hx⟩ := hf
    rw [wOut, wIn, hp, hx, Fips180.w_of_lt m (by omega)]
    rfl
  next hj => rw [wOut, wIn, if_pos hf, h.wNew_eq (by omega), ← Fips180.w_rec m (by omega)]

/-- The registers hold the words of the valid cycles so far. -/
theorem FedBlock.holds (hm : m.length = 16) (h : FedBlock m i N) (hn : n ≤ N) :
    (Clocked.run posedge p i n).Holds (Fips180.w m) (validBefore i n) := by
  induction n with
  | zero => exact holds_zero p _
  | succ n ih =>
    have hold := ih (by omega)
    have hr := h.rstN n (by omega)
    rw [Clocked.run, validBefore_succ]
    by_cases hv : (i n).pipelineStart = true
    · rw [if_pos hv]
      exact hold.posedge hr hv (hold.wOut_eq hm (h.feeds n (by omega) hv))
    · rw [if_neg hv, posedge_idle hr (by simpa using hv)]
      exact hold

/-- Whatever stood in the registers and wherever the pipeline stalls, `w_out` in the
valid cycles is the sixteen words and then the recurrence. -/
theorem schedule_of_fedBlock (m : List Word) (hm : m.length = 16) (i : ℕ → ChunkProcessIn) (N : ℕ)
    (h : FedBlock m i N) (p : ChunkProcess) (n : ℕ) (hn : n < N)
    (hv : (i n).pipelineStart = true) :
    let W := Fips180.w m
    let j := validBefore i n
    let out := (Clocked.run posedge p i n).wOut (i n)
    (j < 16 → out = m.getD j 0) ∧
    (16 ≤ j → out = Fips180.smallSigma1 (W (j - 2)) + W (j - 7) +
      Fips180.smallSigma0 (W (j - 15)) + W (j - 16)) := by
  intro W j out
  have hout : out = W j := (h.holds hm (by omega)).wOut_eq hm (h.feeds n hn hv)
  constructor
  · intro hj
    exact hout.trans (Fips180.w_of_lt m hj)
  · intro hj
    exact hout.trans (Fips180.w_rec m hj)

/-- The block "abc" with one idle cycle after its third word. -/
def stalledAbc (n : ℕ) : ChunkProcessIn :=
  let m : List Word := [0x61626380, 0, 0, 0, 0, 0, 0, 0, 0, 0, 0, 0, 0, 0, 0, 0x18]
  if n = 3 then ⟨true, false, false, 0⟩
  else if n < 17 then ⟨true, false, true, m.getD (if n < 3 then n else n - 1) 0⟩
  else ⟨true, true, false, 0⟩

theorem schedule_of_fedBlock_abc :
    (Clocked.run posedge ⟨Vector.replicate 16 7, 8, 9⟩ stalledAbc 17).wOut (stalledAbc 17) =
      0x61626380 := by
  have hfed : FedBlock [0x61626380, 0, 0, 0, 0, 0, 0, 0, 0, 0, 0, 0, 0, 0, 0, 0x18] stalledAbc 18 := by
    constructor
    · decide
    · unfold Feeds
      decide
  have h := schedule_of_fedBlock _ rfl stalledAbc 18 hfed ⟨Vector.replicate 16 7, 8, 9⟩ 17
    (by decide) rfl
  rw [h.2 (by decide)]
  decide +kernel

end ChunkProcess

/-! ## The rounds -/

namespace ChunkCompress

/-- The pairs taken before cycle `n`. -/
def pairsBefore (i : ℕ → ChunkCompressIn) (n : ℕ) : ℕ :=
  Nat.count (fun k => (i k).inVaild = true) n

/-- Through the first `N` cycles the pairs of `w` and `k` are fed, with idle cycles
anywhere; `compress_start` is low up to the cycle of the first pair and high after it. -/
structure FedPairs (w k : ℕ → Word) (i : ℕ → ChunkCompressIn) (N : ℕ) : Prop where
  rstN : ∀ n < N, (i n).rstN = true
  updateHash : ∀ n < N, (i n).updateHash = false
  compressStart : ∀ n < N, (i n).compressStart = decide (0 < pairsBefore i n)
  pair : ∀ n < N, (i n).inVaild = true →
    (i n).wIn = w (pairsBefore i n) ∧ (i n).kIn = k (pairsBefore i n)

variable {w k : ℕ → Word} {i : ℕ → ChunkCompressIn} {N n : ℕ} {p : ChunkCompress}

theorem pairsBefore_succ (i : ℕ → ChunkCompressIn) (n : ℕ) :
    pairsBefore i (n + 1) = pairsBefore i n + if (i n).inVaild = true then 1 else 0 :=
  Nat.count_succ _ n

theorem H8_posedge_of_low {i : ChunkCompressIn} (hr : i.rstN = true) (hu : i.updateHash = false)
    (p : ChunkCompress) : (p.posedge i).H8 = p.H8 := by
  rw [posedge_H8 hr, h8Next, hu]
  rfl

theorem FedPairs.H8 (h : FedPairs w k i N) (hn : n ≤ N) :
    (Clocked.run posedge p i n).H8 = p.H8 := by
  induction n with
  | zero => rfl
  | succ n ih =>
    rw [Clocked.run, H8_posedge_of_low (h.rstN n (by omega)) (h.updateHash n (by omega))]
    exact ih (by omega)

/-- With the multiplexer set as the next cycle finds it, the working variables are the
rounds of the pairs so far. -/
theorem FedPairs.vars (h : FedPairs w k i N) (hn : n ≤ N) :
    (Clocked.run posedge p i n).abcdefghNext (decide (0 < pairsBefore i n)) =
      Fips180.rounds k w p.H8 (pairsBefore i n) := by
  induction n with
  | zero => exact abcdefghNext_false p
  | succ n ih =>
    have hvars := ih (by omega)
    have hr := h.rstN n (by omega)
    have hc := h.compressStart n (by omega)
    rw [Clocked.run, pairsBefore_succ]
    by_cases hv : (i n).inVaild = true
    · -- the pair adds a round; from here on `compress_start` is high
      obtain ⟨hw, hk⟩ := h.pair n (by omega) hv
      rw [if_pos hv, decide_eq_true (Nat.succ_pos _), abcdefghNext_posedge hr hv, hc, hvars, hw, hk]
      rfl
    · have hv' : (i n).inVaild = false := by simpa using hv
      rw [if_neg hv, Nat.add_zero, ← hvars]
      by_cases hpos : 0 < pairsBefore i n
      · rw [decide_eq_true hpos, abcdefghNext_posedge_idle hr hv']
      · -- before the first pair the multiplexer shows the hash words
        rw [decide_eq_false hpos, abcdefghNext_false, abcdefghNext_false,
          H8_posedge_of_low hr (h.updateHash n (by omega))]

/-- Whatever stood in `stage` and `abcdefgh` and wherever the pipeline stalls, the
cycles after the `n`-th pair show the hash words after `n` rounds; an update adds
just these, and nothing else moves the hash words. -/
theorem rounds_of_fedPairs (w k : ℕ → Word) (i : ℕ → ChunkCompressIn) (N : ℕ)
    (h : FedPairs w k i N) (hpos : 0 < pairsBefore i N) (hr : (i N).rstN = true)
    (hc : (i N).compressStart = true) (p : ChunkCompress) :
    let s := Clocked.run posedge p i
    let v := Fips180.rounds k w p.H8 (pairsBefore i N)
    (s N).abcdefghNext (i N).compressStart = v ∧
    ((i N).updateHash = true → (s (N + 1)).H8 = Vector.zipWith (· + ·) p.H8 v) ∧
    ∀ n, (i n).rstN = true → (i n).updateHash = false → (s (n + 1)).H8 = (s n).H8 := by
  intro s v
  have hvars : (s N).abcdefghNext (i N).compressStart = v := by
    rw [hc, ← decide_eq_true hpos]
    exact h.vars le_rfl
  have hold : (s N).H8 = p.H8 := h.H8 le_rfl
  refine ⟨hvars, fun hu => ?_, fun n hrn hu => H8_posedge_of_low hrn hu (s n)⟩
  have hnext : (s (N + 1)).H8 = (s N).h8Next (i N) := posedge_H8 hr (s N)
  rw [hnext, h8Next, if_pos hu, hvars, hold]

/-- Two pairs with an idle cycle before, between and after them, then an update. -/
def twoPairs (n : ℕ) : ChunkCompressIn where
  rstN := true
  compressStart := decide (2 ≤ n)
  updateHash := n = 5
  inVaild := n = 1 || n = 3
  wIn := if n = 1 then 0x61626380 else 0
  kIn := if n = 1 then Fips180.k 0 else Fips180.k 1

theorem rounds_of_fedPairs_two :
    (Clocked.run posedge ⟨Fips180.iv, Vector.replicate 8 5, Vector.replicate 3 6⟩ twoPairs 6).H8 =
      Vector.zipWith (· + ·) Fips180.iv
        (Fips180.rounds Fips180.k (fun n => if n = 0 then 0x61626380 else 0) Fips180.iv 2) := by
  have hfed : FedPairs (fun n => if n = 0 then 0x61626380 else 0) Fips180.k twoPairs 5 := by
    constructor <;> decide
  have h := rounds_of_fedPairs _ _ twoPairs 5 hfed (by decide) rfl rfl
    ⟨Fips180.iv, Vector.replicate 8 5, Vector.replicate 3 6⟩
  exact h.2.1 rfl

end ChunkCompress

end ZynqSha256
