import ZynqSha256.Driver.Zynq
import ZynqSha256.Rtl.Sha256

/-! `sha256_write` of the Zynq driver against what its descriptors carry to the core.
`copied` follows the descriptors one wait behind them, so the value returned falls short
of what the core receives exactly when a signal ends a wait. It exceeds it when a descriptor of an
earlier call is still issued, whose callback ends the first wait and terminates the channel. -/

namespace ZynqSha256.ZynqDriver

open Fips180 (Byte Word chain)

variable {buf : List Byte} {pass : ℕ → Pass} {k : ℕ} {c c' : Call} {sent : List Byte}

/-! ## The loop -/

/-- How the loop goes on from its `k`-th pass. -/
inductive LoopRuns (buf : List Byte) (pass : ℕ → Pass) : ℕ → Call → Call → List Byte → Prop
  | done (k : ℕ) (c : Call) : c.count ≤ c.copied → LoopRuns buf pass k c c []
  | failed (k : ℕ) (c : Call) : c.copied < c.count → (pass k).ok = false → (pass k).cut = false →
      LoopRuns buf pass k c c []
  | cut (k : ℕ) (c : Call) : c.copied < c.count → (pass k).cut = true →
      LoopRuns buf pass k c c (txBuf buf c)
  | next (k : ℕ) (c c' : Call) (sent : List Byte) : c.copied < c.count → (pass k).ok = true →
      LoopRuns buf pass (k + 1) c.next c' sent →
      LoopRuns buf pass k c c' (txBuf buf c ++ sent)

theorem chunkLoop_runs (buf : List Byte) (pass : ℕ → Pass) (k : ℕ) (c : Call) :
    LoopRuns buf pass k c (chunkLoop buf pass .idle k c).1 (chunkLoop buf pass .idle k c).2 := by
  generalize hchan : ChanState.idle = chan
  induction chan, k, c using chunkLoop.induct buf pass with
  | case1 chan k c hlt hcopy =>
    rw [chunkLoop, if_pos hlt, if_pos hcopy]
    exact .failed k c hlt (by simp [Pass.ok, hcopy]) (by simp [Pass.cut, hcopy])
  | case2 chan k c hlt hcopy hdesc =>
    rw [chunkLoop, if_pos hlt, if_neg hcopy, if_pos hdesc]
    exact .failed k c hlt (by simp [Pass.ok, hdesc]) (by simp [Pass.cut, hdesc])
  | case3 chan k c hlt hcopy hdesc hwait =>
    rw [chunkLoop, if_pos hlt, if_neg hcopy, if_neg hdesc, if_pos hwait, ← hchan]
    exact .cut k c hlt (by simp [Pass.cut, hcopy, hdesc, hwait])
  | case4 chan k c hlt hcopy hdesc hwait ih =>
    rw [chunkLoop, if_pos hlt, if_neg hcopy, if_neg hdesc, if_neg hwait, ← hchan]
    exact .next k c _ _ hlt (by simp [Pass.ok, hcopy, hdesc, hwait]) (ih rfl)
  | case5 chan k c hlt =>
    rw [chunkLoop, if_neg hlt]
    exact .done k c (not_lt.1 hlt)

/-- A signal ends the first wait that anything ends early. -/
def CutFrom (pass : ℕ → Pass) (k : ℕ) (c : Call) : Prop :=
  ∃ j, c.copied + j * DMA_BUF_SIZE < c.count ∧ (∀ m < j, (pass (k + m)).ok = true) ∧
    (pass (k + j)).cut = true

theorem cutFrom_of_cut (h : c.copied < c.count) (hcut : (pass k).cut = true) : CutFrom pass k c :=
  ⟨0, by omega, fun m hm => absurd hm (by omega), hcut⟩

theorem Pass.not_ok_of_cut {p : Pass} (h : p.cut = true) : p.ok = false := by
  rcases p with ⟨_ | _, _ | _, _ | _⟩
  all_goals first | rfl | cases h

theorem LoopRuns.le (h : LoopRuns buf pass k c c' sent) (hc : c.copied ≤ c.count) :
    c.copied ≤ c'.copied ∧ c'.copied ≤ c.count := by
  induction h with
  | done k c h => exact ⟨le_refl _, hc⟩
  | failed k c h => exact ⟨le_refl _, hc⟩
  | cut k c h => exact ⟨le_refl _, hc⟩
  | next k c c' sent h hok _ ih =>
    obtain ⟨h1, h2⟩ := ih (Call.next_le h)
    exact ⟨(Nat.le_add_right _ _).trans h1, h2⟩

/-- All passes but the last move a whole buffer. -/
theorem next_copied (h : c.copied < c.count) (j : ℕ) :
    c.next.copied + j * DMA_BUF_SIZE < c.count ↔ c.copied + (j + 1) * DMA_BUF_SIZE < c.count := by
  have hsize : c.shouldCopy = min DMA_BUF_SIZE (c.count - c.copied) := rfl
  change c.copied + c.shouldCopy + j * DMA_BUF_SIZE < c.count ↔ _
  rw [hsize, Nat.succ_mul]
  rcases Nat.le_total DMA_BUF_SIZE (c.count - c.copied) with hle | hle
  · rw [min_eq_left hle]
    omega
  · rw [min_eq_right hle]
    omega

theorem cutFrom_next (h : c.copied < c.count) (hok : (pass k).ok = true) :
    CutFrom pass (k + 1) c.next ↔ CutFrom pass k c := by
  constructor
  · rintro ⟨j, hj, hall, hcut⟩
    refine ⟨j + 1, (next_copied h j).1 hj, fun m hm => ?_, ?_⟩
    · rcases m with _ | m
      · exact hok
      · have hm' := hall m (by omega)
        rwa [Nat.add_right_comm] at hm'
    · rwa [Nat.add_right_comm] at hcut
  · rintro ⟨j, hj, hall, hcut⟩
    rcases j with _ | j
    · rw [Nat.add_zero] at hcut
      rw [Pass.not_ok_of_cut hcut] at hok
      cases hok
    · refine ⟨j, (next_copied h j).2 hj, fun m hm => ?_, ?_⟩
      · rw [Nat.add_right_comm]
        exact hall (m + 1) (by omega)
      · rwa [Nat.add_right_comm]

/-- Without such a signal the bytes sent are those that `copied` counts. -/
theorem LoopRuns.sent_eq (h : LoopRuns buf pass k c c' sent) (hcut : ¬CutFrom pass k c) :
    buf.take c.copied ++ sent = buf.take c'.copied := by
  induction h with
  | done k c h => rw [List.append_nil]
  | failed k c h => rw [List.append_nil]
  | cut k c h hc => exact absurd (cutFrom_of_cut h hc) hcut
  | next k c c' sent h hok _ ih =>
    rw [← ih (fun hn => hcut ((cutFrom_next h hok).1 hn)), ← List.append_assoc, txBuf,
      ← List.take_add]
    rfl

theorem LoopRuns.copied_eq (h : LoopRuns buf pass k c c' sent) (hc : c.copied ≤ c.count)
    (hok : ∀ j, c.copied + j * DMA_BUF_SIZE < c.count → (pass (k + j)).ok = true) :
    c'.copied = c.count := by
  induction h with
  | done k c h => exact le_antisymm hc h
  | failed k c h hno =>
    have hok' := hok 0 (by omega)
    rw [Nat.add_zero, hno] at hok'
    cases hok'
  | cut k c h hcut =>
    have hok' := hok 0 (by omega)
    rw [Nat.add_zero, Pass.not_ok_of_cut hcut] at hok'
    cases hok'
  | next k c c' sent h hok' _ ih =>
    refine ih (Call.next_le h) fun j hj => ?_
    rw [Nat.add_right_comm]
    exact hok (j + 1) ((next_copied h j).1 hj)

/-! ## The call -/

/-- What the core makes of the bytes sent since its reset. -/
def digest (sent : List Byte) : Fips180.Hash := chain ((axisWords sent).map datMsbI)

theorem sha256Write_runs (buf : List Byte) (pass : ℕ → Pass) (writen : BitVec 32) :
    ∃ c, LoopRuns buf pass 0 (.start buf.length) c (sha256Write buf pass .idle writen).sent ∧
      (sha256Write buf pass .idle writen).ret = c.copied :=
  ⟨_, chunkLoop_runs buf pass 0 _, rfl⟩

theorem sha256Write_ok (buf : List Byte) (writen : BitVec 32)
    (hok : ∀ k, k * DMA_BUF_SIZE < buf.length / 4 * 4 → (pass k).ok = true) :
    (sha256Write buf pass .idle writen).ret = (buf.length / 4 * 4 : ℕ) ∧
      (sha256Write buf pass .idle writen).sent = buf.take (buf.length / 4 * 4) := by
  obtain ⟨c, hrun, hret⟩ := sha256Write_runs buf pass writen
  have hok' : ∀ j, (Call.start buf.length).copied + j * DMA_BUF_SIZE < (Call.start buf.length).count →
      (pass (0 + j)).ok = true := by
    intro j hj
    rw [Nat.zero_add]
    exact hok j (by simpa [Call.start] using hj)
  have hcopied : c.copied = buf.length / 4 * 4 := hrun.copied_eq (Nat.zero_le _) hok'
  refine ⟨by rw [hret, hcopied], ?_⟩
  rw [← hcopied]
  refine hrun.sent_eq ?_
  rintro ⟨j, hj, -, hcut⟩
  have hno := hok' j hj
  rw [Pass.not_ok_of_cut hcut] at hno
  cases hno

end ZynqSha256.ZynqDriver
