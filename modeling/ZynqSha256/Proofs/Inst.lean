import ZynqSha256.Proofs.Core

/-! What a bus wrapper needs to know of its `sha256_inst`: the registers run as
module sha256 does on the wires the wrapper drives, and the words of the block
being filled can be read off the schedule. -/

namespace ZynqSha256.Sha256

open Fips180 (Word chain)

/-- The words of the block being filled: the last `counter` words of the schedule. -/
def loaded (s : Sha256) : List Word :=
  match s.state with
  | .load => s.chunkProcess.W.toList.drop (16 - s.counter.toNat)
  | _ => []

theorem loaded_of_ne_load {s : Sha256} (h : s.state ≠ .load) : s.loaded = [] := by
  unfold loaded
  split
  next hs => exact absurd hs h
  next => rfl

theorem loaded_of_load {s : Sha256} (h : s.state = .load) :
    s.loaded = s.chunkProcess.W.toList.drop (16 - s.counter.toNat) := by
  simp [loaded, h]

/-- A valid cycle shifts the schedule by the word it reads. -/
theorem posedge_W {i : Sha256In} {s : Sha256} (hr : i.rstN = true) (hv : s.wOutVaild i = true) :
    (s.posedge i).chunkProcess.W.toList = s.chunkProcess.W.toList.drop 1 ++ [s.wOut i] := by
  rw [posedge_chunkProcess hr]
  apply List.ext_getElem
  · simp
  · intro j h1 h2
    have hj : j < 16 := by simpa using h1
    rcases Nat.lt_or_ge j 15 with hlt | hge
    · rw [List.getElem_append_left (by simpa using hlt), List.getElem_drop]
      simpa [Nat.add_comm] using ChunkProcess.posedge_W hr hv s.chunkProcess hlt
    · obtain rfl : j = 15 := by omega
      rw [List.getElem_append_right (by simp)]
      have hlast : (s.chunkProcess.posedge (s.chunkProcessIn i)).W[15] = s.wOut i :=
        ChunkProcess.posedge_W_last hr hv s.chunkProcess
      simpa using hlast

/-- A word taken is loaded, once and last; no other cycle loads anything. -/
theorem loaded_posedge {i : Sha256In} {s : Sha256} (hr : i.rstN = true) (h : s.CounterOk) :
    (s.posedge i).loaded =
      if s.accepts i then s.loaded ++ [datMsbI i.datLsbI]
      else if s.hashBusyO i then [] else s.loaded := by
  have hst := posedge_state (s := s) hr
  have hct := posedge_counter (s := s) hr
  have hacc := accepts_iff (i := i) h
  have hbusy := hashBusyO_iff hr h
  -- a busy cycle leaves or avoids LOAD
  have hidle (hage : 0 < s.phase.age) (hne : s.stateNext i ≠ .load) : (s.posedge i).loaded =
      if s.accepts i then s.loaded ++ [datMsbI i.datLsbI]
      else if s.hashBusyO i then [] else s.loaded := by
    rw [if_neg (by simp [hacc, hage.ne']), if_pos (hbusy.2 hage),
      loaded_of_ne_load (by rwa [hst])]
  rcases control_cases hr h with ⟨h0, hd, h1, -⟩ | ⟨h0, hd, h1, h2⟩ | ⟨h0, hc, hd, h1, h2⟩ |
    ⟨h0, hc, hd, h1, h2⟩ | ⟨h0, hc, h1, -⟩ | ⟨h0, hc, h1, -⟩ | ⟨h0, hc, h1, -⟩ | ⟨h0, h1, -⟩
  · rw [if_neg (by simp [hacc, hd]), loaded_of_ne_load (by simp [hst, h1]),
      loaded_of_ne_load (by simp [h0]), ite_self]
  · have hw := posedge_W (s := s) (i := i) hr (by simp [hd])
    have hin : s.wOut i = datMsbI i.datLsbI := wOut_load (by simp [nextStateIsProc, h1])
    rw [if_pos (hacc.2 ⟨hr, hd, by rw [phase_of_idle h0]; rfl⟩), loaded_of_ne_load (s := s) (by simp [h0]),
      loaded_of_load (hst.trans h1), hct, h2, hw, hin]
    simp
  · have hW : (s.posedge i).chunkProcess = s.chunkProcess := by
      rw [posedge_chunkProcess hr]
      exact ChunkProcess.posedge_idle hr
        (by simp [ChunkProcessIn.pipelineStart, chunkProcessIn, hd, nextStateIsProc, h1]) _
    rw [if_neg (by simp [hacc, hd]), if_neg (by simp [hbusy, phase_of_load h0 hc, Phase.age]),
      loaded_of_load (hst.trans h1), loaded_of_load h0, hct, h2, hW]
  · have hw := posedge_W (s := s) (i := i) hr (by simp [hd])
    have hin : s.wOut i = datMsbI i.datLsbI := wOut_load (by simp [nextStateIsProc, h1])
    rw [if_pos (hacc.2 ⟨hr, hd, by rw [phase_of_load h0 hc]; rfl⟩), loaded_of_load (hst.trans h1),
      loaded_of_load h0, hct, h2, toNat_succ (by omega), hw, hin,
      List.drop_append_of_le_length (by simp), List.drop_drop,
      show 1 + (16 - (s.counter.toNat + 1)) = 16 - s.counter.toNat by omega]
  · exact hidle (by simp [phase_of_full h0 hc, Phase.age]) (by simp [h1])
  · exact hidle (by simp [phase_of_proc h0, Phase.age]) (by simp [h1])
  · exact hidle (by simp [phase_of_proc h0, Phase.age]) (by simp [h1])
  · exact hidle (by simp [phase_of_finish h0, Phase.age]) (by simp [h1])

/-! ## The instance in a wrapper -/

@[simp] theorem settle_true (s : Sha256) : s.settle true = s := rfl

/-- The asynchronous reset changes nothing that the clock edge would not. -/
@[simp] theorem settle_posedge (i : Sha256In) (s : Sha256) :
    (s.settle i.rstN).posedge i = s.posedge i := by
  cases hr : i.rstN with
  | false => rw [posedge_of_reset hr, posedge_of_reset hr]
  | true => rfl

theorem loaded_succ (c : ℕ → Sha256In) (n : ℕ) (hr : (c n).rstN = true) :
    (run c (n + 1)).loaded =
      if (run c n).accepts (c n) then (run c n).loaded ++ [datMsbI (c n).datLsbI]
      else if (run c n).hashBusyO (c n) then [] else (run c n).loaded :=
  loaded_posedge hr (run_counterOk c n)

theorem loaded_succ_of_reset (c : ℕ → Sha256In) (n : ℕ) (hr : (c n).rstN = false) :
    (run c (n + 1)).loaded = [] := by
  rw [run_succ, posedge_of_reset hr]
  rfl

/-- Outside the busy cycles the ports show the chaining value of the words taken. -/
theorem hash_of_accepted (c : ℕ → Sha256In) (n : ℕ) (hr : (c n).rstN = true)
    (hb : (run c n).hashBusyO (c n) = false) :
    (run c n).hash = (chain ((accepted c n).map datMsbI)).map lsbToMsb := by
  rw [hash, ChunkCompress.hash, (run_repr c n).hash_of_not_busy hr (run_counterOk c n) hb]

end ZynqSha256.Sha256
