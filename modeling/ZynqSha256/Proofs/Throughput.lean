import ZynqSha256.Proofs.Stream

/-! The pace of the stream port. Sixteen cycles of a block take its words and fifty keep TREADY
low; only a master that has nothing to offer to a ready core holds this clock of sixty-six
cycles back. -/

namespace ZynqSha256

/-- The words that the first `m` cycles of the clock take. -/
def wordsIn (m : ℕ) : ℕ := 16 * (m / 66) + min 16 (m % 66)

@[simp] theorem wordsIn_zero : wordsIn 0 = 0 := by decide

theorem wordsIn_succ (m : ℕ) : wordsIn (m + 1) = wordsIn m + if m % 66 < 16 then 1 else 0 := by
  unfold wordsIn
  by_cases hm : m % 66 < 16
  · rw [if_pos hm]
    omega
  · rw [if_neg hm]
    omega

theorem wordsIn_mono : Monotone wordsIn := by
  refine monotone_nat_of_le_succ fun m => ?_
  rw [wordsIn_succ]
  exact Nat.le_add_right _ _

namespace Sha256

/-! ## The phase as a clock -/

/-- The place of a phase among the sixty-six. -/
def Phase.pos : Phase → ℕ
  | .filling k => k
  | .busy j => 16 + j

theorem Phase.pos_next {p : Phase} (hf : p.fill < 16) (ha : p.age ≤ 50) (d : Bool) :
    (p.next d).pos = if d = true ∨ 0 < p.age then (p.pos + 1) % 66 else p.pos := by
  cases p with
  | filling k =>
    simp only [fill] at hf
    cases d with
    | false => rfl
    | true =>
      by_cases hk : k = 15
      · simp [next, pos, hk]
      · simp [next, pos, hk]
        omega
  | busy j =>
    simp only [age] at ha
    by_cases hj : j = 49
    · simp [next, pos, age, hj]
    · simp [next, pos, age, hj]
      omega

theorem Phase.pos_lt_iff {p : Phase} (hf : p.fill < 16) : p.pos < 16 ↔ p.age = 0 := by
  cases p with
  | filling k => exact iff_of_true hf rfl
  | busy j => exact iff_of_false (Nat.not_lt.2 (Nat.le_add_right 16 j)) (Nat.succ_ne_zero j)

variable (i : ℕ → Sha256In)

/-- Cycle `n` moves the clock: a word is there, or the core is busy. -/
def works (n : ℕ) : Bool := (i n).datVaildI || (run i n).hashBusyO (i n)

/-- How many of the cycles before `n` moved the clock, since `rst_n` was last low. -/
def worked (n : ℕ) : ℕ := (Clocked.logSince (fun n => (i n).rstN) (works i) id n).length

variable {i} {n : ℕ}

theorem worked_of_reset (hr : (i n).rstN = false) : worked i (n + 1) = 0 := by
  simp [worked, Clocked.logSince, hr]

theorem worked_succ (hr : (i n).rstN = true) :
    worked i (n + 1) = worked i n + if works i n then 1 else 0 := by
  rw [worked, Clocked.logSince, if_pos hr, List.length_append, ← worked]
  by_cases hw : works i n = true
  · rw [if_pos hw, if_pos hw, List.length_singleton]
  · rw [if_neg hw, if_neg hw, List.length_nil]

theorem works_iff (hr : (i n).rstN = true) :
    works i n = true ↔ (i n).datVaildI = true ∨ 0 < (run i n).phase.age := by
  rw [works, Bool.or_eq_true, hashBusyO_iff hr (run_counterOk i n)]

theorem length_accepted_succ (hr : (i n).rstN = true) :
    (accepted i (n + 1)).length = (accepted i n).length +
      if (i n).datVaildI = true ∧ (run i n).phase.age = 0 then 1 else 0 := by
  have hacc := accepts_run_iff i n hr
  rw [accepted, Clocked.logSince, if_pos hr, List.length_append, ← accepted]
  by_cases ha : (run i n).accepts (i n) = true
  · rw [if_pos ha, if_pos (hacc.1 ha), List.length_singleton]
  · rw [if_neg ha, if_neg (mt hacc.2 ha), List.length_nil]

theorem worked_mod (n : ℕ) : worked i n % 66 = (run i n).phase.pos := by
  induction n with
  | zero => rfl
  | succ n ih =>
    cases hr : (i n).rstN with
    | false =>
      rw [worked_of_reset hr, run_succ, posedge_of_reset hr]
      rfl
    | true =>
      have hok := run_counterOk i n
      rw [worked_succ hr, run_succ, phase_posedge hr hok, Phase.pos_next hok.fill_lt hok.age_le, ← ih]
      by_cases hw : works i n = true
      · rw [if_pos hw, if_pos ((works_iff hr).1 hw)]
        omega
      · rw [if_neg hw, if_neg (mt (works_iff hr).2 hw)]
        omega

theorem takes_iff (n : ℕ) : worked i n % 66 < 16 ↔ (run i n).phase.age = 0 := by
  rw [worked_mod, Phase.pos_lt_iff (run_counterOk i n).fill_lt]

theorem length_accepted (n : ℕ) : (accepted i n).length = wordsIn (worked i n) := by
  induction n with
  | zero => exact wordsIn_zero.symm
  | succ n ih =>
    cases hr : (i n).rstN with
    | false =>
      rw [worked_of_reset hr, accepted, Clocked.logSince, if_neg (by simp [hr]), wordsIn_zero,
        List.length_nil]
    | true =>
      rw [length_accepted_succ hr, worked_succ hr, ih]
      by_cases h0 : (run i n).phase.age = 0
      · -- the core is ready: the clock and the words move together
        by_cases hd : (i n).datVaildI = true
        · rw [if_pos ⟨hd, h0⟩, if_pos ((works_iff hr).2 (Or.inl hd)), wordsIn_succ,
            if_pos ((takes_iff n).2 h0)]
        · have hw : ¬works i n = true := fun hw => by
            rcases (works_iff hr).1 hw with hd' | hpos
            · exact hd hd'
            · omega
          rw [if_neg (fun h => hd h.1), if_neg hw, Nat.add_zero, Nat.add_zero]
      · rw [if_neg (fun h => h0 h.2), if_pos ((works_iff hr).2 (Or.inr (Nat.pos_of_ne_zero h0))),
          wordsIn_succ, if_neg (mt (takes_iff n).1 h0)]

end Sha256

/-! ## The stream port -/

namespace Sha256Stream

variable (i : ℕ → StreamIn)

/-- The cycles before `n` but those in which the master leaves a ready core waiting, since
`sha256_rst_n` was last low. -/
def paced (n : ℕ) : ℕ :=
  (Clocked.logSince (fun n => (run i n).sha256RstN (i n))
    (fun n => (i n).tvalid || !(run i n).tready (i n)) id n).length

/-- All cycles before `n` since then. -/
def elapsed (n : ℕ) : ℕ :=
  (Clocked.logSince (fun n => (run i n).sha256RstN (i n)) (fun _ => true) id n).length

theorem paced_eq_worked (n : ℕ) : paced i n = Sha256.worked (wires i) n := by
  refine congrArg List.length (Clocked.logSince_congr fun k _ hr => ⟨?_, fun _ => rfl⟩)
  rw [tready, S00Axis.tready, Bool.not_not, busy_eq i hr]
  rfl

theorem tready_iff {n : ℕ} (hr : (run i n).sha256RstN (i n) = true) :
    (run i n).tready (i n) = true ↔ paced i n % 66 < 16 := by
  have hbusy := Sha256.hashBusyO_iff (i := wires i n) hr (Sha256.run_counterOk (wires i) n)
  rw [tready, S00Axis.tready, busy_eq i hr, Bool.not_eq_true', ← Bool.not_eq_true, hbusy,
    paced_eq_worked, Sha256.takes_iff, Nat.not_lt, Nat.le_zero]

theorem paced_succ {n : ℕ} (hr : (run i n).sha256RstN (i n) = true)
    (hb : ¬(run i n).tready (i n) = true) : paced i (n + 1) = paced i n + 1 := by
  rw [paced, Clocked.logSince, if_pos hr, List.length_append, ← paced, if_pos (by simp [hb]),
    List.length_singleton]

/-- TREADY is low only in a core that runs. -/
theorem live_of_not_tready {n : ℕ} (hb : ¬(run i n).tready (i n) = true) :
    (run i n).sha256RstN (i n) = true := by
  by_contra hr
  exact hb (tready_of_reset i (by simpa using hr))

/-- While TREADY stays low, nothing resets the core and the clock moves in every cycle. -/
theorem paced_add {n k : ℕ} (h : ∀ j < k, ¬(run i (n + j)).tready (i (n + j)) = true) :
    paced i (n + k) = paced i n + k := by
  induction k with
  | zero => rfl
  | succ k ih =>
    have hb := h k (Nat.lt_succ_self k)
    have hr := live_of_not_tready i hb
    have hk := ih fun j hj => h j (hj.trans (Nat.lt_succ_self k))
    rw [← Nat.add_assoc, paced_succ i hr hb, hk, Nat.add_assoc]

theorem tready_within (n : ℕ) : ∃ k ≤ 50, (run i (n + k)).tready (i (n + k)) = true := by
  by_contra hno
  have hlow : ∀ j < 51, ¬(run i (n + j)).tready (i (n + j)) = true := fun j hj hready =>
    hno ⟨j, Nat.lt_succ_iff.1 hj, hready⟩
  have hmod : ∀ j < 51, 16 ≤ (paced i n + j) % 66 := by
    intro j hj
    by_contra hlt
    have hb := hlow j hj
    refine hb ((tready_iff i (live_of_not_tready i hb)).2 ?_)
    rw [paced_add i fun m hm => hlow m (hm.trans hj)]
    omega
  -- the clock passes a multiple of sixty-six on the way
  have h0 := hmod 0 (by decide)
  have hend := hmod (66 - paced i n % 66) (by omega)
  omega

theorem length_logSince_le {live p q : ℕ → Bool} (h : ∀ n, p n = true → q n = true) (n : ℕ) :
    (Clocked.logSince live p id n).length ≤ (Clocked.logSince live q id n).length := by
  induction n with
  | zero => exact le_rfl
  | succ n ih =>
    cases hl : live n with
    | false => simp [Clocked.logSince, hl]
    | true =>
      by_cases hp : p n = true
      · simpa [Clocked.logSince, hl, hp, h n hp] using ih
      · simp only [Clocked.logSince, hl, if_true, if_neg hp, List.append_nil, List.length_append]
        exact ih.trans (Nat.le_add_right _ _)

theorem paced_le_elapsed (n : ℕ) : paced i n ≤ elapsed i n :=
  length_logSince_le (fun _ _ => rfl) n

theorem paced_eq_elapsed {n : ℕ} (h : ∀ m < n, (i m).tvalid = true) : paced i n = elapsed i n := by
  refine congrArg List.length (Clocked.logSince_congr fun k hk _ => ⟨?_, fun _ => rfl⟩)
  rw [h k hk, Bool.true_or]

/-- For any traffic on the two ports, resets included: the words taken and TREADY are functions
of the number of cycles in which the master did not keep a ready core waiting, sixteen words to
sixty-six cycles; so no master gets more words in than one that always offers, which gets in
as many as the clock takes; and TREADY is never low for more than fifty cycles. -/
theorem stream_paced (n : ℕ) :
    (beats i n).length = wordsIn (paced i n) ∧
      ((run i n).sha256RstN (i n) = true →
        ((run i n).tready (i n) = true ↔ paced i n % 66 < 16)) ∧
      (beats i n).length ≤ wordsIn (elapsed i n) ∧
      ((∀ m < n, (i m).tvalid = true) → (beats i n).length = wordsIn (elapsed i n)) ∧
      ∃ k ≤ 50, (run i (n + k)).tready (i (n + k)) = true := by
  have hlen : (beats i n).length = wordsIn (paced i n) := by
    rw [beats_eq_accepted, Sha256.length_accepted, paced_eq_worked]
  refine ⟨hlen, tready_iff i, ?_, fun h => ?_, tready_within i n⟩
  · exact hlen.trans_le (wordsIn_mono (paced_le_elapsed i n))
  · rw [hlen, paced_eq_elapsed i h]

end Sha256Stream

end ZynqSha256
