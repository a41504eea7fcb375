import ZynqSha256.Proofs.Control

/-! Runs of module sha256 seen as a clock: when a block keeps it busy and when
`irq_finish` rises. Both depend on the cycles in which words are taken, never on
the words. -/

namespace ZynqSha256.Sha256

open Fips180 (Word)

/-- The registers at the start of cycle `n`, from reset. -/
def run (i : ℕ → Sha256In) : ℕ → Sha256 := Clocked.run posedge reset i

/-- The words taken before cycle `n`, since `rst_n` was last low. -/
def accepted (i : ℕ → Sha256In) : ℕ → List Word :=
  Clocked.logSince (fun n => (i n).rstN) (fun n => (run i n).accepts (i n)) (fun n => (i n).datLsbI)

/-- Cycle `n` takes the sixteenth word of a block. -/
def blockEnd (i : ℕ → Sha256In) (n : ℕ) : Bool :=
  (run i n).accepts (i n) && (accepted i n).length % 16 = 15

variable (i : ℕ → Sha256In)

theorem run_succ (n : ℕ) : run i (n + 1) = (run i n).posedge (i n) := rfl

theorem run_counterOk (n : ℕ) : (run i n).CounterOk :=
  Clocked.run_invariant reset_counterOk (fun _ _ h => posedge_counterOk h) i n

theorem accepts_run_iff (n : ℕ) (hr : (i n).rstN = true) :
    (run i n).accepts (i n) = true ↔ (i n).datVaildI = true ∧ (run i n).phase.age = 0 := by
  rw [accepts_iff (run_counterOk i n)]
  exact and_iff_right hr

/-- The words of the current block are what the words taken leave modulo sixteen. -/
theorem accepted_mod (n : ℕ) : (accepted i n).length % 16 = (run i n).phase.fill := by
  refine Clocked.logSince_invariant (s := run i) (J := fun s l => l.length % 16 = s.phase.fill)
    rfl (fun n hn => ?_) (fun n l hn hl => ?_) n
  · rw [run_succ, posedge_of_reset hn]
    rfl
  · have hok := run_counterOk i n
    have hacc := accepts_run_iff i n hn
    rw [run_succ, phase_posedge hn hok, Phase.fill_next hok.fill_lt, List.length_append, ← hl]
    by_cases h : (run i n).accepts (i n) = true
    · rw [if_pos h, if_pos (hacc.1 h), List.length_singleton]
      omega
    · rw [if_neg h, if_neg (fun hc => h (hacc.2 hc)), List.length_nil]
      omega

theorem blockEnd_iff (n : ℕ) (hr : (i n).rstN = true) :
    blockEnd i n = true ↔
      (i n).datVaildI = true ∧ (run i n).phase.age = 0 ∧ (run i n).phase.fill = 15 := by
  rw [blockEnd, accepted_mod, Bool.and_eq_true, accepts_run_iff i n hr, decide_eq_true_iff, and_assoc]

/-- The age of the phase is a timer of fifty cycles, started by a sixteenth word. -/
theorem run_timer :
    Clocked.Timer 50 (fun n => (i n).rstN) (blockEnd i) (fun n => (run i n).phase.age) where
  zero := rfl
  dead n hn := by rw [run_succ, posedge_of_reset hn]; rfl
  quiet n hn hs := ((blockEnd_iff i n hn).1 hs).2.1
  idle n hn h0 := by
    rw [run_succ, phase_posedge hn (run_counterOk i n), Phase.age_next, if_pos h0]
    by_cases hs : blockEnd i n = true
    · obtain ⟨hd, -, hf⟩ := (blockEnd_iff i n hn).1 hs
      rw [if_pos hs, if_pos ⟨hd, hf⟩]
    · rw [if_neg hs, if_neg (fun hc => hs ((blockEnd_iff i n hn).2 ⟨hc.1, h0, hc.2⟩))]
  tick n hn h0 := by
    have hle := (run_counterOk i n).age_le
    rw [run_succ, phase_posedge hn (run_counterOk i n), Phase.age_next, if_neg (by omega)]
    by_cases h50 : (run i n).phase.age = 50
    · rw [if_pos h50, if_neg (by omega)]
    · rw [if_neg h50, if_pos (by omega)]

/-- The core is busy in the fifty cycles after a sixteenth word, unless it is reset. -/
theorem busy_iff (n : ℕ) (hr : (i n).rstN = true) :
    (run i n).hashBusyO (i n) = true ↔
      ∃ t, t < n ∧ n ≤ t + 50 ∧ blockEnd i t = true ∧ ∀ j, t ≤ j → j < n → (i j).rstN = true := by
  rw [hashBusyO_iff hr (run_counterOk i n)]
  constructor
  · intro h
    obtain ⟨k, hk⟩ : ∃ k, (run i n).phase.age = k + 1 := ⟨_, (Nat.succ_pred_eq_of_pos h).symm⟩
    obtain ⟨hlt, t, ht, hs, hlive⟩ := ((run_timer i).eq_iff (by decide) n k).1 hk
    exact ⟨t, by omega, by omega, hs, hlive⟩
  · rintro ⟨t, h1, h2, hs, hlive⟩
    have h := ((run_timer i).eq_iff (by decide) n (n - t - 1)).2
      ⟨by omega, t, by omega, hs, hlive⟩
    rw [h]
    exact Nat.succ_pos _

/-- `irq_finish` rises fifty-one cycles after a sixteenth word, unless the core is reset. -/
theorem irqFinish_iff (n : ℕ) :
    (run i n).irqFinish = true ↔
      ∃ t, n = t + 51 ∧ blockEnd i t = true ∧ ∀ j, t ≤ j → j < n → (i j).rstN = true := by
  cases n with
  | zero =>
    constructor
    · intro h
      cases h
    · rintro ⟨t, ht, -⟩
      omega
  | succ n =>
    cases hr : (i n).rstN with
    | false =>
      rw [run_succ, posedge_of_reset hr]
      constructor
      · intro h
        cases h
      · rintro ⟨t, ht, -, hlive⟩
        rw [hlive n (by omega) (by omega)] at hr
        cases hr
    | true =>
      rw [run_succ, irqFinish_posedge hr (run_counterOk i n), decide_eq_true_iff,
        (run_timer i).eq_iff (by decide) n 49]
      constructor
      · rintro ⟨-, t, ht, hs, hlive⟩
        refine ⟨t, by omega, hs, fun j h1 h2 => ?_⟩
        rcases Nat.lt_succ_iff_lt_or_eq.1 h2 with h2 | rfl
        · exact hlive j h1 h2
        · exact hr
      · rintro ⟨t, ht, hs, hlive⟩
        exact ⟨by decide, t, by omega, hs, fun j h1 h2 => hlive j h1 (by omega)⟩

/-! ## With `rst_n` held high -/

/-- The inputs of a trace that leaves `rst_n` high. -/
def high (datVaildI : ℕ → Bool) (datLsbI : ℕ → Word) (n : ℕ) : Sha256In :=
  ⟨true, datVaildI n, datLsbI n⟩

variable (d : ℕ → Bool) (x : ℕ → Word)

theorem accepted_length_succ (n : ℕ) :
    (accepted (high d x) (n + 1)).length =
      (accepted (high d x) n).length +
        if d n = true ∧ (run (high d x) n).phase.age = 0 then 1 else 0 := by
  have hacc : (run (high d x) n).accepts (high d x n) = true ↔
      d n = true ∧ (run (high d x) n).phase.age = 0 := accepts_run_iff (high d x) n rfl
  have h : accepted (high d x) (n + 1) = accepted (high d x) n ++
      if (run (high d x) n).accepts (high d x n) = true then [x n] else [] := rfl
  rw [h, List.length_append]
  by_cases ha : (run (high d x) n).accepts (high d x n) = true
  · rw [if_pos ha, if_pos (hacc.1 ha), List.length_singleton]
  · rw [if_neg ha, if_neg (fun hc => ha (hacc.2 hc)), List.length_nil]

/-- Pulses of `irq_finish` count the completed blocks but the one still in the core. -/
theorem irq_count (n : ℕ) :
    Nat.count (fun m => (run (high d x) m).irqFinish = true) (n + 1) +
        (if 0 < (run (high d x) n).phase.age then 1 else 0) =
      (accepted (high d x) n).length / 16 := by
  induction n with
  | zero =>
    have hirq : (run (high d x) 0).irqFinish = false := rfl
    have hage : (run (high d x) 0).phase.age = 0 := rfl
    have hlen : accepted (high d x) 0 = [] := rfl
    simp [Nat.count_succ, hirq, hage, hlen]
  | succ n ih =>
    have hok := run_counterOk (high d x) n
    have hmod := accepted_mod (high d x) n
    have hlen := accepted_length_succ d x n
    have hage : (run (high d x) (n + 1)).phase.age = _ :=
      (congrArg Phase.age (phase_posedge (i := high d x n) rfl hok)).trans (Phase.age_next _ _)
    have hirq : (run (high d x) (n + 1)).irqFinish = true ↔ (run (high d x) n).phase.age = 50 := by
      rw [run_succ, irqFinish_posedge (i := high d x n) rfl hok, decide_eq_true_iff]
    rw [Nat.count_succ, hlen, hage]
    simp only [hirq, ← hmod]
    change _ = ((accepted (high d x) n).length + if d n = true ∧ _ then 1 else 0) / 16
    by_cases h0 : (run (high d x) n).phase.age = 0
    · -- the core takes words: only a sixteenth one changes either side
      simp only [h0] at ih ⊢
      by_cases hd : d n = true
      · by_cases h15 : (accepted (high d x) n).length % 16 = 15
        · simp [high, hd, h15] at ih ⊢
          omega
        · simp [high, hd, h15] at ih ⊢
          omega
      · simpa [high, hd] using ih
    · -- a block is in the core: it leaves with the pulse
      by_cases h50 : (run (high d x) n).phase.age = 50
      · simpa [h50] using ih
      · simpa [h0, h50, Nat.pos_of_ne_zero h0] using ih

theorem not_busy_of_blockEnd {i : ℕ → Sha256In} {n : ℕ} (h : blockEnd i n = true) :
    (run i n).hashBusyO (i n) = false := by
  simp only [blockEnd, accepts, Bool.and_eq_true, Bool.not_eq_true'] at h
  exact h.1.2

/-- The counter's ranges, and a timing that no input and no word can change: a block
keeps the core busy for the fifty cycles after its sixteenth word and raises
`irq_finish` in the fifty-first, and nothing else does either. -/
theorem control_invariant_and_timing :
    (∀ n, (run (high d x) n).CounterOk) ∧
    (∀ t, blockEnd (high d x) t = true →
      (∀ n, t + 1 ≤ n → n ≤ t + 50 → (run (high d x) n).hashBusyO (high d x n) = true) ∧
      (run (high d x) (t + 51)).hashBusyO (high d x (t + 51)) = false ∧
      (run (high d x) (t + 51)).irqFinish = true) ∧
    (∀ n, (run (high d x) n).hashBusyO (high d x n) = true →
      ∃ t, blockEnd (high d x) t = true ∧ t + 1 ≤ n ∧ n ≤ t + 50) ∧
    (∀ n, (run (high d x) n).irqFinish = true →
      ∃ t, blockEnd (high d x) t = true ∧ n = t + 51) ∧
    ∀ n, Nat.count (fun m => (run (high d x) m).irqFinish = true) (n + 1) +
        (if (run (high d x) n).hashBusyO (high d x n) = true then 1 else 0) =
      (accepted (high d x) n).length / 16 := by
  have hbusy (n : ℕ) := busy_iff (high d x) n rfl
  refine ⟨run_counterOk _, fun t ht => ⟨fun n h1 h2 => ?_, ?_, ?_⟩, fun n hn => ?_, fun n hn => ?_,
    fun n => ?_⟩
  · exact (hbusy n).2 ⟨t, h1, h2, ht, fun _ _ _ => rfl⟩
  · -- a later block end would have to fall into this block's busy cycles
    by_contra hb
    obtain ⟨t', h1, h2, ht', -⟩ := (hbusy (t + 51)).1 (by simpa using hb)
    have hbusy' := (hbusy t').2 ⟨t, by omega, by omega, ht, fun _ _ _ => rfl⟩
    rw [not_busy_of_blockEnd ht'] at hbusy'
    cases hbusy'
  · exact (irqFinish_iff (high d x) (t + 51)).2 ⟨t, rfl, ht, fun _ _ _ => rfl⟩
  · obtain ⟨t, h1, h2, ht, -⟩ := (hbusy n).1 hn
    exact ⟨t, ht, h1, h2⟩
  · obtain ⟨t, h1, ht, -⟩ := (irqFinish_iff (high d x) n).1 hn
    exact ⟨t, ht, h1⟩
  · rw [← irq_count d x n]
    simp only [hashBusyO_iff (i := high d x n) rfl (run_counterOk (high d x) n)]

end ZynqSha256.Sha256
