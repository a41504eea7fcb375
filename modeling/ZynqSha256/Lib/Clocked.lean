import Mathlib

/-! Synchronous machines driven by one input per clock cycle, with the history
variables the proofs keep beside them: logs of what chosen cycles carried, a
timer that runs for a fixed number of cycles, and a one-place buffer. -/

namespace Clocked

variable {σ ι α : Type*}

/-- The registers at the start of cycle `n`, when cycle `k` sees the input `i k`. -/
def run (step : ι → σ → σ) (s₀ : σ) (i : ℕ → ι) : ℕ → σ
  | 0 => s₀
  | n + 1 => step (i n) (run step s₀ i n)

/-- The values `v k` of the cycles `k < n` with `p k`, oldest first, counted
from the last cycle in which `live` was low. -/
def logSince (live p : ℕ → Bool) (v : ℕ → α) : ℕ → List α
  | 0 => []
  | n + 1 => if live n then logSince live p v n ++ (if p n then [v n] else []) else []

/-- The values `v k` of the cycles `k < n` with `p k`, oldest first. -/
def log (p : ℕ → Bool) (v : ℕ → α) : ℕ → List α := logSince (fun _ => true) p v

/-! ## Runs -/

/-- An invariant of every step is an invariant of every run. -/
theorem run_invariant {step : ι → σ → σ} {s₀ : σ} {J : σ → Prop} (h₀ : J s₀)
    (hstep : ∀ i s, J s → J (step i s)) (i : ℕ → ι) (n : ℕ) : J (run step s₀ i n) := by
  induction n with
  | zero => exact h₀
  | succ n ih => exact hstep _ _ ih

/-- Registers that step on the inputs `c`, whatever feeds them, are the machine's run on `c`. -/
theorem eq_run {step : ι → σ → σ} {s₀ : σ} {c : ℕ → ι} {s : ℕ → σ} (h₀ : s 0 = s₀)
    (hs : ∀ n, s (n + 1) = step (c n) (s n)) (n : ℕ) : s n = run step s₀ c n := by
  induction n with
  | zero => exact h₀
  | succ n ih => rw [hs, ih, run]

/-- The rule for an invariant that relates the registers to a log. -/
theorem logSince_invariant {s : ℕ → σ} {live p : ℕ → Bool} {v : ℕ → α} {J : σ → List α → Prop}
    (h₀ : J (s 0) []) (hdead : ∀ n, live n = false → J (s (n + 1)) [])
    (hstep : ∀ n l, live n = true → J (s n) l → J (s (n + 1)) (l ++ if p n then [v n] else []))
    (n : ℕ) : J (s n) (logSince live p v n) := by
  induction n with
  | zero => exact h₀
  | succ n ih =>
    cases hl : live n with
    | false => simpa [logSince, hl] using hdead n hl
    | true => simpa [logSince, hl] using hstep n _ hl ih

/-! ## Logs -/

@[simp] theorem log_zero (p : ℕ → Bool) (v : ℕ → α) : log p v 0 = [] := rfl

theorem log_succ (p : ℕ → Bool) (v : ℕ → α) (n : ℕ) :
    log p v (n + 1) = log p v n ++ if p n then [v n] else [] := by
  simp [log, logSince]

/-- A log only grows. -/
theorem log_prefix (p : ℕ → Bool) (v : ℕ → α) {m n : ℕ} (h : m ≤ n) : log p v m <+: log p v n := by
  induction n, h using Nat.le_induction with
  | base => exact List.prefix_refl _
  | succ n _ ih =>
    rw [log_succ]
    exact ih.trans (List.prefix_append _ _)

theorem log_length (p : ℕ → Bool) (v : ℕ → α) (n : ℕ) :
    (log p v n).length = Nat.count (fun k => p k = true) n := by
  induction n with
  | zero => rfl
  | succ n ih =>
    rw [log_succ, List.length_append, ih, Nat.count_succ]
    split <;> rfl

/-- Logs whose cycles are chosen alike where `live` is high are equal. -/
theorem logSince_congr {live p q : ℕ → Bool} {v u : ℕ → α} {n : ℕ}
    (h : ∀ k < n, live k = true → p k = q k ∧ (p k = true → v k = u k)) :
    logSince live p v n = logSince live q u n := by
  induction n with
  | zero => rfl
  | succ n ih =>
    rw [logSince, logSince, ih (fun k hk => h k (by omega))]
    cases hl : live n with
    | false => rfl
    | true =>
      obtain ⟨hp, hv⟩ := h n (by omega) hl
      rw [← hp]
      cases hpn : p n with
      | false => rfl
      | true => simp [hv hpn]

/-! ## Timers -/

/-- `x` counts the cycles since `start`, up to `d` of them; a low `live` clears it. -/
structure Timer (d : ℕ) (live start : ℕ → Bool) (x : ℕ → ℕ) : Prop where
  zero : x 0 = 0
  dead : ∀ n, live n = false → x (n + 1) = 0
  quiet : ∀ n, live n = true → start n = true → x n = 0
  idle : ∀ n, live n = true → x n = 0 → x (n + 1) = if start n then 1 else 0
  tick : ∀ n, live n = true → 0 < x n → x (n + 1) = if x n < d then x n + 1 else 0

/-- One cycle of a timer: it starts, or it ticks on. -/
theorem Timer.succ_eq_iff {d : ℕ} {live start : ℕ → Bool} {x : ℕ → ℕ} (h : Timer d live start x)
    (n k : ℕ) : x (n + 1) = k + 1 ↔
      live n = true ∧ (k = 0 ∧ start n = true ∨ 0 < k ∧ k < d ∧ x n = k) := by
  by_cases hl : live n = true
  · rw [and_iff_right hl]
    rcases Nat.eq_zero_or_pos (x n) with hxn | hxn
    · rw [h.idle n hl hxn, hxn]
      by_cases hs : start n = true
      · rw [if_pos hs, and_iff_left hs]
        omega
      · have hno : ¬(k = 0 ∧ start n = true) := fun hc => hs hc.2
        rw [if_neg hs, or_iff_right hno]
        omega
    · have hno : ¬(k = 0 ∧ start n = true) := by
        rintro ⟨-, hs⟩
        have hzero := h.quiet n hl hs
        omega
      rw [h.tick n hl hxn, or_iff_right hno]
      split
      next hlt => omega
      next hge => omega
  · rw [h.dead n (by simpa using hl)]
    exact iff_of_false (by omega) fun hc => hl hc.1

/-- A timer shows `k` exactly `k` cycles after a start that nothing cleared. -/
theorem Timer.eq_iff {d : ℕ} {live start : ℕ → Bool} {x : ℕ → ℕ} (h : Timer d live start x)
    (hd : 0 < d) (n k : ℕ) : x n = k + 1 ↔ k < d ∧ ∃ t, n = t + k + 1 ∧ start t = true ∧
      ∀ j, t ≤ j → j < n → live j = true := by
  induction n generalizing k with
  | zero => simp [h.zero]
  | succ n ih =>
    rw [h.succ_eq_iff]
    constructor
    · rintro ⟨hl, ⟨rfl, hs⟩ | ⟨hpos, hlt, hxn⟩⟩
      · exact ⟨hd, n, rfl, hs, fun j h1 h2 => by rwa [show j = n by omega]⟩
      · obtain ⟨k, rfl⟩ := Nat.exists_eq_add_one.2 hpos
        obtain ⟨-, t, ht, hs, hlive⟩ := (ih k).1 hxn
        refine ⟨hlt, t, by omega, hs, fun j h1 h2 => ?_⟩
        rcases Nat.lt_succ_iff_lt_or_eq.1 h2 with h2 | rfl
        · exact hlive j h1 h2
        · exact hl
    · rintro ⟨hk, t, ht, hs, hlive⟩
      refine ⟨hlive n (by omega) (by omega), ?_⟩
      rcases k with _ | k
      · obtain rfl : t = n := by omega
        exact Or.inl ⟨rfl, hs⟩
      · have hxn := (ih k).2 ⟨by omega, t, by omega, hs, fun j h1 h2 => hlive j h1 (by omega)⟩
        exact Or.inr ⟨Nat.succ_pos k, hk, hxn⟩

/-! ## One-place buffers -/

/-- A buffer filled by `put` only when empty and emptied by `take`; `out` holds what was put. -/
structure Slot (put take full : ℕ → Bool) (v out : ℕ → α) : Prop where
  empty : full 0 = false
  free : ∀ n, put n = true → full n = false
  next : ∀ n, full (n + 1) = (put n || (full n && !take n))
  load : ∀ n, put n = true → out (n + 1) = v n
  keep : ∀ n, full n = true → out (n + 1) = out n

/-- What was put is what was taken, followed by what is held. -/
theorem Slot.log_eq {put take full : ℕ → Bool} {v out : ℕ → α} (h : Slot put take full v out)
    (n : ℕ) : log put v n =
      log (fun k => full k && take k) out n ++ if full n then [out n] else [] := by
  induction n with
  | zero => simp [h.empty]
  | succ n ih =>
    rw [log_succ, log_succ, ih, h.next]
    cases hf : full n with
    | true =>
      have hp : put n = false := by
        by_contra hp
        simp [h.free n (by simpa using hp)] at hf
      cases take n <;> simp [hp, h.keep n hf]
    | false =>
      cases hp : put n <;> simp [h.load n, hp]

theorem Slot.count_eq {put take full : ℕ → Bool} {v out : ℕ → α} (h : Slot put take full v out)
    (n : ℕ) : Nat.count (fun k => put k = true) n =
      Nat.count (fun k => (full k && take k) = true) n + if full n then 1 else 0 := by
  have hlen := congrArg List.length (h.log_eq n)
  rw [List.length_append, log_length, log_length] at hlen
  rw [hlen]
  split <;> rfl

/-! ## Counting since an event -/

/-- How many of the cycles `t ≤ k < n` have `p k`. -/
def countFrom (p : ℕ → Bool) (t n : ℕ) : ℕ :=
  Nat.count (fun k => p k = true) n - Nat.count (fun k => p k = true) t

@[simp] theorem countFrom_self (p : ℕ → Bool) (t : ℕ) : countFrom p t t = 0 := Nat.sub_self _

theorem countFrom_succ (p : ℕ → Bool) {t n : ℕ} (h : t ≤ n) :
    countFrom p t (n + 1) = countFrom p t n + if p n then 1 else 0 := by
  have hle : Nat.count (fun k => p k = true) t ≤ Nat.count (fun k => p k = true) n :=
    Nat.count_monotone _ h
  rw [countFrom, countFrom, Nat.count_succ]
  omega

/-- `n` is a cycle after `t`, and no cycle between the two has `p`. -/
def QuietSince (p : ℕ → Bool) (t n : ℕ) : Prop := t < n ∧ ∀ m, t < m → m < n → p m = false

theorem QuietSince.next (p : ℕ → Bool) (t : ℕ) : QuietSince p t (t + 1) :=
  ⟨Nat.lt_succ_self t, fun _ h1 h2 => absurd h1 (by omega)⟩

theorem quietSince_succ {p : ℕ → Bool} {t n : ℕ} (h : t < n) :
    QuietSince p t (n + 1) ↔ QuietSince p t n ∧ p n = false := by
  constructor
  · rintro ⟨-, hq⟩
    exact ⟨⟨h, fun m h1 h2 => hq m h1 (by omega)⟩, hq n h (Nat.lt_succ_self n)⟩
  · rintro ⟨⟨-, hq⟩, hn⟩
    refine ⟨by omega, fun m h1 h2 => ?_⟩
    rcases Nat.lt_succ_iff_lt_or_eq.1 h2 with h2 | rfl
    · exact hq m h1 h2
    · exact hn

/-- Induction over the cycles after `t` in which `p` has stayed low. -/
theorem QuietSince.induct {p : ℕ → Bool} {t : ℕ} {J : ℕ → Prop} (h₀ : J (t + 1))
    (hstep : ∀ n, QuietSince p t n → p n = false → J n → J (n + 1)) {n : ℕ}
    (hn : QuietSince p t n) : J n := by
  obtain ⟨hlt, -⟩ := id hn
  induction n, hlt using Nat.le_induction with
  | base => exact h₀
  | succ n hle ih =>
    obtain ⟨hq, hp⟩ := (quietSince_succ hle).1 hn
    exact hstep n hq hp (ih hq)

/-- The last cycle before `n` with `p`. -/
theorem exists_quietSince {p : ℕ → Bool} {n : ℕ} (h : ∃ t < n, p t = true) :
    ∃ t, p t = true ∧ QuietSince p t n := by
  induction n with
  | zero =>
    obtain ⟨t, ht, -⟩ := h
    omega
  | succ n ih =>
    by_cases hn : p n = true
    · exact ⟨n, hn, QuietSince.next p n⟩
    · obtain ⟨t, ht, hpt⟩ := h
      have hlt : t < n := by
        rcases Nat.lt_succ_iff_lt_or_eq.1 ht with ht | rfl
        · exact ht
        · exact absurd hpt hn
      obtain ⟨u, hu, hq⟩ := ih ⟨t, hlt, hpt⟩
      exact ⟨u, hu, (quietSince_succ hq.1).2 ⟨hq, by simpa using hn⟩⟩

/-- A signal that only `p` raises was raised by it. -/
theorem exists_rise {u p : ℕ → Bool} (h₀ : u 0 = false)
    (hstep : ∀ n, u (n + 1) = true → u n = true ∨ p n = true) {n : ℕ} (h : u n = true) :
    ∃ t < n, p t = true := by
  induction n with
  | zero =>
    rw [h₀] at h
    cases h
  | succ n ih =>
    rcases hstep n h with hup | hp
    · obtain ⟨t, ht, hp⟩ := ih hup
      exact ⟨t, ht.trans (Nat.lt_succ_self n), hp⟩
    · exact ⟨n, Nat.lt_succ_self n, hp⟩

/-! ## Senders that wait for ready -/

/-- A sender keeps `valid` and its payload until `ready`. -/
def Stable (valid ready : ℕ → Bool) (v : ℕ → α) : Prop :=
  ∀ n, valid n = true → ready n = false → valid (n + 1) = true ∧ v (n + 1) = v n

/-- A sender that has nothing to send from cycle `N` on need be watched for `N` cycles. -/
theorem Stable.of_script {valid ready : ℕ → Bool} {v : ℕ → α} (N : ℕ)
    (h : ∀ n < N, valid n = true → ready n = false → valid (n + 1) = true ∧ v (n + 1) = v n)
    (hidle : ∀ n, N ≤ n → valid n = false) : Stable valid ready v := by
  intro n hv hr
  rcases Nat.lt_or_ge n N with hn | hn
  · exact h n hn hv hr
  · rw [hidle n hn] at hv
    cases hv

/-- A sender that sends one thing, taken in its second cycle. -/
theorem Stable.of_two {valid ready : ℕ → Bool} {v : ℕ → α} (hvalid : valid 1 = true)
    (hv : v 1 = v 0) (hready : ready 1 = true) (hidle : ∀ n, 2 ≤ n → valid n = false) :
    Stable valid ready v := by
  refine Stable.of_script 2 (fun n hn _ hr => ?_) hidle
  obtain rfl | rfl : n = 0 ∨ n = 1 := by omega
  · exact ⟨hvalid, hv⟩
  · rw [hready] at hr
    cases hr

end Clocked
