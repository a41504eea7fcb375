import ZynqSha256.Rtl.Sha256
import ZynqSha256.Lib.Clocked

/-! The control of module sha256, without its data: the ranges the counter
keeps in each state, and the phase machine the state and the counter implement,
in which a block takes fifty busy cycles whatever the inputs do. -/

namespace ZynqSha256.Sha256

open Fips180 (Word)

/-- The counter's range in each state; the tests for 16 and 64 cannot be stepped over. -/
def CounterOk (s : Sha256) : Prop :=
  match s.state with
  | .idle => s.counter = 0
  | .load => 1 ≤ s.counter.toNat ∧ s.counter.toNat ≤ 16
  | .proc => 17 ≤ s.counter.toNat ∧ s.counter.toNat ≤ 64
  | .finish => s.counter.toNat = 64 ∨ s.counter.toNat = 65

/-- What a block goes through: `k` words taken, then `j` busy cycles over. -/
inductive Phase where
  | filling (k : ℕ)
  | busy (j : ℕ)
deriving DecidableEq

namespace Phase

def next (datVaildI : Bool) : Phase → Phase
  | .filling k => if datVaildI then (if k = 15 then .busy 0 else .filling (k + 1)) else .filling k
  | .busy j => if j = 49 then .filling 0 else .busy (j + 1)

/-- Words of the current block taken so far. -/
def fill : Phase → ℕ
  | .filling k => k
  | .busy _ => 0

/-- The number of the current busy cycle, zero while the core takes words. -/
def age : Phase → ℕ
  | .filling _ => 0
  | .busy j => j + 1

theorem fill_next {p : Phase} (h : p.fill < 16) (d : Bool) :
    (p.next d).fill = if d = true ∧ p.age = 0 then (p.fill + 1) % 16 else p.fill := by
  cases p with
  | filling k =>
    cases d with
    | false => rfl
    | true =>
      by_cases hk : k = 15
      · simp [next, age, fill, hk]
      · have hlt : k + 1 < 16 := by
          simp only [fill] at h
          omega
        simp [next, age, fill, hk, Nat.mod_eq_of_lt hlt]
  | busy j => by_cases hj : j = 49 <;> simp [next, age, fill, hj]

theorem age_next (p : Phase) (d : Bool) :
    (p.next d).age =
      if p.age = 0 then (if d = true ∧ p.fill = 15 then 1 else 0)
      else if p.age = 50 then 0 else p.age + 1 := by
  cases p with
  | filling k =>
    cases d with
    | false => rfl
    | true => by_cases hk : k = 15 <;> simp [next, age, fill, hk]
  | busy j => by_cases hj : j = 49 <;> simp [next, age, hj]

end Phase

/-- The phase a state and a counter stand for. -/
def phase (s : Sha256) : Phase :=
  match s.state with
  | .idle => .filling 0
  | .load => if s.counter.toNat = 16 then .busy 0 else .filling s.counter.toNat
  | .proc => .busy (s.counter.toNat - 16)
  | .finish => .busy 49

/-- The core takes the word on its input in this cycle. -/
def accepts (i : Sha256In) (s : Sha256) : Bool := i.rstN && i.datVaildI && !s.hashBusyO i

/-! ## One cycle -/

@[simp] theorem wOutVaild_eq (i : Sha256In) (s : Sha256) :
    s.wOutVaild i = (i.datVaildI || s.nextStateIsProc i) := rfl

theorem reset_counterOk : reset.CounterOk := rfl

/-- `hash_busy_o` looks at the reset and at the registers, not at the word on the input. -/
theorem hashBusyO_congr {i j : Sha256In} (h : i.rstN = j.rstN) (s : Sha256) :
    s.hashBusyO i = s.hashBusyO j := by
  have hproc : s.nextStateIsProc i = s.nextStateIsProc j := by
    unfold nextStateIsProc stateNext
    rw [h]
    cases j.rstN with
    | false => rfl
    | true => cases s.state <;> cases i.datVaildI <;> cases j.datVaildI <;> rfl
  rw [hashBusyO, hashBusyO, hproc]

theorem toNat_succ {c : BitVec 8} (h : c.toNat < 255) : (c + 1).toNat = c.toNat + 1 := by
  rw [BitVec.toNat_add]
  change (c.toNat + 1) % 256 = c.toNat + 1
  omega

theorem posedge_of_reset {i : Sha256In} (hr : i.rstN = false) (s : Sha256) :
    s.posedge i = reset := by
  simp [posedge, hr]

variable {i : Sha256In} {s : Sha256}

@[simp] theorem posedge_state (hr : i.rstN = true) : (s.posedge i).state = s.stateNext i := by
  simp [posedge, hr]

@[simp] theorem posedge_counter (hr : i.rstN = true) : (s.posedge i).counter = s.counterNxt i := by
  simp [posedge, hr]

theorem posedge_chunkProcess (hr : i.rstN = true) :
    (s.posedge i).chunkProcess = s.chunkProcess.posedge (s.chunkProcessIn i) := by
  simp [posedge, hr]

theorem posedge_chunkCompress (hr : i.rstN = true) :
    (s.posedge i).chunkCompress = s.chunkCompress.posedge (s.chunkCompressIn i) := by
  simp [posedge, hr]

theorem posedge_irqFinish (hr : i.rstN = true) :
    (s.posedge i).irqFinish = decide (s.state = .finish) := by
  simp [posedge, hr]

/-- Everything a clock edge can do to the state and the counter. -/
theorem control_cases (hr : i.rstN = true) (h : s.CounterOk) :
    (s.state = .idle ∧ i.datVaildI = false ∧ s.stateNext i = .idle ∧ s.counterNxt i = 0) ∨
    (s.state = .idle ∧ i.datVaildI = true ∧ s.stateNext i = .load ∧ s.counterNxt i = 1) ∨
    (s.state = .load ∧ s.counter.toNat < 16 ∧ i.datVaildI = false ∧ s.stateNext i = .load ∧
      s.counterNxt i = s.counter) ∨
    (s.state = .load ∧ s.counter.toNat < 16 ∧ i.datVaildI = true ∧ s.stateNext i = .load ∧
      s.counterNxt i = s.counter + 1) ∨
    (s.state = .load ∧ s.counter.toNat = 16 ∧ s.stateNext i = .proc ∧
      s.counterNxt i = s.counter + 1) ∨
    (s.state = .proc ∧ s.counter.toNat < 64 ∧ s.stateNext i = .proc ∧
      s.counterNxt i = s.counter + 1) ∨
    (s.state = .proc ∧ s.counter.toNat = 64 ∧ s.stateNext i = .finish ∧
      (s.counterNxt i = s.counter ∨ s.counterNxt i = s.counter + 1)) ∨
    (s.state = .finish ∧ s.stateNext i = .idle ∧ s.counterNxt i = 0) := by
  have h16 : s.counter = 16#8 ↔ s.counter.toNat = 16 := by
    rw [← BitVec.toNat_inj]; rfl
  have h64 : s.counter = 64#8 ↔ s.counter.toNat = 64 := by
    rw [← BitVec.toNat_inj]; rfl
  unfold CounterOk at h
  cases hs : s.state with
  | idle =>
    rw [hs] at h
    cases hd : i.datVaildI <;>
      simp_all [stateNext, counterNxt, nextStateIsIdle, nextStateIsProc]
  | load =>
    rw [hs] at h
    by_cases hc : s.counter.toNat = 16
    · simp [stateNext, counterNxt, nextStateIsIdle, nextStateIsProc, hs, hr, h16, hc]
    · have hlt : s.counter.toNat < 16 := by omega
      cases hd : i.datVaildI <;>
        simp [stateNext, counterNxt, nextStateIsIdle, nextStateIsProc, hs, hr, h16, hc,
          hd, hlt]
  | proc =>
    rw [hs] at h
    by_cases hc : s.counter.toNat = 64
    · cases hd : i.datVaildI <;>
        simp [stateNext, counterNxt, nextStateIsIdle, nextStateIsProc, hs, hr, h64, hc,
          hd]
    · have hlt : s.counter.toNat < 64 := by omega
      simp [stateNext, counterNxt, nextStateIsIdle, nextStateIsProc, hs, hr, h64, hc,
        hlt]
  | finish => simp [stateNext, counterNxt, nextStateIsIdle, hs, hr]

theorem posedge_counterOk (h : s.CounterOk) : (s.posedge i).CounterOk := by
  cases hr : i.rstN with
  | false => rw [posedge_of_reset hr]; exact reset_counterOk
  | true =>
    have hst := posedge_state (s := s) hr
    have hct := posedge_counter (s := s) hr
    unfold CounterOk at h ⊢
    rcases control_cases hr h with ⟨-, -, h1, h2⟩ | ⟨-, -, h1, h2⟩ | ⟨h0, hc, -, h1, h2⟩ |
      ⟨h0, hc, -, h1, h2⟩ | ⟨h0, hc, h1, h2⟩ | ⟨h0, hc, h1, h2⟩ | ⟨h0, hc, h1, h2⟩ | ⟨-, h1, h2⟩
    all_goals rw [h1] at hst; rw [hst, hct]
    · exact h2
    · rw [h2]; decide
    · rw [h0] at h; rw [h2]; exact h
    · rw [h2, toNat_succ (by omega)]
      constructor <;> omega
    · rw [h2, toNat_succ (by omega)]
      constructor <;> omega
    · rw [h0] at h; rw [h2, toNat_succ (by omega)]
      dsimp only at h
      constructor <;> omega
    · rcases h2 with h2 | h2
      · exact Or.inl (by rw [h2, hc])
      · exact Or.inr (by rw [h2, toNat_succ (by omega), hc])
    · exact h2

/-! ## The phase of a state -/

theorem phase_of_idle (hs : s.state = .idle) : s.phase = .filling 0 := by simp [phase, hs]

theorem phase_of_load (hs : s.state = .load) (hc : s.counter.toNat < 16) :
    s.phase = .filling s.counter.toNat := by
  simp [phase, hs, show s.counter.toNat ≠ 16 by omega]

theorem phase_of_full (hs : s.state = .load) (hc : s.counter.toNat = 16) : s.phase = .busy 0 := by
  simp [phase, hs, hc]

theorem phase_of_proc (hs : s.state = .proc) : s.phase = .busy (s.counter.toNat - 16) := by
  simp [phase, hs]

theorem phase_of_finish (hs : s.state = .finish) : s.phase = .busy 49 := by simp [phase, hs]

theorem CounterOk.of_load (h : s.CounterOk) (hs : s.state = .load) :
    1 ≤ s.counter.toNat ∧ s.counter.toNat ≤ 16 := by
  simpa [CounterOk, hs] using h

theorem CounterOk.of_proc (h : s.CounterOk) (hs : s.state = .proc) :
    17 ≤ s.counter.toNat ∧ s.counter.toNat ≤ 64 := by
  simpa [CounterOk, hs] using h

/-- The state and the counter step as the phase machine does. -/
theorem phase_posedge (hr : i.rstN = true) (h : s.CounterOk) :
    (s.posedge i).phase = s.phase.next i.datVaildI := by
  have hst := posedge_state (s := s) hr
  have hct := posedge_counter (s := s) hr
  rcases control_cases hr h with ⟨h0, hd, h1, h2⟩ | ⟨h0, hd, h1, h2⟩ | ⟨h0, hc, hd, h1, h2⟩ |
    ⟨h0, hc, hd, h1, h2⟩ | ⟨h0, hc, h1, h2⟩ | ⟨h0, hc, h1, h2⟩ | ⟨h0, hc, h1, -⟩ | ⟨h0, h1, -⟩
  · rw [phase_of_idle (hst.trans h1), phase_of_idle h0, hd]
    rfl
  · rw [phase_of_load (hst.trans h1) (by rw [hct, h2]; decide), phase_of_idle h0, hct, h2, hd]
    rfl
  · rw [phase_of_load (hst.trans h1) (by rw [hct, h2]; exact hc), phase_of_load h0 hc, hct, h2, hd]
    rfl
  · have hsucc := toNat_succ (c := s.counter) (by omega)
    rw [phase_of_load h0 hc, hd]
    by_cases h15 : s.counter.toNat = 15
    · rw [phase_of_full (hst.trans h1) (by rw [hct, h2, hsucc, h15]), h15]
      rfl
    · rw [phase_of_load (hst.trans h1) (by rw [hct, h2, hsucc]; omega), hct, h2, hsucc]
      simp [Phase.next, h15]
  · rw [phase_of_proc (hst.trans h1), phase_of_full h0 hc, hct, h2, toNat_succ (by omega), hc]
    rfl
  · have hproc := h.of_proc h0
    rw [phase_of_proc (hst.trans h1), phase_of_proc h0, hct, h2, toNat_succ (by omega)]
    simp only [Phase.next]
    rw [if_neg (by omega), show s.counter.toNat + 1 - 16 = s.counter.toNat - 16 + 1 by omega]
  · rw [phase_of_finish (hst.trans h1), phase_of_proc h0, hc]
    rfl
  · rw [phase_of_idle (hst.trans h1), phase_of_finish h0]
    rfl

theorem CounterOk.fill_lt (h : s.CounterOk) : s.phase.fill < 16 := by
  cases hs : s.state with
  | idle => rw [phase_of_idle hs]; decide
  | load =>
    rcases Nat.lt_or_eq_of_le (h.of_load hs).2 with hlt | heq
    · rw [phase_of_load hs hlt]
      exact hlt
    · rw [phase_of_full hs heq]
      decide
  | proc => rw [phase_of_proc hs]; exact Nat.zero_lt_succ 15
  | finish => rw [phase_of_finish hs]; decide

theorem CounterOk.age_le (h : s.CounterOk) : s.phase.age ≤ 50 := by
  cases hs : s.state with
  | idle => rw [phase_of_idle hs]; decide
  | load =>
    unfold phase
    rw [hs]
    dsimp only
    split <;> simp [Phase.age]
  | proc =>
    have hc := h.of_proc hs
    rw [phase_of_proc hs]
    simp only [Phase.age]
    omega
  | finish => rw [phase_of_finish hs]; decide

/-- `hash_busy_o` is the phase's busy flag; the word on the input does not enter it. -/
theorem hashBusyO_iff (hr : i.rstN = true) (h : s.CounterOk) :
    s.hashBusyO i = true ↔ 0 < s.phase.age := by
  unfold hashBusyO nextStateIsProc stateIsProc stateIsFinish
  rcases control_cases hr h with ⟨h0, -, h1, -⟩ | ⟨h0, -, h1, -⟩ | ⟨h0, hc, -, h1, -⟩ |
    ⟨h0, hc, -, h1, -⟩ | ⟨h0, hc, h1, -⟩ | ⟨h0, hc, h1, -⟩ | ⟨h0, hc, h1, -⟩ | ⟨h0, h1, -⟩
  · simp [h0, h1, phase_of_idle h0, Phase.age]
  · simp [h0, h1, phase_of_idle h0, Phase.age]
  · simp [h0, h1, phase_of_load h0 hc, Phase.age]
  · simp [h0, h1, phase_of_load h0 hc, Phase.age]
  · simp [h0, h1, phase_of_full h0 hc, Phase.age]
  · simp [h0, h1, phase_of_proc h0, Phase.age]
  · simp [h0, h1, hc, phase_of_proc h0, Phase.age]
  · simp [h0, h1, phase_of_finish h0, Phase.age]

theorem accepts_iff (h : s.CounterOk) :
    s.accepts i = true ↔ i.rstN = true ∧ i.datVaildI = true ∧ s.phase.age = 0 := by
  cases hr : i.rstN with
  | false => simp [accepts, hr]
  | true =>
    have hb := hashBusyO_iff hr h
    cases hbusy : s.hashBusyO i
    · have hage : s.phase.age = 0 := by
        rw [hbusy] at hb
        simpa using hb
      simp [accepts, hr, hbusy, hage]
    · have hage : s.phase.age ≠ 0 := (hb.1 hbusy).ne'
      simp [accepts, hr, hbusy, hage]

/-- `irq_finish` registers the last busy cycle. -/
theorem irqFinish_posedge (hr : i.rstN = true) (h : s.CounterOk) :
    (s.posedge i).irqFinish = decide (s.phase.age = 50) := by
  rw [posedge_irqFinish hr]
  rcases control_cases hr h with ⟨h0, -⟩ | ⟨h0, -⟩ | ⟨h0, hc, -⟩ | ⟨h0, hc, -⟩ | ⟨h0, hc, -⟩ |
    ⟨h0, hc, -⟩ | ⟨h0, hc, -⟩ | ⟨h0, -⟩
  · simp [h0, phase_of_idle h0, Phase.age]
  · simp [h0, phase_of_idle h0, Phase.age]
  · simp [h0, phase_of_load h0 hc, Phase.age]
  · simp [h0, phase_of_load h0 hc, Phase.age]
  · simp [h0, phase_of_full h0 hc, Phase.age]
  · have hne : s.counter.toNat - 16 ≠ 49 := by omega
    simp [h0, phase_of_proc h0, Phase.age, hne]
  · simp [h0, phase_of_proc h0, Phase.age, hc]
  · simp [h0, phase_of_finish h0, Phase.age]

end ZynqSha256.Sha256
