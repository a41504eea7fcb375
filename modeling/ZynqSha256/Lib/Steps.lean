import Mathlib

/-! Machines that take one of several steps at a time, in any order, and the runs in
which every step meets a condition on the state it starts from. -/

namespace Steps

variable {σ ε : Type*} {step : ε → σ → Option σ} {C D : ε → σ → Prop} {s₀ s s' : σ}
  {es es' : List ε}

/-- `es` leads from `s₀` to the state, and each event meets `C` where it happens. -/
inductive Run (step : ε → σ → Option σ) (C : ε → σ → Prop) (s₀ : σ) : List ε → σ → Prop
  | nil : Run step C s₀ [] s₀
  | snoc {es : List ε} {s s' : σ} {e : ε} :
      Run step C s₀ es s → C e s → step e s = some s' → Run step C s₀ (es ++ [e]) s'

/-- No condition. -/
def Any (_ : ε) (_ : σ) : Prop := True

instance (e : ε) (s : σ) : Decidable (Any e s) := isTrue trivial

/-- The events in order, as long as each of them is enabled and meets `C`. -/
def exec (step : ε → σ → Option σ) (C : ε → σ → Prop) [∀ e s, Decidable (C e s)] :
    List ε → σ → Option σ
  | [], s => some s
  | e :: es, s => if C e s then (step e s).bind (exec step C es) else none

/-- An invariant of every step that meets the condition is an invariant of every run. -/
theorem Run.invariant {J : σ → Prop} (h : Run step C s₀ es s) (h₀ : J s₀)
    (hstep : ∀ e s s', C e s → step e s = some s' → J s → J s') : J s := by
  induction h with
  | nil => exact h₀
  | snoc _ hC hs ih => exact hstep _ _ _ hC hs ih

theorem Run.mono (h : Run step C s₀ es s) (hCD : ∀ e s, C e s → D e s) : Run step D s₀ es s := by
  induction h with
  | nil => exact Run.nil
  | snoc _ hC hs ih => exact ih.snoc (hCD _ _ hC) hs

/-- It is enough to look at the events that happen. -/
theorem Run.mono_mem (h : Run step C s₀ es s) (hCD : ∀ e ∈ es, ∀ s, C e s → D e s) :
    Run step D s₀ es s := by
  induction h with
  | nil => exact Run.nil
  | snoc _ hC hs ih =>
    exact (ih fun e he => hCD e (List.mem_append_left _ he)).snoc
      (hCD _ (List.mem_append_right _ (List.mem_singleton_self _)) _ hC) hs

theorem Run.trans (h : Run step C s₀ es s) (h' : Run step C s es' s') :
    Run step C s₀ (es ++ es') s' := by
  induction h' with
  | nil => rwa [List.append_nil]
  | snoc _ hC hs ih =>
    rw [← List.append_assoc]
    exact ih.snoc hC hs

theorem Run.one {e : ε} (hC : C e s) (hs : step e s = some s') : Run step C s [e] s' :=
  Run.nil.snoc hC hs

/-- A simulation: seen through `f`, each step is a step of another machine that meets that
machine's condition, or nothing. `obs` says which. -/
theorem Run.simulates {σ' ε' : Type*} {step' : ε' → σ' → Option σ'} {D : ε' → σ' → Prop}
    {f : σ → σ'} {obs : ε → Option ε'} {J : σ → Prop} (h : Run step C s₀ es s) (h₀ : J s₀)
    (hstep : ∀ e s s', C e s → step e s = some s' → J s → J s' ∧
      ((obs e = none ∧ f s' = f s) ∨
        ∃ e', obs e = some e' ∧ D e' (f s) ∧ step' e' (f s) = some (f s'))) :
    J s ∧ Run step' D (f s₀) (es.filterMap obs) (f s) := by
  induction h with
  | nil => exact ⟨h₀, Run.nil⟩
  | snoc _ hC hs ih =>
    obtain ⟨hJ, hrun⟩ := ih
    obtain ⟨hJ', hsim⟩ := hstep _ _ _ hC hs hJ
    rw [List.filterMap_append]
    refine ⟨hJ', ?_⟩
    rcases hsim with ⟨hobs, hf⟩ | ⟨e', hobs, hD, hs'⟩
    · simpa [hobs, hf] using hrun
    · simpa [hobs] using hrun.snoc hD hs'

/-- What executes is a run. -/
theorem run_of_exec [∀ e s, Decidable (C e s)] (h : exec step C es s = some s') :
    Run step C s es s' := by
  induction es generalizing s with
  | nil =>
    cases h
    exact Run.nil
  | cons e es ih =>
    rw [exec] at h
    split at h
    next hC =>
      obtain ⟨t, ht, hes⟩ := Option.bind_eq_some_iff.1 h
      exact (Run.one hC ht).trans (ih hes)
    next => cases h

end Steps
