import Mathlib

/-! Counting loops, `for (i = 0; i < n; i++)`, and those that fill consecutive slots of
an array. -/

namespace Loops

variable {σ α : Type*}

/-- `body 0`, then `body 1`, up to `body (n - 1)`. -/
def upTo (n : ℕ) (body : ℕ → σ → σ) (s : σ) : σ := (List.range n).foldl (fun s i => body i s) s

@[simp] theorem upTo_zero (body : ℕ → σ → σ) (s : σ) : upTo 0 body s = s := rfl

theorem upTo_succ (n : ℕ) (body : ℕ → σ → σ) (s : σ) :
    upTo (n + 1) body s = body n (upTo n body s) := by
  simp [upTo, List.range_succ, List.foldl_append]

theorem upTo_invariant {n : ℕ} {body : ℕ → σ → σ} {s : σ} {I : ℕ → σ → Prop} (h₀ : I 0 s)
    (hstep : ∀ i s, i < n → I i s → I (i + 1) (body i s)) : I n (upTo n body s) := by
  induction n with
  | zero => exact h₀
  | succ n ih =>
    rw [upTo_succ]
    apply hstep n _ (Nat.lt_succ_self n)
    apply ih
    intro i s hi hI
    exact hstep i s (by omega) hI

/-- The slot `v + i` becomes `f i` of what it was. -/
def fill (v n : ℕ) (f : ℕ → α → α) (mem : ℕ → α) : ℕ → α :=
  upTo n (fun i mem => Function.update mem (v + i) (f i (mem (v + i)))) mem

theorem fill_succ (v n : ℕ) (f : ℕ → α → α) (mem : ℕ → α) :
    fill v (n + 1) f mem =
      Function.update (fill v n f mem) (v + n) (f n (fill v n f mem (v + n))) :=
  upTo_succ n _ mem

theorem fill_invariant (v n : ℕ) (f : ℕ → α → α) (mem : ℕ → α) :
    (∀ i < n, fill v n f mem (v + i) = f i (mem (v + i))) ∧
      ∀ j, j < v ∨ v + n ≤ j → fill v n f mem j = mem j := by
  refine upTo_invariant (I := fun k (mem' : ℕ → α) => (∀ i < k, mem' (v + i) = f i (mem (v + i))) ∧
    ∀ j, j < v ∨ v + k ≤ j → mem' j = mem j) ⟨by omega, fun j _ => rfl⟩ ?_
  rintro k mem' - ⟨hin, hout⟩
  refine ⟨?_, ?_⟩
  · intro i hi
    rcases Nat.lt_succ_iff_lt_or_eq.1 hi with h | rfl
    · rw [Function.update_of_ne (by omega)]
      exact hin i h
    · rw [Function.update_self, hout (v + i) (by omega)]
  · intro j hj
    rw [Function.update_of_ne (by omega)]
    exact hout j (by omega)

theorem fill_in {v n i : ℕ} (hi : i < n) (f : ℕ → α → α) (mem : ℕ → α) :
    fill v n f mem (v + i) = f i (mem (v + i)) :=
  (fill_invariant v n f mem).1 i hi

theorem fill_out {v n j : ℕ} (hj : j < v ∨ v + n ≤ j) (f : ℕ → α → α) (mem : ℕ → α) :
    fill v n f mem j = mem j :=
  (fill_invariant v n f mem).2 j hj

end Loops
