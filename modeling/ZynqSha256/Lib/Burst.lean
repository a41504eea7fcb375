import Mathlib

/-! Addresses of the beats of a burst of `beats` beats, `w` bytes each: constant,
incrementing, or wrapping inside the aligned container of `w * beats` bytes. -/

namespace Burst

inductive Kind where
  | fixed
  | incr
  | wrap
  deriving DecidableEq, Repr

/-- The address of beat `k`. -/
def addr (w : ℕ) (kind : Kind) (start beats k : ℕ) : ℕ :=
  match kind with
  | .fixed => start
  | .incr => start + w * k
  | .wrap => start / (w * beats) * (w * beats) + (start + w * k) % (w * beats)

/-- The address after address `a`. -/
def next (w : ℕ) (kind : Kind) (beats a : ℕ) : ℕ :=
  match kind with
  | .fixed => a
  | .incr => a + w
  | .wrap => a / (w * beats) * (w * beats) + (a + w) % (w * beats)

@[simp] theorem addr_zero (w : ℕ) (kind : Kind) (start beats : ℕ) :
    addr w kind start beats 0 = start := by
  rcases kind with _ | _ | _
  · rfl
  · rfl
  · exact Nat.div_add_mod' start (w * beats)

theorem addr_succ {w beats : ℕ} (hw : 0 < w) (hb : 0 < beats) (kind : Kind) (start k : ℕ) :
    addr w kind start beats (k + 1) = next w kind beats (addr w kind start beats k) := by
  have hpos : 0 < w * beats := Nat.mul_pos hw hb
  rcases kind with _ | _ | _
  · rfl
  · simp only [addr, next]
    ring
  · simp only [addr, next]
    -- a beat never leaves the container of the first one
    have hdiv : (start / (w * beats) * (w * beats) + (start + w * k) % (w * beats)) / (w * beats) =
        start / (w * beats) := by
      rw [Nat.add_comm, Nat.add_mul_div_right _ _ hpos,
        Nat.div_eq_of_lt (Nat.mod_lt _ hpos), Nat.zero_add]
    rw [hdiv, Nat.add_assoc, Nat.mul_comm (start / (w * beats)), Nat.mul_add_mod,
      Nat.mod_add_mod, Nat.mul_add, Nat.mul_one, Nat.add_assoc]

/-- A wrapping burst of aligned beats steps by `w` and goes back at the container's end. -/
theorem next_wrap {w beats a : ℕ} (hw : 0 < w) (hb : 0 < beats) (ha : w ∣ a) :
    next w .wrap beats a =
      if a % (w * beats) = w * beats - w then a - (w * beats - w) else a + w := by
  have hpos : 0 < w * beats := Nat.mul_pos hw hb
  have hle : w ≤ w * beats := Nat.le_mul_of_pos_right w hb
  have hmod := Nat.div_add_mod' a (w * beats)
  have hlt := Nat.mod_lt a hpos
  have hnext : (a + w) % (w * beats) = (a % (w * beats) + w) % (w * beats) :=
    (Nat.mod_add_mod a (w * beats) w).symm
  rw [next, hnext]
  split_ifs with h
  · rw [h, Nat.sub_add_cancel hle, Nat.mod_self]
    omega
  · -- the offset is a multiple of `w` below the last one
    have hdvd : w ∣ a % (w * beats) := (Nat.dvd_mod_iff (Nat.dvd_mul_right w beats)).2 ha
    have hoff : a % (w * beats) + w ≤ w * beats - w := by
      obtain ⟨q, hq⟩ := hdvd
      rw [hq] at hlt h ⊢
      have hqb : q < beats := Nat.lt_of_mul_lt_mul_left hlt
      have hne : q ≠ beats - 1 := by
        rintro rfl
        exact h (by rw [Nat.mul_sub, Nat.mul_one])
      calc w * q + w = w * (q + 1) := by ring
        _ ≤ w * (beats - 1) := Nat.mul_le_mul_left w (by omega)
        _ = w * beats - w := by rw [Nat.mul_sub, Nat.mul_one]
    rw [Nat.mod_eq_of_lt (by omega)]
    omega

/-! ## Bursts in a row -/

/-- The burst that beat `j` belongs to and the beats of it that come before, when
burst `k` has `len k + 1` beats. -/
def place (len : ℕ → ℕ) : ℕ → ℕ × ℕ
  | 0 => (0, 0)
  | j + 1 =>
    if (place len j).2 = len (place len j).1 then ((place len j).1 + 1, 0)
    else ((place len j).1, (place len j).2 + 1)

theorem place_of_last {len : ℕ → ℕ} {j : ℕ} (h : (place len j).2 = len (place len j).1) :
    place len (j + 1) = ((place len j).1 + 1, 0) := if_pos h

theorem place_of_not_last {len : ℕ → ℕ} {j : ℕ} (h : (place len j).2 ≠ len (place len j).1) :
    place len (j + 1) = ((place len j).1, (place len j).2 + 1) := if_neg h

theorem place_le (len : ℕ → ℕ) (j : ℕ) : (place len j).2 ≤ len (place len j).1 := by
  induction j with
  | zero => exact Nat.zero_le _
  | succ j ih =>
    by_cases h : (place len j).2 = len (place len j).1
    · rw [place_of_last h]
      exact Nat.zero_le _
    · rw [place_of_not_last h]
      exact Nat.lt_of_le_of_ne ih h

end Burst
