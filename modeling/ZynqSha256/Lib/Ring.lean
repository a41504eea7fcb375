import ZynqSha256.Lib.Segments

/-! Intervals handed out one behind another around a ring of slots, none of them across its
end, and given back in the same order. -/

namespace Ring

open Segments (total cover)

/-- From slot `p` on the intervals follow each other, and the next one would start at `q`. -/
def Around (m : ℕ) : ℕ → List (ℕ × ℕ) → ℕ → Prop
  | p, [], q => p = q ∧ p < m
  | p, r :: l, q => r.1 = p ∧ 0 < r.2 ∧ p + r.2 ≤ m ∧ Around m ((p + r.2) % m) l q

variable {m p q n : ℕ} {r : ℕ × ℕ} {l : List (ℕ × ℕ)}

theorem Around.lt (h : Around m p l q) : q < m := by
  induction l generalizing p with
  | nil =>
    obtain ⟨rfl, hp⟩ := h
    exact hp
  | cons r l ih => exact ih h.2.2.2

theorem Around.snoc (h : Around m p l q) (h0 : 0 < n) (hn : q + n ≤ m) :
    Around m p (l ++ [(q, n)]) ((q + n) % m) := by
  have hm : 0 < m := Nat.zero_lt_of_lt h.lt
  induction l generalizing p with
  | nil =>
    obtain ⟨rfl, hp⟩ := h
    exact ⟨rfl, h0, hn, rfl, Nat.mod_lt _ hm⟩
  | cons r l ih => exact ⟨h.1, h.2.1, h.2.2.1, ih h.2.2.2⟩

theorem Around.tail (h : Around m p (r :: l) q) : Around m ((p + r.2) % m) l q := h.2.2.2

theorem pts_one (p n : ℕ) : Segments.pts 1 p n = (List.range n).map (p + ·) := by
  induction n with
  | zero => rfl
  | succ n ih =>
    rw [Segments.pts_add, ih, List.range_succ, List.map_append, smul_eq_mul, Nat.mul_one]
    rfl

/-- The slots taken are the next ones around the ring. -/
theorem Around.cover_eq (h : Around m p l q) :
    cover 1 l = (List.range (total l)).map (fun i => (p + i) % m) ∧ q = (p + total l) % m := by
  induction l generalizing p with
  | nil =>
    obtain ⟨rfl, hp⟩ := h
    exact ⟨rfl, (Nat.mod_eq_of_lt hp).symm⟩
  | cons r l ih =>
    obtain ⟨rfl, -, hr, h⟩ := h
    obtain ⟨hcover, rfl⟩ := ih h
    rw [Segments.cover_cons, hcover, pts_one, Segments.total_cons, List.range_add,
      List.map_append, List.map_map, ← Nat.add_assoc]
    refine ⟨congrArg₂ _ ?_ ?_, by rw [Nat.mod_add_mod]⟩
    · apply List.map_congr_left
      intro i hi
      rw [List.mem_range] at hi
      exact (Nat.mod_eq_of_lt (by omega)).symm
    · apply List.map_congr_left
      intro i _
      rw [Function.comp_apply, Nat.mod_add_mod, Nat.add_assoc]

theorem Around.mem (h : Around m p l q) {j : ℕ} (hj : j ∈ cover 1 l) :
    ∃ i < total l, j = (p + i) % m := by
  rw [h.cover_eq.1] at hj
  obtain ⟨i, hi, rfl⟩ := List.mem_map.1 hj
  exact ⟨i, List.mem_range.1 hi, rfl⟩

theorem not_modEq {i j : ℕ} (hij : i < j) (hj : j < i + m) : (p + i) % m ≠ (p + j) % m := by
  intro h
  have hdvd : m ∣ j - i := (Nat.modEq_iff_dvd' hij.le).1 (Nat.ModEq.add_left_cancel' p h)
  have := Nat.le_of_dvd (by omega) hdvd
  omega

/-- The next interval is free as long as the ring is not full. -/
theorem Around.free (h : Around m p l q) (hn : q + n ≤ m) (hroom : total l + n ≤ m) {j : ℕ}
    (hj : j ∈ cover 1 l) : j < q ∨ q + n ≤ j := by
  obtain ⟨i, hi, hji⟩ := h.mem hj
  by_contra hcon
  obtain ⟨k, hk⟩ := Nat.exists_eq_add_of_le (show q ≤ j by omega)
  have hwrap : j = (p + (total l + k)) % m := by
    rw [hk, ← Nat.add_assoc, ← Nat.mod_add_mod, ← h.cover_eq.2, Nat.mod_eq_of_lt (by omega)]
  exact not_modEq (show i < total l + k by omega) (by omega) (hji.symm.trans hwrap)

/-- What is taken behind the oldest interval is not in it. -/
theorem Around.oldest (h : Around m p (r :: l) q) (htotal : total (r :: l) ≤ m) {j : ℕ}
    (hj : j ∈ cover 1 l) : j < r.1 ∨ r.1 + r.2 ≤ j := by
  obtain ⟨i, hi, hji⟩ := h.tail.mem hj
  obtain ⟨rfl, -, hr, -⟩ := h
  rw [Segments.total_cons] at htotal
  by_contra hcon
  obtain ⟨k, hk⟩ := Nat.exists_eq_add_of_le (show r.1 ≤ j by omega)
  have hfirst : j = (r.1 + k) % m := by rw [← hk, Nat.mod_eq_of_lt (by omega)]
  rw [Nat.mod_add_mod, Nat.add_assoc] at hji
  exact not_modEq (show k < r.2 + i by omega) (by omega) (hfirst.symm.trans hji)

/-- Otherwise it runs over the oldest one. -/
theorem Around.overrun (h : Around m p (r :: l) q) (hn : q + n ≤ m)
    (htotal : total (r :: l) ≤ m) (hfull : m < total (r :: l) + n) : q ≤ r.1 ∧ r.1 < q + n := by
  have hq := h.cover_eq.2
  obtain ⟨rfl, h0, hr, -⟩ := h
  obtain ⟨k, hk⟩ := Nat.exists_eq_add_of_le htotal
  have hfirst : q + k = r.1 := by
    rw [← Nat.mod_eq_of_lt (show q + k < m by omega), hq, Nat.mod_add_mod, Nat.add_assoc, ← hk,
      Nat.add_mod_right, Nat.mod_eq_of_lt (by omega)]
  omega

end Ring
