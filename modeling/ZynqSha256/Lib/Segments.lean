import Mathlib

/-! Runs of equally spaced points: the bytes from an address on, or the pairs of bytes a
copy moves. A list of runs covers their points in order. -/

namespace Segments

variable {A B R : Type*} [AddMonoid A] [AddMonoid B]

/-- `n` points from `a` on, each `s` behind the one before. -/
def pts (s : A) : A → ℕ → List A
  | _, 0 => []
  | a, n + 1 => a :: pts s (a + s) n

@[simp] theorem pts_zero (s a : A) : pts s a 0 = [] := rfl

@[simp] theorem length_pts (s a : A) (n : ℕ) : (pts s a n).length = n := by
  induction n generalizing a with
  | zero => rfl
  | succ n ih => rw [pts, List.length_cons, ih]

theorem pts_add (s a : A) (m n : ℕ) : pts s a (m + n) = pts s a m ++ pts s (a + m • s) n := by
  induction m generalizing a with
  | zero => simp
  | succ m ih =>
    rw [Nat.succ_add, pts, ih, pts, List.cons_append, succ_nsmul', add_assoc]

theorem take_pts {m n : ℕ} (s a : A) (h : m ≤ n) : (pts s a n).take m = pts s a m := by
  obtain ⟨k, rfl⟩ := Nat.exists_eq_add_of_le h
  rw [pts_add]
  exact List.take_left' (length_pts s a m)

theorem pts_eq_map (s a : A) (n : ℕ) : pts s a n = (List.range n).map fun i => a + i • s := by
  induction n with
  | zero => rfl
  | succ n ih =>
    rw [pts_add, ih, List.range_succ, List.map_append, List.map_singleton, pts, pts_zero]

theorem mem_pts {s a x : A} {n : ℕ} : x ∈ pts s a n ↔ ∃ i < n, x = a + i • s := by
  rw [pts_eq_map, List.mem_map]
  constructor
  · rintro ⟨i, hi, rfl⟩
    exact ⟨i, List.mem_range.1 hi, rfl⟩
  · rintro ⟨i, hi, rfl⟩
    exact ⟨i, List.mem_range.2 hi, rfl⟩

/-- Pairs of points are the points of the pairs. -/
theorem zip_pts (s a : A) (t b : B) (n : ℕ) :
    (pts s a n).zip (pts t b n) = pts (s, t) (a, b) n := by
  induction n generalizing a b with
  | zero => rfl
  | succ n ih => rw [pts, pts, pts, List.zip_cons_cons, ih]; rfl

/-! ## Lists of runs -/

/-- The points of the runs, in order. -/
def cover (s : A) (l : List (A × ℕ)) : List A := l.flatMap fun r => pts s r.1 r.2

def total (l : List (R × ℕ)) : ℕ := (l.map Prod.snd).sum

@[simp] theorem total_nil : total ([] : List (R × ℕ)) = 0 := rfl

@[simp] theorem total_cons (r : R × ℕ) (l : List (R × ℕ)) : total (r :: l) = r.2 + total l := rfl

@[simp] theorem total_append (l l' : List (R × ℕ)) : total (l ++ l') = total l + total l' := by
  simp [total]

@[simp] theorem cover_cons (s : A) (r : A × ℕ) (l : List (A × ℕ)) :
    cover s (r :: l) = pts s r.1 r.2 ++ cover s l := rfl

@[simp] theorem cover_append (s : A) (l l' : List (A × ℕ)) :
    cover s (l ++ l') = cover s l ++ cover s l' :=
  List.flatMap_append

@[simp] theorem length_cover (s : A) (l : List (A × ℕ)) : (cover s l).length = total l := by
  induction l with
  | nil => rfl
  | cons r l ih => rw [cover_cons, List.length_append, length_pts, ih, total_cons]

/-! ## Copies to consecutive places -/

/-- The runs paired with consecutive places from `b` on, `t` apart. -/
def lay (t : B) : List (R × ℕ) → B → List ((R × B) × ℕ)
  | [], _ => []
  | r :: l, b => ((r.1, b), r.2) :: lay t l (b + r.2 • t)

@[simp] theorem lay_nil (t b : B) : lay t ([] : List (R × ℕ)) b = [] := rfl

theorem lay_append (t b : B) (l l' : List (R × ℕ)) :
    lay t (l ++ l') b = lay t l b ++ lay t l' (b + total l • t) := by
  induction l generalizing b with
  | nil => simp
  | cons r l ih =>
    rw [List.cons_append, lay, ih, lay, List.cons_append, total_cons, add_nsmul, add_assoc]

@[simp] theorem total_lay (t b : B) (l : List (R × ℕ)) : total (lay t l b) = total l := by
  induction l generalizing b with
  | nil => rfl
  | cons r l ih => rw [lay, total_cons, ih, total_cons]

@[simp] theorem length_lay (t b : B) (l : List (R × ℕ)) : (lay t l b).length = l.length := by
  induction l generalizing b with
  | nil => rfl
  | cons r l ih => rw [lay, List.length_cons, ih, List.length_cons]

/-- Point `i` of the runs goes to place `i`. -/
theorem cover_lay (s : A) (t b : B) (l : List (A × ℕ)) :
    cover (s, t) (lay t l b) = (cover s l).zip (pts t b (total l)) := by
  induction l generalizing b with
  | nil => rfl
  | cons r l ih =>
    rw [lay, cover_cons, ih, cover_cons, total_cons, pts_add, List.zip_append (by simp), zip_pts]

end Segments
