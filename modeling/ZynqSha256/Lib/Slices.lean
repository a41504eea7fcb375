import Mathlib

/-! Bit slices as hardware descriptions write them: a rotation is two slices
glued the other way round, and a 32-bit word is read as bytes in either order. -/

namespace Slices

theorem append_eq_rotateRight {a b : ℕ} (x : BitVec (a + b)) (hb : 0 < b) :
    x.extractLsb' 0 a ++ x.extractLsb' a b = x.rotateRight a := by
  apply BitVec.eq_of_getElem_eq
  intro i hi
  rw [BitVec.getElem_append, BitVec.getElem_rotateRight]
  simp only [Nat.mod_eq_of_lt (show a < a + b by omega), show a + b - a = b by omega,
    BitVec.getElem_extractLsb']
  split
  next => rw [BitVec.getLsbD_eq_getElem (by omega)]
  next => rw [BitVec.getLsbD_eq_getElem (by omega)]; simp

theorem extract_bytes (a b c d : BitVec 8) :
    (a ++ b ++ c ++ d).extractLsb' 24 8 = a ∧ (a ++ b ++ c ++ d).extractLsb' 16 8 = b ∧
      (a ++ b ++ c ++ d).extractLsb' 8 8 = c ∧ (a ++ b ++ c ++ d).extractLsb' 0 8 = d := by
  refine ⟨?_, ?_, ?_, BitVec.extractLsb'_append_eq_right⟩
  · rw [BitVec.extractLsb'_append_eq_of_le (by omega), BitVec.extractLsb'_append_eq_of_le (by omega)]
    exact BitVec.extractLsb'_append_eq_left
  · rw [BitVec.extractLsb'_append_eq_of_le (by omega), BitVec.extractLsb'_append_eq_of_le (by omega)]
    exact BitVec.extractLsb'_append_eq_right
  · rw [BitVec.extractLsb'_append_eq_of_le (by omega)]
    exact BitVec.extractLsb'_append_eq_right

/-- The bytes of a word, most significant first. -/
def beBytes (x : BitVec 32) : List (BitVec 8) :=
  [x.extractLsb 31 24, x.extractLsb 23 16, x.extractLsb 15 8, x.extractLsb 7 0]

/-- The bytes of a word, least significant first. -/
def leBytes (x : BitVec 32) : List (BitVec 8) :=
  [x.extractLsb 7 0, x.extractLsb 15 8, x.extractLsb 23 16, x.extractLsb 31 24]

theorem leBytes_append (a b c d : BitVec 8) : leBytes (a ++ b ++ c ++ d) = [d, c, b, a] := by
  obtain ⟨ha, hb, hc, hd⟩ := extract_bytes a b c d
  exact congrArg₂ _ hd (congrArg₂ _ hc (congrArg₂ _ hb (congrArg₂ _ ha rfl)))

end Slices
