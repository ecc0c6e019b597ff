import Mathlib.Algebra.Order.Ring.Nat

/-!
# Machine words

Arithmetic of `BitVec w` where it does not wrap, read off in `Nat`, and
the rounding mask `-b = ~~~(b - 1)`. Nothing here fixes the width.
-/

namespace Obsd.Word

variable {w : Nat} {a b c x : BitVec w}

theorem one_toNat_of_lt (h : a < b) : (1#w).toNat = 1 := by
  rw [BitVec.lt_def] at h
  rw [BitVec.toNat_ofNat, Nat.mod_eq_of_lt (by omega)]

/-- Below some word there is room for one more. -/
theorem toNat_add_one (h : a < b) : (a + 1#w).toNat = a.toNat + 1 := by
  have h1 := one_toNat_of_lt h
  rw [BitVec.toNat_add_of_lt, h1]
  rw [BitVec.lt_def] at h
  omega

/-- Above some word there is one to take off. -/
theorem toNat_sub_one (h : a < b) : (b - 1#w).toNat = b.toNat - 1 := by
  have h1 := one_toNat_of_lt h
  rw [BitVec.toNat_sub_of_le, h1]
  rw [BitVec.le_def, h1]
  rw [BitVec.lt_def] at h
  omega

/-- A sum that has not wrapped is the sum. -/
theorem toNat_add_of_le (h : a ≤ a + b) : (a + b).toNat = a.toNat + b.toNat := by
  rw [BitVec.le_def, BitVec.toNat_add] at h
  by_cases hlt : a.toNat + b.toNat < 2 ^ w
  · exact Nat.mod_eq_of_lt hlt
  · rw [Nat.mod_eq_sub_mod (by omega), Nat.mod_eq_of_lt (by omega)] at h
    omega

/-! ## Rounding masks -/

theorem neg_eq_not_sub_one (b : BitVec w) : -b = ~~~(b - 1#w) := by
  rw [BitVec.not_eq_neg_add]
  grind

theorem and_add_and_not (x m : BitVec w) : (x &&& ~~~m) + (x &&& m) = x := by
  rw [BitVec.add_eq_or_of_and_eq_zero]
  · ext i hi
    simp only [BitVec.getElem_or, BitVec.getElem_and, BitVec.getElem_not]
    cases x[i] <;> cases m[i] <;> rfl
  · ext i hi
    simp only [BitVec.getElem_and, BitVec.getElem_not, BitVec.getElem_zero]
    cases x[i] <;> cases m[i] <;> rfl

/-- `x` rounded down by the mask of `b`, in terms of what the mask clears. -/
theorem and_neg (x b : BitVec w) : x &&& -b = x - (x &&& (b - 1#w)) := by
  have h := and_add_and_not x (b - 1#w)
  rw [neg_eq_not_sub_one]
  grind

theorem and_le_right (x m : BitVec w) : x &&& m ≤ m := by
  exact Nat.and_le_right

end Obsd.Word
