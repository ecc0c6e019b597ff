import Mathlib.Algebra.Order.Group.Nat

/-!
# Little-endian words in memory

A region of memory is a map from offsets to bytes; `getLe` and `putLe` read
and write a word of any number of bytes. What a proof needs to know about
them is that a word that was written is read back, and that a write
elsewhere does not matter.
-/

namespace Obsd

/-- Memory, by offset. -/
abbrev Mem := Nat → UInt8

/-- The word of `n` bytes at `o`. -/
def getLe (m : Mem) (o : Nat) : Nat → Nat
  | 0 => 0
  | n + 1 => (m o).toNat + 256 * getLe m (o + 1) n

/-- Write the word `v` of `n` bytes at `o`. -/
def putLe (m : Mem) (o n v : Nat) : Mem := fun a =>
  if o ≤ a ∧ a < o + n then UInt8.ofNat (v / 256 ^ (a - o)) else m a

theorem getLe_congr {m m' : Mem} {o n : Nat} (h : ∀ a, o ≤ a → a < o + n → m a = m' a) :
    getLe m o n = getLe m' o n := by
  induction n generalizing o with
  | zero => rfl
  | succ n ih =>
      rw [getLe, getLe, h o (by omega) (by omega), ih fun a hlo hhi => h a (by omega) (by omega)]

/-- A word that does not overlap what is written stays as it is. -/
theorem getLe_putLe_of_disjoint {m : Mem} {o n o' n' v : Nat} (h : o + n ≤ o' ∨ o' + n' ≤ o) :
    getLe (putLe m o' n' v) o n = getLe m o n :=
  getLe_congr fun a hlo hhi => if_neg (by omega)

theorem getLe_of_digits {m : Mem} {o n v : Nat}
    (h : ∀ i < n, m (o + i) = UInt8.ofNat (v / 256 ^ i)) : getLe m o n = v % 256 ^ n := by
  induction n generalizing o v with
  | zero => rw [getLe, Nat.pow_zero, Nat.mod_one]
  | succ n ih =>
      have hrest : getLe m (o + 1) n = v / 256 % 256 ^ n := by
        refine ih fun i hi => ?_
        rw [show o + 1 + i = o + (i + 1) by omega, h (i + 1) (by omega), Nat.pow_succ',
          Nat.div_div_eq_div_mul]
      have hhead : (m o).toNat = v % 256 := by
        rw [show m o = _ from h 0 (by omega), Nat.pow_zero, Nat.div_one, UInt8.toNat_ofNat']
      rw [getLe, hrest, hhead, Nat.pow_succ', Nat.mod_mul]

/-- What is written is what is read. -/
theorem getLe_putLe {m : Mem} {o n v : Nat} (hv : v < 256 ^ n) : getLe (putLe m o n v) o n = v := by
  have hdigits : ∀ i < n, putLe m o n v (o + i) = UInt8.ofNat (v / 256 ^ i) := by
    intro i hi
    rw [putLe, if_pos (by omega), Nat.add_sub_cancel_left]
  rw [getLe_of_digits hdigits, Nat.mod_eq_of_lt hv]

theorem putLe_of_outside {m : Mem} {o n v a : Nat} (h : a < o ∨ o + n ≤ a) :
    putLe m o n v a = m a :=
  if_neg (by omega)

end Obsd
