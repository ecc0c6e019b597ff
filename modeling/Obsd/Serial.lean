import Mathlib.Data.Int.ModEq

/-!
# Serial numbers

Numbers that wrap and are compared by the sign of their difference. A
serial number is read as a distance from some base: `nth base n` is the
number `n` steps from it, `n` any integer. As long as two distances are
less than half the space apart, comparing the numbers compares the
distances, and a proof about serial numbers becomes one about integers.
-/

namespace Obsd.Serial

variable {w : Nat}

/-- The number `n` steps from `base`. -/
def nth (base : BitVec w) (n : Int) : BitVec w := base + BitVec.ofInt w n

@[simp] theorem nth_zero (base : BitVec w) : nth base 0 = base := by simp [nth]

theorem nth_add (base : BitVec w) (n m : Int) :
    nth base n + BitVec.ofInt w m = nth base (n + m) := by
  rw [nth, nth, BitVec.ofInt_add, BitVec.add_assoc]

theorem nth_add_ofNat (base : BitVec w) (n : Int) (m : Nat) :
    nth base n + BitVec.ofNat w m = nth base (n + m) := by
  rw [← nth_add, BitVec.ofInt_natCast]

theorem toInt_nth_sub (base : BitVec w) (n m : Int) :
    (nth base n - nth base m).toInt = (n - m).bmod (2 ^ w) := by
  have h : nth base n - nth base m = BitVec.ofInt w n - BitVec.ofInt w m := by
    simp only [nth]; grind
  rw [h, BitVec.toInt_sub, BitVec.toInt_ofInt, BitVec.toInt_ofInt, ← Int.sub_bmod_bmod,
    Int.sub_bmod]
  simp

/-- Two numbers less than half the space apart differ by their distance. -/
theorem toInt_nth_sub_of_near (base : BitVec w) {n m : Int} (hlo : -2 ^ w ≤ (n - m) * 2)
    (hhi : (n - m) * 2 < 2 ^ w) : (nth base n - nth base m).toInt = n - m := by
  rw [toInt_nth_sub]
  exact Int.bmod_eq_of_le_mul_two (by exact hlo) (by exact hhi)

/-- How far one number is behind another, up to a whole round. -/
theorem toNat_nth_sub (base : BitVec w) {n m : Nat} (hle : m ≤ n) (hlt : n - m < 2 ^ w) :
    (nth base n - nth base m).toNat = n - m := by
  have hd : nth base (n : Int) - nth base (m : Int) = BitVec.ofNat w (n - m) := by
    rw [BitVec.sub_eq_iff_eq_add, BitVec.add_comm, nth_add_ofNat]
    congr 1; omega
  rw [hd, BitVec.toNat_ofNat, Nat.mod_eq_of_lt hlt]

theorem nth_inj_of_near (base : BitVec w) {n m : Int} (hlo : -2 ^ w ≤ (n - m) * 2)
    (hhi : (n - m) * 2 < 2 ^ w) : nth base n = nth base m ↔ n = m := by
  refine ⟨fun h => ?_, fun h => h ▸ rfl⟩
  have hd := toInt_nth_sub_of_near base hlo hhi
  rw [h, BitVec.sub_self, BitVec.toInt_zero] at hd
  omega

/-- Every number is at some distance of at most half the space. -/
theorem eq_nth (base s : BitVec w) : s = nth base (s - base).toInt := by
  rw [nth, BitVec.ofInt_toInt]
  grind

end Obsd.Serial
