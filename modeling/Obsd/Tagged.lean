import Obsd.Word

/-!
# Words with flags in their low bits

A pointer or a count that is a multiple of `2 ^ k` leaves `k` bits for
flags. `tagged k n f` is such a word: `n` above, the flags `f` below.
Masks that only touch flags act on `f`, and a multiple of `2 ^ k` is added
above them.
-/

namespace Obsd.Tagged

variable {w k n f c : Nat}

/-- The word with `n` above and the flags `f` in its low `k` bits. -/
def tagged (k n f : Nat) : BitVec w := BitVec.ofNat w (2 ^ k * n + f)

/-- Every word is of this form. -/
theorem eq_tagged (k : Nat) (x : BitVec w) : x = tagged k (x.toNat / 2 ^ k) (x.toNat % 2 ^ k) := by
  rw [tagged, Nat.div_add_mod, BitVec.ofNat_toNat, BitVec.setWidth_eq]

theorem tagged_eq_add (k n f : Nat) : (tagged k n f : BitVec w) = tagged k n 0 + BitVec.ofNat w f := by
  rw [tagged, tagged, ← BitVec.ofNat_add, Nat.add_zero]

theorem tagged_or (hf : f < 2 ^ k) (hc : c < 2 ^ k) :
    (tagged k n f ||| BitVec.ofNat w c : BitVec w) = tagged k n (f ||| c) := by
  rw [tagged, tagged, ← BitVec.ofNat_or, Nat.two_pow_add_eq_or_of_lt hf, Nat.or_assoc,
    Nat.two_pow_add_eq_or_of_lt (Nat.or_lt_two_pow hf hc)]

theorem tagged_and (hf : f < 2 ^ k) (hc : c < 2 ^ k) :
    (tagged k n f &&& BitVec.ofNat w c : BitVec w) = BitVec.ofNat w (f &&& c) := by
  have habove : 2 ^ k * n &&& c = 0 := by
    refine Nat.eq_of_testBit_eq fun i => ?_
    rw [Nat.testBit_and, Nat.testBit_two_pow_mul, Nat.zero_testBit]
    by_cases hi : k ≤ i
    · rw [Nat.testBit_lt_two_pow (Nat.lt_of_lt_of_le hc (Nat.pow_le_pow_right (by decide) hi)), Bool.and_false]
    · rw [decide_eq_false hi, Bool.false_and, Bool.false_and]
  rw [tagged, ← BitVec.ofNat_and, Nat.two_pow_add_eq_or_of_lt hf, Nat.and_or_distrib_right, habove,
    Nat.zero_or]

/-- Clearing flags takes those off that are set. -/
theorem tagged_and_not (hf : f < 2 ^ k) (hc : c < 2 ^ k) :
    (tagged k n f &&& ~~~BitVec.ofNat w c : BitVec w) = tagged k n (f - (f &&& c)) := by
  have hsum := Word.and_add_and_not (tagged k n f : BitVec w) (BitVec.ofNat w c)
  rw [tagged_and hf hc] at hsum
  have hle : f &&& c ≤ f := Nat.and_le_left
  have hsplit : (tagged k n f : BitVec w) = tagged k n (f - (f &&& c)) + BitVec.ofNat w (f &&& c) := by
    rw [tagged, tagged, ← BitVec.ofNat_add, Nat.add_assoc, Nat.sub_add_cancel hle]
  rw [hsplit] at hsum
  rw [hsplit]
  exact (BitVec.add_left_inj _).mp hsum

theorem tagged_add (k n f : Nat) :
    (tagged k n f + BitVec.ofNat w (2 ^ k) : BitVec w) = tagged k (n + 1) f := by
  rw [tagged, tagged, ← BitVec.ofNat_add]
  rw [Nat.mul_add, Nat.mul_one, Nat.add_right_comm]

theorem tagged_sub (k n f : Nat) :
    (tagged k (n + 1) f - BitVec.ofNat w (2 ^ k) : BitVec w) = tagged k n f := by
  rw [← tagged_add, BitVec.add_sub_cancel]

theorem toNat_tagged (h : 2 ^ k * n + f < 2 ^ w) : (tagged k n f : BitVec w).toNat = 2 ^ k * n + f := by
  rw [tagged, BitVec.toNat_ofNat, Nat.mod_eq_of_lt h]

/-- A count below `2 ^ (w - k)` and its flags fit. -/
theorem fits (hk : k ≤ w) (hn : n < 2 ^ (w - k)) (hf : f < 2 ^ k) : 2 ^ k * n + f < 2 ^ w := by
  calc 2 ^ k * n + f < 2 ^ k * n + 2 ^ k := Nat.add_lt_add_left hf _
    _ = 2 ^ k * (n + 1) := by rw [Nat.mul_add, Nat.mul_one]
    _ ≤ 2 ^ k * 2 ^ (w - k) := Nat.mul_le_mul_left _ hn
    _ = 2 ^ w := by rw [← Nat.pow_add, Nat.add_sub_cancel' hk]

theorem ofNat_eq_zero (hk : k ≤ w) (hc : c < 2 ^ k) : BitVec.ofNat w c = 0#w ↔ c = 0 := by
  have hcw : c < 2 ^ w := Nat.lt_of_lt_of_le hc (Nat.pow_le_pow_right (by decide) hk)
  rw [← BitVec.toNat_inj, BitVec.toNat_ofNat, BitVec.toNat_ofNat, Nat.mod_eq_of_lt hcw, Nat.zero_mod]

end Obsd.Tagged
