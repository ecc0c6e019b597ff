import Mathlib.Data.Nat.Basic

/-!
# Bitmaps

A bitmap is words of `w` bits, indexed from 0; bit `n` is bit `n % w` of
word `n / w`. Setting and clearing one bit leaves all the others, a word is
all ones if its bits are, and the lowest clear bit of a word is found by
trying them in turn.
-/

namespace Obsd.Bitmap

variable {w : Nat}

def bit (map : Nat → BitVec w) (n : Nat) : Bool := (map (n / w)).getLsbD (n % w)

/-- The map with another word in place `j`. -/
def setWord (map : Nat → BitVec w) (j : Nat) (v : BitVec w) : Nat → BitVec w :=
  fun k => if k = j then v else map k

def set (map : Nat → BitVec w) (n : Nat) : Nat → BitVec w :=
  setWord map (n / w) (map (n / w) ||| 1#w <<< (n % w))

def clear (map : Nat → BitVec w) (n : Nat) : Nat → BitVec w :=
  setWord map (n / w) (map (n / w) &&& ~~~(1#w <<< (n % w)))

theorem getLsbD_one_shiftLeft {i j : Nat} (hi : i < w) :
    (1#w <<< i).getLsbD j = decide (j = i) := by
  rcases Nat.lt_trichotomy j i with h | h | h
  · have : ¬j = i := by omega
    simp [h, this]
  · subst h
    simp [hi, Nat.zero_lt_of_lt hi]
  · have h1 : ¬j = i := by omega
    have h2 : ¬j - i = 0 := by omega
    simp [h1, h2]

theorem bit_mul_add (map : Nat → BitVec w) {j b : Nat} (hb : b < w) :
    bit map (w * j + b) = (map j).getLsbD b := by
  unfold bit
  rw [Nat.mul_add_div (by omega), Nat.mul_add_mod, Nat.div_eq_of_lt hb, Nat.mod_eq_of_lt hb, Nat.add_zero]

theorem eq_iff_div_mod {n m : Nat} : n = m ↔ n / w = m / w ∧ n % w = m % w := by
  refine ⟨fun h => h ▸ ⟨rfl, rfl⟩, fun ⟨hd, hm⟩ => ?_⟩
  rw [← Nat.div_add_mod n w, ← Nat.div_add_mod m w, hd, hm]

theorem bit_set (hw : 0 < w) (map : Nat → BitVec w) (n m : Nat) :
    bit (set map n) m = (bit map m || decide (m = n)) := by
  have hiff : m = n ↔ m / w = n / w ∧ m % w = n % w := eq_iff_div_mod
  unfold bit set setWord
  split_ifs with hj
  · rw [BitVec.getLsbD_or, getLsbD_one_shiftLeft (Nat.mod_lt n hw), hj]
    simp [hiff, hj]
  · simp [hiff, hj]

theorem bit_clear (hw : 0 < w) (map : Nat → BitVec w) (n m : Nat) :
    bit (clear map n) m = (bit map m && !decide (m = n)) := by
  have hiff : m = n ↔ m / w = n / w ∧ m % w = n % w := eq_iff_div_mod
  unfold bit clear setWord
  split_ifs with hj
  · rw [BitVec.getLsbD_and, BitVec.getLsbD_not, getLsbD_one_shiftLeft (Nat.mod_lt n hw), hj]
    simp [hiff, hj, Nat.mod_lt m hw]
  · simp [hiff, hj]

theorem set_of_ne {map : Nat → BitVec w} {n j : Nat} (h : j ≠ n / w) : set map n j = map j := by
  rw [set, setWord, if_neg h]

theorem clear_of_ne {map : Nat → BitVec w} {n j : Nat} (h : j ≠ n / w) : clear map n j = map j := by
  rw [clear, setWord, if_neg h]

/-- A word is all ones if all its bits are. -/
theorem eq_allOnes_iff (map : Nat → BitVec w) (j : Nat) :
    map j = BitVec.allOnes w ↔ ∀ b < w, bit map (w * j + b) = true := by
  constructor
  · intro h b hb
    rw [bit_mul_add map hb, h, BitVec.getLsbD_allOnes, decide_eq_true hb]
  · intro h
    refine BitVec.eq_of_getLsbD_eq fun b hb => ?_
    rw [← bit_mul_add map hb, h b hb, BitVec.getLsbD_allOnes, decide_eq_true hb]

/-- A bit of a word that is all ones. -/
theorem bit_of_allOnes (hw : 0 < w) {map : Nat → BitVec w} {n : Nat} (h : map (n / w) = BitVec.allOnes w) :
    bit map n = true := by
  rw [bit, h, BitVec.getLsbD_allOnes, decide_eq_true (Nat.mod_lt n hw)]

/-! ## The lowest clear bit -/

/-- The position of the lowest set bit, counted from 1, or 0. -/
def ffs (v : BitVec w) : Nat :=
  match (List.range w).find? v.getLsbD with
  | some b => b + 1
  | none => 0

/-- In a word that is not all ones, `ffs` finds the lowest bit that is clear. -/
theorem ffs_not {v : BitVec w} (h : v ≠ BitVec.allOnes w) :
    ∃ b < w, ffs (~~~v) = b + 1 ∧ v.getLsbD b = false ∧ ∀ c < b, v.getLsbD c = true := by
  unfold ffs
  cases hfind : (List.range w).find? (~~~v).getLsbD with
  | none =>
    refine absurd (BitVec.eq_of_getLsbD_eq fun b hb => ?_) h
    have hno := List.find?_eq_none.mp hfind b (List.mem_range.mpr hb)
    simpa [hb] using hno
  | some b =>
    obtain ⟨hset, hmem, hbefore⟩ := List.find?_range_eq_some.mp hfind
    have hb : b < w := List.mem_range.mp hmem
    refine ⟨b, hb, rfl, ?_, fun c hc => ?_⟩
    · simpa [hb] using hset
    · simpa [Nat.lt_trans hc hb] using hbefore c hc

/-- In a word that is not zero, `ffs` finds the lowest bit that is set. -/
theorem ffs_of_ne_zero {v : BitVec w} (h : v ≠ 0#w) :
    ∃ b < w, ffs v = b + 1 ∧ v.getLsbD b = true ∧ ∀ c < b, v.getLsbD c = false := by
  have hnot : ~~~v ≠ BitVec.allOnes w := by
    intro hall
    refine h ?_
    rw [← BitVec.not_not (b := v), hall, BitVec.not_allOnes]
  obtain ⟨b, hb, hffs, hbit, hbefore⟩ := ffs_not hnot
  rw [BitVec.not_not] at hffs
  refine ⟨b, hb, hffs, ?_, fun c hc => ?_⟩
  · simpa [hb] using hbit
  · simpa [Nat.lt_trans hc hb] using hbefore c hc

/-! ## Masks -/

/-- The mask of the bits below `k`. -/
theorem getLsbD_below {k b : Nat} (hk : k < w) : (1#w <<< k - 1#w).getLsbD b = decide (b < k) := by
  have hlt : 2 ^ k < 2 ^ w := Nat.pow_lt_pow_right (by decide) hk
  have hone : (1#w).toNat = 1 := by
    rw [BitVec.toNat_ofNat, Nat.mod_eq_of_lt]
    exact Nat.one_lt_two_pow (by omega)
  have hshift : (1#w <<< k).toNat = 2 ^ k := by
    rw [BitVec.toNat_shiftLeft, hone, Nat.one_shiftLeft, Nat.mod_eq_of_lt hlt]
  have hle : 1#w ≤ 1#w <<< k := by
    rw [BitVec.le_def, hone, hshift]
    exact Nat.one_le_two_pow
  rw [BitVec.getLsbD, BitVec.toNat_sub_of_le hle, hshift, hone, Nat.testBit_two_pow_sub_one]

/-- The word with the bits below `k` cleared. -/
theorem getLsbD_and_above (v : BitVec w) {k b : Nat} (hk : k < w) :
    (v &&& ~~~(1#w <<< k - 1#w)).getLsbD b = (v.getLsbD b && decide (k ≤ b)) := by
  rw [BitVec.getLsbD_and, BitVec.getLsbD_not, getLsbD_below hk]
  by_cases hb : b < w
  · by_cases hkb : k ≤ b
    · simp [hb, hkb, Nat.not_lt.mpr hkb]
    · simp [hkb, Nat.lt_of_not_le hkb]
  · rw [BitVec.getLsbD_of_ge v b (by omega)]
    simp

/-- The word with the bits below `k` set. -/
theorem getLsbD_or_below (v : BitVec w) {k b : Nat} (hk : k < w) :
    (v ||| (1#w <<< k - 1#w)).getLsbD b = (v.getLsbD b || decide (b < k)) := by
  rw [BitVec.getLsbD_or, getLsbD_below hk]

end Obsd.Bitmap
