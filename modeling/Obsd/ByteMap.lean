import Mathlib.Data.Nat.Count
import Obsd.Bitmap

/-!
# Bit maps in bytes

The macros `setbit`, `clrbit`, `isset` and `isclr` on an array of bytes,
the byte search `skpc`, and the number of clear bits.
-/

namespace Obsd

abbrev Bytes := Nat → BitVec 8

namespace Bytes

variable {a : Bytes} {i j n : Nat}

def isset (a : Bytes) (i : Nat) : Bool := Bitmap.bit a i

def isclr (a : Bytes) (i : Nat) : Bool := !isset a i

def setbit (a : Bytes) (i : Nat) : Bytes := Bitmap.set a i

def clrbit (a : Bytes) (i : Nat) : Bytes := Bitmap.clear a i

/-- How many bytes are left where the first that is not `mask` is found. -/
def skpc (mask : BitVec 8) (a : Bytes) : Nat → Nat → Nat
  | 0, _ => 0
  | size + 1, cp => if a cp = mask then skpc mask a size (cp + 1) else size + 1

theorem isset_setbit (a : Bytes) (i j : Nat) : isset (setbit a i) j = (isset a j || decide (j = i)) :=
  Bitmap.bit_set (by decide) a i j

theorem isset_clrbit (a : Bytes) (i j : Nat) : isset (clrbit a i) j = (isset a j && !decide (j = i)) :=
  Bitmap.bit_clear (by decide) a i j

/-! ## Searching -/

/-- Either all bytes are `mask`, or the search stops at the first that is not. -/
theorem skpc_spec (mask : BitVec 8) (a : Bytes) (size : Nat) : ∀ cp,
    (skpc mask a size cp = 0 ∧ ∀ i, cp ≤ i → i < cp + size → a i = mask)
    ∨ (0 < skpc mask a size cp ∧ skpc mask a size cp ≤ size ∧ a (cp + size - skpc mask a size cp) ≠ mask
      ∧ ∀ i, cp ≤ i → i < cp + size - skpc mask a size cp → a i = mask) := by
  induction size with
  | zero =>
    intro cp
    exact .inl ⟨rfl, fun i hi hi' => by omega⟩
  | succ size ih =>
    intro cp
    rw [skpc]
    by_cases hcp : a cp = mask
    · rw [if_pos hcp]
      have hend : cp + 1 + size = cp + (size + 1) := by omega
      have hih := ih (cp + 1)
      rw [hend] at hih
      obtain ⟨h0, hall⟩ | ⟨hpos, hle, hne, hall⟩ := hih
      · refine .inl ⟨h0, fun i hi hi' => ?_⟩
        by_cases hic : i = cp
        · rw [hic, hcp]
        · exact hall i (by omega) hi'
      · refine .inr ⟨hpos, by omega, hne, fun i hi hi' => ?_⟩
        by_cases hic : i = cp
        · rw [hic, hcp]
        · exact hall i (by omega) hi'
    · rw [if_neg hcp]
      refine .inr ⟨Nat.succ_pos _, le_rfl, ?_, fun i hi hi' => by omega⟩
      rw [Nat.add_sub_cancel]
      exact hcp

/-! ## Counting -/

/-- The number of clear bits below `n`. -/
def clear (a : Bytes) (n : Nat) : Nat := Nat.count (fun i => isclr a i = true) n

/-- One bit more among those that are counted. -/
theorem count_flip {p q : Nat → Prop} [DecidablePred p] [DecidablePred q] (hi : p i) (hqi : ¬ q i)
    (hother : ∀ j, j ≠ i → (p j ↔ q j)) : ∀ n, i < n → Nat.count p n = Nat.count q n + 1 := by
  intro n
  induction n with
  | zero =>
    intro h
    omega
  | succ n ih =>
    intro hlt
    rw [Nat.count_succ, Nat.count_succ]
    by_cases hn : n = i
    · subst hn
      have hsame : Nat.count p n = Nat.count q n :=
        Nat.le_antisymm (Nat.count_mono_left fun j hj => (hother j (by omega)).mp)
          (Nat.count_mono_left fun j hj => (hother j (by omega)).mpr)
      rw [if_pos hi, if_neg hqi, hsame]
    · have hiff := hother n hn
      by_cases hp : p n
      · rw [if_pos hp, if_pos (hiff.mp hp)]
        omega
      · rw [if_neg hp, if_neg fun hq => hp (hiff.mpr hq)]
        omega

theorem clear_setbit (hi : i < n) (hclr : isclr a i = true) : clear a n = clear (setbit a i) n + 1 := by
  refine count_flip hclr ?_ (fun j hj => ?_) n hi
  · rw [isclr, isset_setbit, decide_eq_true rfl, Bool.or_true]
    decide
  · rw [isclr, isclr, isset_setbit, decide_eq_false hj, Bool.or_false]

theorem clear_clrbit (hi : i < n) (hset : isset a i = true) : clear (clrbit a i) n = clear a n + 1 := by
  refine count_flip ?_ ?_ (fun j hj => ?_) n hi
  · rw [isclr, isset_clrbit, decide_eq_true rfl, Bool.not_true, Bool.and_false]
    decide
  · rw [isclr, hset]
    decide
  · rw [isclr, isclr, isset_clrbit, decide_eq_false hj, Bool.not_false, Bool.and_true]

theorem exists_clear (h : 0 < clear a n) : ∃ i < n, isclr a i = true := by
  exact Nat.count_ne_iff_exists.mp (Nat.ne_of_gt h)

end Bytes

end Obsd
