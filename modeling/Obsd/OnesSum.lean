import Mathlib.Data.ZMod.Basic

/-!
# One's-complement sums

Words of `w` bits that are added with the carry put back in at the
bottom. A word stands for its residue modulo `2^w - 1`, and zero has two
of them: no bits and all bits. A sum has no bits only if all its words
have none, so apart from that case the residue says it all.
-/

namespace Obsd.OnesSum

variable {w : Nat}

/-- The carry goes back in at the bottom. -/
def add (a b : BitVec w) : BitVec w :=
  BitVec.ofNat w ((a.toNat + b.toNat) / 2 ^ w + (a.toNat + b.toNat) % 2 ^ w)

def sum (ws : List (BitVec w)) : BitVec w := ws.foldl add 0#w

/-- What a word stands for. -/
def residue (a : BitVec w) : ZMod (2 ^ w - 1) := (a.toNat : ZMod (2 ^ w - 1))

/-- What words stand for when they are summed up. -/
def total (ws : List (BitVec w)) : ZMod (2 ^ w - 1) := (ws.map residue).sum

@[simp] theorem total_nil : total ([] : List (BitVec w)) = 0 := rfl

@[simp] theorem total_cons (a : BitVec w) (ws : List (BitVec w)) :
    total (a :: ws) = residue a + total ws := rfl

@[simp] theorem total_append (ws ws' : List (BitVec w)) :
    total (ws ++ ws') = total ws + total ws' := by
  simp [total]

@[simp] theorem residue_zero : residue (0#w) = 0 := by simp [residue]

/-- A sum that carries is less by `2^w - 1`. -/
theorem toNat_add (a b : BitVec w) :
    (add a b).toNat = if a.toNat + b.toNat < 2 ^ w then a.toNat + b.toNat
      else a.toNat + b.toNat - (2 ^ w - 1) := by
  rw [add, BitVec.toNat_ofNat]
  split
  · next h => rw [Nat.div_eq_of_lt h, Nat.mod_eq_of_lt h, Nat.zero_add, Nat.mod_eq_of_lt h]
  · next h =>
      have hdiv : (a.toNat + b.toNat) / 2 ^ w = 1 :=
        Nat.div_eq_of_lt_le (by omega) (by omega)
      have hmod : (a.toNat + b.toNat) % 2 ^ w = a.toNat + b.toNat - 2 ^ w := by
        rw [Nat.mod_eq_sub_mod (by omega), Nat.mod_eq_of_lt (by omega)]
      rw [hdiv, hmod, Nat.mod_eq_of_lt (by omega)]
      omega

theorem residue_add (a b : BitVec w) : residue (add a b) = residue a + residue b := by
  unfold residue
  rw [toNat_add]
  split
  · exact Nat.cast_add _ _
  · next h =>
      rw [Nat.cast_sub (by omega), Nat.cast_add, ZMod.natCast_self, sub_zero]

theorem add_eq_zero (a b : BitVec w) : add a b = 0#w ↔ a = 0#w ∧ b = 0#w := by
  simp only [← BitVec.toNat_inj, toNat_add, BitVec.toNat_zero]
  split <;> omega

theorem residue_foldl (ws : List (BitVec w)) :
    ∀ a, residue (ws.foldl add a) = residue a + total ws := by
  induction ws with
  | nil => simp
  | cons b ws ih =>
      intro a
      rw [List.foldl_cons, ih, residue_add, total_cons, add_assoc]

theorem foldl_eq_zero (ws : List (BitVec w)) :
    ∀ a, ws.foldl add a = 0#w ↔ a = 0#w ∧ ∀ b ∈ ws, b = 0#w := by
  induction ws with
  | nil => simp
  | cons b ws ih =>
      intro a
      rw [List.foldl_cons, ih, add_eq_zero, List.forall_mem_cons, and_assoc]

/-- All bits or none: the words that stand for zero. -/
theorem residue_eq_zero (hw : 0 < w) (a : BitVec w) :
    residue a = 0 ↔ a = 0#w ∨ a = BitVec.allOnes w := by
  unfold residue
  rw [ZMod.natCast_eq_zero_iff, ← BitVec.toNat_inj, ← BitVec.toNat_inj, BitVec.toNat_zero,
    BitVec.toNat_allOnes]
  constructor
  · intro h
    rcases Nat.eq_zero_or_pos a.toNat with h0 | hpos
    · exact Or.inl h0
    · have hle := Nat.le_of_dvd hpos h
      exact Or.inr (by omega)
  · rintro (h | h)
    · rw [h]
      exact Nat.dvd_zero _
    · rw [h]

/-- A sum comes out as all ones if it stands for zero and is not of zeros. -/
theorem sum_eq_allOnes (hw : 0 < w) (ws : List (BitVec w)) :
    sum ws = BitVec.allOnes w ↔ (∃ b ∈ ws, b ≠ 0#w) ∧ total ws = 0 := by
  have hres : residue (sum ws) = total ws := by
    rw [sum, residue_foldl, residue_zero, zero_add]
  have hzero : sum ws = 0#w ↔ ∀ b ∈ ws, b = 0#w := by
    rw [sum, foldl_eq_zero]
    simp
  have hne : BitVec.allOnes w ≠ 0#w := by
    have hpow : 2 ≤ 2 ^ w := Nat.le_self_pow hw.ne' 2
    rw [Ne, ← BitVec.toNat_inj, BitVec.toNat_zero, BitVec.toNat_allOnes]
    omega
  rw [← hres, residue_eq_zero hw]
  constructor
  · intro h
    refine ⟨?_, Or.inr h⟩
    by_contra hall
    push Not at hall
    exact hne (h.symm.trans (hzero.mpr hall))
  · rintro ⟨⟨b, hb, hb0⟩, h | h⟩
    · exact absurd (hzero.mp h b hb) hb0
    · exact h

end Obsd.OnesSum
