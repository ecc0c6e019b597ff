import Mathlib.Logic.Relation

/-!
# Short cycles of a relation

`RelPath R n a b` is a path of `n` edges of `R`. A relation without a cycle
of `N` edges or fewer (`NoCycle`) keeps none when edges are taken away,
and when one is added, from `p` to `q`, such that fewer than `N` edges do
not lead from `q` back to `p`: this is what a deadlock detector of bounded
depth has to check before somebody starts to wait.
-/

namespace Obsd

variable {α : Type*}

/-- `n` edges of `R` lead from one to the other. -/
inductive RelPath (R : α → α → Prop) : Nat → α → α → Prop where
  | nil (a : α) : RelPath R 0 a a
  | cons {n : Nat} {a b c : α} (edge : R a b) (rest : RelPath R n b c) : RelPath R (n + 1) a c

/-- No cycle has `N` edges or fewer. -/
def NoCycle (R : α → α → Prop) (N : Nat) : Prop := ∀ a n, 0 < n → n ≤ N → ¬RelPath R n a a

namespace RelPath

variable {R R' : α → α → Prop} {a b c p q : α} {m n : Nat}

theorem mono (h : RelPath R n a b) (hsub : ∀ a b, R a b → R' a b) : RelPath R' n a b := by
  induction h with
  | nil a => exact .nil a
  | cons edge _ ih => exact .cons (hsub _ _ edge) ih

theorem append (h : RelPath R m a b) (h' : RelPath R n b c) : RelPath R (m + n) a c := by
  induction h with
  | nil a =>
      rw [Nat.zero_add]
      exact h'
  | cons edge _ ih =>
      rw [Nat.succ_add]
      exact .cons edge (ih h')

section Added

variable (hadd : ∀ a b, R' a b → R a b ∨ (a = p ∧ b = q))

include hadd

/-- A path that uses an added edge reaches its tail without it. -/
theorem before_added (h : RelPath R' n a c) : RelPath R n a c ∨ ∃ i, i < n ∧ RelPath R i a p := by
  induction h with
  | nil a => exact .inl (.nil a)
  | cons edge _ ih =>
      rcases hadd _ _ edge with he | ⟨rfl, -⟩
      · rcases ih with h | ⟨i, hi, h⟩
        · exact .inl (.cons he h)
        · exact .inr ⟨i + 1, Nat.succ_lt_succ hi, .cons he h⟩
      · exact .inr ⟨0, Nat.succ_pos _, .nil _⟩

/-- It is without it again behind its last use. -/
theorem behind_added (h : RelPath R' n a c) :
    RelPath R n a c ∨ ∃ i j, i + j < n ∧ RelPath R' i a p ∧ RelPath R j q c := by
  induction h with
  | nil a => exact .inl (.nil a)
  | @cons n a b c edge rest ih =>
      rcases ih with h | ⟨i, j, hij, hi, hj⟩
      · rcases hadd _ _ edge with he | ⟨rfl, rfl⟩
        · exact .inl (.cons he h)
        · exact .inr ⟨0, n, by omega, .nil _, h⟩
      · exact .inr ⟨i + 1, j, by omega, .cons edge hi, hj⟩

end Added

end RelPath

namespace NoCycle

variable {R R' : α → α → Prop} {p q : α} {N : Nat}

theorem mono (h : NoCycle R N) (hsub : ∀ a b, R' a b → R a b) : NoCycle R' N :=
  fun a n h0 hn hp => h a n h0 hn (hp.mono hsub)

/-- An edge may be added if no short path leads back. -/
theorem add (h : NoCycle R N) (hadd : ∀ a b, R' a b → R a b ∨ (a = p ∧ b = q))
    (hback : ∀ n, n < N → ¬RelPath R n q p) : NoCycle R' N := by
  intro a n h0 hn hp
  rcases hp.behind_added hadd with hR | ⟨i, j, hij, hi, hj⟩
  · exact h a n h0 hn hR
  · obtain ⟨k, hk, hkp⟩ : ∃ k, k ≤ i ∧ RelPath R k a p := by
      rcases hi.before_added hadd with hR | ⟨k, hk, hkp⟩
      · exact ⟨i, Nat.le_refl _, hR⟩
      · exact ⟨k, Nat.le_of_lt hk, hkp⟩
    exact hback (j + k) (by omega) (hj.append hkp)

end NoCycle

end Obsd
