import Mathlib.Data.Nat.Find
import Mathlib.Logic.Function.Iterate

/-!
# Loops that look for something

A loop steps through positions as long as a test holds and stops at the
first one that hits. It need not stop: with machine integers the step may
run in a circle on which the test always holds. The two ways in which it
stops are `scan_eq_hit` and `scan_eq_exit`, and `scan_inv` says that there
are no others.
-/

namespace Obsd.ScanLoop

variable {α : Type*} {test hit : α → Bool} {next : α → α} {x y : α} {n fuel : Nat}

/-- `some (some y)` is a hit, `some none` that the test failed, and `none` that the fuel
did not suffice. -/
def scan (test hit : α → Bool) (next : α → α) : Nat → α → Option (Option α)
  | 0, _ => none
  | fuel + 1, x =>
    if test x then if hit x then some (some x) else scan test hit next fuel (next x)
    else some none

/-- The loop goes on past the first `n` positions. -/
def Passes (test hit : α → Bool) (next : α → α) (x : α) (n : Nat) : Prop :=
  ∀ i < n, test (next^[i] x) = true ∧ hit (next^[i] x) = false

theorem Passes.head (h : Passes test hit next x (n + 1)) : test x = true ∧ hit x = false :=
  h 0 (Nat.succ_pos n)

theorem Passes.tail (h : Passes test hit next x (n + 1)) : Passes test hit next (next x) n :=
  fun i hi => h (i + 1) (Nat.succ_lt_succ hi)

theorem passes_succ (ht : test x = true) (hh : hit x = false)
    (h : Passes test hit next (next x) n) : Passes test hit next x (n + 1) := by
  intro i hi
  rcases i with _ | i
  · exact ⟨ht, hh⟩
  · exact h i (Nat.lt_of_succ_lt_succ hi)

theorem scan_passes (h : Passes test hit next x n) (fuel : Nat) :
    scan test hit next (n + fuel) x = scan test hit next fuel (next^[n] x) := by
  induction n generalizing x with
  | zero => rw [Nat.zero_add]; rfl
  | succ n ih =>
    rw [Nat.succ_add, scan, if_pos h.head.1, h.head.2]
    exact ih h.tail

theorem scan_eq_hit (h : Passes test hit next x n) (ht : test (next^[n] x) = true)
    (hh : hit (next^[n] x) = true) : scan test hit next (n + 1) x = some (some (next^[n] x)) := by
  rw [scan_passes h, scan, if_pos ht, if_pos hh]

theorem scan_eq_exit (h : Passes test hit next x n) (ht : test (next^[n] x) = false) :
    scan test hit next (n + 1) x = some none := by
  rw [scan_passes h, scan, if_neg (by rw [ht]; exact Bool.false_ne_true)]

/-- With a hit ahead and the test true up to there, the loop stops at the first hit. -/
theorem scan_first (ht : ∀ i ≤ n, test (next^[i] x) = true) (hh : hit (next^[n] x) = true) :
    ∃ m ≤ n, hit (next^[m] x) = true ∧ scan test hit next (m + 1) x = some (some (next^[m] x)) := by
  have hex : ∃ m, hit (next^[m] x) = true := ⟨n, hh⟩
  have hle : Nat.find hex ≤ n := Nat.find_min' hex hh
  have hpass : Passes test hit next x (Nat.find hex) := fun i hi =>
    ⟨ht i (Nat.le_trans (Nat.le_of_lt hi) hle), eq_false_of_ne_true (Nat.find_min hex hi)⟩
  exact ⟨Nat.find hex, hle, Nat.find_spec hex, scan_eq_hit hpass (ht _ hle) (Nat.find_spec hex)⟩

/-- The loop stops at `y` with result `r`. -/
def StopsAt (test hit : α → Bool) (y : α) : Option α → Prop
  | some z => z = y ∧ test y = true ∧ hit y = true
  | none => test y = false

theorem scan_inv {r : Option α} (h : scan test hit next fuel x = some r) :
    ∃ n, Passes test hit next x n ∧ StopsAt test hit (next^[n] x) r := by
  induction fuel generalizing x with
  | zero => exact absurd h (by simp [scan])
  | succ fuel ih =>
    rw [scan] at h
    have hnil : Passes test hit next x 0 := fun i hi => absurd hi (Nat.not_lt_zero i)
    by_cases ht : test x = true
    · rw [if_pos ht] at h
      by_cases hh : hit x = true
      · rw [if_pos hh, Option.some.injEq] at h
        subst h
        exact ⟨0, hnil, rfl, ht, hh⟩
      · rw [if_neg hh] at h
        obtain ⟨n, hpass, hend⟩ := ih h
        exact ⟨n + 1, passes_succ ht (eq_false_of_ne_true hh) hpass, hend⟩
    · rw [if_neg ht, Option.some.injEq] at h
      subst h
      exact ⟨0, hnil, eq_false_of_ne_true ht⟩

/-- More fuel does no harm. -/
theorem scan_mono {r : Option α} (h : scan test hit next fuel x = some r) (k : Nat) :
    scan test hit next (fuel + k) x = some r := by
  induction fuel generalizing x with
  | zero => exact absurd h (by simp [scan])
  | succ fuel ih =>
    rw [Nat.succ_add]
    rw [scan] at h ⊢
    split at h <;> rename_i ht
    · rw [if_pos ht]
      split at h <;> rename_i hh
      · rw [if_pos hh]
        exact h
      · rw [if_neg hh]
        exact ih h
    · rw [if_neg ht]
      exact h

/-- A loop whose test never fails does not leave without a hit. -/
theorem scan_ne_exit (h : ∀ y, test y = true) : scan test hit next fuel x ≠ some none := by
  intro hscan
  obtain ⟨n, -, hend⟩ := scan_inv hscan
  exact Bool.noConfusion ((h _).symm.trans hend)

end Obsd.ScanLoop
