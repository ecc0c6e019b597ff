import Mathlib.Logic.Relation

/-!
# Guarded runs of a machine

A machine is a partial step function `step : σ → α → Option σ`; `none` is
an action that is not enabled, or after which there is no state to speak
of. A *guarded* run takes only steps whose action the guard allows in the
state it is taken from, which is how "every sequence of calls such that"
is said throughout. `Runs.invariant` is the induction every safety result
goes through, and `Runs.of_exec` turns an evaluated list of actions into a
run.
-/

namespace Obsd

variable {σ α : Type*}

/-- `s'` can be reached from `s` by steps that all meet `ok`. -/
def Runs (step : σ → α → Option σ) (ok : σ → α → Prop) : σ → σ → Prop :=
  Relation.ReflTransGen fun s s' => ∃ a, ok s a ∧ step s a = some s'

namespace Runs

variable {step : σ → α → Option σ} {ok ok' : σ → α → Prop} {s s' : σ}

/-- What one guarded step keeps, a guarded run keeps. -/
theorem invariant {Inv : σ → Prop}
    (hstep : ∀ s a s', ok s a → step s a = some s' → Inv s → Inv s')
    (h : Runs step ok s s') (h0 : Inv s) : Inv s' := by
  induction h with
  | refl => exact h0
  | tail _ hs ih =>
      obtain ⟨a, hok, hst⟩ := hs
      exact hstep _ a _ hok hst ih

/-- Run a list of actions, all of them checked against a Boolean guard. -/
def exec (step : σ → α → Option σ) (ok : σ → α → Bool) : List α → σ → Option σ
  | [], s => some s
  | a :: as, s => if ok s a then (step s a).bind (exec step ok as) else none

theorem of_exec {okb : σ → α → Bool} (hok : ∀ s a, okb s a = true → ok s a) :
    ∀ (as : List α) {s s' : σ}, exec step okb as s = some s' → Runs step ok s s'
  | [], s, s', h => by
      obtain rfl : s = s' := Option.some.inj h
      exact .refl
  | a :: as, s, s', h => by
      rw [exec] at h
      split at h
      · rename_i ha
        obtain ⟨t, ht, hrest⟩ := Option.bind_eq_some_iff.mp h
        exact .head ⟨a, hok s a ha, ht⟩ (of_exec hok as hrest)
      · cases h

end Runs

end Obsd
