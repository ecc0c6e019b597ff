import Mathlib.Logic.Relation
import Mathlib.Order.Basic
import Mathlib.Data.Nat.Basic

/-!
# Walks over positions

A walk goes from a position to the next until it stops, and keeps the last
thing it hits on its way. `scan` is such a walk with its accumulator;
`scan_spec` says that the accumulator ends up with the last hit among the
visited positions, and `scan_eq_scan_iff` compares two walks of which one
hits everything the other does.
-/

namespace Obsd.Walk

variable {β : Type*} {next next' : Nat → Option Nat} {hit hit' : Nat → Option β} {n p q : Nat}

/-- The walk that starts at `p` comes to `q`. -/
def Visits (next : Nat → Option Nat) (p q : Nat) : Prop :=
  Relation.ReflTransGen (fun a b => next a = some b) p q

theorem visits_iff : Visits next p q ↔ q = p ∨ ∃ r, next p = some r ∧ Visits next r q :=
  Relation.ReflTransGen.cases_head_iff.trans (or_congr_left eq_comm)

/-- The walk with its accumulator. -/
def scan (next : Nat → Option Nat) (hit : Nat → Option β) : Nat → Nat → Option β → Option β
  | 0, _, a => a
  | fuel + 1, p, a =>
    match next p with
    | none => (hit p).or a
    | some q => scan next hit fuel q ((hit p).or a)

/-- `q` is the last position with a hit, and the hit is `v`. -/
structure LastHit (next : Nat → Option Nat) (hit : Nat → Option β) (p q : Nat) (v : β) : Prop where
  visited : Visits next p q
  value : hit q = some v
  last : ∀ r w, Visits next p r → hit r = some w → r ≤ q

theorem LastHit.unique {v w : β} {r : Nat} (h : LastHit next hit p q v)
    (h' : LastHit next hit p r w) : q = r ∧ v = w := by
  have hqr : q = r := le_antisymm (h'.last q v h.visited h.value) (h.last r w h'.visited h'.value)
  refine ⟨hqr, ?_⟩
  have := h.value
  rw [hqr, h'.value] at this
  exact (Option.some.inj this).symm

/-- A walk goes forward and neither goes on nor hits anything from `n` on. -/
structure Bounded (next : Nat → Option Nat) (hit : Nat → Option β) (n : Nat) : Prop where
  forward : ∀ p q, next p = some q → p < q
  stops : ∀ p, n ≤ p → next p = none
  misses : ∀ p, n ≤ p → hit p = none

theorem Bounded.le_of_visits (h : Bounded next hit n) (hv : Visits next p q) : p ≤ q := by
  induction hv with
  | refl => exact le_rfl
  | tail _ hstep ih => exact ih.trans (h.forward _ _ hstep).le

/-- The accumulator is the last hit, or what it was if there is none. -/
theorem Bounded.scan_spec (h : Bounded next hit n) {fuel : Nat} (hf : n ≤ p + fuel)
    (a : Option β) :
    (∃ q v, LastHit next hit p q v ∧ scan next hit fuel p a = some v)
      ∨ (∀ q, Visits next p q → hit q = none) ∧ scan next hit fuel p a = a := by
  induction fuel generalizing p a with
  | zero =>
    refine .inr ⟨fun q hq => ?_, rfl⟩
    exact h.misses q (hf.trans (h.le_of_visits hq))
  | succ fuel ih =>
    rw [scan]
    cases hnext : next p with
    | none =>
      have honly : ∀ q, Visits next p q → q = p := by
        intro q hq
        rcases visits_iff.mp hq with rfl | ⟨r, hr, -⟩
        · rfl
        · exact absurd (hnext.symm.trans hr) (by simp)
      cases hhit : hit p with
      | none => exact .inr ⟨fun q hq => honly q hq ▸ hhit, rfl⟩
      | some v =>
        exact .inl ⟨p, v, ⟨.refl, hhit, fun r _ hr _ => (honly r hr).le⟩, rfl⟩
    | some r =>
      have hlt := h.forward p r hnext
      rcases ih (p := r) (by omega) ((hit p).or a) with ⟨q, v, hq, hscan⟩ | ⟨hnone, hscan⟩
      · refine .inl ⟨q, v, ⟨visits_iff.mpr (.inr ⟨r, hnext, hq.visited⟩), hq.value, ?_⟩, hscan⟩
        intro r' w hr' hw
        rcases visits_iff.mp hr' with rfl | ⟨r'', hr'', hv⟩
        · exact hlt.le.trans (h.le_of_visits hq.visited)
        · obtain rfl := Option.some.inj (hnext.symm.trans hr'')
          exact hq.last r' w hv hw
      · -- nothing is hit further on: the hit at `p` is the last
        have hrest : ∀ q, Visits next p q → q = p ∨ hit q = none := by
          intro q hq
          rcases visits_iff.mp hq with rfl | ⟨r', hr', hv⟩
          · exact .inl rfl
          · obtain rfl := Option.some.inj (hnext.symm.trans hr')
            exact .inr (hnone q hv)
        cases hhit : hit p with
        | none =>
          rw [hhit] at hscan
          exact .inr ⟨fun q hq => (hrest q hq).elim (fun he => he ▸ hhit) id, hscan⟩
        | some v =>
          rw [hhit] at hscan
          refine .inl ⟨p, v, ⟨.refl, hhit, fun r' w hr' hw => ?_⟩, hscan⟩
          rcases hrest r' hr' with he | he
          · exact he.le
          · exact absurd (hw.symm.trans he) (by simp)

theorem Bounded.scan_eq_some_iff (h : Bounded next hit n) {fuel : Nat} (hf : n ≤ p + fuel) {v : β} :
    scan next hit fuel p none = some v ↔ ∃ q, LastHit next hit p q v := by
  rcases h.scan_spec hf none with ⟨q, w, hq, hscan⟩ | ⟨hnone, hscan⟩
  · rw [hscan]
    constructor
    · rintro ⟨⟩
      exact ⟨q, hq⟩
    · rintro ⟨r, hr⟩
      exact congrArg some (hq.unique hr).2
  · rw [hscan]
    refine ⟨nofun, fun ⟨q, hq⟩ => ?_⟩
    exact absurd ((hnone q hq.visited).symm.trans hq.value) (by simp)

theorem Bounded.scan_ne_none_iff (h : Bounded next hit n) {fuel : Nat} (hf : n ≤ p + fuel) :
    scan next hit fuel p none ≠ none ↔ ∃ q v, Visits next p q ∧ hit q = some v := by
  rcases h.scan_spec hf none with ⟨q, v, hq, hscan⟩ | ⟨hnone, hscan⟩
  · rw [hscan]
    exact iff_of_true nofun ⟨q, v, hq.visited, hq.value⟩
  · rw [hscan]
    refine iff_of_false (fun h => h rfl) ?_
    rintro ⟨q, v, hq, hv⟩
    exact absurd ((hnone q hq).symm.trans hv) nofun

theorem scan_map {γ : Type*} (f : β → γ) (next : Nat → Option Nat) (hit : Nat → Option β)
    (fuel p : Nat) (a : Option β) :
    scan next (fun q => (hit q).map f) fuel p (a.map f) = (scan next hit fuel p a).map f := by
  induction fuel generalizing p a with
  | zero => rfl
  | succ fuel ih =>
    have hor : ((hit p).map f).or (a.map f) = ((hit p).or a).map f := by
      cases hit p <;> rfl
    rw [scan, scan, hor]
    cases next p with
    | none => rfl
    | some q => exact ih q _

/-- Two walks of which the first hits all that the second does agree
exactly when the last hit of the first is one of the second too, or has the
value of the second's last. -/
theorem scan_eq_scan_iff (h : Bounded next hit n) (h' : Bounded next' hit' n) {fuel : Nat}
    (hf : n ≤ p + fuel)
    (hsub : ∀ q v, Visits next' p q → hit' q = some v → Visits next p q ∧ hit q = some v) :
    scan next hit fuel p none = scan next' hit' fuel p none
      ↔ ∀ q v, LastHit next hit p q v → ¬ (Visits next' p q ∧ hit' q = some v) →
        ∃ g, LastHit next' hit' p g v := by
  constructor
  · intro heq q v hq _
    exact (h'.scan_eq_some_iff hf).mp (heq ▸ (h.scan_eq_some_iff hf).mpr ⟨q, hq⟩)
  · intro hcond
    rcases h.scan_spec hf none with ⟨q, v, hq, hscan⟩ | ⟨hnone, hscan⟩
    · rw [hscan, eq_comm, h'.scan_eq_some_iff hf]
      by_cases hboth : Visits next' p q ∧ hit' q = some v
      · refine ⟨q, hboth.1, hboth.2, fun r w hr hw => ?_⟩
        obtain ⟨hr', hw'⟩ := hsub r w hr hw
        exact hq.last r w hr' hw'
      · exact hcond q v hq hboth
    · rw [hscan, eq_comm]
      rcases h'.scan_spec hf none with ⟨g, w, hg, -⟩ | ⟨-, hscan'⟩
      · obtain ⟨hv, hw⟩ := hsub g w hg.visited hg.value
        exact absurd ((hnone g hv).symm.trans hw) (by simp)
      · exact hscan'

end Obsd.Walk
