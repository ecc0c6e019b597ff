import Obsd.ByteMap

/-!
# Open addressing

A table of `n` slots that is searched from a key's home slot on, around
the end, up to the first slot that was never used. Slots from which a value
was deleted do not end a search. `Table.Holds` says what the table is for:
every value can be reached from the home of its key without crossing an
empty slot. Putting a value in a slot that a search would stop at, marking
it deleted, and emptying a deleted slot that is followed by an empty one
all keep it.
-/

namespace Obsd

/-- Unused, deleted, or in use. -/
inductive Slot (α : Type) where
  | empty
  | del
  | full (v : α)
deriving DecidableEq

theorem Slot.full_ne_empty {α : Type} (v : α) : Slot.full v ≠ .empty := nofun

namespace OpenTable

variable {α κ : Type} {n h s d fuel : Nat} {t : Nat → Slot α} {stop : Nat → Bool}

/-! ## Going around -/

def wrapIncr (val limit : Nat) : Nat := if val + 1 = limit then 0 else val + 1

def wrapDecr (val limit : Nat) : Nat := if val = 0 then limit - 1 else val - 1

/-- The slot that is `d` after `h`. -/
def after (n h d : Nat) : Nat := (h + d) % n

theorem after_lt (hn : 0 < n) (h d : Nat) : after n h d < n := Nat.mod_lt _ hn

theorem after_zero (hh : h < n) : after n h 0 = h := Nat.mod_eq_of_lt hh

theorem wrapIncr_after (hn : 0 < n) (h d : Nat) : wrapIncr (after n h d) n = after n h (d + 1) := by
  have hlt := after_lt hn h d
  rw [after] at hlt
  rw [wrapIncr, after, after, ← Nat.add_assoc]
  by_cases hend : (h + d) % n + 1 = n
  · rw [if_pos hend, Nat.add_mod, ← Nat.add_mod, Nat.add_mod (h + d) 1 n]
    by_cases hone : n = 1
    · rw [hone, Nat.mod_one]
    · rw [Nat.mod_eq_of_lt (by omega : 1 < n), hend, Nat.mod_self]
  · rw [if_neg hend, Nat.add_mod (h + d) 1 n]
    by_cases hone : n = 1
    · omega
    · rw [Nat.mod_eq_of_lt (by omega : 1 < n), Nat.mod_eq_of_lt (by omega : (h + d) % n + 1 < n)]

/-- Every slot is some way after every other. -/
theorem exists_after (hh : h < n) (hs : s < n) : ∃ d < n, after n h d = s := by
  by_cases hle : h ≤ s
  · refine ⟨s - h, by omega, ?_⟩
    rw [after, Nat.add_sub_cancel' hle, Nat.mod_eq_of_lt hs]
  · refine ⟨n - h + s, by omega, ?_⟩
    rw [after, show h + (n - h + s) = s + n by omega, Nat.add_mod_right, Nat.mod_eq_of_lt hs]

/-! ## Searching -/

/-- The first slot from `s` on at which `stop` holds. -/
def probe (n : Nat) (stop : Nat → Bool) : Nat → Nat → Option Nat
  | 0, _ => none
  | fuel + 1, s => if stop s then some s else probe n stop fuel (wrapIncr s n)

theorem probe_after (hn : 0 < n) : ∀ fuel i, d < fuel → stop (after n h (i + d)) = true →
    (∀ j < d, stop (after n h (i + j)) = false) → probe n stop fuel (after n h i) = some (after n h (i + d)) := by
  induction d with
  | zero =>
    intro fuel i hf hstop _
    cases fuel with
    | zero => omega
    | succ fuel =>
      rw [Nat.add_zero] at hstop
      rw [probe, if_pos hstop, Nat.add_zero]
  | succ d ih =>
    intro fuel i hf hstop hbefore
    cases fuel with
    | zero => omega
    | succ fuel =>
      have hhere : stop (after n h i) = false := hbefore 0 (Nat.succ_pos d)
      rw [probe, hhere, if_neg Bool.false_ne_true, wrapIncr_after hn, Nat.add_comm d 1, ← Nat.add_assoc]
      refine ih fuel (i + 1) (by omega) ?_ fun j hj => ?_
      · rw [Nat.add_assoc, Nat.add_comm 1 d]
        exact hstop
      · rw [Nat.add_assoc, Nat.add_comm 1 j]
        exact hbefore (j + 1) (by omega)

/-- A search ends within one round if there is a slot to stop at, and stops at the first. -/
theorem probe_spec {p : Nat → Bool} (hh : h < n) (hs : s < n) (hstop : p s = true) :
    ∃ d < n, probe n p n h = some (after n h d) ∧ p (after n h d) = true
      ∧ ∀ j < d, p (after n h j) = false := by
  obtain ⟨e, he, rfl⟩ := exists_after hh hs
  have hex : ∃ d, p (after n h d) = true := ⟨e, hstop⟩
  have hmin : ∀ j < Nat.find hex, p (after n h j) = false := fun j hj => Bool.eq_false_iff.mpr (Nat.find_min hex hj)
  have hlt : Nat.find hex < n := Nat.lt_of_le_of_lt (Nat.find_min' hex hstop) he
  refine ⟨Nat.find hex, hlt, ?_, Nat.find_spec hex, hmin⟩
  have hprobe := probe_after (h := h) (d := Nat.find hex) (Nat.zero_lt_of_lt hh) n 0 hlt
    (by rw [Nat.zero_add]; exact Nat.find_spec hex) fun j hj => by rw [Nat.zero_add]; exact hmin j hj
  rwa [after_zero hh, Nat.zero_add] at hprobe

/-! ## What a table holds -/

/-- A search from `h` gets to `s`. -/
def Reach (t : Nat → Slot α) (n h s : Nat) : Prop := ∃ d < n, after n h d = s ∧ ∀ j < d, t (after n h j) ≠ .empty

/-- The table holds the values `ents`, each under its key. -/
structure Holds (t : Nat → Slot α) (n : Nat) (hash : κ → Nat) (ents : α → κ → Prop) : Prop where
  home : ∀ k, hash k < n
  reach : ∀ v k, ents v k → ∃ s < n, t s = .full v ∧ Reach t n (hash k) s
  sound : ∀ s < n, ∀ v, t s = .full v → ∃ k, ents v k
  inj : ∀ s < n, ∀ s' < n, ∀ v, t s = .full v → t s' = .full v → s = s'

variable {hash : κ → Nat} {ents ents' : α → κ → Prop} {v : α} {k : κ}

theorem Reach.update (hr : Reach t n h d) {e : Slot α} (he : e ≠ .empty) : Reach (Function.update t s e) n h d := by
  obtain ⟨i, hi, heq, hbefore⟩ := hr
  refine ⟨i, hi, heq, fun j hj => ?_⟩
  by_cases hjs : after n h j = s
  · rw [hjs, Function.update_self]
    exact he
  · rw [Function.update_of_ne hjs]
    exact hbefore j hj

/-- A value is put where a search for its key may stop. -/
theorem Holds.insert (ht : Holds t n hash ents) (hs : s < n) (hfree : ∀ w, t s ≠ .full w)
    (hr : Reach t n (hash k) s) (hnew : ∀ k', ¬ ents v k') :
    Holds (Function.update t s (.full v)) n hash fun w k' => ents w k' ∨ w = v ∧ k' = k := by
  have hold : ∀ s' < n, s' ≠ s → ∀ w, Function.update t s (.full v) s' = .full w → w ≠ v ∧ t s' = .full w := by
    intro s' hs' hne w hw
    rw [Function.update_of_ne hne] at hw
    refine ⟨?_, hw⟩
    rintro rfl
    obtain ⟨k', hk'⟩ := ht.sound s' hs' w hw
    exact hnew k' hk'
  refine ⟨ht.home, fun w k' hw => ?_, fun s' hs' w hw => ?_, fun a ha b hb w hwa hwb => ?_⟩
  · obtain hw | ⟨rfl, rfl⟩ := hw
    · obtain ⟨s', hs', hfull, hreach⟩ := ht.reach w k' hw
      have hne : s' ≠ s := fun he => hfree w (he ▸ hfull)
      exact ⟨s', hs', by rw [Function.update_of_ne hne]; exact hfull, hreach.update nofun⟩
    · exact ⟨s, hs, Function.update_self .., hr.update nofun⟩
  · by_cases hne : s' = s
    · rw [hne, Function.update_self] at hw
      exact ⟨k, .inr ⟨(Slot.full.inj hw).symm, rfl⟩⟩
    · obtain ⟨k', hk'⟩ := ht.sound s' hs' w (hold s' hs' hne w hw).2
      exact ⟨k', .inl hk'⟩
  · by_cases hae : a = s
    · by_cases hbe : b = s
      · rw [hae, hbe]
      · rw [hae, Function.update_self] at hwa
        exact absurd (Slot.full.inj hwa).symm (hold b hb hbe w hwb).1
    · by_cases hbe : b = s
      · rw [hbe, Function.update_self] at hwb
        exact absurd (Slot.full.inj hwb).symm (hold a ha hae w hwa).1
      · exact ht.inj a ha b hb w (hold a ha hae w hwa).2 (hold b hb hbe w hwb).2

/-- A value is marked deleted. -/
theorem Holds.delete (ht : Holds t n hash ents) (hs : s < n) (hfull : t s = .full v) :
    Holds (Function.update t s .del) n hash fun w k' => ents w k' ∧ w ≠ v := by
  refine ⟨ht.home, fun w k' hw => ?_, fun s' hs' w hw => ?_, fun a ha b hb w hwa hwb => ?_⟩
  · obtain ⟨s', hs', hfull', hreach⟩ := ht.reach w k' hw.1
    have hne : s' ≠ s := by
      rintro rfl
      exact hw.2 (Slot.full.inj (hfull'.symm.trans hfull))
    exact ⟨s', hs', by rw [Function.update_of_ne hne]; exact hfull', hreach.update nofun⟩
  · have hne : s' ≠ s := by
      rintro rfl
      rw [Function.update_self] at hw
      cases hw
    rw [Function.update_of_ne hne] at hw
    obtain ⟨k', hk'⟩ := ht.sound s' hs' w hw
    refine ⟨k', hk', ?_⟩
    rintro rfl
    exact hne (ht.inj s' hs' s hs w hw hfull)
  · have hne : ∀ c, Function.update t s .del c = .full w → c ≠ s := by
      rintro c hc rfl
      rw [Function.update_self] at hc
      cases hc
    have hna := hne a hwa
    have hnb := hne b hwb
    rw [Function.update_of_ne hna] at hwa
    rw [Function.update_of_ne hnb] at hwb
    exact ht.inj a ha b hb w hwa hwb

/-- A deleted slot that is followed by an empty one is emptied: no search goes past it. -/
theorem Holds.clear (ht : Holds t n hash ents) (hs : s < n) (hdel : t s = .del) (hnext : t (wrapIncr s n) = .empty) :
    Holds (Function.update t s .empty) n hash ents := by
  have hn : 0 < n := Nat.zero_lt_of_lt hs
  have hne : ∀ s' w, t s' = .full w → s' ≠ s := by
    rintro s' w hw rfl
    rw [hdel] at hw
    cases hw
  refine ⟨ht.home, fun w k' hw => ?_, fun s' hs' w hw => ?_, fun a ha b hb w hwa hwb => ?_⟩
  · obtain ⟨s', hs', hfull, d, hd, heq, hbefore⟩ := ht.reach w k' hw
    refine ⟨s', hs', by rw [Function.update_of_ne (hne s' w hfull)]; exact hfull, d, hd, heq, fun j hj => ?_⟩
    by_cases hjs : after n (hash k') j = s
    · -- the slot after it would be crossed too, or is the one searched for
      have hcross : t (after n (hash k') (j + 1)) = .empty := by
        rw [← wrapIncr_after hn, hjs]
        exact hnext
      by_cases hlast : j + 1 = d
      · rw [hlast, heq, hfull] at hcross
        cases hcross
      · exact absurd hcross (hbefore (j + 1) (by omega))
    · rw [Function.update_of_ne hjs]
      exact hbefore j hj
  · have hs's : s' ≠ s := by
      rintro rfl
      rw [Function.update_self] at hw
      cases hw
    rw [Function.update_of_ne hs's] at hw
    exact ht.sound s' hs' w hw
  · have hback : ∀ c, Function.update t s .empty c = .full w → t c = .full w := by
      intro c hc
      have hcs : c ≠ s := by
        rintro rfl
        rw [Function.update_self] at hc
        cases hc
      rwa [Function.update_of_ne hcs] at hc
    exact ht.inj a ha b hb w (hback a hwa) (hback b hwb)

/-- Where a value is, a search for its key finds it before any empty slot. -/
theorem Holds.reach_at (ht : Holds t n hash ents) (hs : s < n) (hfull : t s = .full v) (hk : ents v k) :
    Reach t n (hash k) s := by
  obtain ⟨s', hs', hfull', hr⟩ := ht.reach v k hk
  rwa [ht.inj s' hs' s hs v hfull' hfull] at hr

/-- A value takes the place of another under the same key. -/
theorem Holds.replace {v' : α} (ht : Holds t n hash ents) (hs : s < n) (hfull : t s = .full v) (hk : ents v k)
    (hnew : ∀ k', ents v' k' → v' = v) :
    Holds (Function.update t s (.full v')) n hash fun w k' => (ents w k' ∧ w ≠ v) ∨ w = v' ∧ k' = k := by
  have hdel := ht.delete hs hfull
  have hr := ht.reach_at hs hfull hk
  have hins := hdel.insert (v := v') (k := k) hs (fun w hw => by rw [Function.update_self] at hw; cases hw)
    (hr.update nofun) fun k' hk' => hk'.2 (hnew k' hk'.1)
  rwa [Function.update_idem] at hins

/-- What the entries are matters only, not how they are said. -/
theorem Holds.congr (ht : Holds t n hash ents) (h : ∀ v k, ents v k ↔ ents' v k) : Holds t n hash ents' := by
  obtain rfl : ents = ents' := funext fun v => funext fun k => propext (h v k)
  exact ht

/-! ## Slots in use -/

def isEmpty : Slot α → Bool
  | .empty => true
  | _ => false

def isFull : Slot α → Bool
  | .full _ => true
  | _ => false

theorem isEmpty_iff {e : Slot α} : isEmpty e = true ↔ e = .empty := by
  cases e <;> simp [isEmpty]

/-- How many slots were ever used. -/
def used (t : Nat → Slot α) (n : Nat) : Nat := Nat.count (fun s => isEmpty (t s) = false) n

theorem used_fill {e : Slot α} (hs : s < n) (hempty : t s = .empty) (he : e ≠ .empty) :
    used (Function.update t s e) n = used t n + 1 := by
  refine Bytes.count_flip ?_ ?_ (fun j hj => ?_) n hs
  · rw [Function.update_self]
    exact Bool.eq_false_iff.mpr fun h => he (isEmpty_iff.mp h)
  · rw [hempty]
    exact Bool.true_eq_false.mp
  · rw [Function.update_of_ne hj]

theorem used_keep {e : Slot α} (hfull : t s ≠ .empty) (he : e ≠ .empty) :
    used (Function.update t s e) n = used t n := by
  have hsame : (fun j => isEmpty (Function.update t s e j) = false) = fun j => isEmpty (t j) = false := by
    funext j
    by_cases hj : j = s
    · subst hj
      rw [Function.update_self, Bool.eq_false_iff.mpr fun h => he (isEmpty_iff.mp h),
        Bool.eq_false_iff.mpr fun h => hfull (isEmpty_iff.mp h)]
    · rw [Function.update_of_ne hj]
  unfold used
  simp only [hsame]

theorem used_clear (hs : s < n) (hfull : t s ≠ .empty) :
    used t n = used (Function.update t s .empty) n + 1 := by
  have h := used_fill (t := Function.update t s .empty) (e := t s) hs (Function.update_self ..) hfull
  rwa [Function.update_idem, Function.update_eq_self] at h

/-- A table that is not full has a slot at which every search ends. -/
theorem exists_empty (h : used t n < n) : ∃ s < n, t s = .empty := by
  by_contra hno
  push Not at hno
  refine Nat.ne_of_lt h (Nat.count_iff_forall.mpr fun s hs => ?_)
  exact Bool.eq_false_iff.mpr fun he => hno s hs (isEmpty_iff.mp he)

/-- A full table has none. -/
theorem full_of_used (h : used t n = n) (hs : s < n) : t s ≠ .empty := by
  intro hempty
  have hfull := Nat.count_iff_forall.mp h s hs
  rw [isEmpty_iff.mpr hempty] at hfull
  cases hfull

/-- A search that has nowhere to stop does not end. -/
theorem probe_none (hall : ∀ s < n, stop s = false) (hh : h < n) : probe n stop fuel h = none := by
  induction fuel generalizing h with
  | zero => rfl
  | succ fuel ih =>
    have hnext : wrapIncr h n < n := by
      unfold wrapIncr
      split <;> omega
    rw [probe, hall h hh, if_neg Bool.false_ne_true, ih hnext]

/-! ## Searches that end at a value or at a free slot -/

/-- A search for a value that can be reached gets to it before it gets to an empty slot. -/
theorem Reach.probe [DecidableEq α] (hr : Reach t n h s) (hh : h < n) (hs : s < n) (hfull : t s = .full v) :
    ∃ s' < n, OpenTable.probe n (fun i => decide (t i = .full v) || isEmpty (t i)) n h = some s'
      ∧ t s' = .full v := by
  obtain ⟨e, he, rfl, hbefore⟩ := hr
  obtain ⟨d, hd, heq, hstop, hpass⟩ := probe_spec (p := fun i => decide (t i = .full v) || isEmpty (t i)) hh hs
    (by simp [hfull])
  refine ⟨_, after_lt (Nat.zero_lt_of_lt hh) h d, heq, ?_⟩
  have hle : d ≤ e := by
    by_contra hlt
    have hno := hpass e (by omega)
    simp [hfull] at hno
  by_cases hde : d = e
  · rw [hde]
    exact hfull
  · have hne := hbefore d (by omega)
    rcases (Bool.or_eq_true _ _).mp hstop with hv | hempty
    · exact of_decide_eq_true hv
    · exact absurd (isEmpty_iff.mp hempty) hne

/-- A search for a free slot ends at one that the key can be put in. -/
theorem probe_free (hstop : ∀ i, t i = .empty → stop i = true) (hpass : ∀ i, stop i = true → ∀ w, t i ≠ .full w)
    (hh : h < n) (hroom : used t n < n) :
    ∃ s < n, probe n stop n h = some s ∧ stop s = true ∧ (∀ w, t s ≠ .full w) ∧ Reach t n h s := by
  obtain ⟨e, he, hempty⟩ := exists_empty hroom
  obtain ⟨d, hd, heq, hat, hbefore⟩ := probe_spec hh he (hstop e hempty)
  refine ⟨_, after_lt (Nat.zero_lt_of_lt hh) h d, heq, hat, hpass _ hat, d, hd, rfl, fun j hj hempty => ?_⟩
  have hno := hbefore j hj
  rw [hstop _ hempty] at hno
  cases hno

theorem wrapIncr_wrapDecr (hs : s < n) : wrapIncr (wrapDecr s n) n = s := by
  unfold wrapIncr wrapDecr
  split <;> split <;> omega

theorem wrapDecr_lt (hs : s < n) : wrapDecr s n < n := by
  unfold wrapDecr
  split <;> omega

end OpenTable

end Obsd
