import Obsd.Amap

/-!
# The slots of an amap

`am_slots` lists the slots that have an anon and `am_bckptr` is its
inverse. Taking an anon out moves the last slot of the list into the gap;
`dropSlot_inv` is that step, and both ways of wiping out a range are
repetitions of it.
-/

namespace Obsd.Amap

variable {am am' : VmAmap} {s s' : State} {slot lo hi : Nat}

/-! ## The invariant -/

structure SlotInv (am : VmAmap) : Prop where
  size : am.amNslot ≤ am.amMaxslot
  used : ∀ i < am.amNused, am.amSlots i < am.amNslot ∧ (am.amAnon (am.amSlots i)).isSome
    ∧ am.amBckptr (am.amSlots i) = i
  back : ∀ slot < am.amNslot, (am.amAnon slot).isSome →
    am.amBckptr slot < am.amNused ∧ am.amSlots (am.amBckptr slot) = slot
  tail : ∀ slot, am.amNslot ≤ slot → slot < am.amMaxslot → am.amAnon slot = none

/-- Only the slots and what is in them differ. -/
structure SameMap (am am' : VmAmap) : Prop where
  eq : am' = { am with
    amNused := am'.amNused
    amSlots := am'.amSlots
    amBckptr := am'.amBckptr
    amAnon := am'.amAnon }

theorem SameMap.refl (am : VmAmap) : SameMap am am := ⟨rfl⟩

theorem SameMap.trans {am₁ am₂ am₃ : VmAmap} (h : SameMap am₁ am₂) (h' : SameMap am₂ am₃) :
    SameMap am₁ am₃ := by
  obtain ⟨he⟩ := h
  obtain ⟨he'⟩ := h'
  rw [he] at he'
  exact ⟨he'⟩

theorem SameMap.nslot (h : SameMap am am') : am'.amNslot = am.amNslot := by rw [h.eq]

/-! ## Taking out one anon -/

theorem dropSlot_same (am : VmAmap) (slot : Nat) :
    SameMap am (dropSlot am slot) ∧ (dropSlot am slot).amAnon = Function.update am.amAnon slot none
      ∧ (dropSlot am slot).amNused = am.amNused - 1 := by
  rw [dropSlot]
  split
  · exact ⟨⟨rfl⟩, rfl, rfl⟩
  · exact ⟨⟨rfl⟩, rfl, rfl⟩

/-- The list of slots without one: the last takes its place. -/
theorem dropSlot_arrays (am : VmAmap) (slot : Nat) :
    (am.amBckptr slot = am.amNused - 1 ∧ (dropSlot am slot).amSlots = am.amSlots
      ∧ (dropSlot am slot).amBckptr = am.amBckptr)
    ∨ (am.amBckptr slot ≠ am.amNused - 1
      ∧ (dropSlot am slot).amSlots
        = Function.update am.amSlots (am.amBckptr slot) (am.amSlots (am.amNused - 1))
      ∧ (dropSlot am slot).amBckptr
        = Function.update am.amBckptr (am.amSlots (am.amNused - 1)) (am.amBckptr slot)) := by
  by_cases hptr : am.amBckptr slot = am.amNused - 1
  · refine .inl ⟨hptr, ?_, ?_⟩
    · rw [dropSlot]
      rw [if_neg fun h => h hptr]
    · rw [dropSlot]
      rw [if_neg fun h => h hptr]
  · refine .inr ⟨hptr, ?_, ?_⟩
    · rw [dropSlot]
      rw [if_pos hptr]
    · rw [dropSlot]
      dsimp only
      rw [if_pos hptr, Function.update_self]

theorem dropSlot_inv (h : SlotInv am) (hslot : slot < am.amNslot) (hsome : (am.amAnon slot).isSome) :
    SlotInv (dropSlot am slot) := by
  obtain ⟨hptr, hback⟩ := h.back slot hslot hsome
  obtain ⟨hsame, hanon, hused⟩ := dropSlot_same am slot
  have hns := hsame.nslot
  have hms : (dropSlot am slot).amMaxslot = am.amMaxslot := by rw [hsame.eq]
  obtain ⟨hlast, hlsome, hlback⟩ := h.used (am.amNused - 1) (by omega)
  have hother : ∀ i < am.amNused, i ≠ am.amBckptr slot → am.amSlots i ≠ slot := by
    rintro i hi hne rfl
    exact hne (h.used i hi).2.2.symm
  refine ⟨?_, fun i hi => ?_, fun t ht htsome => ?_, fun t ht htm => ?_⟩
  · rw [hns, hms]
    exact h.size
  · rw [hns, hanon]
    obtain ⟨hin, hisome, hiback⟩ := h.used i (by omega)
    obtain ⟨hlastptr, hslots, hbck⟩ | ⟨hptrne, hslots, hbck⟩ := dropSlot_arrays am slot
    · rw [hslots, hbck, Function.update_of_ne (hother i (by omega) (by omega))]
      exact ⟨hin, hisome, hiback⟩
    · rw [hslots, hbck]
      by_cases hip : i = am.amBckptr slot
      · -- the gap has been filled
        rw [← hip, Function.update_self, Function.update_self,
          Function.update_of_ne (hother (am.amNused - 1) (by omega) (Ne.symm hptrne))]
        exact ⟨hlast, hlsome, rfl⟩
      · have hnl : am.amSlots i ≠ am.amSlots (am.amNused - 1) := by
          intro he
          rw [he, hlback] at hiback
          omega
        rw [Function.update_of_ne hip, Function.update_of_ne (hother i (by omega) hip),
          Function.update_of_ne hnl]
        exact ⟨hin, hisome, hiback⟩
  · rw [hns] at ht
    rw [hanon] at htsome
    have hts : t ≠ slot := by
      rintro rfl
      rw [Function.update_self] at htsome
      cases htsome
    rw [Function.update_of_ne hts] at htsome
    obtain ⟨htp, htback⟩ := h.back t ht htsome
    have htne : am.amBckptr t ≠ am.amBckptr slot := by
      intro he
      rw [he, hback] at htback
      exact hts htback.symm
    obtain ⟨hlastptr, hslots, hbck⟩ | ⟨hptrne, hslots, hbck⟩ := dropSlot_arrays am slot
    · rw [hslots, hbck]
      exact ⟨by omega, htback⟩
    · rw [hslots, hbck]
      by_cases htl : t = am.amSlots (am.amNused - 1)
      · rw [← htl, Function.update_self, Function.update_self]
        exact ⟨by omega, rfl⟩
      · have hpl : am.amBckptr t ≠ am.amNused - 1 := by
          intro he
          rw [he] at htback
          exact htl htback.symm
        rw [Function.update_of_ne htl, Function.update_of_ne htne]
        exact ⟨by omega, htback⟩
  · rw [hns] at ht
    rw [hms] at htm
    rw [hanon, Function.update_of_ne (by omega)]
    exact h.tail t ht htm

/-! ## Wiping out a range -/

/-- `am'` is `am` without the anons of a range. -/
structure Wiped (am am' : VmAmap) (lo hi : Nat) : Prop where
  same : SameMap am am'
  anon : ∀ slot, am'.amAnon slot = if lo ≤ slot ∧ slot < hi then none else am.amAnon slot
  inv : SlotInv am'

theorem wipeByAnon_spec (n : Nat) : ∀ {slot : Nat} {s : State}, SlotInv s.am → slot + n ≤ s.am.amNslot →
    Wiped s.am (wipeByAnon n slot s).am slot (slot + n) := by
  induction n with
  | zero =>
    intro slot s h _
    refine ⟨.refl _, fun t => ?_, h⟩
    rw [if_neg (by omega)]
    rfl
  | succ n ih =>
    intro slot s h hle
    rw [wipeByAnon]
    cases hanon : s.am.amAnon slot with
    | none =>
      obtain ⟨hsame, hres, hinv⟩ := ih h (by omega : slot + 1 + n ≤ s.am.amNslot)
      refine ⟨hsame, fun t => ?_, hinv⟩
      rw [hres]
      by_cases ht : t = slot
      · rw [if_neg (by omega), if_pos (by omega), ht, hanon]
      · by_cases hin : slot ≤ t ∧ t < slot + (n + 1)
        · rw [if_pos (by omega), if_pos hin]
        · rw [if_neg (by omega), if_neg hin]
    | some anon =>
      obtain ⟨hdsame, hdanon, -⟩ := dropSlot_same s.am slot
      have hd : SlotInv (wipeSlot s slot anon).am :=
        dropSlot_inv h (by omega) (hanon ▸ rfl)
      have hns : (wipeSlot s slot anon).am.amNslot = s.am.amNslot := hdsame.nslot
      obtain ⟨hsame, hres, hinv⟩ := ih hd (by omega : slot + 1 + n ≤ (wipeSlot s slot anon).am.amNslot)
      refine ⟨hdsame.trans hsame, fun t => ?_, hinv⟩
      have hdt : (wipeSlot s slot anon).am.amAnon t = Function.update s.am.amAnon slot none t :=
        congrFun hdanon t
      rw [hres, hdt]
      by_cases ht : t = slot
      · rw [if_neg (by omega), if_pos (by omega), ht, Function.update_self]
      · rw [Function.update_of_ne ht]
        by_cases hin : slot ≤ t ∧ t < slot + (n + 1)
        · rw [if_pos (by omega), if_pos hin]
        · rw [if_neg (by omega), if_neg hin]

/-- Up to `lcv` the list holds slots outside the range; taking one out moves another that was
not looked at yet into its place. -/
theorem wipeBySlots_spec (n : Nat) : ∀ {lcv : Nat} {s : State}, SlotInv s.am → hi ≤ s.am.amNslot →
    lcv + n = s.am.amNused → (∀ i < lcv, s.am.amSlots i < lo ∨ hi ≤ s.am.amSlots i) →
    ∃ s', wipeBySlots lo hi n lcv s = some s' ∧ Wiped s.am s'.am lo hi := by
  induction n with
  | zero =>
    intro lcv s h hle hn hout
    refine ⟨s, rfl, .refl _, fun t => ?_, h⟩
    by_cases hin : lo ≤ t ∧ t < hi
    · rw [if_pos hin]
      -- an anon left in the range would be on the list
      cases ht : s.am.amAnon t with
      | none => rfl
      | some anon =>
        obtain ⟨hb, hbs⟩ := h.back t (by omega) (ht ▸ rfl)
        have hrange := hout (s.am.amBckptr t) (by omega)
        omega
    · rw [if_neg hin]
  | succ n ih =>
    intro lcv s h hle hn hout
    rw [wipeBySlots]
    obtain ⟨hlt, hsome, hbck⟩ := h.used lcv (by omega)
    split
    · rename_i hskip
      refine ih h hle (by omega) fun i hi' => ?_
      by_cases hil : i = lcv
      · rw [hil]
        exact hskip
      · exact hout i (by omega)
    · rename_i hin
      obtain ⟨anon, hanon⟩ := Option.isSome_iff_exists.mp hsome
      rw [hanon]
      obtain ⟨hdsame, hdanon, hdused⟩ := dropSlot_same s.am (s.am.amSlots lcv)
      have hd : SlotInv (wipeSlot s (s.am.amSlots lcv) anon).am := dropSlot_inv h hlt hsome
      have hns : (wipeSlot s (s.am.amSlots lcv) anon).am.amNslot = s.am.amNslot := hdsame.nslot
      have hnu : (wipeSlot s (s.am.amSlots lcv) anon).am.amNused = s.am.amNused - 1 := hdused
      have hbefore : ∀ i < lcv, (wipeSlot s (s.am.amSlots lcv) anon).am.amSlots i < lo
          ∨ hi ≤ (wipeSlot s (s.am.amSlots lcv) anon).am.amSlots i := by
        intro i hi'
        have hkeep : (dropSlot s.am (s.am.amSlots lcv)).amSlots i = s.am.amSlots i := by
          obtain ⟨-, hslots, -⟩ | ⟨-, hslots, -⟩ := dropSlot_arrays s.am (s.am.amSlots lcv)
          · rw [hslots]
          · rw [hslots, hbck, Function.update_of_ne (by omega)]
        change (dropSlot s.am (s.am.amSlots lcv)).amSlots i < lo
          ∨ hi ≤ (dropSlot s.am (s.am.amSlots lcv)).amSlots i
        rw [hkeep]
        exact hout i hi'
      obtain ⟨s', hs', hsame, hres, hinv⟩ := ih hd (by omega) (by omega) hbefore
      refine ⟨s', hs', hdsame.trans hsame, fun t => ?_, hinv⟩
      have hdt : (wipeSlot s (s.am.amSlots lcv) anon).am.amAnon t
          = Function.update s.am.amAnon (s.am.amSlots lcv) none t := congrFun hdanon t
      rw [hres, hdt]
      by_cases ht : t = s.am.amSlots lcv
      · rw [if_pos (by omega), if_pos (by omega)]
      · rw [Function.update_of_ne ht]

theorem wiperange_spec (h : SlotInv s.am) {slotoff slots : Nat} (hle : slotoff + slots ≤ s.am.amNslot) :
    ∃ s', amapWiperange s slotoff slots = some s' ∧ Wiped s.am s'.am slotoff (slotoff + slots) := by
  rw [amapWiperange]
  split
  · exact ⟨_, rfl, wipeByAnon_spec slots h hle⟩
  · exact wipeBySlots_spec s.am.amNused h hle (Nat.zero_add _) fun i hi' => absurd hi' (Nat.not_lt_zero i)

end Obsd.Amap
