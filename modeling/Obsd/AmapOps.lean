import Obsd.AmapPpref

/-!
# What the operations on amaps do

One statement for each operation: what becomes of the slots, of the counts
and of the rest. `Counts am g` is that the amap's array of reference
counts, if it has one, says what `g` says.
-/

namespace Obsd.Amap

variable {am am' : VmAmap} {s s' : State} {g : Nat → Int} {slot : Nat}

def Counts (am : VmAmap) (g : Nat → Int) : Prop :=
  match am.amPpref with
  | .array a => Coded a g 0 am.amNslot
  | _ => True

theorem Counts.coded (h : Counts am g) {a : Nat → Int} (hp : am.amPpref = .array a) :
    Coded a g 0 am.amNslot := by
  rw [Counts, hp] at h
  exact h

theorem counts_array {a : Nat → Int} (hp : am.amPpref = .array a) (h : Coded a g 0 am.amNslot) :
    Counts am g := by
  rw [Counts, hp]
  exact h

theorem counts_of_not_inUse (h : am.amPpref.inUse = false) : Counts am g := by
  rw [Counts]
  split
  · rename_i a hp
    rw [hp] at h
    cases h
  · trivial

theorem exists_array (h : am.amPpref.inUse = true) : ∃ a, am.amPpref = .array a := by
  cases hp : am.amPpref with
  | null =>
    rw [hp] at h
    cases h
  | none =>
    rw [hp] at h
    cases h
  | array a => exact ⟨a, rfl⟩

/-! ## Slots -/

theorem SlotInv.congr (h : SlotInv am) (hns : am'.amNslot = am.amNslot) (hms : am'.amMaxslot = am.amMaxslot)
    (hnu : am'.amNused = am.amNused) (hsl : am'.amSlots = am.amSlots) (hbk : am'.amBckptr = am.amBckptr)
    (han : am'.amAnon = am.amAnon) : SlotInv am' := by
  refine ⟨?_, ?_, ?_, ?_⟩
  · rw [hns, hms]
    exact h.size
  · rw [hnu, hns, hsl, hbk, han]
    exact h.used
  · rw [hnu, hns, hsl, hbk, han]
    exact h.back
  · rw [hns, hms, han]
    exact h.tail

theorem replaceAnon_inv (anon : Nat) (h : SlotInv am) (hslot : slot < am.amNslot) (hsome : (am.amAnon slot).isSome) :
    SlotInv { am with amAnon := Function.update am.amAnon slot (some anon) } := by
  have hanon : ∀ t, (Function.update am.amAnon slot (some anon) t).isSome = (am.amAnon t).isSome := by
    intro t
    by_cases ht : t = slot
    · rw [ht, Function.update_self, hsome]
      rfl
    · rw [Function.update_of_ne ht]
  refine ⟨h.size, fun i hi => ?_, fun t ht htsome => ?_, fun t ht htm => ?_⟩
  · obtain ⟨hin, hisome, hback⟩ := h.used i hi
    exact ⟨hin, (hanon _).trans hisome, hback⟩
  · exact h.back t ht ((hanon t).symm.trans htsome)
  · change Function.update am.amAnon slot (some anon) t = none
    have hlt : am.amNslot ≤ t := ht
    rw [Function.update_of_ne (by omega)]
    exact h.tail t ht htm

/-- A slot that was free is added to the list. -/
theorem addSlot_inv (anon : Nat) (h : SlotInv am) (hslot : slot < am.amNslot) (hnone : am.amAnon slot = none) :
    SlotInv { am with
      amBckptr := Function.update am.amBckptr slot am.amNused
      amSlots := Function.update am.amSlots am.amNused slot
      amNused := am.amNused + 1
      amAnon := Function.update am.amAnon slot (some anon) } := by
  have hfree : ∀ i < am.amNused, am.amSlots i ≠ slot := by
    rintro i hi rfl
    have hsome := (h.used i hi).2.1
    rw [hnone] at hsome
    cases hsome
  refine ⟨h.size, fun i hi => ?_, fun t ht htsome => ?_, fun t ht htm => ?_⟩
  · have hi : i < am.amNused + 1 := hi
    change Function.update am.amSlots am.amNused slot i < am.amNslot
      ∧ (Function.update am.amAnon slot (some anon) (Function.update am.amSlots am.amNused slot i)).isSome
      ∧ Function.update am.amBckptr slot am.amNused (Function.update am.amSlots am.amNused slot i) = i
    by_cases hil : i = am.amNused
    · subst hil
      rw [Function.update_self, Function.update_self, Function.update_self]
      exact ⟨hslot, rfl, rfl⟩
    · have hlt : i < am.amNused := by omega
      rw [Function.update_of_ne hil, Function.update_of_ne (hfree i hlt), Function.update_of_ne (hfree i hlt)]
      exact h.used i hlt
  · change Function.update am.amBckptr slot am.amNused t < am.amNused + 1
      ∧ Function.update am.amSlots am.amNused slot (Function.update am.amBckptr slot am.amNused t) = t
    have htsome : (Function.update am.amAnon slot (some anon) t).isSome := htsome
    by_cases hts : t = slot
    · rw [hts, Function.update_self, Function.update_self]
      exact ⟨Nat.lt_succ_self _, rfl⟩
    · rw [Function.update_of_ne hts] at htsome
      obtain ⟨hb, hbs⟩ := h.back t ht htsome
      rw [Function.update_of_ne hts, Function.update_of_ne (by omega)]
      exact ⟨by omega, hbs⟩
  · change Function.update am.amAnon slot (some anon) t = none
    have hlt : am.amNslot ≤ t := ht
    rw [Function.update_of_ne (by omega)]
    exact h.tail t ht htm

/-! ## Counts -/

/-- `am'` is `am` with the counts `g`, and without the anons of a range that count for nothing. -/
structure Recounted (am am' : VmAmap) (g : Nat → Int) (lo hi : Nat) : Prop where
  eq : am' = { am with
    amNused := am'.amNused
    amSlots := am'.amSlots
    amBckptr := am'.amBckptr
    amAnon := am'.amAnon
    amPpref := am'.amPpref }
  anon : ∀ slot, am'.amAnon slot = if (lo ≤ slot ∧ slot < hi) ∧ g slot = 0 then none else am.amAnon slot
  inv : SlotInv am'
  counts : Counts am' g
  inUse : am'.amPpref.inUse = true

theorem Recounted.nslot {lo hi : Nat} (h : Recounted am am' g lo hi) : am'.amNslot = am.amNslot := by
  rw [h.eq]

theorem adjref_recounted (curslot slotlen : Nat) (adjval : Int) (hp : s.am.amPpref.inUse = true)
    (hc : Counts s.am g) (hinv : SlotInv s.am) (hle : curslot + slotlen ≤ s.am.amNslot) :
    (∃ i, curslot ≤ i ∧ i < curslot + slotlen ∧ g i + adjval < 0
      ∧ amapPpAdjref s curslot slotlen adjval = none)
    ∨ ∃ s', amapPpAdjref s curslot slotlen adjval = some s'
      ∧ Recounted s.am s'.am (adjusted g curslot (curslot + slotlen) adjval) curslot (curslot + slotlen) := by
  obtain ⟨a, ha⟩ := exists_array hp
  obtain hneg | ⟨a', s', hs', hcoded, hwiped⟩ := adjref_spec ha (hc.coded ha) hinv hle
  · exact .inl hneg
  · refine .inr ⟨_, hs', ?_, hwiped.anon, hwiped.inv.congr rfl rfl rfl rfl rfl rfl, ?_, rfl⟩
    · have heq := hwiped.same.eq
      rw [heq]
    · refine counts_array rfl ?_
      rw [show s'.am.amNslot = s.am.amNslot from hwiped.same.nslot]
      exact hcoded

/-- Adding to counts always works, and leaves the anons alone. -/
theorem adjref_up (curslot slotlen : Nat) (hp : s.am.amPpref.inUse = true) (hc : Counts s.am g)
    (hinv : SlotInv s.am) (hle : curslot + slotlen ≤ s.am.amNslot) :
    ∃ s', amapPpAdjref s curslot slotlen 1 = some s'
      ∧ Recounted s.am s'.am (adjusted g curslot (curslot + slotlen) 1) curslot (curslot + slotlen)
      ∧ s'.am.amAnon = s.am.amAnon := by
  obtain ⟨a, ha⟩ := exists_array hp
  have hnn := (hc.coded ha).nonneg
  obtain ⟨i, hi, hi', hneg, -⟩ | ⟨s', hs', hrec⟩ := adjref_recounted curslot slotlen 1 hp hc hinv hle
  · have h0 := hnn i (Nat.zero_le _) (by omega)
    omega
  · refine ⟨s', hs', hrec, ?_⟩
    funext t
    rw [hrec.anon, if_neg]
    rintro ⟨hin, hz⟩
    have h0 := hnn t (Nat.zero_le _) (by omega)
    rw [adjusted, if_pos hin] at hz
    omega

theorem establish_counts (h : SlotInv am) (href : 0 ≤ am.amRef) :
    Counts (amapPpEstablish am true) (fun _ => am.amRef) ∧ SlotInv (amapPpEstablish am true) := by
  refine ⟨?_, h.congr rfl rfl rfl rfl rfl rfl⟩
  rw [amapPpEstablish, if_pos rfl]
  refine counts_array rfl ?_
  by_cases hz : am.amNslot = 0
  · rw [hz]
    exact .done 0
  · have hsingle := Coded.single (g := fun _ => am.amRef) (Nat.one_le_iff_ne_zero.mpr hz)
      (setreflen_chunk (fun _ => 0) 0 am.amRef am.amNslot) href fun _ _ _ => rfl
    rwa [Nat.zero_add] at hsingle

/-- `am'` is `am` with the counts `g`, if it counts, and then without the anons of a range that
count for nothing. -/
structure Settled (am am' : VmAmap) (g : Nat → Int) (lo hi : Nat) : Prop where
  eq : am' = { am with
    amNused := am'.amNused
    amSlots := am'.amSlots
    amBckptr := am'.amBckptr
    amAnon := am'.amAnon
    amPpref := am'.amPpref }
  inv : SlotInv am'
  counts : Counts am' g
  use : am'.amPpref.inUse = am.amPpref.inUse
  null : am'.amPpref.isNull = am.amPpref.isNull
  anon : ∀ slot, am'.amAnon slot
    = if am.amPpref.inUse = true ∧ (lo ≤ slot ∧ slot < hi) ∧ g slot = 0 then none else am.amAnon slot

/-- Counting a reference, in an amap that may not count. -/
theorem settle_spec (lo n : Nat) (adjval : Int) (hc : Counts s.am g) (hinv : SlotInv s.am)
    (hle : lo + n ≤ s.am.amNslot) :
    (∃ i, lo ≤ i ∧ i < lo + n ∧ g i + adjval < 0 ∧ s.am.amPpref.inUse = true
      ∧ amapPpAdjref s lo n adjval = none)
    ∨ ∃ s', (if s.am.amPpref.inUse then amapPpAdjref s lo n adjval else some s) = some s'
      ∧ Settled s.am s'.am (adjusted g lo (lo + n) adjval) lo (lo + n) := by
  by_cases hp : s.am.amPpref.inUse = true
  · obtain ⟨i, hlo, hhi, hneg, hnone⟩ | ⟨s', hs', hrec⟩ := adjref_recounted lo n adjval hp hc hinv hle
    · exact .inl ⟨i, hlo, hhi, hneg, hp, hnone⟩
    · obtain ⟨a, ha⟩ := exists_array hrec.inUse
      obtain ⟨a₀, ha₀⟩ := exists_array hp
      refine .inr ⟨s', by rw [if_pos hp, hs'], hrec.eq, hrec.inv, hrec.counts, hrec.inUse.trans hp.symm, ?_, fun t => ?_⟩
      · rw [ha, ha₀]
        rfl
      · rw [hrec.anon]
        by_cases hz : (lo ≤ t ∧ t < lo + n) ∧ adjusted g lo (lo + n) adjval t = 0
        · rw [if_pos hz, if_pos ⟨hp, hz⟩]
        · rw [if_neg hz, if_neg fun h => hz h.2]
  · refine .inr ⟨s, by rw [if_neg hp], rfl, hinv, counts_of_not_inUse (Bool.eq_false_iff.mpr hp), rfl, rfl, fun t => ?_⟩
    rw [if_neg fun h => hp h.1]

/-! ## Growing -/

theorem le_bucket (sz n : Nat) : ∀ b, sz ≤ 2 ^ (b + n) → sz ≤ bucket sz n b := by
  induction n with
  | zero =>
    intro b hle
    exact hle
  | succ n ih =>
    intro b hle
    rw [bucket]
    split
    · assumption
    · refine ih (b + 1) ?_
      rwa [Nat.add_right_comm, Nat.add_assoc]

theorem le_roundSlots (slots : Nat) : slots ≤ roundSlots slots := by
  have hround : slots * mallocSlotUnit ≤ mallocRoundup (slots * mallocSlotUnit) := by
    rw [mallocRoundup]
    split
    · simp only [pageSize]
      omega
    · rename_i hsmall
      refine le_bucket _ 15 4 ?_
      simp only [pageSize] at hsmall
      omega
  rw [roundSlots, Nat.le_div_iff_mul_le (by decide)]
  exact hround

theorem setNslot_inv (h : SlotInv am) {n : Nat} (hle : am.amNslot ≤ n) (hmax : n ≤ am.amMaxslot) :
    SlotInv { am with amNslot := n } := by
  refine ⟨hmax, fun i hi => ?_, fun t ht htsome => ?_, fun t ht htm => ?_⟩
  · obtain ⟨hin, hrest⟩ := h.used i hi
    exact ⟨Nat.lt_of_lt_of_le hin hle, hrest⟩
  · have ht : t < n := ht
    have htsome : (am.amAnon t).isSome := htsome
    by_cases hlt : t < am.amNslot
    · exact h.back t hlt htsome
    · rw [h.tail t (by omega) (by omega)] at htsome
      cases htsome
  · exact h.tail t (Nat.le_trans hle ht) htm

theorem growArrays_inv (h : SlotInv am) {slotalloc : Nat} (hle : am.amNslot ≤ slotalloc) (junk : Nat → Nat) :
    SlotInv (growArrays am slotalloc junk) := by
  refine ⟨hle, fun i hi => ?_, fun t ht htsome => ?_, fun t ht htm => ?_⟩
  · have hi : i < am.amNused := hi
    obtain ⟨hin, hisome, hback⟩ := h.used i hi
    simp only [growArrays, if_pos hi, if_pos hin]
    exact ⟨hin, hisome, hback⟩
  · have ht : t < am.amNslot := ht
    simp only [growArrays, if_pos ht] at htsome ⊢
    obtain ⟨hb, hbs⟩ := h.back t ht htsome
    rw [if_pos hb]
    exact ⟨hb, hbs⟩
  · have ht : am.amNslot ≤ t := ht
    simp only [growArrays, if_neg (Nat.not_lt.mpr ht)]

theorem growArrays_inUse (am : VmAmap) (slotalloc : Nat) (junk : Nat → Nat) :
    (growArrays am slotalloc junk).amPpref.inUse = am.amPpref.inUse
      ∧ (growArrays am slotalloc junk).amPpref.isNull = am.amPpref.isNull := by
  simp only [growArrays]
  cases am.amPpref with
  | null => exact ⟨rfl, rfl⟩
  | none => exact ⟨rfl, rfl⟩
  | array a => exact ⟨rfl, rfl⟩

theorem growArrays_counts (h : Counts am g) (slotalloc : Nat) (junk : Nat → Nat) :
    Counts (growArrays am slotalloc junk) g := by
  cases hp : am.amPpref with
  | null => exact counts_of_not_inUse (by rw [(growArrays_inUse am slotalloc junk).1, hp]; rfl)
  | none => exact counts_of_not_inUse (by rw [(growArrays_inUse am slotalloc junk).1, hp]; rfl)
  | array a =>
    refine counts_array (a := fun i => if i < am.amNslot then a i else 0) (by simp only [growArrays, hp]) ?_
    exact (h.coded hp).congr (fun i _ hi => if_pos hi) fun _ _ _ => rfl

/-- The counts when the reference that ends at `slotend` goes on to `slotneed`: the slots from
`nslot` on are new. -/
def grown (g : Nat → Int) (slotend slotneed nslot slot : Nat) : Int :=
  if nslot ≤ slot then 1 else adjusted g slotend slotneed 1 slot

/-- What `extendPpref` does: the chunk of the new slots comes after the old ones. -/
theorem extendPpref_spec {slotend slotneed : Nat} (hp : s.am.amPpref.inUse = true) (hc : Counts s.am g)
    (hinv : SlotInv s.am) (hend : slotend ≤ s.am.amNslot) (hneed : s.am.amNslot < slotneed) :
    ∃ (s' : State) (a : Nat → Int), extendPpref s slotend slotneed = some s'
      ∧ s'.am = { s.am with
        amNused := s'.am.amNused
        amSlots := s'.am.amSlots
        amBckptr := s'.am.amBckptr
        amPpref := .array a }
      ∧ SlotInv s'.am ∧ Coded a (grown g slotend slotneed s.am.amNslot) 0 slotneed := by
  have hold : ∃ s₁, (if slotend < s.am.amNslot then amapPpAdjref s slotend (s.am.amNslot - slotend) 1 else some s)
        = some s₁ ∧ Recounted s.am s₁.am (adjusted g slotend s.am.amNslot 1) slotend s.am.amNslot
      ∧ s₁.am.amAnon = s.am.amAnon := by
    split
    · have hto : slotend + (s.am.amNslot - slotend) = s.am.amNslot := by omega
      obtain ⟨s₁, hs₁, hrec, hanon⟩ := adjref_up slotend (s.am.amNslot - slotend) hp hc hinv (Nat.le_of_eq hto)
      rw [hto] at hrec
      exact ⟨s₁, hs₁, hrec, hanon⟩
    · obtain rfl : slotend = s.am.amNslot := by omega
      refine ⟨s, rfl, ⟨rfl, fun t => ?_, hinv, ?_, hp⟩, rfl⟩
      · rw [if_neg (by omega)]
      · obtain ⟨a, ha⟩ := exists_array hp
        refine counts_array ha ((hc.coded ha).congr (fun _ _ _ => rfl) fun i _ hi => ?_)
        rw [adjusted, if_neg (by omega)]
  obtain ⟨s₁, hs₁, hrec, hanon⟩ := hold
  obtain ⟨a, ha⟩ := exists_array hrec.inUse
  have hns := hrec.nslot
  have hcoded := hrec.counts.coded ha
  rw [hns] at hcoded
  have hlen : ((slotneed : Int) - s.am.amNslot) = ((slotneed - s.am.amNslot : Nat) : Int) := by omega
  refine ⟨{ s₁ with am := { s₁.am with
      amPpref := .array (ppSetreflen a s.am.amNslot 1 ((slotneed : Int) - s.am.amNslot)) } },
    ppSetreflen a s.am.amNslot 1 ((slotneed : Int) - s.am.amNslot), ?_, ?_, ?_, ?_⟩
  · rw [extendPpref, hs₁, Option.map_some, ha]
    rw [hns]
  · have heq := hrec.eq
    rw [hanon] at heq
    rw [heq]
  · exact hrec.inv.congr rfl rfl rfl rfl rfl rfl
  · rw [hlen]
    have hnew : grown g slotend slotneed s.am.amNslot s.am.amNslot = 1 := if_pos le_rfl
    refine .append (q := s.am.amNslot) (hcoded.congr (fun i _ hi => ?_) fun i _ hi => ?_) ?_
    · exact setreflen_frame a _ 1 (by omega) (.inl hi)
    · rw [grown, if_neg (by omega), adjusted, adjusted]
      by_cases hin : slotend ≤ i
      · rw [if_pos (by omega), if_pos (by omega)]
      · rw [if_neg (by omega), if_neg (by omega)]
    · have hchunk := setreflen_chunk a s.am.amNslot 1 (slotneed - s.am.amNslot)
      have hsingle := Coded.single (g := grown g slotend slotneed s.am.amNslot) (p := s.am.amNslot)
        (by omega : 1 ≤ slotneed - s.am.amNslot) (hnew.symm ▸ hchunk) (hnew ▸ by decide) fun i hi _ => by
          rw [hnew, grown, if_pos hi]
      rwa [Nat.add_sub_cancel' (by omega), hnew] at hsingle

/-- `am'` is `am` after the reference that ended at `slotend` went on to `slotneed`. -/
structure Extended (am am' : VmAmap) (g : Nat → Int) (slotend slotneed : Nat) : Prop where
  ref : am'.amRef = am.amRef
  nslot : am'.amNslot = max am.amNslot slotneed
  anon : ∀ slot < am.amNslot, am'.amAnon slot = am.amAnon slot
  inv : SlotInv am'
  counts : Counts am' (grown g slotend slotneed am.amNslot)
  null : am'.amPpref.isNull = am.amPpref.isNull

/-- The part that the amap without larger arrays and the one with have in common. -/
theorem extendInto_spec {slotend slotneed : Nat} (hc : Counts s.am g) (hinv : SlotInv s.am)
    (hend : slotend ≤ s.am.amNslot) (hneed : s.am.amNslot < slotneed) (hmax : slotneed ≤ s.am.amMaxslot) :
    ∃ s', ((if s.am.amPpref.inUse then extendPpref s slotend slotneed else some s).map fun s =>
        ({ s with am := { s.am with amNslot := slotneed } }, (none : Option Errno))) = some (s', none)
      ∧ Extended s.am s'.am g slotend slotneed ∧ s'.am.amPpref.inUse = s.am.amPpref.inUse := by
  have hmaxeq : slotneed = max s.am.amNslot slotneed := by omega
  by_cases hp : s.am.amPpref.inUse = true
  · obtain ⟨s₁, a, hs₁, heq, hinv₁, hcoded⟩ := extendPpref_spec hp hc hinv hend hneed
    obtain ⟨-, hanull⟩ : s.am.amPpref.inUse = true ∧ s.am.amPpref.isNull = false := by
      obtain ⟨a₀, ha₀⟩ := exists_array hp
      rw [ha₀]
      exact ⟨rfl, rfl⟩
    have hns₁ : s₁.am.amNslot = s.am.amNslot := by rw [heq]
    have hms₁ : s₁.am.amMaxslot = s.am.amMaxslot := by rw [heq]
    have hpp : s₁.am.amPpref = .array a := by rw [heq]
    have href₁ : s₁.am.amRef = s.am.amRef := by rw [heq]
    have hanon₁ : s₁.am.amAnon = s.am.amAnon := by rw [heq]
    refine ⟨{ s₁ with am := { s₁.am with amNslot := slotneed } }, ?_, ⟨?_, hmaxeq, fun t _ => ?_, ?_, ?_, ?_⟩, ?_⟩
    · rw [if_pos hp, hs₁, Option.map_some]
    · exact href₁
    · exact congrFun hanon₁ t
    · exact setNslot_inv hinv₁ (by omega) (by omega)
    · exact counts_array hpp hcoded
    · rw [hanull]
      exact congrArg Ppref.isNull hpp
    · rw [hp]
      exact congrArg Ppref.inUse hpp
  · have hpf : s.am.amPpref.inUse = false := Bool.eq_false_iff.mpr hp
    refine ⟨{ s with am := { s.am with amNslot := slotneed } }, ?_, ⟨rfl, hmaxeq, fun _ _ => rfl, ?_, ?_, rfl⟩, rfl⟩
    · rw [if_neg hp, Option.map_some]
    · exact setNslot_inv hinv (by omega) hmax
    · exact counts_of_not_inUse hpf

theorem extendGrown_spec (am : VmAmap) {slotend slotneed : Nat} (junk : Nat → Nat) (anRef : Nat → Int) (hc : Counts am g)
    (hinv : SlotInv am) (hend : slotend ≤ am.amNslot) (hneed : am.amNslot < slotneed) :
    let s : State := { am := growArrays am (roundSlots slotneed) junk, anRef := anRef }
    ∃ s', ((if s.am.amPpref.inUse then extendPpref s slotend slotneed else some s).map fun s =>
        ({ s with am := { s.am with amNslot := slotneed } }, (none : Option Errno))) = some (s', none)
      ∧ Extended am s'.am g slotend slotneed ∧ s'.am.amPpref.inUse = am.amPpref.inUse := by
  intro s
  have hround := le_roundSlots slotneed
  obtain ⟨huse, hnull⟩ := growArrays_inUse am (roundSlots slotneed) junk
  obtain ⟨s', hs', hext, huse'⟩ := extendInto_spec (s := s) (growArrays_counts hc _ junk)
    (growArrays_inv hinv (by omega) junk) hend hneed hround
  refine ⟨s', hs', ⟨hext.ref, hext.nslot, fun t ht => ?_, hext.inv, hext.counts, hext.null.trans hnull⟩,
    huse'.trans huse⟩
  rw [hext.anon t ht]
  exact if_pos ht

/-- `amap_extend` either fails, and has at most given up the counts, or extends. -/
theorem extend_spec {slotoff slotmapped : Nat} (slotadd : Nat) (pprefOk slotsOk : Bool) (junk : Nat → Nat)
    (hc : Counts s.am g) (hinv : SlotInv s.am) (hle : slotoff + slotmapped ≤ s.am.amNslot) :
    (∃ s' err, amapExtend s slotoff slotmapped slotadd pprefOk slotsOk junk = some (s', some err)
      ∧ (err = .e2big ∧ s' = s ∨ slotsOk = false
        ∧ (s' = s ∨ pprefOk = false ∧ s.am.amPpref.inUse = true ∧ s' = { s with am := { s.am with amPpref := .none } })))
    ∨ ∃ s', amapExtend s slotoff slotmapped slotadd pprefOk slotsOk junk = some (s', none)
      ∧ Extended s.am s'.am g (slotoff + slotmapped) (slotoff + slotmapped + slotadd)
      ∧ (pprefOk = true → s'.am.amPpref.inUse = s.am.amPpref.inUse) := by
  rw [amapExtend]
  generalize hneed : slotoff + slotmapped + slotadd = slotneed
  split
  · rename_i hfits
    have hmaxeq : s.am.amNslot = max s.am.amNslot slotneed := by omega
    have hcongr : ∀ i < s.am.amNslot, grown g (slotoff + slotmapped) slotneed s.am.amNslot i
        = adjusted g (slotoff + slotmapped) slotneed 1 i := fun i hi => if_neg (Nat.not_le.mpr hi)
    refine .inr ?_
    by_cases hp : s.am.amPpref.inUse = true
    · obtain ⟨s', hs', hrec, hanon⟩ := adjref_up (slotoff + slotmapped) slotadd hp hc hinv (by omega)
      rw [hneed] at hrec
      obtain ⟨a, ha⟩ := exists_array hrec.inUse
      obtain ⟨a₀, ha₀⟩ := exists_array hp
      refine ⟨s', ?_, ⟨?_, ?_, fun t _ => congrFun hanon t, hrec.inv, ?_, ?_⟩, fun _ => hrec.inUse.trans hp.symm⟩
      · rw [if_pos hp, hs', Option.map_some]
      · rw [hrec.eq]
      · rw [hrec.nslot]
        exact hmaxeq
      · refine counts_array ha ((hrec.counts.coded ha).congr (fun _ _ _ => rfl) fun i _ hi => ?_)
        exact hcongr i (hrec.nslot ▸ hi)
      · rw [ha, ha₀]
        rfl
    · refine ⟨s, ?_, ⟨rfl, hmaxeq, fun _ _ => rfl, hinv, ?_, rfl⟩, fun _ => rfl⟩
      · rw [if_neg hp]
      · exact counts_of_not_inUse (Bool.eq_false_iff.mpr hp)
  · rename_i hmore
    split
    · rename_i hmax
      obtain ⟨s', hs', hext, huse⟩ := extendInto_spec hc hinv hle (by omega) hmax
      exact .inr ⟨s', hs', hext, fun _ => huse⟩
    · split
      · exact .inl ⟨s, .e2big, rfl, .inl ⟨rfl, rfl⟩⟩
      · by_cases hgive : (s.am.amPpref.inUse && !pprefOk) = true
        · -- the counts are given up
          rw [if_pos hgive]
          rw [Bool.and_eq_true, Bool.not_eq_true'] at hgive
          cases slotsOk with
          | false =>
            exact .inl ⟨_, .enomem, rfl, .inr ⟨rfl, .inr ⟨hgive.2, hgive.1, rfl⟩⟩⟩
          | true =>
            refine .inr ?_
            have hlt : s.am.amNslot < slotneed := by omega
            obtain ⟨s', hs', hext, -⟩ := extendGrown_spec { s.am with amPpref := .none } (g := g) junk s.anRef
              (counts_of_not_inUse rfl) (hinv.congr rfl rfl rfl rfl rfl rfl) hle hlt
            refine ⟨s', hs', ⟨hext.ref, hext.nslot, hext.anon, hext.inv, hext.counts, ?_⟩, fun hok => ?_⟩
            · obtain ⟨a₀, ha₀⟩ := exists_array hgive.1
              rw [hext.null, ha₀]
              rfl
            · rw [hgive.2] at hok
              cases hok
        · rw [if_neg hgive]
          cases slotsOk with
          | false => exact .inl ⟨s, .enomem, rfl, .inr ⟨rfl, .inl rfl⟩⟩
          | true =>
            obtain ⟨s', hs', hext, huse⟩ := extendGrown_spec s.am junk s.anRef hc hinv hle (by omega : _ < slotneed)
            exact .inr ⟨s', hs', hext, fun _ => huse⟩

/-! ## Copying -/

/-- The part of an amap that `amap_copy` has filled. -/
def filled (am : VmAmap) (lcv : Nat) : VmAmap := { am with amNslot := lcv, amMaxslot := lcv }

theorem filled_skip (h : SlotInv (filled am slot)) :
    SlotInv (filled { am with amAnon := Function.update am.amAnon slot none } (slot + 1)) := by
  have hlt : ∀ t < slot, Function.update am.amAnon slot none t = am.amAnon t := by
    intro t ht
    exact Function.update_of_ne (Nat.ne_of_lt ht) _ _
  have h' : SlotInv { filled am slot with
      amMaxslot := slot + 1
      amAnon := Function.update am.amAnon slot none } := by
    refine ⟨Nat.le_succ _, fun i hi => ?_, fun t ht htsome => ?_, fun t ht htm => ?_⟩
    · obtain ⟨hin, hisome, hback⟩ := h.used i hi
      exact ⟨hin, (congrArg Option.isSome (hlt _ hin)).trans hisome, hback⟩
    · exact h.back t ht ((congrArg Option.isSome (hlt t ht)).symm.trans htsome)
    · have ht : slot ≤ t := ht
      have htm : t < slot + 1 := htm
      obtain rfl : t = slot := by omega
      exact Function.update_self _ _ _
  exact setNslot_inv h' (Nat.le_succ _) le_rfl

theorem filled_zero (am : VmAmap) (h : am.amNused = 0) : SlotInv (filled am 0) where
  size := le_rfl
  used i hi := absurd (h ▸ hi) (Nat.not_lt_zero i)
  back t ht := absurd ht (Nat.not_lt_zero t)
  tail t _ ht := absurd ht (Nat.not_lt_zero t)

theorem copySlots_spec (src : VmAmap) (pageoff n : Nat) : ∀ {lcv : Nat} {s : State}, SlotInv (filled s.am lcv) →
    (∀ slot < lcv, s.am.amAnon slot = src.amAnon (pageoff + slot)) →
    SlotInv (filled (copySlots src pageoff n lcv s).am (lcv + n)) ∧ SameMap s.am (copySlots src pageoff n lcv s).am
      ∧ ∀ slot < lcv + n, (copySlots src pageoff n lcv s).am.amAnon slot = src.amAnon (pageoff + slot) := by
  induction n with
  | zero =>
    intro lcv s h hcopied
    exact ⟨h, .refl _, hcopied⟩
  | succ n ih =>
    intro lcv s h hcopied
    have hnext : ∀ slot < lcv + 1, Function.update s.am.amAnon lcv (src.amAnon (pageoff + lcv)) slot
        = src.amAnon (pageoff + slot) := by
      intro slot hslot
      by_cases hl : slot = lcv
      · rw [hl, Function.update_self]
      · rw [Function.update_of_ne hl]
        exact hcopied slot (by omega)
    rw [← Nat.add_assoc, Nat.add_right_comm lcv n 1]
    have hskip := filled_skip h
    cases hanon : src.amAnon (pageoff + lcv) with
    | none =>
      rw [hanon] at hnext
      rw [copySlots, hanon]
      obtain ⟨hinv, hsame, hall⟩ := ih (s := { s with am := { s.am with amAnon := Function.update s.am.amAnon lcv none } }) hskip hnext
      exact ⟨hinv, .trans ⟨rfl⟩ hsame, hall⟩
    | some anon =>
      rw [hanon] at hnext
      rw [copySlots, hanon]
      have hadd := addSlot_inv anon hskip (Nat.lt_succ_self lcv) (Function.update_self _ _ _)
      obtain ⟨hinv, hsame, hall⟩ := ih
        (s := { anRef := Function.update s.anRef anon (s.anRef anon + 1)
                am := { s.am with
                  amAnon := Function.update s.am.amAnon lcv (some anon)
                  amBckptr := Function.update s.am.amBckptr lcv s.am.amNused
                  amSlots := Function.update s.am.amSlots s.am.amNused lcv
                  amNused := s.am.amNused + 1 } })
        (hadd.congr rfl rfl rfl rfl rfl (Function.update_idem _ _ _).symm) hnext
      exact ⟨hinv, .trans ⟨rfl⟩ hsame, hall⟩

/-- An amap to which one entry refers, and whose counts nothing has asked for yet. -/
structure Fresh (am : VmAmap) : Prop where
  ref : am.amRef = 1
  null : am.amPpref = .null
  inv : SlotInv am

theorem alloc_fresh (slots padslots : Nat) (junkSlots junkBck : Nat → Nat) :
    Fresh (amapAlloc slots padslots junkSlots junkBck) := by
  refine ⟨rfl, rfl, ?_, fun i hi => absurd hi (Nat.not_lt_zero i), ?_, fun _ _ _ => rfl⟩
  · have hround := le_roundSlots (slots + padslots)
    exact Nat.le_trans (Nat.le_add_right _ _) hround
  · intro t _ htsome
    cases htsome

/-- What the copy is, whatever becomes of the source. -/
theorem copy_fresh {pageoff slots : Nat} {junkSlots junkBck : Nat → Nat} {junkAnon : Nat → Option Nat} {new : VmAmap}
    (h : amapCopy s pageoff slots junkSlots junkBck junkAnon = some (s', new)) :
    Fresh new ∧ new.amNslot = slots ∧ ∀ slot < slots, new.amAnon slot = s.am.amAnon (pageoff + slot) := by
  obtain ⟨hinv, hsame, hall⟩ := copySlots_spec s.am pageoff slots
    (s := { am := amapAlloc1 slots 0 junkSlots junkBck junkAnon, anRef := s.anRef })
    (filled_zero _ rfl) fun t ht => absurd ht (Nat.not_lt_zero t)
  rw [Nat.zero_add] at hinv hall
  obtain ⟨s₁, -, hpair⟩ := Option.map_eq_some_iff.mp h
  obtain ⟨-, rfl⟩ := Prod.mk.inj hpair
  generalize (copySlots s.am pageoff slots 0
    { am := amapAlloc1 slots 0 junkSlots junkBck junkAnon, anRef := s.anRef }).am = am at hinv hsame hall ⊢
  have heq := hsame.eq
  have href : am.amRef = 1 := by rw [heq]; rfl
  have hns : am.amNslot = slots := by rw [heq]; rfl
  have hms : slots ≤ am.amMaxslot := by
    rw [heq]
    exact le_roundSlots (slots + 0)
  have hnull : am.amPpref = .null := by rw [heq]; rfl
  have hlow : ∀ t < slots, (if slots ≤ t ∧ t < am.amMaxslot then none else am.amAnon t) = am.amAnon t := by
    intro t ht
    rw [if_neg (by omega)]
  refine ⟨⟨href, hnull, ?_⟩, hns, fun t ht => (hlow t ht).trans (hall t ht)⟩
  refine ⟨hns ▸ hms, fun i hi => ?_, fun t ht htsome => ?_, fun t ht htm => ?_⟩
  · obtain ⟨hin, hisome, hback⟩ := hinv.used i hi
    exact ⟨hns.symm ▸ hin, (congrArg Option.isSome (hlow _ hin)).trans hisome, hback⟩
  · have ht : t < slots := hns ▸ ht
    exact hinv.back t ht ((congrArg Option.isSome (hlow t ht)).symm.trans htsome)
  · have ht : slots ≤ t := hns ▸ ht
    exact if_pos ⟨ht, htm⟩

theorem unshare_eq (am : VmAmap) : unshare am = { am with amShared := (unshare am).amShared } := by
  rw [unshare]
  split
  · rfl
  · rfl

/-- What becomes of the source: one reference to the range is gone. -/
theorem copy_source {pageoff slots : Nat} (junkSlots junkBck : Nat → Nat) (junkAnon : Nat → Option Nat)
    (hc : Counts s.am g) (hinv : SlotInv s.am) (hle : pageoff + slots ≤ s.am.amNslot) :
    (∃ i, pageoff ≤ i ∧ i < pageoff + slots ∧ g i - 1 < 0 ∧ s.am.amPpref.inUse = true
      ∧ amapCopy s pageoff slots junkSlots junkBck junkAnon = none)
    ∨ ∃ s' new shared, amapCopy s pageoff slots junkSlots junkBck junkAnon = some (s', new)
      ∧ Settled { s.am with amRef := s.am.amRef - 1, amShared := shared } s'.am
        (adjusted g pageoff (pageoff + slots) (-1)) pageoff (pageoff + slots) := by
  rw [amapCopy]
  generalize copySlots s.am pageoff slots 0
    { am := amapAlloc1 slots 0 junkSlots junkBck junkAnon, anRef := s.anRef } = new
  rw [unshare_eq]
  generalize (unshare { s.am with amRef := s.am.amRef - 1 }).amShared = shared
  obtain ⟨i, hlo, hhi, hneg, hp, hnone⟩ | ⟨s', hs', hset⟩ :=
    settle_spec (s := { am := { s.am with amRef := s.am.amRef - 1, amShared := shared }, anRef := new.anRef })
      pageoff slots (-1) hc (hinv.congr rfl rfl rfl rfl rfl rfl) hle
  · refine .inl ⟨i, hlo, hhi, hneg, hp, ?_⟩
    rw [if_pos hp, hnone, Option.map_none]
  · exact .inr ⟨s', _, shared, congrArg (Option.map _) hs', hset⟩

/-! ## References -/

/-- A reference to a part of an amap that does not count yet. -/
def uncounted (am : VmAmap) (len : Nat) (all : Bool) : Bool :=
  am.amPpref.isNull && !all && decide (len ≠ am.amNslot)

/-- The amap when it comes to count a reference. -/
def established (am : VmAmap) (len : Nat) (all mallocOk : Bool) : VmAmap :=
  if uncounted am len all then amapPpEstablish am mallocOk else am

/-- The counts at that point: where there were none, those made of the number of references. -/
def counts₀ (am : VmAmap) (len : Nat) (all : Bool) (g : Nat → Int) : Nat → Int :=
  if uncounted am len all then fun _ => am.amRef else g

/-- The first slot and the number of slots that a reference counts for. -/
def counted (am : VmAmap) (offset len : Nat) (all : Bool) : Nat × Nat :=
  if all then (0, am.amNslot) else (offset, len)

theorem established_eq {len : Nat} {all : Bool} (h : uncounted am len all = false) (mallocOk : Bool) :
    established am len all mallocOk = am := by
  rw [established, h, if_neg Bool.false_ne_true]

theorem counts₀_eq {len : Nat} {all : Bool} (h : uncounted am len all = false) (g : Nat → Int) :
    counts₀ am len all g = g := by
  rw [counts₀, h, if_neg Bool.false_ne_true]

theorem established_spec (len : Nat) (all mallocOk : Bool) (hc : Counts am g) (hinv : SlotInv am)
    (href : 0 ≤ am.amRef) :
    SlotInv (established am len all mallocOk) ∧ Counts (established am len all mallocOk) (counts₀ am len all g)
      ∧ established am len all mallocOk = { am with amPpref := (established am len all mallocOk).amPpref } := by
  rw [established, counts₀]
  by_cases hun : uncounted am len all = true
  · rw [if_pos hun, if_pos hun]
    cases mallocOk with
    | true => exact ⟨(establish_counts hinv href).2, (establish_counts hinv href).1, rfl⟩
    | false => exact ⟨hinv.congr rfl rfl rfl rfl rfl rfl, counts_of_not_inUse rfl, rfl⟩
  · rw [if_neg hun, if_neg hun]
    exact ⟨hinv, hc, rfl⟩

theorem counted_le {offset len : Nat} (all : Bool) (hle : offset + len ≤ am.amNslot) :
    (counted am offset len all).1 + (counted am offset len all).2 ≤ am.amNslot := by
  rw [counted]
  split
  · exact Nat.le_of_eq (Nat.zero_add _)
  · exact hle

/-- A reference is counted: one more or one less, in an amap whose number of references has
changed already. -/
theorem count_spec {offset len : Nat} (all mallocOk : Bool) (adjval : Int) (hc : Counts s.am g) (hinv : SlotInv s.am)
    (href : 0 ≤ s.am.amRef) (hle : offset + len ≤ s.am.amNslot) :
    let am := established s.am len all mallocOk
    let lo := (counted s.am offset len all).1
    let n := (counted s.am offset len all).2
    let adjref := if all then amapPpAdjref { s with am := am } 0 am.amNslot adjval
      else amapPpAdjref { s with am := am } offset len adjval
    (∃ i, lo ≤ i ∧ i < lo + n ∧ counts₀ s.am len all g i + adjval < 0 ∧ am.amPpref.inUse = true ∧ adjref = none)
      ∨ ∃ s', (if am.amPpref.inUse then adjref else some { s with am := am }) = some s'
        ∧ Settled am s'.am (adjusted (counts₀ s.am len all g) lo (lo + n) adjval) lo (lo + n) := by
  intro am lo n adjref
  obtain ⟨hinv', hc', heq⟩ := established_spec len all mallocOk hc hinv href
  have hns : am.amNslot = s.am.amNslot := by rw [show am = { s.am with amPpref := am.amPpref } from heq]
  have hadj : adjref = amapPpAdjref { s with am := am } lo n adjval := by
    change (if all then amapPpAdjref { s with am := am } 0 am.amNslot adjval
      else amapPpAdjref { s with am := am } offset len adjval) = _
    rw [hns]
    cases all with
    | true => rfl
    | false => rfl
  have hrange : lo + n ≤ am.amNslot := by
    rw [hns]
    exact counted_le all hle
  rw [hadj]
  exact settle_spec (s := { s with am := am }) lo n adjval hc' hinv' hrange

/-- `amap_ref` does not fail, and drops no anon. -/
theorem ref_spec {offset len : Nat} (shared refall mallocOk : Bool) (hc : Counts s.am g) (hinv : SlotInv s.am)
    (href : 0 ≤ s.am.amRef) (hle : offset + len ≤ s.am.amNslot) :
    let am₁ := { s.am with amRef := s.am.amRef + 1, amShared := s.am.amShared || shared }
    let lo := (counted am₁ offset len refall).1
    let n := (counted am₁ offset len refall).2
    ∃ s' : State, amapRef s offset len shared refall mallocOk = some s'
      ∧ Settled (established am₁ len refall mallocOk) s'.am (adjusted (counts₀ am₁ len refall g) lo (lo + n) 1)
        lo (lo + n)
      ∧ s'.am.amAnon = s.am.amAnon := by
  intro am₁ lo n
  have hinv₁ : SlotInv am₁ := hinv.congr rfl rfl rfl rfl rfl rfl
  have href₁ : 0 ≤ am₁.amRef := Int.le_trans href (Int.le_add_of_nonneg_right (by decide))
  have hc₁ : Counts am₁ g := hc
  obtain ⟨-, hc₂, heq⟩ := established_spec len refall mallocOk hc₁ hinv₁ href₁
  have hcount := count_spec (s := { s with am := am₁ }) refall mallocOk 1 hc₁ hinv₁ href₁ hle
  have hnn : (established am₁ len refall mallocOk).amPpref.inUse = true →
      ∀ i < s.am.amNslot, 0 ≤ counts₀ am₁ len refall g i := by
    intro hp i hi
    obtain ⟨a, ha⟩ := exists_array hp
    refine (hc₂.coded ha).nonneg i (Nat.zero_le _) ?_
    rw [heq]
    exact hi
  have hle₁ : offset + len ≤ am₁.amNslot := hle
  have hrange : lo + n ≤ s.am.amNslot := counted_le refall hle₁
  obtain ⟨i, hlo, hhi, hneg, hp, -⟩ | ⟨s', hs', hset⟩ := hcount
  · have h0 := hnn hp i (Nat.lt_of_lt_of_le hhi hrange)
    change counts₀ am₁ len refall g i + 1 < 0 at hneg
    omega
  · refine ⟨s', hs', hset, ?_⟩
    funext t
    rw [hset.anon, if_neg, heq]
    rintro ⟨hp, hin, hz⟩
    have h0 := hnn hp t (Nat.lt_of_lt_of_le hin.2 hrange)
    change adjusted (counts₀ am₁ len refall g) lo (lo + n) 1 t = 0 at hz
    rw [adjusted, if_pos hin] at hz
    omega

theorem amapUnref_eq (offset len : Nat) (all mallocOk : Bool) (h : s.am.amRef ≠ 1) :
    amapUnref s offset len all mallocOk =
      let am := established (unshare { s.am with amRef := s.am.amRef - 1 }) len all mallocOk
      match if am.amPpref.inUse then
          if all then amapPpAdjref { s with am := am } 0 am.amNslot (-1)
          else amapPpAdjref { s with am := am } offset len (-1)
        else some { s with am := am } with
      | none => .panic
      | some s => .kept s := by
  rw [amapUnref, if_neg h]
  dsimp only
  generalize unshare { s.am with amRef := s.am.amRef - 1 } = am₁
  rw [established, uncounted]
  generalize (if (am₁.amPpref.isNull && !all && decide (len ≠ am₁.amNslot)) = true
    then amapPpEstablish am₁ mallocOk else am₁) = am
  by_cases hp : am.amPpref.inUse = true
  · refine (if_pos hp).trans (Eq.symm ?_)
    exact congrArg (fun r => match r with | none => Unref.panic | some s => .kept s) (if_pos hp)
  · refine (if_neg hp).trans (Eq.symm ?_)
    exact congrArg (fun r => match r with | none => Unref.panic | some s => .kept s) (if_neg hp)

/-- `amap_unref`, when there is another reference. -/
theorem unref_spec {offset len : Nat} (all mallocOk : Bool) (hc : Counts s.am g) (hinv : SlotInv s.am)
    (href : 2 ≤ s.am.amRef) (hle : offset + len ≤ s.am.amNslot) :
    let am₁ := unshare { s.am with amRef := s.am.amRef - 1 }
    let lo := (counted am₁ offset len all).1
    let n := (counted am₁ offset len all).2
    (∃ i, lo ≤ i ∧ i < lo + n ∧ counts₀ am₁ len all g i - 1 < 0
        ∧ (established am₁ len all mallocOk).amPpref.inUse = true ∧ amapUnref s offset len all mallocOk = .panic)
      ∨ ∃ s', amapUnref s offset len all mallocOk = .kept s'
        ∧ Settled (established am₁ len all mallocOk) s'.am (adjusted (counts₀ am₁ len all g) lo (lo + n) (-1))
          lo (lo + n) := by
  intro am₁ lo n
  have heq₁ : am₁ = { s.am with amRef := s.am.amRef - 1, amShared := am₁.amShared } := unshare_eq _
  have hns : am₁.amNslot = s.am.amNslot := by rw [heq₁]
  have hinv₁ : SlotInv am₁ := by
    rw [heq₁]
    exact hinv.congr rfl rfl rfl rfl rfl rfl
  have hc₁ : Counts am₁ g := by
    rw [heq₁]
    exact hc
  have href₁ : 0 ≤ am₁.amRef := by
    rw [heq₁]
    change 0 ≤ s.am.amRef - 1
    omega
  have hcount := count_spec (s := { s with am := am₁ }) all mallocOk (-1) hc₁ hinv₁ href₁ (hns.symm ▸ hle)
  rw [amapUnref_eq offset len all mallocOk (by omega)]
  dsimp only at hcount ⊢
  obtain ⟨i, hlo, hhi, hneg, hp, hnone⟩ | ⟨s', hs', hset⟩ := hcount
  · refine .inl ⟨i, hlo, hhi, hneg, hp, ?_⟩
    rw [if_pos hp, hnone]
  · refine .inr ⟨s', ?_, hset⟩
    rw [hs']

end Obsd.Amap
