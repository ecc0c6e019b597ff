import Obsd.ExtentRuns

/-!
# What `EX_CONFLICTOK` allocates

The addresses `extent_alloc_region` leaves allocated, followed through the
rounds of `alloc_start`. A request that lies in a free gap is added and
nothing else (`insert_covered`). The rounds before that keep the union of
the allocated addresses and the request, except on two kinds of request:
one that is allocated already, whose end cuts off the region it ends in,
and one whose last address begins a region, which is given up with
everything that was removed for it (`Overwritten`).
-/

namespace Obsd.Extent

variable {w : Nat}

/-! ## Covered addresses -/

theorem covered_append {l l' : List (Region w)} {a : BitVec w} :
    Covered (l ++ l') a ↔ Covered l a ∨ Covered l' a := by
  simp only [Covered, List.mem_append, or_and_right, exists_or]

theorem covered_cons {r : Region w} {l : List (Region w)} {a : BitVec w} :
    Covered (r :: l) a ↔ (r.erStart ≤ a ∧ a ≤ r.erEnd) ∨ Covered l a := by
  simp only [Covered, List.mem_cons, or_and_right, exists_or, exists_eq_left]

theorem covered_reverse {l : List (Region w)} {a : BitVec w} :
    Covered l.reverse a ↔ Covered l a := by
  simp only [Covered, List.mem_reverse]

/-- What a list cut in two covers. -/
theorem covered_cut {before after : List (Region w)} {a : BitVec w} :
    Covered (before.reverse ++ after) a ↔ Covered before a ∨ Covered after a := by
  rw [covered_append, covered_reverse]

/-- Two stretches of addresses, the second right behind the first. -/
theorem between_join {s e s' e' : BitVec w} (hse : s ≤ e) (hlt : e < s') (hadj : e + 1#w = s')
    (hse' : s' ≤ e') (a : BitVec w) :
    (s ≤ a ∧ a ≤ e') ↔ (s ≤ a ∧ a ≤ e) ∨ (s' ≤ a ∧ a ≤ e') := by
  have hone := Word.toNat_add_one hlt
  rw [hadj] at hone
  simp only [BitVec.le_def] at *
  omega

/-- A request that fits into the cut is added, and nothing else is. -/
theorem insert_covered {ex : Map w} {start size : BitVec w} {before after : List (Region w)}
    (rp : Region w) (h : CutOk ex.exStart ex.exEnd before after)
    (hse : start ≤ start + (size - 1#w))
    (hb : ∀ r ∈ before, r.erEnd < start) (ha : ∀ r ∈ after, start + (size - 1#w) < r.erStart)
    (a : BitVec w) :
    Covered (extentInsertAndOptimize ex start size before after rp).exRegions a ↔
      Covered (before.reverse ++ after) a ∨ (start ≤ a ∧ a ≤ start + (size - 1#w)) := by
  have hnext : start + size = start + (size - 1#w) + 1#w := by grind
  rcases insert_regions_cases ex start size before after rp with
    ⟨heq, -⟩ | ⟨-, -, next, rest, rfl, hadj, heq⟩ | ⟨-, last, bs, rfl, hadj, heq⟩
      | ⟨-, last, bs, next, rest, rfl, rfl, hadj, hadj', heq⟩
  · rw [heq, covered_cut, covered_cut, covered_cons]
    exact iff_of_eq (by dsimp only; ac_rfl)
  · have hjoin := between_join hse (ha next List.mem_cons_self) (hnext.symm.trans hadj)
      (h.after_each next List.mem_cons_self).2.1 a
    rw [heq, covered_cut, covered_cut, covered_cons, covered_cons, hjoin]
    exact iff_of_eq (by ac_rfl)
  · have hjoin := between_join (h.before_each last List.mem_cons_self).2.1
      (hb last List.mem_cons_self) hadj hse a
    rw [heq, covered_cut, covered_cut, covered_cons, covered_cons, hjoin]
    exact iff_of_eq (by ac_rfl)
  · have hlast := (h.before_each last List.mem_cons_self).2.1
    have hlt := hb last List.mem_cons_self
    have hjoin := between_join hlast hlt hadj hse a
    have hfar : last.erStart ≤ start + (size - 1#w) := by bv_omega
    have hjoin' := between_join hfar (ha next List.mem_cons_self) (hnext.symm.trans hadj')
      (h.after_each next List.mem_cons_self).2.1 a
    rw [heq, covered_cut, covered_cut, covered_cons, covered_cons, covered_cons, hjoin', hjoin]
    exact iff_of_eq (by ac_rfl)

/-! ## The requests that go wrong -/

/-- The request is allocated already, in regions that are coalesced, and the
region its end lies in goes on behind it but not to the end of the extent;
or a region begins with the last address of the request, and some address
before that is free. -/
def Overwritten (ex : Map w) (start end_ : BitVec w) : Prop :=
  (ex.exfNocoalesce = false ∧ (∀ a, start ≤ a → a ≤ end_ → Covered ex.exRegions a)
      ∧ ∃ r ∈ ex.exRegions, r.erStart ≤ end_ ∧ end_ < r.erEnd ∧ r.erEnd < ex.exEnd)
    ∨ ((∃ r ∈ ex.exRegions, r.erStart = end_)
      ∧ ∃ a, start ≤ a ∧ a < end_ ∧ ¬ Covered ex.exRegions a)

/-- `ex'` has the addresses of `ex` and those of the request allocated. -/
def Unites (ex : Map w) (start end_ : BitVec w) (ex' : Map w) : Prop :=
  ∀ a, Covered ex'.exRegions a ↔ Covered ex.exRegions a ∨ (start ≤ a ∧ a ≤ end_)

section Rounds

variable {ex : Map w} {start end_ : BitVec w} {rp : Region w} {before after : List (Region w)}

theorem not_overwritten_of_free (hfree : ¬ Covered ex.exRegions start) (hse : start ≤ end_)
    (hno : ∀ r ∈ ex.exRegions, r.erStart ≠ end_) : ¬ Overwritten ex start end_ := by
  rintro (⟨-, hall, -⟩ | ⟨⟨r, hr, heq⟩, -⟩)
  · exact hfree (hall start (BitVec.le_refl _) hse)
  · exact hno r hr heq

/-- Two regions of a list in shape that share an address are one. -/
theorem RegionsOk.eq_of_shared (h : RegionsOk ex) {r r' : Region w} (hr : r ∈ ex.exRegions)
    (hr' : r' ∈ ex.exRegions) {a : BitVec w} (ha : r.erStart ≤ a ∧ a ≤ r.erEnd)
    (ha' : r'.erStart ≤ a ∧ a ≤ r'.erEnd) : r = r' := by
  let R : Region w → Region w → Prop :=
    fun r r' => r = r' ∨ r.erEnd < r'.erStart ∨ r'.erEnd < r.erStart
  have : Std.Symm R := ⟨fun r r' hR => hR.imp Eq.symm Or.symm⟩
  have hpair : ex.exRegions.Pairwise R := h.disjoint.imp Or.inr
  obtain heq | hlt | hlt := hpair.forall_of_forall (fun r _ => .inl rfl) hr hr'
  · exact heq
  · bv_omega
  · bv_omega

/-- The scan is clear: the request is inserted, and it is not one that goes
wrong. -/
theorem clear_unites (h : RegionsOk ex) {size : BitVec w} (myrp : Region w) (hse : start ≤ end_)
    (hend : end_ = start + (size - 1#w))
    (hs : regionScan start end_ [] ex.exRegions = .clear before after) :
    Unites ex start end_ (extentInsertAndOptimize ex start size before after myrp) ∧
      ¬ Overwritten ex start end_ := by
  obtain ⟨heq, hb, ha⟩ := regionScan_clear hs
  have heq : ex.exRegions = before.reverse ++ after := by simpa using heq.symm
  have hb : ∀ r ∈ before, r.erEnd < start := fun r hr => by simpa using hb r hr
  have hcut := h.cut heq
  have ha : ∀ r ∈ after, end_ < r.erStart := by
    cases after with
    | nil => simp
    | cons next rest => exact ahead_of_head hcut (ha next rest rfl)
  refine ⟨fun a => ?_, not_overwritten_of_free ?_ hse ?_⟩
  · rw [insert_covered myrp hcut (hend ▸ hse) hb (hend ▸ ha), heq, hend]
  · rw [heq, covered_cut]
    rintro (⟨r, hr, -, hle⟩ | ⟨r, hr, hle, -⟩)
    · have := hb r hr
      bv_omega
    · have := ha r hr
      bv_omega
  · intro r hr hstart
    rw [heq, List.mem_append, List.mem_reverse] at hr
    obtain hr | hr := hr
    · have h1 := hb r hr
      have h2 := (hcut.before_each r hr).2.1
      bv_omega
    · have := ha r hr
      bv_omega

/-- The request goes on behind a region that reaches into it. -/
theorem shift_iff (h : RegionsOk ex)
    (hs : regionScan start end_ [] ex.exRegions = .conflict before rp after)
    (hle : rp.erStart ≤ start) (hmore : rp.erEnd < end_) {ex' : Map w} :
    (Unites ex (rp.erEnd + 1#w) end_ ex' ↔ Unites ex start end_ ex') ∧
      (Overwritten ex (rp.erEnd + 1#w) end_ ↔ Overwritten ex start end_) := by
  obtain ⟨-, -, -, -, hrp⟩ := conflict_cut h hs
  have hone := Word.toNat_add_one hmore
  have hcov : ∀ a, start ≤ a → a ≤ rp.erEnd → Covered ex.exRegions a :=
    fun a ha ha' => conflict_covered h hs hle ha ha'
  have hup : ∀ a, rp.erEnd + 1#w ≤ a → start ≤ a := fun a ha => by
    simp only [BitVec.le_def] at *
    omega
  have hdown : ∀ a, start ≤ a → ¬ Covered ex.exRegions a → rp.erEnd + 1#w ≤ a := fun a ha hno => by
    by_contra hn
    refine hno (hcov a ha ?_)
    simp only [BitVec.le_def, not_le] at *
    omega
  constructor
  · refine forall_congr' fun a => iff_congr Iff.rfl ?_
    by_cases hc : Covered ex.exRegions a
    · simp only [hc, true_or]
    · simp only [hc, false_or]
      exact and_congr_left fun _ => ⟨hup a, fun ha => hdown a ha hc⟩
  · refine or_congr (and_congr_right fun _ => and_congr_left fun _ => ⟨fun hall a ha he => ?_,
      fun hall a ha he => hall a (hup a ha) he⟩) (and_congr_right fun _ => exists_congr fun a =>
      ⟨fun ⟨ha, hlt, hno⟩ => ⟨hup a ha, hlt, hno⟩,
        fun ⟨ha, hlt, hno⟩ => ⟨hdown a ha hno, hlt, hno⟩⟩)
    by_contra hno
    exact hno (hall a (hdown a ha hno) he)

/-- A request that lies in regions is allocated as it is. -/
theorem unites_of_covered (hall : ∀ a, start ≤ a → a ≤ end_ → Covered ex.exRegions a) {ex' : Map w}
    (hsame : ∀ a, Covered ex'.exRegions a ↔ Covered ex.exRegions a) : Unites ex start end_ ex' :=
  fun a => ⟨fun h => .inl ((hsame a).mp h),
    fun h => (hsame a).mpr (h.elim id fun ⟨h1, h2⟩ => hall a h1 h2)⟩

/-- In a covered request only the region its end lies in can be lost. -/
theorem overwritten_of_covered (h : RegionsOk ex)
    (hall : ∀ a, start ≤ a → a ≤ end_ → Covered ex.exRegions a) (hrp : rp ∈ ex.exRegions)
    (hend : rp.erStart ≤ end_ ∧ end_ ≤ rp.erEnd) :
    Overwritten ex start end_ ↔
      ex.exfNocoalesce = false ∧ end_ < rp.erEnd ∧ rp.erEnd < ex.exEnd := by
  constructor
  · rintro (⟨hnc, -, r, hr, hlo, hhi, hlast⟩ | ⟨-, a, ha, hlt, hno⟩)
    · obtain rfl := h.eq_of_shared hr hrp ⟨hlo, BitVec.le_of_lt hhi⟩ hend
      exact ⟨hnc, hhi, hlast⟩
    · exact absurd (hall a ha (BitVec.le_of_lt hlt)) hno
  · rintro ⟨hnc, hhi, hlast⟩
    exact .inl ⟨hnc, hall, rp, hrp, hend.1, hhi, hlast⟩

/-- What is left of the request lies in `rp`, which stops short of the end of
the extent: the insertion is of an empty stretch behind `rp`, and cuts `rp`
off at the end of the request if regions are coalesced. -/
theorem swallowed_iff (h : RegionsOk ex) {size : BitVec w} (myrp : Region w)
    (hs : regionScan start end_ [] ex.exRegions = .conflict before rp after)
    (hle : rp.erStart ≤ start) (hse : start ≤ end_) (hlast : end_ ≤ rp.erEnd)
    (hlt : rp.erEnd < ex.exEnd) (hsize : rp.erEnd + 1#w + (size - 1#w) = end_) :
    Unites ex start end_
        (extentInsertAndOptimize ex (rp.erEnd + 1#w) size (rp :: before) after myrp) ↔
      ¬ Overwritten ex start end_ := by
  obtain ⟨heq, hcut, -, -, -⟩ := conflict_cut h hs
  have hone := Word.toNat_add_one hlt
  have hrp : rp ∈ ex.exRegions := by simp [heq]
  have hcov : ∀ a, Covered ex.exRegions a ↔
      Covered before a ∨ (rp.erStart ≤ a ∧ a ≤ rp.erEnd) ∨ Covered after a := fun a => by
    rw [heq, covered_cut, covered_cons]
  have hall : ∀ a, start ≤ a → a ≤ end_ → Covered ex.exRegions a := fun a h1 h2 =>
    conflict_covered h hs hle h1 (BitVec.le_trans h2 hlast)
  have hover := overwritten_of_covered h hall hrp ⟨BitVec.le_trans hle hse, hlast⟩
  have hnext : rp.erEnd + 1#w + size = end_ + 1#w := by grind
  rcases insert_regions_cases ex (rp.erEnd + 1#w) size (rp :: before) after myrp with
    ⟨hins, hne⟩ | ⟨hnc, hne, -⟩ | ⟨hnc, last, bs, ⟨rfl, rfl⟩, -, hins⟩
      | ⟨hnc, last, bs, next, rest, ⟨rfl, rfl⟩, rfl, -, hadj, hins⟩
  · have hnc : ex.exfNocoalesce = true := by
      by_contra hnc
      exact hne (by simpa using hnc) rp before rfl rfl
    rw [hover, hnc]
    refine iff_of_true (unites_of_covered hall fun a => ?_) (by simp)
    rw [hins, covered_cut, covered_cons, covered_cons, hcov, hsize]
    have hempty : ¬ (rp.erEnd + 1#w ≤ a ∧ a ≤ end_) := by
      simp only [BitVec.le_def] at *
      omega
    simp only [hempty, false_or]
    exact iff_of_eq (by ac_rfl)
  · exact absurd rfl (hne rp before rfl)
  · rw [hover]
    by_cases hin : end_ < rp.erEnd
    · refine iff_of_false (fun hunites => ?_) (not_not_intro ⟨hnc, hin, hlt⟩)
      have hone' := Word.toNat_add_one hin
      have hbad : Covered ex.exRegions (end_ + 1#w) := by
        refine (hcov _).mpr (.inr (.inl ?_))
        simp only [BitVec.le_def, BitVec.lt_def] at *
        omega
      have hnot := (hunites (end_ + 1#w)).mpr (.inl hbad)
      rw [hins, covered_cut, covered_cons, hsize] at hnot
      obtain (⟨-, hend⟩ | ⟨r, hr, -, hend⟩) | ⟨r, hr, hstart, -⟩ := hnot
      · simp only [BitVec.le_def] at hend
        omega
      · have hbefore := (Cut.snoc.mpr hcut).before_last r hr
        simp only [BitVec.le_def, BitVec.lt_def] at *
        omega
      · have hafter := hcut.after_first r hr
        simp only [BitVec.le_def, BitVec.lt_def] at *
        omega
    · refine iff_of_true (unites_of_covered hall fun a => ?_) fun h => hin h.2.1
      rw [hins, covered_cut, covered_cons, hcov, hsize,
        BitVec.le_antisymm hlast (BitVec.not_lt.mp hin)]
      exact iff_of_eq (by ac_rfl)
  · -- the next region begins right behind the request, so `rp` ends with it
    have hnw := (hcut.after_each next (by simp)).2.1
    have hafter := hcut.after_first next List.mem_cons_self
    have hexact : rp.erEnd = end_ := by
      by_contra hne
      have hin : end_ < rp.erEnd := by bv_omega
      have hone' := Word.toNat_add_one hin
      rw [hnext] at hadj
      rw [← hadj] at hafter
      simp only [BitVec.lt_def] at *
      omega
    rw [hover]
    refine iff_of_true (unites_of_covered hall fun a => ?_) (by bv_omega)
    have hjoin := between_join (hcut.after_each rp (by simp)).2.1 hafter
      (by rw [hexact, ← hnext, hadj]) hnw a
    rw [hins, covered_cut, covered_cons, hcov, covered_cons, hjoin]
    exact iff_of_eq (by ac_rfl)

/-- A region inside the request goes; the insertion will cover it. -/
theorem remove_iff (h : RegionsOk ex)
    (hs : regionScan start end_ [] ex.exRegions = .conflict before rp after)
    (hgt : start < rp.erStart) (hin : rp.erEnd < end_) (q : Region w) {ex' : Map w} :
    (Unites (extentFreeRegionDescriptor { ex with exRegions := before.reverse ++ after } q)
        start end_ ex' ↔ Unites ex start end_ ex') ∧
      (Overwritten (extentFreeRegionDescriptor { ex with exRegions := before.reverse ++ after } q)
        start end_ ↔ Overwritten ex start end_) := by
  obtain ⟨heq, hcut, -, -, -⟩ := conflict_cut h hs
  have hrpw := (hcut.after_each rp (by simp)).2.1
  have hfree := conflict_start_free h hs hgt
  have hse : start < end_ := by bv_omega
  have hcov : ∀ a, Covered ex.exRegions a ↔
      (rp.erStart ≤ a ∧ a ≤ rp.erEnd) ∨ Covered (before.reverse ++ after) a := fun a => by
    rw [heq, covered_cut, covered_cut, covered_cons]
    exact iff_of_eq (by ac_rfl)
  constructor
  · refine forall_congr' fun a => iff_congr Iff.rfl ?_
    rw [freeDescriptor_exRegions, hcov]
    have hsub : rp.erStart ≤ a ∧ a ≤ rp.erEnd → start ≤ a ∧ a ≤ end_ := by
      rintro ⟨h1, h2⟩
      bv_omega
    exact ⟨Or.imp_left .inr, fun h => h.elim (fun h => h.elim (.inr ∘ hsub) .inl) .inr⟩
  · have hfree' : ¬ Covered (before.reverse ++ after) start :=
      fun hc => hfree ((hcov start).mpr (.inr hc))
    have hfirst : ∀ {l : List (Region w)}, ¬ Covered l start →
        ¬ ∀ a, start ≤ a → a ≤ end_ → Covered l a :=
      fun hno hall => hno (hall start (BitVec.le_refl _) (BitVec.le_of_lt hse))
    have hmem : (∃ r ∈ before.reverse ++ after, r.erStart = end_) ↔
        ∃ r ∈ ex.exRegions, r.erStart = end_ := by
      rw [heq]
      constructor
      · rintro ⟨r, hr, hstart⟩
        exact ⟨r, by simp only [List.mem_append, List.mem_cons] at *; tauto, hstart⟩
      · rintro ⟨r, hr, hstart⟩
        refine ⟨r, ?_, hstart⟩
        rw [List.mem_append, List.mem_cons] at hr
        obtain hr | rfl | hr := hr
        · exact List.mem_append_left _ hr
        · bv_omega
        · exact List.mem_append_right _ hr
    unfold Overwritten
    rw [freeDescriptor_exRegions]
    rw [hmem]
    constructor
    · rintro (⟨-, hall, -⟩ | ⟨hr, -⟩)
      · exact absurd hall (hfirst hfree')
      · exact .inr ⟨hr, start, BitVec.le_refl _, hse, hfree⟩
    · rintro (⟨-, hall, -⟩ | ⟨hr, -⟩)
      · exact absurd hall (hfirst hfree)
      · exact .inr ⟨hr, start, BitVec.le_refl _, hse, hfree'⟩

/-- The end of the request is cut off before a region that reaches out of it. -/
theorem cutoff_iff (h : RegionsOk ex)
    (hs : regionScan start end_ [] ex.exRegions = .conflict before rp after)
    (hgt : start < rp.erStart) (hout : end_ ≤ rp.erEnd) (hpart : rp.erStart < end_) {ex' : Map w} :
    (Unites ex start (rp.erStart - 1#w) ex' ↔ Unites ex start end_ ex') ∧
      ¬ Overwritten ex start (rp.erStart - 1#w) ∧ ¬ Overwritten ex start end_ := by
  obtain ⟨heq, hcut, hb, hrp1, -⟩ := conflict_cut h hs
  have hrp : rp ∈ ex.exRegions := by simp [heq]
  have hone := Word.toNat_sub_one hgt
  have hfree := conflict_start_free h hs hgt
  refine ⟨forall_congr' fun a => iff_congr Iff.rfl ?_, not_overwritten_of_free hfree ?_ ?_,
    not_overwritten_of_free hfree ?_ ?_⟩
  · have hin : rp.erStart ≤ a ∧ a ≤ rp.erEnd → Covered ex.exRegions a := fun ha => ⟨rp, hrp, ha⟩
    by_cases hc : Covered ex.exRegions a
    · simp only [hc, true_or]
    · have hout' : ¬ (rp.erStart ≤ a ∧ a ≤ rp.erEnd) := fun ha => hc (hin ha)
      simp only [hc, false_or, BitVec.le_def, BitVec.lt_def] at *
      omega
  · simp only [BitVec.le_def, BitVec.lt_def] at *
    omega
  · -- such a region would have been the first to conflict
    intro r hr hstart
    have hnat := congrArg BitVec.toNat hstart
    rw [heq, List.mem_append, List.mem_reverse, List.mem_cons] at hr
    obtain hr | rfl | hr := hr
    · have h1 := hb r hr
      have h2 := (hcut.before_each r hr).2.1
      simp only [BitVec.le_def, BitVec.lt_def] at *
      omega
    · simp only [BitVec.lt_def] at *
      omega
    · have h1 := hcut.after_first r hr
      simp only [BitVec.le_def, BitVec.lt_def] at *
      omega
  · bv_omega
  · intro r hr hstart
    have hne := h.nonempty r hr
    have heq' := h.eq_of_shared hr hrp ⟨BitVec.le_of_eq hstart, hstart ▸ hne⟩
      ⟨BitVec.le_of_lt hpart, hout⟩
    rw [heq'] at hstart
    bv_omega

end Rounds

/-! ## The loop and the call -/

/-- The loop comes back with 0, and has united exactly when the request is not
one of those that go wrong. One case for each way a round ends. -/
theorem allocRegionLoop_unites {fl : Flags} (hco : fl.exConflictok = true)
    (hws : fl.exWaitspace = false) (myrp : Region w) :
    ∀ (fuel : Nat) {ex : Map w} {start size end_ : BitVec w}, RegionsOk ex →
      start ≤ end_ → ex.exStart ≤ start → end_ ≤ ex.exEnd → end_ = start + (size - 1#w) →
      (allocRegionLoop fl myrp fuel ex start size end_).1 ≠ .spins →
      (Unites ex start end_ (allocRegionLoop fl myrp fuel ex start size end_).2 ↔
        ¬ Overwritten ex start end_)
  | 0, ex, start, size, end_, _, _, _, _, _, hspin => absurd rfl hspin
  | fuel + 1, ex, start, size, end_, h, hse, hlo, hhi, hend, hspin => by
      rw [allocRegionLoop] at hspin ⊢
      split at hspin
      · rename_i before after hs
        obtain ⟨hunites, hno⟩ := clear_unites h myrp hse hend hs
        exact iff_of_true hunites hno
      · rename_i before rp after hs
        obtain ⟨heq, hcut, hb, hrp1, hrp2⟩ := conflict_cut h hs
        have hrp : rp ∈ ex.exRegions := by simp [heq]
        simp only [hws, hco, Bool.false_eq_true, if_false, if_true] at hspin ⊢
        split_ifs at hspin ⊢ with hle hlt hin hpart hgt
        · have hone := Word.toNat_add_one hlt
          have hsize : end_ = rp.erEnd + 1#w + (end_ - (rp.erEnd + 1#w) + 1#w - 1#w) := by grind
          by_cases hmore : rp.erEnd < end_
          · obtain ⟨hunites, hover⟩ := @shift_iff w ex start end_ rp before after h hs hle hmore
              (allocRegionLoop fl myrp fuel ex (rp.erEnd + 1#w) (end_ - (rp.erEnd + 1#w) + 1#w)
                end_).2
            rw [← hunites, ← hover]
            refine allocRegionLoop_unites hco hws myrp fuel h ?_ ?_ hhi hsize hspin
            · rw [BitVec.le_def]; rw [BitVec.lt_def] at hmore; omega
            · rw [BitVec.le_def] at *; omega
          · have hlast : end_ ≤ rp.erEnd := BitVec.not_lt.mp hmore
            cases fuel with
            | zero => exact absurd rfl hspin
            | succ fuel =>
                rw [allocRegionLoop, scan_swallowed h hs hle hse hlast hlt]
                exact swallowed_iff h myrp hs hle hse hlast hlt hsize.symm
        · -- `rp` reaches the end of the extent, and the rest of the request lies in it
          have hlast : end_ ≤ rp.erEnd := BitVec.le_trans hhi (BitVec.not_lt.mp hlt)
          have hall : ∀ a, start ≤ a → a ≤ end_ → Covered ex.exRegions a := fun a h1 h2 =>
            conflict_covered h hs hle h1 (BitVec.le_trans h2 hlast)
          rw [overwritten_of_covered h hall hrp ⟨BitVec.le_trans hle hse, hlast⟩]
          exact iff_of_true (unites_of_covered hall fun a => Iff.rfl) fun h => hlt h.2.2
        · have hgt := BitVec.not_le.mp hle
          obtain ⟨hunites, hover⟩ := @remove_iff w ex start end_ rp before after h hs hgt hin rp
            (allocRegionLoop fl myrp fuel
              (extentFreeRegionDescriptor { ex with exRegions := before.reverse ++ after } rp)
              start size end_).2
          rw [← hunites, ← hover]
          exact allocRegionLoop_unites hco hws myrp fuel (remove_regionsOk h heq rp) hse
            (by simpa using hlo) (by simpa using hhi) hend hspin
        · have hgt' := BitVec.not_le.mp hle
          have hone := Word.toNat_sub_one hgt'
          have hsize : rp.erStart - 1#w =
            start + (rp.erStart - 1#w - start + 1#w - 1#w) := by grind
          obtain ⟨hunites, hover, hover'⟩ := @cutoff_iff w ex start end_ rp before after h hs hgt'
            (BitVec.not_lt.mp hin) hpart
            (allocRegionLoop fl myrp fuel ex start (rp.erStart - 1#w - start + 1#w)
              (rp.erStart - 1#w)).2
          rw [← hunites]
          refine (allocRegionLoop_unites hco hws myrp fuel h ?_ hlo ?_ hsize hspin).trans
            (iff_of_true hover hover')
          · rw [BitVec.le_def]; rw [BitVec.lt_def] at hgt'; omega
          · rw [BitVec.le_def] at *; omega
        · -- no region begins at the start of the extent and behind the request
          bv_omega
        · -- `rp` begins with the last address, and the addresses before it are given up
          have hgt' := BitVec.not_le.mp hle
          have hexact : rp.erStart = end_ := BitVec.le_antisymm hrp1 (BitVec.not_lt.mp hpart)
          have hfree := conflict_start_free h hs hgt'
          refine iff_of_false (fun hunites => hfree ?_) (not_not.mpr (.inr ⟨⟨rp, hrp, hexact⟩,
            start, BitVec.le_refl _, hexact ▸ hgt', hfree⟩))
          exact (hunites start).mpr (.inr ⟨BitVec.le_refl _, hse⟩)

theorem Unites.congr {ex ex₁ ex' : Map w} {start end_ : BitVec w}
    (hr : ex₁.exRegions = ex.exRegions) :
    Unites ex₁ start end_ ex' ↔ Unites ex start end_ ex' := by
  simp only [Unites, hr]

theorem Overwritten.congr {ex ex₁ : Map w} {start end_ : BitVec w} (hf : Frame ex ex₁)
    (hr : ex₁.exRegions = ex.exRegions) :
    Overwritten ex₁ start end_ ↔ Overwritten ex start end_ := by
  simp only [Overwritten, hr, hf.nocoalesce, hf.last]

/-- From the descriptor on, whether it was there at once or waited for. -/
theorem getDescriptor_unites (diag : Bool) {ex ex' : Map w} {start size : BitVec w} {fl : Flags}
    {pool : Bool} {result : Option (BitVec w)} (h : RegionsOk ex)
    (hargs : (Call.allocRegion start size fl).ArgsOk ex) (hco : fl.exConflictok = true)
    (hret : getDescriptor diag ex pool (.allocRegion start size fl) = (.done none result, ex')) :
    Unites ex start (start + (size - 1#w)) ex' ↔ ¬ Overwritten ex start (start + (size - 1#w)) := by
  have hws : fl.exWaitspace = false := by simpa [hco] using hargs.2.2.2.2
  obtain ⟨hse, hlo, hhi⟩ := hargs.checked
  rw [getDescriptor] at hret
  split at hret
  · rename_i myrp ex₁ hd
    obtain ⟨hf, hr⟩ := allocDescriptor_frame (.inl ⟨myrp, hd⟩)
    have hfuel : (allocRegionLoop fl myrp (ex₁.exRegions.length + 1) ex₁ start size
        (start + (size - 1#w))).1 ≠ .spins :=
      allocRegionLoop_ne_spins fl myrp _ (Nat.lt_succ_of_le List.countP_le_length)
    have hloop := allocRegionLoop_unites hco hws myrp (ex₁.exRegions.length + 1)
      (h.congr hr hf.start hf.last) hse (hf.start ▸ hlo) (hf.last ▸ hhi) rfl hfuel
    rw [withDescriptor] at hret
    rw [hret] at hloop
    exact (Unites.congr hr).symm.trans (hloop.trans (not_congr (Overwritten.congr hf hr)))
  · simp at hret
  · simp at hret

/-- A call of `extent_alloc_region` with `EX_CONFLICTOK` that returns 0, at
once or after a wait for a descriptor, leaves allocated what was allocated
and the request, exactly when the request is not `Overwritten`. -/
theorem conflictok_unites_iff (diag : Bool) {ex ex' : Map w} {start size : BitVec w} {fl : Flags}
    {err pool : Bool} {result : Option (BitVec w)} (h : RegionsOk ex)
    (hargs : (Call.allocRegion start size fl).ArgsOk ex) (hco : fl.exConflictok = true)
    (hret : extentAllocRegion diag ex start size fl pool = (.done none result, ex')
      ∨ (Wait.freelist (.allocRegion start size fl)).resume diag ex err pool =
        (.done none result, ex')) :
    Unites ex start (start + (size - 1#w)) ex' ↔ ¬ Overwritten ex start (start + (size - 1#w)) := by
  have hget : getDescriptor diag ex pool (.allocRegion start size fl) =
      (.done none result, ex') := by
    obtain hret | hret := hret
    · obtain ⟨hsize, hse, hlo, hhi, hflags⟩ := hargs
      rw [extentAllocRegion] at hret
      rwa [if_neg, if_neg] at hret
      · simp [BitVec.not_lt.mpr hlo, BitVec.not_lt.mpr hhi]
      · have hone : ¬ size < 1#w := by
          rw [BitVec.lt_def, Word.one_toNat_of_lt hsize]
          rw [BitVec.lt_def] at hsize
          omega
        simp [hone, BitVec.not_lt.mpr hse, hflags]
    · rw [Wait.resume] at hret
      split at hret
      · simp at hret
      · exact hret
  exact getDescriptor_unites diag h hargs hco hget

/-- An extent of a hundred addresses with `[10, 39]` allocated. -/
def oneRegion : Map 64 where
  exStart := 0
  exEnd := 99
  exRegions := [⟨10, 39, true⟩]
  fexFreelist := []
  exfFixed := false
  exfNocoalesce := false
  exfWanted := false
  exfFlwanted := false

/-- A request around the region takes its place. -/
theorem conflictok_unites_around :
    ∃ ex', extentAllocRegion true oneRegion 5 40 { exConflictok := true } true =
        (.done none none, ex') ∧ Unites oneRegion 5 (5 + (40 - 1#64)) ex' := by
  refine ⟨{ oneRegion with exRegions := [⟨5, 44, true⟩] }, by decide +kernel, ?_⟩
  refine (@conflictok_unites_iff 64 true oneRegion _ 5 40 { exConflictok := true } false true none
    (by decide +kernel) (by decide +kernel) rfl (.inl (by decide +kernel))).mpr ?_
  exact not_overwritten_of_free (by decide +kernel) (by decide +kernel) (by decide +kernel)

/-- A request inside the region frees what lies behind it, and one that ends
with the first address of the region is not allocated. -/
theorem conflictok_frees_rest :
    RegionsOk oneRegion ∧ (Call.allocRegion 20 5 { exConflictok := true }).ArgsOk oneRegion ∧
      (∃ ex', extentAllocRegion true oneRegion 20 5 { exConflictok := true } true =
          (.done none none, ex') ∧ Covered oneRegion.exRegions 30 ∧ ¬ Covered ex'.exRegions 30 ∧
          ¬ Unites oneRegion 20 (20 + (5 - 1#64)) ex') ∧
      (∃ ex', extentAllocRegion true oneRegion 5 6 { exConflictok := true } true =
          (.done none none, ex') ∧ ¬ Covered ex'.exRegions 5 ∧
          ¬ Unites oneRegion 5 (5 + (6 - 1#64)) ex') := by
  have hold : Covered oneRegion.exRegions 30 := by decide +kernel
  have hlost : ¬ Covered [(⟨10, 24, true⟩ : Region 64)] 30 := by decide +kernel
  have hleft : ¬ Covered oneRegion.exRegions 5 := by decide +kernel
  refine ⟨by decide +kernel, by decide +kernel,
    ⟨{ oneRegion with exRegions := [⟨10, 24, true⟩] }, by decide +kernel, hold, hlost,
      fun hunites => hlost ((hunites 30).mpr (.inl hold))⟩,
    ⟨oneRegion, by decide +kernel, hleft, fun hunites => hleft ((hunites 5).mpr (.inr ?_))⟩⟩
  decide +kernel

end Obsd.Extent
