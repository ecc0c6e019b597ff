import Obsd.ExtentRegions
import Obsd.Word

/-!
# `extent_alloc_region`

The `alloc_start` loop. Without `EX_CONFLICTOK` it goes round once. With
it, each round moves the start of the request past a region that reaches
into it, removes a region inside it, or cuts its end off before a region
that reaches out of it, so each round has one conflicting region less
(`allocRegionLoop_ne_spins`).

Two kinds of request leave that loop by the wrong door, and the two
predicates say which in terms of the region list before the call.
`Swallowed` requests are allocated already: the start runs past the end,
and what is then inserted is an empty or inverted region. `Dropped`
requests reach a `return (0)` that forgets `myrp`.
-/

namespace Obsd.Extent

variable {w : Nat}

/-! ## Allocated addresses -/

/-- `a` is allocated. -/
def Covered (l : List (Region w)) (a : BitVec w) : Prop :=
  ∃ r ∈ l, r.erStart ≤ a ∧ a ≤ r.erEnd

instance (l : List (Region w)) (a : BitVec w) : Decidable (Covered l a) := by
  unfold Covered; infer_instance

/-- Every address of the request is allocated, and the region that holds its
end stops short of the end of the extent. -/
def Swallowed (ex : Map w) (start end_ : BitVec w) : Prop :=
  (∀ a, start ≤ a → a ≤ end_ → Covered ex.exRegions a)
    ∧ ∃ r ∈ ex.exRegions, r.erStart ≤ end_ ∧ end_ ≤ r.erEnd ∧ r.erEnd < ex.exEnd

/-- Every address of the request is allocated, the last of them in a region
that reaches the end of the extent; or a region begins exactly at the end of
the request and some address before it is free. -/
def Dropped (ex : Map w) (start end_ : BitVec w) : Prop :=
  ((∀ a, start ≤ a → a ≤ end_ → Covered ex.exRegions a)
      ∧ ∃ r ∈ ex.exRegions, r.erStart ≤ end_ ∧ ex.exEnd ≤ r.erEnd)
    ∨ ((∃ r ∈ ex.exRegions, r.erStart = end_)
      ∧ ∃ a, start ≤ a ∧ a < end_ ∧ ¬ Covered ex.exRegions a)

/-! ## The conflicting region, in a list in good shape -/

/-- What the scan says about the cut at the first conflict. -/
theorem conflict_cut {ex : Map w} {start end_ : BitVec w} {rp : Region w}
    {before after : List (Region w)} (h : RegionsOk ex)
    (hs : regionScan start end_ [] ex.exRegions = .conflict before rp after) :
    ex.exRegions = before.reverse ++ rp :: after
      ∧ CutOk ex.exStart ex.exEnd before (rp :: after)
      ∧ (∀ r ∈ before, r.erEnd < start) ∧ rp.erStart ≤ end_ ∧ start ≤ rp.erEnd := by
  obtain ⟨heq, hb, hc⟩ := regionScan_conflict hs
  have heq : ex.exRegions = before.reverse ++ rp :: after := by simpa using heq.symm
  exact ⟨heq, h.cut heq, fun r hr => by simpa using hb r hr, hc⟩

/-- If the first conflicting region begins behind `start`, then `start` itself
is free. -/
theorem conflict_start_free {ex : Map w} {start end_ : BitVec w} {rp : Region w}
    {before after : List (Region w)} (h : RegionsOk ex)
    (hs : regionScan start end_ [] ex.exRegions = .conflict before rp after)
    (hlt : start < rp.erStart) : ¬ Covered ex.exRegions start := by
  obtain ⟨heq, hcut, hb, -, -⟩ := conflict_cut h hs
  rintro ⟨r, hr, hr1, hr2⟩
  rw [heq, List.mem_append, List.mem_reverse, List.mem_cons] at hr
  rcases hr with hr | rfl | hr
  · have := hb r hr
    bv_omega
  · bv_omega
  · have h1 := hcut.after_first r hr
    have h2 := (hcut.after_each rp (by simp)).2.1
    bv_omega

/-- Addresses from `start` to the end of a conflicting region that begins at or
before it are allocated. -/
theorem conflict_covered {ex : Map w} {start end_ : BitVec w} {rp : Region w}
    {before after : List (Region w)} (h : RegionsOk ex)
    (hs : regionScan start end_ [] ex.exRegions = .conflict before rp after)
    (hle : rp.erStart ≤ start) {a : BitVec w} (ha : start ≤ a) (ha' : a ≤ rp.erEnd) :
    Covered ex.exRegions a := by
  obtain ⟨heq, -⟩ := conflict_cut h hs
  exact ⟨rp, by simp [heq], BitVec.le_trans hle ha, ha'⟩

/-! ## The shape of the list -/

/-- Past a region that swallows the rest of the request the scan is clear, and
the request is put right behind that region. -/
theorem scan_swallowed {ex : Map w} {start end_ : BitVec w} {rp : Region w}
    {before after : List (Region w)} (h : RegionsOk ex)
    (hs : regionScan start end_ [] ex.exRegions = .conflict before rp after)
    (hle : rp.erStart ≤ start) (hend : start ≤ end_) (hlast : end_ ≤ rp.erEnd)
    (hlt : rp.erEnd < ex.exEnd) :
    regionScan (rp.erEnd + 1#w) end_ [] ex.exRegions = .clear (rp :: before) after := by
  obtain ⟨heq, hcut, hb, -, hrp⟩ := conflict_cut h hs
  have hone := Word.toNat_add_one hlt
  have hsplit : ex.exRegions = (before.reverse ++ [rp]) ++ after := by simp [heq]
  rw [hsplit, regionScan_append, regionScan_beyond]
  · simp
  · intro r hr
    have := hcut.after_apart
    have := (List.pairwise_cons.mp this).1 r hr
    bv_omega
  · intro r hr
    rw [List.mem_append, List.mem_reverse, List.mem_singleton] at hr
    rcases hr with hr | rfl
    · have h1 := hb r hr
      have h2 := (hcut.before_each r hr).2.1
      constructor
      · bv_omega
      · rw [BitVec.lt_def] at h1 ⊢
        rw [BitVec.le_def] at hrp
        omega
    · constructor
      · bv_omega
      · rw [BitVec.lt_def]; omega

/-- A removed conflicting region leaves the rest in shape. -/
theorem remove_regionsOk {ex : Map w} {rp : Region w} {before after : List (Region w)}
    (h : RegionsOk ex) (heq : ex.exRegions = before.reverse ++ rp :: after) (q : Region w) :
    RegionsOk (extentFreeRegionDescriptor { ex with exRegions := before.reverse ++ after } q) := by
  have hcut := (Cut.snoc.mpr (h.cut heq)).tail
  exact CutOk.regionsOk before after (by simpa using hcut) (by simp)

/-- The loop keeps the list in shape, unless the extent does not coalesce and
the request is swallowed. -/
theorem allocRegionLoop_regionsOk (fl : Flags) (myrp : Region w) :
    ∀ (fuel : Nat) {ex : Map w} {start size end_ : BitVec w}, RegionsOk ex →
      start ≤ end_ → ex.exStart ≤ start → end_ ≤ ex.exEnd → end_ = start + (size - 1#w) →
      (fl.exConflictok = true → fl.exWaitspace = false → ex.exfNocoalesce = true →
        ¬ Swallowed ex start end_) →
      RegionsOk (allocRegionLoop fl myrp fuel ex start size end_).2
  | 0, ex, start, size, end_, h, _, _, _, _, _ => h
  | fuel + 1, ex, start, size, end_, h, hse, hlo, hhi, hend, hok => by
      rw [allocRegionLoop]
      split
      · rename_i before after hs
        obtain ⟨heq, hb, ha⟩ := regionScan_clear hs
        have heq : ex.exRegions = before.reverse ++ after := by simpa using heq.symm
        have hcut := h.cut heq
        refine insert_regionsOk myrp hcut hlo (hend ▸ hse) (hend ▸ hhi)
          (fun r hr => by simpa using hb r hr) ?_
        rw [← hend]
        -- only the first region behind the cut was compared; order does the rest
        cases after with
        | nil => simp
        | cons rp rest =>
            have hrp := ha rp rest rfl
            have hw := (hcut.after_each rp (by simp)).2.1
            intro r hr
            rcases List.mem_cons.mp hr with rfl | hr
            · exact hrp
            · have := hcut.after_first r hr
              bv_omega
      · rename_i before rp after hs
        obtain ⟨heq, hcut, hb, hrp1, hrp2⟩ := conflict_cut h hs
        split_ifs with hws hco hle hlt hin hpart hgt
        · exact h.congr rfl rfl rfl
        · have hws : fl.exWaitspace = false := by simpa using hws
          have hone := Word.toNat_add_one hlt
          by_cases hmore : rp.erEnd < end_
          · -- the request goes on behind `rp`
            refine allocRegionLoop_regionsOk fl myrp fuel h ?_ ?_ hhi (by grind) ?_
            · rw [BitVec.le_def]; rw [BitVec.lt_def] at hmore; omega
            · rw [BitVec.le_def] at *; omega
            · intro _ _ hnc hsw
              refine hok hco hws hnc ⟨fun a h1 h2 => ?_, hsw.2⟩
              by_cases ha : a ≤ rp.erEnd
              · exact conflict_covered h hs hle h1 ha
              · refine hsw.1 a ?_ h2
                rw [BitVec.not_le, BitVec.lt_def] at ha
                rw [BitVec.le_def]; omega
          · -- `rp` swallows what is left of it
            have hlast : end_ ≤ rp.erEnd := BitVec.not_lt.mp hmore
            have hnc : ex.exfNocoalesce = false := by
              by_contra hnc
              have hnc : ex.exfNocoalesce = true := by simpa using hnc
              refine hok hco hws hnc ⟨fun a h1 h2 => ?_, rp, by simp [heq], hrp1, hlast, hlt⟩
              exact conflict_covered h hs hle h1 (BitVec.le_trans h2 hlast)
            cases fuel with
            | zero => exact h
            | succ fuel =>
                rw [allocRegionLoop, scan_swallowed h hs hle hse hlast hlt]
                have hsize : rp.erEnd + 1#w + (end_ - (rp.erEnd + 1#w) + 1#w - 1#w) = end_ := by grind
                refine insert_swallowed_regionsOk myrp (Cut.snoc.mpr hcut) hnc rfl ?_ ?_
                · rw [hsize]; exact hrp1
                · rw [hsize]; exact hlast
        · exact h
        · -- `rp` lies inside the request and goes
          refine allocRegionLoop_regionsOk fl myrp fuel (remove_regionsOk h heq rp) hse
            (by simpa using hlo) (by simpa using hhi) hend ?_
          intro _ _ hnc hsw
          have hfree := conflict_start_free h hs (BitVec.not_le.mp hle)
          obtain ⟨r, hr, h1, h2⟩ := hsw.1 start (BitVec.le_refl _) hse
          refine hfree ⟨r, ?_, h1, h2⟩
          simp only [freeDescriptor_exRegions, List.mem_append] at hr
          rw [heq, List.mem_append]
          exact hr.imp id (List.mem_cons_of_mem _)
        · -- the request is cut off before `rp`
          have hone := Word.toNat_sub_one (BitVec.not_le.mp hle)
          have hlt := BitVec.not_le.mp hle
          refine allocRegionLoop_regionsOk fl myrp fuel h ?_ hlo ?_ (by grind) ?_
          · rw [BitVec.le_def]; rw [BitVec.lt_def] at hlt; omega
          · rw [BitVec.le_def]; rw [BitVec.lt_def] at hpart; rw [BitVec.le_def] at hhi; omega
          · intro _ _ hnc hsw
            have hle' : start ≤ rp.erStart - 1#w := by
              rw [BitVec.le_def]; rw [BitVec.lt_def] at hlt; omega
            exact conflict_start_free h hs hlt (hsw.1 start (BitVec.le_refl _) hle')
        · exact h
        · exact h
        · exact h.congr (by simp) (by simp) (by simp)

/-! ## The loop ends -/

/-- `r` overlaps the request. -/
def Region.conflicts (start end_ : BitVec w) (r : Region w) : Bool :=
  decide (r.erStart ≤ end_) && decide (start ≤ r.erEnd)

theorem countP_lt_of_imp {p q : Region w → Bool} {rp : Region w} {l : List (Region w)}
    (hm : rp ∈ l) (hp : p rp = true) (hq : q rp = false)
    (himp : ∀ r ∈ l, q r = true → p r = true) : l.countP q < l.countP p := by
  obtain ⟨l₁, l₂, rfl⟩ := List.append_of_mem hm
  have h1 : l₁.countP q ≤ l₁.countP p :=
    List.countP_mono_left fun r hr => himp r (by simp [hr])
  have h2 : l₂.countP q ≤ l₂.countP p :=
    List.countP_mono_left fun r hr => himp r (by simp [hr])
  simp only [List.countP_append, List.countP_cons, hp, hq]
  simp only [Bool.false_eq_true, if_true, if_false]
  omega

/-- The fuel `extent_alloc_region` starts with, one more than there are regions,
is never used up: no round meets the same conflict twice. -/
theorem allocRegionLoop_ne_spins (fl : Flags) (myrp : Region w) :
    ∀ (fuel : Nat) {ex : Map w} {start size end_ : BitVec w},
      ex.exRegions.countP (Region.conflicts start end_) < fuel →
      (allocRegionLoop fl myrp fuel ex start size end_).1 ≠ .spins
  | 0, _, _, _, _, h => absurd h (Nat.not_lt_zero _)
  | fuel + 1, ex, start, size, end_, h => by
      rw [allocRegionLoop]
      split
      · simp
      · rename_i before rp after hs
        obtain ⟨heq, -, hrp1, hrp2⟩ := regionScan_conflict hs
        have heq : ex.exRegions = before.reverse ++ rp :: after := by simpa using heq.symm
        have hmem : rp ∈ ex.exRegions := by simp [heq]
        have hconf : Region.conflicts start end_ rp = true := by simp [Region.conflicts, hrp1, hrp2]
        split_ifs with hws hco hle hlt hin hpart hgt
        · simp
        · have hone := Word.toNat_add_one hlt
          refine allocRegionLoop_ne_spins fl myrp fuel (Nat.lt_of_lt_of_le ?_ (Nat.le_of_lt_succ h))
          refine countP_lt_of_imp hmem hconf ?_ fun r _ hr => ?_
          · simp only [Region.conflicts, Bool.and_eq_false_iff, decide_eq_false_iff_not]
            right; rw [BitVec.not_le, BitVec.lt_def]; omega
          · simp only [Region.conflicts, Bool.and_eq_true, decide_eq_true_eq, BitVec.le_def] at hr ⊢
            rw [BitVec.le_def] at hrp2
            omega
        · simp
        · refine allocRegionLoop_ne_spins fl myrp fuel (Nat.lt_of_lt_of_le ?_ (Nat.le_of_lt_succ h))
          simp [heq, List.countP_append, hconf]
        · have hone := Word.toNat_sub_one hgt
          refine allocRegionLoop_ne_spins fl myrp fuel (Nat.lt_of_lt_of_le ?_ (Nat.le_of_lt_succ h))
          refine countP_lt_of_imp hmem hconf ?_ fun r _ hr => ?_
          · simp only [Region.conflicts, Bool.and_eq_false_iff, decide_eq_false_iff_not]
            rw [BitVec.not_le, BitVec.lt_def]; rw [gt_iff_lt, BitVec.lt_def] at hgt; omega
          · simp only [Region.conflicts, Bool.and_eq_true, decide_eq_true_eq, BitVec.le_def] at hr ⊢
            rw [BitVec.lt_def] at hpart
            omega
        · simp
        · simp
        · simp

/-! ## Frame -/

theorem allocRegionLoop_frame (fl : Flags) (myrp : Region w) :
    ∀ (fuel : Nat) (ex : Map w) (start size end_ : BitVec w),
      Frame ex (allocRegionLoop fl myrp fuel ex start size end_).2
  | 0, ex, _, _, _ => Frame.refl ex
  | fuel + 1, ex, start, size, end_ => by
      rw [allocRegionLoop]
      split
      · exact insert_frame ..
      · split_ifs
        · exact ⟨rfl, rfl, rfl, rfl⟩
        · exact allocRegionLoop_frame fl myrp fuel _ _ _ _
        · exact Frame.refl ex
        · exact (freeDescriptor_regions_frame ex _ _).trans
            (allocRegionLoop_frame fl myrp fuel _ _ _ _)
        · exact allocRegionLoop_frame fl myrp fuel _ _ _ _
        · exact Frame.refl ex
        · exact Frame.refl ex
        · exact freeDescriptor_frame ..

/-- Only a call that waits for space sleeps, in its first round, and it will
start over with the arguments it had. -/
theorem allocRegionLoop_asleep {fl : Flags} {myrp : Region w} {p : Wait w} :
    ∀ {fuel : Nat} {ex : Map w} {start size end_ : BitVec w},
      (allocRegionLoop fl myrp fuel ex start size end_).1 = .asleep p →
      p = .space (.allocRegion start size fl) myrp ∧ fl.exWaitspace = true
        ∧ (allocRegionLoop fl myrp fuel ex start size end_).2 = { ex with exfWanted := true }
  | 0, _, _, _, _, h => by simp [allocRegionLoop] at h
  | fuel + 1, ex, start, size, end_, h => by
      rw [allocRegionLoop] at h ⊢
      split at h
      · simp at h
      · split_ifs at h with hws
        · exact ⟨by simpa using h.symm, hws, by simp [hws]⟩
        all_goals exact absurd (allocRegionLoop_asleep h).2.1 hws

end Obsd.Extent
