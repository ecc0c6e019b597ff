import Obsd.Cut
import Obsd.Extent

/-!
# What the region list keeps

The shape of a region list, `Apart`, and what inserting, scanning and
freeing do to it. Everything is about a list cut in two, `before.reverse
++ after`, because that is how the source holds its place in it.
-/

namespace Obsd.Extent

variable {w : Nat}

/-! ## Shape -/

/-- Sorted and disjoint in one: each region ends before the next begins. -/
def Apart (l : List (Region w)) : Prop :=
  l.Pairwise fun a b => a.erEnd < b.erStart

/-- A region that is not empty and lies in `[lo, hi]`. -/
def Region.Within (lo hi : BitVec w) (r : Region w) : Prop :=
  lo ≤ r.erStart ∧ r.erStart ≤ r.erEnd ∧ r.erEnd ≤ hi

/-- The invariant of `ex_regions`: strictly sorted by `er_start`, pairwise
disjoint, no region empty, all inside the extent. -/
structure RegionsOk (ex : Map w) : Prop where
  sorted : ex.exRegions.Pairwise fun a b => a.erStart < b.erStart
  disjoint : ex.exRegions.Pairwise fun a b => a.erEnd < b.erStart ∨ b.erEnd < a.erStart
  nonempty : ∀ r ∈ ex.exRegions, r.erStart ≤ r.erEnd
  inside : ∀ r ∈ ex.exRegions, ex.exStart ≤ r.erStart ∧ r.erEnd ≤ ex.exEnd

instance (ex : Map w) : Decidable (RegionsOk ex) :=
  decidable_of_iff
    ((ex.exRegions.Pairwise fun a b => a.erStart < b.erStart)
      ∧ (ex.exRegions.Pairwise fun a b => a.erEnd < b.erStart ∨ b.erEnd < a.erStart)
      ∧ (∀ r ∈ ex.exRegions, r.erStart ≤ r.erEnd)
      ∧ ∀ r ∈ ex.exRegions, ex.exStart ≤ r.erStart ∧ r.erEnd ≤ ex.exEnd)
    ⟨fun ⟨a, b, c, d⟩ => ⟨a, b, c, d⟩, fun ⟨a, b, c, d⟩ => ⟨a, b, c, d⟩⟩

theorem RegionsOk.within {ex : Map w} (h : RegionsOk ex) :
    ∀ r ∈ ex.exRegions, r.Within ex.exStart ex.exEnd :=
  fun r hr => ⟨(h.inside r hr).1, h.nonempty r hr, (h.inside r hr).2⟩

theorem RegionsOk.apart {ex : Map w} (h : RegionsOk ex) : Apart ex.exRegions := by
  refine (h.sorted.and h.disjoint).imp_of_mem fun {a b} _ hb hab => ?_
  have hne := h.nonempty b hb
  obtain ⟨hlt, hd⟩ := hab
  rcases hd with hd | hd <;> bv_omega

theorem regionsOk_of_apart {ex : Map w} (ha : Apart ex.exRegions)
    (hw : ∀ r ∈ ex.exRegions, r.Within ex.exStart ex.exEnd) : RegionsOk ex where
  sorted := by
    refine List.Pairwise.imp_of_mem (fun {a b} hma _ hab => ?_) ha
    have := (hw a hma).2.1
    bv_omega
  disjoint := ha.imp fun h => Or.inl h
  nonempty r hr := (hw r hr).2.1
  inside r hr := ⟨(hw r hr).1, (hw r hr).2.2⟩

/-! ## Cuts -/

/-- A cut of a list in good shape: the two halves are apart and everything
lies in `[lo, hi]`. -/
abbrev CutOk (lo hi : BitVec w) (before after : List (Region w)) : Prop :=
  Cut (fun a b => a.erEnd < b.erStart) (Region.Within lo hi) before after

/-- Shrink the region behind the cut. -/
theorem CutOk.shrink {lo hi : BitVec w} {r r' : Region w} {before after : List (Region w)}
    (h : CutOk lo hi before (r :: after)) (hs : r.erStart ≤ r'.erStart)
    (hne : r'.erStart ≤ r'.erEnd) (he : r'.erEnd ≤ r.erEnd) :
    CutOk lo hi before (r' :: after) := by
  have hr := h.after_each r (by simp)
  exact h.replace ⟨BitVec.le_trans hr.1 hs, hne, BitVec.le_trans he hr.2.2⟩
    (fun b hb => Nat.lt_of_lt_of_le hb hs) fun b hb => Nat.lt_of_le_of_lt he hb

theorem CutOk.regionsOk {ex : Map w} (before after : List (Region w))
    (h : CutOk ex.exStart ex.exEnd before after)
    (heq : ex.exRegions = before.reverse ++ after) : RegionsOk ex :=
  regionsOk_of_apart (heq ▸ h.apart) (heq ▸ h.each)

theorem RegionsOk.cut {ex : Map w} {before after : List (Region w)} (h : RegionsOk ex)
    (heq : ex.exRegions = before.reverse ++ after) :
    CutOk ex.exStart ex.exEnd before after :=
  ⟨heq ▸ h.apart, heq ▸ h.within⟩

/-! ## What no operation touches -/

/-- The bounds and the creation flags of an extent. -/
structure Frame (ex ex' : Map w) : Prop where
  start : ex'.exStart = ex.exStart
  last : ex'.exEnd = ex.exEnd
  nocoalesce : ex'.exfNocoalesce = ex.exfNocoalesce
  fixed : ex'.exfFixed = ex.exfFixed

theorem Frame.refl (ex : Map w) : Frame ex ex := ⟨rfl, rfl, rfl, rfl⟩

theorem Frame.trans {ex ex' ex'' : Map w} (h : Frame ex ex') (h' : Frame ex' ex'') :
    Frame ex ex'' :=
  ⟨h'.start.trans h.start, h'.last.trans h.last, h'.nocoalesce.trans h.nocoalesce,
    h'.fixed.trans h.fixed⟩

theorem freeDescriptor_frame (ex : Map w) (rp : Region w) :
    Frame ex (extentFreeRegionDescriptor ex rp) := by
  unfold extentFreeRegionDescriptor
  split_ifs <;> exact ⟨rfl, rfl, rfl, rfl⟩

theorem freeDescriptor_regions_frame (ex : Map w) (regions : List (Region w)) (rp : Region w) :
    Frame ex (extentFreeRegionDescriptor { ex with exRegions := regions } rp) := by
  have h : Frame ex { ex with exRegions := regions } := ⟨rfl, rfl, rfl, rfl⟩
  exact h.trans (freeDescriptor_frame _ rp)

@[simp] theorem freeDescriptor_exRegions (ex : Map w) (rp : Region w) :
    (extentFreeRegionDescriptor ex rp).exRegions = ex.exRegions := by
  unfold extentFreeRegionDescriptor; split_ifs <;> rfl

@[simp] theorem freeDescriptor_exStart (ex : Map w) (rp : Region w) :
    (extentFreeRegionDescriptor ex rp).exStart = ex.exStart :=
  (freeDescriptor_frame ex rp).start

@[simp] theorem freeDescriptor_exEnd (ex : Map w) (rp : Region w) :
    (extentFreeRegionDescriptor ex rp).exEnd = ex.exEnd :=
  (freeDescriptor_frame ex rp).last

/-- The region list decides `RegionsOk`, together with the bounds. -/
theorem RegionsOk.congr {ex ex' : Map w} (h : RegionsOk ex)
    (hr : ex'.exRegions = ex.exRegions) (hs : ex'.exStart = ex.exStart)
    (he : ex'.exEnd = ex.exEnd) : RegionsOk ex' :=
  ⟨hr ▸ h.sorted, hr ▸ h.disjoint, hr ▸ h.nonempty, hs ▸ he ▸ hr ▸ h.inside⟩

/-! ## Insertion -/

theorem insert_frame (ex : Map w) (start size : BitVec w) (before after : List (Region w))
    (rp : Region w) : Frame ex (extentInsertAndOptimize ex start size before after rp) := by
  unfold extentInsertAndOptimize
  rcases before with _ | ⟨last, bs⟩ <;> rcases after with _ | ⟨next, rest⟩
  · exact ⟨rfl, rfl, rfl, rfl⟩
  all_goals
    dsimp only
    split_ifs
    all_goals first
      | exact ⟨rfl, rfl, rfl, rfl⟩
      | exact freeDescriptor_regions_frame ex _ _
      | exact (freeDescriptor_regions_frame ex _ _).trans (freeDescriptor_frame _ _)

/-- The region list after an insertion, branch by branch: the new region on
its own, or one of its neighbours stretched over it, or both joined. -/
theorem insert_regions_cases (ex : Map w) (start size : BitVec w)
    (before after : List (Region w)) (rp : Region w) :
    let regions := (extentInsertAndOptimize ex start size before after rp).exRegions
    let end_ := start + (size - 1#w)
    (regions = ({ rp with erStart := start, erEnd := end_ } :: before).reverse ++ after
        ∧ (ex.exfNocoalesce = false → ∀ last bs, before = last :: bs → last.erEnd + 1#w ≠ start))
      ∨ (ex.exfNocoalesce = false ∧ (∀ last bs, before = last :: bs → last.erEnd + 1#w ≠ start)
          ∧ ∃ next rest, after = next :: rest ∧ start + size = next.erStart
          ∧ regions = before.reverse ++ { next with erStart := start } :: rest)
      ∨ (ex.exfNocoalesce = false ∧ ∃ last bs, before = last :: bs ∧ last.erEnd + 1#w = start
          ∧ regions = ({ last with erEnd := end_ } :: bs).reverse ++ after)
      ∨ (ex.exfNocoalesce = false ∧ ∃ last bs next rest, before = last :: bs
          ∧ after = next :: rest ∧ last.erEnd + 1#w = start ∧ start + size = next.erStart
          ∧ regions = ({ last with erEnd := next.erEnd } :: bs).reverse ++ rest) := by
  intro regions end_
  rcases before with _ | ⟨last, bs⟩
  · rcases after with _ | ⟨next, rest⟩
    · left; exact ⟨rfl, by simp⟩
    · by_cases hc : (!ex.exfNocoalesce && start + size == next.erStart) = true
      · right; left
        simp only [Bool.and_eq_true, Bool.not_eq_true', beq_iff_eq] at hc
        exact ⟨hc.1, by simp, next, rest, rfl, hc.2, by simp [regions, extentInsertAndOptimize, hc]⟩
      · simp [regions, extentInsertAndOptimize, hc, end_]
  · by_cases hnc : ex.exfNocoalesce = true
    · left; simp [regions, extentInsertAndOptimize, hnc, end_]
    have hnc : ex.exfNocoalesce = false := by simpa using hnc
    by_cases happ : last.erEnd + 1#w = start
    · rcases after with _ | ⟨next, rest⟩
      · right; right; left
        exact ⟨hnc, last, bs, rfl, happ, by simp [regions, extentInsertAndOptimize, hnc, happ, end_]⟩
      · by_cases hn : start + size = next.erStart
        · right; right; right
          exact ⟨hnc, last, bs, next, rest, rfl, rfl, happ, hn,
            by simp [regions, extentInsertAndOptimize, hnc, happ, hn]⟩
        · right; right; left
          exact ⟨hnc, last, bs, rfl, happ,
            by simp [regions, extentInsertAndOptimize, hnc, happ, hn, end_]⟩
    · have hne : ∀ l b, last :: bs = l :: b → l.erEnd + 1#w ≠ start := by
        rintro l b ⟨rfl, rfl⟩
        exact happ
      rcases after with _ | ⟨next, rest⟩
      · left
        exact ⟨by simp [regions, extentInsertAndOptimize, hnc, happ, end_], fun _ => hne⟩
      · by_cases hn : start + size = next.erStart
        · right; left
          exact ⟨hnc, hne, next, rest, rfl, hn,
            by simp [regions, extentInsertAndOptimize, hnc, happ, hn]⟩
        · left
          exact ⟨by simp [regions, extentInsertAndOptimize, hnc, happ, hn, end_], fun _ => hne⟩

/-- A request that fits into the cut is inserted in good shape. -/
theorem insert_regionsOk {ex : Map w} {start size : BitVec w} {before after : List (Region w)}
    (rp : Region w) (h : CutOk ex.exStart ex.exEnd before after)
    (hlo : ex.exStart ≤ start) (hse : start ≤ start + (size - 1#w))
    (hhi : start + (size - 1#w) ≤ ex.exEnd)
    (hb : ∀ r ∈ before, r.erEnd < start) (ha : ∀ r ∈ after, start + (size - 1#w) < r.erStart) :
    RegionsOk (extentInsertAndOptimize ex start size before after rp) := by
  set end_ := start + (size - 1#w)
  rcases insert_regions_cases ex start size before after rp with
    ⟨heq, -⟩ | ⟨-, -, next, rest, rfl, -, heq⟩ | ⟨-, last, bs, rfl, -, heq⟩
      | ⟨-, last, bs, next, rest, rfl, rfl, -, -, heq⟩
  · refine CutOk.regionsOk (_ :: before) after ?_ heq
    rw [(insert_frame ..).start, (insert_frame ..).last]
    exact h.insert ⟨hlo, hse, hhi⟩ hb ha
  · refine CutOk.regionsOk before (_ :: rest) ?_ heq
    have hn := ha next (by simp)
    have hnw := h.after_each next (by simp)
    have hrest := h.after_first
    have h' := h.drop
    rw [(insert_frame ..).start, (insert_frame ..).last]
    refine Cut.snoc.mp (h'.insert ⟨hlo, ?_, hnw.2.2⟩ hb hrest)
    have := hnw.2.1
    bv_omega
  · refine CutOk.regionsOk (_ :: bs) after ?_ heq
    have hl := hb last (by simp)
    have hlw := h.before_each last (by simp)
    rw [(insert_frame ..).start, (insert_frame ..).last]
    refine h.tail.insert ⟨hlw.1, ?_, hhi⟩ h.before_last ha
    have := hlw.2.1
    show last.erStart ≤ end_
    bv_omega
  · refine CutOk.regionsOk (_ :: bs) rest ?_ heq
    have hl := hb last (by simp)
    have hlw := h.before_each last (by simp)
    have hn := ha next (by simp)
    have hnw := h.after_each next (by simp)
    have hrest := h.after_first
    rw [(insert_frame ..).start, (insert_frame ..).last]
    refine (h.drop.tail).insert ⟨hlw.1, ?_, hnw.2.2⟩ h.before_last hrest
    have := hlw.2.1
    have := hnw.2.1
    bv_omega

/-- When the request begins right behind `last` and ends inside it, `last` is
cut off at the end of the request, or joined to the region behind it. The
list stays in shape, whatever was allocated there. -/
theorem insert_swallowed_regionsOk {ex : Map w} {start size : BitVec w} {last : Region w}
    {bs after : List (Region w)} (rp : Region w)
    (h : CutOk ex.exStart ex.exEnd (last :: bs) after) (hnc : ex.exfNocoalesce = false)
    (happ : last.erEnd + 1#w = start)
    (hle : last.erStart ≤ start + (size - 1#w)) (hge : start + (size - 1#w) ≤ last.erEnd) :
    RegionsOk (extentInsertAndOptimize ex start size (last :: bs) after rp) := by
  set end_ := start + (size - 1#w)
  have hlw := h.before_each last (by simp)
  have hcross := fun b hb => h.cross last (by simp) b hb
  rcases insert_regions_cases ex start size (last :: bs) after rp with
    ⟨-, hne⟩ | ⟨-, hne, -⟩ | ⟨-, last, bs, ⟨rfl, rfl⟩, -, heq⟩
      | ⟨-, last, bs, next, rest, ⟨rfl, rfl⟩, rfl, -, -, heq⟩
  · exact absurd happ (hne hnc last bs rfl)
  · exact absurd happ (hne last bs rfl)
  · refine CutOk.regionsOk (_ :: bs) after ?_ heq
    rw [(insert_frame ..).start, (insert_frame ..).last]
    refine h.tail.insert ⟨hlw.1, hle, ?_⟩ h.before_last fun b hb => ?_
    · have := hlw.2.2
      show end_ ≤ ex.exEnd
      bv_omega
    · have := hcross b hb
      show end_ < b.erStart
      bv_omega
  · refine CutOk.regionsOk (_ :: bs) rest ?_ heq
    have hnw := h.after_each next (by simp)
    have hn := hcross next (by simp)
    have hrest := h.after_first
    rw [(insert_frame ..).start, (insert_frame ..).last]
    refine (h.drop.tail).insert ⟨hlw.1, ?_, hnw.2.2⟩ h.before_last hrest
    have := hnw.2.1
    bv_omega

/-! ## The scan for a conflict -/

theorem regionScan_clear {start end_ : BitVec w} :
    ∀ {before l before' after' : List (Region w)},
      regionScan start end_ before l = .clear before' after' →
      before'.reverse ++ after' = before.reverse ++ l
        ∧ (∀ r ∈ before', r ∈ before ∨ r.erEnd < start)
        ∧ ∀ rp rest, after' = rp :: rest → end_ < rp.erStart
  | before, [], _, _, h => by
      obtain ⟨rfl, rfl⟩ : before = _ ∧ [] = _ := by simpa [regionScan] using h
      exact ⟨rfl, fun r hr => Or.inl hr, by simp⟩
  | before, rp :: l, before', after', h => by
      rw [regionScan] at h
      split_ifs at h with h1 h2
      · obtain ⟨rfl, rfl⟩ : before = before' ∧ rp :: l = after' := by simpa using h
        refine ⟨rfl, fun r hr => Or.inl hr, ?_⟩
        rintro _ _ ⟨rfl, rfl⟩
        exact h1
      · obtain ⟨heq, hb, ha⟩ := regionScan_clear h
        refine ⟨by simpa using heq, fun r hr => ?_, ha⟩
        rcases hb r hr with hm | hlt
        · rcases List.mem_cons.mp hm with rfl | hm
          · exact Or.inr (BitVec.not_le.mp h2)
          · exact Or.inl hm
        · exact Or.inr hlt

theorem regionScan_conflict {start end_ : BitVec w} {rp : Region w} :
    ∀ {before l before' after' : List (Region w)},
      regionScan start end_ before l = .conflict before' rp after' →
      before'.reverse ++ rp :: after' = before.reverse ++ l
        ∧ (∀ r ∈ before', r ∈ before ∨ r.erEnd < start)
        ∧ rp.erStart ≤ end_ ∧ start ≤ rp.erEnd
  | before, [], _, _, h => by simp [regionScan] at h
  | before, r :: l, before', after', h => by
      rw [regionScan] at h
      split_ifs at h with h1 h2
      · obtain ⟨rfl, rfl, rfl⟩ : before = before' ∧ r = rp ∧ l = after' := by simpa using h
        exact ⟨rfl, fun r hr => Or.inl hr, BitVec.not_lt.mp h1, h2⟩
      · obtain ⟨heq, hb, hc⟩ := regionScan_conflict h
        refine ⟨by simpa using heq, fun x hx => ?_, hc⟩
        rcases hb x hx with hm | hlt
        · rcases List.mem_cons.mp hm with rfl | hm
          · exact Or.inr (BitVec.not_le.mp h2)
          · exact Or.inl hm
        · exact Or.inr hlt

/-- Regions before the request are passed over. -/
theorem regionScan_append {start end_ : BitVec w} :
    ∀ {l₁ l₂ before : List (Region w)},
      (∀ r ∈ l₁, r.erStart ≤ end_ ∧ r.erEnd < start) →
      regionScan start end_ before (l₁ ++ l₂) = regionScan start end_ (l₁.reverse ++ before) l₂
  | [], _, _, _ => rfl
  | r :: l₁, l₂, before, h => by
      obtain ⟨h1, h2⟩ := h r (by simp)
      rw [List.cons_append, regionScan, if_neg (BitVec.not_lt.mpr h1), if_neg (BitVec.not_le.mpr h2),
        regionScan_append fun x hx => h x (List.mem_cons_of_mem _ hx)]
      simp

/-- Regions behind the request end the scan. -/
theorem regionScan_beyond {start end_ : BitVec w} {before l : List (Region w)}
    (h : ∀ r ∈ l, end_ < r.erStart) : regionScan start end_ before l = .clear before l := by
  cases l with
  | nil => rfl
  | cons r l => rw [regionScan, if_pos (h r (by simp))]

end Obsd.Extent
