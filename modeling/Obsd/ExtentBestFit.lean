import Obsd.ExtentPlace

/-!
# The gap `extent_alloc_subregion` chooses

The search is complete: it gives up only when the request has no place,
and without `EX_FAST` no gap that can hold the request has less space left
over than the one it takes (`alloc_bestFit`). What one gap yields is its
first place (`TriedAt.gap`), and `bestovh` is the least overhead of the
gaps behind the search (`BestUpTo`).

Two slips break this (`Thorough.roomy`, `Thorough.tie`). A candidate moved
up to a boundary line is given up, with all gaps behind it, when the line
after that does not fit into a word, even though the request may end
before. And the overhead of the last gap is one too large when the gap is
bounded by a region behind the subregion: `exend` is then the first
address past the gap, not its last.
-/

namespace Obsd.Extent

variable {w : Nat}

namespace Request

/-! ## Gaps -/

/-- `s` is the first place in its gap. -/
def First (ex : Map w) (q : Request w) (s : BitVec w) : Prop :=
  q.Placement ex s ∧ ∀ s', q.Placement ex s' → s' < s →
    ∃ r ∈ ex.exRegions, s' < r.erStart ∧ r.erStart < s

/-- What is left of the gap behind the request at `s`. -/
def leftover (ex : Map w) (q : Request w) (s : BitVec w) : Nat :=
  match ex.exRegions.find? fun r => q.last s < r.erStart with
  | some r => r.erStart.toNat - (q.last s).toNat - 1
  | none => ex.exEnd.toNat - (q.last s).toNat

/-- `s` lies in the gap that reaches over the end of the subregion, and a
region bounds that gap. -/
def InLastGap (ex : Map w) (q : Request w) (s : BitVec w) : Prop :=
  (∃ r ∈ ex.exRegions, q.subend < r.erStart) ∧
    ∀ r ∈ ex.exRegions, s < r.erStart → q.subend < r.erStart

/-! ## Conditions on a call -/

/-- `c` is the least aligned address of those above, if there is one. -/
def LeastAbove (q : Request w) (above : BitVec w → Prop) (c : BitVec w) : Prop :=
  (above c → q.Aligned c) ∧ ∀ s, above s → q.Aligned s → above c ∧ c ≤ s

/-- The search computes what it needs, and neither slip comes into play. -/
structure Thorough (ex : Map w) (q : Request w) : Prop where
  start : q.LeastAbove (q.substart ≤ ·) q.start
  past : ∀ r ∈ ex.exRegions, q.start ≤ r.erEnd →
    q.LeastAbove (r.erEnd < ·) (extentAlign (r.erEnd + 1#w) q.alignment q.skew)
  line : q.boundary ≠ 0#w → ∀ c, q.Tried ex c → q.Room ex c → q.LineOk ex c
  moved : q.boundary ≠ 0#w → ∀ c, q.Tried ex c → q.Room ex c → q.Moved ex c →
    q.Aligned (dontcross ex q.fl q.boundary c + 1#w)
  roomy : q.boundary ≠ 0#w → ∀ c, q.Tried ex c → q.Room ex c → q.Moved ex c →
    dontcross ex q.fl q.boundary c < dontcross ex q.fl q.boundary c + q.boundary
  tie : ∀ f g, q.First ex f → q.InLastGap ex f → q.First ex g → g < f →
    q.leftover ex g = q.leftover ex f + 1 →
    ∃ h, q.First ex h ∧ h < f ∧ q.leftover ex h ≤ q.leftover ex f

end Request

section Conditions

variable {ex : Map w} {q : Request w} {s : BitVec w}

open Request

theorem Request.Placement.endsInside (h : q.Placement ex s) : q.EndsInside s := by
  have h1 := h.noWrap
  have h2 := h.hi
  rw [last] at h1 h2
  simp [EndsInside, leOv, h1, h2]

/-- If there is a place at all, no alignment the search needs wraps. -/
theorem Request.Thorough.tame (ht : q.Thorough ex) (hs : q.Placement ex s) : q.Tame ex := by
  obtain ⟨hstart, hle⟩ := ht.start.2 s hs.lo hs.aligned
  refine ⟨hstart, fun r hr hlt hge => ?_, fun c hc _ => ?_, ht.line, ht.moved⟩
  · -- the place is behind the region that holds the start
    have hfree := hs.free s (BitVec.le_refl _) hs.noWrap
    have hbehind : r.erEnd < s := by
      by_contra hn
      exact hfree ⟨r, hr, Nat.le_of_lt (Nat.lt_of_lt_of_le hlt hle), BitVec.not_lt.mp hn⟩
    exact ((ht.past r hr hge).2 s hbehind hs.aligned).1
  · rcases hc with ⟨rfl, -⟩ | ⟨r, hr, hge, hlt, rfl⟩
    · exact ht.start.1 hstart
    · exact (ht.past r hr hge).1 hlt

end Conditions

theorem leOv_mono {x x' y z : BitVec w} (hle : x ≤ x') (h : leOv x' y z = true) :
    leOv x y z = true := by
  simp only [leOv, ge_iff_le, Bool.and_eq_true, decide_eq_true_eq] at h ⊢
  obtain ⟨hnw, hz⟩ := h
  have hsum' := Word.toNat_add_of_le hnw
  rw [BitVec.le_def] at hle hz
  have hsum : (x + y).toNat = x.toNat + y.toNat := BitVec.toNat_add_of_lt (by omega)
  rw [BitVec.le_def, BitVec.le_def]
  omega

/-! ## One gap -/

section Gap

variable {ex : Map w} {q : Request w} {c ns s : BitVec w} {before after rest : List (Region w)}
  {rp : Region w}

open Request

/-- A request that starts behind `c` and before the line `c` crosses crosses it
too. -/
theorem nextLine_le_of_uncrossed (hle : c ≤ s) (hnw : s ≤ q.last s)
    (hcnw : c ≤ q.last c) (hcross : q.nextLine ex c ≤ (q.last c).toNat)
    (hun : q.Uncrossed ex s (q.last s)) : q.nextLine ex c ≤ s.toNat := by
  by_contra hn
  refine hun ((c.toNat - (q.lineBase ex).toNat) / q.boundary.toNat + 1)
    ⟨Nat.not_le.mp hn, ?_⟩
  have h1 : (q.last s).toNat = s.toNat + (q.size - 1#w).toNat := Word.toNat_add_of_le hnw
  have h2 : (q.last c).toNat = c.toNat + (q.size - 1#w).toNat := Word.toNat_add_of_le hcnw
  rw [BitVec.le_def] at hle
  rw [nextLine] at hcross
  omega

/-- `c` is the first aligned address of the subregion behind the cut. -/
structure LeastAt (ex : Map w) (q : Request w) (c : BitVec w) (before after : List (Region w)) :
    Prop extends TriedAt ex q c before after where
  least : ∀ s, q.substart ≤ s → q.Aligned s → (∀ r ∈ before, r.erEnd < s) → c ≤ s

/-- A place before the candidate is in a gap the search has passed. -/
theorem LeastAt.earlier (h : LeastAt ex q c before after) (hs : q.Placement ex s) (hlt : s < c) :
    ∃ r ∈ before, s < r.erStart := by
  by_contra hn
  have hbehind : ∀ r ∈ before, r.erEnd < s := by
    intro r hr
    by_contra hle
    refine hs.free s (BitVec.le_refl _) hs.noWrap ⟨r, by simp [h.cut, hr], ?_,
      BitVec.not_lt.mp hle⟩
    exact BitVec.not_lt.mp fun hlt => hn ⟨r, hr, hlt⟩
  exact absurd hlt (BitVec.not_lt.mpr (h.least s hs.lo hs.aligned hbehind))

/-- The boundary check of a candidate that passed its test, when the lines are
right: it leaves the candidate alone, or the request crosses the line and the
test decides on the line. -/
theorem boundaryCheck_cases (hsub : q.subend ≤ ex.exEnd) {fits : BitVec w → Bool}
    (hends : ∀ s, c ≤ s → fits s = true → q.EndsInside s) (hfit : fits c = true)
    (hline : q.boundary ≠ 0#w → q.LineOk ex c)
    (hroomy : q.boundary ≠ 0#w → ex.exStart ≤ dontcross ex q.fl q.boundary c →
      dontcross ex q.fl q.boundary c < q.last c → fits (dontcross ex q.fl q.boundary c + 1#w) = true →
      dontcross ex q.fl q.boundary c < dontcross ex q.fl q.boundary c + q.boundary) :
    boundaryCheck ex q.fl q.size q.boundary fits c = .fits c ∨
      ∃ ns, q.boundary ≠ 0#w ∧ ns.toNat = q.nextLine ex c ∧ q.nextLine ex c ≤ (q.last c).toNat ∧
        boundaryCheck ex q.fl q.size q.boundary fits c
          = if fits ns then .fits ns else .nofit := by
  -- a start that ends inside the subregion does not run past the extent
  have hruns : ∀ x d, q.EndsInside x → ¬ d < x →
      ¬ (decide (x + q.size - 1#w > ex.exEnd) || decide (d < x)) = true := by
    intro x d hx hd
    have hlast := BitVec.le_trans (leOv_last hx).2 hsub
    have heq : x + q.size - 1#w = x + (q.size - 1#w) := by grind
    simp only [heq, gt_iff_lt, BitVec.not_lt.mpr hlast, hd, decide_false, Bool.or_self,
      Bool.false_eq_true, not_false_eq_true]
  have hin := hends c (BitVec.le_refl _) hfit
  obtain ⟨hnw, hend⟩ := leOv_last hin
  -- a candidate that crosses its line goes to the line
  have hcrossed : q.boundary ≠ 0#w → ¬ dontcross ex q.fl q.boundary c < ex.exStart →
      dontcross ex q.fl q.boundary c < q.last c →
      (dontcross ex q.fl q.boundary c + 1#w).toNat = q.nextLine ex c ∧
        q.nextLine ex c ≤ (q.last c).toNat := by
    intro h0 hlow hcross
    have hlineOk := hline h0
    rw [LineOk, if_neg hlow] at hlineOk
    have hlt : (dontcross ex q.fl q.boundary c).toNat < (q.last c).toNat := hcross
    exact ⟨by rw [Word.toNat_add_one hcross, hlineOk], by omega⟩
  unfold boundaryCheck
  dsimp only
  split_ifs with h0 hlow hr hcross hf hr hr
  · exact .inl rfl
  · exact absurd hr (hruns c ex.exEnd hin
      (BitVec.not_lt.mpr (BitVec.le_trans hnw (BitVec.le_trans hend hsub))))
  · exact .inl rfl
  · obtain ⟨hone, -⟩ := hcrossed h0 hlow hcross
    refine absurd hr (hruns _ _ (hends _ ?_ hf) ?_)
    · rw [BitVec.le_def, hone]
      exact Nat.le_of_lt (lt_nextLine c h0)
    · have hroom := hroomy h0 (BitVec.not_lt.mp hlow) hcross hf
      have hadd := Word.toNat_add_one hroom
      rw [BitVec.lt_def] at hroom ⊢
      omega
  · obtain ⟨hone, hle⟩ := hcrossed h0 hlow hcross
    exact .inr ⟨_, h0, hone, hle, (if_pos hf).symm⟩
  · obtain ⟨hone, hle⟩ := hcrossed h0 hlow hcross
    exact .inr ⟨_, h0, hone, hle, (if_neg hf).symm⟩
  · have hlineOk := hline h0
    rw [LineOk, if_neg hlow] at hlineOk
    have hlt : c.toNat < q.nextLine ex c := lt_nextLine c h0
    refine absurd hr (hruns c _ hin (BitVec.not_lt.mpr ?_))
    rw [BitVec.le_def]
    omega
  · exact .inl rfl

/-- What the boundary check makes of a candidate that passed its test: it finds
the first place in the gap, or there is none. -/
theorem LeastAt.gap (ht : q.Tame ex) (hroomy : q.boundary ≠ 0#w → q.Room ex c → q.Moved ex c →
      dontcross ex q.fl q.boundary c < dontcross ex q.fl q.boundary c + q.boundary)
    (hacc : q.Accepted ex) (h : LeastAt ex q c before after) {fits : BitVec w → Bool}
    (hfit : fits c = true) (hends : ∀ s, fits s = true → q.EndsInside s)
    (hahead : ∀ s, fits s = true → ∀ r ∈ after, q.last s < r.erStart)
    (hmono : ∀ s s', s ≤ s' → fits s' = true → fits s = true) :
    (boundaryCheck ex q.fl q.size q.boundary fits c = .nofit ∧
        ∀ s, q.Placement ex s → c ≤ s → fits s ≠ true) ∨
      ∃ ns, boundaryCheck ex q.fl q.size q.boundary fits c = .fits ns ∧
        Fits ex q.size ns before after ∧ q.Placement ex ns ∧ c ≤ ns ∧
        ∀ s, q.Placement ex s → c ≤ s → ns ≤ s := by
  have hfits : ∀ s, c ≤ s → fits s = true → Fits ex q.size s before after := fun s hle hs =>
    h.fits ht.start hacc hle (hends s hs) (hahead s hs)
  have hroom : ∀ s, c ≤ s → fits s = true → q.Room ex s := fun s hle hs =>
    ⟨hends s hs, (hfits s hle hs).free⟩
  have hin := hroom c (BitVec.le_refl _) hfit
  have hcases := boundaryCheck_cases hacc.2.2.2.1 (fun s _ hs => hends s hs) hfit
    (fun hb => ht.line hb c h.tried hin) ?_
  · rcases hcases with heq | ⟨ns, hb, hns, hcross, heq⟩
    · obtain ⟨hf, hplace⟩ := h.placement ht hacc hfit hends hahead heq
      exact .inr ⟨c, heq, hf, hplace, BitVec.le_refl _, fun s _ hle => hle⟩
    · -- every place from the candidate on is behind the line
      have hbehind : ∀ s, q.Placement ex s → c ≤ s → ns ≤ s := by
        intro s hs hle
        rw [BitVec.le_def, hns]
        exact nextLine_le_of_uncrossed hle hs.noWrap (leOv_last hin.1).1 hcross (hs.uncrossed hb)
      have hle : c ≤ ns := by
        rw [BitVec.le_def, hns]
        exact Nat.le_of_lt (lt_nextLine c hb)
      by_cases hf : fits ns = true
      · rw [if_pos hf] at heq
        obtain ⟨hf', hplace⟩ := h.placement ht hacc hfit hends hahead heq
        exact .inr ⟨ns, heq, hf', hplace, hle, hbehind⟩
      · rw [if_neg hf] at heq
        exact .inl ⟨heq, fun s hs hle hfs => hf (hmono ns s (hbehind s hs hle) hfs)⟩
  · intro hb hlow hcross hf
    have hlineOk := ht.line hb c h.tried hin
    rw [LineOk, if_neg (BitVec.not_lt.mpr hlow)] at hlineOk
    have hle : c ≤ dontcross ex q.fl q.boundary c + 1#w := by
      rw [BitVec.le_def, Word.toNat_add_one hcross, hlineOk]
      exact Nat.le_of_lt (lt_nextLine c hb)
    exact hroomy hb hin ⟨hlow, hcross, hroom _ hle hf⟩

theorem toNat_sub_last {x size : BitVec w} (h : ns + (size - 1#w) ≤ x) :
    (x - ns - (size - 1#w)).toNat = x.toNat - (ns + (size - 1#w)).toNat := by
  rw [← BitVec.toNat_sub_of_le h]
  congr 1
  grind

theorem toNat_sub_size {x size : BitVec w} (h : ns + (size - 1#w) < x) :
    (x - ns - size).toNat = x.toNat - (ns + (size - 1#w)).toNat - 1 := by
  have heq : x - ns - size = x - ns - (size - 1#w) - 1#w := by grind
  have hpos : 0#w < x - ns - (size - 1#w) := by
    rw [BitVec.lt_def] at h ⊢
    rw [toNat_sub_last (Nat.le_of_lt h), BitVec.toNat_zero]
    omega
  rw [heq, Word.toNat_sub_one hpos, toNat_sub_last (Nat.le_of_lt h)]

theorem leftover_eq (hok : RegionsOk ex) (h : Fits ex q.size ns before after) :
    q.leftover ex ns = match after.head? with
      | some rp => rp.erStart.toNat - (q.last ns).toNat - 1
      | none => ex.exEnd.toNat - (q.last ns).toNat := by
  have hnone : before.reverse.find? (fun r => decide (q.last ns < r.erStart)) = none := by
    rw [List.find?_eq_none]
    intro r hr
    have h1 := h.behind r (List.mem_reverse.mp hr)
    have h2 := ((hok.cut h.cut).before_each r (List.mem_reverse.mp hr)).2.1
    have h3 := h.noWrap
    rw [decide_eq_true_eq, last]
    bv_omega
  rw [leftover, h.cut, List.find?_append, hnone, Option.none_or]
  cases after with
  | nil => rfl
  | cons rp rest =>
      have hpos : decide (q.last ns < rp.erStart) = true :=
        decide_eq_true (h.ahead rp List.mem_cons_self)
      simp only [List.find?_cons, hpos, List.head?_cons]

/-- Two places of one gap have no region between them. -/
theorem Fits.no_region (hok : RegionsOk ex) (h : Fits ex q.size ns before after)
    (hs : ∀ r ∈ after, s < r.erStart) : ¬ ∃ r ∈ ex.exRegions, ns < r.erStart ∧ r.erStart < s := by
  rintro ⟨r, hr, h1, h2⟩
  rw [h.cut, List.mem_append, List.mem_reverse] at hr
  rcases hr with hr | hr
  · have h3 := h.behind r hr
    have h4 := ((hok.cut h.cut).before_each r hr).2.1
    bv_omega
  · have h3 := hs r hr
    bv_omega

/-- The least place of a gap is the first there, and the only first one. -/
theorem LeastAt.first (hok : RegionsOk ex) (h : LeastAt ex q c before after)
    (hf : Fits ex q.size ns before after) (hplace : q.Placement ex ns)
    (hleast : ∀ s, q.Placement ex s → c ≤ s → ns ≤ s) :
    q.First ex ns ∧ ∀ s, q.First ex s → c ≤ s → (∀ r ∈ after, s < r.erStart) → s = ns := by
  refine ⟨⟨hplace, fun s' hs' hlt => ?_⟩, fun s hs hcs hgap => ?_⟩
  · have hlt' : s' < c := by
      by_contra hn
      exact absurd hlt (BitVec.not_lt.mpr (hleast s' hs' (BitVec.not_lt.mp hn)))
    obtain ⟨r, hr, hbefore⟩ := h.earlier hs' hlt'
    refine ⟨r, by simp [h.cut, hr], hbefore, ?_⟩
    have h1 := hf.behind r hr
    have h2 := ((hok.cut h.cut).before_each r hr).2.1
    bv_omega
  · have hge := hleast s hs.1 hcs
    by_contra hne
    have hlt : ns < s := Nat.lt_of_le_of_ne hge fun h => hne (BitVec.eq_of_toNat_eq h.symm)
    exact hf.no_region hok hgap (hs.2 ns hplace hlt)

end Gap

/-! ## The best gap so far -/

section Best

variable {ex : Map w} {q : Request w} {p p' : BitVec w → Prop} {best : Best w}

open Request

/-- `best` is the best of the gaps with a first place among the `p`, if there is
such a gap. Under `EX_FAST` there never is. -/
def BestUpTo (ex : Map w) (q : Request w) (p : BitVec w → Prop) (best : Best w) : Prop :=
  (best.bestovh = 0#w ∧ ∀ s, q.Placement ex s → ¬ p s) ∨
    (q.fl.exFast = false ∧ best.bestovh ≠ 0#w ∧ q.First ex best.beststart ∧ p best.beststart ∧
      q.leftover ex best.beststart = best.bestovh.toNat ∧
      ∀ s, q.First ex s → p s → q.leftover ex best.beststart ≤ q.leftover ex s)

theorem BestUpTo.mono (h : BestUpTo ex q p best) (hmono : ∀ s, q.Placement ex s → p s → p' s)
    (hback : ∀ s, q.Placement ex s → p' s → p s) : BestUpTo ex q p' best := by
  rcases h with ⟨h0, hnone⟩ | ⟨hfast, hne, hfirst, hp, heq, hmin⟩
  · exact .inl ⟨h0, fun s hs hp' => hnone s hs (hback s hs hp')⟩
  · exact .inr ⟨hfast, hne, hfirst, hmono _ hfirst.1 hp, heq,
      fun s hs hp' => hmin s hs (hback s hs.1 hp')⟩

/-- A gap with its overhead counted right is taken into account. -/
theorem BestUpTo.improve (h : BestUpTo ex q p best) {ns ovh : BitVec w}
    {before after : List (Region w)} (hfast : q.fl.exFast = false) (hne : ovh ≠ 0#w)
    (hfirst : q.First ex ns) (hovh : q.leftover ex ns = ovh.toNat)
    (hmono : ∀ s, q.Placement ex s → p s → p' s) (hns : p' ns)
    (honly : ∀ s, q.First ex s → p' s → p s ∨ s = ns) :
    BestUpTo ex q p' (best.improve ovh ns before after) := by
  have hnew : (∀ s, q.First ex s → p s → ovh.toNat ≤ q.leftover ex s) →
      BestUpTo ex q p' ⟨ovh, ns, before, after⟩ := by
    intro hmin
    refine .inr ⟨hfast, hne, hfirst, hns, hovh, fun s hs hp' => ?_⟩
    rcases honly s hs hp' with hp | rfl
    · exact hovh ▸ hmin s hs hp
    · exact le_rfl
  unfold Best.improve
  rcases h with ⟨h0, hnone⟩ | ⟨-, hne', hfirst', hp, heq, hmin⟩
  · rw [if_pos (by simp [h0])]
    exact hnew fun s hs hp => absurd hp (hnone s hs.1)
  · split
    · rename_i hlt
      have hlt : ovh < best.bestovh := by simpa [hne'] using hlt
      exact hnew fun s hs hp =>
        Nat.le_trans (Nat.le_of_lt hlt) (heq ▸ hmin s hs hp)
    · rename_i hlt
      have hge : best.bestovh ≤ ovh := BitVec.not_lt.mp (by simpa [hne'] using hlt)
      refine .inr ⟨hfast, hne', hfirst', hmono _ hfirst'.1 hp, heq, fun s hs hp' => ?_⟩
      rcases honly s hs hp' with hp | rfl
      · exact hmin s hs hp
      · rw [heq, hovh]
        exact hge

end Best

/-! ## The search -/

section Search

variable {ex : Map w} {q : Request w} {c ns s : BitVec w} {before after rest : List (Region w)}
  {rp : Region w} {best : Best w}

open Request

/-- The search took a gap with the least left over, or there is none to take. -/
def Search.BestFit (ex : Map w) (q : Request w) : Search w → Prop
  | .found s _ _ => q.fl.exFast = false → ∀ s', q.First ex s' → q.leftover ex s ≤ q.leftover ex s'
  | .fail best => (best.bestovh = 0#w ∧ ∀ s, ¬ q.Placement ex s) ∨
      (q.fl.exFast = false ∧ best.bestovh ≠ 0#w ∧
        ∀ s', q.First ex s' → q.leftover ex best.beststart ≤ q.leftover ex s')

theorem BestUpTo.bestFit {p : BitVec w → Prop} (h : BestUpTo ex q p best)
    (hall : ∀ s, q.Placement ex s → p s) : (Search.fail best).BestFit ex q := by
  rcases h with ⟨h0, hnone⟩ | ⟨hfast, hne, -, -, -, hmin⟩
  · exact .inl ⟨h0, fun s hs => hnone s hs (hall s hs)⟩
  · exact .inr ⟨hfast, hne, fun s hs => hmin s hs (hall s hs.1)⟩

/-- The last gap, with the overhead counted one too large. -/
theorem BestUpTo.bestFit_behind (h : BestUpTo ex q (· < c) best) {ovh : BitVec w}
    (hfast : q.fl.exFast = false) (hfirst : q.First ex ns)
    (hovh : ovh.toNat = q.leftover ex ns + 1)
    (honly : ∀ s, q.First ex s → s < c ∨ s = ns)
    (htie : ∀ g, q.First ex g → g < ns → q.leftover ex g = q.leftover ex ns + 1 →
      ∃ h, q.First ex h ∧ h < ns ∧ q.leftover ex h ≤ q.leftover ex ns) (hle : c ≤ ns) :
    (Search.fail (best.improve ovh ns before after)).BestFit ex q := by
  have hne : ovh ≠ 0#w := fun h0 => by simp [h0] at hovh
  have hnew : (∀ s, q.First ex s → s < c → q.leftover ex ns ≤ q.leftover ex s) →
      (Search.fail ⟨ovh, ns, before, after⟩).BestFit ex q := by
    intro hmin
    refine .inr ⟨hfast, hne, fun s hs => ?_⟩
    rcases honly s hs with hlt | rfl
    · exact hmin s hs hlt
    · exact le_rfl
  unfold Best.improve
  rcases h with ⟨h0, hnone⟩ | ⟨-, hne', hfirst', hp, heq, hmin⟩
  · rw [if_pos (by simp [h0])]
    exact hnew fun s hs hlt => absurd hlt (hnone s hs.1)
  · split
    · rename_i hlt
      have hlt : ovh < best.bestovh := by simpa [hne'] using hlt
      rw [BitVec.lt_def] at hlt
      refine hnew fun s hs hsc => ?_
      have hs := hmin s hs hsc
      omega
    · rename_i hlt
      have hge : best.bestovh ≤ ovh := BitVec.not_lt.mp (by simpa [hne'] using hlt)
      rw [BitVec.le_def] at hge
      refine .inr ⟨hfast, hne', fun s hs => ?_⟩
      rcases honly s hs with hsc | rfl
      · exact hmin s hs hsc
      · by_contra hgt
        -- the best gap before has exactly one more left over
        obtain ⟨h, hh, hlt, hleft⟩ := htie best.beststart hfirst' (Nat.lt_of_lt_of_le hp hle)
          (by omega)
        rcases honly h hh with hhc | rfl
        · have hh := hmin h hh hhc
          omega
        · exact absurd hlt (BitVec.lt_irrefl _)

/-- The check against the end of the subregion. -/
theorem finalCheck_bestFit (hok : RegionsOk ex) (ht : q.Thorough ex) (htame : q.Tame ex)
    (hacc : q.Accepted ex) (h : LeastAt ex q c before after)
    (hpast : ∀ rp rest, after = rp :: rest → q.subend < rp.erStart)
    (hbest : BestUpTo ex q (· < c) best) {exend : BitVec w}
    (hexend : exend = after.head?.elim ex.exEnd Region.erStart) :
    (finalCheck ex q.fl q.subend q.size q.boundary c best before after exend).BestFit ex q := by
  have hahead : ∀ s, leOv s (q.size - 1#w) q.subend = true → ∀ r ∈ after, q.last s < r.erStart := by
    intro s hs
    cases after with
    | nil => simp
    | cons rp rest =>
        exact ahead_of_head (hok.cut h.cut)
          (Nat.lt_of_le_of_lt (leOv_last hs).2 (hpast rp rest rfl))
  -- without a place from the candidate on, the gaps before are all there is
  have hnone : (∀ s, q.Placement ex s → ¬ c ≤ s) → (Search.fail best).BestFit ex q := fun hno =>
    hbest.bestFit fun s hs => BitVec.not_le.mp (hno s hs)
  have hends : ∀ s, q.Placement ex s → leOv s (q.size - 1#w) q.subend = true := fun s hs =>
    hs.endsInside
  by_cases hfit : leOv c (q.size - 1#w) q.subend = true
  · rw [finalCheck, if_pos hfit]
    rcases h.gap htame (fun hb => ht.roomy hb c h.tried) hacc hfit (fun s hs => hs) hahead
      (fun s s' hle => leOv_mono hle) with ⟨heq, hno⟩ | ⟨ns, heq, hf, hplace, hle, hleast⟩
    · rw [heq]
      exact hnone fun s hs hcs => hno s hs hcs (hends s hs)
    · obtain ⟨hfirst, hsame⟩ := h.first hok hf hplace hleast
      have honly : ∀ s, q.First ex s → s < c ∨ s = ns := by
        intro s hs
        by_cases hsc : s < c
        · exact .inl hsc
        · refine .inr (hsame s hs (BitVec.not_lt.mp hsc) fun r hr => ?_)
          exact Nat.lt_of_le_of_lt hs.1.noWrap (hahead s (hends s hs.1) r hr)
      rw [heq]
      dsimp only
      have hleft := leftover_eq hok hf
      cases after with
      | nil =>
          -- the gap reaches to the end of the extent, and the overhead is right
          obtain rfl : exend = ex.exEnd := hexend
          have hovh : (ex.exEnd - ns - (q.size - 1#w)).toNat = q.leftover ex ns := by
            rw [hleft]
            exact toNat_sub_last hf.hi
          split_ifs with hfound
          · intro hfast s' _
            have h0 : ex.exEnd - ns - (q.size - 1#w) = 0#w := by simpa [hfast] using hfound
            rw [← hovh, h0]
            simp
          · simp only [Bool.or_eq_true, not_or, decide_eq_true_eq] at hfound
            have hall : BestUpTo ex q (fun _ => True)
                (best.improve (ex.exEnd - ns - (q.size - 1#w)) ns before []) :=
              hbest.improve (by simpa using hfound.1) hfound.2 hfirst hovh.symm
                (fun _ _ _ => trivial) trivial (fun s hs _ => honly s hs)
            exact hall.bestFit fun _ _ => trivial
      | cons rp rest =>
          -- a region bounds the gap, and the overhead is one too large
          obtain rfl : exend = rp.erStart := hexend
          have hrp := hf.ahead rp List.mem_cons_self
          have hovh : (rp.erStart - ns - (q.size - 1#w)).toNat = q.leftover ex ns + 1 := by
            rw [hleft, toNat_sub_last (Nat.le_of_lt hrp)]
            rw [BitVec.lt_def] at hrp
            simp only [List.head?_cons, last]
            omega
          split_ifs with hfound
          · intro hfast s' _
            have h0 : rp.erStart - ns - (q.size - 1#w) = 0#w := by simpa [hfast] using hfound
            rw [h0] at hovh
            simp at hovh
          · simp only [Bool.or_eq_true, not_or] at hfound
            refine hbest.bestFit_behind (by simpa using hfound.1) hfirst hovh honly
              (fun g hg => ht.tie ns g hfirst ⟨⟨rp, by simp [h.cut], hpast rp rest rfl⟩, ?_⟩ hg) hle
            intro r hr hlt
            rw [h.cut, List.mem_append, List.mem_reverse] at hr
            rcases hr with hr | hr
            · have h1 := hf.behind r hr
              have h2 := ((hok.cut h.cut).before_each r hr).2.1
              bv_omega
            · exact ahead_of_head (hok.cut h.cut) (hpast rp rest rfl) r hr
  · rw [finalCheck, if_neg hfit]
    exact hnone fun s hs hcs => hfit (leOv_mono hcs (hends s hs))

/-- A place that starts before a region ends before it. -/
theorem Request.Placement.fits_before (hsize : 0#w < q.size) (hs : q.Placement ex s)
    (hrp : rp ∈ ex.exRegions) (hse : rp.erStart ≤ rp.erEnd) (hlt : s < rp.erStart) :
    leOv s q.size rp.erStart = true := by
  have hend : q.last s < rp.erStart := by
    by_contra hn
    exact hs.free rp.erStart (Nat.le_of_lt hlt) (BitVec.not_lt.mp hn)
      ⟨rp, hrp, BitVec.le_refl _, hse⟩
  have hsum := Word.toNat_add_of_le hs.noWrap
  have hsz := Word.toNat_sub_one hsize
  rw [BitVec.lt_def, last] at hend
  have hadd : (s + q.size).toNat = s.toNat + q.size.toNat := BitVec.toNat_add_of_lt (by omega)
  have h1 : s ≤ s + q.size := by rw [BitVec.le_def]; omega
  have h2 : s + q.size ≤ rp.erStart := by rw [BitVec.le_def]; omega
  simp [leOv, h1, h2]

/-- The candidate behind `rp`, and the gaps before it. -/
theorem LeastAt.skip (hok : RegionsOk ex) (ht : q.Thorough ex) (hacc : q.Accepted ex)
    (h : LeastAt ex q c before (rp :: rest)) (hbest : BestUpTo ex q (· < rp.erStart) best) :
    if extentAlign (rp.erEnd + 1#w) q.alignment q.skew < rp.erEnd then
      (Search.fail best).BestFit ex q
    else LeastAt ex q (extentAlign (rp.erEnd + 1#w) q.alignment q.skew) (rp :: before) rest ∧
      BestUpTo ex q (· < extentAlign (rp.erEnd + 1#w) q.alignment q.skew) best := by
  have hmem : rp ∈ ex.exRegions := by simp [h.cut]
  have hse := ((hok.cut h.cut).after_each rp List.mem_cons_self).2.1
  obtain ⟨-, hpast⟩ := ht.past rp hmem (BitVec.le_trans (h.passed rp List.mem_cons_self) hse)
  have hside : ∀ s, q.Placement ex s → ¬ rp.erEnd < s → s < rp.erStart := by
    intro s hs hn
    by_contra hge
    exact hs.free s (BitVec.le_refl _) hs.noWrap
      ⟨rp, hmem, BitVec.not_lt.mp hge, BitVec.not_lt.mp hn⟩
  split
  · rename_i hwrap
    refine hbest.bestFit fun s hs => hside s hs fun hlt => ?_
    have hc := (hpast s hlt hs.aligned).1
    exact absurd hwrap (BitVec.not_lt.mpr (Nat.le_of_lt hc))
  · rename_i hnw
    have hc := align_past hacc.2.2.2.2.2.2.1 hnw
    refine ⟨⟨h.toTriedAt.skip hok hacc.2.2.2.2.2.2.1 hnw, fun s _ hal hb =>
      (hpast s (hb rp List.mem_cons_self) hal).2⟩, hbest.mono (fun s _ hs => ?_) fun s hs hlt => ?_⟩
    · exact Nat.lt_trans hs (Nat.lt_of_le_of_lt hse hc)
    · refine hside s hs fun hgt => ?_
      exact absurd hlt (BitVec.not_lt.mpr (hpast s hgt hs.aligned).2)

/-- The loop over the gaps, by induction on the regions still ahead. -/
theorem gapLoop_bestFit (hok : RegionsOk ex) (ht : q.Thorough ex) (htame : q.Tame ex)
    (hacc : q.Accepted ex) :
    ∀ (after : List (Region w)) {c : BitVec w} {best : Best w} {before : List (Region w)},
      LeastAt ex q c before after → BestUpTo ex q (· < c) best →
      (gapLoop ex q.fl q.subend q.size q.alignment q.skew q.boundary c best before after).BestFit
        ex q
  | [], c, best, before, h, hbest => by
      exact finalCheck_bestFit hok ht htame hacc h (by simp) hbest rfl
  | rp :: rest, c, best, before, h, hbest => by
      have hcutOk := hok.cut h.cut
      have ⟨_, _, _, _, hsize, _, _, _⟩ := hacc
      have hne := (BitVec.pos_iff_ne_zero _).mp hsize
      have hmem : rp ∈ ex.exRegions := by simp [h.cut]
      have hse := (hcutOk.after_each rp List.mem_cons_self).2.1
      rw [gapLoop]
      split
      · rename_i hpast
        refine finalCheck_bestFit hok ht htame hacc h ?_ hbest rfl
        rintro _ _ ⟨rfl, rfl⟩
        exact hpast
      rename_i hnear
      have hnear := BitVec.not_lt.mp hnear
      have hnext : ∀ best, BestUpTo ex q (· < rp.erStart) best →
          (if extentAlign (rp.erEnd + 1#w) q.alignment q.skew < rp.erEnd then Search.fail best
            else gapLoop ex q.fl q.subend q.size q.alignment q.skew q.boundary
              (extentAlign (rp.erEnd + 1#w) q.alignment q.skew) best (rp :: before) rest).BestFit
            ex q := by
        intro best hbest
        have hskip := h.skip hok ht hacc hbest
        split
        · rename_i hwrap
          rwa [if_pos hwrap] at hskip
        · rename_i hnw
          rw [if_neg hnw] at hskip
          exact gapLoop_bestFit hok ht htame hacc rest hskip.1 hskip.2
      -- the gaps before the candidate are gaps before `rp`
      have hearlier : ∀ s, q.Placement ex s → s < c → s < rp.erStart := by
        intro s hs hlt
        obtain ⟨r, hr, hsr⟩ := h.earlier hs hlt
        have h1 := hcutOk.cross r hr rp List.mem_cons_self
        have h2 := (hcutOk.before_each r hr).2.1
        bv_omega
      have hends : ∀ s, q.Placement ex s → s < rp.erStart → leOv s q.size rp.erStart = true :=
        fun s hs hlt => hs.fits_before hsize hmem hse hlt
      have hnone : (∀ s, q.Placement ex s → c ≤ s → leOv s q.size rp.erStart ≠ true) →
          BestUpTo ex q (· < rp.erStart) best := fun hno =>
        hbest.mono hearlier fun s hs hlt => by
          by_contra hge
          exact hno s hs (BitVec.not_lt.mp hge) (hends s hs hlt)
      have hahead : ∀ s, leOv s q.size rp.erStart = true → ∀ r ∈ rp :: rest, q.last s < r.erStart :=
        fun s hs => ahead_of_head hcutOk (leOv_size hne hs).2
      by_cases hfit : leOv c q.size rp.erStart = true
      · rw [if_pos hfit]
        rcases h.gap htame (fun hb => ht.roomy hb c h.tried) hacc hfit
          (fun s hs => endsInside_of_leOv hsize hnear hs) hahead (fun s s' hle => leOv_mono hle)
          with ⟨heq, hno⟩ | ⟨ns, heq, hf, hplace, hle, hleast⟩
        · rw [heq]
          exact hnext best (hnone hno)
        · obtain ⟨hfirst, hsame⟩ := h.first hok hf hplace hleast
          have hns : ns < rp.erStart :=
            Nat.lt_of_le_of_lt hf.noWrap (hf.ahead rp List.mem_cons_self)
          have hovh : (rp.erStart - ns - q.size).toNat = q.leftover ex ns := by
            rw [leftover_eq hok hf]
            exact toNat_sub_size (hf.ahead rp List.mem_cons_self)
          rw [heq]
          dsimp only
          by_cases hfound : (q.fl.exFast || decide (rp.erStart - ns - q.size = 0#w)) = true
          · rw [if_pos hfound]
            intro hfast s' _
            have h0 : rp.erStart - ns - q.size = 0#w := by simpa [hfast] using hfound
            rw [← hovh, h0]
            simp
          · rw [if_neg hfound]
            simp only [Bool.or_eq_true, not_or, decide_eq_true_eq] at hfound
            refine hnext _ (hbest.improve (by simpa using hfound.1) hfound.2 hfirst hovh.symm
              hearlier hns fun s hs hlt => ?_)
            by_cases hsc : s < c
            · exact .inl hsc
            · refine .inr (hsame s hs (BitVec.not_lt.mp hsc) fun r hr => ?_)
              exact Nat.lt_of_le_of_lt hs.1.noWrap (hahead s (hends s hs.1 hlt) r hr)
      · rw [if_neg hfit]
        exact hnext best (hnone fun s _ hle hs => hfit (leOv_mono hle hs))

/-- The search begins at the first aligned address behind its cut. -/
theorem leastAt_start (hok : RegionsOk ex) (ht : q.Thorough ex) (htame : q.Tame ex)
    (hc : cutAt q.start [] ex.exRegions = (before, after)) :
    LeastAt ex q (relocate q.alignment q.skew q.start before) before after := by
  have htried := triedAt_start hok htame.reloc hc
  refine ⟨htried, fun s hlo hal hbehind => ?_⟩
  cases before with
  | nil => exact (ht.start.2 s hlo hal).2
  | cons last bs =>
      rw [relocate]
      split
      · rename_i hge
        exact ((ht.past last (by simp [htried.cut]) hge).2 s (hbehind last List.mem_cons_self)
          hal).2
      · exact (ht.start.2 s hlo hal).2

/-- No gap lies before the first candidate. -/
theorem bestUpTo_start (ht : q.Thorough ex)
    (h : LeastAt ex q (relocate q.alignment q.skew q.start (cutAt q.start [] ex.exRegions).1)
      (cutAt q.start [] ex.exRegions).1 after) :
    BestUpTo ex q
      (· < relocate q.alignment q.skew q.start (cutAt q.start [] ex.exRegions).1) {} := by
  refine .inl ⟨rfl, fun s hs hlt => ?_⟩
  obtain ⟨r, hr, hsr⟩ := h.earlier hs hlt
  have hlt' : r.erStart < q.start := by
    simpa using (cutAt_spec q.start [] ex.exRegions).2 r hr
  exact absurd (Nat.lt_trans hsr hlt') (Nat.not_lt.mpr (ht.start.2 s hs.lo hs.aligned).2)

/-- What a call that went through the search leaves. -/
theorem allocSubregionStart_bestFit {diag : Bool} {myrp : Region w} {r : Option (BitVec w)}
    {err : Option Errno} {ex' : Map w} (hok : RegionsOk ex) (hacc : q.Accepted ex)
    (ht : q.Thorough ex) (herr : err = none ∨ err = some .eagain)
    (h : allocSubregionStart diag ex q.substart q.subend q.size q.alignment q.skew q.boundary q.fl
      myrp = (.done err r, ex')) :
    (err = some .eagain → ∀ s, ¬ q.Placement ex s) ∧
      (q.fl.exFast = false → ∀ s, r = some s → ∀ s', q.First ex s' →
        q.leftover ex s ≤ q.leftover ex s') := by
  by_cases hnone : ∃ s, q.Placement ex s
  · obtain ⟨s₀, hs₀⟩ := hnone
    have htame := ht.tame hs₀
    have hleast := leastAt_start hok ht htame
      (Prod.mk.eta (p := cutAt q.start [] ex.exRegions)).symm
    have hsearch := gapLoop_bestFit hok ht htame hacc _ hleast (bestUpTo_start ht hleast)
    rw [start] at hsearch
    unfold allocSubregionStart at h
    dsimp only at h
    split at h
    · split at h
      · simp at h
      · obtain ⟨h1, -⟩ := Prod.mk.inj h
        obtain ⟨rfl, -⟩ := Outcome.done.inj h1
        simp at herr
    · split at h
      · rename_i s before after hf
        rw [hf] at hsearch
        obtain ⟨h1, -⟩ := Prod.mk.inj h
        obtain ⟨rfl, rfl⟩ := Outcome.done.inj h1
        refine ⟨by simp, fun hfast s' hs' => ?_⟩
        obtain rfl : s = s' := by simpa using hs'
        exact hsearch hfast
      · rename_i best hf
        rw [hf] at hsearch
        split_ifs at h with hfound
        · simp only [Bool.and_eq_true, decide_eq_true_eq, ne_eq] at hfound
          obtain ⟨h1, -⟩ := Prod.mk.inj h
          obtain ⟨rfl, rfl⟩ := Outcome.done.inj h1
          refine ⟨by simp, fun hfast s' hs' => ?_⟩
          obtain rfl : best.beststart = s' := by simpa using hs'
          rcases hsearch with ⟨h0, -⟩ | ⟨-, -, hmin⟩
          · exact absurd h0 hfound.2
          · exact hmin
        · simp at h
        · obtain ⟨h1, -⟩ := Prod.mk.inj h
          obtain ⟨-, rfl⟩ := Outcome.done.inj h1
          rcases hsearch with ⟨-, hno⟩ | ⟨hfast, hne, -⟩
          · exact absurd hs₀ (hno s₀)
          · simp [hfast, hne] at hfound
  · exact ⟨fun _ s hs => hnone ⟨s, hs⟩, fun _ s _ s' hs' => absurd ⟨s', hs'.1⟩ hnone⟩

end Search

/-! ## Powers of two -/

section Pow2

variable {ex : Map w} {q : Request w} {i : Nat}

open Request

/-- No aligned address lies closer above `x` than `extent_align` goes. -/
theorem alignGap_le_of_dvd (hi : i < w) {x s skew : BitVec w} (hle : x ≤ s)
    (hs : 2 ^ i ∣ (s - skew).toNat) :
    (alignGap x (BitVec.twoPow w i) skew).toNat ≤ s.toNat - x.toNat := by
  have hdvd : 2 ^ i ∣ 2 ^ w := Nat.pow_dvd_pow 2 (Nat.le_of_lt hi)
  have hmask : (BitVec.twoPow w i - 1#w).toNat = 2 ^ i - 1 := by
    rw [toNat_sub_one_of_ne (twoPow_ne_zero hi), toNat_twoPow_of_lt hi]
  rw [alignGap, BitVec.toNat_sub_of_le (Word.and_le_right _ _), BitVec.toNat_and, hmask,
    Nat.and_two_pow_sub_one_eq_mod, BitVec.toNat_add, hmask, Nat.mod_mod_of_dvd _ hdvd]
  set y := (x - skew).toNat
  have hsum : 2 ^ i ∣ s.toNat - x.toNat + y := by
    have heq : s - skew = (s - x) + (x - skew) := by grind
    rw [heq, BitVec.toNat_add, Nat.dvd_mod_iff hdvd, BitVec.toNat_sub_of_le hle] at hs
    exact hs
  -- the remainder and the distance add up to one less than a multiple
  have hrem : 2 ^ i ∣ (y + (2 ^ i - 1)) % 2 ^ i + (s.toNat - x.toNat) + 1 := by
    have hdiv := Nat.div_add_mod (y + (2 ^ i - 1)) (2 ^ i)
    refine (Nat.dvd_add_right (Nat.dvd_mul_right (2 ^ i) ((y + (2 ^ i - 1)) / 2 ^ i))).mp ?_
    have heq : 2 ^ i * ((y + (2 ^ i - 1)) / 2 ^ i)
        + ((y + (2 ^ i - 1)) % 2 ^ i + (s.toNat - x.toNat) + 1)
        = (s.toNat - x.toNat + y) + 2 ^ i := by omega
    rw [heq]
    exact Nat.dvd_add hsum (Nat.dvd_refl _)
  have hge := Nat.le_of_dvd (by omega) hrem
  omega

theorem le_extentAlign_of_dvd (hi : i < w) {x s skew : BitVec w} (hle : x ≤ s)
    (hs : 2 ^ i ∣ (s - skew).toNat) :
    x ≤ extentAlign x (BitVec.twoPow w i) skew ∧ extentAlign x (BitVec.twoPow w i) skew ≤ s := by
  have hgap := alignGap_le_of_dvd hi hle hs
  rw [BitVec.le_def] at hle
  rw [extentAlign_eq, BitVec.le_def, BitVec.le_def, BitVec.toNat_add_of_lt (by omega)]
  omega

/-- For powers of two, with the lines aligned and no wrap at the start, only the
two slips are left. -/
theorem thorough_pow2 (hacc : q.Accepted ex) (hi : i < w) (halign : q.alignment = BitVec.twoPow w i)
    (hbound : q.boundary ≠ 0#w →
      ∃ k < w, i ≤ k ∧ q.boundary = BitVec.twoPow w k ∧ q.Aligned (q.lineBase ex))
    (hstart : q.substart ≤ q.start) (hreloc : RelocateOk ex q.substart q.alignment q.skew)
    (hroomy : q.boundary ≠ 0#w → ∀ c, q.Tried ex c → q.Room ex c → q.Moved ex c →
      dontcross ex q.fl q.boundary c < dontcross ex q.fl q.boundary c + q.boundary)
    (htie : ∀ f g, q.First ex f → q.InLastGap ex f → q.First ex g → g < f →
      q.leftover ex g = q.leftover ex f + 1 →
      ∃ h, q.First ex h ∧ h < f ∧ q.leftover ex h ≤ q.leftover ex f) :
    q.Thorough ex := by
  have htame := tame_pow2 hacc hi halign hbound hstart hreloc
  have haligned : ∀ s, q.Aligned s ↔ 2 ^ i ∣ (s - q.skew).toNat := fun s => by
    rw [Aligned, halign, umod_twoPow_eq_zero hi]
  have hup : ∀ x, q.Aligned (extentAlign x q.alignment q.skew) := fun x => by
    rw [haligned, halign]
    exact extentAlign_pow2 hi x q.skew
  refine ⟨⟨fun _ => hup _, fun s hle hs => ?_⟩, fun r _ _ => ⟨fun _ => hup _, fun s hlt hs => ?_⟩,
    htame.line, htame.moved, hroomy, htie⟩
  · rw [haligned] at hs
    rw [start, halign]
    exact le_extentAlign_of_dvd hi hle hs
  · rw [haligned] at hs
    have hlt : r.erEnd < s := hlt
    have hone := Word.toNat_add_one hlt
    have hle : r.erEnd + 1#w ≤ s := by
      rw [BitVec.lt_def] at hlt
      rw [BitVec.le_def]
      omega
    obtain ⟨h1, h2⟩ := le_extentAlign_of_dvd hi hle hs
    rw [halign]
    refine ⟨?_, h2⟩
    rw [BitVec.le_def] at h1
    rw [BitVec.lt_def]
    omega

end Pow2

/-! ## Whole calls -/

section Calls

variable {ex ex₁ : Map w} {q : Request w}

open Request

theorem Request.First.congr {s : BitVec w} (hs : ex₁.exStart = ex.exStart)
    (hr : ex₁.exRegions = ex.exRegions) (h : q.First ex₁ s) : q.First ex s := by
  refine ⟨h.1.congr hs hr, fun s' hs' hlt => ?_⟩
  rw [← hr]
  exact h.2 s' (hs'.congr hs.symm hr.symm) hlt

theorem leftover_congr (he : ex₁.exEnd = ex.exEnd) (hr : ex₁.exRegions = ex.exRegions)
    (s : BitVec w) : q.leftover ex₁ s = q.leftover ex s := by
  rw [leftover, leftover, he, hr]

theorem Request.Thorough.congr (hs : ex₁.exStart = ex.exStart) (he : ex₁.exEnd = ex.exEnd)
    (hr : ex₁.exRegions = ex.exRegions) (h : q.Thorough ex) : q.Thorough ex₁ := by
  have htie : ∀ f g, q.First ex₁ f → q.InLastGap ex₁ f → q.First ex₁ g → g < f →
      q.leftover ex₁ g = q.leftover ex₁ f + 1 →
      ∃ h, q.First ex₁ h ∧ h < f ∧ q.leftover ex₁ h ≤ q.leftover ex₁ f := by
    intro f g hf hl hg hlt heq
    rw [InLastGap, hr] at hl
    rw [leftover_congr he hr, leftover_congr he hr] at heq
    obtain ⟨h, hh, hlt', hle⟩ := h.tie f g (hf.congr hs hr) hl (hg.congr hs hr) hlt heq
    refine ⟨h, hh.congr hs.symm hr.symm, hlt', ?_⟩
    rwa [leftover_congr he hr, leftover_congr he hr]
  obtain ⟨hstart, hpast, hline, hmoved, hroomy, -⟩ := h
  cases ex
  cases ex₁
  obtain rfl : _ = _ := hs
  obtain rfl : _ = _ := hr
  exact ⟨hstart, hpast, hline, hmoved, hroomy, htie⟩

end Calls

/-- Two gaps, of five addresses and of four; the second ends with the
subregion. -/
def twoGaps : Map 64 :=
  { oneRegion with exRegions := [⟨0, 9, true⟩, ⟨15, 39, true⟩, ⟨44, 60, true⟩] }

def fourOf : Request 64 := ⟨0, 43, 4, 1, 0, 0, {}⟩

/-- An extent with one boundary line, and only one that is a word. -/
def fromOne : Map 64 := { oneRegion with exStart := 1, exEnd := -1, exRegions := [] }

def overHalf : Request 64 := ⟨2 ^ 63 - 3, -1, 16, 1, 0, 2 ^ 63, {}⟩

end Obsd.Extent
