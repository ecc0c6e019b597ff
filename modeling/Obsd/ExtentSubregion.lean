import Obsd.ExtentRegions
import Obsd.Word

/-!
# `extent_alloc_subregion`

`extent_align` adds a distance to its argument and may wrap
(`extentAlign_eq`), so a candidate is only behind the region it was made
from when the sum did not wrap. The loop checks that; the relocation
before the loop does not (`RelocateOk`), and neither does the boundary
line of a candidate (`LinesOk`), which is in front of it for a boundary
that is a power of two (`lines_pow2`) but not for every other.

Under these two conditions every candidate the search accepts lies in the
gap at its cut (`Fits`), which is what `insert_regionsOk` asks for.
-/

namespace Obsd.Extent

variable {w : Nat}

/-! ## Alignment -/

/-- How far `extent_align` moves its argument up. -/
def alignGap (start align skew : BitVec w) : BitVec w :=
  (align - 1#w) - (((start - skew) + (align - 1#w)) &&& (align - 1#w))

theorem extentAlign_eq (start align skew : BitVec w) :
    extentAlign start align skew = start + alignGap start align skew := by
  rw [extentAlign, Word.and_neg, alignGap]
  grind

theorem alignGap_le (start align skew : BitVec w) :
    (alignGap start align skew).toNat ≤ (align - 1#w).toNat := by
  rw [alignGap, BitVec.toNat_sub_of_le (Word.and_le_right _ _)]
  omega

/-- The overflow test of the loop is exact: a candidate that is not below the
region it was made from is behind it. -/
theorem align_past {r align skew : BitVec w} (h0 : align ≠ 0#w)
    (h : ¬ extentAlign (r + 1#w) align skew < r) : r < extentAlign (r + 1#w) align skew := by
  by_contra hn
  have h : r = extentAlign (r + 1#w) align skew :=
    BitVec.le_antisymm (BitVec.not_lt.mp h) (BitVec.not_lt.mp hn)
  -- equality would make the distance all ones, which no alignment allows
  rw [extentAlign_eq] at h
  have hgap : alignGap (r + 1#w) align skew = -1#w := by grind
  have hle := alignGap_le (r + 1#w) align skew
  have hpos : 0 < align.toNat := BitVec.toNat_pos_of_ne_zero h0
  rcases w with _ | w
  · exact h0 (Subsingleton.elim _ _)
  have h1 : (1#(w + 1)).toNat = 1 := by
    rw [BitVec.toNat_ofNat, Nat.mod_eq_of_lt (Nat.one_lt_two_pow (by omega))]
  rw [hgap, BitVec.toNat_neg, h1, Nat.mod_eq_of_lt (by omega),
    BitVec.toNat_sub_of_le (by rw [BitVec.le_def, h1]; omega), h1] at hle
  omega

/-! ## Conditions on a call -/

/-- The region that holds the aligned start of the subregion, if there is one
and it begins before it, has an aligned address behind it. -/
def RelocateOk (ex : Map w) (substart alignment skew : BitVec w) : Prop :=
  let newstart := extentAlign substart alignment skew
  ∀ r ∈ ex.exRegions, r.erStart < newstart → newstart ≤ r.erEnd →
    r.erEnd < extentAlign (r.erEnd + 1#w) alignment skew

instance (ex : Map w) (substart alignment skew : BitVec w) :
    Decidable (RelocateOk ex substart alignment skew) := by
  unfold RelocateOk; infer_instance

/-- The aligned addresses the search can start a candidate at. -/
def Candidate (ex : Map w) (substart alignment skew c : BitVec w) : Prop :=
  c = extentAlign substart alignment skew
    ∨ ∃ r ∈ ex.exRegions, c = extentAlign (r.erEnd + 1#w) alignment skew

/-- The boundary line of every candidate is in front of it, or below the extent,
where the code takes it for an overflow. -/
def LinesOk (ex : Map w) (fl : Flags) (substart alignment skew boundary : BitVec w) : Prop :=
  boundary ≠ 0#w → ∀ c, Candidate ex substart alignment skew c → ex.exStart ≤ c →
    dontcross ex fl boundary c < ex.exStart ∨ c ≤ dontcross ex fl boundary c

theorem dontcross_eq (ex : Map w) (fl : Flags) (boundary c : BitVec w) :
    dontcross ex fl boundary c
      = c + alignGap (c + 1#w) boundary (if fl.exBoundzero then 0#w else ex.exStart) := by
  rw [dontcross, extentAlign_eq]
  grind

theorem toNat_sub_one_of_ne {x : BitVec w} (h : x ≠ 0#w) : (x - 1#w).toNat = x.toNat - 1 :=
  Word.toNat_sub_one ((BitVec.pos_iff_ne_zero x).mpr h)

/-- For a power of two the distance to the line is what is left of the block. -/
theorem alignGap_pow2 {k : Nat} (hk : k < w) {c skew : BitVec w} (h : skew ≤ c) :
    (alignGap (c + 1#w) (BitVec.twoPow w k) skew).toNat
      = 2 ^ k - 1 - (c.toNat - skew.toNat) % 2 ^ k := by
  have hpow : (BitVec.twoPow w k).toNat = 2 ^ k := by
    rw [BitVec.toNat_twoPow, Nat.mod_eq_of_lt (Nat.pow_lt_pow_right (by omega) hk)]
  have hpos : 0 < 2 ^ k := Nat.two_pow_pos k
  have hne : BitVec.twoPow w k ≠ 0#w := fun h0 => by
    rw [h0] at hpow
    simp at hpow
    omega
  have hmask : (BitVec.twoPow w k - 1#w).toNat = 2 ^ k - 1 := by
    rw [toNat_sub_one_of_ne hne, hpow]
  have hy : (c + 1#w - skew) + (BitVec.twoPow w k - 1#w) = (c - skew) + BitVec.twoPow w k := by grind
  have hdvd : 2 ^ k ∣ 2 ^ w := Nat.pow_dvd_pow 2 (Nat.le_of_lt hk)
  rw [alignGap, BitVec.toNat_sub_of_le (Word.and_le_right _ _), hy, BitVec.toNat_and, hmask,
    Nat.and_two_pow_sub_one_eq_mod, BitVec.toNat_add, hpow, Nat.mod_mod_of_dvd _ hdvd,
    Nat.add_mod_right, BitVec.toNat_sub_of_le h]

/-- The lines of a power-of-two boundary are never behind. -/
theorem lines_pow2 {k : Nat} (hk : k < w) (ex : Map w) (fl : Flags) {c : BitVec w}
    (hc : ex.exStart ≤ c) :
    dontcross ex fl (BitVec.twoPow w k) c < ex.exStart
      ∨ c ≤ dontcross ex fl (BitVec.twoPow w k) c := by
  set skew := if fl.exBoundzero then 0#w else ex.exStart with hskew
  have hle : skew ≤ c := by
    rw [hskew]; split
    · rw [BitVec.le_def]; simp
    · exact hc
  have hgap := alignGap_pow2 hk hle
  rw [dontcross_eq, ← hskew]
  set g := alignGap (c + 1#w) (BitVec.twoPow w k) skew
  have hpos : 0 < 2 ^ k := Nat.two_pow_pos k
  have hclt := c.isLt
  -- the line ends the block of `2 ^ k` that `c` lies in, so it passes `2 ^ w` by
  -- less than the skew
  have hbound : c.toNat + g.toNat + 1 ≤ skew.toNat + 2 ^ w := by
    have hn : (c.toNat - skew.toNat) / 2 ^ k < 2 ^ (w - k) := by
      rw [Nat.div_lt_iff_lt_mul hpos, ← Nat.pow_add, Nat.sub_add_cancel (Nat.le_of_lt hk)]
      omega
    have hblock : ((c.toNat - skew.toNat) / 2 ^ k + 1) * 2 ^ k ≤ 2 ^ w := by
      calc _ ≤ 2 ^ (w - k) * 2 ^ k := Nat.mul_le_mul_right _ hn
        _ = 2 ^ w := by rw [← Nat.pow_add, Nat.sub_add_cancel (Nat.le_of_lt hk)]
    have hdiv := Nat.div_add_mod' (c.toNat - skew.toNat) (2 ^ k)
    rw [Nat.add_mul] at hblock
    omega
  by_cases hwrap : c.toNat + g.toNat < 2 ^ w
  · rw [BitVec.le_def, BitVec.toNat_add_of_lt hwrap]
    omega
  · rw [BitVec.lt_def, BitVec.toNat_add, Nat.mod_eq_sub_mod (by omega), Nat.mod_eq_of_lt (by omega)]
    have : skew.toNat ≤ ex.exStart.toNat := by
      rw [hskew]; split <;> simp
    omega

/-! ## Candidates that fit -/

/-- The request at `newstart` fits into the gap at the cut. -/
structure Fits (ex : Map w) (size newstart : BitVec w) (before after : List (Region w)) :
    Prop where
  cut : ex.exRegions = before.reverse ++ after
  lo : ex.exStart ≤ newstart
  noWrap : newstart ≤ newstart + (size - 1#w)
  hi : newstart + (size - 1#w) ≤ ex.exEnd
  behind : ∀ r ∈ before, r.erEnd < newstart
  ahead : ∀ r ∈ after, newstart + (size - 1#w) < r.erStart

theorem Fits.regionsOk {ex : Map w} {size newstart : BitVec w} {before after : List (Region w)}
    (h : Fits ex size newstart before after) (hok : RegionsOk ex) (rp : Region w) :
    RegionsOk (extentInsertAndOptimize ex newstart size before after rp) :=
  insert_regionsOk rp (hok.cut h.cut) h.lo h.noWrap h.hi h.behind h.ahead

/-- The best gap so far is one that fits; `bestovh = 0` is none at all. -/
def BestOk (ex : Map w) (size : BitVec w) (b : Best w) : Prop :=
  b.bestovh ≠ 0#w → Fits ex size b.beststart b.before b.after

def Search.Ok (ex : Map w) (size : BitVec w) : Search w → Prop
  | .found newstart before after => Fits ex size newstart before after
  | .fail best => BestOk ex size best

/-- What the search comes back with, if it is a place at all, is `P`. -/
def Search.All (P : BitVec w → List (Region w) → List (Region w) → Prop) : Search w → Prop
  | .found newstart before after => P newstart before after
  | .fail best => best.bestovh ≠ 0#w → P best.beststart best.before best.after

theorem Search.all_improve {P : BitVec w → List (Region w) → List (Region w) → Prop} {b : Best w}
    {ovh newstart : BitVec w} {before after : List (Region w)} (hb : (Search.fail b).All P)
    (hp : P newstart before after) :
    (Search.fail (b.improve ovh newstart before after)).All P := by
  unfold Best.improve
  split
  · exact fun _ => hp
  · exact hb

/-! ## The rule of the loop -/

section Rule

variable {ex : Map w} {fl : Flags} {subend size alignment skew boundary : BitVec w}
  {P : BitVec w → List (Region w) → List (Region w) → Prop}

theorem finalCheck_all {newstart exend : BitVec w} {best : Best w} {before after : List (Region w)}
    (hlast : ∀ ns, leOv newstart (size - 1#w) subend = true →
      boundaryCheck ex fl size boundary (fun ns => leOv ns (size - 1#w) subend) newstart
        = .fits ns → P ns before after)
    (hbest : (Search.fail best).All P) :
    (finalCheck ex fl subend size boundary newstart best before after exend).All P := by
  unfold finalCheck
  split
  · rename_i hfit
    split
    · exact hbest
    · exact hbest
    · rename_i ns hns
      have hp := hlast ns hfit hns
      dsimp only
      split
      · exact hp
      · exact Search.all_improve hbest hp
  · exact hbest

/-- The loop over the gaps, for an invariant `Inv` of the candidate and the
cut: a candidate that passes its test gives a place that is `P`, and the
next candidate keeps the invariant. By induction on the regions still
ahead. -/
theorem gapLoop_all (Inv : BitVec w → List (Region w) → List (Region w) → Prop)
    (hgap : ∀ {c ns before rp rest}, Inv c before (rp :: rest) → rp.erStart ≤ subend →
      leOv c size rp.erStart = true →
      boundaryCheck ex fl size boundary (fun ns => leOv ns size rp.erStart) c = .fits ns →
      P ns before (rp :: rest))
    (hlast : ∀ {c ns before after}, Inv c before after →
      (∀ rp rest, after = rp :: rest → subend < rp.erStart) →
      leOv c (size - 1#w) subend = true →
      boundaryCheck ex fl size boundary (fun ns => leOv ns (size - 1#w) subend) c = .fits ns →
      P ns before after)
    (hskip : ∀ {c before rp rest}, Inv c before (rp :: rest) → rp.erStart ≤ subend →
      ¬ extentAlign (rp.erEnd + 1#w) alignment skew < rp.erEnd →
      Inv (extentAlign (rp.erEnd + 1#w) alignment skew) (rp :: before) rest) :
    ∀ (after : List (Region w)) {newstart : BitVec w} {best : Best w} {before : List (Region w)},
      Inv newstart before after → (Search.fail best).All P →
      (gapLoop ex fl subend size alignment skew boundary newstart best before after).All P
  | [], newstart, best, before, hinv, hbest => by
      exact finalCheck_all (fun ns => hlast hinv (by simp)) hbest
  | rp :: rest, newstart, best, before, hinv, hbest => by
      rw [gapLoop]
      split
      · rename_i hpast
        refine finalCheck_all (fun ns => hlast hinv ?_) hbest
        rintro _ _ ⟨rfl, rfl⟩
        exact hpast
      rename_i hnear
      have hnear := BitVec.not_lt.mp hnear
      have hnext : ∀ best, (Search.fail best).All P →
          (if extentAlign (rp.erEnd + 1#w) alignment skew < rp.erEnd then Search.fail best
            else gapLoop ex fl subend size alignment skew boundary
              (extentAlign (rp.erEnd + 1#w) alignment skew) best (rp :: before) rest).All P := by
        intro best hbest
        split
        · exact hbest
        · rename_i hnw
          exact gapLoop_all Inv hgap hlast hskip rest (hskip hinv hnear hnw) hbest
      dsimp only
      split
      · rename_i hfit
        split
        · exact hnext best hbest
        · exact hbest
        · rename_i ns hns
          have hp := hgap hinv hnear hfit hns
          split
          · exact hp
          · exact hnext _ (Search.all_improve hbest hp)
      · exact hnext best hbest

end Rule

/-- The boundary check leaves a candidate alone or moves it up to a line, and
then the fit has been tested again. -/
theorem boundaryCheck_fits {ex : Map w} {fl : Flags} {size boundary ns ns' : BitVec w}
    (fits : BitVec w → Bool) (hfit : fits ns = true)
    (hline : boundary ≠ 0#w →
      dontcross ex fl boundary ns < ex.exStart ∨ ns ≤ dontcross ex fl boundary ns)
    (h : boundaryCheck ex fl size boundary fits ns = .fits ns') :
    ns ≤ ns' ∧ fits ns' = true := by
  unfold boundaryCheck at h
  dsimp only at h
  split_ifs at h with h0 hlow _ hcross hf _ _
  · obtain rfl : ns = ns' := by simpa using h
    exact ⟨BitVec.le_refl _, hfit⟩
  · obtain rfl : ns = ns' := by simpa using h
    exact ⟨BitVec.le_refl _, hfit⟩
  · obtain rfl : dontcross ex fl boundary ns + 1#w = ns' := by simpa using h
    refine ⟨?_, hf⟩
    have hle := (hline h0).resolve_left hlow
    have hone := Word.toNat_add_one hcross
    rw [BitVec.le_def] at hle ⊢
    omega
  · obtain rfl : ns = ns' := by simpa using h
    exact ⟨BitVec.le_refl _, hfit⟩

/-- `LE_OV` against the start of a region: the request ends before it. -/
theorem leOv_size {ns size s : BitVec w} (h0 : size ≠ 0#w) (h : leOv ns size s = true) :
    ns ≤ ns + (size - 1#w) ∧ ns + (size - 1#w) < s := by
  simp only [leOv, ge_iff_le, Bool.and_eq_true, decide_eq_true_eq] at h
  obtain ⟨hle, hs⟩ := h
  have hsum := Word.toNat_add_of_le hle
  have hsize := toNat_sub_one_of_ne h0
  have hpos : 0 < size.toNat := BitVec.toNat_pos_of_ne_zero h0
  have hend : (ns + (size - 1#w)).toNat = ns.toNat + (size - 1#w).toNat :=
    BitVec.toNat_add_of_lt (by omega)
  rw [BitVec.le_def] at hs ⊢
  rw [BitVec.lt_def]
  omega

theorem leOv_last {ns size s : BitVec w} (h : leOv ns (size - 1#w) s = true) :
    ns ≤ ns + (size - 1#w) ∧ ns + (size - 1#w) ≤ s := by
  simpa [leOv] using h

/-- Everything behind a cut begins after its first region. -/
theorem ahead_of_head {lo hi : BitVec w} {before rest : List (Region w)} {rp : Region w}
    (hcut : CutOk lo hi before (rp :: rest)) {e : BitVec w} (he : e < rp.erStart) :
    ∀ r ∈ rp :: rest, e < r.erStart := by
  intro r hr
  rcases List.mem_cons.mp hr with rfl | hr
  · exact he
  · have h1 := hcut.after_first r hr
    have h2 := (hcut.after_each rp (by simp)).2.1
    bv_omega

/-- Where the search stands: at a candidate in the extent, behind every region
of the cut. -/
structure SearchAt (ex : Map w) (substart alignment skew c : BitVec w)
    (before after : List (Region w)) : Prop where
  cut : ex.exRegions = before.reverse ++ after
  lo : ex.exStart ≤ c
  cand : Candidate ex substart alignment skew c
  behind : ∀ r ∈ before, r.erEnd < c

section Search

variable {ex : Map w} {fl : Flags} {substart subend size alignment skew boundary : BitVec w}

/-- The last check: `after` begins past the end of the subregion. -/
theorem finalCheck_fits (hok : RegionsOk ex) (hsub : subend ≤ ex.exEnd)
    (hlines : LinesOk ex fl substart alignment skew boundary) {c ns : BitVec w}
    {before after : List (Region w)} (h : SearchAt ex substart alignment skew c before after)
    (hpast : ∀ rp rest, after = rp :: rest → subend < rp.erStart)
    (hfit : leOv c (size - 1#w) subend = true)
    (hns : boundaryCheck ex fl size boundary (fun ns => leOv ns (size - 1#w) subend) c
      = .fits ns) : Fits ex size ns before after := by
  obtain ⟨hle, hfit'⟩ := boundaryCheck_fits (fun ns => leOv ns (size - 1#w) subend) hfit
    (fun h0 => hlines h0 _ h.cand h.lo) hns
  obtain ⟨h1, h2⟩ := leOv_last hfit'
  refine ⟨h.cut, BitVec.le_trans h.lo hle, h1, BitVec.le_trans h2 hsub,
    fun r hr => Nat.lt_of_lt_of_le (h.behind r hr) hle, ?_⟩
  cases after with
  | nil => simp
  | cons rp rest =>
      exact ahead_of_head (hok.cut h.cut) (Nat.lt_of_le_of_lt h2 (hpast rp rest rfl))

theorem gapCheck_fits (hok : RegionsOk ex) (hsize : size ≠ 0#w)
    (hlines : LinesOk ex fl substart alignment skew boundary) {c ns : BitVec w}
    {before rest : List (Region w)} {rp : Region w}
    (h : SearchAt ex substart alignment skew c before (rp :: rest))
    (hfit : leOv c size rp.erStart = true)
    (hns : boundaryCheck ex fl size boundary (fun ns => leOv ns size rp.erStart) c = .fits ns) :
    Fits ex size ns before (rp :: rest) := by
  have hcutOk := hok.cut h.cut
  obtain ⟨hle, hfit'⟩ := boundaryCheck_fits (fun ns => leOv ns size rp.erStart) hfit
    (fun h0 => hlines h0 _ h.cand h.lo) hns
  obtain ⟨h1, h2⟩ := leOv_size hsize hfit'
  refine ⟨h.cut, BitVec.le_trans h.lo hle, h1, ?_,
    fun r hr => Nat.lt_of_lt_of_le (h.behind r hr) hle, ahead_of_head hcutOk h2⟩
  have h3 := (hcutOk.after_each rp (by simp)).2
  bv_omega

/-- The next candidate, made from `rp`. -/
theorem SearchAt.skip (hok : RegionsOk ex) (halign : alignment ≠ 0#w) {c : BitVec w}
    {before rest : List (Region w)} {rp : Region w}
    (h : SearchAt ex substart alignment skew c before (rp :: rest))
    (hnw : ¬ extentAlign (rp.erEnd + 1#w) alignment skew < rp.erEnd) :
    SearchAt ex substart alignment skew (extentAlign (rp.erEnd + 1#w) alignment skew)
      (rp :: before) rest := by
  have hcutOk := hok.cut h.cut
  have hpast := align_past halign hnw
  have hrp := hcutOk.after_each rp (by simp)
  refine ⟨by simp [h.cut], ?_, Or.inr ⟨rp, by simp [h.cut], rfl⟩, fun r hr => ?_⟩
  · have := hrp.1
    have := hrp.2.1
    bv_omega
  · rcases List.mem_cons.mp hr with rfl | hr
    · exact hpast
    · have h1 := hcutOk.cross r hr rp (by simp)
      have h2 := hrp.2.1
      bv_omega

/-- The loop over the gaps: what it finds fits, and so does the best gap it
gives up with. -/
theorem gapLoop_ok (hok : RegionsOk ex) (hsize : size ≠ 0#w) (halign : alignment ≠ 0#w)
    (hsub : subend ≤ ex.exEnd) (hlines : LinesOk ex fl substart alignment skew boundary)
    {after : List (Region w)} {newstart : BitVec w} {best : Best w} {before : List (Region w)}
    (h : SearchAt ex substart alignment skew newstart before after) (hbest : BestOk ex size best) :
    (gapLoop ex fl subend size alignment skew boundary newstart best before after).Ok ex size := by
  exact gapLoop_all (P := Fits ex size) (SearchAt ex substart alignment skew)
    (fun h _ hfit hns => gapCheck_fits hok hsize hlines h hfit hns)
    (fun h hpast hfit hns => finalCheck_fits hok hsub hlines h hpast hfit hns)
    (fun h _ hnw => h.skip hok halign hnw) after h hbest

end Search

theorem cutAt_spec (newstart : BitVec w) :
    ∀ before l : List (Region w),
      (cutAt newstart before l).1.reverse ++ (cutAt newstart before l).2 = before.reverse ++ l
        ∧ ∀ r ∈ (cutAt newstart before l).1, r ∈ before ∨ r.erStart < newstart
  | before, [] => ⟨rfl, fun r hr => Or.inl hr⟩
  | before, rp :: l => by
      rw [cutAt]
      split
      · exact ⟨rfl, fun r hr => Or.inl hr⟩
      · rename_i hlt
        obtain ⟨heq, hb⟩ := cutAt_spec newstart (rp :: before) l
        refine ⟨by simpa using heq, fun r hr => ?_⟩
        rcases hb r hr with hm | h
        · rcases List.mem_cons.mp hm with rfl | hm
          · exact Or.inr (BitVec.not_le.mp hlt)
          · exact Or.inl hm
        · exact Or.inr h

/-- `extent_alloc_subregion` keeps the region list in shape. -/
theorem allocSubregionStart_regionsOk (diag : Bool) {ex : Map w}
    {substart subend size alignment skew boundary : BitVec w} {fl : Flags} (myrp : Region w)
    (hok : RegionsOk ex) (hsize : size ≠ 0#w) (halign : alignment ≠ 0#w)
    (hsub : subend ≤ ex.exEnd) (hreloc : RelocateOk ex substart alignment skew)
    (hlines : LinesOk ex fl substart alignment skew boundary) :
    RegionsOk (allocSubregionStart diag ex substart subend size alignment skew boundary fl myrp).2 := by
  unfold allocSubregionStart
  dsimp only
  split
  · split
    · exact hok
    · exact hok.congr (by simp) (by simp) (by simp)
  · rename_i hlow
    have hlo : ex.exStart ≤ extentAlign substart alignment skew := BitVec.not_lt.mp hlow
    set newstart := extentAlign substart alignment skew with hns
    obtain ⟨heq, hb⟩ := cutAt_spec newstart [] ex.exRegions
    rcases hc : cutAt newstart [] ex.exRegions with ⟨before, after⟩
    rw [hc] at heq hb
    have hcut : ex.exRegions = before.reverse ++ after := by simpa using heq.symm
    have hb : ∀ r ∈ before, r.erStart < newstart := fun r hr => by simpa using hb r hr
    have hcutOk := hok.cut hcut
    -- the relocated start is a candidate, in the extent, and behind the cut
    have hstart : ex.exStart ≤ relocate alignment skew newstart before
        ∧ Candidate ex substart alignment skew (relocate alignment skew newstart before)
        ∧ ∀ r ∈ before, r.erEnd < relocate alignment skew newstart before := by
      cases before with
      | nil => exact ⟨hlo, Or.inl rfl, by simp⟩
      | cons last bs =>
          have hbs := hcutOk.before_last
          have hmem : last ∈ ex.exRegions := by simp [hcut]
          have hlt := hb last (by simp)
          rw [relocate]
          split
          · rename_i hge
            have hpast := hreloc last hmem hlt hge
            refine ⟨?_, Or.inr ⟨last, hmem, rfl⟩, fun r hr => ?_⟩
            · bv_omega
            · rcases List.mem_cons.mp hr with rfl | hr
              · exact hpast
              · have h1 := hbs r hr
                bv_omega
          · rename_i hlt'
            refine ⟨hlo, Or.inl rfl, fun r hr => ?_⟩
            rcases List.mem_cons.mp hr with rfl | hr
            · exact BitVec.not_le.mp hlt'
            · have h1 := hbs r hr
              bv_omega
    have hsearch := gapLoop_ok hok hsize halign hsub hlines
      ⟨hcut, hstart.1, hstart.2.1, hstart.2.2⟩ (show BestOk ex size {} from fun h => absurd rfl h)
    split
    · rename_i ns b a hf
      rw [hf] at hsearch
      exact Fits.regionsOk hsearch hok myrp
    · rename_i best hf
      rw [hf] at hsearch
      split_ifs with hbest hws
      · simp only [Bool.and_eq_true, decide_eq_true_eq, ne_eq] at hbest
        exact Fits.regionsOk (hsearch hbest.2) hok myrp
      · exact hok.congr rfl rfl rfl
      · exact hok.congr (by simp) (by simp) (by simp)

/-! ## Frame -/

theorem allocSubregionStart_frame (diag : Bool) (ex : Map w)
    (substart subend size alignment skew boundary : BitVec w) (fl : Flags) (myrp : Region w) :
    Frame ex
      (allocSubregionStart diag ex substart subend size alignment skew boundary fl myrp).2 := by
  unfold allocSubregionStart
  dsimp only
  split
  · split
    · exact Frame.refl ex
    · exact freeDescriptor_frame ..
  · split
    · exact insert_frame ..
    · split_ifs
      · exact insert_frame ..
      · exact ⟨rfl, rfl, rfl, rfl⟩
      · exact freeDescriptor_frame ..

theorem allocSubregionStart_asleep {diag : Bool} {ex : Map w}
    {substart subend size alignment skew boundary : BitVec w} {fl : Flags} {myrp : Region w}
    {p : Wait w}
    (h : (allocSubregionStart diag ex substart subend size alignment skew boundary fl myrp).1
      = .asleep p) :
    p = .space (.allocSubregion substart subend size alignment skew boundary fl) myrp
      ∧ (allocSubregionStart diag ex substart subend size alignment skew boundary fl myrp).2
        = { ex with exfWanted := true } := by
  unfold allocSubregionStart at h ⊢
  dsimp only at h ⊢
  split at h
  · split at h <;> simp at h
  · rename_i hlow
    rw [if_neg hlow]
    split at h
    · simp at h
    · split_ifs at h with h1 h2
      rw [if_neg h1, if_pos h2]
      exact ⟨by simpa using h.symm, rfl⟩

end Obsd.Extent
