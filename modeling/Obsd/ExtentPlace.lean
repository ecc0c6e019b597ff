import Obsd.ExtentCovered

/-!
# Where `extent_alloc_subregion` places a request

A `Placement` is what a caller asks for: addresses inside the subregion
that are free, a start that is aligned, and no boundary line inside. A
successful call returns one and allocates exactly that (`alloc_placement`)
as long as nothing it computes on the way is off (`Tame`):

* aligning the start of the subregion, or the address behind the region
  that holds it, does not wrap; only the alignments in the loop are checked
  for that;
* `extent_align` gives aligned candidates and the next boundary line, as it
  does for powers of two (`extentAlign_pow2`, `lineOk_pow2`);
* a candidate that is moved up to a boundary line is aligned there. The
  code does not align it again.
-/

namespace Obsd.Extent

variable {w : Nat}

/-! ## Placements -/

/-- The arguments of `extent_alloc_subregion`. -/
structure Request (w : Nat) where
  substart : BitVec w
  subend : BitVec w
  size : BitVec w
  alignment : BitVec w
  skew : BitVec w
  boundary : BitVec w
  fl : Flags
deriving DecidableEq, Repr

namespace Request

def call (q : Request w) : Call w :=
  .allocSubregion q.substart q.subend q.size q.alignment q.skew q.boundary q.fl

/-- The argument checks of the source. -/
def Accepted (ex : Map w) (q : Request w) : Prop :=
  ex.exStart ≤ q.substart ∧ q.substart ≤ ex.exEnd ∧ ex.exStart ≤ q.subend ∧ q.subend ≤ ex.exEnd
    ∧ 0#w < q.size ∧ q.size - 1#w ≤ q.subend - q.substart ∧ q.alignment ≠ 0#w
    ∧ (q.boundary = 0#w ∨ q.size ≤ q.boundary)

instance (ex : Map w) (q : Request w) : Decidable (q.Accepted ex) := by
  unfold Accepted; infer_instance

/-- The last address of the request when it starts at `s`. -/
def last (q : Request w) (s : BitVec w) : BitVec w := s + (q.size - 1#w)

/-- The boundary lines are counted from the start of the extent, or from 0. -/
def lineBase (ex : Map w) (q : Request w) : BitVec w :=
  if q.fl.exBoundzero then 0#w else ex.exStart

def Aligned (q : Request w) (s : BitVec w) : Prop := (s - q.skew) % q.alignment = 0#w

instance (q : Request w) (s : BitVec w) : Decidable (q.Aligned s) := by
  unfold Aligned; infer_instance

/-- No multiple of the boundary lies behind `s` and up to `e`. -/
def Uncrossed (ex : Map w) (q : Request w) (s e : BitVec w) : Prop :=
  ∀ m : Nat, ¬ (s.toNat < (q.lineBase ex).toNat + m * q.boundary.toNat ∧
    (q.lineBase ex).toNat + m * q.boundary.toNat ≤ e.toNat)

/-- The request may be placed at `s`. -/
structure Placement (ex : Map w) (q : Request w) (s : BitVec w) : Prop where
  lo : q.substart ≤ s
  noWrap : s ≤ q.last s
  hi : q.last s ≤ q.subend
  free : ∀ a, s ≤ a → a ≤ q.last s → ¬ Covered ex.exRegions a
  aligned : q.Aligned s
  uncrossed : q.boundary ≠ 0#w → q.Uncrossed ex s (q.last s)

/-! ## What the search computes -/

/-- The first candidate, before it is moved out of a region. -/
def start (q : Request w) : BitVec w := extentAlign q.substart q.alignment q.skew

/-- The candidates the search tries: the first, unless a region holds it, and
one behind every region it passes. -/
def Tried (ex : Map w) (q : Request w) (c : BitVec w) : Prop :=
  (c = q.start ∧ ∀ r ∈ ex.exRegions, r.erStart < c → r.erEnd < c)
    ∨ ∃ r ∈ ex.exRegions, q.start ≤ r.erEnd ∧ r.erEnd < c
        ∧ c = extentAlign (r.erEnd + 1#w) q.alignment q.skew

/-- The request, at `c`, ends inside the subregion. -/
def EndsInside (q : Request w) (c : BitVec w) : Prop := leOv c (q.size - 1#w) q.subend = true

/-- The subregion has room for the request at `c`. -/
def Room (ex : Map w) (q : Request w) (c : BitVec w) : Prop :=
  q.EndsInside c ∧ ∀ a, c ≤ a → a ≤ q.last c → ¬ Covered ex.exRegions a

/-- The first multiple of the boundary behind `c`, which need not be a word. -/
def nextLine (ex : Map w) (q : Request w) (c : BitVec w) : Nat :=
  (q.lineBase ex).toNat
    + ((c.toNat - (q.lineBase ex).toNat) / q.boundary.toNat + 1) * q.boundary.toNat

/-- `dontcross` is the address before the next line; below the extent, where the
code takes it for an overflow, the line lies past the subregion. -/
def LineOk (ex : Map w) (q : Request w) (c : BitVec w) : Prop :=
  if dontcross ex q.fl q.boundary c < ex.exStart then q.subend.toNat < q.nextLine ex c
  else (dontcross ex q.fl q.boundary c).toNat + 1 = q.nextLine ex c

/-- The request, at `c`, crosses the line in front of it, and has room behind
the line. -/
def Moved (ex : Map w) (q : Request w) (c : BitVec w) : Prop :=
  ex.exStart ≤ dontcross ex q.fl q.boundary c ∧ dontcross ex q.fl q.boundary c < q.last c
    ∧ q.Room ex (dontcross ex q.fl q.boundary c + 1#w)

/-- Nothing the search computes for the request is off. -/
structure Tame (ex : Map w) (q : Request w) : Prop where
  start : q.substart ≤ q.start
  reloc : RelocateOk ex q.substart q.alignment q.skew
  aligned : ∀ c, q.Tried ex c → q.Room ex c → q.Aligned c
  line : q.boundary ≠ 0#w → ∀ c, q.Tried ex c → q.Room ex c → q.LineOk ex c
  moved : q.boundary ≠ 0#w → ∀ c, q.Tried ex c → q.Room ex c → q.Moved ex c →
    q.Aligned (dontcross ex q.fl q.boundary c + 1#w)

end Request

/-! ## Lines -/

section Lines

variable {ex : Map w} {q : Request w}

open Request

/-- A stretch that ends before the next line crosses none. -/
theorem uncrossed_of_nextLine {s e : BitVec w} (hb : q.boundary ≠ 0#w) (hs : q.lineBase ex ≤ s)
    (h : e.toNat < q.nextLine ex s) : q.Uncrossed ex s e := by
  intro m ⟨hm, he⟩
  have hpos : 0 < q.boundary.toNat := BitVec.toNat_pos_of_ne_zero hb
  have hlt : (s.toNat - (q.lineBase ex).toNat) / q.boundary.toNat < m := by
    rw [BitVec.le_def] at hs
    rw [Nat.div_lt_iff_lt_mul hpos]
    omega
  have hle : ((s.toNat - (q.lineBase ex).toNat) / q.boundary.toNat + 1) * q.boundary.toNat
      ≤ m * q.boundary.toNat := Nat.mul_le_mul_right _ hlt
  rw [nextLine] at h
  omega

/-- The line behind a line is one boundary further on. -/
theorem nextLine_of_line {c s : BitVec w} (hb : q.boundary ≠ 0#w)
    (hs : s.toNat = q.nextLine ex c) : q.nextLine ex s = s.toNat + q.boundary.toNat := by
  have hpos : 0 < q.boundary.toNat := BitVec.toNat_pos_of_ne_zero hb
  rw [nextLine, hs, nextLine, Nat.add_sub_cancel_left, Nat.mul_div_cancel _ hpos]
  ring

theorem lt_nextLine (c : BitVec w) (hb : q.boundary ≠ 0#w) : c.toNat < q.nextLine ex c := by
  have hpos : 0 < q.boundary.toNat := BitVec.toNat_pos_of_ne_zero hb
  have hlt := Nat.lt_mul_div_succ (c.toNat - (q.lineBase ex).toNat) hpos
  rw [nextLine, Nat.mul_comm]
  omega

theorem lineBase_le {c : BitVec w} (hc : ex.exStart ≤ c) : q.lineBase ex ≤ c := by
  rw [lineBase]
  split
  · rw [BitVec.le_def]; simp
  · exact hc

end Lines

/-! ## One candidate -/

section Check

variable {ex : Map w} {q : Request w} {c ns : BitVec w} {fits : BitVec w → Bool}

open Request

/-- What the boundary check accepts: the candidate, or the line in front of it,
and neither crosses a line. -/
theorem boundaryCheck_place (hsize : 0#w < q.size) (hc : ex.exStart ≤ c)
    (hbound : q.boundary = 0#w ∨ q.size ≤ q.boundary) (hfit : fits c = true)
    (hroom : ∀ s, c ≤ s → fits s = true → q.Room ex s) (haligned : q.Aligned c)
    (hline : q.boundary ≠ 0#w → q.LineOk ex c)
    (hmoved : q.boundary ≠ 0#w → q.Moved ex c →
      q.Aligned (dontcross ex q.fl q.boundary c + 1#w))
    (h : boundaryCheck ex q.fl q.size q.boundary fits c = .fits ns) :
    c ≤ ns ∧ fits ns = true ∧ q.Aligned ns ∧
      (q.boundary ≠ 0#w → q.Uncrossed ex ns (q.last ns)) := by
  unfold boundaryCheck at h
  dsimp only at h
  split_ifs at h with h0 hlow hruns hcross hf hruns hruns'
  · -- no boundary
    obtain rfl : c = ns := by simpa using h
    exact ⟨BitVec.le_refl _, hfit, haligned, fun hb => absurd h0 hb⟩
  · -- the line is past the end of the extent
    obtain rfl : c = ns := by simpa using h
    have hlineOk := hline h0
    rw [LineOk, if_pos hlow] at hlineOk
    have hlast := (leOv_last (hroom c (BitVec.le_refl _) hfit).1).2
    exact ⟨BitVec.le_refl _, hfit, haligned, fun hb =>
      uncrossed_of_nextLine hb (lineBase_le hc) (Nat.lt_of_le_of_lt hlast hlineOk)⟩
  · -- moved up to the line
    obtain rfl : dontcross ex q.fl q.boundary c + 1#w = ns := by simpa using h
    have hlineOk := hline h0
    rw [LineOk, if_neg hlow] at hlineOk
    have hone := Word.toNat_add_one hcross
    rw [hlineOk] at hone
    have hle : c ≤ dontcross ex q.fl q.boundary c + 1#w := by
      rw [BitVec.le_def, hone]
      exact Nat.le_of_lt (lt_nextLine c h0)
    have hin := hroom _ hle hf
    refine ⟨hle, hf, hmoved h0 ⟨BitVec.not_lt.mp hlow, hcross, hin⟩, fun hb => ?_⟩
    refine uncrossed_of_nextLine hb (lineBase_le (BitVec.le_trans hc hle)) ?_
    have hnext := nextLine_of_line hb hone
    have hlast := Word.toNat_add_of_le (leOv_last hin.1).1
    have hsz := Word.toNat_sub_one hsize
    have hle' : q.size.toNat ≤ q.boundary.toNat := hbound.resolve_left hb
    rw [hnext, last, hlast, hsz]
    rw [BitVec.lt_def, BitVec.toNat_zero] at hsize
    omega
  · -- the request ends before the line
    obtain rfl : c = ns := by simpa using h
    have hlineOk := hline h0
    rw [LineOk, if_neg hlow] at hlineOk
    have hnc := BitVec.not_lt.mp hcross
    rw [BitVec.le_def] at hnc
    refine ⟨BitVec.le_refl _, hfit, haligned, fun hb =>
      uncrossed_of_nextLine hb (lineBase_le hc) ?_⟩
    rw [last]
    omega

end Check

/-! ## The search -/

section Search

variable {ex : Map w} {q : Request w} {c ns : BitVec w} {before after rest : List (Region w)}
  {rp : Region w}

open Request

/-- A request that fits into the cut lies in free addresses. -/
theorem Fits.free {size : BitVec w} (h : Fits ex size ns before after) (a : BitVec w)
    (hlo : ns ≤ a) (hhi : a ≤ ns + (size - 1#w)) : ¬ Covered ex.exRegions a := by
  rw [h.cut, covered_cut]
  rintro (⟨r, hr, -, hle⟩ | ⟨r, hr, hle, -⟩)
  · have := h.behind r hr
    bv_omega
  · have := h.ahead r hr
    bv_omega

/-- Where the search stands: at a candidate behind the cut, with regions ahead
that begin behind the first candidate. -/
structure TriedAt (ex : Map w) (q : Request w) (c : BitVec w) (before after : List (Region w)) :
    Prop where
  cut : ex.exRegions = before.reverse ++ after
  tried : q.Tried ex c
  behind : ∀ r ∈ before, r.erEnd < c
  passed : ∀ r ∈ after, q.start ≤ r.erStart

theorem Request.Tried.substart_le (h : q.Tried ex c) (hstart : q.substart ≤ q.start) :
    q.substart ≤ c := by
  rcases h with ⟨rfl, -⟩ | ⟨r, -, h1, h2, -⟩
  · exact hstart
  · exact BitVec.le_trans hstart (Nat.le_of_lt (Nat.lt_of_le_of_lt h1 h2))

theorem TriedAt.skip (hok : RegionsOk ex) (halign : q.alignment ≠ 0#w)
    (h : TriedAt ex q c before (rp :: rest))
    (hnw : ¬ extentAlign (rp.erEnd + 1#w) q.alignment q.skew < rp.erEnd) :
    TriedAt ex q (extentAlign (rp.erEnd + 1#w) q.alignment q.skew) (rp :: before) rest := by
  have hcutOk := hok.cut h.cut
  have hpast := align_past halign hnw
  have hrp := hcutOk.after_each rp List.mem_cons_self
  refine ⟨by simp [h.cut], .inr ⟨rp, by simp [h.cut], ?_, hpast, rfl⟩, fun r hr => ?_,
    fun r hr => h.passed r (List.mem_cons_of_mem _ hr)⟩
  · exact BitVec.le_trans (h.passed rp List.mem_cons_self) hrp.2.1
  · rcases List.mem_cons.mp hr with rfl | hr
    · exact hpast
    · have h1 := hcutOk.cross r hr rp List.mem_cons_self
      have h2 := hrp.2.1
      bv_omega

/-- `LE_OV` against the start of a region in the subregion, for the check
against the end of the subregion. -/
theorem endsInside_of_leOv (hsize : 0#w < q.size) (hrp : rp.erStart ≤ q.subend)
    (h : leOv c q.size rp.erStart = true) : q.EndsInside c := by
  obtain ⟨h1, h2⟩ := leOv_size ((BitVec.pos_iff_ne_zero _).mp hsize) h
  have h3 : c + (q.size - 1#w) ≤ q.subend := by bv_omega
  simp [EndsInside, leOv, h1, h3]

/-- A request that ends between the cut and the subregion's end has room. -/
theorem TriedAt.fits (ht : q.substart ≤ q.start) (hacc : q.Accepted ex)
    (h : TriedAt ex q c before after) (hle : c ≤ ns) (hin : q.EndsInside ns)
    (hahead : ∀ r ∈ after, q.last ns < r.erStart) : Fits ex q.size ns before after := by
  obtain ⟨hlo, -, -, hhi, -⟩ := hacc
  obtain ⟨hnw, hend⟩ := leOv_last hin
  have hsub := h.tried.substart_le ht
  exact ⟨h.cut, BitVec.le_trans hlo (BitVec.le_trans hsub hle), hnw, BitVec.le_trans hend hhi,
    fun r hr => Nat.lt_of_lt_of_le (h.behind r hr) hle, hahead⟩

/-- A candidate that passes is a place for the request, whichever of the two
tests it passes. -/
theorem TriedAt.placement (ht : q.Tame ex) (hacc : q.Accepted ex)
    (h : TriedAt ex q c before after) {fits : BitVec w → Bool} (hfit : fits c = true)
    (hends : ∀ s, fits s = true → q.EndsInside s)
    (hahead : ∀ s, fits s = true → ∀ r ∈ after, q.last s < r.erStart)
    (hns : boundaryCheck ex q.fl q.size q.boundary fits c = .fits ns) :
    Fits ex q.size ns before after ∧ q.Placement ex ns := by
  have ⟨hlo, _, _, _, hsize, _, _, hbound⟩ := hacc
  have hfits : ∀ s, c ≤ s → fits s = true → Fits ex q.size s before after := fun s hle hs =>
    h.fits ht.start hacc hle (hends s hs) (hahead s hs)
  have hroom : ∀ s, c ≤ s → fits s = true → q.Room ex s := fun s hle hs =>
    ⟨hends s hs, (hfits s hle hs).free⟩
  have hin := hroom c (BitVec.le_refl _) hfit
  have hsub := h.tried.substart_le ht.start
  obtain ⟨hle, hfit', haligned, huncrossed⟩ := boundaryCheck_place hsize
    (BitVec.le_trans hlo hsub) hbound hfit hroom (ht.aligned c h.tried hin)
    (fun hb => ht.line hb c h.tried hin) (fun hb => ht.moved hb c h.tried hin) hns
  obtain ⟨hnw, hend⟩ := leOv_last (hends ns hfit')
  have hns := hfits ns hle hfit'
  exact ⟨hns, BitVec.le_trans hsub hle, hnw, hend, hns.free, haligned, huncrossed⟩

/-- What the loop finds is a place for the request. -/
theorem gapLoop_placement (hok : RegionsOk ex) (ht : q.Tame ex) (hacc : q.Accepted ex)
    (h : TriedAt ex q c before after) :
    (gapLoop ex q.fl q.subend q.size q.alignment q.skew q.boundary c {} before after).All
      fun ns before after => Fits ex q.size ns before after ∧ q.Placement ex ns := by
  have ⟨_, _, _, _, hsize, _, halign, _⟩ := hacc
  refine gapLoop_all (TriedAt ex q) ?_ ?_ (fun h _ hnw => h.skip hok halign hnw) after h
    (fun hne => absurd rfl hne)
  · intro c ns before rp rest h hrp hfit hns
    refine h.placement ht hacc hfit (fun s hs => endsInside_of_leOv hsize hrp hs) ?_ hns
    intro s hs
    exact ahead_of_head (hok.cut h.cut) (leOv_size ((BitVec.pos_iff_ne_zero _).mp hsize) hs).2
  · intro c ns before after h hpast hfit hns
    refine h.placement ht hacc hfit (fun s hs => hs) ?_ hns
    intro s hs
    cases after with
    | nil => simp
    | cons rp rest =>
        exact ahead_of_head (hok.cut h.cut)
          (Nat.lt_of_le_of_lt (leOv_last hs).2 (hpast rp rest rfl))

theorem cutAt_after (newstart : BitVec w) :
    ∀ (before l : List (Region w)) {rp : Region w} {rest : List (Region w)},
      (cutAt newstart before l).2 = rp :: rest → newstart ≤ rp.erStart
  | before, [], rp, rest => by simp [cutAt]
  | before, r :: l, rp, rest => by
      rw [cutAt]
      split
      · rename_i hle
        rintro ⟨rfl, rfl⟩
        exact hle
      · exact cutAt_after newstart (r :: before) l

/-- The search begins at a candidate. -/
theorem triedAt_start (hok : RegionsOk ex)
    (hreloc : RelocateOk ex q.substart q.alignment q.skew)
    (hc : cutAt q.start [] ex.exRegions = (before, after)) :
    TriedAt ex q (relocate q.alignment q.skew q.start before) before after := by
  obtain ⟨heq, hb⟩ := cutAt_spec q.start [] ex.exRegions
  have hafter := @cutAt_after w q.start [] ex.exRegions
  rw [hc] at heq hb hafter
  have hcut : ex.exRegions = before.reverse ++ after := by simpa using heq.symm
  have hb : ∀ r ∈ before, r.erStart < q.start := fun r hr => by simpa using hb r hr
  have hcutOk := hok.cut hcut
  have hpassed : ∀ r ∈ after, q.start ≤ r.erStart := by
    cases after with
    | nil => simp
    | cons rp rest =>
        intro r hr
        rcases List.mem_cons.mp hr with rfl | hr
        · exact hafter rfl
        · have h1 := hafter rfl
          have h2 := hcutOk.after_first r hr
          have h3 := (hcutOk.after_each rp List.mem_cons_self).2.1
          bv_omega
  -- the first candidate is tried when the regions before it end before it
  have hfirst : (∀ r ∈ before, r.erEnd < q.start) → TriedAt ex q q.start before after := by
    intro hbehind
    refine ⟨hcut, .inl ⟨rfl, fun r hr hlt => ?_⟩, hbehind, hpassed⟩
    rw [hcut, List.mem_append, List.mem_reverse] at hr
    rcases hr with hr | hr
    · exact hbehind r hr
    · exact absurd hlt (BitVec.not_lt.mpr (hpassed r hr))
  cases before with
  | nil => exact hfirst (by simp)
  | cons last bs =>
      have hbs := hcutOk.before_last
      have hlw := hcutOk.before_each last List.mem_cons_self
      have hmem : last ∈ ex.exRegions := by simp [hcut]
      rw [relocate]
      split
      · rename_i hge
        have hpast := hreloc last hmem (hb last List.mem_cons_self) hge
        refine ⟨hcut, .inr ⟨last, hmem, hge, hpast, rfl⟩, fun r hr => ?_, hpassed⟩
        rcases List.mem_cons.mp hr with rfl | hr
        · exact hpast
        · have h1 := hbs r hr
          have h2 := hlw.2.1
          bv_omega
      · rename_i hlt
        refine hfirst fun r hr => ?_
        rcases List.mem_cons.mp hr with rfl | hr
        · exact BitVec.not_le.mp hlt
        · have h1 := hbs r hr
          have h2 := hb last List.mem_cons_self
          bv_omega

end Search

/-! ## Powers of two -/

section Pow2

variable {ex : Map w} {q : Request w} {k : Nat}

open Request

theorem toNat_twoPow_of_lt (hk : k < w) : (BitVec.twoPow w k).toNat = 2 ^ k := by
  rw [BitVec.toNat_twoPow, Nat.mod_eq_of_lt (Nat.pow_lt_pow_right (by omega) hk)]

theorem twoPow_ne_zero (hk : k < w) : BitVec.twoPow w k ≠ 0#w := fun h0 => by
  have h := toNat_twoPow_of_lt hk
  rw [h0, BitVec.toNat_zero] at h
  exact absurd h (Nat.ne_of_lt (Nat.two_pow_pos k))

theorem umod_twoPow_eq_zero (hk : k < w) {x : BitVec w} :
    x % BitVec.twoPow w k = 0#w ↔ 2 ^ k ∣ x.toNat := by
  rw [← BitVec.toNat_inj, BitVec.toNat_umod, toNat_twoPow_of_lt hk, BitVec.toNat_zero,
    Nat.dvd_iff_mod_eq_zero]

theorem dvd_toNat_add (hk : k < w) {x y : BitVec w} (hx : 2 ^ k ∣ x.toNat)
    (hy : 2 ^ k ∣ y.toNat) : 2 ^ k ∣ (x + y).toNat := by
  rw [BitVec.toNat_add, Nat.dvd_mod_iff (Nat.pow_dvd_pow 2 (Nat.le_of_lt hk))]
  exact Nat.dvd_add hx hy

/-- `extent_align` aligns to a power of two. -/
theorem extentAlign_pow2 (hk : k < w) (x skew : BitVec w) :
    2 ^ k ∣ (extentAlign x (BitVec.twoPow w k) skew - skew).toNat := by
  have hmask : (BitVec.twoPow w k - 1#w).toNat = 2 ^ k - 1 := by
    rw [toNat_sub_one_of_ne (twoPow_ne_zero hk), toNat_twoPow_of_lt hk]
  rw [extentAlign, BitVec.add_sub_cancel, Word.and_neg]
  set y := x - skew + (BitVec.twoPow w k - 1#w)
  have hlow : (y &&& (BitVec.twoPow w k - 1#w)).toNat = y.toNat % 2 ^ k := by
    rw [BitVec.toNat_and, hmask, Nat.and_two_pow_sub_one_eq_mod]
  have hle : y &&& (BitVec.twoPow w k - 1#w) ≤ y := by
    rw [BitVec.le_def, hlow]
    exact Nat.mod_le _ _
  rw [BitVec.toNat_sub_of_le hle, hlow]
  exact Nat.dvd_sub_mod _

/-- The line of a power-of-two boundary is the next one, or past every word. -/
theorem lineOk_pow2 (hk : k < w) (hb : q.boundary = BitVec.twoPow w k) {c : BitVec w}
    (hc : ex.exStart ≤ c) : q.LineOk ex c := by
  have hbase : q.lineBase ex ≤ c := lineBase_le hc
  have hgap := alignGap_pow2 hk hbase
  have hdc := dontcross_eq ex q.fl q.boundary c
  rw [← lineBase, hb] at hdc
  set g := alignGap (c + 1#w) (BitVec.twoPow w k) (q.lineBase ex)
  have hdiv := Nat.div_add_mod' (c.toNat - (q.lineBase ex).toNat) (2 ^ k)
  have hle : (q.lineBase ex).toNat ≤ c.toNat := hbase
  have hnext : q.nextLine ex c = c.toNat + g.toNat + 1 := by
    rw [nextLine, hb, toNat_twoPow_of_lt hk, Nat.add_mul]
    omega
  rw [LineOk, hnext, hb, hdc]
  rcases lines_pow2 hk ex q.fl hc with hlow | hup
  · rw [hdc] at hlow
    rw [if_pos hlow]
    by_contra hn
    -- a sum that did not wrap is not below the extent
    rw [BitVec.lt_def, BitVec.toNat_add_of_lt (by omega)] at hlow
    rw [BitVec.le_def] at hc
    omega
  · rw [hdc] at hup
    rw [if_neg (BitVec.not_lt.mpr (BitVec.le_trans hc hup)), Word.toNat_add_of_le hup]

/-- For powers of two, with the lines aligned, only the two wraps are left. -/
theorem tame_pow2 {i : Nat} (hacc : q.Accepted ex) (hi : i < w)
    (halign : q.alignment = BitVec.twoPow w i)
    (hbound : q.boundary ≠ 0#w →
      ∃ k < w, i ≤ k ∧ q.boundary = BitVec.twoPow w k ∧ q.Aligned (q.lineBase ex))
    (hstart : q.substart ≤ q.start) (hreloc : RelocateOk ex q.substart q.alignment q.skew) :
    q.Tame ex := by
  have haligned : ∀ x, q.Aligned (extentAlign x q.alignment q.skew) := fun x => by
    rw [Aligned, halign, umod_twoPow_eq_zero hi]
    exact extentAlign_pow2 hi x q.skew
  refine ⟨hstart, hreloc, fun c hc _ => ?_, fun hb c hc _ => ?_, fun hb c hc _ _ => ?_⟩
  · rcases hc with ⟨rfl, -⟩ | ⟨r, -, -, -, rfl⟩
    · exact haligned _
    · exact haligned _
  · obtain ⟨k, hk, -, hbk, -⟩ := hbound hb
    exact lineOk_pow2 hk hbk (BitVec.le_trans hacc.1 (hc.substart_le hstart))
  · obtain ⟨k, hk, hik, hbk, hbase⟩ := hbound hb
    rw [Aligned, halign, umod_twoPow_eq_zero hi] at hbase ⊢
    have hline := extentAlign_pow2 hk (c + 1#w) (q.lineBase ex)
    have hsum := dvd_toNat_add hi (Nat.dvd_trans (Nat.pow_dvd_pow 2 hik) hline) hbase
    have heq : extentAlign (c + 1#w) (BitVec.twoPow w k) (q.lineBase ex) - q.lineBase ex
        + (q.lineBase ex - q.skew) = dontcross ex q.fl q.boundary c + 1#w - q.skew := by
      rw [dontcross, hbk, ← lineBase]
      grind
    rwa [heq] at hsum

end Pow2

/-! ## Whole calls -/

section Calls

variable {ex ex' ex₁ : Map w} {q : Request w}

open Request

/-- The call comes back with `o`, at once or after a sleep; `ex` is the extent
as the activation that returns finds it. -/
def Request.Returns (diag : Bool) (ex : Map w) (q : Request w) (o : Outcome w) (ex' : Map w) :
    Prop :=
  ∃ err pool, q.call.run diag ex pool = (o, ex')
    ∨ ∃ p : Wait w, p.call = q.call ∧ p.resume diag ex err pool = (o, ex')

/-- The search a call that succeeds, or finds no space, returns from. -/
theorem Request.Returns.search {diag : Bool} {o : Outcome w} (h : q.Returns diag ex o ex')
    (ho : ∃ r, o = .done none r ∨ o = .done (some .eagain) r) :
    ∃ ex₁ myrp, Frame ex ex₁ ∧ ex₁.exRegions = ex.exRegions ∧
      allocSubregionStart diag ex₁ q.substart q.subend q.size q.alignment q.skew q.boundary q.fl
        myrp = (o, ex') := by
  have hget : ∀ pool, getDescriptor diag ex pool q.call = (o, ex') →
      ∃ ex₁ myrp, Frame ex ex₁ ∧ ex₁.exRegions = ex.exRegions ∧
        allocSubregionStart diag ex₁ q.substart q.subend q.size q.alignment q.skew q.boundary
          q.fl myrp = (o, ex') := by
    intro pool hret
    rw [getDescriptor] at hret
    split at hret
    · rename_i myrp ex₁ hd
      obtain ⟨hf, hr⟩ := allocDescriptor_frame (.inl ⟨myrp, hd⟩)
      exact ⟨ex₁, myrp, hf, hr, hret⟩
    · obtain ⟨rfl, -⟩ := Prod.mk.inj hret
      simp at ho
    · obtain ⟨rfl, -⟩ := Prod.mk.inj hret
      simp at ho
  obtain ⟨err, pool, hrun | ⟨p, hp, hres⟩⟩ := h
  · rw [call, Call.run, extentAllocSubregion] at hrun
    split at hrun
    · obtain ⟨rfl, -⟩ := Prod.mk.inj hrun
      simp at ho
    · exact hget pool hrun
  · cases p with
    | freelist c =>
        obtain rfl : c = q.call := hp
        rw [Wait.resume] at hres
        split at hres
        · obtain ⟨rfl, -⟩ := Prod.mk.inj hres
          simp at ho
        · exact hget pool hres
    | space c myrp =>
        obtain rfl : c = q.call := hp
        rw [Wait.resume] at hres
        split at hres
        · obtain ⟨rfl, -⟩ := Prod.mk.inj hres
          simp at ho
        · exact ⟨ex, myrp, Frame.refl ex, rfl, hres⟩

/-- A search that succeeds has inserted what it found. -/
theorem allocSubregionStart_found {diag : Bool} {myrp : Region w} {r : Option (BitVec w)}
    {P : BitVec w → List (Region w) → List (Region w) → Prop}
    (hall : ∀ before after, cutAt q.start [] ex.exRegions = (before, after) →
      (gapLoop ex q.fl q.subend q.size q.alignment q.skew q.boundary
        (relocate q.alignment q.skew q.start before) {} before after).All P)
    (h : allocSubregionStart diag ex q.substart q.subend q.size q.alignment q.skew q.boundary q.fl
      myrp = (.done none r, ex')) :
    ∃ s before after, r = some s ∧ P s before after ∧
      ex' = extentInsertAndOptimize ex s q.size before after myrp := by
  unfold allocSubregionStart at h
  dsimp only at h
  split at h
  · split at h <;> simp at h
  · have hsearch := hall _ _ (Prod.mk.eta (p := cutAt q.start [] ex.exRegions)).symm
    split at h
    · rename_i s before after hf
      rw [start] at hsearch
      rw [hf] at hsearch
      obtain ⟨hr, rfl⟩ := Prod.mk.inj h
      exact ⟨s, before, after, by simpa using hr.symm, hsearch, rfl⟩
    · rename_i best hf
      rw [start] at hsearch
      rw [hf] at hsearch
      split_ifs at h with hbest
      · simp only [Bool.and_eq_true, decide_eq_true_eq, ne_eq] at hbest
        obtain ⟨hr, rfl⟩ := Prod.mk.inj h
        exact ⟨_, _, _, by simpa using hr.symm, hsearch hbest.2, rfl⟩
      all_goals simp at h

theorem Request.Tame.congr (hs : ex₁.exStart = ex.exStart) (hr : ex₁.exRegions = ex.exRegions)
    (h : q.Tame ex) : q.Tame ex₁ := by
  cases ex
  cases ex₁
  obtain rfl : _ = _ := hs
  obtain rfl : _ = _ := hr
  exact ⟨h.start, h.reloc, h.aligned, h.line, h.moved⟩

theorem Request.Placement.congr {s : BitVec w} (hs : ex₁.exStart = ex.exStart)
    (hr : ex₁.exRegions = ex.exRegions) (h : q.Placement ex₁ s) : q.Placement ex s := by
  cases ex
  cases ex₁
  obtain rfl : _ = _ := hs
  obtain rfl : _ = _ := hr
  exact ⟨h.lo, h.noWrap, h.hi, h.free, h.aligned, h.uncrossed⟩

theorem Request.Accepted.congr (hs : ex₁.exStart = ex.exStart) (he : ex₁.exEnd = ex.exEnd)
    (h : q.Accepted ex) : q.Accepted ex₁ := by
  simpa only [Accepted, hs, he] using h

end Calls

/-- Twelve addresses on a multiple of 4, inside a block of 16. -/
def overLine : Request 64 := ⟨0, 99, 12, 4, 0, 16, {}⟩

/-- An extent that begins between two aligned addresses. -/
def oddStart : Map 64 := { oneRegion with exStart := 1, exRegions := [] }

/-- Twelve addresses on a multiple of 8. -/
def oddLine : Request 64 := ⟨1, 99, 12, 8, 0, 16, {}⟩

/-- An extent of every address, allocated at both ends. -/
def bothEnds : Map 64 :=
  { oneRegion with exEnd := -1, exRegions := [⟨0, 7, true⟩, ⟨-20, -1, true⟩] }

/-- Four of the last sixteen addresses. -/
def overTop : Request 64 := ⟨-16, -1, 4, 16, 0, 0, {}⟩

end Obsd.Extent
