import Obsd.ExtentConflict
import Obsd.ExtentSubregion
import Obsd.Runs

/-!
# Runs of the extent manager

Any number of activations share one extent. An activation runs until it
returns or sleeps; a sleeping one may go on at any later time, a `wakeup`
being no more than a hint that it should.

`ArgsOk` are the argument checks of the source, and `SearchOk` the calls
on which it keeps the region list in shape; `runs_regionsOk` is the
invariant over every run of such calls.
-/

namespace Obsd.Extent

variable {w : Nat}

/-! ## The machine -/

structure Sys (w : Nat) where
  ex : Map w
  sleepers : List (Wait w)
deriving DecidableEq, Repr

inductive Act (w : Nat) where
  | call (c : Call w) (pool : Bool)
  | resume (i : Nat) (err pool : Bool)
deriving DecidableEq, Repr

/-- The state after an activation has run. There is none after a panic. -/
def settle (sleepers : List (Wait w)) : Outcome w × Map w → Option (Sys w)
  | (.done _ _, ex) => some ⟨ex, sleepers⟩
  | (.asleep p, ex) => some ⟨ex, sleepers ++ [p]⟩
  | (.panic, _) => none
  | (.spins, _) => none

/-- `tsleep` without `PCATCH` and without a timeout is not interrupted. -/
def step (diag : Bool) (s : Sys w) : Act w → Option (Sys w)
  | .call c pool => settle s.sleepers (c.run diag s.ex pool)
  | .resume i err pool =>
    match s.sleepers[i]? with
    | some p =>
      if err && !p.call.flags.exCatch then none
      else settle (s.sleepers.eraseIdx i) (p.resume diag s.ex err pool)
    | none => none

/-- The call an action runs. -/
def Act.call? (s : Sys w) : Act w → Option (Call w)
  | .call c _ => some c
  | .resume i _ _ => (s.sleepers[i]?).map Wait.call

/-! ## Guards -/

/-- A power of two that fits into a word. -/
def IsPow2 (x : BitVec w) : Prop := ∃ k < w, x = BitVec.twoPow w k

instance (x : BitVec w) : Decidable (IsPow2 x) := by
  unfold IsPow2; infer_instance

/-- The argument checks of the source, which `DIAGNOSTIC` makes, and the power
of two its comment asks of `alignment`. -/
def Call.ArgsOk (ex : Map w) : Call w → Prop
  | .allocRegion start size fl =>
    0#w < size ∧ start ≤ start + (size - 1#w) ∧ ex.exStart ≤ start
      ∧ start + (size - 1#w) ≤ ex.exEnd ∧ (fl.exConflictok && fl.exWaitspace) = false
  | .allocSubregion substart subend size alignment _ boundary _ =>
    ex.exStart ≤ substart ∧ substart ≤ ex.exEnd ∧ ex.exStart ≤ subend ∧ subend ≤ ex.exEnd
      ∧ 0#w < size ∧ size - 1#w ≤ subend - substart ∧ IsPow2 alignment
      ∧ (boundary = 0#w ∨ size ≤ boundary)
  | .free start size _ =>
    0#w < size ∧ start ≤ start + (size - 1#w) ∧ ex.exStart ≤ start
      ∧ start + (size - 1#w) ≤ ex.exEnd

instance (ex : Map w) (c : Call w) : Decidable (c.ArgsOk ex) := by
  cases c <;> (unfold Call.ArgsOk; infer_instance)

/-- The calls that keep the list in shape, told from the list they find. -/
def Call.SearchOk (ex : Map w) : Call w → Prop
  | .allocRegion start size fl =>
    fl.exConflictok = true → fl.exWaitspace = false → ex.exfNocoalesce = true →
      ¬ Swallowed ex start (start + (size - 1#w))
  | .allocSubregion substart _ _ alignment skew boundary fl =>
    RelocateOk ex substart alignment skew ∧ LinesOk ex fl substart alignment skew boundary
  | .free _ _ _ => True

/-- A new call has passed the checks; a sleeping one has done so earlier. -/
def ArgsGuard (s : Sys w) : Act w → Prop
  | .call c _ => c.ArgsOk s.ex
  | .resume _ _ _ => True

def SearchGuard (s : Sys w) (a : Act w) : Prop :=
  ArgsGuard s a ∧ ∀ c, a.call? s = some c → c.SearchOk s.ex

/-! ## Freeing -/

/-- What `extent_free` leaves of a region list is in shape again. -/
theorem freeScan_ok {lo hi start end_ : BitVec w} (nc : Bool) (nrp : Region w)
    (hse : start ≤ end_) :
    ∀ {before l : List (Region w)}, CutOk lo hi before l →
      ∀ regions, ((∃ rp, freeScan nc start end_ nrp before l = .whole regions rp)
          ∨ freeScan nc start end_ nrp before l = .trim regions
          ∨ freeScan nc start end_ nrp before l = .split regions) →
        CutOk lo hi [] regions
  | before, [], _, regions, hf => by simp [freeScan] at hf
  | before, rp :: after, h, regions, hf => by
      have hnext := freeScan_ok nc nrp hse (Cut.snoc.mpr h) regions
      rw [freeScan] at hf
      split_ifs at hf with h1 h2 h3 h4 h5 h6 h7
      · exact hnext hf
      · simp at hf
      · obtain rfl : before.reverse ++ after = regions := by simpa using hf
        exact (Cut.snoc.mpr h).tail.join
      · exact hnext hf
      · obtain rfl : before.reverse ++ { rp with erStart := end_ + 1#w } :: after = regions := by
          simpa using hf
        have hone := Word.toNat_add_one h5.2
        refine Cut.join (h.shrink ?_ ?_ ?_)
        · rw [BitVec.le_def]; simp only [hone]; bv_omega
        · rw [BitVec.le_def]; simp only [hone]; exact h5.2
        · exact BitVec.le_refl _
      · obtain rfl : before.reverse ++ { rp with erEnd := start - 1#w } :: after = regions := by
          simpa using hf
        have hone := Word.toNat_sub_one h6.1
        refine Cut.join (h.shrink ?_ ?_ ?_)
        · exact BitVec.le_refl _
        · rw [BitVec.le_def]; simp only [hone]; bv_omega
        · rw [BitVec.le_def]; simp only [hone]; bv_omega
      · obtain rfl : before.reverse ++ { rp with erEnd := start - 1#w }
            :: { nrp with erStart := end_ + 1#w, erEnd := rp.erEnd } :: after = regions := by
          simpa using hf
        have hup := Word.toNat_add_one h7.2
        have hdown := Word.toNat_sub_one h7.1
        -- first the part behind the freed piece, then the part before it
        have hback : CutOk lo hi before
            ({ nrp with erStart := end_ + 1#w, erEnd := rp.erEnd } :: after) := by
          refine h.shrink ?_ ?_ (BitVec.le_refl _)
          · rw [BitVec.le_def]; simp only [hup]; bv_omega
          · rw [BitVec.le_def]; simp only [hup]; exact h7.2
        have hrp := h.after_each rp (by simp)
        refine Cut.join (Cut.snoc.mp (hback.insert ?_ ?_ fun a ha => ?_))
        · have := hrp.2.2
          refine ⟨hrp.1, ?_, ?_⟩
          · rw [BitVec.le_def]; simp only [hdown]; bv_omega
          · rw [BitVec.le_def] at *; simp only [hdown]; bv_omega
        · exact fun b hb => h.cross b hb rp (by simp)
        · rw [BitVec.lt_def]; simp only [hdown]
          rcases List.mem_cons.mp ha with rfl | ha
          · simp only [hup]; bv_omega
          · have := h.after_first a ha
            bv_omega
      · exact hnext hf

theorem freeStart_regionsOk {ex : Map w} {start size : BitVec w} (nrp : Option (Region w))
    (hok : RegionsOk ex) (hse : start ≤ start + (size - 1#w)) :
    RegionsOk (freeStart ex start size nrp).2 := by
  have hcut : CutOk ex.exStart ex.exEnd [] ex.exRegions := hok.cut (by simp)
  have hscan := freeScan_ok ex.exfNocoalesce (nrp.getD ⟨0#w, 0#w, false⟩) hse hcut
  unfold freeStart
  dsimp only
  split
  · rename_i regions rp hf
    have := hscan regions (Or.inl ⟨rp, hf⟩)
    exact CutOk.regionsOk [] regions (by cases nrp <;> simpa using this) (by cases nrp <;> simp)
  · rename_i regions hf
    have := hscan regions (Or.inr (Or.inl hf))
    exact CutOk.regionsOk [] regions (by cases nrp <;> simpa using this) (by cases nrp <;> simp)
  · rename_i regions hf
    have := hscan regions (Or.inr (Or.inr hf))
    exact CutOk.regionsOk [] regions this (by simp)
  · exact hok

/-! ## One activation -/

/-- What the argument checks leave for the search to rely on. -/
def Call.Checked (ex : Map w) : Call w → Prop
  | .allocRegion start size _ =>
    start ≤ start + (size - 1#w) ∧ ex.exStart ≤ start ∧ start + (size - 1#w) ≤ ex.exEnd
  | .allocSubregion _ subend size alignment _ _ _ =>
    size ≠ 0#w ∧ alignment ≠ 0#w ∧ subend ≤ ex.exEnd
  | .free start size _ => start ≤ start + (size - 1#w)

theorem isPow2_ne_zero {x : BitVec w} (h : IsPow2 x) : x ≠ 0#w := by
  obtain ⟨k, hk, rfl⟩ := h
  intro h0
  have := congrArg BitVec.toNat h0
  rw [BitVec.toNat_twoPow, Nat.mod_eq_of_lt (Nat.pow_lt_pow_right (by omega) hk)] at this
  simp at this

theorem Call.ArgsOk.checked {ex : Map w} : ∀ {c : Call w}, c.ArgsOk ex → c.Checked ex
  | .allocRegion _ _ _, ⟨_, h1, h2, h3, _⟩ => ⟨h1, h2, h3⟩
  | .allocSubregion _ _ _ _ _ _ _, ⟨_, _, _, h4, h5, _, h7, _⟩ =>
      ⟨(BitVec.pos_iff_ne_zero _).mp h5, isPow2_ne_zero h7, h4⟩
  | .free _ _ _, ⟨_, h1, _, _⟩ => h1

theorem Call.Checked.frame {ex ex' : Map w} {c : Call w} (h : c.Checked ex) (hf : Frame ex ex') :
    c.Checked ex' := by
  cases c with
  | allocRegion start size fl => simpa only [Call.Checked, hf.start, hf.last] using h
  | allocSubregion substart subend size alignment skew boundary fl =>
      simpa only [Call.Checked, hf.last] using h
  | free start size fl => exact h

theorem Call.SearchOk.frame {ex ex' : Map w} {c : Call w} (h : c.SearchOk ex) (hf : Frame ex ex')
    (hr : ex'.exRegions = ex.exRegions) : c.SearchOk ex' := by
  cases c with
  | allocRegion start size fl => simpa only [Call.SearchOk, Swallowed, hr, hf.last, hf.nocoalesce] using h
  | allocSubregion substart subend size alignment skew boundary fl =>
      simpa only [Call.SearchOk, RelocateOk, LinesOk, Candidate, dontcross, hr, hf.start] using h
  | free start size fl => trivial

/-- An activation leaves the bounds where they are, and if it sleeps it is still
the call it was. -/
def Stays (c : Call w) (ex : Map w) (r : Outcome w × Map w) : Prop :=
  Frame ex r.2 ∧ ∀ p, r.1 = .asleep p → p.call = c

theorem Stays.stop {c : Call w} {ex : Map w} {o : Outcome w} (ho : ∀ p, o ≠ .asleep p) :
    Stays c ex (o, ex) :=
  ⟨Frame.refl ex, fun p hp => absurd hp (ho p)⟩

theorem freeStart_stays (c : Call w) (ex : Map w) (start size : BitVec w)
    (nrp : Option (Region w)) : Stays c ex (freeStart ex start size nrp) := by
  have hwake : ∀ {ex₁ : Map w}, Frame ex ex₁ → Frame ex { ex₁ with exfWanted := false } :=
    fun h => ⟨h.start, h.last, h.nocoalesce, h.fixed⟩
  unfold freeStart
  dsimp only
  split
  · refine ⟨hwake ?_, by simp⟩
    cases nrp with
    | none => exact freeDescriptor_regions_frame ..
    | some nrp => exact (freeDescriptor_regions_frame ..).trans (freeDescriptor_frame ..)
  · refine ⟨hwake ?_, by simp⟩
    cases nrp with
    | none => exact ⟨rfl, rfl, rfl, rfl⟩
    | some nrp => exact freeDescriptor_regions_frame ..
  · exact ⟨⟨rfl, rfl, rfl, rfl⟩, by simp⟩
  · exact Stays.stop (by simp)

theorem withDescriptor_stays (diag : Bool) (ex : Map w) (myrp : Region w) (c : Call w) :
    Stays c ex (withDescriptor diag ex myrp c) := by
  cases c with
  | allocRegion start size fl =>
      refine ⟨allocRegionLoop_frame .., fun p hp => ?_⟩
      rw [(allocRegionLoop_asleep hp).1]; rfl
  | allocSubregion substart subend size alignment skew boundary fl =>
      refine ⟨allocSubregionStart_frame .., fun p hp => ?_⟩
      rw [(allocSubregionStart_asleep hp).1]; rfl
  | free start size fl => exact freeStart_stays ..

/-- Taking a descriptor, or going to sleep for one, touches no region. -/
theorem allocDescriptor_frame {ex ex' : Map w} {fl : Flags} {pool : Bool}
    (h : (∃ rp, extentAllocRegionDescriptor ex fl pool = .got rp ex')
      ∨ extentAllocRegionDescriptor ex fl pool = .sleeps ex') :
    Frame ex ex' ∧ ex'.exRegions = ex.exRegions := by
  suffices ex'.exStart = ex.exStart ∧ ex'.exEnd = ex.exEnd
      ∧ ex'.exfNocoalesce = ex.exfNocoalesce ∧ ex'.exfFixed = ex.exfFixed
      ∧ ex'.exRegions = ex.exRegions from
    ⟨⟨this.1, this.2.1, this.2.2.1, this.2.2.2.1⟩, this.2.2.2.2⟩
  grind [extentAllocRegionDescriptor, poolGet]

theorem getDescriptor_stays (diag : Bool) (ex : Map w) (pool : Bool) (c : Call w) :
    Stays c ex (getDescriptor diag ex pool c) := by
  unfold getDescriptor
  split
  · rename_i myrp ex' hd
    obtain ⟨hf, -⟩ := allocDescriptor_frame (Or.inl ⟨myrp, hd⟩)
    obtain ⟨hf', hp⟩ := withDescriptor_stays diag ex' myrp c
    exact ⟨hf.trans hf', hp⟩
  · exact Stays.stop (by simp)
  · rename_i ex' hd
    refine ⟨(allocDescriptor_frame (Or.inr hd)).1, ?_⟩
    rintro p ⟨⟩
    rfl

theorem Call.run_stays (diag : Bool) (ex : Map w) (pool : Bool) (c : Call w) :
    Stays c ex (c.run diag ex pool) := by
  cases c with
  | allocRegion start size fl =>
      simp only [Call.run, extentAllocRegion]
      split_ifs
      · exact Stays.stop (by simp)
      · exact Stays.stop (by simp)
      · exact Stays.stop (by simp)
      · exact getDescriptor_stays ..
  | allocSubregion substart subend size alignment skew boundary fl =>
      simp only [Call.run, extentAllocSubregion]
      split_ifs
      · exact Stays.stop (by simp)
      · exact getDescriptor_stays ..
  | free start size fl =>
      simp only [Call.run, extentFree]
      split_ifs
      · exact Stays.stop (by simp)
      · exact freeStart_stays ..
      · exact getDescriptor_stays ..

theorem Wait.resume_stays (diag : Bool) (ex : Map w) (err pool : Bool) (p : Wait w) :
    Stays p.call ex (p.resume diag ex err pool) := by
  cases p with
  | freelist c =>
      simp only [Wait.resume]
      split
      · exact Stays.stop (by simp)
      · exact getDescriptor_stays ..
  | space c myrp =>
      simp only [Wait.resume]
      split
      · exact Stays.stop (by simp)
      · exact withDescriptor_stays ..

theorem withDescriptor_regionsOk (diag : Bool) {ex : Map w} (myrp : Region w) {c : Call w}
    (hok : RegionsOk ex) (hc : c.Checked ex) (hs : c.SearchOk ex) :
    RegionsOk (withDescriptor diag ex myrp c).2 := by
  cases c with
  | allocRegion start size fl =>
      exact allocRegionLoop_regionsOk fl myrp _ hok hc.1 hc.2.1 hc.2.2 rfl hs
  | allocSubregion substart subend size alignment skew boundary fl =>
      exact allocSubregionStart_regionsOk diag myrp hok hc.1 hc.2.1 hc.2.2 hs.1 hs.2
  | free start size fl => exact freeStart_regionsOk _ hok hc

theorem getDescriptor_regionsOk (diag : Bool) {ex : Map w} (pool : Bool) {c : Call w}
    (hok : RegionsOk ex) (hc : c.Checked ex) (hs : c.SearchOk ex) :
    RegionsOk (getDescriptor diag ex pool c).2 := by
  unfold getDescriptor
  split
  · rename_i myrp ex' hd
    obtain ⟨hf, hr⟩ := allocDescriptor_frame (Or.inl ⟨myrp, hd⟩)
    exact withDescriptor_regionsOk diag myrp (hok.congr hr hf.start hf.last)
      (hc.frame hf) (hs.frame hf hr)
  · exact hok
  · rename_i ex' hd
    obtain ⟨hf, hr⟩ := allocDescriptor_frame (Or.inr hd)
    exact hok.congr hr hf.start hf.last

theorem Call.run_regionsOk (diag : Bool) {ex : Map w} (pool : Bool) {c : Call w}
    (hok : RegionsOk ex) (hc : c.Checked ex) (hs : c.SearchOk ex) :
    RegionsOk (c.run diag ex pool).2 := by
  have hget := getDescriptor_regionsOk diag pool hok hc hs
  cases c with
  | allocRegion start size fl =>
      simp only [Call.run, extentAllocRegion]
      split_ifs
      · exact hok
      · exact hok
      · exact hok
      · exact hget
  | allocSubregion substart subend size alignment skew boundary fl =>
      simp only [Call.run, extentAllocSubregion]
      split_ifs
      · exact hok
      · exact hget
  | free start size fl =>
      simp only [Call.run, extentFree]
      split_ifs
      · exact hok
      · exact freeStart_regionsOk _ hok hc
      · exact hget

theorem Wait.resume_regionsOk (diag : Bool) {ex : Map w} (err pool : Bool) {p : Wait w}
    (hok : RegionsOk ex) (hc : p.call.Checked ex) (hs : p.call.SearchOk ex) :
    RegionsOk (p.resume diag ex err pool).2 := by
  cases p with
  | freelist c =>
      simp only [Wait.resume]
      split
      · exact hok
      · exact getDescriptor_regionsOk diag pool hok hc hs
  | space c myrp =>
      simp only [Wait.resume]
      split
      · exact hok
      · exact withDescriptor_regionsOk diag myrp hok hc hs

/-! ## Runs -/

/-- The invariant of a run: the list is in shape, and every sleeping call has
passed its checks. -/
def Inv (s : Sys w) : Prop :=
  RegionsOk s.ex ∧ ∀ p ∈ s.sleepers, p.call.Checked s.ex

theorem settle_cases {sleepers : List (Wait w)} {r : Outcome w × Map w} {s' : Sys w}
    (h : settle sleepers r = some s') :
    s'.ex = r.2 ∧ ((∃ e x, r.1 = .done e x ∧ s'.sleepers = sleepers)
      ∨ ∃ p, r.1 = .asleep p ∧ s'.sleepers = sleepers ++ [p]) := by
  obtain ⟨o, ex⟩ := r
  cases o with
  | done e x =>
      obtain rfl : ⟨ex, sleepers⟩ = s' := by simpa [settle] using h
      exact ⟨rfl, Or.inl ⟨e, x, rfl, rfl⟩⟩
  | asleep p =>
      obtain rfl : ⟨ex, sleepers ++ [p]⟩ = s' := by simpa [settle] using h
      exact ⟨rfl, Or.inr ⟨p, rfl, rfl⟩⟩
  | panic => simp [settle] at h
  | spins => simp [settle] at h

theorem step_cases {diag : Bool} {s s' : Sys w} {a : Act w} (h : step diag s a = some s') :
    (∃ c pool, a = .call c pool ∧ settle s.sleepers (c.run diag s.ex pool) = some s')
      ∨ ∃ i err pool p, a = .resume i err pool ∧ s.sleepers[i]? = some p
        ∧ settle (s.sleepers.eraseIdx i) (p.resume diag s.ex err pool) = some s' := by
  cases a with
  | call c pool => exact Or.inl ⟨c, pool, rfl, h⟩
  | resume i err pool =>
      simp only [step] at h
      split at h
      · rename_i p hp
        split at h
        · cases h
        · exact Or.inr ⟨i, err, pool, p, rfl, hp, h⟩
      · cases h

/-- A property of calls that only the bounds decide holds of every sleeping one, if
it holds of those asleep already and of the one that ran. -/
theorem settle_sleepers {P : Map w → Call w → Prop}
    (hframe : ∀ ex ex' c, P ex c → Frame ex ex' → P ex' c) {sleepers : List (Wait w)} {ex : Map w}
    {c : Call w} {r : Outcome w × Map w} {s' : Sys w} (hst : Stays c ex r)
    (hc : (∃ p, r.1 = .asleep p) → P ex c) (hsl : ∀ p ∈ sleepers, P ex p.call)
    (h : settle sleepers r = some s') : ∀ p ∈ s'.sleepers, P s'.ex p.call := by
  obtain ⟨hex, hcase⟩ := settle_cases h
  rw [hex]
  rcases hcase with ⟨e, x, -, heq⟩ | ⟨p, hp, heq⟩
  · rw [heq]
    exact fun q hq => hframe _ _ _ (hsl q hq) hst.1
  · rw [heq]
    intro q hq
    rcases List.mem_append.mp hq with hq | hq
    · exact hframe _ _ _ (hsl q hq) hst.1
    · obtain rfl := List.mem_singleton.mp hq
      rw [hst.2 q hp]
      exact hframe _ _ _ (hc ⟨q, hp⟩) hst.1

theorem step_inv (diag : Bool) {s s' : Sys w} {a : Act w} (hg : SearchGuard s a)
    (h : step diag s a = some s') (hi : Inv s) : Inv s' := by
  obtain ⟨hok, hsl⟩ := hi
  have hframe : ∀ (ex ex' : Map w) (c : Call w), c.Checked ex → Frame ex ex' → c.Checked ex' :=
    fun _ _ _ hc hf => hc.frame hf
  rcases step_cases h with ⟨c, pool, rfl, h⟩ | ⟨i, err, pool, p, rfl, hp, h⟩
  · have hc : c.Checked s.ex := Call.ArgsOk.checked hg.1
    refine ⟨?_, settle_sleepers hframe (Call.run_stays diag s.ex pool c) (fun _ => hc) hsl h⟩
    rw [(settle_cases h).1]
    exact Call.run_regionsOk diag pool hok hc (hg.2 c rfl)
  · have hc : p.call.Checked s.ex := hsl p (List.mem_of_getElem? hp)
    refine ⟨?_, settle_sleepers hframe (Wait.resume_stays diag s.ex err pool p) (fun _ => hc)
      (fun q hq => hsl q (List.mem_of_mem_eraseIdx hq)) h⟩
    rw [(settle_cases h).1]
    exact Wait.resume_regionsOk diag err pool hok hc (hg.2 p.call (by simp [Act.call?, hp]))

/-- An extent as `extent_create` hands it out, its bounds in order. -/
def Created (ex : Map w) : Prop :=
  ∃ alignFixed alignRegion start end_ storage fl pool, start ≤ end_
    ∧ extentCreate alignFixed alignRegion start end_ storage fl pool = some ex

theorem Created.regionsOk {ex : Map w} (h : Created ex) : RegionsOk ex := by
  obtain ⟨alignFixed, alignRegion, start, end_, storage, fl, pool, hse, h⟩ := h
  unfold extentCreate at h
  dsimp only at h
  split_ifs at h with hfill
  · split at h
    · rename_i rp ex' hd
      obtain ⟨hf, -⟩ := allocDescriptor_frame (Or.inl ⟨rp, hd⟩)
      obtain rfl := Option.some.inj h
      refine regionsOk_of_apart (by simp [Apart]) fun r hr => ?_
      obtain rfl := List.mem_singleton.mp hr
      exact ⟨by simp [hf.start], hse, by simp [hf.last]⟩
    · cases h
    · cases h
  · obtain rfl := Option.some.inj h
    exact ⟨by simp, by simp, by simp, by simp⟩

/-- In every run of calls that pass the argument checks and meet `SearchOk`, from
any extent that was created, the region list is strictly sorted by `er_start`,
its regions are disjoint, none is empty and all lie in the extent. -/
theorem runs_regionsOk (diag : Bool) {ex : Map w} {s : Sys w} (hex : Created ex)
    (h : Runs (step diag) SearchGuard ⟨ex, []⟩ s) : RegionsOk s.ex :=
  (h.invariant (fun _ _ _ hg hst hi => step_inv diag hg hst hi)
    (show Inv _ from ⟨hex.regionsOk, by simp⟩)).1

/-! ## Concrete runs -/

instance (s : Sys w) (a : Act w) : Decidable (ArgsGuard s a) := by
  cases a <;> (unfold ArgsGuard; infer_instance)

/-- Calls without `EX_CONFLICTOK` and with boundary lines at powers of two, if any. -/
def Call.Plain (ex : Map w) : Call w → Prop
  | .allocRegion _ _ fl => fl.exConflictok = false
  | .allocSubregion substart _ _ alignment skew boundary _ =>
    RelocateOk ex substart alignment skew ∧ (boundary = 0#w ∨ IsPow2 boundary)
  | .free _ _ _ => True

instance (ex : Map w) (c : Call w) : Decidable (c.Plain ex) := by
  cases c <;> (unfold Call.Plain; infer_instance)

theorem Call.Plain.searchOk {ex : Map w} {c : Call w} (h : c.Plain ex) : c.SearchOk ex := by
  cases c with
  | allocRegion start size fl =>
      intro hco
      simp [Call.Plain, hco] at h
  | allocSubregion substart subend size alignment skew boundary fl =>
      obtain ⟨hrel, hb⟩ := h
      refine ⟨hrel, fun hne c _ hc => ?_⟩
      obtain ⟨k, hk, rfl⟩ := hb.resolve_left hne
      exact lines_pow2 hk ex fl hc
  | free start size fl => trivial

/-- `SearchGuard`, as far as it can be evaluated on a wide word. -/
def plainGuard (s : Sys w) (a : Act w) : Bool :=
  decide (ArgsGuard s a) && ((a.call? s).map fun c => decide (c.Plain s.ex)).getD true

theorem plainGuard_searchGuard (s : Sys w) (a : Act w) (h : plainGuard s a = true) :
    SearchGuard s a := by
  rw [plainGuard, Bool.and_eq_true, decide_eq_true_eq] at h
  refine ⟨h.1, fun c hc => Call.Plain.searchOk ?_⟩
  simpa [hc] using h.2

/-- An extent over the whole address space, as machine-dependent code makes them. -/
def wholeSpace (fl : Flags) : Map 64 where
  exStart := 0#64
  exEnd := BitVec.allOnes 64
  exRegions := []
  fexFreelist := []
  exfFixed := false
  exfNocoalesce := fl.exNocoalesce
  exfWanted := false
  exfFlwanted := false

theorem created_wholeSpace (fl : Flags) (h : fl.exFilled = false) : Created (wholeSpace fl) := by
  refine ⟨64, 32, 0#64, BitVec.allOnes 64, none, fl, true, by decide, ?_⟩
  simp [extentCreate, h, wholeSpace]

/-- Two neighbours that coalesce, a search with boundary lines, a free that
splits what it got, and a call that waits until there is room. -/
def plainActs : List (Act 64) :=
  [.call (.allocRegion 0#64 16#64 {}) true,
   .call (.allocRegion 16#64 4#64 {}) true,
   .call (.allocSubregion 8#64 0xffff#64 0x1000#64 16#64 0#64 0x1000#64 {}) true,
   .call (.free 0x1010#64 16#64 {}) true,
   .call (.allocSubregion 0x1000#64 0x1fff#64 0x800#64 16#64 0#64 0#64 { exWaitspace := true }) true,
   .call (.free 0x1020#64 0xfe0#64 {}) true,
   .resume 0 false true]

theorem runs_regionsOk_plain :
    ∃ s : Sys 64, Runs (step true) SearchGuard ⟨wholeSpace {}, []⟩ s
      ∧ s.ex.exRegions = [⟨0#64, 19#64, true⟩, ⟨0x1000#64, 0x180f#64, true⟩] ∧ RegionsOk s.ex := by
  have hrun : Runs (step true) SearchGuard ⟨wholeSpace {}, []⟩
      (⟨{ wholeSpace {} with
        exRegions := [⟨0#64, 19#64, true⟩, ⟨0x1000#64, 0x180f#64, true⟩] }, []⟩ : Sys 64) :=
    Runs.of_exec plainGuard_searchGuard plainActs (by decide +kernel)
  exact ⟨_, hrun, rfl, runs_regionsOk true (created_wholeSpace {} rfl) hrun⟩

/-- A region that reaches `ULONG_MAX`, and a search that begins inside it: the
candidate behind that region is address 0, and nothing tells the search so. -/
def wrapActs : List (Act 64) :=
  [.call (.allocRegion 10#64 (-10#64) {}) true,
   .call (.allocSubregion 20#64 (BitVec.allOnes 64) 5#64 1#64 0#64 0#64 {}) true]

/-- Calls that pass the argument checks do not keep the list in shape: the
second one stretches the region `[10, ULONG_MAX]` to `[10, 4]`. -/
theorem runs_regions_wrap :
    ∃ s : Sys 64, Created (wholeSpace {}) ∧ Runs (step true) ArgsGuard ⟨wholeSpace {}, []⟩ s
      ∧ s.ex.exRegions = [⟨10#64, 4#64, true⟩] ∧ ¬ RegionsOk s.ex := by
  refine ⟨⟨{ wholeSpace {} with exRegions := [⟨10#64, 4#64, true⟩] }, []⟩,
    created_wholeSpace {} rfl, ?_, rfl, by decide⟩
  have hok : ∀ (s : Sys 64) (a : Act 64), decide (ArgsGuard s a) = true → ArgsGuard s a :=
    fun s a => of_decide_eq_true
  exact Runs.of_exec hok wrapActs (by decide +kernel)

end Obsd.Extent
