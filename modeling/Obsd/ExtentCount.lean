import Obsd.ExtentRuns

/-!
# The descriptors of a fixed extent

A fixed extent lives in storage its creator gave it and never takes a
descriptor from the pool, so those carved out of that storage have to
last. At any time each of them is on `fex_freelist`, on `ex_regions`, or
in the hands of an activation that sleeps until there is space.

Two exits of the code hold `myrp` and return without it: the interrupted
sleep for space, and the `return (0)` of a request `Dropped` describes.
`runs_descriptors` is the account over every run that takes neither.
-/

namespace Obsd.Extent

variable {w : Nat}

/-! ## The account -/

/-- A fixed extent with `n` descriptors of its own in sight, and no others. -/
structure Holds (n : Nat) (ex : Map w) : Prop where
  fixed : ex.exfFixed = true
  free : ∀ r ∈ ex.fexFreelist, r.erAlloc = false
  used : ∀ r ∈ ex.exRegions, r.erAlloc = false
  count : ex.fexFreelist.length + ex.exRegions.length = n

/-- A descriptor given back is in sight again. -/
theorem Holds.give {n : Nat} {ex : Map w} (h : Holds n ex) {rp : Region w}
    (hrp : rp.erAlloc = false) : Holds (n + 1) (extentFreeRegionDescriptor ex rp) := by
  have hcount := h.count
  have heq : extentFreeRegionDescriptor ex rp
      = { ex with fexFreelist := rp :: ex.fexFreelist, exfFlwanted := false } := by
    simp [extentFreeRegionDescriptor, h.fixed, hrp]
  rw [heq]
  refine ⟨h.fixed, ?_, h.used, ?_⟩
  · simpa [hrp] using h.free
  · simp only [List.length_cons]; omega

/-- Another region list, made of the extent's own descriptors. -/
theorem Holds.setRegions {n m : Nat} {ex : Map w} (h : Holds n ex) {l : List (Region w)}
    (hl : ∀ r ∈ l, r.erAlloc = false) (hlen : l.length + n = ex.exRegions.length + m) :
    Holds m { ex with exRegions := l } := by
  have hcount := h.count
  exact ⟨h.fixed, h.free, hl, by dsimp only; omega⟩

theorem Holds.setWanted {n : Nat} {ex : Map w} (h : Holds n ex) (b : Bool) :
    Holds n { ex with exfWanted := b } :=
  ⟨h.fixed, h.free, h.used, h.count⟩

/-- Without `EX_MALLOCOK` a descriptor comes off the freelist. -/
theorem Holds.take {n : Nat} {ex ex' : Map w} (h : Holds n ex) {fl : Flags} {pool : Bool}
    {rp : Region w} (hfl : fl.exMallocok = false)
    (hd : extentAllocRegionDescriptor ex fl pool = .got rp ex') :
    rp.erAlloc = false ∧ ∃ m, n = m + 1 ∧ Holds m ex' := by
  have hcount := h.count
  have hfree := h.free
  rw [extentAllocRegionDescriptor, if_pos h.fixed] at hd
  split at hd
  · rename_i rp' rest hl
    obtain ⟨rfl, rfl⟩ : rp' = rp ∧ { ex with fexFreelist := rest } = ex' := by simpa using hd
    rw [hl, List.forall_mem_cons] at hfree
    rw [hl, List.length_cons] at hcount
    exact ⟨hfree.1, rest.length + ex.exRegions.length, by omega, h.fixed, hfree.2, h.used, rfl⟩
  · rw [hfl] at hd
    simp only [Bool.false_eq_true, if_false] at hd
    split at hd <;> cases hd

theorem Holds.wait {n : Nat} {ex ex' : Map w} (h : Holds n ex) {fl : Flags} {pool : Bool}
    (hd : extentAllocRegionDescriptor ex fl pool = .sleeps ex') : Holds n ex' := by
  suffices ex' = { ex with exfFlwanted := true } from
    this ▸ ⟨h.fixed, h.free, h.used, h.count⟩
  grind [extentAllocRegionDescriptor, poolGet]

/-! ## Insertion -/

/-- Inserting uses `myrp` up, or gives back as many descriptors as it frees. -/
theorem Holds.insert {n : Nat} {ex : Map w} (h : Holds n ex) {myrp : Region w}
    (hrp : myrp.erAlloc = false) {before after : List (Region w)}
    (hcut : ex.exRegions = before.reverse ++ after) (start size : BitVec w) :
    Holds (n + 1) (extentInsertAndOptimize ex start size before after myrp) := by
  have hused := forall_mem_cut.mp (hcut ▸ h.used)
  have hcount := h.count
  unfold extentInsertAndOptimize
  rcases before with _ | ⟨last, bs⟩ <;> rcases after with _ | ⟨next, rest⟩ <;> dsimp only
  · exact h.setRegions (by simp [hrp]) (by simp [hcut]; omega)
  · rw [List.forall_mem_cons] at hused
    split_ifs
    · refine Holds.give (h.setRegions ?_ ?_) hrp
      · simp only [List.forall_mem_cons]
        exact hused.2
      · simp [hcut]
    · refine h.setRegions ?_ (by simp [hcut]; omega)
      simp only [List.forall_mem_cons]
      exact ⟨hrp, hused.2⟩
  · rw [List.forall_mem_cons] at hused
    have hmore : ∀ l, ∀ r ∈ (({ last with erEnd := l } : Region w) :: bs).reverse, r.erAlloc = false := by
      simpa only [List.mem_reverse, List.forall_mem_cons] using fun _ => hused.1
    split_ifs
    · refine h.setRegions ?_ (by simp [hcut]; omega)
      simp only [forall_mem_cut, List.forall_mem_cons]
      exact ⟨⟨hrp, hused.1⟩, hused.2⟩
    · refine Holds.give (h.setRegions (hmore _) ?_) hrp
      simp [hcut]
    · refine h.setRegions ?_ (by simp [hcut]; omega)
      simp only [forall_mem_cut, List.forall_mem_cons]
      exact ⟨⟨hrp, hused.1⟩, hused.2⟩
  · obtain ⟨⟨hlast, hbs⟩, hnext, hrest⟩ : (last.erAlloc = false ∧ ∀ r ∈ bs, r.erAlloc = false)
        ∧ next.erAlloc = false ∧ ∀ r ∈ rest, r.erAlloc = false := by
      simpa only [List.forall_mem_cons] using hused
    have hadd : Holds (n + 1)
        { ex with exRegions := (({ myrp with erStart := start, erEnd := start + (size - 1#w) }
          : Region w) :: last :: bs).reverse ++ next :: rest } := by
      refine h.setRegions ?_ (by simp [hcut]; omega)
      simp only [forall_mem_cut, List.forall_mem_cons]
      exact ⟨⟨hrp, hlast, hbs⟩, hnext, hrest⟩
    split_ifs
    · exact hadd
    · obtain ⟨m, rfl⟩ : ∃ m, n = m + 1 := ⟨n - 1, by simp [hcut] at hcount; omega⟩
      refine Holds.give (Holds.give (h.setRegions ?_ ?_) hnext) hrp
      · simp only [forall_mem_cut, List.forall_mem_cons]
        exact ⟨⟨hlast, hbs⟩, hrest⟩
      · simp [hcut]; omega
    · refine Holds.give (h.setRegions ?_ ?_) hrp
      · simp only [forall_mem_cut, List.forall_mem_cons]
        exact ⟨⟨hlast, hbs⟩, hnext, hrest⟩
      · simp [hcut]
    · refine Holds.give (h.setRegions ?_ ?_) hrp
      · simp only [forall_mem_cut, List.forall_mem_cons]
        exact ⟨⟨hlast, hbs⟩, hnext, hrest⟩
      · simp [hcut]
    · exact hadd

/-! ## The three searches -/

/-- The descriptors a sleeping activation has in its hands. -/
def Wait.held : Wait w → Nat
  | .freelist _ => 0
  | .space _ _ => 1

/-- An activation began with `n` descriptors in sight or in its own hands: they
are all in sight when it returns, or it sleeps on one of its own. -/
def Accounts (n : Nat) : Outcome w × Map w → Prop
  | (.done _ _, ex) => Holds n ex
  | (.asleep (.freelist _), ex) => Holds n ex
  | (.asleep (.space _ myrp), ex) => myrp.erAlloc = false ∧ ∃ m, n = m + 1 ∧ Holds m ex
  | (.panic, _) => True
  | (.spins, _) => True

/-- A request that is `Dropped` after a round of the loop was so before it: past
the region its start was moved over, everything is as it was. -/
theorem dropped_past {ex : Map w} {start end_ : BitVec w} {rp : Region w}
    {before after : List (Region w)} (h : RegionsOk ex)
    (hs : regionScan start end_ [] ex.exRegions = .conflict before rp after)
    (hle : rp.erStart ≤ start) (hlt : rp.erEnd < ex.exEnd)
    (hd : Dropped ex (rp.erEnd + 1#w) end_) : Dropped ex start end_ := by
  have hone := Word.toNat_add_one hlt
  have hrp := (conflict_cut h hs).2.2.2.2
  have hsplit : ∀ a, ¬ a ≤ rp.erEnd → rp.erEnd + 1#w ≤ a := fun a ha => by
    rw [BitVec.not_le, BitVec.lt_def] at ha
    rw [BitVec.le_def]; omega
  rcases hd with ⟨hcov, hr⟩ | ⟨hr, a, h1, h2, h3⟩
  · refine Or.inl ⟨fun a h1 h2 => ?_, hr⟩
    by_cases ha : a ≤ rp.erEnd
    · exact conflict_covered h hs hle h1 ha
    · exact hcov a (hsplit a ha) h2
  · refine Or.inr ⟨hr, a, ?_, h2, h3⟩
    rw [BitVec.le_def] at h1 hrp ⊢
    omega

/-- Removing a region from the middle of the request drops nothing that was not
dropped already: its start is free. -/
theorem dropped_removed {ex : Map w} {start end_ : BitVec w} {rp : Region w}
    {before after : List (Region w)} (h : RegionsOk ex)
    (hs : regionScan start end_ [] ex.exRegions = .conflict before rp after)
    (hlt : start < rp.erStart) (hse : start ≤ end_) (hin : rp.erEnd < end_)
    (hd : Dropped (extentFreeRegionDescriptor { ex with exRegions := before.reverse ++ after } rp)
      start end_) : Dropped ex start end_ := by
  obtain ⟨heq, hcut, hb, hrp1, hrp2⟩ := conflict_cut h hs
  have hfree := conflict_start_free h hs hlt
  have hsub : ∀ r, r ∈ before.reverse ++ after → r ∈ ex.exRegions := fun r hr => by
    rw [heq, List.mem_append]
    exact (List.mem_append.mp hr).imp id (List.mem_cons_of_mem _)
  rcases hd with ⟨hcov, -⟩ | ⟨⟨r, hr, hre⟩, -⟩
  · obtain ⟨r, hr, h1, h2⟩ := hcov start (BitVec.le_refl _) hse
    exact absurd ⟨r, hsub r (by simpa using hr), h1, h2⟩ hfree
  · refine Or.inr ⟨⟨r, hsub r (by simpa using hr), hre⟩, start, BitVec.le_refl _, ?_, hfree⟩
    bv_omega

/-- Once its end is cut off the request meets no other region. -/
theorem not_dropped_cut {ex : Map w} {start end_ : BitVec w} {rp : Region w}
    {before after : List (Region w)} (h : RegionsOk ex)
    (hs : regionScan start end_ [] ex.exRegions = .conflict before rp after)
    (hlt : start < rp.erStart) : ¬ Dropped ex start (rp.erStart - 1#w) := by
  obtain ⟨heq, hcut, hb, hrp1, hrp2⟩ := conflict_cut h hs
  have hone := Word.toNat_sub_one hlt
  have hle : start ≤ rp.erStart - 1#w := by
    rw [BitVec.le_def]; rw [BitVec.lt_def] at hlt; omega
  rintro (⟨hcov, -⟩ | ⟨⟨r, hr, hre⟩, -⟩)
  · exact conflict_start_free h hs hlt (hcov start (BitVec.le_refl _) hle)
  · rw [heq, List.mem_append, List.mem_reverse, List.mem_cons] at hr
    rcases hr with hr | rfl | hr
    · have h1 := hb r hr
      have h2 := (hcut.before_each r hr).2.1
      bv_omega
    · bv_omega
    · have h1 := hcut.after_first r hr
      have h2 := (hcut.after_each rp (by simp)).2.1
      bv_omega

/-- What the loop needs of an `EX_CONFLICTOK` request to account for `myrp`. -/
structure RequestOk (ex : Map w) (start end_ : BitVec w) : Prop where
  regions : RegionsOk ex
  order : start ≤ end_
  lo : ex.exStart ≤ start
  hi : end_ ≤ ex.exEnd
  kept : ¬ Dropped ex start end_

theorem allocRegionLoop_accounts (fl : Flags) {myrp : Region w} (hrp : myrp.erAlloc = false) :
    ∀ (fuel : Nat) {n : Nat} {ex : Map w} {start size end_ : BitVec w}, Holds n ex →
      (fl.exConflictok = true → fl.exWaitspace = false → RequestOk ex start end_) →
      Accounts (n + 1) (allocRegionLoop fl myrp fuel ex start size end_)
  | 0, n, ex, start, size, end_, _, _ => trivial
  | fuel + 1, n, ex, start, size, end_, h, hreq => by
      rw [allocRegionLoop]
      split
      · rename_i before after hs
        obtain ⟨heq, -, -⟩ := regionScan_clear hs
        exact h.insert hrp (by simpa using heq.symm) start size
      · rename_i before rp after hs
        split_ifs with hws hco hle hlt hin hpart hgt
        · exact ⟨hrp, n, rfl, h.setWanted true⟩
        · have hok := hreq hco (by simpa using hws)
          have hone := Word.toNat_add_one hlt
          obtain ⟨heq, hcut, -, -, -⟩ := conflict_cut hok.regions hs
          by_cases hmore : rp.erEnd < end_
          · refine allocRegionLoop_accounts fl hrp fuel h fun _ _ => ⟨hok.regions, ?_, ?_, hok.hi,
              fun hd => hok.kept (dropped_past hok.regions hs hle hlt hd)⟩
            · rw [BitVec.le_def]; rw [BitVec.lt_def] at hmore; omega
            · have h1 := (hcut.after_each rp (by simp)).1
              have h2 := (hcut.after_each rp (by simp)).2.1
              rw [BitVec.le_def] at *; omega
          · -- what is left is empty, and the next round inserts it
            cases fuel with
            | zero => trivial
            | succ fuel =>
                rw [allocRegionLoop, scan_swallowed hok.regions hs hle hok.order
                  (BitVec.not_lt.mp hmore) hlt]
                exact h.insert hrp (by simp [heq]) _ _
        · exfalso
          have hok := hreq hco (by simpa using hws)
          obtain ⟨heq, -, -, hrp1, -⟩ := conflict_cut hok.regions hs
          have hlast : ex.exEnd ≤ rp.erEnd := BitVec.not_lt.mp hlt
          refine hok.kept (Or.inl ⟨fun a h1 h2 => ?_, rp, by simp [heq], hrp1, hlast⟩)
          exact conflict_covered hok.regions hs hle h1
            (BitVec.le_trans h2 (BitVec.le_trans hok.hi hlast))
        · have hok := hreq hco (by simpa using hws)
          have hfree := BitVec.not_le.mp hle
          obtain ⟨heq, -, -, -, -⟩ := conflict_cut hok.regions hs
          have hused := forall_mem_cut.mp (heq ▸ h.used)
          obtain ⟨m, rfl⟩ : ∃ m, n = m + 1 := by
            have hcount := h.count
            simp only [heq, List.length_append, List.length_cons] at hcount
            exact ⟨n - 1, by omega⟩
          have hremoved : Holds (m + 1)
              (extentFreeRegionDescriptor { ex with exRegions := before.reverse ++ after } rp) := by
            refine Holds.give (h.setRegions ?_ ?_) (hused.2 rp (by simp))
            · exact forall_mem_cut.mpr ⟨hused.1, fun r hr => hused.2 r (by simp [hr])⟩
            · simp [heq]; omega
          exact allocRegionLoop_accounts fl hrp fuel hremoved fun _ _ =>
            ⟨remove_regionsOk hok.regions heq rp, hok.order, by simpa using hok.lo,
              by simpa using hok.hi, fun hd =>
                hok.kept (dropped_removed hok.regions hs hfree hok.order hin hd)⟩
        · have hok := hreq hco (by simpa using hws)
          have hfree := BitVec.not_le.mp hle
          have hone := Word.toNat_sub_one hfree
          refine allocRegionLoop_accounts fl hrp fuel h fun _ _ => ⟨hok.regions, ?_, hok.lo, ?_,
            not_dropped_cut hok.regions hs hfree⟩
          · rw [BitVec.le_def]; rw [BitVec.lt_def] at hfree; omega
          · have h1 := hok.hi
            rw [BitVec.le_def] at *; rw [BitVec.lt_def] at hpart; omega
        · have hok := hreq hco (by simpa using hws)
          have h1 := hok.lo
          bv_omega
        · exfalso
          have hok := hreq hco (by simpa using hws)
          obtain ⟨heq, -, -, hrp1, -⟩ := conflict_cut hok.regions hs
          have hfree := BitVec.not_le.mp hle
          have heq' : rp.erStart = end_ := by bv_omega
          exact hok.kept (Or.inr ⟨⟨rp, by simp [heq], heq'⟩, start, BitVec.le_refl _, by bv_omega,
            conflict_start_free hok.regions hs hfree⟩)
        · exact h.give hrp

/-- Whatever the search finds, it finds at a cut of the region list. -/
def Search.Cuts (l : List (Region w)) : Search w → Prop
  | .found _ before after => l = before.reverse ++ after
  | .fail best => best.bestovh ≠ 0#w → l = best.before.reverse ++ best.after

section Search

variable {ex : Map w} {fl : Flags} {subend size alignment skew boundary : BitVec w}

theorem improve_cuts {l : List (Region w)} {best : Best w} {ovh newstart : BitVec w}
    {before after : List (Region w)} (hcut : l = before.reverse ++ after)
    (hbest : (Search.fail best).Cuts l) :
    (Search.fail (best.improve ovh newstart before after)).Cuts l := by
  unfold Best.improve
  split
  · exact fun _ => hcut
  · exact hbest

theorem finalCheck_cuts {newstart exend : BitVec w} {best : Best w} {l before after : List (Region w)}
    (hcut : l = before.reverse ++ after) (hbest : (Search.fail best).Cuts l) :
    (finalCheck ex fl subend size boundary newstart best before after exend).Cuts l := by
  unfold finalCheck
  split
  · split
    · exact hbest
    · exact hbest
    · dsimp only
      split
      · exact hcut
      · exact improve_cuts hcut hbest
  · exact hbest

theorem gapLoop_cuts {l : List (Region w)} :
    ∀ (after : List (Region w)) {newstart : BitVec w} {best : Best w} {before : List (Region w)},
      l = before.reverse ++ after → (Search.fail best).Cuts l →
      (gapLoop ex fl subend size alignment skew boundary newstart best before after).Cuts l
  | [], newstart, best, before, hcut, hbest => by
      exact finalCheck_cuts hcut hbest
  | rp :: rest, newstart, best, before, hcut, hbest => by
      have hskip : ∀ best, (Search.fail best).Cuts l →
          (if extentAlign (rp.erEnd + 1#w) alignment skew < rp.erEnd then Search.fail best
            else gapLoop ex fl subend size alignment skew boundary
              (extentAlign (rp.erEnd + 1#w) alignment skew) best (rp :: before) rest).Cuts l := by
        intro best hbest
        split
        · exact hbest
        · exact gapLoop_cuts rest (by simp [hcut]) hbest
      rw [gapLoop]
      split
      · exact finalCheck_cuts hcut hbest
      dsimp only
      split
      · split
        · exact hskip best hbest
        · exact hbest
        · split
          · exact hcut
          · exact hskip _ (improve_cuts hcut hbest)
      · exact hskip best hbest

end Search

theorem allocSubregionStart_accounts (diag : Bool) {n : Nat} {ex : Map w} (h : Holds n ex)
    (substart subend size alignment skew boundary : BitVec w) (fl : Flags) {myrp : Region w}
    (hrp : myrp.erAlloc = false) :
    Accounts (n + 1)
      (allocSubregionStart diag ex substart subend size alignment skew boundary fl myrp) := by
  unfold allocSubregionStart
  dsimp only
  split
  · split
    · trivial
    · exact h.give hrp
  · set newstart := extentAlign substart alignment skew
    have hcut : ex.exRegions
        = (cutAt newstart [] ex.exRegions).1.reverse ++ (cutAt newstart [] ex.exRegions).2 := by
      simpa using (cutAt_spec newstart [] ex.exRegions).1.symm
    have hsearch : (gapLoop ex fl subend size alignment skew boundary
        (relocate alignment skew newstart (cutAt newstart [] ex.exRegions).1) {}
        (cutAt newstart [] ex.exRegions).1 (cutAt newstart [] ex.exRegions).2).Cuts ex.exRegions :=
      gapLoop_cuts _ hcut fun h0 => absurd rfl h0
    split
    · rename_i ns b a hf
      rw [hf] at hsearch
      exact h.insert hrp hsearch ns size
    · rename_i best hf
      rw [hf] at hsearch
      split_ifs with hbest hws
      · simp only [Bool.and_eq_true, decide_eq_true_eq, ne_eq] at hbest
        exact h.insert hrp (hsearch hbest.2) _ size
      · exact ⟨hrp, n, rfl, h.setWanted true⟩
      · exact h.give hrp

/-- What `extent_free` does to the length of the list: `m` is the length before. -/
def Hit.Counts (m : Nat) : Hit w → Prop
  | .whole regions rp =>
    (∀ r ∈ regions, r.erAlloc = false) ∧ rp.erAlloc = false ∧ regions.length + 1 = m
  | .trim regions => (∀ r ∈ regions, r.erAlloc = false) ∧ regions.length = m
  | .split regions => (∀ r ∈ regions, r.erAlloc = false) ∧ regions.length = m + 1
  | .notFound => True

theorem freeScan_counts (nc : Bool) (start end_ : BitVec w) {nrp : Region w}
    (hnrp : nrp.erAlloc = false) :
    ∀ (before l : List (Region w)), (∀ r ∈ before, r.erAlloc = false) →
      (∀ r ∈ l, r.erAlloc = false) →
      (freeScan nc start end_ nrp before l).Counts (before.length + l.length)
  | before, [], _, _ => trivial
  | before, rp :: after, hb, hl => by
      obtain ⟨hrp, hafter⟩ := List.forall_mem_cons.mp hl
      have hnext := freeScan_counts nc start end_ hnrp (rp :: before) after
        (List.forall_mem_cons.mpr ⟨hrp, hb⟩) hafter
      rw [List.length_cons, Nat.add_right_comm, Nat.add_assoc, ← List.length_cons (a := rp)] at hnext
      rw [freeScan]
      split_ifs
      · exact hnext
      · trivial
      · exact ⟨forall_mem_cut.mpr ⟨hb, hafter⟩, hrp, by simp; omega⟩
      · exact hnext
      · refine ⟨forall_mem_cut.mpr ⟨hb, ?_⟩, by simp⟩
        simpa only [List.forall_mem_cons] using ⟨hrp, hafter⟩
      · refine ⟨forall_mem_cut.mpr ⟨hb, ?_⟩, by simp⟩
        simpa only [List.forall_mem_cons] using ⟨hrp, hafter⟩
      · refine ⟨forall_mem_cut.mpr ⟨hb, ?_⟩, by simp; omega⟩
        simpa only [List.forall_mem_cons] using ⟨hrp, hnrp, hafter⟩
      · exact hnext

/-- A non-coalescing extent frees whole regions only. -/
theorem freeScan_nocoalesce (start end_ : BitVec w) (nrp : Region w) :
    ∀ (before l : List (Region w)) (regions : List (Region w)),
      freeScan true start end_ nrp before l ≠ .split regions
  | before, [], _ => by simp [freeScan]
  | before, rp :: after, regions => by
      have hnext := freeScan_nocoalesce start end_ nrp (rp :: before) after regions
      simp only [freeScan, if_true]
      split_ifs
      · exact hnext
      · simp
      · simp
      · exact hnext

theorem freeStart_accounts {n : Nat} {ex : Map w} (h : Holds n ex) (start size : BitVec w)
    {nrp : Region w} (hnrp : nrp.erAlloc = false) :
    Accounts (n + 1) (freeStart ex start size (some nrp)) := by
  have hscan := freeScan_counts ex.exfNocoalesce start (start + (size - 1#w)) hnrp [] ex.exRegions
    (by simp) h.used
  unfold freeStart
  dsimp only [Option.getD_some]
  split
  all_goals rename_i hf; rw [hf] at hscan
  · obtain ⟨hown, hrp, hlen⟩ := hscan
    obtain ⟨m, rfl⟩ : ∃ m, n = m + 1 := by
      have hcount := h.count
      simp only [List.length_nil] at hlen
      exact ⟨n - 1, by omega⟩
    refine (Holds.give (Holds.give (h.setRegions hown ?_) hrp) hnrp).setWanted false
    simp only [List.length_nil] at hlen
    omega
  · obtain ⟨hown, hlen⟩ := hscan
    refine (Holds.give (h.setRegions hown ?_) hnrp).setWanted false
    simp only [List.length_nil] at hlen
    omega
  · obtain ⟨hown, hlen⟩ := hscan
    refine (h.setRegions hown ?_).setWanted false
    simp only [List.length_nil] at hlen
    omega
  · trivial

theorem freeStart_nocoalesce_accounts {n : Nat} {ex : Map w} (h : Holds n ex)
    (start size : BitVec w) (hnc : ex.exfNocoalesce = true) :
    Accounts n (freeStart ex start size none) := by
  have hblank : (⟨0#w, 0#w, false⟩ : Region w).erAlloc = false := rfl
  have hscan := freeScan_counts ex.exfNocoalesce start (start + (size - 1#w)) hblank [] ex.exRegions
    (by simp) h.used
  have hsplit := freeScan_nocoalesce start (start + (size - 1#w)) ⟨0#w, 0#w, false⟩ [] ex.exRegions
  rw [← hnc] at hsplit
  unfold freeStart
  dsimp only [Option.getD_none]
  split
  all_goals rename_i hf
  · rw [hf] at hscan
    obtain ⟨hown, hrp, hlen⟩ := hscan
    obtain ⟨m, rfl⟩ : ∃ m, n = m + 1 := by
      have hcount := h.count
      simp only [List.length_nil] at hlen
      exact ⟨n - 1, by omega⟩
    refine (Holds.give (h.setRegions hown ?_) hrp).setWanted false
    simp only [List.length_nil] at hlen
    omega
  · rw [hf] at hscan
    obtain ⟨hown, hlen⟩ := hscan
    refine (h.setRegions hown ?_).setWanted false
    simp only [List.length_nil] at hlen
    omega
  · exact absurd hf (hsplit _)
  · trivial

/-! ## One activation -/

/-- What a call needs so as not to lose `myrp`: only `EX_CONFLICTOK` does, for
requests inside the extent that are `Dropped`. -/
def Call.KeepsMyrp (ex : Map w) : Call w → Prop
  | .allocRegion start size fl =>
    fl.exConflictok = true → fl.exWaitspace = false →
      RegionsOk ex ∧ start ≤ start + (size - 1#w)
        ∧ (ex.exStart ≤ start → start + (size - 1#w) ≤ ex.exEnd →
            ¬ Dropped ex start (start + (size - 1#w)))
  | .allocSubregion _ _ _ _ _ _ _ => True
  | .free _ _ _ => True

/-- The one check every kernel makes: the request is inside the extent. -/
def Call.Inside (ex : Map w) : Call w → Prop
  | .allocRegion start size _ => ex.exStart ≤ start ∧ start + (size - 1#w) ≤ ex.exEnd
  | .allocSubregion _ _ _ _ _ _ _ => True
  | .free _ _ _ => True

theorem Call.KeepsMyrp.frame {ex ex' : Map w} {c : Call w} (h : c.KeepsMyrp ex) (hf : Frame ex ex')
    (hr : ex'.exRegions = ex.exRegions) : c.KeepsMyrp ex' := by
  cases c with
  | allocRegion start size fl =>
      intro hco hws
      obtain ⟨h1, h2, h3⟩ := h hco hws
      refine ⟨h1.congr hr hf.start hf.last, h2, ?_⟩
      simpa only [Dropped, hr, hf.start, hf.last] using h3
  | allocSubregion substart subend size alignment skew boundary fl => trivial
  | free start size fl => trivial

theorem Call.Inside.frame {ex ex' : Map w} {c : Call w} (h : c.Inside ex) (hf : Frame ex ex') :
    c.Inside ex' := by
  cases c with
  | allocRegion start size fl => simpa only [Call.Inside, hf.start, hf.last] using h
  | allocSubregion substart subend size alignment skew boundary fl => trivial
  | free start size fl => trivial

theorem withDescriptor_accounts (diag : Bool) {n : Nat} {ex : Map w} (h : Holds n ex)
    {myrp : Region w} (hrp : myrp.erAlloc = false) {c : Call w} (hin : c.Inside ex)
    (hc : c.KeepsMyrp ex) : Accounts (n + 1) (withDescriptor diag ex myrp c) := by
  cases c with
  | allocRegion start size fl =>
      refine allocRegionLoop_accounts fl hrp _ h fun hco hws => ?_
      obtain ⟨hok, hle, hd⟩ := hc hco hws
      exact ⟨hok, hle, hin.1, hin.2, hd hin.1 hin.2⟩
  | allocSubregion substart subend size alignment skew boundary fl =>
      exact allocSubregionStart_accounts diag h _ _ _ _ _ _ fl hrp
  | free start size fl => exact freeStart_accounts h start size hrp

theorem getDescriptor_accounts (diag : Bool) {n : Nat} {ex : Map w} (h : Holds n ex) (pool : Bool)
    {c : Call w} (hfl : c.flags.exMallocok = false) (hin : c.Inside ex) (hc : c.KeepsMyrp ex) :
    Accounts n (getDescriptor diag ex pool c) := by
  unfold getDescriptor
  split
  · rename_i myrp ex' hd
    obtain ⟨hf, hr⟩ := allocDescriptor_frame (Or.inl ⟨myrp, hd⟩)
    obtain ⟨hrp, m, rfl, hm⟩ := h.take hfl hd
    exact withDescriptor_accounts diag hm hrp (hin.frame hf) (hc.frame hf hr)
  · exact h
  · rename_i ex' hd
    exact h.wait hd

theorem Call.run_accounts (diag : Bool) {n : Nat} {ex : Map w} (h : Holds n ex) (pool : Bool)
    {c : Call w} (hfl : c.flags.exMallocok = false) (hc : c.KeepsMyrp ex) :
    Accounts n (c.run diag ex pool) := by
  cases c with
  | allocRegion start size fl =>
      simp only [Call.run, extentAllocRegion]
      split_ifs with h1 h2
      · trivial
      · trivial
      · exact h
      · simp only [Bool.or_eq_true, decide_eq_true_eq, not_or] at h2
        exact getDescriptor_accounts diag h pool hfl
          ⟨BitVec.not_lt.mp h2.1, BitVec.not_lt.mp h2.2⟩ hc
  | allocSubregion substart subend size alignment skew boundary fl =>
      simp only [Call.run, extentAllocSubregion]
      split_ifs
      · trivial
      · exact getDescriptor_accounts diag h pool hfl trivial hc
  | free start size fl =>
      simp only [Call.run, extentFree]
      split_ifs with h1 hnc
      · trivial
      · exact freeStart_nocoalesce_accounts h start size hnc
      · exact getDescriptor_accounts diag h pool hfl trivial hc

/-- Only calls inside the extent go to sleep. -/
theorem Call.run_inside {diag : Bool} {ex : Map w} {pool : Bool} {c : Call w}
    (h : ∃ p, (c.run diag ex pool).1 = .asleep p) : c.Inside ex := by
  obtain ⟨p, hp⟩ := h
  cases c with
  | allocRegion start size fl =>
      simp only [Call.run, extentAllocRegion] at hp
      split_ifs at hp with h1 h2
      simp only [Bool.or_eq_true, decide_eq_true_eq, not_or] at h2
      exact ⟨BitVec.not_lt.mp h2.1, BitVec.not_lt.mp h2.2⟩
  | allocSubregion substart subend size alignment skew boundary fl => trivial
  | free start size fl => trivial

/-- The descriptor of a sleeping activation is one of the extent's own. -/
def Wait.Own : Wait w → Prop
  | .freelist _ => True
  | .space _ myrp => myrp.erAlloc = false

theorem Wait.resume_accounts (diag : Bool) {n : Nat} {ex : Map w} (h : Holds n ex) (err pool : Bool)
    {p : Wait w} (hown : p.Own) (herr : p.held = 1 → err = false)
    (hfl : p.call.flags.exMallocok = false) (hin : p.call.Inside ex) (hc : p.call.KeepsMyrp ex) :
    Accounts (n + p.held) (p.resume diag ex err pool) := by
  cases p with
  | freelist c =>
      simp only [Wait.resume, Wait.held]
      split
      · exact h
      · exact getDescriptor_accounts diag h pool hfl hin hc
  | space c myrp =>
      simp only [Wait.resume, Wait.held, herr rfl, Bool.false_eq_true, if_false]
      exact withDescriptor_accounts diag h hown hin hc

/-! ## Runs -/

/-- No call may take a descriptor from the pool, an `EX_CONFLICTOK` one is not
`Dropped`, and no sleep for space is interrupted. -/
def CountGuard (s : Sys w) (a : Act w) : Prop :=
  (∀ c, a.call? s = some c → c.flags.exMallocok = false ∧ c.KeepsMyrp s.ex)
    ∧ ∀ i pool p, a = .resume i true pool → s.sleepers[i]? = some p → p.held = 0

def held (sleepers : List (Wait w)) : Nat := (sleepers.map Wait.held).sum

theorem held_eraseIdx {sleepers : List (Wait w)} {i : Nat} {p : Wait w}
    (h : sleepers[i]? = some p) : held sleepers = held (sleepers.eraseIdx i) + p.held := by
  obtain ⟨hi, rfl⟩ := List.getElem?_eq_some_iff.mp h
  have hperm := (List.getElem_cons_eraseIdx_perm hi).map Wait.held
  have := hperm.sum_eq
  simp only [List.map_cons, List.sum_cons] at this
  simp only [held]
  omega

/-- `n` descriptors in sight or in sleeping hands, all of them the extent's. -/
structure CountInv (n : Nat) (s : Sys w) : Prop where
  account : ∃ m, Holds m s.ex ∧ m + held s.sleepers = n
  own : ∀ p ∈ s.sleepers, p.Own
  inside : ∀ p ∈ s.sleepers, p.call.Inside s.ex

theorem settle_account {n : Nat} {sleepers : List (Wait w)} {r : Outcome w × Map w} {s' : Sys w}
    (hr : Accounts n r) (hown : ∀ p ∈ sleepers, p.Own) (h : settle sleepers r = some s') :
    (∃ m, Holds m s'.ex ∧ m + held s'.sleepers = n + held sleepers)
      ∧ ∀ p ∈ s'.sleepers, p.Own := by
  obtain ⟨hex, hcase⟩ := settle_cases h
  obtain ⟨o, ex⟩ := r
  rcases hcase with ⟨e, x, rfl, heq⟩ | ⟨p, rfl, heq⟩
  · rw [hex, heq]
    exact ⟨⟨n, hr, rfl⟩, hown⟩
  · rw [hex, heq]
    have hsum : held (sleepers ++ [p]) = held sleepers + p.held := by simp [held]
    rw [hsum]
    have hadd : p.Own → ∀ q ∈ sleepers ++ [p], q.Own := fun hp q hq => by
      rcases List.mem_append.mp hq with hq | hq
      · exact hown q hq
      · exact List.mem_singleton.mp hq ▸ hp
    cases p with
    | freelist c => exact ⟨⟨n, hr, by simp [Wait.held]⟩, hadd trivial⟩
    | space c myrp =>
        obtain ⟨hrp, m, rfl, hm⟩ := hr
        exact ⟨⟨m, hm, by simp only [Wait.held]; omega⟩, hadd hrp⟩

theorem step_countInv (diag : Bool) {n : Nat} {s s' : Sys w} {a : Act w} (hg : CountGuard s a)
    (h : step diag s a = some s') (hi : CountInv n s) : CountInv n s' := by
  obtain ⟨⟨m, hm, hn⟩, hown, hin⟩ := hi
  have hframe : ∀ (ex ex' : Map w) (c : Call w), c.Inside ex → Frame ex ex' → c.Inside ex' :=
    fun _ _ _ hc hf => hc.frame hf
  rcases step_cases h with ⟨c, pool, rfl, h⟩ | ⟨i, err, pool, p, rfl, hp, h⟩
  · obtain ⟨hfl, hc⟩ := hg.1 c rfl
    obtain ⟨⟨m', hm', hn'⟩, hown'⟩ := settle_account (Call.run_accounts diag hm pool hfl hc) hown h
    exact ⟨⟨m', hm', by omega⟩, hown',
      settle_sleepers hframe (Call.run_stays diag s.ex pool c) Call.run_inside hin h⟩
  · have hmem : p ∈ s.sleepers := List.mem_of_getElem? hp
    obtain ⟨hfl, hc⟩ := hg.1 p.call (by simp [Act.call?, hp])
    have herr : p.held = 1 → err = false := fun h1 => by
      by_contra he
      have he : err = true := by simpa using he
      subst he
      have := hg.2 i pool p rfl hp
      omega
    have hrest : ∀ q ∈ s.sleepers.eraseIdx i, q ∈ s.sleepers := fun q => List.mem_of_mem_eraseIdx
    obtain ⟨⟨m', hm', hn'⟩, hown'⟩ := settle_account
      (Wait.resume_accounts diag hm err pool (hown p hmem) herr hfl (hin p hmem) hc)
      (fun q hq => hown q (hrest q hq)) h
    have hheld := held_eraseIdx hp
    exact ⟨⟨m', hm', by omega⟩, hown', settle_sleepers hframe (Wait.resume_stays diag s.ex err pool p)
      (fun _ => hin p hmem) (fun q hq => hin q (hrest q hq)) h⟩

theorem extentCreate_holds {alignFixed alignRegion storagesize : Nat} {start end_ : BitVec w}
    {fl : Flags} {pool : Bool} {ex : Map w}
    (h : extentCreate alignFixed alignRegion start end_ (some storagesize) fl pool = some ex)
    (hfl : fl.exMallocok = false) :
    Holds (carve (w := w) alignFixed alignRegion storagesize).length ex := by
  unfold extentCreate at h
  dsimp only at h
  have hnew : Holds (carve (w := w) alignFixed alignRegion storagesize).length
      { exStart := start, exEnd := end_, exRegions := [],
        fexFreelist := ((some storagesize).map (carve alignFixed alignRegion)).getD [],
        exfFixed := (some storagesize).isSome, exfNocoalesce := fl.exNocoalesce,
        exfWanted := false, exfFlwanted := false : Map w } :=
    ⟨rfl, fun r hr => by rw [List.eq_of_mem_replicate hr], by simp, by simp⟩
  split_ifs at h
  · split at h
    · rename_i rp ex' hd
      obtain ⟨hrp, m, hcount, hm⟩ := hnew.take hfl hd
      obtain ⟨-, hr⟩ := allocDescriptor_frame (Or.inl ⟨rp, hd⟩)
      obtain rfl := Option.some.inj h
      exact hm.setRegions (by simp [hrp]) (by simp [hr]; omega)
    · cases h
    · cases h
  · exact Option.some.inj h ▸ hnew

/-- In every run on a fixed extent that meets `CountGuard`, the descriptors on the
freelist, on the region list and in the hands of sleeping activations are as
many as were carved out: none is lost. -/
theorem runs_descriptors (diag : Bool) {alignFixed alignRegion storagesize : Nat}
    {start end_ : BitVec w} {fl : Flags} {pool : Bool} {ex : Map w} {s : Sys w}
    (hex : extentCreate alignFixed alignRegion start end_ (some storagesize) fl pool = some ex)
    (hfl : fl.exMallocok = false) (h : Runs (step diag) CountGuard ⟨ex, []⟩ s) :
    s.ex.fexFreelist.length + s.ex.exRegions.length + held s.sleepers
      = (carve (w := w) alignFixed alignRegion storagesize).length := by
  have hinit : CountInv (carve (w := w) alignFixed alignRegion storagesize).length
      (⟨ex, []⟩ : Sys w) :=
    ⟨⟨_, extentCreate_holds hex hfl, by simp [held]⟩, by simp, by simp⟩
  obtain ⟨m, hm, hn⟩ := (h.invariant (fun _ _ _ hg hst hi => step_countInv diag hg hst hi) hinit).account
  have := hm.count
  omega

/-! ## Concrete runs -/

/-- `CountGuard` for calls without `EX_CONFLICTOK`. -/
def countPlain (s : Sys w) (a : Act w) : Bool :=
  ((a.call? s).map fun c => !c.flags.exMallocok && !c.flags.exConflictok).getD true
    && match a with
      | .resume i true _ => ((s.sleepers[i]?).map Wait.held).getD 0 == 0
      | _ => true

theorem countPlain_countGuard (s : Sys w) (a : Act w) (h : countPlain s a = true) :
    CountGuard s a := by
  refine ⟨fun c hc => ?_, fun i pool p ha hp => ?_⟩
  · have hfl : c.flags.exMallocok = false ∧ c.flags.exConflictok = false := by
      have h1 := (Bool.and_eq_true _ _ ▸ h).1
      simpa [hc] using h1
    refine ⟨hfl.1, ?_⟩
    cases c with
    | allocRegion start size fl => exact fun hco => absurd hco (by simpa [Call.flags] using hfl.2)
    | allocSubregion substart subend size alignment skew boundary fl => trivial
    | free start size fl => trivial
  · subst ha
    simp only [countPlain, hp, Option.map_some, Option.getD_some, Bool.and_eq_true,
      beq_iff_eq] at h
    exact h.2

/-- A fixed extent over `[0, 99]` with three descriptors, 32 bytes each. -/
def threeDescriptors : Map 64 where
  exStart := 0#64
  exEnd := 99#64
  exRegions := []
  fexFreelist := List.replicate 3 ⟨0#64, 0#64, false⟩
  exfFixed := true
  exfNocoalesce := false
  exfWanted := false
  exfFlwanted := false

theorem create_threeDescriptors :
    extentCreate 64 32 0#64 99#64 (some 160) {} true = some threeDescriptors := by
  decide

/-- A failed call, one that sleeps and gets its space, and a free that splits. -/
def countActs : List (Act 64) :=
  [.call (.allocRegion 0#64 50#64 {}) true,
   .call (.allocRegion 40#64 20#64 {}) true,
   .call (.allocRegion 40#64 20#64 { exWaitspace := true, exWaitok := true }) true,
   .call (.free 40#64 10#64 {}) true,
   .resume 0 false true,
   .call (.free 20#64 10#64 {}) true]

theorem runs_descriptors_split :
    ∃ s : Sys 64, Runs (step true) CountGuard ⟨threeDescriptors, []⟩ s
      ∧ s.ex.exRegions.length = 2
      ∧ s.ex.fexFreelist.length + s.ex.exRegions.length + held s.sleepers
        = (carve (w := 64) 64 32 160).length := by
  have hrun : Runs (step true) CountGuard ⟨threeDescriptors, []⟩
      (⟨{ threeDescriptors with
        exRegions := [⟨0#64, 19#64, false⟩, ⟨30#64, 59#64, false⟩]
        fexFreelist := [⟨0#64, 0#64, false⟩] }, []⟩ : Sys 64) :=
    Runs.of_exec countPlain_countGuard countActs (by decide +kernel)
  exact ⟨_, hrun, rfl, runs_descriptors true create_threeDescriptors rfl hrun⟩

/-- No call may use the pool, and all pass the argument checks. -/
def OwnGuard (s : Sys w) (a : Act w) : Prop :=
  ArgsGuard s a ∧ ((a.call? s).map fun c => c.flags.exMallocok).getD false = false

instance (s : Sys w) (a : Act w) : Decidable (OwnGuard s a) := by
  unfold OwnGuard; infer_instance

/-- An `EX_CONFLICTOK` request for what is allocated already, up to the end. -/
def droppedActs : List (Act 64) :=
  [.call (.allocRegion 0#64 100#64 {}) true,
   .call (.allocRegion 50#64 10#64 { exConflictok := true }) true]

/-- A signal while a call waits for space. -/
def interruptedActs : List (Act 64) :=
  [.call (.allocRegion 0#64 100#64 {}) true,
   .call (.allocRegion 50#64 10#64 { exWaitspace := true, exCatch := true }) true,
   .resume 0 true true]

/-- Both ways to lose a descriptor: nobody sleeps, and two of three are left. -/
theorem runs_lose_descriptor :
    (∃ s : Sys 64, Runs (step true) OwnGuard ⟨threeDescriptors, []⟩ s ∧ s.sleepers = []
      ∧ s.ex.fexFreelist.length + s.ex.exRegions.length ≠ (carve (w := 64) 64 32 160).length)
    ∧ ∃ s : Sys 64, Runs (step true) OwnGuard ⟨threeDescriptors, []⟩ s ∧ s.sleepers = []
      ∧ s.ex.fexFreelist.length + s.ex.exRegions.length ≠ (carve (w := 64) 64 32 160).length := by
  have hok : ∀ (s : Sys 64) (a : Act 64), decide (OwnGuard s a) = true → OwnGuard s a :=
    fun s a => of_decide_eq_true
  constructor
  · exact ⟨⟨{ threeDescriptors with
        exRegions := [⟨0#64, 99#64, false⟩]
        fexFreelist := [⟨0#64, 0#64, false⟩] }, []⟩,
      Runs.of_exec hok droppedActs (by decide +kernel), rfl, by decide⟩
  · exact ⟨⟨{ threeDescriptors with
        exRegions := [⟨0#64, 99#64, false⟩]
        fexFreelist := [⟨0#64, 0#64, false⟩]
        exfWanted := true }, []⟩,
      Runs.of_exec hok interruptedActs (by decide +kernel), rfl, by decide⟩

end Obsd.Extent
