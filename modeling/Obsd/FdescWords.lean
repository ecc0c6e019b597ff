import Obsd.FdescRuns

/-!
# The words `fdalloc` reads

`find_next_zero` stops at the first word that is not full, or behind the
`NDLOSLOTS(bits)` words it takes the bitmap to have. Asked for the map of
full words, `bits` is the number of words of the low map, and the bitmap
has 32 times fewer words than that; asked for the low map from a word on,
it takes 32 words from there. Both can be more than there are
(`find_words_behind`). The words are the ones of the maps unless every
descriptor from the first one looked at is marked (`find_words_inside`);
only that the high map is right about the low one is needed for it, which
holds in every state reached, descriptors that `dup` leaks included.
-/

namespace Obsd.Fdesc

open Bitmap

/-! ## What is read -/

/-- The words the loop of `find_next_zero` reads. -/
def scanReads (bitmap : Nat → BitVec 32) : (n off : Nat) → List Nat
  | 0, _ => []
  | n + 1, off =>
    off :: if bitmap off ≠ BitVec.allOnes 32 then [] else scanReads bitmap n (off + 1)

/-- The words `find_next_zero` reads. -/
def findNextZeroReads (bitmap : Nat → BitVec 32) (want bits : Nat) : List Nat :=
  if want > bits then []
  else
    let off := want / ndentries
    let i := want % ndentries
    let maxoff := ndloslots bits
    if i ≠ 0 then
      let sub := bitmap off ||| (BitVec.allOnes 32 >>> (ndentries - i))
      off :: if sub ≠ BitVec.allOnes 32 then [] else scanReads bitmap (maxoff - (off + 1)) (off + 1)
    else scanReads bitmap (maxoff - off) off

/-- A word of one of the two maps. -/
inductive Word where
  | himap (j : Nat)
  | lomap (j : Nat)
deriving DecidableEq, Repr

/-- The word is one the array has. -/
def Word.Inside (fdp : Filedesc) : Word → Prop
  | .himap j => j < ndhislots fdp.fdNfiles
  | .lomap j => j < ndloslots fdp.fdNfiles

/-- The words `fdalloc` reads through `find_next_zero`, with those of its restarts. -/
def fdallocLoopReads (fdp : Filedesc) (env : Env) : (fuel want : Nat) → List Word
  | 0, _ => []
  | fuel + 1, want =>
    let last := min fdp.fdNfiles env.lim
    let i := if want < fdp.fdFreefile then fdp.fdFreefile else want
    let off := i / ndentries
    let bits := (last + ndentries - 1) / ndentries
    (findNextZeroReads (fdp.himap env) off bits).map .himap ++
    match findNextZero (fdp.himap env) off bits with
    | none => []
    | some new =>
      let lomap := fun k => fdp.lomap env (new + k)
      let start := if new > off then 0 else i % ndentries
      (findNextZeroReads lomap start ndentries).map (fun k => .lomap (new + k)) ++
      match findNextZero lomap start ndentries with
      | none => fdallocLoopReads fdp env fuel ((new + 1) * ndentries)
      | some _ => []

def fdallocReads (fdp : Filedesc) (env : Env) (want : Nat) : List Word :=
  fdallocLoopReads fdp env (ndreduce (min fdp.fdNfiles env.lim) + 2) want

/-! ## `find_next_zero` -/

section
variable {bitmap : Nat → BitVec 32}

/-- The loop stays below word `m` if it ends there or stops at a word that is not full. -/
theorem scanReads_lt {m : Nat} (n : Nat) : ∀ off, (∀ j ∈ scanReads bitmap n off, j < m) ↔
    (n = 0 ∨ off + n ≤ m ∨ ∃ k, off ≤ k ∧ k < m ∧ bitmap k ≠ BitVec.allOnes 32) := by
  induction n with
  | zero => simp [scanReads]
  | succ n ih =>
    intro off
    rw [scanReads, List.forall_mem_cons]
    by_cases hfull : bitmap off = BitVec.allOnes 32
    · rw [if_neg (not_not.mpr hfull), ih]
      constructor
      · rintro ⟨hoff, rfl | hle | ⟨k, hk1, hk2, hk⟩⟩
        · exact .inr (.inl (by omega))
        · exact .inr (.inl (by omega))
        · exact .inr (.inr ⟨k, by omega, hk2, hk⟩)
      · rintro (h | hle | ⟨k, hk1, hk2, hk⟩)
        · cases h
        · exact ⟨by omega, .inr (.inl (by omega))⟩
        · have hne : k ≠ off := fun h => hk (h ▸ hfull)
          exact ⟨by omega, .inr (.inr ⟨k, by omega, hk2, hk⟩)⟩
    · rw [if_pos hfull]
      constructor
      · rintro ⟨hoff, -⟩
        exact .inr (.inr ⟨off, le_rfl, hoff, hfull⟩)
      · rintro (h | hle | ⟨k, hk1, hk2, hk⟩)
        · cases h
        · exact ⟨by omega, nofun⟩
        · exact ⟨by omega, nofun⟩

/-- A bit is clear in the words from `off` on that are below `m`. -/
theorem exists_clear_iff {off m : Nat} :
    (∃ k, off ≤ k ∧ k < m ∧ bitmap k ≠ BitVec.allOnes 32) ↔
      ∃ n, off * 32 ≤ n ∧ n < m * 32 ∧ bit bitmap n = false := by
  constructor
  · rintro ⟨k, hk1, hk2, hk⟩
    rw [ne_eq, eq_allOnes_iff] at hk
    simp only [not_forall, Bool.not_eq_true] at hk
    obtain ⟨b, hb, hclear⟩ := hk
    exact ⟨32 * k + b, by omega, by omega, hclear⟩
  · rintro ⟨n, hn1, hn2, hn⟩
    refine ⟨n / 32, by omega, by omega, fun hfull => ?_⟩
    rw [bit_of_allOnes (by decide) hfull] at hn
    cases hn

/-- **`find_next_zero` stays in a bitmap** of `m` words if that is all it looks at, or if
there is a clear bit in it to be found. -/
theorem findNextZeroReads_lt {want bits m : Nat} (hbits : want ≤ bits) (hm : want ≤ m * 32) :
    (∀ j ∈ findNextZeroReads bitmap want bits, j < m) ↔
      (ndloslots bits ≤ m ∨ ∃ n, want ≤ n ∧ n < m * 32 ∧ bit bitmap n = false) := by
  have hmod := Nat.mod_lt want (show 0 < 32 by decide)
  have hunfold : findNextZeroReads bitmap want bits =
      if want % 32 ≠ 0 then
        want / 32 ::
          if (bitmap (want / 32) ||| (BitVec.allOnes 32 >>> (32 - want % 32))) ≠ BitVec.allOnes 32
          then [] else scanReads bitmap (ndloslots bits - (want / 32 + 1)) (want / 32 + 1)
      else scanReads bitmap (ndloslots bits - want / 32) (want / 32) :=
    if_neg (Nat.not_lt.mpr hbits)
  rw [hunfold]
  by_cases hi : want % 32 = 0
  · rw [if_neg (not_not.mpr hi), scanReads_lt, exists_clear_iff, show want / 32 * 32 = want by omega]
    constructor
    · rintro (h | h | h)
      · exact .inl (by omega)
      · exact .inl (by omega)
      · exact .inr h
    · rintro (h | h)
      · exact .inr (.inl (by omega))
      · exact .inr (.inr h)
  rw [if_pos hi, List.forall_mem_cons]
  by_cases hsub : (bitmap (want / 32) ||| (BitVec.allOnes 32 >>> (32 - want % 32))) = BitVec.allOnes 32
  · rw [if_neg (not_not.mpr hsub), scanReads_lt, exists_clear_iff]
    constructor
    · rintro ⟨hoff, h | h | ⟨n, hn1, hn2, hn⟩⟩
      · exact .inl (by omega)
      · exact .inl (by omega)
      · exact .inr ⟨n, by omega, hn2, hn⟩
    · rintro (h | ⟨n, hn1, hn2, hn⟩)
      · exact ⟨by omega, .inr (.inl (by omega))⟩
      · refine ⟨by omega, .inr (.inr ⟨n, ?_, hn2, hn⟩)⟩
        by_contra hlt
        rw [bit_of_sub hsub hn1 (by omega)] at hn
        cases hn
  · rw [if_pos hsub]
    obtain ⟨b, -, hle, hlt, hclear, -⟩ :=
      first_clear hmod (fun b _ => getLsbD_sub (bitmap (want / 32)) hmod b) hsub
    exact ⟨fun h => .inr ⟨b, by omega, by omega, hclear⟩, fun h => ⟨by omega, nofun⟩⟩

theorem scanWords_lt (n : Nat) : ∀ off m, scanWords bitmap n off = some m → m < (off + n) * 32 := by
  induction n with
  | zero => exact fun _ _ h => nomatch h
  | succ n ih =>
    intro off m h
    unfold scanWords at h
    split_ifs at h with hne
    · obtain ⟨b, hb, hffs, -⟩ := ffs_not hne
      have hm := Option.some.inj h
      omega
    · have hm := ih (off + 1) m h
      omega

/-- What is found is in the words that are looked at. -/
theorem findNextZero_lt {want bits m : Nat} (h : findNextZero bitmap want bits = some m) :
    m < ndloslots bits * 32 := by
  have hmax := le_ndloslots bits
  have hbits := (findNextZero_some h).1
  rw [findNextZero_eq, if_neg (Nat.not_lt.mpr hbits)] at h
  by_cases hi : want % 32 = 0
  · rw [if_neg (not_not.mpr hi)] at h
    have hm := scanWords_lt _ _ m h
    omega
  rw [if_pos hi] at h
  split_ifs at h with hsub
  · obtain ⟨b, hb, hffs, -⟩ := ffs_not hsub
    have hm := Option.some.inj h
    omega
  · have hm := scanWords_lt _ _ m h
    omega

end

/-! ## The high map is right about the low one -/

/-- The high map has the full words of the low one. -/
structure MapOk (fdp : Filedesc) : Prop where
  size : ndfile ≤ fdp.fdNfiles
  hi : ∀ j < ndloslots fdp.fdNfiles, bit fdp.fdHimap j = decide (fdp.fdLomap j = BitVec.allOnes 32)

theorem mapOk_fdinit : MapOk {} where
  size := le_rfl
  hi := by simp [bit]

section
variable {fdp : Filedesc}

/-- Marking a descriptor. -/
theorem MapOk.fdUsed (h : MapOk fdp) (fd : Nat) : MapOk (fdUsed fdp fd) where
  size := h.size
  hi := by
    intro j hj
    have hold := h.hi j hj
    show bit (if set fdp.fdLomap fd (fd / 32) = BitVec.allOnes 32
        then set fdp.fdHimap (fd / 32) else fdp.fdHimap) j
      = decide (set fdp.fdLomap fd j = BitVec.allOnes 32)
    by_cases hj' : j = fd / 32
    · subst hj'
      split_ifs with hfull
      · rw [bit_set (by decide), decide_eq_true hfull, decide_eq_true rfl, Bool.or_true]
      · rw [decide_eq_false hfull, hold, decide_eq_false_iff_not]
        exact fun hall => hfull (set_allOnes hall)
    · rw [set_of_ne hj', ← hold]
      split_ifs
      · rw [bit_set (by decide), decide_eq_false hj', Bool.or_false]
      · rfl

/-- Giving it back: the word is not full afterwards. -/
theorem MapOk.fdUnused (h : MapOk fdp) (fd : Nat) : MapOk (fdUnused fdp fd) where
  size := h.size
  hi := by
    intro j hj
    have hold := h.hi j hj
    show bit (if fdp.fdLomap (fd / 32) = BitVec.allOnes 32
        then clear fdp.fdHimap (fd / 32) else fdp.fdHimap) j
      = decide (clear fdp.fdLomap fd j = BitVec.allOnes 32)
    by_cases hj' : j = fd / 32
    · subst hj'
      rw [decide_eq_false (clear_ne_allOnes fdp.fdLomap fd)]
      split_ifs with hfull
      · rw [bit_clear (by decide), decide_eq_true rfl, Bool.not_true, Bool.and_false]
      · rw [hold, decide_eq_false hfull]
    · rw [clear_of_ne hj', ← hold]
      split_ifs
      · rw [bit_clear (by decide), decide_eq_false hj', Bool.not_false, Bool.and_true]
      · rfl

/-- A table of another size, with the maps copied as far as both go and clear from there on. -/
theorem MapOk.resize (h : MapOk fdp) {g : Filedesc} (hsize : ndfile ≤ g.fdNfiles)
    (hhi : ∀ j < ndhislots g.fdNfiles, g.fdHimap j =
      if j < ndhislots fdp.fdNfiles then fdp.fdHimap j else 0#32)
    (hlo : ∀ j < ndloslots g.fdNfiles, g.fdLomap j =
      if j < ndloslots fdp.fdNfiles then fdp.fdLomap j else 0#32) : MapOk g where
  size := hsize
  hi := by
    intro j hj
    have hj32 : j / 32 < ndhislots g.fdNfiles := by
      rw [ndloslots_eq] at hj
      omega
    rw [bit, hhi _ hj32, hlo j hj]
    by_cases hold : j < ndloslots fdp.fdNfiles
    · have hold32 : j / 32 < ndhislots fdp.fdNfiles := by
        rw [ndloslots_eq] at hold
        omega
      rw [if_pos hold32, if_pos hold]
      exact h.hi j hold
    · have hold32 : ¬j / 32 < ndhislots fdp.fdNfiles := by
        rw [ndloslots_eq] at hold
        omega
      rw [if_neg hold32, if_neg hold]
      simp

theorem MapOk.fdexpand (h : MapOk fdp) : MapOk (fdexpand fdp) := by
  have hgrow : ndfile ≤ (if fdp.fdNfiles < ndextent then ndextent else 2 * fdp.fdNfiles)
      ∧ fdp.fdNfiles ≤ (if fdp.fdNfiles < ndextent then ndextent else 2 * fdp.fdNfiles) := by
    unfold ndfile ndextent
    split_ifs <;> omega
  have hhis := ndhislots_mono hgrow.2
  have hlos := ndloslots_mono hgrow.2
  unfold Fdesc.fdexpand
  simp only
  generalize (if fdp.fdNfiles < ndextent then ndextent else 2 * fdp.fdNfiles) = n at hgrow hhis hlos
  split_ifs with hmore
  · exact h.resize hgrow.1 (fun _ _ => rfl) (fun _ _ => rfl)
  · have heq : ndhislots n = ndhislots fdp.fdNfiles := by omega
    refine h.resize hgrow.1 (fun j hj => ?_) (fun j hj => ?_)
    · have hj' : j < ndhislots n := hj
      rw [if_pos (heq ▸ hj')]
    · have hj' : j < ndloslots n := hj
      rw [ndloslots_eq, heq, ← ndloslots_eq] at hj'
      rw [if_pos hj']

/-! ## It stays so -/

/-- Whatever descriptor is given, it is marked in the table as it was. -/
theorem MapOk.fdallocLoop (h : MapOk fdp) {env : Env} {fdp' : Filedesc} {i : Nat} (fuel : Nat) :
    ∀ want, fdallocLoop fdp env fuel want = some (.ok fdp' i) → MapOk fdp' := by
  induction fuel with
  | zero => exact fun _ hr => nomatch hr
  | succ fuel ih =>
    intro want hr
    have hfull : ∀ {r : Option Alloc}, r = some (.ok fdp' i) →
        r ≠ some (if fdp.fdNfiles ≥ env.lim then .emfile else .enospc) := by
      rintro r rfl heq
      split_ifs at heq
      · cases Option.some.inj heq
      · cases Option.some.inj heq
    rw [Fdesc.fdallocLoop] at hr
    simp only at hr
    split at hr
    · exact absurd rfl (hfull hr)
    split at hr
    · exact ih _ hr
    split at hr
    · cases Option.some.inj hr
      exact { h.fdUsed _ with }
    · exact absurd rfl (hfull hr)

theorem MapOk.fdalloc (h : MapOk fdp) {env : Env} {want i : Nat} {fdp' : Filedesc}
    (hr : fdalloc fdp env want = some (.ok fdp' i)) : MapOk fdp' :=
  h.fdallocLoop _ want hr

theorem allocExpand_mapOk (env : Env) (want : Nat) (fuel : Nat) : ∀ fdp, MapOk fdp →
    ∀ res, allocExpand env fuel fdp want = some res → MapOk res.1 := by
  induction fuel with
  | zero => exact fun _ _ _ hres => nomatch hres
  | succ fuel ih =>
    intro fdp h res hres
    unfold allocExpand at hres
    split at hres
    · cases hres
    · next hr =>
      cases Option.some.inj hres
      exact h.fdalloc hr
    · cases Option.some.inj hres
      exact h
    · exact ih _ h.fdexpand res hres

theorem dup2Room_mapOk (env : Env) (new : Nat) (fuel : Nat) : ∀ fdp, MapOk fdp →
    ∀ res, dup2Room env fuel fdp new = some res → MapOk res.1 := by
  induction fuel with
  | zero => exact fun _ _ _ hres => nomatch hres
  | succ fuel ih =>
    intro fdp h res hres
    unfold dup2Room at hres
    split_ifs at hres
    · split at hres
      · cases hres
      · next hr =>
        split_ifs at hres
        cases Option.some.inj hres
        exact h.fdalloc hr
      · cases Option.some.inj hres
        exact h
      · exact ih _ h.fdexpand res hres
    · cases Option.some.inj hres
      exact h

section
variable {longMax : Nat} {files : Files} {fp : Nat}

theorem MapOk.finishdup (h : MapOk fdp) (i : Nat) : MapOk (finishdup longMax fdp files fp i).1 := by
  unfold Fdesc.finishdup
  split_ifs
  · exact h
  have hset : MapOk (fdp.setFile i (some fp)) := { h with }
  cases hold : fdp.fdOfiles i with
  | none => exact hset.fdUsed i
  | some oldfp => exact hset

theorem MapOk.fdremove (h : MapOk fdp) (fd : Nat) : MapOk (fdremove fdp fd) := by
  have hset : MapOk (fdp.setFile fd none) := { h with }
  exact hset.fdUnused fd

theorem MapOk.dropKqueues (fuel : Nat) : ∀ i fdp, MapOk fdp → MapOk (dropKqueues files fuel i fdp) := by
  induction fuel with
  | zero => exact fun _ _ h => h
  | succ fuel ih =>
    intro i fdp h
    unfold Fdesc.dropKqueues
    split_ifs
    · cases fdp.fdOfiles i with
      | none => exact ih (i + 1) fdp h
      | some fp =>
        refine ih (i + 1) _ ?_
        split_ifs
        · exact h.fdremove i
        · exact h
    · exact h

theorem MapOk.copyRefs (fuel : Nat) : ∀ i fdp files, MapOk fdp →
    MapOk (copyRefs longMax fuel i fdp files).1 := by
  induction fuel with
  | zero => exact fun _ _ _ h => h
  | succ fuel ih =>
    intro i fdp files h
    unfold Fdesc.copyRefs
    split_ifs
    · cases fdp.fdOfiles i with
      | none => exact ih (i + 1) fdp files h
      | some fp =>
        simp only
        split_ifs
        · exact ih (i + 1) _ files (h.fdremove i)
        · exact ih (i + 1) fdp _ h
    · exact h

theorem shrink_bounds (lastfile fuel : Nat) : ∀ n, ndfile ≤ n →
    ndfile ≤ shrink lastfile fuel n ∧ shrink lastfile fuel n ≤ n := by
  induction fuel with
  | zero => exact fun n hn => ⟨hn, Nat.le_refl n⟩
  | succ fuel ih =>
    intro n hn
    unfold shrink
    split_ifs with hhalf
    · unfold ndextent at hhalf
      obtain ⟨hge, hle⟩ := ih (n / 2) (by unfold ndfile; omega)
      exact ⟨hge, by omega⟩
    · exact ⟨hn, Nat.le_refl n⟩

theorem MapOk.fdcopy (h : MapOk fdp) : MapOk (fdcopy longMax fdp files).1 := by
  obtain ⟨hge, hle⟩ : ndfile ≤ (if fdp.fdLastfile < ndfile then ndfile
        else shrink fdp.fdLastfile fdp.fdNfiles fdp.fdNfiles)
      ∧ (if fdp.fdLastfile < ndfile then ndfile
        else shrink fdp.fdLastfile fdp.fdNfiles fdp.fdNfiles) ≤ fdp.fdNfiles := by
    split_ifs
    · exact ⟨le_rfl, h.size⟩
    · exact shrink_bounds _ _ _ h.size
  unfold Fdesc.fdcopy
  simp only
  generalize (if fdp.fdLastfile < ndfile then ndfile
    else shrink fdp.fdLastfile fdp.fdNfiles fdp.fdNfiles) = n at hge hle
  have hhi := ndhislots_mono hle
  have hlo := ndloslots_mono hle
  have hnew : MapOk (copyTable fdp n) := by
    refine h.resize hge (fun j hj => ?_) (fun j hj => ?_)
    · have hj' : j < ndhislots n := hj
      rw [if_pos (Nat.lt_of_lt_of_le hj' hhi)]
      exact if_pos hj'
    · have hj' : j < ndloslots n := hj
      rw [if_pos (Nat.lt_of_lt_of_le hj' hlo)]
      exact if_pos hj'
  split_ifs
  · have hdrop := @MapOk.dropKqueues files ((copyTable fdp n).fdLastfile + 1) 0 _ hnew
    exact MapOk.copyRefs _ _ _ _ { hdrop with }
  · exact MapOk.copyRefs _ _ _ _ hnew

end

/-! ## The words of a search -/

/-- Every descriptor from `n` on is marked, up to the end of the low map. -/
def MarkedFrom (fdp : Filedesc) (n : Nat) : Prop :=
  ∀ k, n ≤ k → k < ndloslots fdp.fdNfiles * 32 → bit fdp.fdLomap k = true

/-- The descriptor the search starts at. -/
def firstLooked (fdp : Filedesc) (want : Nat) : Nat :=
  if want < fdp.fdFreefile then fdp.fdFreefile else want

/-- The words of the low map that have descriptors below both limits. -/
def lowWords (fdp : Filedesc) (lim : Nat) : Nat := ndreduce (min fdp.fdNfiles lim)

/-- The search goes on behind the end of a map. -/
def Overruns (fdp : Filedesc) (lim want : Nat) : Prop :=
  let i := firstLooked fdp want
  let off := i / 32
  off ≤ lowWords fdp lim ∧ MarkedFrom fdp i ∧
    -- in the high map, at once or with the word behind the one of `i`
    ((ndhislots fdp.fdNfiles < ndloslots (lowWords fdp lim) ∧
        (off < lowWords fdp lim ∨ MarkedFrom fdp (off * 32))) ∨
    -- in the low map, if the word of `i` is not full but has no free descriptor from `i` on
      (¬MarkedFrom fdp (off * 32) ∧ ndloslots fdp.fdNfiles < off + 32))

theorem MarkedFrom.mono {m n : Nat} (h : MarkedFrom fdp m) (hle : m ≤ n) : MarkedFrom fdp n :=
  fun k hk => h k (Nat.le_trans hle hk)

theorem not_markedFrom {n : Nat} : ¬MarkedFrom fdp n ↔
    ∃ k, n ≤ k ∧ k < ndloslots fdp.fdNfiles * 32 ∧ bit fdp.fdLomap k = false := by
  simp [MarkedFrom]

/-- There are descriptors to be found in the words from `off` on if one of them is not full. -/
theorem not_markedFrom_word {off : Nat} : ¬MarkedFrom fdp (off * 32) ↔
    ∃ j, off ≤ j ∧ j < ndloslots fdp.fdNfiles ∧ fdp.fdLomap j ≠ BitVec.allOnes 32 := by
  rw [not_markedFrom, exists_clear_iff]

theorem lowWords_le (fdp : Filedesc) (lim : Nat) : lowWords fdp lim ≤ ndhislots fdp.fdNfiles * 32 :=
  Nat.le_trans (ndreduce_mono (Nat.min_le_left _ _)) (le_ndreduce _)

section
variable (h : MapOk fdp) (env : Env)
include h

theorem bit_himap {j : Nat} (hj : j < ndloslots fdp.fdNfiles) :
    bit (fdp.himap env) j = decide (fdp.fdLomap j = BitVec.allOnes 32) := by
  have hword : j / 32 < ndhislots fdp.fdNfiles := by
    rw [ndloslots_eq] at hj
    omega
  rw [← h.hi j hj, bit, bit, Filedesc.himap, if_pos hword]

/-- The high map from word `off` of the low one on. -/
theorem clear_himap_iff {off : Nat} :
    (∃ j, off ≤ j ∧ j < ndhislots fdp.fdNfiles * 32 ∧ bit (fdp.himap env) j = false) ↔
      ¬MarkedFrom fdp (off * 32) := by
  rw [not_markedFrom_word]
  constructor
  · rintro ⟨j, hj1, hj2, hj⟩
    rw [bit_himap h env hj2] at hj
    exact ⟨j, hj1, hj2, of_decide_eq_false hj⟩
  · rintro ⟨j, hj1, hj2, hj⟩
    refine ⟨j, hj1, hj2, ?_⟩
    rw [bit_himap h env hj2, decide_eq_false hj]

omit h in
/-- The low map from bit `start` of word `new` on. -/
theorem clear_lomap_iff {start new : Nat} (hnew : new ≤ ndloslots fdp.fdNfiles) :
    (∃ m, start ≤ m ∧ m < (ndloslots fdp.fdNfiles - new) * 32 ∧
        bit (fun k => fdp.lomap env (new + k)) m = false) ↔ ¬MarkedFrom fdp (start + new * 32) := by
  have hbit : ∀ k < ndloslots fdp.fdNfiles * 32, bit (fdp.lomap env) k = bit fdp.fdLomap k := by
    intro k hk
    rw [bit, bit, Filedesc.lomap, if_pos (by omega)]
  rw [not_markedFrom]
  constructor
  · rintro ⟨m, hm1, hm2, hm⟩
    rw [bit_lomap_add, hbit _ (by omega)] at hm
    exact ⟨m + new * 32, by omega, by omega, hm⟩
  · rintro ⟨k, hk1, hk2, hk⟩
    refine ⟨k - new * 32, by omega, by omega, ?_⟩
    rw [bit_lomap_add, Nat.sub_add_cancel (by omega), hbit k hk2, hk]

/-- The words of the high map that are read. -/
theorem himap_inside {off bits : Nat} (hbits : off ≤ bits) (hoff : off ≤ ndhislots fdp.fdNfiles * 32) :
    (∀ w ∈ (findNextZeroReads (fdp.himap env) off bits).map Word.himap, w.Inside fdp) ↔
      (ndloslots bits ≤ ndhislots fdp.fdNfiles ∨ ¬MarkedFrom fdp (off * 32)) := by
  rw [← clear_himap_iff h env, ← findNextZeroReads_lt hbits hoff, List.forall_mem_map]
  rfl

omit h in
/-- The words of the low map that are read. -/
theorem lomap_inside {start new : Nat} (hstart : start < 32) (hnew : new < ndloslots fdp.fdNfiles) :
    (∀ w ∈ (findNextZeroReads (fun k => fdp.lomap env (new + k)) start ndentries).map
        (fun k => Word.lomap (new + k)), w.Inside fdp) ↔
      (new + 32 ≤ ndloslots fdp.fdNfiles ∨ ¬MarkedFrom fdp (start + new * 32)) := by
  have h32 : ndloslots ndentries = 32 := rfl
  have hlt := @findNextZeroReads_lt (fun k => fdp.lomap env (new + k)) start ndentries
    (ndloslots fdp.fdNfiles - new) (Nat.le_of_lt hstart) (by omega)
  rw [clear_lomap_iff env (Nat.le_of_lt hnew), h32] at hlt
  rw [List.forall_mem_map, show new + 32 ≤ ndloslots fdp.fdNfiles ↔ 32 ≤ ndloslots fdp.fdNfiles - new by omega,
    ← hlt]
  constructor
  · intro hall k hk
    have hk' : new + k < ndloslots fdp.fdNfiles := hall k hk
    omega
  · intro hall k hk
    have hk' := hall k hk
    show new + k < ndloslots fdp.fdNfiles
    omega

/-! ## One search -/

omit h in
/-- The reads of one turn. -/
theorem fdallocLoopReads_succ (fuel want : Nat) : fdallocLoopReads fdp env (fuel + 1) want =
    (findNextZeroReads (fdp.himap env) (firstLooked fdp want / 32) (lowWords fdp env.lim)).map .himap ++
    match findNextZero (fdp.himap env) (firstLooked fdp want / 32) (lowWords fdp env.lim) with
    | none => []
    | some new =>
      let lomap := fun k => fdp.lomap env (new + k)
      let start := if new > firstLooked fdp want / 32 then 0 else firstLooked fdp want % 32
      (findNextZeroReads lomap start ndentries).map (fun k => .lomap (new + k)) ++
      match findNextZero lomap start ndentries with
      | none => fdallocLoopReads fdp env fuel ((new + 1) * 32)
      | some _ => [] := rfl

omit h in
/-- Nothing is read for a descriptor behind the limits. -/
theorem reads_behind {want : Nat} (hoff : lowWords fdp env.lim < firstLooked fdp want / 32) (fuel : Nat) :
    fdallocLoopReads fdp env fuel want = [] := by
  cases fuel with
  | zero => rfl
  | succ fuel =>
    have hreads : findNextZeroReads (fdp.himap env) (firstLooked fdp want / 32) (lowWords fdp env.lim) = [] :=
      if_pos hoff
    have hfind : findNextZero (fdp.himap env) (firstLooked fdp want / 32) (lowWords fdp env.lim) = none :=
      if_pos hoff
    rw [fdallocLoopReads_succ, hreads, hfind]
    rfl

/-- With all the words from `off` on full, only the high map is read, to its end if the search
is not limited to fewer words. -/
theorem reads_full {want : Nat} (hoff : firstLooked fdp want / 32 ≤ lowWords fdp env.lim)
    (hfull : MarkedFrom fdp (firstLooked fdp want / 32 * 32)) (fuel : Nat) :
    (∀ w ∈ fdallocLoopReads fdp env (fuel + 1) want, w.Inside fdp) ↔
      ndloslots (lowWords fdp env.lim) ≤ ndhislots fdp.fdNfiles := by
  have hle := Nat.le_trans hoff (lowWords_le fdp env.lim)
  have hhi := himap_inside h env hoff hle
  rw [fdallocLoopReads_succ, List.forall_mem_append, hhi]
  constructor
  · rintro ⟨hin | hin, -⟩
    · exact hin
    · exact absurd hfull hin
  · intro hin
    refine ⟨.inl hin, ?_⟩
    cases hfind : findNextZero (fdp.himap env) (firstLooked fdp want / 32) (lowWords fdp env.lim) with
    | none => exact nofun
    | some new =>
      -- what would be found is in the map, where all is set
      obtain ⟨-, hnew, hclear, -⟩ := findNextZero_some hfind
      have hlt := findNextZero_lt hfind
      exact absurd hfull ((clear_himap_iff h env).mp ⟨new, hnew, by omega, hclear⟩)

/-- The word the high map leads to, if there is one to be found in the maps: one that is
not full. -/
theorem found_word {off bits new : Nat} (hclear : ¬MarkedFrom fdp (off * 32))
    (hfind : findNextZero (fdp.himap env) off bits = some new) :
    off ≤ new ∧ new < ndloslots fdp.fdNfiles ∧ ¬MarkedFrom fdp (new * 32) := by
  obtain ⟨-, hle, hbit, hbefore⟩ := findNextZero_some hfind
  obtain ⟨j, hj1, hj2, hj⟩ := (clear_himap_iff h env).mpr hclear
  have hlt : new < ndloslots fdp.fdNfiles := by
    rw [ndloslots_eq]
    by_contra hge
    rw [hbefore j hj1 (by omega)] at hj
    cases hj
  rw [bit_himap h env hlt] at hbit
  exact ⟨hle, hlt, not_markedFrom_word.mpr ⟨new, le_rfl, hlt, of_decide_eq_false hbit⟩⟩

omit h in
/-- The words from `new` on are full as far as the search goes. -/
theorem lomap_none {start new : Nat} (hstart : start < 32)
    (hnone : findNextZero (fun k => fdp.lomap env (new + k)) start ndentries = none) :
    ∀ k, start + new * 32 ≤ k → k < (new + 32) * 32 → k < ndloslots fdp.fdNfiles * 32 →
      bit fdp.fdLomap k = true := by
  intro k hk1 hk2 hk3
  rcases findNextZero_none hnone with hlt | hall
  · exact absurd hlt (Nat.not_lt.mpr (Nat.le_of_lt hstart))
  · have h32 : ndloslots ndentries = 32 := rfl
    have hk := hall (k - new * 32) (by omega) (by omega)
    rw [bit_lomap_add, Nat.sub_add_cancel (by omega), bit, Filedesc.lomap, if_pos (by omega)] at hk
    exact hk

/-- **A search that can succeed stays in the maps.** By induction on the restarts. -/
theorem reads_clear (fuel : Nat) : ∀ want, ¬MarkedFrom fdp (firstLooked fdp want) →
    ∀ w ∈ fdallocLoopReads fdp env fuel want, w.Inside fdp := by
  induction fuel with
  | zero => exact fun _ _ => nofun
  | succ fuel ih =>
    intro want hclear
    rcases Nat.lt_or_ge (lowWords fdp env.lim) (firstLooked fdp want / 32) with hbehind | hoff
    · rw [reads_behind env hbehind]
      exact nofun
    have hword : ¬MarkedFrom fdp (firstLooked fdp want / 32 * 32) :=
      fun hall => hclear (hall.mono (by omega))
    have hle := Nat.le_trans hoff (lowWords_le fdp env.lim)
    rw [fdallocLoopReads_succ, List.forall_mem_append]
    refine ⟨(himap_inside h env hoff hle).mpr (.inr hword), ?_⟩
    cases hfind : findNextZero (fdp.himap env) (firstLooked fdp want / 32) (lowWords fdp env.lim) with
    | none => exact nofun
    | some new =>
      obtain ⟨hnew, hlt, hnewword⟩ := found_word h env hword hfind
      simp only
      generalize hst : (if new > firstLooked fdp want / 32 then 0 else firstLooked fdp want % 32) = start
      have hstart : start < 32 := by split_ifs at hst <;> omega
      have hfrom : ¬MarkedFrom fdp (start + new * 32) := by
        split_ifs at hst with hgt
        · rw [← hst, Nat.zero_add]
          exact hnewword
        · rw [show start + new * 32 = firstLooked fdp want by omega]
          exact hclear
      rw [List.forall_mem_append]
      refine ⟨(lomap_inside env hstart hlt).mpr (.inr hfrom), ?_⟩
      cases hlo : findNextZero (fun k => fdp.lomap env (new + k)) start ndentries with
      | some j => exact nofun
      | none =>
        -- the descriptor to be found is behind the words that were looked at
        obtain ⟨k, hk1, hk2, hk⟩ := not_markedFrom.mp hfrom
        have hfar : (new + 32) * 32 ≤ k := by
          by_contra hnear
          rw [lomap_none env hstart hlo k hk1 (by omega) hk2] at hk
          cases hk
        refine ih _ (not_markedFrom.mpr ⟨k, ?_, hk2, hk⟩)
        unfold firstLooked at hnew ⊢
        split_ifs at hnew ⊢ <;> omega

/-- The word of the first descriptor is not full, but all its descriptors from there on are
marked, and so is all that follows: 32 words of the low map are read, and then the rest of the
high map. -/
theorem reads_restart {want : Nat} (hoff : firstLooked fdp want / 32 ≤ lowWords fdp env.lim)
    (hfull : MarkedFrom fdp (firstLooked fdp want))
    (hword : ¬MarkedFrom fdp (firstLooked fdp want / 32 * 32)) (fuel : Nat) :
    (∀ w ∈ fdallocLoopReads fdp env (fuel + 2) want, w.Inside fdp) ↔
      (firstLooked fdp want / 32 + 32 ≤ ndloslots fdp.fdNfiles ∧
        (firstLooked fdp want / 32 < lowWords fdp env.lim →
          ndloslots (lowWords fdp env.lim) ≤ ndhislots fdp.fdNfiles)) := by
  have hle := Nat.le_trans hoff (lowWords_le fdp env.lim)
  have hmod := Nat.mod_lt (firstLooked fdp want) (show 0 < 32 by decide)
  obtain ⟨n, hn1, hn2, hn⟩ := not_markedFrom.mp hword
  have hbelow : n < firstLooked fdp want := by
    by_contra hge
    rw [hfull n (by omega) hn2] at hn
    cases hn
  have hlow : firstLooked fdp want / 32 < ndloslots fdp.fdNfiles := by omega
  have hlow32 := ndloslots_eq fdp.fdNfiles
  have hmax := le_ndloslots (lowWords fdp env.lim)
  have hbit : bit (fdp.himap env) (firstLooked fdp want / 32) = false := by
    rw [bit_himap h env hlow, decide_eq_false]
    intro hall
    rw [bit_of_allOnes (by decide) (show fdp.fdLomap (n / 32) = _ from
      (show n / 32 = firstLooked fdp want / 32 by omega) ▸ hall)] at hn
    cases hn
  rw [fdallocLoopReads_succ, List.forall_mem_append]
  have hhi := (himap_inside h env hoff hle).mpr (.inr hword)
  cases hfind : findNextZero (fdp.himap env) (firstLooked fdp want / 32) (lowWords fdp env.lim) with
  | none =>
    -- only if the word is the one behind those the search is limited to
    have hedge : ndloslots (lowWords fdp env.lim) * 32 ≤ firstLooked fdp want / 32 := by
      by_contra hlt
      rcases findNextZero_none hfind with hgt | hall
      · omega
      · rw [hall _ le_rfl (by omega)] at hbit
        cases hbit
    exact ⟨fun _ => ⟨by omega, fun _ => by omega⟩, fun _ => ⟨hhi, nofun⟩⟩
  | some new =>
    obtain ⟨-, hnew, -, hbefore⟩ := findNextZero_some hfind
    obtain rfl : new = firstLooked fdp want / 32 := by
      by_contra hne
      rw [hbefore _ le_rfl (by omega)] at hbit
      cases hbit
    have hfrom : firstLooked fdp want % 32 + firstLooked fdp want / 32 * 32 = firstLooked fdp want := by
      omega
    simp only [gt_iff_lt, Nat.lt_irrefl, if_false]
    rw [List.forall_mem_append, lomap_inside env hmod hlow, hfrom]
    cases hlo : findNextZero (fun k => fdp.lomap env (firstLooked fdp want / 32 + k))
        (firstLooked fdp want % 32) ndentries with
    | some j =>
      -- a descriptor is found, so it is one behind the map
      have hj := findNextZero_lt hlo
      have h32 : ndloslots ndentries = 32 := rfl
      obtain ⟨-, hstart, hclear, -⟩ := findNextZero_some hlo
      have hend : ¬firstLooked fdp want / 32 + 32 ≤ ndloslots fdp.fdNfiles := by
        intro hroom
        have hex := (clear_lomap_iff env (Nat.le_of_lt hlow)).mp ⟨j, hstart, by omega, hclear⟩
        rw [hfrom] at hex
        exact hex hfull
      exact ⟨fun hall => absurd hall.2.1 (not_or.mpr ⟨hend, not_not.mpr hfull⟩), fun hall => absurd hall.1 hend⟩
    | none =>
      have hnext : firstLooked fdp ((firstLooked fdp want / 32 + 1) * 32) =
          (firstLooked fdp want / 32 + 1) * 32 := by
        have hfree : fdp.fdFreefile ≤ firstLooked fdp want := by
          unfold firstLooked
          split_ifs <;> omega
        exact if_neg (by omega)
      have hdiv : (firstLooked fdp want / 32 + 1) * 32 / 32 = firstLooked fdp want / 32 + 1 := by omega
      have hrest : (∀ w ∈ fdallocLoopReads fdp env (fuel + 1) ((firstLooked fdp want / 32 + 1) * 32),
          w.Inside fdp) ↔ (firstLooked fdp want / 32 < lowWords fdp env.lim →
            ndloslots (lowWords fdp env.lim) ≤ ndhislots fdp.fdNfiles) := by
        rcases Nat.lt_or_ge (firstLooked fdp want / 32) (lowWords fdp env.lim) with hlt | hge
        · rw [reads_full h env (by rw [hnext, hdiv]; exact hlt)
            (by exact hfull.mono (by omega))]
          exact ⟨fun hin _ => hin, fun hin => hin hlt⟩
        · rw [reads_behind env (by omega)]
          exact ⟨fun _ hlt => absurd hlt (Nat.not_lt.mpr hge), fun _ => nofun⟩
      rw [hrest]
      constructor
      · rintro ⟨-, hroom | hclear, hmore⟩
        · exact ⟨hroom, hmore⟩
        · exact absurd hfull hclear
      · rintro ⟨hroom, hmore⟩
        exact ⟨hhi, .inl hroom, hmore⟩

/-- **Exactly when `fdalloc` stays in the maps.** -/
theorem fdallocReads_inside (want : Nat) :
    (∀ w ∈ fdallocReads fdp env want, w.Inside fdp) ↔ ¬Overruns fdp env.lim want := by
  unfold fdallocReads Overruns
  rcases Nat.lt_or_ge (lowWords fdp env.lim) (firstLooked fdp want / 32) with hbehind | hoff
  · rw [reads_behind env hbehind]
    exact ⟨fun _ hov => absurd hov.1 (Nat.not_le.mpr hbehind), fun _ => nofun⟩
  by_cases hclear : MarkedFrom fdp (firstLooked fdp want)
  · by_cases hword : MarkedFrom fdp (firstLooked fdp want / 32 * 32)
    · rw [reads_full h env hoff hword, ← Nat.not_lt, not_iff_not]
      constructor
      · exact fun hlt => ⟨hoff, hclear, .inl ⟨hlt, .inr hword⟩⟩
      · rintro ⟨-, -, ⟨hlt, -⟩ | ⟨hno, -⟩⟩
        · exact hlt
        · exact absurd hword hno
    · rw [reads_restart h env hoff hclear hword]
      constructor
      · rintro ⟨hroom, hmore⟩ ⟨-, -, ⟨hlt, hlt' | hall⟩ | ⟨-, hend⟩⟩
        · omega
        · exact hword hall
        · omega
      · intro hov
        constructor
        · by_contra hend
          exact hov ⟨hoff, hclear, .inr ⟨hword, by omega⟩⟩
        · intro hlt
          by_contra hmore
          exact hov ⟨hoff, hclear, .inl ⟨by omega, .inl hlt⟩⟩
  · exact ⟨fun _ hov => hclear hov.2.1, fun _ => reads_clear h env _ want hclear⟩

end

end

/-! ## Runs -/

def AllMapOk (s : State) : Prop := ∀ fdp ∈ s.tables, MapOk fdp

theorem AllMapOk.set {s : State} (h : AllMapOk s) (t : Nat) {fdp : Filedesc} (hok : MapOk fdp) :
    ∀ g ∈ s.tables.set t fdp, MapOk g := by
  intro g hg
  rcases List.mem_or_eq_of_mem_set hg with hg | rfl
  · exact h g hg
  · exact hok

/-- An operation on one table. -/
theorem AllMapOk.update {s s' : State} {t : Nat} {r : Option (Filedesc × Files × Except Errno Nat)}
    (h : AllMapOk s) (hr : ∀ res, r = some res → MapOk res.1) (hs : s.update t r = some s') :
    AllMapOk s' := by
  obtain ⟨res, rfl, rfl⟩ := Option.map_eq_some_iff.mp hs
  exact h.set t (hr res rfl)

section
variable {fdp : Filedesc} {longMax : Nat} {files : Files}

/-- What `dup` and `fcntl` do with the descriptor found. -/
theorem MapOk.finish (h : MapOk fdp) {env : Env} {want fp : Nat}
    {res : Filedesc × Files × Except Errno Nat}
    (hres : ((allocExpand env (env.lim + 1) fdp want).map fun
      | (fdp, .error e) => (fdp, files, .error e)
      | (fdp, .ok new) => Fdesc.finishdup longMax fdp files fp new) = some res) : MapOk res.1 := by
  obtain ⟨⟨g, r⟩, halloc, rfl⟩ := Option.map_eq_some_iff.mp hres
  have hg : MapOk g := allocExpand_mapOk env want _ fdp h _ halloc
  cases r with
  | error e => exact hg
  | ok new => exact hg.finishdup new

theorem MapOk.sysDup (h : MapOk fdp) (env : Env) (old : Nat) :
    ∀ res, sysDup longMax env fdp files old = some res → MapOk res.1 := by
  intro res hres
  unfold Fdesc.sysDup at hres
  split at hres
  · cases Option.some.inj hres
    exact h
  · exact h.finish hres

theorem MapOk.fDupfd (h : MapOk fdp) (env : Env) (fd newmin : Nat) :
    ∀ res, fDupfd longMax env fdp files fd newmin = some res → MapOk res.1 := by
  intro res hres
  unfold Fdesc.fDupfd at hres
  split at hres
  · cases Option.some.inj hres
    exact h
  · split_ifs at hres
    · cases Option.some.inj hres
      exact h
    · exact h.finish hres

theorem MapOk.sysDup2 (h : MapOk fdp) (env : Env) (old new : Nat) :
    ∀ res, sysDup2 longMax env fdp files old new = some res → MapOk res.1 := by
  intro res hres
  unfold Fdesc.sysDup2 at hres
  split at hres
  · cases Option.some.inj hres
    exact h
  · split_ifs at hres
    · cases Option.some.inj hres
      exact h
    · cases Option.some.inj hres
      exact h
    · obtain ⟨⟨g, r⟩, hroom, rfl⟩ := Option.map_eq_some_iff.mp hres
      have hg : MapOk g := dup2Room_mapOk env new _ fdp h _ hroom
      cases r with
      | error e => exact hg
      | ok _ => exact hg.finishdup new

theorem MapOk.falloc (h : MapOk fdp) (env : Env) (fp : Nat) (tablefull kqueue : Bool) :
    ∀ res, falloc env fdp files fp tablefull kqueue = some res → MapOk res.1 := by
  intro res hres
  obtain ⟨⟨g, r⟩, halloc, rfl⟩ := Option.map_eq_some_iff.mp hres
  have hg : MapOk g := allocExpand_mapOk env 0 _ fdp h _ halloc
  cases r with
  | error e => exact hg
  | ok i =>
    cases tablefull with
    | true => exact hg.fdUnused i
    | false => exact { hg with }

theorem MapOk.fdrelease (h : MapOk fdp) (fd : Nat) : MapOk (fdrelease fdp files fd).1 := by
  unfold Fdesc.fdrelease
  cases fdp.fdOfiles fd with
  | none => exact h
  | some fp => exact h.fdremove fd

end

theorem step_mapOk {longMax : Nat} (s : State) (a : Act) (s' : State)
    (hstep : step longMax s a = some s') (h : AllMapOk s) : AllMapOk s' := by
  have htable : ∀ {t fdp}, s.tables[t]? = some fdp → MapOk fdp := fun ht => h _ (List.mem_of_getElem? ht)
  cases a with
  | dup t old env =>
    obtain ⟨fdp, ht, hs⟩ := Option.bind_eq_some_iff.mp hstep
    exact h.update ((htable ht).sysDup env old) hs
  | dup2 t old new env =>
    obtain ⟨fdp, ht, hs⟩ := Option.bind_eq_some_iff.mp hstep
    exact h.update ((htable ht).sysDup2 env old new) hs
  | dupfd t fd newmin env =>
    obtain ⟨fdp, ht, hs⟩ := Option.bind_eq_some_iff.mp hstep
    exact h.update ((htable ht).fDupfd env fd newmin) hs
  | falloc t env tablefull kqueue =>
    obtain ⟨fdp, ht, hs⟩ := Option.bind_eq_some_iff.mp hstep
    obtain ⟨s1, hs1, rfl⟩ := Option.map_eq_some_iff.mp hs
    have h1 : AllMapOk s1 := h.update ((htable ht).falloc env s.nextFile tablefull kqueue) hs1
    exact h1
  | mature fp =>
    obtain rfl := Option.some.inj hstep
    exact h
  | release t fd =>
    obtain ⟨fdp, ht, hs⟩ := Option.bind_eq_some_iff.mp hstep
    split_ifs at hs
    refine h.update (fun res hres => ?_) hs
    obtain rfl := Option.some.inj hres
    exact (htable ht).fdrelease fd
  | expand t =>
    obtain ⟨fdp, ht, rfl⟩ := Option.map_eq_some_iff.mp hstep
    exact h.set t (htable ht).fdexpand
  | copy t =>
    obtain ⟨fdp, ht, rfl⟩ := Option.map_eq_some_iff.mp hstep
    intro g hg
    rcases List.mem_append.mp hg with hg | hg
    · exact h g hg
    · obtain rfl := List.mem_singleton.mp hg
      exact (htable ht).fdcopy
  | knlist t size =>
    obtain ⟨fdp, ht, rfl⟩ := Option.map_eq_some_iff.mp hstep
    exact h.set t { htable ht with }
  | internalize fp =>
    simp only [step] at hstep
    split_ifs at hstep
    · obtain rfl := Option.some.inj hstep
      exact h
    · obtain rfl := Option.some.inj hstep
      exact h

theorem mapOk_of_runs {longMax : Nat} {s : State} (hrun : Runs (step longMax) (fun _ _ => True) {} s) :
    AllMapOk s := by
  have hkeep : ∀ s a s', True → step longMax s a = some s' → AllMapOk s → AllMapOk s' :=
    fun s a s' _ => step_mapOk s a s'
  have hinit : AllMapOk {} := by
    intro fdp hfdp
    obtain rfl := List.mem_singleton.mp hfdp
    exact mapOk_fdinit
  exact Runs.invariant hkeep hrun hinit

/-- **The words `fdalloc` reads.** In every state reached, a search in any table reads words of
the two maps only, exactly if it does not start among the words below the limits with every
descriptor from there on marked, and then goes on behind the end: in the high map if
`NDLOSLOTS` of the number of low words is more than the map has, in the low map if there are
fewer than 32 words from the first one on. -/
theorem find_words_inside (longMax : Nat) (s : State)
    (hrun : Runs (step longMax) (fun _ _ => True) {} s) :
    ∀ fdp ∈ s.tables, ∀ env want,
      (∀ w ∈ fdallocReads fdp env want, w.Inside fdp) ↔ ¬Overruns fdp env.lim want :=
  fun fdp hfdp env want => fdallocReads_inside (mapOk_of_runs hrun fdp hfdp) env want

/-- A process with one open file asks for any free descriptor. -/
theorem find_words_first : ∃ s, Runs (step (2 ^ 31 - 1)) (fun _ _ => True) {} s
    ∧ (s.tables.map fun fdp => fdallocReads fdp { lim := 64 } 0) = [[.himap 0, .lomap 0]]
    ∧ ∀ fdp ∈ s.tables, ∀ env want,
      (∀ w ∈ fdallocReads fdp env want, w.Inside fdp) ↔ ¬Overruns fdp env.lim want := by
  have hsome : ((Runs.exec (step (2 ^ 31 - 1)) (fun _ _ => true)
      [.falloc 0 { lim := 64 } false false, .mature 0] {}).map fun s =>
        s.tables.map fun fdp => fdallocReads fdp { lim := 64 } 0) = some [[.himap 0, .lomap 0]] := by
    decide +kernel
  obtain ⟨s, hs, hreads⟩ := Option.map_eq_some_iff.mp hsome
  have hrun : Runs (step (2 ^ 31 - 1)) (fun _ _ => True) {} s := Runs.of_exec (fun _ _ _ => trivial) _ hs
  exact ⟨s, hrun, hreads, find_words_inside _ s hrun⟩

/-- A process with descriptor 25599 asks for the next one. The table has 25600 descriptors, all
of 25 words of the high map, and the search begins with the one behind. -/
theorem find_words_behind : ¬∀ s, Runs (step (2 ^ 31 - 1)) (fun _ _ => True) {} s →
    ∀ fdp ∈ s.tables, ∀ env want, ∀ w ∈ fdallocReads fdp env want, w.Inside fdp := by
  intro hclaim
  have hsome : ((Runs.exec (step (2 ^ 31 - 1)) (fun _ _ => true)
      [.falloc 0 { lim := 30000 } false false, .mature 0, .dup2 0 0 25599 { lim := 30000 }] {}).map fun s =>
        s.tables.map fun fdp => (fdp.fdNfiles, fdallocReads fdp { lim := 30000 } 25600))
      = some [(25600, [.himap 25, .lomap 800])] := by
    decide +kernel
  obtain ⟨s, hs, htables⟩ := Option.map_eq_some_iff.mp hsome
  obtain ⟨fdp, hfdp, hsize, hreads⟩ : ∃ fdp, s.tables = [fdp] ∧ fdp.fdNfiles = 25600
      ∧ fdallocReads fdp { lim := 30000 } 25600 = [.himap 25, .lomap 800] := by
    simpa [List.map_eq_singleton_iff] using htables
  have hrun : Runs (step (2 ^ 31 - 1)) (fun _ _ => True) {} s := Runs.of_exec (fun _ _ _ => trivial) _ hs
  have hin : 25 < ndhislots fdp.fdNfiles :=
    hclaim s hrun fdp (by simp [hfdp]) { lim := 30000 } 25600 (.himap 25) (by simp [hreads])
  rw [hsize] at hin
  exact absurd hin (by decide)

end Obsd.Fdesc
