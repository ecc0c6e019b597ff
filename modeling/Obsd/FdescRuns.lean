import Obsd.FdescAlloc

/-!
# Descriptor tables, over any run

Every operation keeps the tables in order (`Inv`). Between the two halves
of an allocation one descriptor may be out of line; `Almost` says that
only that one is, and `fd_used` and `fd_unused` put it right. One path
leaves it so: `finishdup` gives up on a file with too many references
without giving back the descriptor that was just allocated for it.
-/

namespace Obsd.Fdesc

open Bitmap

variable {fdp : Filedesc} {i : Nat}

/-! ## One descriptor apart -/

structure Almost (fdp : Filedesc) (i : Nat) : Prop where
  size : fdp.fdNfiles = 20 ∨ ∃ k, fdp.fdNfiles = 50 * 2 ^ k
  here : i < fdp.fdNfiles
  outside : ∀ n, fdp.fdNfiles ≤ n → fdp.fdOfiles n = none
  lo : ∀ n < ndloslots fdp.fdNfiles * 32, n ≠ i → bit fdp.fdLomap n = (fdp.fdOfiles n).isSome
  hi : ∀ j < ndloslots fdp.fdNfiles, bit fdp.fdHimap j = decide (fdp.fdLomap j = BitVec.allOnes 32)
  free : ∀ n < fdp.fdFreefile, n ≠ i → (fdp.fdOfiles n).isSome
  last_lt : fdp.fdLastfile < fdp.fdNfiles
  last_max : ∀ n, n ≠ i → (fdp.fdOfiles n).isSome → n ≤ fdp.fdLastfile
  last_used : fdp.fdLastfile = i ∨ (fdp.fdOfiles fdp.fdLastfile).isSome ∨ fdp.fdLastfile = 0

theorem Inv.almost (h : Inv fdp) (hi : i < fdp.fdNfiles) : Almost fdp i where
  size := h.size
  here := hi
  outside := h.outside
  lo := fun n hn _ => h.lo n hn
  hi := h.hi
  free := fun n hn _ => h.free n hn
  last_lt := h.last_lt
  last_max := fun n _ => h.last_max n
  last_used := .inr h.last_used

theorem Almost.setFile (h : Almost fdp i) (fp : Option Nat) : Almost (fdp.setFile i fp) i := by
  have hof : ∀ n, n ≠ i → (fdp.setFile i fp).fdOfiles n = fdp.fdOfiles n := fun n hn => if_neg hn
  refine { h with outside := fun n hn => ?_, lo := fun n hn hni => ?_, free := fun n hn hni => ?_
                  last_max := fun n hni => ?_, last_used := ?_ }
  · have hlt := h.here
    have hle : fdp.fdNfiles ≤ n := hn
    rw [hof n (by omega)]
    exact h.outside n hn
  · rw [hof n hni]
    exact h.lo n hn hni
  · rw [hof n hni]
    exact h.free n hn hni
  · rw [hof n hni]
    exact h.last_max n hni
  · rcases h.last_used with hl | hl | hl
    · exact .inl hl
    · by_cases hli : fdp.fdLastfile = i
      · exact .inl hli
      · refine .inr (.inl ?_)
        show ((fdp.setFile i fp).fdOfiles fdp.fdLastfile).isSome
        rw [hof _ hli]
        exact hl
    · exact .inr (.inr hl)

/-- All that is missing is the descriptor itself. -/
theorem Almost.inv (h : Almost fdp i) (hbit : bit fdp.fdLomap i = true) (hused : (fdp.fdOfiles i).isSome)
    (hlast : i ≤ fdp.fdLastfile) : Inv fdp where
  size := h.size
  outside := h.outside
  lo := by
    intro n hn
    by_cases hni : n = i
    · rw [hni, hbit, hused]
    · exact h.lo n hn hni
  hi := h.hi
  free := by
    intro n hn
    by_cases hni : n = i
    · rw [hni]
      exact hused
    · exact h.free n hn hni
  last_lt := h.last_lt
  last_max := by
    intro n hn
    by_cases hni : n = i
    · rw [hni]
      exact hlast
    · exact h.last_max n hni hn
  last_used := by
    rcases h.last_used with hl | hl
    · rw [hl]
      exact .inl hused
    · exact hl

/-! ## `fd_used` -/

theorem set_allOnes {map : Nat → BitVec 32} {n j : Nat} (h : map j = BitVec.allOnes 32) :
    set map n j = BitVec.allOnes 32 := by
  rw [eq_allOnes_iff] at h ⊢
  intro b hb
  rw [bit_set (by decide), h b hb, Bool.true_or]

theorem Almost.fdUsed (h : Almost fdp i) : Almost (fdUsed fdp i) i where
  size := h.size
  here := h.here
  outside := h.outside
  lo := by
    intro n hn hni
    show bit (set fdp.fdLomap i) n = _
    rw [bit_set (by decide), decide_eq_false hni, Bool.or_false]
    exact h.lo n hn hni
  hi := by
    intro j hj
    show bit (if set fdp.fdLomap i (i / 32) = BitVec.allOnes 32 then set fdp.fdHimap (i / 32) else fdp.fdHimap) j
      = decide (set fdp.fdLomap i j = BitVec.allOnes 32)
    by_cases hji : j = i / 32
    · subst hji
      split_ifs with hfull
      · rw [bit_set (by decide), decide_eq_true rfl, Bool.or_true, decide_eq_true hfull]
      · rw [h.hi _ hj, decide_eq_false hfull, decide_eq_false fun hw => hfull (set_allOnes hw)]
    · rw [set_of_ne hji, ← h.hi j hj]
      split_ifs
      · rw [bit_set (by decide), decide_eq_false hji, Bool.or_false]
      · rfl
  free := h.free
  last_lt := by
    have h1 := h.here
    have h2 := h.last_lt
    show (if i > fdp.fdLastfile then i else fdp.fdLastfile) < fdp.fdNfiles
    split_ifs <;> assumption
  last_max := by
    intro n hni hn
    have hle := h.last_max n hni hn
    show n ≤ if i > fdp.fdLastfile then i else fdp.fdLastfile
    split_ifs <;> omega
  last_used := by
    show (if i > fdp.fdLastfile then i else fdp.fdLastfile) = i ∨ _
    by_cases hgt : i > fdp.fdLastfile
    · rw [if_pos hgt]
      exact .inl rfl
    · have hl : (Fdesc.fdUsed fdp i).fdLastfile = fdp.fdLastfile := if_neg hgt
      rw [if_neg hgt, hl]
      exact h.last_used

theorem inv_fdUsed (h : Almost fdp i) (hused : (fdp.fdOfiles i).isSome) : Inv (fdUsed fdp i) := by
  refine h.fdUsed.inv ?_ hused ?_
  · show bit (set fdp.fdLomap i) i = true
    rw [bit_set (by decide), decide_eq_true rfl, Bool.or_true]
  · show i ≤ if i > fdp.fdLastfile then i else fdp.fdLastfile
    split_ifs <;> omega

/-! ## `fd_unused` -/

theorem lastWord_none {bitmap : Nat → BitVec 32} (n : Nat) (h : lastWord bitmap n = none) :
    ∀ k < n, bitmap k = 0#32 := by
  induction n with
  | zero => exact nofun
  | succ n ih =>
    intro k hk
    unfold lastWord at h
    split_ifs at h with hz
    rcases Nat.lt_or_ge k n with hlt | hge
    · exact ih h k hlt
    · rw [show k = n by omega]
      exact hz

theorem lastWord_some {bitmap : Nat → BitVec 32} (n : Nat) {off : Nat} (h : lastWord bitmap n = some off) :
    off < n ∧ ∀ k < n, off < k → bitmap k = 0#32 := by
  induction n with
  | zero => cases h
  | succ n ih =>
    unfold lastWord at h
    split_ifs at h with hz
    · obtain ⟨hlt, hzero⟩ := ih h
      refine ⟨by omega, fun k hk1 hk2 => ?_⟩
      rcases Nat.lt_or_ge k n with hkn | hkn
      · exact hzero k hkn hk2
      · rw [show k = n by omega]
        exact hz
    · obtain rfl := Option.some.inj h
      exact ⟨by omega, fun k hk1 hk2 => by omega⟩

theorem lastOpen_spec (ofiles : Nat → Option Nat) (k : Nat) :
    lastOpen ofiles k ≤ k ∧ ((ofiles (lastOpen ofiles k)).isSome ∨ lastOpen ofiles k = 0) ∧
      ∀ n ≤ k, (ofiles n).isSome → n ≤ lastOpen ofiles k := by
  induction k with
  | zero => exact ⟨Nat.le_refl 0, .inr rfl, fun n hn _ => hn⟩
  | succ k ih =>
    unfold lastOpen
    split_ifs with hnone
    · obtain ⟨hle, hused, hmax⟩ := ih
      refine ⟨by omega, hused, fun n hn hsome => ?_⟩
      rcases Nat.lt_or_ge n (k + 1) with hlt | hge
      · exact hmax n (by omega) hsome
      · rw [show n = k + 1 by omega, hnone] at hsome
        cases hsome
    · exact ⟨le_rfl, .inl (Option.isSome_iff_ne_none.mpr hnone), fun n hn _ => hn⟩

/-- The highest open descriptor below `last`, or 0. -/
theorem findLastSet_spec {fd : Filedesc} {last : Nat}
    (hlo : ∀ n < last, (fd.fdOfiles n).isSome → bit fd.fdLomap n = true) :
    findLastSet fd last ≤ last ∧
      ((fd.fdOfiles (findLastSet fd last)).isSome ∨ findLastSet fd last = 0) ∧
      ∀ n < last, (fd.fdOfiles n).isSome → n ≤ findLastSet fd last := by
  have hword : ∀ n < last, (fd.fdOfiles n).isSome → fd.fdLomap (n / 32) ≠ 0#32 := by
    intro n hn hsome hzero
    have hbit := hlo n hn hsome
    rw [bit, hzero, BitVec.getLsbD_zero] at hbit
    cases hbit
  unfold findLastSet
  cases hw : lastWord fd.fdLomap (if last = 0 then 0 else (last - 1) / ndentries + 1) with
  | none =>
    refine ⟨Nat.zero_le _, .inr rfl, fun n hn hsome => absurd ?_ (hword n hn hsome)⟩
    refine lastWord_none _ hw (n / 32) ?_
    rw [if_neg (by omega)]
    show n / 32 < (last - 1) / 32 + 1
    omega
  | some off =>
    obtain ⟨hlt, hzero⟩ := lastWord_some _ hw
    have hpos : last ≠ 0 := by
      intro h0
      rw [if_pos h0] at hlt
      omega
    rw [if_neg hpos] at hlt hzero
    obtain ⟨hle, hused, hmax⟩ := lastOpen_spec fd.fdOfiles
      (if (off + 1) * ndentries - 1 ≥ last then last - 1 else (off + 1) * ndentries - 1)
    refine ⟨?_, hused, fun n hn hsome => hmax n ?_ hsome⟩
    · refine Nat.le_trans hle ?_
      split_ifs with h1
      · omega
      · exact Nat.le_of_lt (Nat.lt_of_not_le h1)
    · have hoff : n / 32 ≤ off := by
        by_contra hgt
        refine hword n hn hsome (hzero (n / 32) ?_ (by omega))
        show n / 32 < (last - 1) / 32 + 1
        omega
      split_ifs with h1
      · omega
      · show n ≤ (off + 1) * 32 - 1
        omega

theorem clear_ne_allOnes (map : Nat → BitVec 32) (n : Nat) : clear map n (n / 32) ≠ BitVec.allOnes 32 := by
  intro h
  have hbit := bit_of_allOnes (show 0 < 32 by decide) h
  rw [bit_clear (by decide), decide_eq_true rfl, Bool.not_true, Bool.and_false] at hbit
  cases hbit

/-- The table with the bit cleared, before the high-water mark is set. -/
def cleared (fdp : Filedesc) (fd : Nat) : Filedesc :=
  { fdp with
    fdFreefile := if fd < fdp.fdFreefile then fd else fdp.fdFreefile
    fdHimap := if fdp.fdLomap (fd / 32) = BitVec.allOnes 32 then clear fdp.fdHimap (fd / 32) else fdp.fdHimap
    fdLomap := clear fdp.fdLomap fd }

theorem fdUnused_eq (fdp : Filedesc) (fd : Nat) : fdUnused fdp fd =
    { cleared fdp fd with
      fdLastfile := if fd = fdp.fdLastfile then findLastSet (cleared fdp fd) fd else fdp.fdLastfile } := rfl

theorem inv_fdUnused (h : Almost fdp i) (hnone : fdp.fdOfiles i = none) : Inv (fdUnused fdp i) := by
  have hlo : ∀ n < ndloslots fdp.fdNfiles * 32, bit (clear fdp.fdLomap i) n = (fdp.fdOfiles n).isSome := by
    intro n hn
    rw [bit_clear (by decide)]
    by_cases hni : n = i
    · rw [hni, decide_eq_true rfl, Bool.not_true, Bool.and_false, hnone, Option.isSome_none]
    · rw [decide_eq_false hni, Bool.not_false, Bool.and_true]
      exact h.lo n hn hni
  have hslots := le_ndloslots fdp.fdNfiles
  have hne : ∀ n, (fdp.fdOfiles n).isSome → n ≠ i := by
    rintro n hn rfl
    rw [hnone] at hn
    cases hn
  have hbelow : ∀ n < i, ((cleared fdp i).fdOfiles n).isSome → bit (cleared fdp i).fdLomap n = true := by
    intro n hn hsome
    have hhere := h.here
    show bit (clear fdp.fdLomap i) n = true
    rw [hlo n (by omega)]
    exact hsome
  obtain ⟨hle, hused, hmax⟩ := findLastSet_spec hbelow
  rw [fdUnused_eq]
  constructor
  case size => exact h.size
  case outside => exact h.outside
  case lo => exact hlo
  case hi =>
    intro j hj
    show bit (if fdp.fdLomap (i / 32) = BitVec.allOnes 32 then clear fdp.fdHimap (i / 32) else fdp.fdHimap) j
      = decide (clear fdp.fdLomap i j = BitVec.allOnes 32)
    by_cases hji : j = i / 32
    · subst hji
      rw [decide_eq_false (clear_ne_allOnes fdp.fdLomap i)]
      split_ifs with hfull
      · rw [bit_clear (by decide), decide_eq_true rfl, Bool.not_true, Bool.and_false]
      · rw [h.hi _ hj, decide_eq_false hfull]
    · rw [clear_of_ne hji, ← h.hi j hj]
      split_ifs
      · rw [bit_clear (by decide), decide_eq_false hji, Bool.not_false, Bool.and_true]
      · rfl
  case free =>
    intro n hn
    have hn' : n < if i < fdp.fdFreefile then i else fdp.fdFreefile := hn
    split_ifs at hn'
    · exact h.free n (by omega) (by omega)
    · exact h.free n hn' (by omega)
  case last_lt =>
    have hhere := h.here
    show (if i = fdp.fdLastfile then findLastSet (cleared fdp i) i else fdp.fdLastfile) < fdp.fdNfiles
    split_ifs
    · omega
    · exact h.last_lt
  case last_max =>
    intro n hn
    have hni := hne n hn
    have hle := h.last_max n hni hn
    split_ifs with hlast
    · exact hmax n (by omega) hn
    · exact hle
  case last_used =>
    split_ifs with hlast
    · exact hused
    · exact h.last_used.resolve_left fun heq => hlast heq.symm

theorem inv_fdremove (h : Inv fdp) (hi : i < fdp.fdNfiles) : Inv (fdremove fdp i) :=
  inv_fdUnused ((h.almost hi).setFile none) (if_pos rfl)

/-- A descriptor in use may come to refer to another file. -/
theorem inv_setFile (h : Inv fdp) (hused : (fdp.fdOfiles i).isSome) (fp : Nat) :
    Inv (fdp.setFile i (some fp)) := by
  have hlast := h.last_max i hused
  have hi : i < fdp.fdNfiles := Nat.lt_of_le_of_lt hlast h.last_lt
  have hslots := le_ndloslots fdp.fdNfiles
  refine ((h.almost hi).setFile (some fp)).inv ?_ ?_ hlast
  · show bit fdp.fdLomap i = true
    rw [h.lo i (by omega), hused]
  · show (if i = i then some fp else fdp.fdOfiles i).isSome = true
    rw [if_pos rfl]
    rfl

/-! ## A new descriptor -/

/-- What `fdalloc` leaves: the descriptor is marked and has no file yet. -/
def Marked (fdp fdp' : Filedesc) (i : Nat) : Prop :=
  fdp.fdOfiles i = none ∧ i < fdp.fdNfiles ∧ ∃ freefile, fdp' = { fdUsed fdp i with fdFreefile := freefile }
    ∧ ∀ n < freefile, (fdp.fdOfiles n).isSome

theorem Marked.almost {fdp' : Filedesc} (h : Inv fdp) (hm : Marked fdp fdp' i) :
    Almost fdp' i ∧ fdp'.fdOfiles i = none ∧ bit fdp'.fdLomap i = true ∧ i ≤ fdp'.fdLastfile := by
  obtain ⟨hnone, hi, freefile, rfl, hfree⟩ := hm
  refine ⟨{ (h.almost hi).fdUsed with free := fun n hn _ => hfree n hn }, hnone, ?_, ?_⟩
  · show bit (set fdp.fdLomap i) i = true
    rw [bit_set (by decide), decide_eq_true rfl, Bool.or_true]
  · show i ≤ if i > fdp.fdLastfile then i else fdp.fdLastfile
    split_ifs <;> omega

/-- `falloc` puts a file there. -/
theorem Marked.install {fdp' : Filedesc} (h : Inv fdp) (hm : Marked fdp fdp' i) (fp : Nat) :
    Inv (fdp'.setFile i (some fp)) := by
  obtain ⟨hal, -, hbit, hlast⟩ := hm.almost h
  refine (hal.setFile (some fp)).inv hbit ?_ hlast
  show (if i = i then some fp else fdp'.fdOfiles i).isSome = true
  rw [if_pos rfl]
  rfl

/-- Or takes the mark away again. -/
theorem Marked.giveBack {fdp' : Filedesc} (h : Inv fdp) (hm : Marked fdp fdp' i) : Inv (fdUnused fdp' i) := by
  obtain ⟨hal, hnone, -, -⟩ := hm.almost h
  exact inv_fdUnused hal hnone

theorem AllocOk.marked {env : Env} {want : Nat} {fdp' : Filedesc} (h : AllocOk fdp env want (.ok fdp' i)) :
    Marked fdp fdp' i := by
  obtain ⟨-, hlast, hnone, -, hfree⟩ := h
  exact ⟨hnone, by omega, hfree⟩

/-! ## Expansion -/

theorem ndreduce_mono {x y : Nat} (h : x ≤ y) : ndreduce x ≤ ndreduce y :=
  Nat.div_le_div_right (by omega)

theorem ndhislots_mono {x y : Nat} (h : x ≤ y) : ndhislots x ≤ ndhislots y :=
  ndreduce_mono (ndreduce_mono h)

theorem ndloslots_mono {x y : Nat} (h : x ≤ y) : ndloslots x ≤ ndloslots y :=
  Nat.mul_le_mul_right _ (ndhislots_mono h)

/-- The same table with another number of places, the words that are new all clear. -/
structure Resized (fdp g : Filedesc) : Prop where
  ofiles : ∀ n, g.fdOfiles n = fdp.fdOfiles n
  lo : ∀ j < ndloslots g.fdNfiles, g.fdLomap j = if j < ndloslots fdp.fdNfiles then fdp.fdLomap j else 0#32
  hi : ∀ j < ndhislots g.fdNfiles, g.fdHimap j = if j < ndhislots fdp.fdNfiles then fdp.fdHimap j else 0#32
  last : g.fdLastfile = fdp.fdLastfile
  free : g.fdFreefile = fdp.fdFreefile

theorem Resized.inv {g : Filedesc} (hr : Resized fdp g) (h : Inv fdp)
    (hsize : g.fdNfiles = 20 ∨ ∃ k, g.fdNfiles = 50 * 2 ^ k) (hlast : fdp.fdLastfile < g.fdNfiles) : Inv g := by
  have hslots := le_ndloslots fdp.fdNfiles
  have hbeyond : ∀ n, g.fdNfiles ≤ n → fdp.fdOfiles n = none := by
    intro n hn
    by_contra hne
    have := h.last_max n (Option.isSome_iff_ne_none.mpr hne)
    omega
  constructor
  case size => exact hsize
  case outside =>
    intro n hn
    rw [hr.ofiles]
    exact hbeyond n hn
  case lo =>
    intro n hn
    rw [hr.ofiles, bit, hr.lo (n / 32) (by omega)]
    split_ifs with hold
    · exact h.lo n (by omega)
    · rw [h.outside n (by omega), BitVec.getLsbD_zero]
      rfl
  case hi =>
    intro j hj
    have hword : j / 32 < ndhislots g.fdNfiles := by
      rw [ndloslots_eq] at hj
      omega
    have hold : j / 32 < ndhislots fdp.fdNfiles ↔ j < ndloslots fdp.fdNfiles := by
      rw [ndloslots_eq]
      omega
    rw [bit, hr.hi (j / 32) hword, hr.lo j hj]
    simp only [hold]
    split_ifs with hlt
    · exact h.hi j hlt
    · rw [BitVec.getLsbD_zero]
      rfl
  case free =>
    intro n hn
    rw [hr.free] at hn
    rw [hr.ofiles]
    exact h.free n hn
  case last_lt =>
    rw [hr.last]
    exact hlast
  case last_max =>
    intro n hn
    rw [hr.ofiles] at hn
    rw [hr.last]
    exact h.last_max n hn
  case last_used =>
    rw [hr.last, hr.ofiles]
    exact h.last_used

theorem fdexpand_resized (h : Inv fdp) : Resized fdp (fdexpand fdp) ∧
    (fdexpand fdp).fdNfiles = if fdp.fdNfiles < ndextent then ndextent else 2 * fdp.fdNfiles := by
  have hle : fdp.fdNfiles ≤ if fdp.fdNfiles < ndextent then ndextent else 2 * fdp.fdNfiles := by
    split_ifs <;> omega
  have hof : ∀ n, (if n < fdp.fdNfiles then fdp.fdOfiles n else none) = fdp.fdOfiles n := by
    intro n
    split_ifs with hn
    · rfl
    · exact (h.outside n (by omega)).symm
  unfold fdexpand
  simp only
  generalize (if fdp.fdNfiles < ndextent then ndextent else 2 * fdp.fdNfiles) = nfiles at hle
  split_ifs with hgrow
  · exact ⟨⟨hof, fun j _ => rfl, fun j _ => rfl, rfl, rfl⟩, rfl⟩
  · -- the maps are large enough already
    have hsame : ndhislots nfiles = ndhislots fdp.fdNfiles := by
      have := ndhislots_mono hle
      omega
    have hsame' : ndloslots nfiles = ndloslots fdp.fdNfiles := by rw [ndloslots_eq, hsame, ndloslots_eq]
    refine ⟨⟨hof, fun j hj => ?_, fun j hj => ?_, rfl, rfl⟩, rfl⟩
    · have hj' : j < ndloslots nfiles := hj
      rw [if_pos (by omega)]
    · have hj' : j < ndhislots nfiles := hj
      rw [if_pos (by omega)]

theorem inv_fdexpand (h : Inv fdp) : Inv (fdexpand fdp) ∧ fdp.fdNfiles < (fdexpand fdp).fdNfiles := by
  obtain ⟨hr, hnf⟩ := fdexpand_resized h
  have hpos := h.last_lt
  have hlt : fdp.fdNfiles < (fdexpand fdp).fdNfiles := by
    rw [hnf]
    split_ifs <;> omega
  refine ⟨hr.inv h ?_ (Nat.lt_trans h.last_lt hlt), hlt⟩
  rw [hnf]
  rcases h.size with h20 | ⟨k, hk⟩
  · rw [h20]
    exact .inr ⟨0, rfl⟩
  · have hbig : ¬fdp.fdNfiles < ndextent := by
      unfold ndextent
      omega
    rw [if_neg hbig]
    exact .inr ⟨k + 1, by omega⟩

/-- **Allocation with expansion** returns, with the descriptor marked in a table that is in
order without it. -/
theorem allocExpand_spec (env : Env) (want : Nat) (fuel : Nat) : ∀ fdp, Inv fdp →
    env.lim - fdp.fdNfiles < fuel → ∃ fdp' r, allocExpand env fuel fdp want = some (fdp', r) ∧
      match r with
      | .error _ => Inv fdp'
      | .ok i => ∃ fdp0, Inv fdp0 ∧ Marked fdp0 fdp' i := by
  induction fuel with
  | zero =>
    intro fdp _ hfuel
    omega
  | succ fuel ih =>
    intro fdp h hfuel
    obtain ⟨r, hr, hok⟩ := fdalloc_spec h env want
    unfold allocExpand
    rw [hr]
    cases r with
    | ok fdp' i => exact ⟨fdp', .ok i, rfl, fdp, h, hok.marked⟩
    | emfile => exact ⟨fdp, .error .emfile, rfl, h⟩
    | enospc =>
      obtain ⟨hinv, hlt⟩ := inv_fdexpand h
      have hlim : fdp.fdNfiles < env.lim := hok.1
      exact ih (fdexpand fdp) hinv (by omega)

/-- Room for `dup2` is always found. -/
theorem dup2Room_spec (env : Env) {new : Nat} (hnew : new < env.lim) (fuel : Nat) : ∀ fdp, Inv fdp →
    env.lim - fdp.fdNfiles < fuel →
    ∃ fdp', dup2Room env fuel fdp new = some (fdp', .ok ()) ∧ Inv fdp' ∧ new < fdp'.fdNfiles := by
  induction fuel with
  | zero =>
    intro fdp _ hfuel
    omega
  | succ fuel ih =>
    intro fdp h hfuel
    unfold dup2Room
    split_ifs with hroom
    · obtain ⟨r, hr, hok⟩ := fdalloc_spec h env new
      rw [hr]
      cases r with
      | ok fdp' i =>
        obtain ⟨hle, hlt, -⟩ := hok
        omega
      | emfile =>
        have hlim : env.lim ≤ fdp.fdNfiles := hok.1
        omega
      | enospc =>
        obtain ⟨hinv, hlt⟩ := inv_fdexpand h
        exact ih (fdexpand fdp) hinv (by omega)
    · exact ⟨fdp, rfl, h, Nat.lt_of_not_le hroom⟩

/-! ## Operations -/

section
variable {longMax : Nat} {files : Files} {fp : Nat}

theorem finishdup_marked {fdp' : Filedesc} (h : Inv fdp) (hm : Marked fdp fdp' i)
    (hcount : (files fp).fCount ≠ longMax - 2) : Inv (finishdup longMax fdp' files fp i).1 := by
  obtain ⟨hal, hnone, -, -⟩ := hm.almost h
  unfold finishdup
  rw [if_neg hcount, hnone]
  refine inv_fdUsed (hal.setFile (some fp)) ?_
  show (if i = i then some fp else fdp'.fdOfiles i).isSome = true
  rw [if_pos rfl]
  rfl

theorem finishdup_room (h : Inv fdp) (hi : i < fdp.fdNfiles) : Inv (finishdup longMax fdp files fp i).1 := by
  unfold finishdup
  split_ifs
  · exact h
  cases hold : fdp.fdOfiles i with
  | none =>
    refine inv_fdUsed ((h.almost hi).setFile (some fp)) ?_
    show (if i = i then some fp else fdp.fdOfiles i).isSome = true
    rw [if_pos rfl]
    rfl
  | some oldfp => exact inv_setFile h (by rw [hold]; rfl) fp

theorem sysDup_inv (h : Inv fdp) (env : Env) (old : Nat)
    (hcount : ∀ fp, fdGetfile fdp files old = some fp → (files fp).fCount ≠ longMax - 2) :
    ∃ r, sysDup longMax env fdp files old = some r ∧ Inv r.1 := by
  unfold sysDup
  cases hget : fdGetfile fdp files old with
  | none => exact ⟨_, rfl, h⟩
  | some fp =>
    obtain ⟨fdp', r, hr, hok⟩ := allocExpand_spec env 0 (env.lim + 1) fdp h (by omega)
    simp only [hr, Option.map_some]
    cases r with
    | error e => exact ⟨_, rfl, hok⟩
    | ok new =>
      obtain ⟨fdp0, hinv0, hm⟩ := hok
      exact ⟨_, rfl, finishdup_marked hinv0 hm (hcount fp hget)⟩

theorem fDupfd_inv (h : Inv fdp) (env : Env) (fd newmin : Nat)
    (hcount : ∀ fp, fdGetfile fdp files fd = some fp → (files fp).fCount ≠ longMax - 2) :
    ∃ r, fDupfd longMax env fdp files fd newmin = some r ∧ Inv r.1 := by
  unfold fDupfd
  cases hget : fdGetfile fdp files fd with
  | none => exact ⟨_, rfl, h⟩
  | some fp =>
    split_ifs
    · exact ⟨_, rfl, h⟩
    obtain ⟨fdp', r, hr, hok⟩ := allocExpand_spec env newmin (env.lim + 1) fdp h (by omega)
    simp only [hr, Option.map_some]
    cases r with
    | error e => exact ⟨_, rfl, hok⟩
    | ok i =>
      obtain ⟨fdp0, hinv0, hm⟩ := hok
      exact ⟨_, rfl, finishdup_marked hinv0 hm (hcount fp hget)⟩

theorem sysDup2_inv (h : Inv fdp) (env : Env) (old new : Nat) :
    ∃ r, sysDup2 longMax env fdp files old new = some r ∧ Inv r.1 := by
  unfold sysDup2
  cases hget : fdGetfile fdp files old with
  | none => exact ⟨_, rfl, h⟩
  | some fp =>
    split_ifs with hlim hsame
    · exact ⟨_, rfl, h⟩
    · exact ⟨_, rfl, h⟩
    · obtain ⟨fdp', hr, hinv, hroom⟩ :=
        dup2Room_spec env (Nat.lt_of_not_le hlim) (env.lim + 1) fdp h (by omega)
      simp only [hr, Option.map_some]
      exact ⟨_, rfl, finishdup_room hinv hroom⟩

theorem falloc_inv (h : Inv fdp) (env : Env) (tablefull kqueue : Bool) :
    ∃ r, falloc env fdp files fp tablefull kqueue = some r ∧ Inv r.1 := by
  unfold falloc
  obtain ⟨fdp', r, hr, hok⟩ := allocExpand_spec env 0 (env.lim + 1) fdp h (by omega)
  simp only [hr, Option.map_some]
  cases r with
  | error e => exact ⟨_, rfl, hok⟩
  | ok i =>
    obtain ⟨fdp0, hinv0, hm⟩ := hok
    cases tablefull with
    | true => exact ⟨_, rfl, hm.giveBack hinv0⟩
    | false => exact ⟨_, rfl, hm.install hinv0 fp⟩

theorem fdrelease_inv (h : Inv fdp) {fd : Nat} (hfd : fd < fdp.fdNfiles) : Inv (fdrelease fdp files fd).1 := by
  unfold fdrelease
  cases fdp.fdOfiles fd with
  | none => exact h
  | some fp => exact inv_fdremove h hfd

/-! ## Copies -/

theorem dropKqueues_inv (fuel : Nat) : ∀ i fdp, Inv fdp → Inv (dropKqueues files fuel i fdp) := by
  induction fuel with
  | zero => exact fun _ _ h => h
  | succ fuel ih =>
    intro i fdp h
    unfold dropKqueues
    split_ifs with hi
    · cases hof : fdp.fdOfiles i with
      | none => exact ih (i + 1) fdp h
      | some fp =>
        refine ih (i + 1) _ ?_
        split_ifs
        · exact inv_fdremove h (Nat.lt_of_le_of_lt hi h.last_lt)
        · exact h
    · exact h

theorem copyRefs_inv (fuel : Nat) : ∀ i fdp files, Inv fdp → Inv (copyRefs longMax fuel i fdp files).1 := by
  induction fuel with
  | zero => exact fun _ _ _ h => h
  | succ fuel ih =>
    intro i fdp files h
    unfold copyRefs
    split_ifs with hi
    · cases hof : fdp.fdOfiles i with
      | none => exact ih (i + 1) fdp files h
      | some fp =>
        simp only
        split_ifs
        · exact ih (i + 1) _ files (inv_fdremove h (Nat.lt_of_le_of_lt hi h.last_lt))
        · exact ih (i + 1) fdp _ h
    · exact h

/-- A table of even size that is more than twice as large as needed can be halved. -/
theorem shrink_spec {lastfile : Nat} (fuel : Nat) : ∀ n k, n = 50 * 2 ^ k → lastfile < n →
    (∃ k, shrink lastfile fuel n = 50 * 2 ^ k) ∧ lastfile < shrink lastfile fuel n
      ∧ shrink lastfile fuel n ≤ n := by
  induction fuel with
  | zero => exact fun n k hn hlast => ⟨⟨k, hn⟩, hlast, Nat.le_refl n⟩
  | succ fuel ih =>
    intro n k hn hlast
    unfold shrink
    split_ifs with hhalf
    · unfold ndextent at hhalf
      cases k with
      | zero => omega
      | succ k =>
        have hdiv : n / 2 = 50 * 2 ^ k := by
          omega
        obtain ⟨hk, hlast', hle⟩ := ih (n / 2) k hdiv (by omega)
        exact ⟨hk, hlast', by omega⟩
    · exact ⟨⟨k, hn⟩, hlast, Nat.le_refl n⟩

theorem inv_copyTable (h : Inv fdp) {n : Nat} (hsize : n = 20 ∨ ∃ k, n = 50 * 2 ^ k)
    (hlast : fdp.fdLastfile < n) (hle : n ≤ fdp.fdNfiles) : Inv (copyTable fdp n) := by
  have hlo := ndloslots_mono hle
  have hhi := ndhislots_mono hle
  have hr : Resized fdp (copyTable fdp n) := by
    refine ⟨fun k => ?_, fun j hj => ?_, fun j hj => ?_, rfl, rfl⟩
    · show (if k < n then fdp.fdOfiles k else none) = fdp.fdOfiles k
      split_ifs with hk
      · rfl
      · by_contra hne
        have := h.last_max k (Option.isSome_iff_ne_none.mpr (Ne.symm hne))
        omega
    · have hj' : j < ndloslots n := hj
      rw [if_pos (Nat.lt_of_lt_of_le hj' hlo)]
      exact if_pos hj'
    · have hj' : j < ndhislots n := hj
      rw [if_pos (Nat.lt_of_lt_of_le hj' hhi)]
      exact if_pos hj'
  exact hr.inv h hsize hlast

theorem fdcopy_inv (h : Inv fdp) : Inv (fdcopy longMax fdp files).1 := by
  obtain ⟨n, hn, hsize, hlast, hle⟩ : ∃ n,
      (if fdp.fdLastfile < ndfile then ndfile else shrink fdp.fdLastfile fdp.fdNfiles fdp.fdNfiles) = n
        ∧ (n = 20 ∨ ∃ k, n = 50 * 2 ^ k) ∧ fdp.fdLastfile < n ∧ n ≤ fdp.fdNfiles := by
    have hll := h.last_lt
    split_ifs with hsmall
    · refine ⟨ndfile, rfl, .inl rfl, hsmall, ?_⟩
      unfold ndfile
      rcases h.size with h20 | ⟨k, hk⟩
      · omega
      · omega
    · unfold ndfile at hsmall
      rcases h.size with h20 | ⟨k, hk⟩
      · omega
      · obtain ⟨hk', hlast', hle⟩ := shrink_spec fdp.fdNfiles fdp.fdNfiles k hk hll
        exact ⟨_, rfl, .inr hk', hlast', hle⟩
  have hnew := inv_copyTable h hsize hlast hle
  unfold fdcopy
  simp only [hn]
  split_ifs
  · have hdrop : Inv (dropKqueues files ((copyTable fdp n).fdLastfile + 1) 0 (copyTable fdp n)) :=
      dropKqueues_inv _ _ _ hnew
    exact copyRefs_inv _ _ _ _ { hdrop with }
  · exact copyRefs_inv _ _ _ _ hnew

end

/-! ## Runs -/

/-- A file that is duplicated to a descriptor yet to be found can take one reference more. -/
def CanRef (longMax : Nat) (s : State) (t fd : Nat) : Prop :=
  ∀ fdp, s.tables[t]? = some fdp → ∀ fp, fdGetfile fdp s.files fd = some fp →
    (s.files fp).fCount ≠ longMax - 2

def DupOk (longMax : Nat) (s : State) : Act → Prop
  | .dup t old _ => CanRef longMax s t old
  | .dupfd t fd _ _ => CanRef longMax s t fd
  | _ => True

instance (longMax : Nat) (s : State) (t fd : Nat) : Decidable (CanRef longMax s t fd) :=
  inferInstanceAs (Decidable (∀ fdp ∈ s.tables[t]?, ∀ fp ∈ fdGetfile fdp s.files fd,
    (s.files fp).fCount ≠ longMax - 2))

instance (longMax : Nat) (s : State) : (a : Act) → Decidable (DupOk longMax s a)
  | .dup t old _ => inferInstanceAs (Decidable (CanRef longMax s t old))
  | .dupfd t fd _ _ => inferInstanceAs (Decidable (CanRef longMax s t fd))
  | .dup2 .. | .falloc .. | .mature _ | .release .. | .expand _ | .copy _ | .knlist .. | .internalize _ =>
    inferInstanceAs (Decidable True)

def AllInv (s : State) : Prop := ∀ fdp ∈ s.tables, Inv fdp

theorem AllInv.set {s : State} (h : AllInv s) (t : Nat) {fdp : Filedesc} (hinv : Inv fdp) :
    ∀ g ∈ s.tables.set t fdp, Inv g := by
  intro g hg
  rcases List.mem_or_eq_of_mem_set hg with hg | rfl
  · exact h g hg
  · exact hinv

/-- An operation on one table. -/
theorem AllInv.update {s s' : State} {t : Nat} {r : Option (Filedesc × Files × Except Errno Nat)}
    (h : AllInv s) (hr : ∃ res, r = some res ∧ Inv res.1) (hs : s.update t r = some s') : AllInv s' := by
  obtain ⟨res, rfl, hinv⟩ := hr
  obtain rfl := Option.some.inj hs
  exact h.set t hinv

theorem step_inv {longMax : Nat} (s : State) (a : Act) (s' : State) (hok : DupOk longMax s a)
    (hstep : step longMax s a = some s') (h : AllInv s) : AllInv s' := by
  have htable : ∀ {t fdp}, s.tables[t]? = some fdp → Inv fdp := fun ht => h _ (List.mem_of_getElem? ht)
  cases a with
  | dup t old env =>
    obtain ⟨fdp, ht, hs⟩ := Option.bind_eq_some_iff.mp hstep
    exact h.update (sysDup_inv (htable ht) env old (hok fdp ht)) hs
  | dup2 t old new env =>
    obtain ⟨fdp, ht, hs⟩ := Option.bind_eq_some_iff.mp hstep
    exact h.update (sysDup2_inv (htable ht) env old new) hs
  | dupfd t fd newmin env =>
    obtain ⟨fdp, ht, hs⟩ := Option.bind_eq_some_iff.mp hstep
    exact h.update (fDupfd_inv (htable ht) env fd newmin (hok fdp ht)) hs
  | falloc t env tablefull kqueue =>
    obtain ⟨fdp, ht, hs⟩ := Option.bind_eq_some_iff.mp hstep
    obtain ⟨s1, hs1, rfl⟩ := Option.map_eq_some_iff.mp hs
    have h1 : AllInv s1 := h.update (falloc_inv (htable ht) env tablefull kqueue) hs1
    exact h1
  | mature fp =>
    obtain rfl := Option.some.inj hstep
    exact h
  | release t fd =>
    obtain ⟨fdp, ht, hs⟩ := Option.bind_eq_some_iff.mp hstep
    split_ifs at hs with hfd
    exact h.update ⟨_, rfl, fdrelease_inv (htable ht) hfd⟩ hs
  | expand t =>
    obtain ⟨fdp, ht, rfl⟩ := Option.map_eq_some_iff.mp hstep
    exact h.set t (inv_fdexpand (htable ht)).1
  | copy t =>
    obtain ⟨fdp, ht, rfl⟩ := Option.map_eq_some_iff.mp hstep
    intro g hg
    rcases List.mem_append.mp hg with hg | hg
    · exact h g hg
    · obtain rfl := List.mem_singleton.mp hg
      exact fdcopy_inv (htable ht)
  | knlist t size =>
    obtain ⟨fdp, ht, rfl⟩ := Option.map_eq_some_iff.mp hstep
    exact h.set t { htable ht with }
  | internalize fp =>
    simp only [step] at hstep
    split_ifs at hstep
    · obtain rfl := Option.some.inj hstep
      exact h
    · obtain rfl := Option.some.inj hstep
      exact h

/-- **The tables stay in order.** In every state reached, every table has its maps, its hint
and its high-water mark right, and `fdalloc` gives the lowest free descriptor from `want` on
below both limits, or fails because there is none. -/
theorem fd_tables_runs (longMax : Nat) (s : State) (hrun : Runs (step longMax) (DupOk longMax) {} s) :
    ∀ fdp ∈ s.tables, Inv fdp ∧
      ∀ env want, ∃ r, fdalloc fdp env want = some r ∧ AllocOk fdp env want r := by
  have hkeep : ∀ s a s', DupOk longMax s a → step longMax s a = some s' → AllInv s → AllInv s' := step_inv
  have hinit : AllInv {} := by
    intro fdp hfdp
    obtain rfl := List.mem_singleton.mp hfdp
    exact inv_fdinit
  have hall : AllInv s := Runs.invariant hkeep hrun hinit
  intro fdp hfdp
  exact ⟨hall fdp hfdp, fun env want => fdalloc_spec (hall fdp hfdp) env want⟩

/-- A process opens a file and duplicates its descriptor. -/
theorem fd_tables_dup : ∃ s, Runs (step (2 ^ 31 - 1)) (DupOk (2 ^ 31 - 1)) {} s
    ∧ (s.tables.map fun fdp => (fdp.fdOfiles 0, fdp.fdOfiles 1, fdp.fdLastfile)) = [(some 0, some 0, 1)]
    ∧ ∀ fdp ∈ s.tables, Inv fdp ∧
      ∀ env want, ∃ r, fdalloc fdp env want = some r ∧ AllocOk fdp env want r := by
  have hsome : ((Runs.exec (step (2 ^ 31 - 1)) (fun s a => decide (DupOk (2 ^ 31 - 1) s a))
      [.falloc 0 { lim := 64 } false false, .mature 0, .dup 0 0 { lim := 64 }] {}).map fun s =>
        s.tables.map fun fdp => (fdp.fdOfiles 0, fdp.fdOfiles 1, fdp.fdLastfile))
      = some [(some 0, some 0, 1)] := by decide
  obtain ⟨s, hs, hlast⟩ := Option.map_eq_some_iff.mp hsome
  have hrun := Runs.of_exec (fun _ _ h => of_decide_eq_true h) _ hs
  exact ⟨s, hrun, hlast, fd_tables_runs _ s hrun⟩

/-- A file takes more and more references. -/
theorem runs_internalize {longMax fp : Nat} (n : Nat) : ∀ s : State, (s.files fp).fCount + n ≤ longMax - 2 →
    ∃ s', Runs (step longMax) (fun _ _ => True) s s' ∧ s'.tables = s.tables
      ∧ (s'.files fp).fCount = (s.files fp).fCount + n ∧ (s'.files fp).larval = (s.files fp).larval := by
  induction n with
  | zero => exact fun s _ => ⟨s, .refl, rfl, rfl, rfl⟩
  | succ n ih =>
    intro s hle
    have hstep : step longMax s (.internalize fp) = some { s with files := s.files.ref fp } :=
      if_neg (by omega)
    have hcount : (s.files.ref fp fp).fCount = (s.files fp).fCount + 1 := by simp [Files.ref, Files.modify]
    have hlarval : (s.files.ref fp fp).larval = (s.files fp).larval := by simp [Files.ref, Files.modify]
    obtain ⟨s', hrun, htables, hcount', hlarval'⟩ := ih { s with files := s.files.ref fp } (by
      show (s.files.ref fp fp).fCount + n ≤ longMax - 2
      omega)
    refine ⟨s', .head ⟨_, trivial, hstep⟩ hrun, htables, ?_, hlarval'.trans hlarval⟩
    rw [hcount']
    show (s.files.ref fp fp).fCount + n = _
    omega

/-- `dup` of a file that has all the references it can have: the descriptor allocated for it
stays marked and has no file. -/
theorem sysDup_leaks {longMax : Nat} {fdp : Filedesc} {files : Files} {env : Env} {old fp : Nat}
    (hget : fdGetfile fdp files old = some fp) (hcount : (files fp).fCount = longMax - 2)
    {fdp' : Filedesc} {i : Nat} (halloc : allocExpand env (env.lim + 1) fdp 0 = some (fdp', .ok i)) :
    sysDup longMax env fdp files old = some (fdp', files, .error .edeadlk) := by
  unfold sysDup
  rw [hget]
  simp only [halloc, Option.map_some]
  unfold finishdup
  rw [if_pos hcount]

/-- Without the condition: descriptor 1 stays marked when `dup` gives up on a file with
`LONG_MAX-2` references. -/
theorem fd_tables_deadlk : ¬∀ s, Runs (step (2 ^ 31 - 1)) (fun _ _ => True) {} s →
    ∀ fdp ∈ s.tables, Inv fdp ∧
      ∀ env want, ∃ r, fdalloc fdp env want = some r ∧ AllocOk fdp env want r := by
  intro hclaim
  have hsome : ((Runs.exec (step (2 ^ 31 - 1)) (fun _ _ => true)
      [.falloc 0 { lim := 64 } false false, .mature 0] {}).map fun s =>
        ((s.files 0).fCount, (s.files 0).larval, s.tables.map fun fdp =>
          (fdGetfile fdp (fun _ => {}) 0, (allocExpand { lim := 64 } 65 fdp 0).map fun r =>
            (r.1.fdNfiles, bit r.1.fdLomap 1, r.1.fdOfiles 1, r.2.toOption))))
      = some (1, false, [(some 0, some (20, true, none, some 1))]) := rfl
  obtain ⟨s, hs, hfacts⟩ := Option.map_eq_some_iff.mp hsome
  have hrun : Runs (step (2 ^ 31 - 1)) (fun _ _ => True) {} s := Runs.of_exec (fun _ _ _ => trivial) _ hs
  simp only [Prod.mk.injEq, List.map_eq_singleton_iff] at hfacts
  obtain ⟨hcount, hlarval, fdp, htables, hget, halloc⟩ := hfacts
  obtain ⟨⟨fdp', r⟩, halloc, hnf, hbit, hnone, hr⟩ : ∃ g, allocExpand { lim := 64 } 65 fdp 0 = some g
      ∧ g.1.fdNfiles = 20 ∧ bit g.1.fdLomap 1 = true ∧ g.1.fdOfiles 1 = none ∧ g.2.toOption = some 1 := by
    simpa using halloc
  have hroom : (s.files 0).fCount + (2 ^ 31 - 4) ≤ (2 ^ 31 - 1) - 2 := by omega
  obtain ⟨s', hrun', htables', hcount', hlarval'⟩ := runs_internalize (2 ^ 31 - 4) s hroom
  have hget' : fdGetfile fdp s'.files 0 = some 0 := by
    rw [hlarval] at hlarval'
    obtain ⟨h0, hof⟩ : 0 < fdp.fdNfiles ∧ fdp.fdOfiles 0 = some 0 := by simpa [fdGetfile] using hget
    simp [fdGetfile, h0, hof, hlarval']
  obtain rfl : r = .ok 1 := by
    cases r with
    | error e => cases hr
    | ok i => rw [Option.some.inj hr]
  have hdup : step (2 ^ 31 - 1) s' (.dup 0 0 { lim := 64 }) = some { s' with tables := [fdp'] } := by
    have hfull : (s'.files 0).fCount = (2 ^ 31 - 1) - 2 := by omega
    have hleak := sysDup_leaks hget' hfull halloc
    simp only [step, htables', htables, List.getElem?_cons_zero, Option.bind_some, State.update, hleak,
      Option.map_some, List.set_cons_zero]
  have hend := Relation.ReflTransGen.tail (hrun.trans hrun') ⟨_, trivial, hdup⟩
  have hinv := (hclaim _ hend fdp' (List.mem_singleton.mpr rfl)).1
  have hlo := hinv.lo 1 (by rw [hnf]; decide)
  rw [hbit, hnone] at hlo
  cases hlo
end Obsd.Fdesc
