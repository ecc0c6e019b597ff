import Mathlib
import Obsd.Fdesc

/-!
# Finding a free descriptor

`find_next_zero` gives the first clear bit from a position on, within more
words than it was asked for. `fdalloc` goes by the map of full words and
then by the map of descriptors, possibly on into the words that follow;
what it may read behind the end of either map is beyond every descriptor
of the table, so the answer does not depend on it (`fdalloc_spec`).
-/

namespace Obsd.Fdesc

open Bitmap

/-! ## `find_next_zero` -/

section
variable {bitmap : Nat → BitVec 32}

/-- A word that is not full, its lower bits aside, has the bit that is given. -/
theorem first_clear {sub : BitVec 32} {off i : Nat} (hi : i < 32)
    (hsub : ∀ b < 32, sub.getLsbD b = ((bitmap off).getLsbD b || decide (b < i)))
    (hne : sub ≠ BitVec.allOnes 32) :
    ∃ m, off * 32 + ffs (~~~sub) - 1 = m ∧ off * 32 + i ≤ m ∧ m < (off + 1) * 32
      ∧ bit bitmap m = false ∧ ∀ k, off * 32 + i ≤ k → k < m → bit bitmap k = true := by
  obtain ⟨b, hb, hffs, hclear, hbefore⟩ := ffs_not hne
  have hb' := hsub b hb
  rw [hclear, eq_comm, Bool.or_eq_false_iff, decide_eq_false_iff_not] at hb'
  refine ⟨32 * off + b, by omega, by omega, by omega, ?_, fun k hk1 hk2 => ?_⟩
  · rw [bit_mul_add bitmap hb]
    exact hb'.1
  · obtain ⟨c, rfl⟩ : ∃ c, k = 32 * off + c := ⟨k - 32 * off, by omega⟩
    have hc := hsub c (by omega)
    have hci : ¬c < i := by omega
    rw [hbefore c (by omega), decide_eq_false hci, Bool.or_false] at hc
    rw [bit_mul_add bitmap (by omega)]
    exact hc.symm

theorem scanWords_some (n : Nat) : ∀ off m, scanWords bitmap n off = some m →
    off * 32 ≤ m ∧ bit bitmap m = false ∧ ∀ k, off * 32 ≤ k → k < m → bit bitmap k = true := by
  induction n with
  | zero => exact fun _ _ h => nomatch h
  | succ n ih =>
    intro off m h
    unfold scanWords at h
    split_ifs at h with hne
    · have hsub : ∀ b < 32, (bitmap off).getLsbD b = ((bitmap off).getLsbD b || decide (b < 0)) := by
        simp
      obtain ⟨m', hm', hle, -, hclear, hbefore⟩ := first_clear (by omega) hsub hne
      obtain rfl : m = m' := by rw [← hm']; exact (Option.some.inj h).symm
      exact ⟨hle, hclear, hbefore⟩
    · obtain ⟨hle, hclear, hbefore⟩ := ih (off + 1) m h
      rw [ne_eq, not_not] at hne
      refine ⟨by omega, hclear, fun k hk1 hk2 => ?_⟩
      rcases Nat.lt_or_ge k ((off + 1) * 32) with hlt | hge
      · refine bit_of_allOnes (by decide) ?_
        rw [show k / 32 = off by omega]
        exact hne
      · exact hbefore k hge hk2

theorem scanWords_none (n : Nat) : ∀ off, scanWords bitmap n off = none →
    ∀ k, off * 32 ≤ k → k < (off + n) * 32 → bit bitmap k = true := by
  induction n with
  | zero =>
    intro off _ k hk1 hk2
    omega
  | succ n ih =>
    intro off h k hk1 hk2
    unfold scanWords at h
    split_ifs at h with hne
    rw [ne_eq, not_not] at hne
    rcases Nat.lt_or_ge k ((off + 1) * 32) with hlt | hge
    · refine bit_of_allOnes (by decide) ?_
      rw [show k / 32 = off by omega]
      exact hne
    · exact ih (off + 1) h k hge (by omega)

/-- The lower bits of the first word are taken as set. -/
theorem getLsbD_sub (v : BitVec 32) {i : Nat} (hi : i < 32) (b : Nat) :
    (v ||| (BitVec.allOnes 32 >>> (32 - i))).getLsbD b = (v.getLsbD b || decide (b < i)) := by
  rw [BitVec.getLsbD_or, BitVec.getLsbD_ushiftRight, BitVec.getLsbD_allOnes]
  congr 1
  rw [decide_eq_decide]
  omega

/-- The first word is full from `want` on. -/
theorem bit_of_sub {want k : Nat}
    (hsub : (bitmap (want / 32) ||| (BitVec.allOnes 32 >>> (32 - want % 32))) = BitVec.allOnes 32)
    (hk1 : want ≤ k) (hk2 : k < (want / 32 + 1) * 32) : bit bitmap k = true := by
  obtain ⟨c, rfl⟩ : ∃ c, k = 32 * (want / 32) + c := ⟨k - 32 * (want / 32), by omega⟩
  have hc32 : c < 32 := by omega
  have hci : ¬c < want % 32 := by omega
  have hc := getLsbD_sub (bitmap (want / 32)) (Nat.mod_lt want (show 0 < 32 by decide)) c
  rw [hsub, BitVec.getLsbD_allOnes, decide_eq_true hc32, decide_eq_false hci, Bool.or_false] at hc
  rw [bit_mul_add bitmap hc32]
  exact hc.symm

theorem findNextZero_eq (want bits : Nat) : findNextZero bitmap want bits =
    if want > bits then none
    else if want % 32 ≠ 0 then
      if (bitmap (want / 32) ||| (BitVec.allOnes 32 >>> (32 - want % 32))) ≠ BitVec.allOnes 32 then
        some (want / 32 * 32
          + ffs (~~~(bitmap (want / 32) ||| (BitVec.allOnes 32 >>> (32 - want % 32)))) - 1)
      else scanWords bitmap (ndloslots bits - (want / 32 + 1)) (want / 32 + 1)
    else scanWords bitmap (ndloslots bits - want / 32) (want / 32) := rfl

theorem findNextZero_some {want bits m : Nat} (h : findNextZero bitmap want bits = some m) :
    want ≤ bits ∧ want ≤ m ∧ bit bitmap m = false ∧ ∀ k, want ≤ k → k < m → bit bitmap k = true := by
  have hmod := Nat.mod_lt want (show 0 < 32 by decide)
  rw [findNextZero_eq] at h
  rcases Nat.lt_or_ge bits want with hbits | hbits
  · rw [if_pos hbits] at h
    cases h
  rw [if_neg (Nat.not_lt.mpr hbits)] at h
  refine ⟨hbits, ?_⟩
  by_cases hi : want % 32 = 0
  · rw [if_neg (not_not.mpr hi)] at h
    obtain ⟨hle, hclear, hbefore⟩ := scanWords_some _ _ m h
    exact ⟨by omega, hclear, fun k hk => hbefore k (by omega)⟩
  rw [if_pos hi] at h
  by_cases hsub : (bitmap (want / 32) ||| (BitVec.allOnes 32 >>> (32 - want % 32))) = BitVec.allOnes 32
  · rw [if_neg (not_not.mpr hsub)] at h
    obtain ⟨hle, hclear, hbefore⟩ := scanWords_some _ _ m h
    refine ⟨by omega, hclear, fun k hk1 hk2 => ?_⟩
    rcases Nat.lt_or_ge k ((want / 32 + 1) * 32) with hlt | hge
    · exact bit_of_sub hsub hk1 hlt
    · exact hbefore k hge hk2
  · rw [if_pos hsub] at h
    obtain ⟨m', hm', hle, -, hclear, hbefore⟩ :=
      first_clear hmod (fun b _ => getLsbD_sub (bitmap (want / 32)) hmod b) hsub
    obtain rfl : m = m' := by rw [← hm']; exact (Option.some.inj h).symm
    exact ⟨by omega, hclear, fun k hk => hbefore k (by omega)⟩

theorem findNextZero_none {want bits : Nat} (h : findNextZero bitmap want bits = none) :
    bits < want ∨ ∀ k, want ≤ k → k < ndloslots bits * 32 → bit bitmap k = true := by
  rw [findNextZero_eq] at h
  rcases Nat.lt_or_ge bits want with hbits | hbits
  · exact .inl hbits
  rw [if_neg (Nat.not_lt.mpr hbits)] at h
  refine .inr fun k hk1 hk2 => ?_
  by_cases hi : want % 32 = 0
  · rw [if_neg (not_not.mpr hi)] at h
    exact scanWords_none _ _ h k (by omega) (by omega)
  rw [if_pos hi] at h
  by_cases hsub : (bitmap (want / 32) ||| (BitVec.allOnes 32 >>> (32 - want % 32))) = BitVec.allOnes 32
  · rw [if_neg (not_not.mpr hsub)] at h
    rcases Nat.lt_or_ge k ((want / 32 + 1) * 32) with hlt | hge
    · exact bit_of_sub hsub hk1 hlt
    · exact scanWords_none _ _ h k hge (by omega)
  · rw [if_pos hsub] at h
    cases h

end

/-! ## Sizes -/

theorem le_ndreduce (x : Nat) : x ≤ ndreduce x * 32 := by
  unfold ndreduce ndentries
  omega

theorem le_ndloslots (x : Nat) : x ≤ ndloslots x * 32 := by
  have h1 := le_ndreduce x
  have h2 := le_ndreduce (ndreduce x)
  unfold ndloslots ndhislots ndentries
  omega

theorem ndloslots_eq (x : Nat) : ndloslots x = ndhislots x * 32 := rfl

/-! ## The invariant of a table -/

structure Inv (fdp : Filedesc) : Prop where
  size : fdp.fdNfiles = 20 ∨ ∃ k, fdp.fdNfiles = 50 * 2 ^ k
  outside : ∀ i, fdp.fdNfiles ≤ i → fdp.fdOfiles i = none
  lo : ∀ i < ndloslots fdp.fdNfiles * 32, bit fdp.fdLomap i = (fdp.fdOfiles i).isSome
  hi : ∀ j < ndloslots fdp.fdNfiles, bit fdp.fdHimap j = decide (fdp.fdLomap j = BitVec.allOnes 32)
  free : ∀ i < fdp.fdFreefile, (fdp.fdOfiles i).isSome
  last_lt : fdp.fdLastfile < fdp.fdNfiles
  last_max : ∀ i, (fdp.fdOfiles i).isSome → i ≤ fdp.fdLastfile
  last_used : (fdp.fdOfiles fdp.fdLastfile).isSome ∨ fdp.fdLastfile = 0

theorem inv_fdinit : Inv {} where
  size := .inl rfl
  outside := fun _ _ => rfl
  lo := by simp [bit]
  hi := by simp [bit]
  free := nofun
  last_lt := by decide
  last_max := nofun
  last_used := .inr rfl

section
variable {fdp : Filedesc} (hinv : Inv fdp) (env : Env)
include hinv

/-- What is read of the maps, as far as they go. -/
theorem bit_lomap {n : Nat} (hn : n < ndloslots fdp.fdNfiles * 32) :
    bit (fdp.lomap env) n = (fdp.fdOfiles n).isSome := by
  rw [← hinv.lo n hn, bit, bit, Filedesc.lomap, if_pos (by omega)]

theorem used_of_himap {n : Nat} (hn : n < ndloslots fdp.fdNfiles * 32)
    (hbit : bit (fdp.himap env) (n / 32) = true) : (fdp.fdOfiles n).isSome := by
  have hj : n / 32 < ndloslots fdp.fdNfiles := by omega
  have hword : n / 32 / 32 < ndhislots fdp.fdNfiles := by
    rw [ndloslots_eq] at hj
    omega
  rw [bit, Filedesc.himap, if_pos hword] at hbit
  have hfull := hinv.hi (n / 32) hj
  rw [bit, hbit] at hfull
  rw [← hinv.lo n hn]
  exact bit_of_allOnes (by decide) (of_decide_eq_true hfull.symm)

omit hinv in
/-- The bits of the words from `new` on. -/
theorem bit_lomap_add (new k : Nat) :
    bit (fun k => fdp.lomap env (new + k)) k = bit (fdp.lomap env) (k + new * 32) := by
  rw [bit, bit, Nat.add_mul_div_right _ _ (by decide), Nat.add_mul_mod_self_right, Nat.add_comm]

/-- The search through both maps, from `i` on, until it finds bit `j` of the words from
`new` on. -/
theorem search_some {i bits new j : Nat} (hnew : findNextZero (fdp.himap env) (i / 32) bits = some new)
    (hj : findNextZero (fun k => fdp.lomap env (new + k)) (if new > i / 32 then 0 else i % 32) 32 = some j) :
    i ≤ j + new * 32 ∧ (∀ n, i ≤ n → n < j + new * 32 → n < ndloslots fdp.fdNfiles * 32 →
        (fdp.fdOfiles n).isSome) ∧
      (j + new * 32 < ndloslots fdp.fdNfiles * 32 → fdp.fdOfiles (j + new * 32) = none) := by
  obtain ⟨-, hoff, -, hfull⟩ := findNextZero_some hnew
  obtain ⟨-, hstart, hclear, hset⟩ := findNextZero_some hj
  refine ⟨by split_ifs at hstart <;> omega, fun n hn1 hn2 hn3 => ?_, fun hin => ?_⟩
  · rcases Nat.lt_or_ge (n / 32) new with hlt | hge
    · exact used_of_himap hinv env hn3 (hfull (n / 32) (Nat.div_le_div_right hn1) hlt)
    · have hk := hset (n - new * 32) (by split_ifs <;> omega) (by omega)
      rw [bit_lomap_add, Nat.sub_add_cancel (by omega), bit_lomap hinv env hn3] at hk
      exact hk
  · rw [bit_lomap_add, bit_lomap hinv env hin] at hclear
    exact Option.not_isSome_iff_eq_none.mp (by rw [hclear]; exact Bool.false_ne_true)

/-- No free descriptor in the words from `i` on, up to the last that is looked at. -/
theorem search_none {i bits : Nat} (hnew : findNextZero (fdp.himap env) (i / 32) bits = none) :
    ∀ n, i ≤ n → n < bits * 32 → n < ndloslots fdp.fdNfiles * 32 → (fdp.fdOfiles n).isSome := by
  intro n hn1 hn2 hn3
  rcases findNextZero_none hnew with hlt | hall
  · omega
  · have hle := le_ndloslots bits
    exact used_of_himap hinv env hn3 (hall (n / 32) (Nat.div_le_div_right hn1) (by omega))

/-- The word was full from `i` on, and so are the words behind it. -/
theorem search_restart {i bits new : Nat} (hnew : findNextZero (fdp.himap env) (i / 32) bits = some new)
    (hj : findNextZero (fun k => fdp.lomap env (new + k)) (if new > i / 32 then 0 else i % 32) 32 = none) :
    i / 32 ≤ bits ∧ i / 32 ≤ new ∧ ∀ n, i ≤ n → n < (new + 1) * 32 → n < ndloslots fdp.fdNfiles * 32 →
      (fdp.fdOfiles n).isSome := by
  obtain ⟨hbits, hoff, -, hfull⟩ := findNextZero_some hnew
  refine ⟨hbits, hoff, fun n hn1 hn2 hn3 => ?_⟩
  rcases Nat.lt_or_ge (n / 32) new with hlt | hge
  · exact used_of_himap hinv env hn3 (hfull (n / 32) (Nat.div_le_div_right hn1) hlt)
  · rcases findNextZero_none hj with hlt | hall
    · split_ifs at hlt <;> omega
    · have hk := hall (n - new * 32) (by split_ifs <;> omega) (by
        show n - new * 32 < 32 * 32
        omega)
      rw [bit_lomap_add, Nat.sub_add_cancel (by omega), bit_lomap hinv env hn3] at hk
      exact hk

/-- What `fdalloc` is for: the lowest descriptor from `want` on that is free and below both
limits, or an error that says which limit it is. -/
def AllocOk (fdp : Filedesc) (env : Env) (want : Nat) : Alloc → Prop
  | .ok fdp' i => want ≤ i ∧ i < min fdp.fdNfiles env.lim ∧ fdp.fdOfiles i = none
      ∧ (∀ n, want ≤ n → n < i → (fdp.fdOfiles n).isSome)
      ∧ ∃ freefile, fdp' = { fdUsed fdp i with fdFreefile := freefile }
        ∧ ∀ n < freefile, (fdp.fdOfiles n).isSome
  | .emfile => env.lim ≤ fdp.fdNfiles
      ∧ ∀ n, want ≤ n → n < min fdp.fdNfiles env.lim → (fdp.fdOfiles n).isSome
  | .enospc => fdp.fdNfiles < env.lim
      ∧ ∀ n, want ≤ n → n < min fdp.fdNfiles env.lim → (fdp.fdOfiles n).isSome

omit hinv in
/-- The descriptors up to a higher `want` are all taken, so asking for that is the same. -/
theorem AllocOk.lower {want want' : Nat} (hle : want ≤ want')
    (hused : ∀ n, want ≤ n → n < want' → n < fdp.fdNfiles → (fdp.fdOfiles n).isSome) {r : Alloc}
    (h : AllocOk fdp env want' r) : AllocOk fdp env want r := by
  cases r with
  | ok fdp' i =>
    obtain ⟨hwant, hlast, hfree, hbelow, hrest⟩ := h
    refine ⟨by omega, hlast, hfree, fun n hn1 hn2 => ?_, hrest⟩
    rcases Nat.lt_or_ge n want' with hlt | hge
    · exact hused n hn1 hlt (by omega)
    · exact hbelow n hge hn2
  | emfile =>
    refine ⟨h.1, fun n hn1 hn2 => ?_⟩
    rcases Nat.lt_or_ge n want' with hlt | hge
    · exact hused n hn1 hlt (by omega)
    · exact h.2 n hge hn2
  | enospc =>
    refine ⟨h.1, fun n hn1 hn2 => ?_⟩
    rcases Nat.lt_or_ge n want' with hlt | hge
    · exact hused n hn1 hlt (by omega)
    · exact h.2 n hge hn2

/-- By induction on the restarts that are left. -/
theorem fdallocLoop_spec (fuel : Nat) : ∀ want,
    ndreduce (min fdp.fdNfiles env.lim) + 1 - max want fdp.fdFreefile / 32 < fuel →
    ∃ r, fdallocLoop fdp env fuel want = some r ∧ AllocOk fdp env want r := by
  induction fuel with
  | zero =>
    intro want hfuel
    omega
  | succ fuel ih =>
    intro want hfuel
    have hi : (if want < fdp.fdFreefile then fdp.fdFreefile else want) = max want fdp.fdFreefile := by
      split_ifs <;> omega
    have hslots := le_ndloslots fdp.fdNfiles
    have hbits := le_ndreduce (min fdp.fdNfiles env.lim)
    -- below the hint everything is taken
    have hlow : ∀ n, want ≤ n → n < max want fdp.fdFreefile → (fdp.fdOfiles n).isSome := by
      intro n hn1 hn2
      exact hinv.free n (by omega)
    have hfail : (∀ n, max want fdp.fdFreefile ≤ n → n < min fdp.fdNfiles env.lim → (fdp.fdOfiles n).isSome) →
        AllocOk fdp env want (if fdp.fdNfiles ≥ env.lim then .emfile else .enospc) := by
      intro hall
      have hall' : ∀ n, want ≤ n → n < min fdp.fdNfiles env.lim → (fdp.fdOfiles n).isSome := by
        intro n hn1 hn2
        rcases Nat.lt_or_ge n (max want fdp.fdFreefile) with hlt | hge
        · exact hlow n hn1 hlt
        · exact hall n hge hn2
      split_ifs with hlim
      · exact ⟨hlim, hall'⟩
      · exact ⟨Nat.lt_of_not_le hlim, hall'⟩
    rw [fdallocLoop]
    simp only [hi]
    generalize hmax : max want fdp.fdFreefile = i at hfuel hlow hfail
    cases hnew : findNextZero (fdp.himap env) (i / ndentries)
        ((min fdp.fdNfiles env.lim + ndentries - 1) / ndentries) with
    | none =>
      refine ⟨_, rfl, hfail fun n hn1 hn2 => ?_⟩
      exact search_none hinv env hnew n hn1 (Nat.lt_of_lt_of_le hn2 hbits) (by omega)
    | some new =>
      simp only
      cases hj : findNextZero (fun k => fdp.lomap env (new + k))
          (if new > i / ndentries then 0 else i % ndentries) ndentries with
      | none =>
        obtain ⟨hoff, hoff', hused⟩ := search_restart hinv env hnew hj
        have hoffset : i / 32 ≤ ndreduce (min fdp.fdNfiles env.lim) := hoff
        obtain ⟨r, hr, hok⟩ := ih ((new + 1) * 32) (by omega)
        refine ⟨r, hr, hok.lower env (by omega) fun n hn1 hn2 hn3 => ?_⟩
        rcases Nat.lt_or_ge n i with hlt | hge
        · exact hlow n hn1 hlt
        · exact hused n hge hn2 (by omega)
      | some j =>
        obtain ⟨hle, hused, hclear⟩ := search_some hinv env hnew hj
        simp only
        rcases Nat.lt_or_ge (j + new * 32) (min fdp.fdNfiles env.lim) with hlast | hlast
        · have hbelow : ∀ n, want ≤ n → n < j + new * 32 → (fdp.fdOfiles n).isSome := by
            intro n hn1 hn2
            rcases Nat.lt_or_ge n i with hlt | hge
            · exact hlow n hn1 hlt
            · exact hused n hge hn2 (by omega)
          have hwant : want ≤ j + new * 32 := by omega
          rw [if_pos (show j + new * ndentries < min fdp.fdNfiles env.lim from hlast)]
          refine ⟨_, rfl, hwant, hlast, hclear (by omega), hbelow, _, rfl, fun n hn => ?_⟩
          have hfree : (fdUsed fdp (j + new * ndentries)).fdFreefile = fdp.fdFreefile := rfl
          split_ifs at hn with hhint
          · rcases Nat.lt_or_ge n want with hlt | hge
            · exact hinv.free n (by omega)
            · exact hbelow n hge hn
          · exact hinv.free n hn
        · rw [if_neg (show ¬j + new * ndentries < min fdp.fdNfiles env.lim from Nat.not_lt.mpr hlast)]
          exact ⟨_, rfl, hfail fun n hn1 hn2 => hused n hn1 (by omega) (by omega)⟩

/-- **`fdalloc` gives the lowest free descriptor** from `want` on, or fails if there is
none, and it always returns. -/
theorem fdalloc_spec (want : Nat) : ∃ r, fdalloc fdp env want = some r ∧ AllocOk fdp env want r :=
  fdallocLoop_spec hinv env _ want (by omega)

end

end Obsd.Fdesc
