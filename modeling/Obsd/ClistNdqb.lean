import Obsd.ClistReach

/-!
# Counting the characters at the front

`ndqb` of `tty_subr.c` counts the characters that a driver may take at
once: those from the first on that are next to each other in the buffer,
up to one with a bit of `flag`. Without `TTY_QUOTE` in `flag` the count is
right. With it the loop looks at the quote bit after it has moved on, so
at each character it tests the bit of the place behind it.
-/

namespace Obsd.Tty

/-! ## The code -/

/-- `TTY_QUOTE` -/
def ttyQuote : BitVec 32 := 0x100#32

/-- `c & flag`, for a byte of the buffer. -/
def flagged (c : UInt8) (flag : BitVec 32) : Bool := c.toBitVec.setWidth 32 &&& flag != 0#32

/-- `isset` where nobody asks whether there is an array. -/
def quoteBit (q : Clist) (i : Nat) : Option Bool :=
  match q.cq with
  | none => none
  | some map => if i / 8 < qmem q.cn then some (Bitmap.bit map i) else none

/-- The loop of `ndqb` with `TTY_QUOTE`, where `cc` characters are left. -/
def ndqbQuoteLoop (q : Clist) (flag : BitVec 32) : (cc i count : Nat) → Option Nat
  | 0, _, count => some count
  | cc + 1, i, count => do
    let c ← byteAt q i
    -- `c_cs[i++]`: from here on the index is that of the next place
    let i := i + 1
    if flagged c (flag &&& ~~~ttyQuote) then some count
    else if ← quoteBit q i then some count
    else if i = q.cn then some (count + 1)
    else ndqbQuoteLoop q flag cc i (count + 1)

def ndqbLoop (q : Clist) (flag : BitVec 32) : (cc i count : Nat) → Option Nat
  | 0, _, count => some count
  | cc + 1, i, count => do
    let c ← byteAt q i
    let i := i + 1
    if flagged c flag then some count
    else if i = q.cn then some (count + 1)
    else ndqbLoop q flag cc i (count + 1)

def ndqb (q : Clist) (flag : BitVec 32) : Option Nat :=
  if q.cc = 0 then some 0
  else do
    let f ← q.cf
    if flag = 0#32 then
      let l ← q.cl
      some (stretch q f l)
    else if flag &&& ttyQuote ≠ 0#32 then ndqbQuoteLoop q flag q.cc f 0
    else ndqbLoop q flag q.cc f 0

/-! ## What it should count -/

/-- A character without a bit of `flag`. -/
def counted (flag : BitVec 32) (c : Chr) : Bool :=
  !flagged c.1 flag && !(flag &&& ttyQuote != 0#32 && c.2)

/-- The number of characters before the end of the buffer. -/
def straight (q : Clist) : Nat :=
  match q.cf with
  | none => 0
  | some f => min q.cc (q.cn - f)

/-- The characters of the first `k` are next to each other, and none has a bit of `flag`. -/
def Takeable (q : Clist) (flag : BitVec 32) (k : Nat) : Prop :=
  k ≤ straight q ∧ ∀ c ∈ (contents q).take k, counted flag c = true

/-- Where the quote bit of the wrong place does no harm: it is not asked for; the first
character is not counted for its own bits, or for its quote bit and the next place has one
too; or there are no quote bits as far as the loop gets, which is one place further than it
counts. -/
def Steady (q : Clist) (flag : BitVec 32) : Prop :=
  flag &&& ttyQuote = 0#32 ∨ ∀ f, q.cf = some f →
    flagged (q.cs f) flag = true
    ∨ (quoteBit q f = some true ∧ quoteBit q (f + 1) = some true)
    ∨ ∀ j ≤ straight q, (∀ i < j, flagged (q.cs (f + i)) flag = false) →
      quoteBit q (f + j) = some false

/-- The longest prefix of a list is the longest one whose members all pass. -/
theorem isGreatest_takeWhile {α : Type*} (p : α → Bool) (l : List α) :
    IsGreatest {k | k ≤ l.length ∧ ∀ a ∈ l.take k, p a = true} (l.takeWhile p).length := by
  constructor
  · refine ⟨(List.takeWhile_sublist p).length_le, fun a ha => ?_⟩
    have hpre : l.take (l.takeWhile p).length = l.takeWhile p :=
      (List.prefix_iff_eq_take.mp (List.takeWhile_prefix p)).symm
    rw [hpre] at ha
    exact List.mem_takeWhile_imp ha
  · intro k ⟨hk, hall⟩
    induction l generalizing k with
    | nil => exact hk
    | cons b l ih =>
      cases k with
      | zero => exact Nat.zero_le _
      | succ k =>
        rw [List.takeWhile_cons, if_pos (hall b List.mem_cons_self)]
        exact Nat.succ_le_succ (ih (Nat.le_of_succ_le_succ hk)
          fun a ha => hall a (List.mem_cons_of_mem b ha))

/-- The characters from place `i` on, of which `n` are next to each other. -/
def stored (q : Clist) (i n : Nat) : List Chr := (List.range' i n).map (slot q)

theorem stored_succ (q : Clist) (i n : Nat) : stored q i (n + 1) = slot q i :: stored q (i + 1) n := rfl

theorem length_stored (q : Clist) (i n : Nat) : (stored q i n).length = n := by
  rw [stored, List.length_map, List.length_range']

variable {q : Clist} {f i cc count : Nat} {flag : BitVec 32}

theorem Placed.straight_eq (hp : Placed q f) : straight q = min q.cc (q.cn - f) := by
  rw [straight, hp.cf]

theorem Placed.take_straight (hp : Placed q f) :
    (contents q).take (straight q) = stored q f (straight q) := by
  have lt := hp.lt
  have hs := hp.straight_eq
  rw [hp.contents_eq, RingBuf.take_window (by omega), RingBuf.window_straight _ (by omega), stored,
    List.range'_eq_map_range, List.map_map]
  rfl

/-- How many should be counted. -/
theorem Placed.isGreatest (hp : Placed q f) (flag : BitVec 32) :
    IsGreatest {k | Takeable q flag k} ((stored q f (straight q)).takeWhile (counted flag)).length := by
  have hgreat := isGreatest_takeWhile (counted flag) (stored q f (straight q))
  rw [length_stored, ← hp.take_straight] at hgreat
  rw [← hp.take_straight]
  have hset : {k | Takeable q flag k}
      = {k | k ≤ straight q ∧ ∀ a ∈ ((contents q).take (straight q)).take k, counted flag a = true} := by
    ext k
    refine and_congr_right fun hk => ?_
    rw [List.take_take, Nat.min_eq_left hk]
  rw [hset]
  exact hgreat

/-! ## The loops -/

theorem ttyQuote_low : ∀ b : Fin 8, ttyQuote[b.val] = false := by decide

/-- A byte has no bit in common with `TTY_QUOTE`. -/
theorem flagged_and (c : UInt8) (flag : BitVec 32) : flagged c (flag &&& ~~~ttyQuote) = flagged c flag := by
  have hsame : c.toBitVec.setWidth 32 &&& (flag &&& ~~~ttyQuote) = c.toBitVec.setWidth 32 &&& flag := by
    ext b hb
    simp only [BitVec.getElem_and, BitVec.getElem_not, BitVec.getElem_setWidth]
    by_cases h8 : b < 8
    · rw [ttyQuote_low ⟨b, h8⟩, Bool.not_false, Bool.and_true]
    · rw [BitVec.getLsbD_of_ge _ _ (Nat.le_of_not_lt h8), Bool.false_and, Bool.false_and]
  rw [flagged, flagged, hsame]

theorem counted_of_quote (hq : flag &&& ttyQuote ≠ 0#32) (c : Chr) :
    counted flag c = (!flagged c.1 flag && !c.2) := by
  rw [counted, bne_iff_ne.mpr hq, Bool.true_and]

theorem counted_of_no_quote (hq : flag &&& ttyQuote = 0#32) (c : Chr) :
    counted flag c = !flagged c.1 flag := by
  rw [counted, hq, bne_self_eq_false, Bool.false_and, Bool.not_false, Bool.and_true]

theorem min_succ_sub (h : i < q.cn) : min (cc + 1) (q.cn - i) = min cc (q.cn - (i + 1)) + 1 := by
  omega

theorem ndqbLoop_eq (hq : flag &&& ttyQuote = 0#32) (h : i < q.cn) :
    ndqbLoop q flag cc i count
      = some (count + ((stored q i (min cc (q.cn - i))).takeWhile (counted flag)).length) := by
  induction cc generalizing i count with
  | zero =>
    rfl
  | succ cc ih =>
    rw [ndqbLoop, byteAt, if_pos h, min_succ_sub h, stored_succ, List.takeWhile_cons,
      counted_of_no_quote hq]
    simp only [Option.bind_eq_bind, Option.bind_some]
    cases hflag : flagged (q.cs i) flag with
    | true => simp [slot, hflag]
    | false =>
      simp only [slot, hflag, Bool.not_false, if_true, Bool.false_eq_true, if_false, List.length_cons]
      split
      · rename_i hend
        rw [hend, Nat.sub_self, Nat.min_zero]
        rfl
      · rw [ih (by omega), Nat.add_assoc, Nat.add_comm 1]

/-- What the loop finds at a place. -/
theorem ndqbQuoteLoop_succ (h : i < q.cn) :
    ndqbQuoteLoop q flag (cc + 1) i count =
      if flagged (q.cs i) flag then some count
      else (quoteBit q (i + 1)).bind fun b =>
        if b then some count
        else if i + 1 = q.cn then some (count + 1)
        else ndqbQuoteLoop q flag cc (i + 1) (count + 1) := by
  rw [ndqbQuoteLoop, byteAt, if_pos h]
  simp only [Option.bind_eq_bind, Option.bind_some, flagged_and]

theorem le_of_ndqbQuoteLoop {k : Nat} (hk : ndqbQuoteLoop q flag cc i count = some k) : count ≤ k := by
  induction cc generalizing i count with
  | zero => exact (Option.some.inj hk).le
  | succ cc ih =>
    obtain ⟨c, -, hk⟩ := Option.bind_eq_some_iff.mp hk
    split at hk
    · exact (Option.some.inj hk).le
    · obtain ⟨b, -, hk⟩ := Option.bind_eq_some_iff.mp hk
      split at hk
      · exact (Option.some.inj hk).le
      · split at hk
        · exact (Nat.le_succ count).trans (Option.some.inj hk).le
        · exact (Nat.le_succ count).trans (ih hk)

theorem quoteBit_eq (hsome : q.cq.isSome = true) (h : i < q.cn) : quoteBit q i = some (quoteAt q.cq i) := by
  obtain ⟨map, hmap⟩ := Option.isSome_iff_exists.mp hsome
  simp only [quoteBit, quoteAt, hmap]
  exact if_pos (lt_qmem h)

/-- From a place without a quote bit on, the count is right exactly if there are no quote bits
as far as the loop gets. -/
theorem ndqbQuoteLoop_eq_iff (hq : flag &&& ttyQuote ≠ 0#32) (hsome : q.cq.isSome = true) (h : i < q.cn)
    (hbit : quoteBit q i = some false) :
    ndqbQuoteLoop q flag cc i count
        = some (count + ((stored q i (min cc (q.cn - i))).takeWhile (counted flag)).length)
      ↔ ∀ j ≤ min cc (q.cn - i), (∀ d < j, flagged (q.cs (i + d)) flag = false) →
        quoteBit q (i + j) = some false := by
  induction cc generalizing i count with
  | zero =>
    refine iff_of_true rfl fun j hj _ => ?_
    rwa [Nat.le_zero.mp hj]
  | succ cc ih =>
    have hown : quoteAt q.cq i = false := by
      rw [quoteBit_eq hsome h] at hbit
      exact Option.some.inj hbit
    rw [ndqbQuoteLoop_succ h, min_succ_sub h, stored_succ, List.takeWhile_cons, counted_of_quote hq]
    cases hflag : flagged (q.cs i) flag with
    | true =>
      refine iff_of_true (by simp [slot, hflag]) fun j hj hclean => ?_
      cases j with
      | zero => exact hbit
      | succ j =>
        have h0 := hclean 0 (Nat.succ_pos j)
        rw [Nat.add_zero, hflag] at h0
        cases h0
    | false =>
      simp only [slot, hflag, hown, Bool.not_false, Bool.and_self, if_true, Bool.false_eq_true,
        if_false, List.length_cons]
      -- the places from the next one on
      have hshift : (∀ j ≤ min cc (q.cn - (i + 1)) + 1, (∀ d < j, flagged (q.cs (i + d)) flag = false) →
            quoteBit q (i + j) = some false)
          ↔ ∀ j ≤ min cc (q.cn - (i + 1)), (∀ d < j, flagged (q.cs (i + 1 + d)) flag = false) →
            quoteBit q (i + 1 + j) = some false := by
        constructor
        · intro hall j hj hclean
          rw [Nat.add_assoc, Nat.add_comm 1 j]
          refine hall (j + 1) (Nat.succ_le_succ hj) fun d hd => ?_
          cases d with
          | zero => exact hflag
          | succ d =>
            rw [Nat.add_comm d 1, ← Nat.add_assoc]
            exact hclean d (Nat.lt_of_succ_lt_succ hd)
        · intro hall j hj hclean
          cases j with
          | zero => exact hbit
          | succ j =>
            rw [Nat.add_comm j 1, ← Nat.add_assoc]
            refine hall j (Nat.le_of_succ_le_succ hj) fun d hd => ?_
            rw [Nat.add_assoc, Nat.add_comm 1 d]
            exact hclean (d + 1) (Nat.succ_lt_succ hd)
      rw [hshift]
      rcases hnext : quoteBit q (i + 1) with _ | b
      · refine iff_of_false (by simp) fun hall => ?_
        have h0 := hall 0 (Nat.zero_le _) fun d hd => absurd hd (Nat.not_lt_zero d)
        rw [Nat.add_zero, hnext] at h0
        cases h0
      · cases b with
        | true =>
          refine iff_of_false (fun heq => ?_) fun hall => ?_
          · have hlen := Option.some.inj heq
            omega
          · have h0 := hall 0 (Nat.zero_le _) fun d hd => absurd hd (Nat.not_lt_zero d)
            rw [Nat.add_zero, hnext] at h0
            cases h0
        | false =>
          simp only [Option.bind_some, Bool.false_eq_true, if_false]
          split
          · rename_i hend
            rw [hend, Nat.sub_self, Nat.min_zero]
            refine iff_of_true rfl fun j hj _ => ?_
            rwa [Nat.le_zero.mp hj, ← hend]
          · rw [← @ih (i + 1) (count + 1) (by omega) hnext, Nat.add_assoc, Nat.add_comm 1]

/-! ## The count -/

/-- On a list as the code keeps it, the count is right exactly if the quote bit of the wrong
place does no harm. -/
theorem ndqb_iff (hwf : Wf q) (flag : BitVec 32) :
    (∃ k, ndqb q flag = some k ∧ IsGreatest {k | Takeable q flag k} k) ↔ Steady q flag := by
  rcases hwf with ⟨hcc, hcf, -⟩ | ⟨hcc, f, hp⟩
  · have hzero : IsGreatest {k | Takeable q flag k} 0 := by
      refine ⟨⟨Nat.zero_le _, fun c hc => ?_⟩, fun k hk => ?_⟩
      · cases hc
      · rw [Set.mem_ofPred_eq, Takeable, straight, hcf] at hk
        exact hk.1
    refine iff_of_true ⟨0, if_pos hcc, hzero⟩ (.inr fun f hf => ?_)
    rw [hcf] at hf
    cases hf
  · have lt := hp.lt
    have hs := hp.straight_eq
    have hgreat := hp.isGreatest flag
    obtain ⟨K, hK⟩ : ∃ K, K = ((stored q f (straight q)).takeWhile (counted flag)).length := ⟨_, rfl⟩
    rw [← hK] at hgreat
    have huniq : (∃ k, ndqb q flag = some k ∧ IsGreatest {k | Takeable q flag k} k) ↔ ndqb q flag = some K := by
      constructor
      · rintro ⟨k, hk, hkgreat⟩
        rw [hk, hkgreat.unique hgreat]
      · exact fun h => ⟨K, h, hgreat⟩
    rw [huniq, hK]
    unfold ndqb
    rw [if_neg hcc, hp.cf]
    simp only [Option.bind_eq_bind, Option.bind_some]
    by_cases hq : flag &&& ttyQuote = 0#32
    · refine iff_of_true ?_ (.inl hq)
      split
      · rename_i hflag
        have hall : (stored q f (straight q)).takeWhile (counted flag) = stored q f (straight q) := by
          refine List.takeWhile_eq_self_iff.mpr fun c _ => ?_
          rw [counted_of_no_quote hq, flagged, hflag, BitVec.and_zero]
          rfl
        rw [hall, length_stored, hs, hp.cl, Option.bind_some, hp.stretch hcc]
      · rw [if_neg (not_not.mpr hq), ndqbLoop_eq hq lt, Nat.zero_add, hs]
    · have hflag : flag ≠ 0#32 := by
        rintro rfl
        exact hq (BitVec.zero_and)
      rw [if_neg hflag, if_pos hq, Steady, or_iff_right hq, hp.cf]
      simp only [Option.some.injEq, forall_eq']
      have hn : straight q = min (q.cc - 1) (q.cn - (f + 1)) + 1 := by omega
      cases hfirst : flagged (q.cs f) flag with
      | true =>
        refine iff_of_true ?_ (.inl rfl)
        obtain ⟨c, hc⟩ := Nat.exists_eq_succ_of_ne_zero hcc
        rw [hn, stored_succ, List.takeWhile_cons, counted_of_quote hq, hc, ndqbQuoteLoop_succ lt]
        simp [slot, hfirst]
      | false =>
        rw [or_iff_right Bool.false_ne_true]
        cases hsome : q.cq.isSome with
        | false =>
          have hnone : ∀ j, quoteBit q j = none := fun j => by
            rw [Option.isSome_eq_false_iff, Option.isNone_iff_eq_none] at hsome
            simp only [quoteBit, hsome]
          obtain ⟨c, hc⟩ := Nat.exists_eq_succ_of_ne_zero hcc
          refine iff_of_false ?_ ?_
          · rw [hc, ndqbQuoteLoop_succ lt, hfirst, hnone]
            simp
          · rintro (⟨h1, -⟩ | hall)
            · rw [hnone] at h1
              cases h1
            · have h0 := hall 0 (Nat.zero_le _) fun d hd => absurd hd (Nat.not_lt_zero d)
              rw [hnone] at h0
              cases h0
        | true =>
          have hbit := quoteBit_eq hsome lt
          cases hown : quoteAt q.cq f with
          | false =>
            rw [hown] at hbit
            have hiff := @ndqbQuoteLoop_eq_iff q f q.cc 0 flag hq hsome lt hbit
            rw [Nat.zero_add, ← hs] at hiff
            rw [hiff, hbit, or_iff_right]
            rintro ⟨h1, -⟩
            cases h1
          | true =>
            rw [hown] at hbit
            obtain ⟨c, hc⟩ := Nat.exists_eq_succ_of_ne_zero hcc
            have hnot : ¬∀ j ≤ straight q, (∀ i < j, flagged (q.cs (f + i)) flag = false) →
                quoteBit q (f + j) = some false := fun hall => by
              have h0 := hall 0 (Nat.zero_le _) fun d hd => absurd hd (Nat.not_lt_zero d)
              rw [Nat.add_zero, hbit] at h0
              cases h0
            rw [or_iff_left hnot, hbit, hn, stored_succ, List.takeWhile_cons, counted_of_quote hq, hc,
              ndqbQuoteLoop_succ lt, hfirst]
            simp only [slot, hown, Bool.not_true, Bool.and_false, Bool.false_eq_true, if_false,
              List.length_nil, true_and]
            rcases quoteBit q (f + 1) with _ | b
            · exact iff_of_false (by simp) (by simp)
            · cases b with
              | true => exact iff_of_true rfl rfl
              | false =>
                refine iff_of_false (fun heq => ?_) (by simp)
                split at heq
                · cases heq
                · exact absurd (le_of_ndqbQuoteLoop heq) (Nat.not_succ_le_zero _)

/-- Whatever was called before, and for every flag: `ndqb` counts as many characters as there
are up to one with a bit of the flag or the end of the buffer, exactly if the quote bit of
the wrong place does no harm. -/
theorem ndqb_right_iff {ι : Type*} [DecidableEq ι] (size : ι → Nat) (quot : ι → Bool) (cs : List (Call ι))
    (rs : List Result) (s : ι → Clist) (h : run cs (fresh size quot) = some (rs, s)) (i : ι)
    (flag : BitVec 32) :
    (∃ k, ndqb (s i) flag = some k ∧ IsGreatest {k | Takeable (s i) flag k} k) ↔ Steady (s i) flag :=
  ndqb_iff (reached_wf h i) flag

/-- Two plain characters, counted with `TTY_QUOTE`. -/
theorem ndqb_plain : ∃ rs s, run [.bToQ [97, 98] ()] (fresh (fun _ => 8) fun _ => true) = some (rs, s)
    ∧ ((∃ k, ndqb (s ()) ttyQuote = some k ∧ IsGreatest {k | Takeable (s ()) ttyQuote k} k)
      ↔ Steady (s ()) ttyQuote) :=
  ⟨_, _, rfl, ndqb_right_iff (fun _ => 8) (fun _ => true) [.bToQ [97, 98] ()] _ _ rfl () ttyQuote⟩

/-- A plain character before a quoted one is not counted. -/
theorem ndqb_stops_early : ∃ rs s,
    run [.putc (97, false) (), .putc (98, true) ()] (fresh (fun _ => 8) fun _ => true) = some (rs, s)
      ∧ ndqb (s ()) ttyQuote = some 0 ∧ straight (s ()) = 2
      ∧ contents (s ()) = [(97, false), (98, true)]
      ∧ ¬∃ k, ndqb (s ()) ttyQuote = some k ∧ IsGreatest {k | Takeable (s ()) ttyQuote k} k := by
  refine ⟨_, _, rfl, by decide, by decide, by decide, ?_⟩
  rintro ⟨k, hk, hgreat⟩
  have hone : 1 ≤ k := by
    refine hgreat.2 ⟨by decide, fun c hc => ?_⟩
    obtain rfl : c = (97, false) := List.mem_singleton.mp hc
    rfl
  have hzero : some k = some 0 := hk.symm.trans (by decide)
  rw [Option.some.inj hzero] at hone
  exact absurd hone (by decide)

end Obsd.Tty
