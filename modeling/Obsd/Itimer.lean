import Mathlib

/-!
# Virtual and profiling timers

`sys_setitimer` of `kern/kern_time.c` stores an interval timer in the
process, and each clock tick takes `tick` microseconds from it with
`itimerdecr`. What a tick takes too much from a timer that expires is
taken from the next interval. `hardclock` leaves a timer alone that is
not set: `itimer_exact` is about its ticks, and `itimerdecr_repeats` says
what calls without that test come to.
-/

namespace Obsd.Itimer

structure Timeval where
  tvSec : Int
  tvUsec : Int
deriving DecidableEq, Repr

structure Itimerval where
  itInterval : Timeval
  itValue : Timeval
deriving DecidableEq, Repr

def timerisset (tv : Timeval) : Bool := tv.tvSec != 0 || tv.tvUsec != 0

/-! ## Setting a timer -/

/-- Too short for the clock, and not 0. -/
def Timeval.short (tick : Int) (tv : Timeval) : Bool :=
  tv.tvSec == 0 && tv.tvUsec != 0 && decide (tv.tvUsec < tick)

/-- No value for `EINVAL`. -/
def itimerfix (tick : Int) (tv : Timeval) : Option Timeval :=
  if tv.tvSec < 0 ∨ 100000000 < tv.tvSec ∨ tv.tvUsec < 0 ∨ 1000000 ≤ tv.tvUsec then none
  else if tv.short tick then some { tv with tvUsec := tick } else some tv

def itimerround (tick : Int) (tv : Timeval) : Timeval :=
  if tv.short tick then { tv with tvUsec := tick } else tv

inductive Which where
  | virtual | prof
deriving DecidableEq, Repr

inductive Errno where
  | einval | efault
deriving DecidableEq, Repr

/-- What is used of `struct pstats`: the timers, and whether the signal of one that has
expired is still to be sent. -/
structure Pstats where
  pTimer : Which → Itimerval
  pending : Which → Bool

/-- `sys_setitimer` for the timers other than `ITIMER_REAL`. `itv` is the new timer: no pointer
at all, or one with nothing behind it, or a timer. `getitimer` is the error of copying out the
old one, where that is asked for. -/
def sysSetitimer (tick : Int) (st : Pstats) (which : Which) (itv : Option (Option Itimerval))
    (getitimer : Option Errno) : Pstats × Option Errno :=
  match itv with
  | some none => (st, some .efault)
  | none => (st, getitimer)
  | some (some aitv) =>
      match getitimer with
      | some e => (st, some e)
      | none =>
          match itimerfix tick aitv.itValue, itimerfix tick aitv.itInterval with
          | some value, some interval =>
              ({ pTimer := Function.update st.pTimer which ⟨itimerround tick interval, value⟩
                 pending := Function.update st.pending which false }, none)
          | _, _ => (st, some .einval)

/-! ## Ticks -/

/-- `usec` less. `itimerdecr` takes a second into the microseconds before it subtracts, where
there are too few, and the label `expire` does after. -/
def Timeval.less (tv : Timeval) (usec : Int) : Timeval :=
  if tv.tvUsec < usec then ⟨tv.tvSec - 1, tv.tvUsec + 1000000 - usec⟩
  else ⟨tv.tvSec, tv.tvUsec - usec⟩

/-- From the label `expire` on; `usec` is carried over. -/
def expire (itp : Itimerval) (usec : Int) : Itimerval :=
  if timerisset itp.itInterval then { itp with itValue := itp.itInterval.less usec }
  else { itp with itValue := { itp.itValue with tvUsec := 0 } }

/-- With `false` (the 0 of the source) the timer has expired. -/
def itimerdecr (itp : Itimerval) (usec : Int) : Itimerval × Bool :=
  if itp.itValue.tvUsec < usec ∧ itp.itValue.tvSec = 0 then
    (expire itp (usec - itp.itValue.tvUsec), false)
  else if timerisset (itp.itValue.less usec) then
    ({ itp with itValue := itp.itValue.less usec }, true)
  else (expire { itp with itValue := itp.itValue.less usec } 0, false)

/-- What `hardclock` does with a timer, and whether it reports that it expired. -/
def hardclock (tick : Int) (it : Itimerval) : Itimerval × Bool :=
  if timerisset it.itValue then
    let r := itimerdecr it tick
    (r.1, !r.2)
  else (it, false)

/-- `n` ticks, and how many of them reported. -/
def ticks (step : Itimerval → Itimerval × Bool) (it : Itimerval) : Nat → Itimerval × Nat
  | 0 => (it, 0)
  | n + 1 =>
      let r := ticks step it n
      let r' := step r.1
      (r'.1, r.2 + r'.2.toNat)

/-! ## What a timer is to do -/

def Timeval.micros (tv : Timeval) : Int := tv.tvSec * 1000000 + tv.tvUsec

structure Timeval.Normal (tv : Timeval) : Prop where
  sec : 0 ≤ tv.tvSec
  usec : 0 ≤ tv.tvUsec
  lt : tv.tvUsec < 1000000

/-- The times `v`, `v + i`, `v + 2 i` and so on up to `t`; with `i = 0`, only `v`. -/
def dueTimes (v i t : Nat) : Finset Nat := (Finset.range (t + 1)).filter fun m => v ≤ m ∧ i ∣ m - v

/-- From `it`, `n` ticks have led to `it'` with the right number of reports. -/
structure Exact (tick : Int) (it : Itimerval) (n : Nat) (r : Itimerval × Nat) : Prop where
  interval : r.1.itInterval = it.itInterval
  normal : r.1.itValue.Normal
  inside : 0 < it.itInterval.micros → 0 < r.1.itValue.micros ∧
    r.1.itValue.micros ≤ max it.itValue.micros it.itInterval.micros
  reports : r.2 = (dueTimes it.itValue.micros.toNat it.itInterval.micros.toNat (n * tick.toNat)).card

theorem dueTimes_card {v i t c : Nat} (hi : 0 < i) (hlt : t < v + c * i)
    (hle : ∀ k, k + 1 = c → v + k * i ≤ t) : (dueTimes v i t).card = c := by
  have himage : dueTimes v i t = (Finset.range c).image fun k => v + k * i := by
    ext m
    rw [dueTimes, Finset.mem_filter, Finset.mem_range, Finset.mem_image]
    constructor
    · rintro ⟨hm, hv, k, hk⟩
      rw [Nat.mul_comm] at hk
      refine ⟨k, Finset.mem_range.mpr (Nat.lt_of_mul_lt_mul_right (a := i) ?_), ?_⟩ <;> omega
    · rintro ⟨k, hk, rfl⟩
      have hk := Finset.mem_range.mp hk
      obtain ⟨d, rfl⟩ : ∃ d, c = k + 1 + d := ⟨c - (k + 1), by omega⟩
      have hlast := hle (k + d) (by omega)
      have hadd : (k + d) * i = k * i + d * i := Nat.add_mul ..
      refine ⟨by omega, by omega, k, ?_⟩
      rw [Nat.add_sub_cancel_left, Nat.mul_comm]
  rw [himage, Finset.card_image_of_injective, Finset.card_range]
  intro k k' heq
  exact Nat.eq_of_mul_eq_mul_right hi (Nat.add_left_cancel heq)

theorem dueTimes_once (v t : Nat) : (dueTimes v 0 t).card = if v ≤ t then 1 else 0 := by
  have hmem (m : Nat) : m ∈ dueTimes v 0 t ↔ v ≤ t ∧ m = v := by
    rw [dueTimes, Finset.mem_filter, Finset.mem_range, Nat.zero_dvd]
    omega
  split
  · rename_i h
    rw [Finset.card_eq_one]
    exact ⟨v, Finset.ext fun m => by rw [hmem, Finset.mem_singleton, and_iff_right h]⟩
  · rename_i h
    exact Finset.card_eq_zero.mpr (Finset.eq_empty_of_forall_notMem fun m hm => h ((hmem m).mp hm).1)

/-! ## One tick -/

/-- A timer as `sys_setitimer` leaves it. -/
structure Itimerval.Fixed (tick : Int) (it : Itimerval) : Prop where
  value : it.itValue.Normal
  interval : it.itInterval.Normal
  long : it.itInterval.micros = 0 ∨ tick ≤ it.itInterval.micros

theorem timerisset_iff {tv : Timeval} (h : tv.Normal) : timerisset tv = true ↔ 0 < tv.micros := by
  obtain ⟨hsec, husec, -⟩ := h
  rw [timerisset, Bool.or_eq_true, bne_iff_ne, bne_iff_ne, Timeval.micros]
  omega

theorem Timeval.Normal.less {tv : Timeval} {usec : Int} (h : tv.Normal) (h0 : 0 ≤ usec)
    (hle : usec ≤ tv.micros) (hlt : usec < 1000000) :
    (tv.less usec).Normal ∧ (tv.less usec).micros = tv.micros - usec := by
  obtain ⟨h1, h2, h3⟩ := h
  unfold Timeval.micros at hle ⊢
  unfold Timeval.less
  split
  · exact ⟨⟨by dsimp only; omega, by dsimp only; omega, by dsimp only; omega⟩, by dsimp only; omega⟩
  · exact ⟨⟨h1, by dsimp only; omega, by dsimp only; omega⟩, by dsimp only; omega⟩

/-- A timer with more than a tick left. -/
theorem itimerdecr_running {it : Itimerval} {tick : Int} (hv : it.itValue.Normal)
    (htick : 0 < tick) (hlt : tick < 1000000) (hleft : tick < it.itValue.micros) :
    itimerdecr it tick = ({ it with itValue := it.itValue.less tick }, true) := by
  obtain ⟨hn, hm⟩ := hv.less (Int.le_of_lt htick) (Int.le_of_lt hleft) hlt
  have hset : timerisset (it.itValue.less tick) = true := (timerisset_iff hn).mpr (by omega)
  have hno : ¬(it.itValue.tvUsec < tick ∧ it.itValue.tvSec = 0) := by
    rintro ⟨h, h0⟩
    unfold Timeval.micros at hleft
    omega
  rw [itimerdecr, if_neg hno, if_pos hset]

/-- A timer with a tick left or less. -/
theorem itimerdecr_expires {it : Itimerval} {tick : Int} (hv : it.itValue.Normal)
    (hlt : tick < 1000000) (hleft : it.itValue.micros ≤ tick) :
    ∃ it' : Itimerval, it'.itInterval = it.itInterval ∧ it'.itValue.tvSec = 0 ∧
      itimerdecr it tick = (expire it' (tick - it.itValue.micros), false) := by
  obtain ⟨h1, h2, h3⟩ := hv
  have hsec : it.itValue.tvSec = 0 := by
    unfold Timeval.micros at hleft
    omega
  have hm : it.itValue.micros = it.itValue.tvUsec := by
    rw [Timeval.micros, hsec]
    omega
  rw [hm] at hleft ⊢
  by_cases hl : it.itValue.tvUsec < tick
  · exact ⟨it, rfl, hsec, by rw [itimerdecr, if_pos ⟨hl, hsec⟩]⟩
  · -- at the end of the interval exactly
    obtain rfl : it.itValue.tvUsec = tick := by omega
    have hless : it.itValue.less it.itValue.tvUsec = ⟨0, 0⟩ := by
      rw [Timeval.less, if_neg hl, hsec, Int.sub_self]
    refine ⟨{ it with itValue := ⟨0, 0⟩ }, rfl, rfl, ?_⟩
    rw [itimerdecr, if_neg (fun h => hl h.1), hless, Int.sub_self]
    rfl

/-! ## Ticks of the clock -/

/-- After `n` ticks and `c` reports: the next time is `v + c * i`, or there is none. -/
structure Ticked (tick : Int) (it : Itimerval) (n : Nat) (r : Itimerval × Nat) : Prop where
  interval : r.1.itInterval = it.itInterval
  normal : r.1.itValue.Normal
  rest : (0 < r.1.itValue.micros ∧
      r.1.itValue.micros = it.itValue.micros + r.2 * it.itInterval.micros - n * tick ∧
      ((r.2 = 0 ∧ r.1.itValue.micros ≤ it.itValue.micros) ∨
        (0 < it.itInterval.micros ∧ 0 < r.2 ∧ r.1.itValue.micros ≤ it.itInterval.micros))) ∨
    (it.itInterval.micros = 0 ∧ r.1.itValue.micros = 0 ∧ r.2 = 1 ∧ it.itValue.micros ≤ n * tick)

theorem Ticked.hardclock {tick : Int} {it : Itimerval} {n : Nat} {r : Itimerval × Nat}
    (h : Ticked tick it n r) (hf : it.Fixed tick) (htick : 0 < tick) (hlt : tick < 1000000) :
    Ticked tick it (n + 1) ((hardclock tick r.1).1, r.2 + (hardclock tick r.1).2.toNat) := by
  obtain ⟨hi, hn, hrest⟩ := h
  have hmul : ((n + 1 : Nat) : Int) * tick = n * tick + tick := by
    rw [Int.natCast_succ, Int.add_mul, Int.one_mul]
  rcases hrest with ⟨hpos, hval, hle⟩ | ⟨h0, hval, hc, hdone⟩
  · rw [Itimer.hardclock, if_pos ((timerisset_iff hn).mpr hpos)]
    by_cases hleft : tick < r.1.itValue.micros
    · obtain ⟨hn', hm'⟩ := hn.less (Int.le_of_lt htick) (Int.le_of_lt hleft) hlt
      rw [itimerdecr_running hn htick hlt hleft]
      refine ⟨hi, hn', .inl ?_⟩
      change 0 < (r.1.itValue.less tick).micros ∧ (r.1.itValue.less tick).micros =
        it.itValue.micros + r.2 * it.itInterval.micros - _ ∧ _
      dsimp only
      exact ⟨by omega, by omega, hle.imp (fun h => ⟨h.1, by omega⟩) fun h => ⟨h.1, h.2.1, by omega⟩⟩
    · obtain ⟨it', hi', hsec, heq⟩ := itimerdecr_expires hn hlt (by omega)
      rw [heq]
      have hin : it'.itInterval.Normal := hi' ▸ hi ▸ hf.interval
      have hnext : ((r.2 + 1 : Nat) : Int) * it.itInterval.micros =
          r.2 * it.itInterval.micros + it.itInterval.micros := by
        rw [Int.natCast_succ, Int.add_mul, Int.one_mul]
      rcases hf.long with h0 | hlong
      · have hmillion : (0 : Int) < 1000000 := by decide
        -- a timer without an interval has not expired before
        have hc : r.2 = 0 := by omega
        rw [hc, h0] at hval
        have hno : ¬timerisset it'.itInterval = true := by
          rw [timerisset_iff hin, hi', hi, h0]
          exact Int.lt_irrefl 0
        rw [expire, if_neg hno]
        refine ⟨hi'.trans hi, ⟨Int.le_of_eq hsec.symm, Int.le_refl _, hmillion⟩,
          .inr ⟨h0, ?_, by rw [hc]; rfl, by omega⟩⟩
        rw [Timeval.micros, hsec]
        rfl
      · rw [← hi, ← hi'] at hlong hnext
        have hset : timerisset it'.itInterval = true := (timerisset_iff hin).mpr (by omega)
        have hover : 0 ≤ tick - r.1.itValue.micros := by omega
        obtain ⟨hn', hm'⟩ := hin.less hover (by omega) (by omega)
        rw [expire, if_pos hset]
        refine ⟨hi'.trans hi, hn', .inl ?_⟩
        rw [← hi, ← hi'] at hval ⊢
        change 0 < (it'.itInterval.less _).micros ∧ (it'.itInterval.less _).micros =
          it.itValue.micros + ((r.2 + 1 : Nat) : Int) * it'.itInterval.micros - _ ∧
          ((r.2 + 1 = 0 ∧ _) ∨ _ ∧ 0 < r.2 + 1 ∧ _)
        dsimp only
        exact ⟨by omega, by omega, .inr ⟨by omega, Nat.succ_pos _, by omega⟩⟩
  · have hno : ¬timerisset r.1.itValue = true := by
      rw [timerisset_iff hn, hval]
      exact Int.lt_irrefl 0
    rw [Itimer.hardclock, if_neg hno]
    exact ⟨hi, hn, .inr ⟨h0, hval, hc, by omega⟩⟩

theorem ticked {tick : Int} {it : Itimerval} (hf : it.Fixed tick) (htick : 0 < tick)
    (hlt : tick < 1000000) (hv : 0 < it.itValue.micros) (n : Nat) :
    Ticked tick it n (ticks (hardclock tick) it n) := by
  induction n with
  | zero => exact ⟨rfl, hf.value, .inl ⟨hv, by simp [ticks], .inl ⟨rfl, Int.le_refl _⟩⟩⟩
  | succ n ih => exact ih.hardclock hf htick hlt

theorem Ticked.exact {tick : Int} {it : Itimerval} {n : Nat} {r : Itimerval × Nat}
    (h : Ticked tick it n r) (hf : it.Fixed tick) (htick : 0 < tick)
    (hv : 0 < it.itValue.micros) : Exact tick it n r := by
  obtain ⟨hi, hn, hrest⟩ := h
  refine ⟨hi, hn, fun hpos => ?_, ?_⟩
  · rcases hrest with ⟨h1, -, h3⟩ | ⟨h0, -⟩
    · exact ⟨h1, by omega⟩
    · omega
  -- the same in natural numbers
  have hin := hf.interval
  obtain ⟨v, hv⟩ := Int.eq_ofNat_of_zero_le (Int.le_of_lt hv)
  obtain ⟨t, ht⟩ := Int.eq_ofNat_of_zero_le (Int.le_of_lt htick)
  obtain ⟨i, hi⟩ := Int.eq_ofNat_of_zero_le (show 0 ≤ it.itInterval.micros from by
    have := hin.sec
    have := hin.usec
    unfold Timeval.micros
    omega)
  rw [hv, hi, ht, ← Int.natCast_mul] at hrest
  rw [hv, hi, ht, Int.toNat_natCast, Int.toNat_natCast, Int.toNat_natCast]
  rcases Nat.eq_zero_or_pos i with rfl | hpos
  · rw [dueTimes_once]
    rcases hrest with ⟨h1, h2, h3⟩ | ⟨-, -, h1, h2⟩
    · rw [if_neg (by omega)]
      omega
    · rw [if_pos (by omega), h1]
  · obtain ⟨h1, h2, h3⟩ := hrest.resolve_right fun h => by omega
    refine (dueTimes_card hpos (by omega) fun k hk => ?_).symm
    rw [← hk, Nat.succ_mul] at h2
    omega

/-! ## Timers that were set -/

theorem itimerfix_normal {tick : Int} {tv tv' : Timeval} (htick : 0 < tick) (hlt : tick < 1000000)
    (h : itimerfix tick tv = some tv') : tv'.Normal ∧ (tv'.micros = 0 ∨ tick ≤ tv'.micros) := by
  unfold itimerfix at h
  split at h
  · cases h
  · unfold Timeval.short at h
    split at h <;> rename_i hshort <;> obtain rfl := Option.some.inj h <;>
      simp only [Bool.and_eq_true, beq_iff_eq, bne_iff_ne, decide_eq_true_eq] at hshort
    · exact ⟨⟨by dsimp only; omega, by dsimp only; omega, hlt⟩, .inr (by simp [Timeval.micros, hshort.1.1])⟩
    · exact ⟨⟨by omega, by omega, by omega⟩, by unfold Timeval.micros; omega⟩

/-- What `itimerfix` lets through is not rounded again. -/
theorem itimerround_fixed {tick : Int} {tv tv' : Timeval} (h : itimerfix tick tv = some tv') :
    itimerround tick tv' = tv' := by
  unfold itimerfix at h
  split at h
  · cases h
  · split at h <;> obtain rfl := Option.some.inj h
    · simp [itimerround, Timeval.short]
    · rename_i hshort
      rw [itimerround, if_neg hshort]

theorem sysSetitimer_fixed {tick : Int} {st st' : Pstats} {which : Which} {aitv : Itimerval}
    {getitimer : Option Errno} (htick : 0 < tick) (hlt : tick < 1000000)
    (h : sysSetitimer tick st which (some (some aitv)) getitimer = (st', none)) :
    (st'.pTimer which).Fixed tick := by
  unfold sysSetitimer at h
  cases getitimer with
  | some e => cases (Prod.mk.inj h).2
  | none =>
      dsimp only at h
      split at h
      · rename_i value interval hvalue hinterval
        obtain ⟨rfl, -⟩ := Prod.mk.inj h
        dsimp only
        rw [Function.update_self, itimerround_fixed hinterval]
        have hi := itimerfix_normal htick hlt hinterval
        exact ⟨(itimerfix_normal htick hlt hvalue).1, hi.1, hi.2⟩
      · cases (Prod.mk.inj h).2

/-- Whatever timer is set: after any number of ticks its value is normal and in its bounds, and
the reports were as many as times it was due. -/
theorem itimer_exact {tick : Int} (htick : 0 < tick) (hlt : tick < 1000000) {st st' : Pstats}
    {which : Which} {aitv : Itimerval} {getitimer : Option Errno}
    (h : sysSetitimer tick st which (some (some aitv)) getitimer = (st', none))
    (hv : 0 < (st'.pTimer which).itValue.micros) (n : Nat) :
    Exact tick (st'.pTimer which) n (ticks (hardclock tick) (st'.pTimer which) n) := by
  have hf := sysSetitimer_fixed htick hlt h
  exact (ticked hf htick hlt hv n).exact hf htick hv

/-- 15 ms and then every 25 ms, with a clock of 100 Hz. -/
theorem itimer_exact_hundredHz : Exact 10000 ⟨⟨0, 25000⟩, ⟨0, 15000⟩⟩ 4
    (ticks (hardclock 10000) ⟨⟨0, 25000⟩, ⟨0, 15000⟩⟩ 4) :=
  @itimer_exact 10000 (by decide) (by decide) ⟨fun _ => ⟨⟨0, 0⟩, ⟨0, 0⟩⟩, fun _ => false⟩ _ .prof
    ⟨⟨0, 25000⟩, ⟨0, 15000⟩⟩ none rfl (by decide) 4

/-- Calls of `itimerdecr` that go on after a timer without an interval has expired report
again each time. -/
theorem itimerdecr_repeats :
    (sysSetitimer 10000 ⟨fun _ => ⟨⟨0, 0⟩, ⟨0, 0⟩⟩, fun _ => false⟩ .prof
      (some (some ⟨⟨0, 0⟩, ⟨0, 10000⟩⟩)) none).1.pTimer .prof = ⟨⟨0, 0⟩, ⟨0, 10000⟩⟩ ∧
    ¬Exact 10000 ⟨⟨0, 0⟩, ⟨0, 10000⟩⟩ 2
      (ticks (fun it => ((itimerdecr it 10000).1, !(itimerdecr it 10000).2)) ⟨⟨0, 0⟩, ⟨0, 10000⟩⟩ 2) := by
  refine ⟨rfl, fun h => ?_⟩
  have := h.reports.trans (dueTimes_once 10000 20000)
  exact absurd this (by decide)

end Obsd.Itimer
