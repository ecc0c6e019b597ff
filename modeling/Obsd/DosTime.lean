import Mathlib

/-!
# Times on FAT volumes

`unix2dostime` and `dos2unixtime` of `msdosfs/msdosfs_conv.c` turn seconds
since 1970 into the date and time words of a directory entry, and back. Each
remembers the last date it worked out. Both take every fourth year for a
leap year, so 2100 is one on both sides. `dostime_round` is about any
sequence of calls: times come back, and the month tables are left exactly
for dates with month 14 or 15.
-/

namespace Obsd.DosTime

def regyear : List Nat := [31, 28, 31, 30, 31, 30, 31, 31, 30, 31, 30, 31]

def leapyear : List Nat := [31, 29, 31, 30, 31, 30, 31, 31, 30, 31, 30, 31]

/-- `y & 0x03 ? 365 : 366` -/
def inc (year : Nat) : Nat := if year % 4 = 0 then 366 else 365

def months (year : Nat) : List Nat := if year % 4 = 0 then leapyear else regyear

/-- The variables that remember the last conversions. -/
structure Cache where
  lasttime : Nat
  lastday : Nat
  lastddate : BitVec 16
  lastdtime : BitVec 16
  lastdosdate : BitVec 16
  lastseconds : Nat

def Cache.start : Cache := ⟨0, 0, 0, 0, 0, 0⟩

/-- To an unsigned number of 32 bits. -/
def u32 (x : Int) : Nat := (x % 4294967296).toNat

/-! ## `unix2dostime` -/

/-- The loop over the years, which leaves fewer days than its year has. -/
def yearLoop : Nat → Nat → Nat → Nat × Nat
  | 0, year, days => (year, days)
  | fuel + 1, year, days =>
      if days < inc year then (year, days) else yearLoop fuel (year + 1) (days - inc year)

def monthLoop : List Nat → Nat → Nat → Nat × Nat
  | [], month, days => (month, days)
  | n :: rest, month, days =>
      if days < n then (month, days) else monthLoop rest (month + 1) (days - n)

/-- The date word of a day since 1970. -/
def ddate (days : Nat) : BitVec 16 :=
  let (year, d) := yearLoop days 1970 days
  let (month, d) := monthLoop (months year) 0 d
  BitVec.ofNat 16 ((d + 1) + (month + 1) * 32 + if 1980 < year then (year - 1980) * 512 else 0)

def dtime (t : Nat) : BitVec 16 :=
  BitVec.ofNat 16 (t / 2 % 30 + t / 60 % 60 * 32 + t / 3600 % 24 * 2048)

/-- What is stored behind `ddp`, `dtp` and `dhp`. -/
structure Dos where
  dd : BitVec 16
  dt : BitVec 16
  dh : BitVec 8
deriving DecidableEq, Repr

def unix2dostime (tz : Int) (c : Cache) (sec nsec : Int) : Cache × Dos :=
  let t := u32 (sec - tz * 60)
  let t := t - t % 2
  let c :=
    if c.lasttime ≠ t then
      let c := { c with lasttime := t, lastdtime := dtime t }
      if t / 86400 ≠ c.lastday then { c with lastday := t / 86400, lastddate := ddate (t / 86400) }
      else c
    else c
  (c, ⟨c.lastddate, c.lastdtime, BitVec.ofInt 8 (sec % 2 * 100 + nsec / 10000000)⟩)

/-! ## `dos2unixtime` -/

def secondsto1980 : Nat := (8 * 365 + 2 * 366) * (24 * 60 * 60)

/-- The loop over the years: the days of the first ones. -/
def yearDays : Nat → Nat
  | 0 => 0
  | y + 1 => yearDays y + inc y

def ddYear (dd : BitVec 16) : Nat := dd.toNat / 512 % 128
def ddMonth (dd : BitVec 16) : Nat := dd.toNat / 32 % 16
def ddDay (dd : BitVec 16) : Nat := dd.toNat % 32

/-- The indices of the month table that are read for a date. -/
def reads (dd : BitVec 16) : List Nat := List.range (max 1 (ddMonth dd) - 1)

/-- `lastseconds` for a date. Behind the twelve entries of a table there is `junk`. -/
def dosSeconds (junk : Nat → Nat) (dd : BitVec 16) : Nat :=
  let year := ddYear dd
  let days := yearDays year + ((reads dd).map fun m => (months year).getD m (junk m)).sum
  u32 (u32 (days + ddDay dd - 1) * 86400 + secondsto1980)

/-- The time, and which entries of a month table were read. -/
def dos2unixtime (junk : Nat → Nat) (tz : Int) (c : Cache) (d : Dos) :
    Cache × (Nat × Nat) × List Nat :=
  if d.dd = 0 then (c, (0, 0), [])
  else
    let seconds := d.dt.toNat % 32 * 2 + d.dt.toNat / 32 % 64 * 60 + d.dt.toNat / 2048 % 32 * 3600 +
      d.dh.toNat / 100
    let (c, used) :=
      if c.lastdosdate ≠ d.dd then
        ({ c with lastdosdate := d.dd, lastseconds := dosSeconds junk d.dd }, reads d.dd)
      else (c, [])
    (c, (u32 (seconds + c.lastseconds + tz * 60), d.dh.toNat % 100 * 10000000), used)

/-! ## Calls -/

inductive Call where
  | unix2dostime (sec nsec : Int)
  | dos2unixtime (d : Dos)

/-- A call with `tz` 0, and the entries of the month tables that `dos2unixtime` reads. -/
def call (junk : Nat → Nat) (c : Cache) : Call → Cache × List Nat
  | .unix2dostime sec nsec => ((unix2dostime 0 c sec nsec).1, [])
  | .dos2unixtime d => ((dos2unixtime junk 0 c d).1, (dos2unixtime junk 0 c d).2.2)

def run (junk : Nat → Nat) (c : Cache) : List Call → Cache × List Nat
  | [] => (c, [])
  | x :: xs =>
      let (c, used) := call junk c x
      let (c, rest) := run junk c xs
      (c, used ++ rest)

/-! ## Dates -/

theorem yearDays_eq (y : Nat) : yearDays y = 365 * y + (y + 3) / 4 := by
  induction y with
  | zero => rfl
  | succ y ih =>
      rw [yearDays, ih, inc]
      split <;> omega

theorem yearLoop_spec (fuel year : Nat) {days : Nat} (hfuel : days ≤ fuel) :
    yearDays (yearLoop fuel year days).1 + (yearLoop fuel year days).2 = yearDays year + days ∧
      (yearLoop fuel year days).2 < inc (yearLoop fuel year days).1 := by
  induction fuel generalizing year days with
  | zero =>
      obtain rfl := Nat.le_zero.mp hfuel
      refine ⟨rfl, ?_⟩
      change 0 < inc year
      rw [inc]
      split <;> decide
  | succ fuel ih =>
      rw [yearLoop]
      have hpos : 365 ≤ inc year := by
        rw [inc]
        split <;> decide
      split
      · rename_i hlt
        exact ⟨rfl, hlt⟩
      · obtain ⟨hsum, hlt⟩ := @ih (year + 1) (days - inc year) (by omega)
        refine ⟨?_, hlt⟩
        rw [hsum, yearDays]
        omega

theorem monthLoop_spec : ∀ (table : List Nat) (month : Nat) {days : Nat}, days < table.sum →
    ∃ k < table.length, (monthLoop table month days).1 = month + k ∧
      (table.take k).sum + (monthLoop table month days).2 = days ∧
      ∃ n ∈ table, (monthLoop table month days).2 < n
  | [], _, _, hlt => absurd hlt (Nat.not_lt_zero _)
  | n :: rest, month, days, hlt => by
    rw [monthLoop]
    split
    · rename_i hn
      exact ⟨0, Nat.succ_pos _, rfl, Nat.zero_add _, n, List.mem_cons_self, hn⟩
    · rename_i hn
      rw [List.sum_cons] at hlt
      obtain ⟨k, hk, hmonth, hsum, b, hb, hlast⟩ :=
        @monthLoop_spec rest (month + 1) (days - n) (by omega)
      refine ⟨k + 1, Nat.succ_lt_succ hk, by omega, ?_, b, List.mem_cons_of_mem _ hb, hlast⟩
      rw [List.take_succ_cons, List.sum_cons]
      omega

theorem sum_getD (table : List Nat) (junk : Nat → Nat) {k : Nat} (hk : k ≤ table.length) :
    ((List.range k).map fun m => table.getD m (junk m)).sum = (table.take k).sum := by
  congr 1
  refine List.ext_getElem (by simp [hk]) fun i h₁ h₂ => ?_
  have hi : i < table.length := by
    rw [List.length_take] at h₂
    omega
  simp [hi]

theorem u32_secondsto1980 {days : Nat} (hlo : 3652 ≤ days) (hhi : days ≤ 49710) :
    u32 ((days - 3652 : Nat) * 86400 + secondsto1980) = days * 86400 := by
  have hval : (secondsto1980 : Int) = 315532800 := rfl
  unfold u32
  rw [hval, Int.emod_eq_of_lt (by omega) (by omega)]
  omega

/-- The date word of a day from 1980 on is taken back to that day. -/
theorem dosSeconds_ddate (junk : Nat → Nat) {days : Nat} (hlo : 3652 ≤ days) (hhi : days ≤ 49710) :
    ddate days ≠ 0 ∧ dosSeconds junk (ddate days) = days * 86400 := by
  obtain ⟨hsum, hlt⟩ := yearLoop_spec days 1970 (Nat.le_refl days)
  unfold ddate
  generalize yearLoop days 1970 days = r at *
  obtain ⟨year, d⟩ := r
  rw [yearDays_eq, yearDays_eq] at hsum
  dsimp only at hsum hlt ⊢
  have hyear : 1980 ≤ year ∧ year < 2107 := by
    unfold inc at hlt
    split at hlt <;> omega
  have htable : d < (months year).sum := by
    unfold inc at hlt
    unfold months
    split <;> rename_i h
    · rwa [if_pos h] at hlt
    · rwa [if_neg h] at hlt
  obtain ⟨k, hk, hmonth, hdays, n, hn, hlast⟩ := monthLoop_spec (months year) 0 htable
  generalize monthLoop (months year) 0 d = r at *
  obtain ⟨month, day⟩ := r
  dsimp only at hmonth hdays hlast ⊢
  have hlen : (months year).length = 12 := by
    unfold months
    split <;> rfl
  have hn31 : n ≤ 31 := by
    have hall : ∀ m ∈ months year, m ≤ 31 := by
      unfold months
      split <;> decide
    exact hall n hn
  have hif : (if 1980 < year then (year - 1980) * 512 else 0) = (year - 1980) * 512 := by
    split <;> omega
  rw [hif]
  obtain ⟨dd, hdd⟩ :
      ∃ dd, dd = BitVec.ofNat 16 (day + 1 + (month + 1) * 32 + (year - 1980) * 512) := ⟨_, rfl⟩
  have hnat : dd.toNat = day + 1 + (month + 1) * 32 + (year - 1980) * 512 := by
    rw [hdd, BitVec.toNat_ofNat, Nat.mod_eq_of_lt (by omega)]
  rw [← hdd]
  have hy : ddYear dd = year - 1980 := by
    unfold ddYear
    omega
  have hm : ddMonth dd = k + 1 := by
    unfold ddMonth
    omega
  have hd : ddDay dd = day + 1 := by
    unfold ddDay
    omega
  have hsame : months (year - 1980) = months year := by
    unfold months
    have : (year - 1980) % 4 = year % 4 := by omega
    rw [this]
  refine ⟨fun h0 => ?_, ?_⟩
  · rw [h0] at hnat
    change 0 = _ at hnat
    omega
  · have hreads : reads dd = List.range k := by
      rw [reads, hm, Nat.max_eq_right (Nat.succ_pos k)]
      rfl
    rw [dosSeconds, hreads, hy, hd, hsame, sum_getD _ _ (by omega), yearDays_eq]
    have hinner : u32 (((365 * (year - 1980) + (year - 1980 + 3) / 4 +
        ((months year).take k).sum : Nat) : Int) + (day + 1 : Nat) - 1) = days - 3652 := by
      have hquarter : (year + 3) / 4 = (year - 1980 + 3) / 4 + 495 := by omega
      unfold u32
      omega
    rw [hinner]
    exact u32_secondsto1980 hlo hhi

theorem dtime_fields {a b c : Nat} (ha : a < 30) (hb : b < 60) (hc : c < 24) :
    (a + b * 32 + c * 2048) % 32 = a ∧ (a + b * 32 + c * 2048) / 32 % 64 = b ∧
      (a + b * 32 + c * 2048) / 2048 % 32 = c := by
  refine ⟨?_, ?_, ?_⟩ <;> omega

/-- The time of the day, in two seconds. -/
theorem seconds_dtime (t : Nat) : (dtime t).toNat % 32 * 2 + (dtime t).toNat / 32 % 64 * 60 +
    (dtime t).toNat / 2048 % 32 * 3600 = t % 86400 / 2 * 2 := by
  have hnat : (dtime t).toNat = t / 2 % 30 + t / 60 % 60 * 32 + t / 3600 % 24 * 2048 := by
    rw [dtime, BitVec.toNat_ofNat, Nat.mod_eq_of_lt (by omega)]
  have ha : t / 2 % 30 < 30 := Nat.mod_lt _ (by decide)
  have hb : t / 60 % 60 < 60 := Nat.mod_lt _ (by decide)
  have hc : t / 3600 % 24 < 24 := Nat.mod_lt _ (by decide)
  have hparts : t / 2 % 30 * 2 + t / 60 % 60 * 60 + t / 3600 % 24 * 3600 = t % 86400 / 2 * 2 := by
    have hs : t / 2 % 30 * 2 = t % 60 / 2 * 2 := by omega
    have hm : t / 60 % 60 * 60 + t % 60 = t % 3600 := by omega
    have hh : t / 3600 % 24 * 3600 + t % 3600 = t % 86400 := by omega
    have heven : t % 86400 / 2 * 2 = t % 86400 - t % 60 + t % 60 / 2 * 2 := by omega
    rw [hs, heven, ← hh, ← hm]
    omega
  obtain ⟨ha', hb', hc'⟩ := dtime_fields ha hb hc
  rw [hnat, ha', hb', hc', hparts]

/-! ## What is remembered -/

/-- Every remembered result is the one that would be worked out, but for the date of the first
day of 1970, which is not when `lastddate` has not been set yet. -/
structure Cache.Ok (junk : Nat → Nat) (c : Cache) : Prop where
  day : c.lastday = c.lasttime / 86400
  time : c.lastdtime = dtime c.lasttime
  date : c.lastday = 0 ∨ c.lastddate = ddate c.lastday
  dos : c.lastdosdate = 0 ∨ c.lastseconds = dosSeconds junk c.lastdosdate

theorem ok_start (junk : Nat → Nat) : Cache.start.Ok junk := ⟨rfl, rfl, .inl rfl, .inl rfl⟩

variable {junk : Nat → Nat} {c : Cache}

theorem Cache.Ok.unix2dostime (h : c.Ok junk) (tz sec nsec : Int) :
    (DosTime.unix2dostime tz c sec nsec).1.Ok junk ∧
      (DosTime.unix2dostime tz c sec nsec).1.lasttime =
        u32 (sec - tz * 60) - u32 (sec - tz * 60) % 2 ∧
      (DosTime.unix2dostime tz c sec nsec).2 =
        ⟨(DosTime.unix2dostime tz c sec nsec).1.lastddate,
          (DosTime.unix2dostime tz c sec nsec).1.lastdtime,
          BitVec.ofInt 8 (sec % 2 * 100 + nsec / 10000000)⟩ := by
  obtain ⟨hday, htime, hdate, hdos⟩ := h
  unfold DosTime.unix2dostime
  dsimp only
  refine ⟨?_, ?_, rfl⟩
  · split
    · split
      · exact ⟨rfl, rfl, .inr rfl, hdos⟩
      · rename_i hsame
        exact ⟨(not_not.mp hsame).symm, rfl, hdate, hdos⟩
    · exact ⟨hday, htime, hdate, hdos⟩
  · split
    · split <;> rfl
    · rename_i hsame
      exact not_not.mp hsame

theorem Cache.Ok.dos2unixtime (h : c.Ok junk) (tz : Int) (d : Dos) :
    (DosTime.dos2unixtime junk tz c d).1.Ok junk := by
  obtain ⟨hday, htime, hdate, hdos⟩ := h
  unfold DosTime.dos2unixtime
  split
  · exact ⟨hday, htime, hdate, hdos⟩
  · dsimp only
    split
    · exact ⟨hday, htime, hdate, .inr rfl⟩
    · exact ⟨hday, htime, hdate, hdos⟩

theorem Cache.Ok.call (h : c.Ok junk) (x : Call) : (DosTime.call junk c x).1.Ok junk := by
  cases x with
  | unix2dostime sec nsec => exact (h.unix2dostime 0 sec nsec).1
  | dos2unixtime d => exact h.dos2unixtime 0 d

theorem Cache.Ok.run (h : c.Ok junk) (xs : List Call) : (DosTime.run junk c xs).1.Ok junk := by
  induction xs generalizing c with
  | nil => exact h
  | cons x xs ih => exact ih (h.call x)

/-- A time from 1980 on, after any calls in between. -/
theorem round_trip (h : c.Ok junk) {sec nsec : Nat} (hlo : 315532800 ≤ sec)
    (hhi : sec < 4294967296) (hn : nsec < 1000000000) {c' : Cache} (h' : c'.Ok junk) :
    (dos2unixtime junk 0 c' (unix2dostime 0 c sec nsec).2).2.1 =
      (sec, nsec / 10000000 * 10000000) := by
  obtain ⟨hok, htime, hres⟩ := h.unix2dostime 0 sec nsec
  rw [hres]
  generalize (unix2dostime 0 c sec nsec).1 = c₁ at *
  have ht : c₁.lasttime = sec - sec % 2 := by
    rw [htime]
    unfold u32
    omega
  have hday := hok.day
  obtain ⟨hne, hsec⟩ := @dosSeconds_ddate junk c₁.lastday (by omega) (by omega)
  rw [← hok.date.resolve_left (by omega)] at hne hsec
  have hdt := seconds_dtime c₁.lasttime
  rw [← hok.time] at hdt
  have hdh : (BitVec.ofInt 8 ((sec : Int) % 2 * 100 + (nsec : Int) / 10000000)).toNat =
      sec % 2 * 100 + nsec / 10000000 := by
    rw [BitVec.toNat_ofInt]
    omega
  unfold dos2unixtime
  dsimp only
  rw [if_neg hne, hdh]
  have hlast : (if c'.lastdosdate ≠ c₁.lastddate then
      ({ c' with lastdosdate := c₁.lastddate, lastseconds := dosSeconds junk c₁.lastddate },
        reads c₁.lastddate) else (c', [])).1.lastseconds = c₁.lastday * 86400 := by
    split
    · exact hsec
    · rename_i hsame
      have heq := not_not.mp hsame
      rw [← heq] at hsec hne
      rw [h'.dos.resolve_left hne, hsec]
  rw [hlast]
  refine Prod.ext ?_ ?_
  · dsimp only
    have hsum : c₁.lasttime % 86400 / 2 * 2 + (sec % 2 * 100 + nsec / 10000000) / 100 +
        c₁.lastday * 86400 = sec := by
      clear hres hdt hdh hsec hlast htime
      omega
    rw [hdt, Int.zero_mul, Int.add_zero, ← Int.natCast_add, hsum, u32,
      Int.emod_eq_of_lt (Int.natCast_nonneg _) (by omega), Int.toNat_natCast]
  · dsimp only
    omega

/-! ## Reads of the month tables -/

theorem reads_inside_iff (dd : BitVec 16) : (∀ m ∈ reads dd, m < 12) ↔ ddMonth dd ≤ 13 := by
  simp only [reads, List.mem_range]
  constructor
  · intro h
    by_contra hno
    exact absurd (h 12 (by omega)) (Nat.lt_irrefl _)
  · intro h m hm
    omega

theorem run_inside_iff (xs : List Call) : ∀ {c : Cache}, ddMonth c.lastdosdate ≤ 13 →
    ((∀ m ∈ (run junk c xs).2, m < 12) ↔ ∀ d, .dos2unixtime d ∈ xs → ddMonth d.dd ≤ 13) := by
  induction xs with
  | nil =>
      exact fun _ => ⟨fun _ d hd => absurd hd List.not_mem_nil,
        fun _ m hm => absurd hm List.not_mem_nil⟩
  | cons x xs ih =>
      intro c hc
      simp only [run, List.mem_append, or_imp, forall_and, List.mem_cons]
      cases x with
      | unix2dostime sec nsec =>
          have hkeep : (unix2dostime 0 c sec nsec).1.lastdosdate = c.lastdosdate := by
            unfold unix2dostime
            dsimp only
            split
            · split <;> rfl
            · rfl
          rw [call, ih (by rw [hkeep]; exact hc)]
          simp
      | dos2unixtime d =>
          have hone : (∀ d', Call.dos2unixtime d' = .dos2unixtime d → ddMonth d'.dd ≤ 13) ↔
              ddMonth d.dd ≤ 13 := by
            constructor
            · exact fun h => h d rfl
            · rintro h d' heq
              cases heq
              exact h
          rw [hone, call]
          unfold dos2unixtime
          by_cases h0 : d.dd = 0
          · rw [if_pos h0, ih hc, h0]
            exact and_congr_left' (iff_of_true (fun m hm => absurd hm List.not_mem_nil) (by decide))
          · rw [if_neg h0]
            dsimp only
            by_cases hsame : c.lastdosdate = d.dd
            · rw [if_neg (not_not.mpr hsame), ih hc, ← hsame]
              exact and_congr_left' (iff_of_true (fun m hm => absurd hm List.not_mem_nil) hc)
            · rw [if_pos hsame, reads_inside_iff]
              exact and_congr_right fun hd => ih hd

/-- After any calls, with any calls in between: a time from 1980 on comes back, cut to 10 ms.
And in any calls the month tables are read inside if and only if no date has month 14 or 15. -/
theorem dostime_round (junk : Nat → Nat) (xs : List Call) :
    (∀ (sec nsec : Nat) (ys : List Call), 315532800 ≤ sec → sec < 4294967296 → nsec < 1000000000 →
      let c := (run junk .start xs).1
      let r := unix2dostime 0 c sec nsec
      (dos2unixtime junk 0 (run junk r.1 ys).1 r.2).2.1 = (sec, nsec / 10000000 * 10000000)) ∧
    ((∀ m ∈ (run junk .start xs).2, m < 12) ↔ ∀ d, .dos2unixtime d ∈ xs → ddMonth d.dd ≤ 13) := by
  have hok := (ok_start junk).run xs
  refine ⟨fun sec nsec ys hlo hhi hn => ?_, run_inside_iff xs (by decide)⟩
  exact round_trip hok hlo hhi hn ((hok.unix2dostime 0 sec nsec).1.run ys)

/-- The date word of month 14 is read for at index 12 of the table. -/
theorem month_fourteen :
    ∃ m ∈ (run (fun _ => 0) .start [.dos2unixtime ⟨0x01c1, 0, 0⟩]).2, ¬m < 12 :=
  ⟨12, by decide, by decide⟩

end Obsd.DosTime
