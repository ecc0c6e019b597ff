import Mathlib
import Obsd.Runs
import Obsd.Tagged

/-!
# Reader/writer locks

`kern_rwlock.c` keeps a lock in one word: the number of readers or the
address of the writer, and below it three flags. Every change of it is one
`rw_cas`, so a process is always between two atomic steps: a load, a
compare-and-swap, a call into the sleep queue. A `Pc` says which step is
next and what the process has loaded so far; `step` is one step of one
process, and a run is any interleaving of them.

From `sleep_setup` to `sleep_finish` a process has the scheduler lock, and
`wakeup` needs it. The one place in between where it is given up is a stop
in `CURSIG`, and a wakeup that comes then is noticed.

Who holds the lock is not in the code. The multisets `rd` and `wr` record
it: a process that was let in is added, one that leaves is taken out.
-/

namespace Obsd.Rwlock

/-! ## The code -/

section Words

variable (w : Nat)

def rwlockWait : BitVec w := 1#w
def rwlockWrwant : BitVec w := 2#w
def rwlockWrlock : BitVec w := 4#w
def rwlockMask : BitVec w := 7#w

/-- `1UL << RWLOCK_READER_SHIFT` -/
def rwlockReadIncr : BitVec w := 8#w

end Words

variable {w : Nat}

/-- `RW_PROC` -/
def rwProc (p : BitVec w) : BitVec w := p &&& ~~~rwlockMask w

/-- `RW_OPMASK` of the flags of `rw_enter`. -/
inductive Op where
  | write | read | downgrade
deriving DecidableEq, Repr

/-- A `struct rwlock_op`, without the priority. -/
structure RwlockOp (w : Nat) where
  inc : BitVec w
  check : BitVec w
  waitSet : BitVec w
  procMult : BitVec w

def rwOps : Op → RwlockOp w
  | .write =>
    { inc := rwlockWrlock w, check := BitVec.allOnes w
      waitSet := rwlockWait w ||| rwlockWrwant w, procMult := 1#w }
  | .read =>
    { inc := rwlockReadIncr w, check := rwlockWrlock w, waitSet := rwlockWait w, procMult := 0#w }
  | .downgrade =>
    { inc := rwlockReadIncr w - rwlockWrlock w, check := 0#w, waitSet := 0#w, procMult := -1#w }

/-- The flags of `rw_enter`. -/
structure Flags where
  op : Op
  intr : Bool := false
  sleepfail : Bool := false
  nosleep : Bool := false
deriving DecidableEq, Repr

def inc (p : BitVec w) (op : Op) : BitVec w := (rwOps op).inc + rwProc p * (rwOps op).procMult

/-- Where a process is, with the words it has loaded. -/
inductive Pc (w : Nat) where
  | idle
  -- `rw_enter_read` and `rw_enter_write`
  | enterRead
  | enterReadCas (owner : BitVec w)
  | enterWrite
  -- `rw_enter`: the test of the loop, going to sleep, and the last `rw_cas`
  | enter (f : Flags)
  | setup (f : Flags) (o : BitVec w)
  | setupSignal (f : Flags) (o : BitVec w)
  | stopped (f : Flags) (o : BitVec w) (wchan : Bool)
  | waitCas (f : Flags) (o : BitVec w) (slsDoSleep : Bool)
  | finish (f : Flags) (slsDoSleep doSleep : Bool)
  | asleep (f : Flags)
  | woken (f : Flags)
  | acquire (f : Flags) (o : BitVec w)
  | downgradeWake
  -- `rw_exit_read` and `rw_exit_write`
  | exitRead
  | exitReadCas (owner : BitVec w)
  | exitWrite
  | exitWriteCas (owner : BitVec w)
  -- `rw_exit`
  | exit
  | exitLoop (wrlock : Bool)
  | exitCas (wrlock : Bool) (owner : BitVec w)
  | exitWake
deriving DecidableEq, Repr

/-- The functions a process can call. -/
inductive Call where
  | rwEnter (f : Flags) | rwEnterRead | rwEnterWrite | rwExit | rwExitRead | rwExitWrite
deriving DecidableEq, Repr

def Call.start : Call → Pc w
  | .rwEnter f => .enter f
  | .rwEnterRead => .enterRead
  | .rwEnterWrite => .enterWrite
  | .rwExit => .exit
  | .rwExitRead => .exitRead
  | .rwExitWrite => .exitWrite

/-- What a process does next: a call, the next step of the code, or what a signal makes of
it. -/
inductive Move where
  | call (c : Call) | run | signal | stop
deriving DecidableEq, Repr

/-- How a step changes who holds the lock. -/
inductive Hold where
  | keep | takeRead | takeWrite | dropRead | dropWrite | downgrade
deriving DecidableEq, Repr

def Op.hold : Op → Hold
  | .write => .takeWrite
  | .read => .takeRead
  | .downgrade => .downgrade

@[ext]
structure Sys (P : Type*) (w : Nat) where
  owner : BitVec w
  /-- the holder of the scheduler lock -/
  sched : Option P
  pc : P → Pc w
  rd : Multiset P
  wr : Multiset P

/-- What a step of a process does. -/
structure Effect (P : Type*) (w : Nat) where
  owner : BitVec w
  sched : Option P
  pc : Pc w
  hold : Hold := .keep
  wakeup : Bool := false

variable {P : Type*}

/-- A step that only moves the process. -/
def Sys.goto (s : Sys P w) (pc : Pc w) : Effect P w := { owner := s.owner, sched := s.sched, pc := pc }

variable [DecidableEq P]

/-- The next step of `p`, whose `struct proc` is at `addr p`. -/
def next (addr : P → BitVec w) (s : Sys P w) (p : P) : Pc w → Move → Option (Effect P w)
  | .idle, .call c => some (s.goto c.start)
  | .enterRead, .run =>
    if s.owner &&& rwlockWrlock w ≠ 0#w then some (s.goto (.enter { op := .read }))
    else some (s.goto (.enterReadCas s.owner))
  | .enterReadCas owner, .run =>
    if s.owner = owner then
      some { s.goto .idle with owner := owner + rwlockReadIncr w, hold := .takeRead }
    else some (s.goto (.enter { op := .read }))
  | .enterWrite, .run =>
    if s.owner = 0#w then
      some { s.goto .idle with owner := rwProc (addr p) ||| rwlockWrlock w, hold := .takeWrite }
    else some (s.goto (.enter { op := .write }))
  | .enter f, .run =>
    if s.owner &&& (rwOps f.op).check ≠ 0#w then
      if f.nosleep then some (s.goto .idle) else some (s.goto (.setup f s.owner))
    else some (s.goto (.acquire f s.owner))
  | .setup f o, .run =>
    if s.sched = none then
      some { s.goto (if f.intr then .setupSignal f o else .waitCas f o true) with sched := some p }
    else none
  | .setupSignal f o, .run => some (s.goto (.waitCas f o true))
  | .setupSignal f o, .signal => some (s.goto (.waitCas f o false))
  | .setupSignal f o, .stop => some { s.goto (.stopped f o true) with sched := none }
  | .stopped f o wchan, .run =>
    if s.sched = none then
      some { s.goto (if wchan then .setupSignal f o else .waitCas f o false) with sched := some p }
    else none
  | .waitCas f o slsDoSleep, .run =>
    if s.owner = o then
      some { s.goto (.finish f slsDoSleep true) with owner := o ||| (rwOps f.op).waitSet }
    else some (s.goto (.finish f slsDoSleep false))
  | .finish f slsDoSleep doSleep, .run =>
    some { s.goto (if slsDoSleep && doSleep then .asleep f else .woken f) with sched := none }
  -- a signal takes an interruptible sleeper off the queue, and then ends `rw_enter`
  | .asleep f, .signal => if f.intr then some (s.goto (.woken f)) else none
  | .woken f, .signal => if f.intr then some (s.goto .idle) else none
  | .woken f, .run => some (s.goto (if f.sleepfail then .idle else .enter f))
  | .acquire f o, .run =>
    if s.owner = o then
      let old := rwlockWrlock w ||| rwlockWait w
      some { s.goto (if o &&& old = old then .downgradeWake else .idle) with
        owner := o + inc (addr p) f.op, hold := f.op.hold }
    else some (s.goto (.enter f))
  | .exitRead, .run =>
    if s.owner &&& rwlockWait w ≠ 0#w then some (s.goto .exit) else some (s.goto (.exitReadCas s.owner))
  | .exitReadCas owner, .run =>
    if s.owner = owner then
      some { s.goto .idle with owner := owner - rwlockReadIncr w, hold := .dropRead }
    else some (s.goto .exit)
  | .exitWrite, .run =>
    if s.owner &&& rwlockWait w ≠ 0#w then some (s.goto .exit) else some (s.goto (.exitWriteCas s.owner))
  | .exitWriteCas owner, .run =>
    if s.owner = owner then some { s.goto .idle with owner := 0#w, hold := .dropWrite }
    else some (s.goto .exit)
  | .exit, .run => some (s.goto (.exitLoop (decide (s.owner &&& rwlockWrlock w ≠ 0#w))))
  | .exitLoop wrlock, .run => some (s.goto (.exitCas wrlock s.owner))
  | .exitCas wrlock owner, .run =>
    if s.owner = owner then
      some { s.goto (if owner &&& rwlockWait w ≠ 0#w then .exitWake else .idle) with
        owner := if wrlock then 0#w
          else (owner - rwlockReadIncr w) &&& ~~~(rwlockWait w ||| rwlockWrwant w)
        hold := if wrlock then .dropWrite else .dropRead }
    else some (s.goto (.exitLoop wrlock))
  | .exitWake, .run => if s.sched = none then some { s.goto .idle with wakeup := true } else none
  | .downgradeWake, .run => if s.sched = none then some { s.goto .idle with wakeup := true } else none
  | _, _ => none

/-- `wakeup`, for a process that is on the queue. -/
def Pc.wake : Pc w → Pc w
  | .asleep f => .woken f
  | .stopped f o _ => .stopped f o false
  | pc => pc

def Hold.rd (p : P) (rd : Multiset P) : Hold → Multiset P
  | .takeRead | .downgrade => p ::ₘ rd
  | .dropRead => rd.erase p
  | _ => rd

def Hold.wr (p : P) (wr : Multiset P) : Hold → Multiset P
  | .takeWrite => p ::ₘ wr
  | .dropWrite | .downgrade => wr.erase p
  | _ => wr

def Sys.apply (s : Sys P w) (p : P) (e : Effect P w) : Sys P w :=
  { owner := e.owner
    sched := e.sched
    pc := fun q => if q = p then e.pc else if e.wakeup then (s.pc q).wake else s.pc q
    rd := e.hold.rd p s.rd
    wr := e.hold.wr p s.wr }

/-- One step of one process. -/
def step (addr : P → BitVec w) (s : Sys P w) (a : P × Move) : Option (Sys P w) :=
  (next addr s a.1 (s.pc a.1) a.2).map (s.apply a.1)

/-- `rw_init` -/
def rwInit : Sys P w := { owner := 0#w, sched := none, pc := fun _ => .idle, rd := 0, wr := 0 }

/-- Only a holder calls to release or to downgrade. -/
def ByHolder (s : Sys P w) (p : P) : Call → Prop
  | .rwExit => p ∈ s.rd ∨ p ∈ s.wr
  | .rwExitRead => p ∈ s.rd
  | .rwExitWrite => p ∈ s.wr
  | .rwEnter f => f.op = .downgrade → p ∈ s.wr
  | _ => True

def Allowed (s : Sys P w) (a : P × Move) : Prop := ∀ c, a.2 = .call c → ByHolder s a.1 c

/-! ## The layout of the word -/

open Tagged

/-- The two waiter flags: `RWLOCK_WRWANT` is never set alone. -/
def Waiters (f : Nat) : Prop := f = 0 ∨ f = 1 ∨ f = 3

theorem Waiters.lt {f : Nat} (h : Waiters f) : f < 2 ^ 3 := by
  obtain rfl | rfl | rfl := h <;> decide

theorem Waiters.lt_wrlock {f : Nat} (h : Waiters f) : 4 + f < 2 ^ 3 := by
  obtain rfl | rfl | rfl := h <;> decide

/-- With the lock word `o`, these are the holders, and these the waiter flags. -/
inductive Layout (addr : P → BitVec w) (o : BitVec w) (rd wr : Multiset P) (f : Nat) : Prop where
  | readers (hf : Waiters f) (hfree : rd = 0 → f = 0) (hwr : wr = 0) (ho : o = tagged 3 rd.card f)
  | writer (p : P) (hf : Waiters f) (hrd : rd = 0) (hwr : wr = {p})
      (ho : o = tagged 3 ((addr p).toNat / 2 ^ 3) (4 + f))

theorem rwProc_eq (x : BitVec w) : rwProc x = tagged 3 (x.toNat / 2 ^ 3) 0 := by
  have hlow : x.toNat % 2 ^ 3 < 2 ^ 3 := Nat.mod_lt _ (by decide)
  have hx := eq_tagged 3 x
  rw [rwProc, rwlockMask]
  conv_lhs => rw [hx]
  rw [tagged_and_not hlow (by decide)]
  rw [show (7 : Nat) = 2 ^ 3 - 1 from rfl, Nat.and_two_pow_sub_one_eq_mod, Nat.mod_mod, Nat.sub_self]

variable {addr : P → BitVec w} {o : BitVec w} {rd wr : Multiset P} {f : Nat} {p : P}

namespace Layout

omit [DecidableEq P] in
theorem waiters (h : Layout addr o rd wr f) : Waiters f := by
  cases h with
  | readers hf => exact hf
  | writer p hf => exact hf

omit [DecidableEq P] in
theorem wrlock (hw : 4 ≤ w) (h : Layout addr o rd wr f) : o &&& rwlockWrlock w = 0#w ↔ wr = 0 := by
  rw [rwlockWrlock]
  cases h with
  | readers hf hfree hwr ho =>
    rw [ho, tagged_and hf.lt (by decide),
      ofNat_eq_zero (k := 3) (by omega) (Nat.and_lt_two_pow _ (by decide))]
    obtain rfl | rfl | rfl := hf <;> simp [hwr]
  | writer p hf hrd hwr ho =>
    rw [ho, tagged_and hf.lt_wrlock (by decide),
      ofNat_eq_zero (k := 3) (by omega) (Nat.and_lt_two_pow _ (by decide))]
    obtain rfl | rfl | rfl := hf <;> simp [hwr]

omit [DecidableEq P] in
theorem wait (hw : 4 ≤ w) (h : Layout addr o rd wr f) : o &&& rwlockWait w = 0#w ↔ f = 0 := by
  rw [rwlockWait]
  cases h with
  | readers hf hfree hwr ho =>
    rw [ho, tagged_and hf.lt (by decide),
      ofNat_eq_zero (k := 3) (by omega) (Nat.and_lt_two_pow _ (by decide))]
    obtain rfl | rfl | rfl := hf <;> simp
  | writer p hf hrd hwr ho =>
    rw [ho, tagged_and hf.lt_wrlock (by decide),
      ofNat_eq_zero (k := 3) (by omega) (Nat.and_lt_two_pow _ (by decide))]
    obtain rfl | rfl | rfl := hf <;> simp

omit [DecidableEq P] in
/-- A word that is 0 is a free lock, and a free lock has no flags left in it. -/
theorem eq_zero (hw : 4 ≤ w) (h : Layout addr o rd wr f) (hfit : rd.card < 2 ^ (w - 3)) :
    o = 0#w ↔ rd = 0 ∧ wr = 0 := by
  constructor
  · rintro rfl
    have hwr : wr = 0 := (h.wrlock hw).mp BitVec.zero_and
    cases h with
    | readers hf hfree _ ho =>
      have hn : (0#w).toNat = 2 ^ 3 * rd.card + f := by
        rw [ho, toNat_tagged (fits (by omega) hfit hf.lt)]
      rw [BitVec.toNat_zero] at hn
      exact ⟨Multiset.card_eq_zero.mp (by omega), hwr⟩
    | writer p hf hrd => exact ⟨hrd, hwr⟩
  · rintro ⟨rfl, rfl⟩
    cases h with
    | readers hf hfree hwr ho =>
      rw [ho, hfree rfl]
      rfl
    | writer p hf hrd hwr => exact absurd hwr.symm (Multiset.singleton_ne_zero p)

omit [DecidableEq P] in
theorem of_mem_wr (h : Layout addr o rd wr f) (hp : p ∈ wr) :
    Waiters f ∧ rd = 0 ∧ wr = {p} ∧ o = tagged 3 ((addr p).toNat / 2 ^ 3) (4 + f) := by
  cases h with
  | readers hf hfree hwr => exact absurd hp (hwr ▸ Multiset.notMem_zero p)
  | writer q hf hrd hwr ho =>
    obtain rfl := Multiset.mem_singleton.mp (hwr ▸ hp)
    exact ⟨hf, hrd, hwr, ho⟩

theorem of_mem_rd (h : Layout addr o rd wr f) (hp : p ∈ rd) :
    Waiters f ∧ wr = 0 ∧ o = tagged 3 ((rd.erase p).card + 1) f := by
  cases h with
  | readers hf hfree hwr ho => exact ⟨hf, hwr, by rw [Multiset.card_erase_add_one hp, ho]⟩
  | writer q hf hrd => exact absurd hp (hrd ▸ Multiset.notMem_zero p)

/-! Every `rw_cas` that succeeds takes one layout to another. -/

omit [DecidableEq P] in
theorem takeRead (hw : 4 ≤ w) (h : Layout addr o rd wr f) (hc : o &&& rwlockWrlock w = 0#w) :
    Layout addr (o + rwlockReadIncr w) (p ::ₘ rd) wr f := by
  have hwr := (h.wrlock hw).mp hc
  cases h with
  | readers hf hfree _ ho =>
    refine .readers hf (fun h0 => absurd h0 (Multiset.cons_ne_zero)) hwr ?_
    rw [ho, rwlockReadIncr, Multiset.card_cons]
    exact tagged_add 3 _ _
  | writer q hf hrd hq => exact absurd (hq.symm.trans hwr) (Multiset.singleton_ne_zero q)

omit [DecidableEq P] in
theorem takeWrite (hw : 4 ≤ w) (h : Layout addr o rd wr f) (hfit : rd.card < 2 ^ (w - 3))
    (h0 : o = 0#w) : Layout addr (rwProc (addr p) ||| rwlockWrlock w) rd (p ::ₘ wr) 0 := by
  obtain ⟨hrd, hwr⟩ := (h.eq_zero hw hfit).mp h0
  refine .writer p (.inl rfl) hrd (by rw [hwr]; rfl) ?_
  rw [rwProc_eq, rwlockWrlock, tagged_or (by decide) (by decide)]
  rfl

theorem dropRead (hw : 4 ≤ w) (h : Layout addr o rd wr f) (hp : p ∈ rd)
    (hc : o &&& rwlockWait w = 0#w) : Layout addr (o - rwlockReadIncr w) (rd.erase p) wr 0 := by
  obtain ⟨hf, hwr, ho⟩ := h.of_mem_rd hp
  obtain rfl := (h.wait hw).mp hc
  refine .readers hf (fun _ => rfl) hwr ?_
  rw [ho, rwlockReadIncr]
  exact tagged_sub 3 _ _

theorem dropReadWaiters (h : Layout addr o rd wr f) (hp : p ∈ rd) :
    Layout addr ((o - rwlockReadIncr w) &&& ~~~(rwlockWait w ||| rwlockWrwant w)) (rd.erase p) wr 0 := by
  obtain ⟨hf, hwr, ho⟩ := h.of_mem_rd hp
  refine .readers (.inl rfl) (fun _ => rfl) hwr ?_
  have hflags : rwlockWait w ||| rwlockWrwant w = BitVec.ofNat w 3 := by
    rw [rwlockWait, rwlockWrwant, ← BitVec.ofNat_or]
    rfl
  have hsub : o - rwlockReadIncr w = tagged 3 (rd.erase p).card f := by
    rw [ho, rwlockReadIncr]
    exact tagged_sub 3 _ _
  rw [hsub, hflags, tagged_and_not hf.lt (by decide)]
  obtain rfl | rfl | rfl := hf <;> rfl

theorem dropWrite (h : Layout addr o rd wr f) (hp : p ∈ wr) : Layout addr 0#w rd (wr.erase p) 0 := by
  obtain ⟨-, hrd, hwr, -⟩ := h.of_mem_wr hp
  refine .readers (.inl rfl) (fun _ => rfl) ?_ ?_
  · rw [hwr, Multiset.erase_singleton]
  · rw [hrd]
    rfl

theorem downgrade (h : Layout addr o rd wr f) (hp : p ∈ wr) :
    Layout addr (o + inc (addr p) .downgrade) (p ::ₘ rd) (wr.erase p) f := by
  obtain ⟨hf, hrd, hwr, ho⟩ := h.of_mem_wr hp
  refine .readers hf (fun h0 => absurd h0 Multiset.cons_ne_zero) ?_ ?_
  · rw [hwr, Multiset.erase_singleton]
  · have h8 : (tagged 3 1 f : BitVec w) = BitVec.ofNat w 4 + BitVec.ofNat w f + BitVec.ofNat w 4 := by
      rw [tagged, ← BitVec.ofNat_add, ← BitVec.ofNat_add]
      congr 1
      omega
    have h4 : rwlockReadIncr w = BitVec.ofNat w 4 + BitVec.ofNat w 4 := by
      rw [rwlockReadIncr, ← BitVec.ofNat_add]
    rw [ho, inc, rwProc_eq, tagged_eq_add, BitVec.ofNat_add, hrd]
    simp only [rwOps, rwlockWrlock, h4, Multiset.card_cons, Multiset.card_zero, Nat.zero_add, h8]
    grind

omit [DecidableEq P] in
/-- Flags are only set on a lock that is held. -/
theorem setFlags {c : Nat} (h : Layout addr o rd wr f) (hheld : rd = 0 → wr ≠ 0) (hc : c < 4)
    (hfc : Waiters (f ||| c)) : Layout addr (o ||| BitVec.ofNat w c) rd wr (f ||| c) := by
  cases h with
  | readers hf hfree hwr ho =>
    refine .readers hfc (fun h0 => absurd hwr (hheld h0)) hwr ?_
    rw [ho, tagged_or hf.lt (by omega)]
  | writer p hf hrd hwr ho =>
    refine .writer p hfc hrd hwr ?_
    rw [ho, tagged_or hf.lt_wrlock (by omega)]
    -- the lock flag is above both
    have habove (x : Nat) (hx : x < 2 ^ 2) : 4 + x = 4 ||| x := Nat.two_pow_add_eq_or_of_lt hx 1
    have hf4 : f < 2 ^ 2 := by
      obtain rfl | rfl | rfl := hf <;> decide
    rw [habove f hf4, Nat.or_assoc, ← habove _ (Nat.or_lt_two_pow hf4 hc)]

omit [DecidableEq P] in
/-- Whoever finds the lock taken sets `RWLOCK_WAIT`. -/
theorem setWait (hw : 4 ≤ w) (h : Layout addr o rd wr f) {op : Op}
    (hc : o &&& (rwOps op).check ≠ 0#w) :
    ∃ f', f' ≠ 0 ∧ Layout addr (o ||| (rwOps op).waitSet) rd wr f' := by
  cases op with
  | write =>
    have ho : o ≠ 0#w := by
      rintro rfl
      exact hc BitVec.zero_and
    have hheld : rd = 0 → wr ≠ 0 := by
      rintro hrd hwr
      refine ho ((h.eq_zero hw ?_).mpr ⟨hrd, hwr⟩)
      rw [hrd, Multiset.card_zero]
      exact Nat.two_pow_pos _
    have hset : (rwOps .write).waitSet = BitVec.ofNat w 3 := by
      rw [rwOps, rwlockWait, rwlockWrwant, ← BitVec.ofNat_or]
      rfl
    have h3 : f ||| 3 = 3 := by
      obtain rfl | rfl | rfl := h.waiters <;> rfl
    refine ⟨f ||| 3, by rw [h3]; decide, ?_⟩
    rw [hset]
    exact h.setFlags hheld (by decide) (.inr (.inr h3))
  | read =>
    have hwr : wr ≠ 0 := fun hwr => hc ((h.wrlock hw).mpr hwr)
    have h1 : f ||| 1 = 1 ∨ f ||| 1 = 3 := by
      obtain rfl | rfl | rfl := h.waiters
      · exact .inl rfl
      · exact .inl rfl
      · exact .inr rfl
    refine ⟨f ||| 1, by omega, ?_⟩
    exact h.setFlags (fun _ => hwr) (by decide) (.inr h1)
  | downgrade => exact absurd BitVec.and_zero hc

end Layout

end Obsd.Rwlock
