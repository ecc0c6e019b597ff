import Mathlib
import Obsd.Circq
import Obsd.Runs

/-!
# Timeouts

The hierarchical timing wheel of `kern/kern_timeout.c`: four levels of 256
buckets and a worklist. A new timeout goes to the worklist, from which
`softclock` calls it if it is due and else puts it in a bucket chosen by
the time that is left; `timeout_hardclock_update` moves the buckets whose
turn it is back to the worklist. All of it is done under one mutex, which
`softclock` gives up for each call, so an iteration of its loop is one step.
-/

namespace Obsd.Timeout

open Circq

/-! ## Data -/

def wheelsize : Nat := 256
def wheelbits : Nat := 8

/-- The heads of the queues: the worklist and the buckets. -/
inductive Head where
  | todo
  | wheel (b : Nat)
deriving DecidableEq, Repr

/-- A `struct timeout`; the function and its argument stand for themselves. -/
structure Timeout where
  toTime : BitVec 32 := 0#32
  /-- `TIMEOUT_ONQUEUE` -/
  onqueue : Bool := false
  /-- `TIMEOUT_TRIGGERED` -/
  triggered : Bool := false
deriving Repr

/-- What the mutex protects. -/
structure Kernel where
  ticks : BitVec 32
  timeouts : Nat → Timeout := fun _ => {}
  queues : Queues Head Nat := fun _ => []

/-! ## Buckets -/

/-- `MASKWHEEL`. `ticks` and times are signed. -/
def maskwheel (wheel : Nat) (time : BitVec 32) : Nat :=
  (time.sshiftRight (wheel * wheelbits) &&& 255#32).toNat

def bucketOf (wheel : Nat) (time : BitVec 32) : Head := .wheel (maskwheel wheel time + wheel * wheelsize)

/-- `BUCKET(rel, abs)` -/
def bucket (rel abs : BitVec 32) : Head :=
  if rel.toInt ≤ 2 ^ (2 * wheelbits) then
    if rel.toInt ≤ 2 ^ wheelbits then bucketOf 0 abs else bucketOf 1 abs
  else if rel.toInt ≤ 2 ^ (3 * wheelbits) then bucketOf 2 abs
  else bucketOf 3 abs

/-- `MOVEBUCKET` -/
def movebucket (wheel : Nat) (time : BitVec 32) (q : Queues Head Nat) : Queues Head Nat :=
  append q .todo (bucketOf wheel time)

/-! ## Operations -/

def Kernel.setTimeout (k : Kernel) (tmo : Nat) (t : Timeout) : Kernel :=
  { k with timeouts := Function.update k.timeouts tmo t }

def timeoutAdd (k : Kernel) (new : Nat) (toTicks : BitVec 32) : Kernel :=
  let oldTime := (k.timeouts new).toTime
  let t := { k.timeouts new with toTime := toTicks + k.ticks, triggered := false }
  if t.onqueue then
    let k := k.setTimeout new t
    -- moved earlier: reschedule it now
    if (t.toTime - k.ticks).toInt < (oldTime - k.ticks).toInt then
      { k with queues := insert (remove k.queues new) new .todo }
    else k
  else
    let k := k.setTimeout new { t with onqueue := true }
    { k with queues := insert k.queues new .todo }

def timeoutDel (k : Kernel) (tmo : Nat) : Kernel × Bool :=
  let t := k.timeouts tmo
  if t.onqueue then
    ({ k.setTimeout tmo { t with onqueue := false, triggered := false } with queues := remove k.queues tmo }, true)
  else (k.setTimeout tmo { t with triggered := false }, false)

/-- The buckets whose turn it is at `ticks`. -/
def turn (ticks : BitVec 32) (q : Queues Head Nat) : Queues Head Nat :=
  let q := movebucket 0 ticks q
  if maskwheel 0 ticks = 0 then
    let q := movebucket 1 ticks q
    if maskwheel 1 ticks = 0 then
      let q := movebucket 2 ticks q
      if maskwheel 2 ticks = 0 then movebucket 3 ticks q else q
    else q
  else q

/-- Returns whether there is something to do for `softclock`. -/
def timeoutHardclockUpdate (k : Kernel) : Kernel × Bool :=
  let ticks := k.ticks + 1#32
  let q := turn ticks k.queues
  ({ k with ticks := ticks, queues := q }, !(q .todo).isEmpty)

/-- One iteration of the loop of `softclock`, with the timeout whose function it calls;
`none` if the worklist is empty. -/
def softclock (k : Kernel) : Option (Kernel × Option Nat) :=
  match k.queues .todo with
  | [] => none
  | tmo :: _ =>
    let t := k.timeouts tmo
    let q := remove k.queues tmo
    if (t.toTime - k.ticks).toInt > 0 then
      some ({ k with queues := insert q tmo (bucket (t.toTime - k.ticks) t.toTime) }, none)
    else some ({ k.setTimeout tmo { t with onqueue := false, triggered := true } with queues := q }, some tmo)

/-! ## The system

Beside the kernel's state, what happened so far: the number of the current
tick, never wrapping; when each armed timeout is to be called; and how
often each timeout was armed, called and cancelled.
-/

structure State where
  kernel : Kernel
  /-- `softclock` has found the worklist empty since the last tick. -/
  drained : Bool := true
  now : Nat
  due : Nat → Option Nat := fun _ => none
  /-- Armed with 0 ticks after the worklist was drained. -/
  late : Nat → Bool := fun _ => false
  armed : Nat → Nat := fun _ => 0
  called : Nat → Nat := fun _ => 0
  /-- Deleted, or armed anew, before it was called. -/
  cancelled : Nat → Nat := fun _ => 0

inductive Act where
  | add (tmo : Nat) (toTicks : BitVec 32)
  | del (tmo : Nat)
  | hardclock
  | softclock

/-- A machine that is started at tick `t`. -/
def boot (t : Nat) : State := { kernel := { ticks := BitVec.ofNat 32 t }, now := t }

/-- `timeout_add` wants `0 <= to_ticks`; the next tick comes when the worklist has been
drained after the last. -/
def step (s : State) : Act → Option State
  | .add tmo n =>
    if n.toInt < 0 then none
    else some { s with
      kernel := timeoutAdd s.kernel tmo n
      due := Function.update s.due tmo (some (s.now + n.toNat))
      late := Function.update s.late tmo (s.drained && n == 0#32)
      armed := Function.update s.armed tmo (s.armed tmo + 1)
      cancelled := Function.update s.cancelled tmo (s.cancelled tmo + (s.kernel.timeouts tmo).onqueue.toNat) }
  | .del tmo =>
    let (k, ret) := timeoutDel s.kernel tmo
    some { s with
      kernel := k
      due := Function.update s.due tmo none
      cancelled := Function.update s.cancelled tmo (s.cancelled tmo + ret.toNat) }
  | .hardclock =>
    if s.drained then
      some { s with kernel := (timeoutHardclockUpdate s.kernel).1, drained := false, now := s.now + 1 }
    else none
  | .softclock =>
    match softclock s.kernel with
    | none => some { s with drained := true }
    | some (k, none) => some { s with kernel := k }
    | some (k, some tmo) =>
      some { s with kernel := k, due := Function.update s.due tmo none, called := Function.update s.called tmo (s.called tmo + 1) }

end Obsd.Timeout
