import Mathlib
import Obsd.Runs

/-!
# Advisory record locks

`lf_advlock` and what it calls. A file has a list of locks, sorted for
each owner by the first byte; a request that finds another owner's lock
in its way sleeps, queued on that lock (`lf_blkhd`), with `lf_next`
pointing to it. The same `lf_next` links the locks of a file, which here
is the order of the list `locks`; a `struct lockf **prev` is the place
between the locks passed, nearest first, and the rest.

`off_t` is an `Int`, brought back to 64 bits (`offT`) where the code
computes one; `-1` as an end stands for the end of the file. Every
`struct lockf` has an address, never used again after `lf_free`. Between
two sleeps a process is alone in the kernel; the count of locks a user
has is left out but for the refusal it leads to, and a `pool_get` that
may sleep returns at once.
-/

namespace Obsd.Lf

/-! ## Data -/

/-- A value as `off_t` keeps it. -/
def offT (x : Int) : Int := x.bmod (2 ^ 64)

/-- The largest `off_t`. -/
def offMax : Int := 2 ^ 63 - 1

/-- What an `lf_id` may point to. -/
inductive Caddr where
  | proc (p : Nat)
  | filedesc (n : Nat)
  | file (n : Nat)
deriving DecidableEq, Repr

inductive LType where
  | rdlck
  | unlck
  | wrlck
deriving DecidableEq, Repr

structure LFlags where
  wait : Bool := false
  flock : Bool := false
  posix : Bool := false
deriving DecidableEq, Repr

/-- A `struct lockf`; the requests queued on it are named by their addresses. -/
structure Lockf where
  addr : Nat
  lfFlags : LFlags
  lfType : LType
  lfStart : Int
  lfEnd : Int
  lfId : Caddr
  lfPid : Int
  lfBlkhd : List Nat := []
deriving DecidableEq, Repr

/-- A process in the `tsleep` of `lf_setlock`, with its request. `wchan` is whether
it still sleeps; if not, it has been made runnable but has not run. -/
structure Sleeper where
  proc : Nat
  lock : Lockf
  lfNext : Option Nat
  wchan : Bool
deriving DecidableEq, Repr

/-- The locks of a file, the processes asleep for one, the next address to be
given out, and those given back. -/
structure File where
  locks : List Lockf := []
  sleepers : List Sleeper := []
  next : Nat := 0
  freed : List Nat := []
deriving DecidableEq, Repr

/-! ## Finding an overlap -/

/-- The cases of `lf_findoverlap`, of an `overlap` against a `lock`. -/
inductive OvCase where
  | noOverlap
  | equal
  | contains
  | contained
  | startsBefore
  | endsAfter
  | panics
deriving DecidableEq, Repr

def ovCase (lf lock : Lockf) : OvCase :=
  let start := lock.lfStart
  let end_ := lock.lfEnd
  if (lf.lfEnd ≠ -1 ∧ start > lf.lfEnd) ∨ (end_ ≠ -1 ∧ lf.lfStart > end_) then .noOverlap
  else if lf.lfStart = start ∧ lf.lfEnd = end_ then .equal
  else if lf.lfStart ≤ start ∧ (lf.lfEnd = -1 ∨ (end_ ≠ -1 ∧ lf.lfEnd ≥ end_)) then .contains
  else if start ≤ lf.lfStart ∧ (end_ = -1 ∨ (lf.lfEnd ≠ -1 ∧ end_ ≥ lf.lfEnd)) then .contained
  else if lf.lfStart < start ∧ (lf.lfEnd ≥ start ∨ lf.lfEnd = -1) then .startsBefore
  else if lf.lfStart > start ∧ end_ ≠ -1 ∧ (lf.lfEnd > end_ ∨ lf.lfEnd = -1) then .endsAfter
  else .panics

/-- Whose locks are looked at. -/
inductive Whose where
  | self
  | others
deriving DecidableEq, Repr

def Whose.skips (type : Whose) (lf lock : Lockf) : Bool :=
  match type with
  | .self => decide (lf.lfId ≠ lock.lfId)
  | .others => decide (lf.lfId = lock.lfId)

/-- What `lf_findoverlap` returns: the case, the locks passed, and the rest from
the overlap on. -/
structure Found where
  ovcase : OvCase
  prev : List Lockf
  overlap : List Lockf
deriving DecidableEq, Repr

def lfFindoverlap (type : Whose) (lock : Lockf) : (prev lf : List Lockf) → Found
  | prev, [] => ⟨.noOverlap, prev, []⟩
  | prev, lf :: next =>
    if type.skips lf lock then lfFindoverlap type lock (lf :: prev) next
    else if ovCase lf lock = .noOverlap then
      -- the own locks are sorted: none behind this one overlaps
      if type = .self ∧ lock.lfEnd ≠ -1 ∧ lf.lfStart > lock.lfEnd then ⟨.noOverlap, prev, lf :: next⟩
      else lfFindoverlap type lock (lf :: prev) next
    else ⟨ovCase lf lock, prev, lf :: next⟩

def getblockLoop (lock : Lockf) : (fuel : Nat) → (lf : List Lockf) → Option Lockf
  | 0, _ => none
  | fuel + 1, lf =>
    let f := lfFindoverlap .others lock [] lf
    match f.ovcase, f.overlap with
    | .noOverlap, _ => none
    | _, [] => none
    | _, overlap :: next =>
      if lock.lfType = .wrlck ∨ overlap.lfType = .wrlck then some overlap
      else getblockLoop lock fuel next

/-- The first lock of another owner that is in the way. -/
def lfGetblock (lock : Lockf) (locks : List Lockf) : Option Lockf :=
  getblockLoop lock (locks.length + 1) locks

/-! ## The queues -/

/-- `lf_wakelock`, as far as the sleepers go; the queue is empty afterwards. -/
def lfWakelock (lock : Lockf) (sleepers : List Sleeper) : List Sleeper :=
  sleepers.map fun r =>
    if r.lock.addr ∈ lock.lfBlkhd then { r with lfNext := none, wchan := false } else r

/-- The requests queued on `overlap` are moved to `lock`. -/
def moveBlkhd (overlap lock : Lockf) (sleepers : List Sleeper) : List Sleeper :=
  sleepers.map fun r =>
    if r.lock.addr ∈ overlap.lfBlkhd then { r with lfNext := some lock.addr } else r

/-! ## Clearing a range -/

/-- What is left of a lock before the range of another. -/
def Lockf.upTo (lock1 lock2 : Lockf) : Lockf := { lock1 with lfEnd := offT (lock2.lfStart - 1) }

/-- What is left of a lock behind the range of another. -/
def Lockf.fromEnd (lock1 lock2 : Lockf) : Lockf := { lock1 with lfStart := offT (lock2.lfEnd + 1) }

/-- Nobody waits on a lock whose waiters were woken. -/
def Lockf.woken (lock : Lockf) : Lockf := { lock with lfBlkhd := [] }

/-- The third part of a lock split in three, a new one at `fresh`. -/
def Lockf.splitlock (lock1 lock2 : Lockf) (fresh : Nat) : Lockf :=
  { lock1 with addr := fresh, lfStart := offT (lock2.lfEnd + 1), lfBlkhd := [] }

/-- `lf_split`: what stands before and behind `lock2` when it has been cut out of
`lock1`. -/
def lfSplit (lock1 lock2 : Lockf) (fresh : Nat) : List Lockf × List Lockf :=
  if lock1.lfStart = lock2.lfStart then ([], [lock1.fromEnd lock2])
  else if lock1.lfEnd = lock2.lfEnd then ([lock1.upTo lock2], [])
  else ([lock1.upTo lock2], [lock1.splitlock lock2 fresh])

/-- The list, the sleepers and the addresses given back. -/
structure Placed where
  locks : List Lockf
  sleepers : List Sleeper
  freed : List Nat
deriving DecidableEq, Repr

def clearLoop (lock : Lockf) (fresh : Nat) :
    (fuel : Nat) → (prev lf : List Lockf) → List Sleeper → List Nat → Placed
  | 0, prev, lf, sleepers, freed => ⟨prev.reverse ++ lf, sleepers, freed⟩
  | fuel + 1, prev, lf, sleepers, freed =>
    let f := lfFindoverlap .self lock prev lf
    let prev := f.prev
    match f.ovcase, f.overlap with
    | .equal, overlap :: next =>
      ⟨prev.reverse ++ next, lfWakelock overlap sleepers, overlap.addr :: freed⟩
    | .contains, overlap :: next =>
      let sleepers := lfWakelock overlap sleepers
      if overlap.lfStart = lock.lfStart then
        ⟨prev.reverse ++ overlap.woken.fromEnd lock :: next, sleepers, freed⟩
      else
        let (left, right) := lfSplit overlap.woken lock fresh
        ⟨prev.reverse ++ left ++ right ++ next, sleepers, freed⟩
    | .contained, overlap :: next =>
      clearLoop lock fresh fuel prev next (lfWakelock overlap sleepers) (overlap.addr :: freed)
    | .startsBefore, overlap :: next =>
      clearLoop lock fresh fuel (overlap.woken.upTo lock :: prev) next (lfWakelock overlap sleepers)
        freed
    | .endsAfter, overlap :: next =>
      ⟨prev.reverse ++ overlap.woken.fromEnd lock :: next, lfWakelock overlap sleepers, freed⟩
    | _, rest => ⟨prev.reverse ++ rest, sleepers, freed⟩

/-- Remove the range of `lock` from the locks of its owner, and wake whoever waits
on one that is cut. -/
def lfClearlock (lock : Lockf) (F : File) : File :=
  let r := clearLoop lock F.next (F.locks.length + 1) [] F.locks F.sleepers F.freed
  { locks := r.locks, sleepers := r.sleepers, next := F.next + 1, freed := r.freed }

/-! ## Setting a lock -/

/-- Others may be able to get at a lock that goes from writing to reading. -/
def downgrades (lock overlap : Lockf) : Bool :=
  decide (lock.lfType = .rdlck ∧ overlap.lfType = .wrlck)

/-- The loop of `lf_setlock` once nothing is in the way. While `needtolink`, `before`
is what stands before `prev`; after it, `before` is what stands before `lock`,
and `mid` what was passed since. -/
def setLoop (fresh : Nat) :
    (fuel : Nat) → (needtolink : Bool) → (before mid block : List Lockf) → Lockf →
      List Sleeper → List Nat → Placed
  | 0, needtolink, before, mid, block, lock, sleepers, freed =>
    ⟨before.reverse ++ (if needtolink then [] else lock :: mid.reverse) ++ block, sleepers, freed⟩
  | fuel + 1, needtolink, before, mid, block, lock, sleepers, freed =>
    let f := lfFindoverlap .self lock (if needtolink then before else mid) block
    let before := if needtolink then f.prev else before
    let mid := if needtolink then [] else f.prev
    -- the list up to `prev`
    let upto := before.reverse ++ if needtolink then [] else lock :: mid.reverse
    match f.ovcase, f.overlap with
    | .noOverlap, rest => ⟨before.reverse ++ lock :: mid.reverse ++ rest, sleepers, freed⟩
    | .equal, overlap :: next =>
      let overlap' := if downgrades lock overlap then overlap.woken else overlap
      let sleepers := if downgrades lock overlap then lfWakelock overlap sleepers else sleepers
      ⟨upto ++ { overlap' with lfType := lock.lfType } :: next, sleepers, lock.addr :: freed⟩
    | .contains, overlap :: next =>
      if overlap.lfType = lock.lfType then
        ⟨upto ++ overlap :: next, sleepers, lock.addr :: freed⟩
      else
        let sleepers := lfWakelock overlap sleepers
        -- a lock that is linked already leaves behind what lies between its places
        if overlap.lfStart = lock.lfStart then
          ⟨before.reverse ++ lock :: overlap.woken.fromEnd lock :: next, sleepers, freed⟩
        else
          let (left, right) := lfSplit overlap.woken lock fresh
          ⟨before.reverse ++ (if needtolink then left else []) ++ lock :: right ++ next,
            sleepers, freed⟩
    | .contained, overlap :: next =>
      let down := downgrades lock overlap
      let sleepers := if down then lfWakelock overlap sleepers else moveBlkhd overlap lock sleepers
      let lock :=
        if down then lock else { lock with lfBlkhd := lock.lfBlkhd ++ overlap.lfBlkhd }
      setLoop fresh fuel false before mid next lock sleepers (overlap.addr :: freed)
    | .startsBefore, overlap :: next =>
      setLoop fresh fuel false
        (if needtolink then overlap.woken.upTo lock :: before else before) [] next lock
        (lfWakelock overlap sleepers) freed
    | .endsAfter, overlap :: next =>
      ⟨before.reverse ++ lock :: mid.reverse ++ overlap.woken.fromEnd lock :: next,
        lfWakelock overlap sleepers, freed⟩
    | _, rest => ⟨upto ++ rest, sleepers, freed⟩

/-- Link `lock`, which nothing blocks, into the list. -/
def place (lock : Lockf) (F : File) : File :=
  let r := setLoop F.next (F.locks.length + 1) true [] [] F.locks lock F.sleepers F.freed
  { locks := r.locks, sleepers := r.sleepers, next := F.next + 1, freed := r.freed }

/-! ## Processes -/

/-- The files, each with its sleepers. -/
structure Sys where
  files : List File := []
deriving DecidableEq, Repr

def maxlockdepth : Nat := 50

/-- The request a process sleeps with, and its file: `p_wchan`, when `p_wmesg` is
that of `lf_setlock`. -/
def pWchan (s : Sys) (p : Nat) : Option (File × Sleeper) :=
  s.files.findSome? fun F =>
    (F.sleepers.find? fun r => decide (r.proc = p) && r.wchan).map fun r => (F, r)

/-- Whether the process `wproc` points to waits, in `i` steps at most, for a lock
of `id`. The pointer is taken to be a `struct proc *` whatever it is; the words
found in anything else are not the wait channel of `lf_setlock`. -/
def deadlockWalk (s : Sys) (id : Caddr) : (i : Nat) → (wproc : Caddr) → Bool
  | 0, _ => false
  | i + 1, .proc p =>
    match pWchan s p with
    | none => false
    | some (F, r) =>
      match r.lfNext.bind fun a => F.locks.find? fun b => decide (b.addr = a) with
      | none => false
      | some waitblock =>
        if !waitblock.lfFlags.posix then false
        else if waitblock.lfId = id then true
        else deadlockWalk s id i waitblock.lfId
  | _ + 1, _ => false

/-- How a call ends. -/
inductive Ret where
  | ok
  | einval
  | enolck
  | eagain
  | edeadlk
  | eintr
  | sleeps
deriving DecidableEq, Repr

def lfFree (a : Nat) (F : File) : File := { F with freed := a :: F.freed }

/-- Queue `lock` on `block` and sleep. -/
def enqueue (p : Nat) (lock block : Lockf) (F : File) : File :=
  { F with
    locks := F.locks.map fun b =>
      if b.addr = block.addr then { b with lfBlkhd := b.lfBlkhd ++ [lock.addr] } else b
    sleepers := F.sleepers ++ [⟨p, lock, some block.addr, true⟩] }

/-- `lf_setlock`, to its end or to its next sleep. -/
def lfSetlock (s : Sys) (p : Nat) (lock : Lockf) (F : File) : Ret × File :=
  match lfGetblock lock F.locks with
  | some block =>
    if !lock.lfFlags.wait then (.eagain, lfFree lock.addr F)
    else if lock.lfFlags.posix && block.lfFlags.posix
        && deadlockWalk s lock.lfId maxlockdepth block.lfId then (.edeadlk, lfFree lock.addr F)
    else
      -- shared locks of our own are removed before we wait for an exclusive one
      let F := if lock.lfFlags.flock && decide (lock.lfType = .wrlck) then lfClearlock lock F else F
      (.sleeps, enqueue p lock block F)
  | none => (.ok, place lock F)

/-- Out of `tsleep`: the request is taken off the queue it may still be on. -/
def dequeue (r : Sleeper) (F : File) : File :=
  { F with
    locks := F.locks.map fun b =>
      if r.lfNext = some b.addr then { b with lfBlkhd := b.lfBlkhd.erase r.lock.addr } else b
    sleepers := F.sleepers.erase r }

/-! ## `lf_advlock` -/

inductive Whence where
  | seekSet
  | seekCur
  | seekEnd
  | other
deriving DecidableEq, Repr

structure Flock where
  lStart : BitVec 64
  lLen : BitVec 64
  lPid : Int := 0
  lType : LType
  lWhence : Whence := .seekSet
deriving DecidableEq, Repr

inductive Op where
  | setlk
  | unlck
  | getlk
deriving DecidableEq, Repr

/-- The first and the last byte a `struct flock` means. -/
def flockRange (size : BitVec 64) (fl : Flock) : Option (Int × Int) :=
  let start : Option (BitVec 64) := match fl.lWhence with
    | .seekSet | .seekCur => some fl.lStart
    | .seekEnd => some (size + fl.lStart)
    | .other => none
  start.bind fun start =>
    if start.toInt < 0 then none
    else if fl.lLen = 0#64 then some (start.toInt, -1)
    else
      let end_ := start + fl.lLen - 1#64
      if end_.toInt < start.toInt then none else some (start.toInt, end_.toInt)

def lfGetlock (lock : Lockf) (fl : Flock) (F : File) : Flock :=
  match lfGetblock lock F.locks with
  | some block =>
    { lType := block.lfType
      lWhence := .seekSet
      lStart := BitVec.ofInt 64 block.lfStart
      lLen := if block.lfEnd = -1 then 0#64 else BitVec.ofInt 64 (block.lfEnd - block.lfStart + 1)
      lPid := block.lfPid }
  | none => { fl with lType := .unlck }

/-- The lock `lf_advlock` allocates for a request. -/
def newLock (p : Nat) (id : Caddr) (fl : Flock) (flags : LFlags) (range : Int × Int) (F : File) :
    Lockf :=
  { addr := F.next
    lfFlags := flags
    lfType := fl.lType
    lfStart := range.1
    lfEnd := range.2
    lfId := id
    lfPid := if flags.posix then p else -1 }

/-- `nolck` is whether the user has too many locks. -/
def lfAdvlock (s : Sys) (p : Nat) (size : BitVec 64) (id : Caddr) (op : Op) (fl : Flock)
    (flags : LFlags) (nolck : Bool) (F : File) : Ret × Flock × File :=
  match flockRange size fl with
  | none => (.einval, fl, F)
  | some range =>
    if F.locks = [] ∧ op ≠ .setlk then (.ok, { fl with lType := .unlck }, F)
    else if nolck then (.enolck, fl, F)
    else
      let lock := newLock p id fl flags range F
      let F := { F with next := F.next + 1 }
      match op with
      | .setlk =>
        let (ret, F) := lfSetlock s p lock F
        (ret, fl, F)
      | .unlck => (.ok, fl, lfFree lock.addr (lfClearlock lock F))
      | .getlk => (.ok, lfGetlock lock fl F, lfFree lock.addr F)

/-! ## Steps -/

inductive Act where
  | advlock (p f : Nat) (size : BitVec 64) (id : Caddr) (op : Op) (fl : Flock) (flags : LFlags)
      (nolck : Bool)
  /-- A signal makes a sleeping process runnable. -/
  | signal (p f : Nat)
  /-- A process that has been made runnable runs, and finds a signal or not. -/
  | resume (p f : Nat) (err : Bool)
deriving DecidableEq, Repr

/-- The process is not in the middle of a call. -/
def Sys.idle (s : Sys) (p : Nat) : Bool :=
  s.files.all fun F => F.sleepers.all fun r => decide (r.proc ≠ p)

def Sys.set (s : Sys) (f : Nat) (F : File) : Sys := { s with files := s.files.set f F }

/-- One step, with what the call returns when it ends. -/
def stepRet (s : Sys) : Act → Option (Ret × Sys)
  | .advlock p f size id op fl flags nolck =>
    (s.files[f]?).bind fun F =>
      if s.idle p then
        let (ret, _, F) := lfAdvlock s p size id op fl flags nolck F
        some (ret, s.set f F)
      else none
  | .signal p f =>
    (s.files[f]?).bind fun F =>
      some (.sleeps, s.set f { F with
        sleepers := F.sleepers.map fun r => if r.proc = p then { r with wchan := false } else r })
  | .resume p f err =>
    (s.files[f]?).bind fun F =>
      (F.sleepers.find? fun r => decide (r.proc = p)).bind fun r =>
        if r.wchan then none
        else
          let F := dequeue r F
          if err then some (.eintr, s.set f (lfFree r.lock.addr F))
          else
            let (ret, F) := lfSetlock (s.set f F) p r.lock F
            some (ret, s.set f F)

def step (s : Sys) (a : Act) : Option Sys := (stepRet s a).map Prod.snd

end Obsd.Lf
