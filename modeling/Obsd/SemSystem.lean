import Obsd.Runs
import Obsd.Semop

/-!
# System V semaphores: the system

The calls of any number of processes on any number of semaphore sets.
`sema` maps a slot to the memory of the set in it, `semget` fills a slot,
`semctl` sets values or removes a set, and `semexit` pays back what an
exiting process left in its undo entries. A process that cannot apply its
vector sleeps on the slot until `wakeup` or a signal, and then starts over:
`sys_semop` is one step for the first pass over the vector and one for each
pass after a sleep. Nothing else in these calls sleeps: the pools and the
user's memory are taken to be there.

Memory goes on existing after it is freed: `semaptr` of a sleeping process
may point to a structure that now belongs to another set, or to none.
`born` tells the sets apart and `log` remembers what was done; no function
reads either.
-/

namespace Obsd.Semop

/-! ## Data -/

/-- A `struct semid_ds` with its semaphores. -/
structure Semid where
  seq : BitVec 16
  nsems : Nat
  semval : Nat → BitVec 16
  semncnt : Nat → BitVec 16
  semzcnt : Nat → BitVec 16
  sempid : Nat → Nat
  semOtime : Nat
  born : Nat

/-- A process in `tsleep`, with the variables of its call. -/
structure Sleeper where
  pr : Nat
  id : BitVec 32
  sops : List Sembuf
  /-- The operation it waits for. -/
  sopptr : Sembuf
  semaptr : Nat
  born : Nat
  woken : Bool

/-- What has been done. -/
inductive Done where
  | semop (pr ix : Nat) (sops : List Sembuf)
  /-- One semaphore of a set was set, or all of them. -/
  | set (ix : Nat) (semnum : Option Nat)
  | exit (pr : Nat)

structure Seminfo where
  semmni : Nat
  semmns : Nat
  semmnu : Nat
  semmsl : Nat
  semopm : Nat

/-- `SEMVMX` -/
def semvmx : Int := 32767

structure Sys where
  heap : Nat → Semid
  sema : Nat → Option Nat
  semseqs : Nat → BitVec 16
  semtot : Nat
  undos : Undos
  sleepers : List Sleeper
  made : Nat
  log : List Done

/-- What a call comes back with. -/
inductive Reply where
  | done
  | asleep
  | failed (e : Errno)
  | eidrm
  | erange
deriving DecidableEq, Repr

/-! ## Slots and identifiers -/

def ipcidToIx (id : BitVec 32) : Nat := (id &&& 0xffff#32).toNat

def ipcidToSeq (id : BitVec 32) : BitVec 16 := id.extractLsb' 16 16

/-- The set an identifier names, if there is one. -/
def findSet (info : Seminfo) (s : Sys) (id : BitVec 32) : Option Nat :=
  if info.semmni ≤ ipcidToIx id then none
  else match s.sema (ipcidToIx id) with
    | none => none
    | some a => if (s.heap a).seq = ipcidToSeq id then some a else none

/-- The sequence number the next set in a slot gets. -/
def nextSeq (s : Sys) (ix : Nat) : BitVec 16 := (s.semseqs ix + 1) &&& 0x7fff#16

def wakeup (s : Sys) (ix : Nat) : Sys :=
  { s with sleepers := s.sleepers.map fun p =>
      if ipcidToIx p.id = ix then { p with woken := true } else p }

/-! ## Clearing undo entries -/

/-- The loop of `semundo_clear` over the entries of one structure, from entry `i` on;
`semnum` is `-1` for the whole set. A round either goes on or makes the structure smaller. -/
def clearLoop (semid semnum : Int) : Nat → Nat → List Undo → List Undo
  | 0, _, ent => ent
  | rounds + 1, i, ent =>
    match ent[i]? with
    | none => ent
    | some u =>
      if u.unId = semid then
        let hit := decide (semnum = -1) || decide (u.unNum.toInt = semnum)
        let ent' := if hit then
            (match ent.getLast? with
            | none => ent
            | some last => (ent.set i last).dropLast)
          else ent
        if semnum ≠ -1 then ent'
        else clearLoop semid semnum rounds i ent'
      else clearLoop semid semnum rounds (i + 1) ent

/-- `semundo_clear`: structures that are left without entries are freed. -/
def semundoClear (us : Undos) (semid semnum : Int) : Undos :=
  let cleared := us.semuList.map fun x => (x.1, clearLoop semid semnum x.2.length 0 x.2)
  let kept := cleared.filter fun x => decide (x.2 ≠ [])
  { semuList := kept, semutot := us.semutot - (cleared.length - kept.length) }

/-! ## `semop` -/

/-- A set and the undo entries, as `sys_semop` works on them. -/
def Semid.load (m : Semid) (us : Undos) : State where
  semval := m.semval
  semncnt := m.semncnt
  semzcnt := m.semzcnt
  sempid := m.sempid
  semOtime := m.semOtime
  undos := us

/-- Write a set back. -/
def Sys.store (s : Sys) (a : Nat) (st : State) : Sys :=
  { s with
    heap := Function.update s.heap a { s.heap a with
      semval := st.semval
      semncnt := st.semncnt
      semzcnt := st.semzcnt
      sempid := st.sempid
      semOtime := st.semOtime }
    undos := st.undos }

def semopCall (info : Seminfo) (s : Sys) (pr : Nat) (id : BitVec 32) (a : Nat) (sops : List Sembuf)
    (now : Nat) : Call where
  pr := pr
  semid := ipcidToIx id
  nsems := (s.heap a).nsems
  sops := sops
  semopm := info.semopm
  semmnu := info.semmnu
  timeSecond := now
  exist := true
  ipcperm := none
  copyin := none

/-- The process is counted on the semaphore it waits for. -/
def count (st : State) (op : Sembuf) (d : BitVec 16) : State :=
  let n := op.semNum.toNat
  if op.semOp = 0#16 then
    { st with semzcnt := Function.update st.semzcnt n (st.semzcnt n + d) }
  else { st with semncnt := Function.update st.semncnt n (st.semncnt n + d) }

/-- One pass over the vector, up to the end of the call or to `tsleep`. `none` is a call
that never comes back. `do_undos` is not reset between passes, but the pass that goes
through the vector sets it again. -/
def pass (info : Seminfo) (s : Sys) (pr : Nat) (id : BitVec 32) (a : Nat) (sops : List Sembuf)
    (now : Nat) : Option (Sys × Reply) :=
  let c := semopCall info s pr id a sops now
  match scan c.nsems sops 0 ((s.heap a).load s.undos) false false with
  | .tooBig st => some (s.store a st, .failed .efbig)
  | .through st doWakeup doUndos =>
    match finish c sops.length st doWakeup doUndos with
    | .ok st doWakeup =>
      let s := { s.store a st with log := .semop pr (ipcidToIx id) sops :: s.log }
      some (if doWakeup then wakeup s (ipcidToIx id) else s, .done)
    | .error e st => some (s.store a st, .failed e)
    | .fault => none
    | .stuck _ => none
  | .blocked st i op =>
    let st := rollback (sops.take i) st
    if op.semFlg &&& ipcNowait ≠ 0#16 then some (s.store a st, .failed .eagain)
    else
      let p : Sleeper :=
        { pr := pr, id := id, sops := sops, sopptr := op, semaptr := a, born := (s.heap a).born,
          woken := false }
      some ({ s.store a (count st op 1) with sleepers := p :: s.sleepers }, .asleep)

/-- `sys_semop` up to its first sleep. -/
def semopStart (info : Seminfo) (s : Sys) (pr : Nat) (id : BitVec 32) (sops : List Sembuf)
    (ipcperm copyin : Option Errno) (now : Nat) : Option (Sys × Reply) :=
  match findSet info s id with
  | none => some (s, .failed .einval)
  | some a =>
    match ipcperm with
    | some e => some (s, .failed e)
    | none =>
      if sops.length = 0 then some (s, .done)
      else if info.semopm < sops.length then some (s, .failed .e2big)
      else match copyin with
        | some e => some (s, .failed e)
        | none => pass info s pr id a sops now

/-- From `tsleep` on. The count that is taken back is that of the set it was put on, which
is not the one in the same memory if that has been given to another set. -/
def semopResume (info : Seminfo) (s : Sys) (i : Nat) (intr : Bool) (now : Nat) :
    Option (Sys × Reply) :=
  match s.sleepers[i]? with
  | none => none
  | some p =>
    if !p.woken && !intr then none
    else
      let s := { s with sleepers := s.sleepers.eraseIdx i }
      if s.sema (ipcidToIx p.id) = none ∨ (s.heap p.semaptr).seq ≠ ipcidToSeq p.id then
        some (s, .eidrm)
      else
        let s := if (s.heap p.semaptr).born = p.born then
            s.store p.semaptr (count ((s.heap p.semaptr).load s.undos) p.sopptr (-1))
          else s
        if intr then some (s, .failed .eintr)
        else pass info s p.pr p.id p.semaptr p.sops now

/-! ## `semget`, `semctl` and `semexit` -/

/-- The slot a new set goes to. -/
def freeSlot (info : Seminfo) (s : Sys) : Option Nat :=
  (List.range info.semmni).find? fun ix => (s.sema ix).isNone

/-- A set is made in memory `a`, which the pool hands out. -/
def semget (info : Seminfo) (s : Sys) (nsems a : Nat) : Option (Sys × Reply) :=
  if nsems = 0 ∨ info.semmsl < nsems then some (s, .failed .einval)
  else if info.semmns < s.semtot + nsems then some (s, .failed .enospc)
  else match freeSlot info s with
    | none => some (s, .failed .enospc)
    | some ix =>
      if (List.range info.semmni).any fun j => decide (s.sema j = some a) then none
      else
        let m : Semid :=
          { seq := nextSeq s ix, nsems := nsems, semval := fun _ => 0, semncnt := fun _ => 0,
            semzcnt := fun _ => 0, sempid := fun _ => 0, semOtime := 0, born := s.made }
        some ({ s with
          heap := Function.update s.heap a m
          sema := Function.update s.sema ix (some a)
          semseqs := Function.update s.semseqs ix (nextSeq s ix)
          semtot := s.semtot + nsems
          made := s.made + 1
          log := .set ix none :: s.log }, .done)

/-- The value of one semaphore is set. -/
def Sys.putVal (s : Sys) (a n : Nat) (v : BitVec 16) : Sys :=
  { s with heap := Function.update s.heap a { s.heap a with
      semval := Function.update (s.heap a).semval n v } }

def setval (info : Seminfo) (s : Sys) (id : BitVec 32) (semnum val : Int)
    (ipcperm : Option Errno) : Sys × Reply :=
  match findSet info s id with
  | none => (s, .failed .einval)
  | some a =>
    match ipcperm with
    | some e => (s, .failed e)
    | none =>
      if semnum < 0 ∨ (s.heap a).nsems ≤ semnum then (s, .failed .einval)
      else if semvmx < val then (s, .erange)
      else
        let ix := ipcidToIx id
        let s := s.putVal a semnum.toNat (BitVec.ofInt 16 val)
        (wakeup { s with
          undos := semundoClear s.undos ix semnum
          log := .set ix (some semnum.toNat) :: s.log } ix, .done)

/-- The copy of the user's array, whose elements may not be there. -/
def copyinAll (array : Nat → Option (BitVec 16)) : Nat → Except Reply Unit
  | 0 => .ok ()
  | n + 1 =>
    match copyinAll array n with
    | .error r => .error r
    | .ok () =>
      match array n with
      | none => .error (.failed .efault)
      | some v => if semvmx < v.toNat then .error .erange else .ok ()

def setall (info : Seminfo) (s : Sys) (id : BitVec 32) (array : Nat → Option (BitVec 16))
    (ipcperm : Option Errno) : Sys × Reply :=
  match findSet info s id with
  | none => (s, .failed .einval)
  | some a =>
    match ipcperm with
    | some e => (s, .failed e)
    | none =>
      match copyinAll array (s.heap a).nsems with
      | .error r => (s, r)
      | .ok () =>
        let ix := ipcidToIx id
        let m := s.heap a
        (wakeup { s with
          heap := Function.update s.heap a { m with
            semval := fun n => if n < m.nsems then (array n).getD 0 else m.semval n }
          undos := semundoClear s.undos ix (-1)
          log := .set ix none :: s.log } ix, .done)

def rmid (info : Seminfo) (s : Sys) (id : BitVec 32) (ipcperm : Option Errno) : Sys × Reply :=
  match findSet info s id with
  | none => (s, .failed .einval)
  | some a =>
    match ipcperm with
    | some e => (s, .failed e)
    | none =>
      let ix := ipcidToIx id
      (wakeup { s with
        sema := Function.update s.sema ix none
        semtot := s.semtot - (s.heap a).nsems
        undos := semundoClear s.undos ix (-1)
        log := .set ix none :: s.log } ix, .done)

/-- What `semexit` makes of the value of a semaphore. -/
def exitVal (v adjval : BitVec 16) : BitVec 16 :=
  if adjval.toInt < 0 ∧ (v.toNat : Int) < -adjval.toInt then 0 else v + adjval

/-- The loop over the undo entries of the process; `none` is one of the panics, or an
element before the first one. -/
def exitLoop : List Undo → Sys → Option Sys
  | [], s => some s
  | u :: rest, s =>
    match s.sema u.unId.toNat with
    | none => none
    | some a =>
      if ((s.heap a).nsems : Int) ≤ u.unNum.toInt ∨ u.unNum.toInt < 0 then none
      else
        let n := u.unNum.toInt.toNat
        exitLoop rest
          (wakeup (s.putVal a n (exitVal ((s.heap a).semval n) u.unAdjval)) u.unId.toNat)

/-- `semexit`; a process does not exit while it sleeps. -/
def semexit (s : Sys) (pr : Nat) : Option (Sys × Reply) :=
  let logged (s : Sys) : Sys := { s with log := .exit pr :: s.log }
  match lookupUndo s.undos pr with
  | none => some (logged s, .done)
  | some ent =>
    match exitLoop ent s with
    | none => none
    | some s => some (logged { s with undos := putUndo s.undos pr [] }, .done)

/-! ## Steps -/

inductive Event where
  | semget (nsems a : Nat)
  | semop (pr : Nat) (id : BitVec 32) (sops : List Sembuf) (ipcperm copyin : Option Errno) (now : Nat)
  | resume (i : Nat) (intr : Bool) (now : Nat)
  | setval (id : BitVec 32) (semnum val : Int) (ipcperm : Option Errno)
  | setall (id : BitVec 32) (array : Nat → Option (BitVec 16)) (ipcperm : Option Errno)
  | rmid (id : BitVec 32) (ipcperm : Option Errno)
  | exit (pr : Nat)

def Sys.exec (info : Seminfo) (s : Sys) : Event → Option (Sys × Reply)
  | .semget nsems a => semget info s nsems a
  | .semop pr id sops ipcperm copyin now => semopStart info s pr id sops ipcperm copyin now
  | .resume i intr now => semopResume info s i intr now
  | .setval id semnum val ipcperm => some (Semop.setval info s id semnum val ipcperm)
  | .setall id array ipcperm => some (Semop.setall info s id array ipcperm)
  | .rmid id ipcperm => some (Semop.rmid info s id ipcperm)
  | .exit pr => if s.sleepers.any fun p => decide (p.pr = pr) then none else semexit s pr

def Sys.step (info : Seminfo) (s : Sys) (e : Event) : Option Sys := (s.exec info e).map Prod.fst

/-- Before any set is made. -/
def Sys.start : Sys where
  heap := fun _ =>
    { seq := 0, nsems := 0, semval := fun _ => 0, semncnt := fun _ => 0, semzcnt := fun _ => 0,
      sempid := fun _ => 0, semOtime := 0, born := 0 }
  sema := fun _ => none
  semseqs := fun _ => 0
  semtot := 0
  undos := { semuList := [], semutot := 0 }
  sleepers := []
  made := 1
  log := []

end Obsd.Semop
