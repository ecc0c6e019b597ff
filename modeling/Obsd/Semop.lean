import Mathlib

/-!
# System V semaphores: `semop`

`sys_semop` of `kern/sysv_sem.c` and what it calls, for a call that runs
alone: a sleep is ended by a signal. The vector is applied operation by
operation; an operation that cannot be done yet has what was applied
rolled back, and an undo entry that cannot be recorded has the entries
recorded so far and then the whole vector rolled back.

The undo structures of the processes are `semu_list`. The pointer to the
caller's that the loops hand on may outlive its structure, which is freed
with its last entry: what it then points to is kept as `freed`.
-/

namespace Obsd.Semop

/-! ## Data -/

inductive Errno where
  | efbig
  | eagain
  | enospc
  | einval
  | eintr
  | e2big
  | efault
  | eacces
deriving DecidableEq, Repr

/-- A `struct sembuf`. -/
structure Sembuf where
  semNum : BitVec 16
  semOp : BitVec 16
  semFlg : BitVec 16
deriving DecidableEq, Repr

def semUndo : BitVec 16 := 0o10000#16
def ipcNowait : BitVec 16 := 0o4000#16

/-- A `struct undo`. -/
structure Undo where
  unAdjval : BitVec 16
  unNum : BitVec 16
  unId : Int
deriving DecidableEq, Repr

/-- `SEMUME` -/
def semume : Nat := 10

/-- The undo entries of every process that has any. -/
structure Undos where
  semuList : List (Nat × List Undo)
  semutot : Nat
deriving DecidableEq, Repr

/-- The semaphores of one set, and the undo entries. -/
structure State where
  semval : Nat → BitVec 16
  semncnt : Nat → BitVec 16
  semzcnt : Nat → BitVec 16
  sempid : Nat → Nat
  semOtime : Nat
  undos : Undos

/-- The arguments, what does not change, and what the checks at the start say. -/
structure Call where
  pr : Nat
  semid : Int
  nsems : Nat
  sops : List Sembuf
  semopm : Nat
  semmnu : Nat
  timeSecond : Nat
  /-- The set exists, and is the one that was asked for. -/
  exist : Bool
  ipcperm : Option Errno
  copyin : Option Errno

/-! ## Undo entries -/

/-- What a pointer to the undo entries of the caller points to. -/
inductive Suptr where
  | null
  | listed
  | freed (ent : List Undo)
deriving DecidableEq, Repr

/-- Whether an entry is for a semaphore; the number it holds is signed. -/
def Undo.isFor (u : Undo) (semid : Int) (semnum : BitVec 16) : Bool :=
  decide (u.unId = semid) && decide (u.unNum.toInt = (semnum.toNat : Int))

/-- The loop over the entries, and the creation of one. `none` is that there is no room. -/
def adjustEnt (ent : List Undo) (semid : Int) (semnum : BitVec 16) (adjval : BitVec 16) :
    Option (List Undo) :=
  match ent.findIdx? fun u => u.isFor semid semnum with
  | some i =>
    match ent[i]? with
    | none => some ent
    | some u =>
      let val := if adjval = 0#16 then 0#16 else u.unAdjval + adjval
      if val ≠ 0#16 then some (ent.set i { u with unAdjval := val })
      else
        -- the last entry takes the place of the one that goes
        match ent.getLast? with
        | none => some ent
        | some last => some ((ent.set i last).dropLast)
  | none =>
    if adjval = 0#16 then some ent
    else if ent.length = semume then none
    else some (ent ++ [{ unAdjval := adjval, unNum := semnum, unId := semid }])

def lookupUndo (us : Undos) (pr : Nat) : Option (List Undo) := us.semuList.lookup pr

/-- The entries of a process, which has some, change; without any the structure is freed. -/
def putUndo (us : Undos) (pr : Nat) (ent : List Undo) : Undos :=
  if ent = [] then
    { semuList := us.semuList.eraseP fun x => x.1 = pr, semutot := us.semutot - 1 }
  else { us with semuList := us.semuList.map fun x => if x.1 = pr then (pr, ent) else x }

def semuAlloc (us : Undos) (semmnu pr : Nat) : Option Undos :=
  if us.semutot = semmnu then none
  else some { semuList := (pr, []) :: us.semuList, semutot := us.semutot + 1 }

/-- With the structure found: adjust the entries it points to. -/
def adjustListed (us : Undos) (pr : Nat) (semid : Int) (semnum adjval : BitVec 16) :
    Undos × Suptr × Option Errno :=
  let ent := (lookupUndo us pr).getD []
  match adjustEnt ent semid semnum adjval with
  | none => (us, .listed, some .einval)
  | some ent' => (putUndo us pr ent', if ent' = [] then .freed [] else .listed, none)

/-- `none` is the fault of taking a structure off the list that is not on it. -/
def semundoAdjust (us : Undos) (c : Call) (suptr : Suptr) (semnum adjval : BitVec 16) :
    Option (Undos × Suptr × Option Errno) :=
  match suptr with
  | .freed ent =>
    match adjustEnt ent c.semid semnum adjval with
    | none => some (us, .freed ent, some .einval)
    | some ent' => if ent' = [] then none else some (us, .freed ent', none)
  | .listed => some (adjustListed us c.pr c.semid semnum adjval)
  | .null =>
    match lookupUndo us c.pr with
    | some _ => some (adjustListed us c.pr c.semid semnum adjval)
    | none =>
      if adjval = 0#16 then some (us, .null, none)
      else match semuAlloc us c.semmnu c.pr with
        | none => some (us, .null, some .enospc)
        | some us => some (adjustListed us c.pr c.semid semnum adjval)

/-- Whether an operation has an undo entry to record. -/
def Sembuf.undoes (op : Sembuf) : Bool :=
  decide (op.semFlg &&& semUndo ≠ 0#16) && decide (op.semOp ≠ 0#16)

/-- Where the loop that records the undo entries stops. -/
inductive Record where
  | all (us : Undos)
  | refused (us : Undos) (suptr : Suptr) (i : Nat) (e : Errno)
  | fault

def recordUndos (c : Call) : List Sembuf → Nat → Undos → Suptr → Record
  | [], _, us, _ => .all us
  | op :: rest, i, us, suptr =>
    if op.undoes then
      match semundoAdjust us c suptr op.semNum (-op.semOp) with
      | none => .fault
      | some (us, suptr, none) => recordUndos c rest (i + 1) us suptr
      | some (us, suptr, some e) => .refused us suptr i e
    else recordUndos c rest (i + 1) us suptr

/-- How a rollback of undo entries ends. -/
inductive Rollback where
  | done (us : Undos)
  | fault
  | panic
  /-- An element outside the vector was read. -/
  | outside
  /-- Still going on. -/
  | running

/-- The loop `for (j = i - 1; j >= 0; j--)` that takes back undo entries, for a number of
rounds; `j` is a `size_t`. -/
def rollbackUndos (c : Call) : Nat → BitVec 64 → Undos → Suptr → Rollback
  | 0, _, _, _ => .running
  | rounds + 1, j, us, suptr =>
    if 0#64 ≤ j then
      match c.sops[j.toNat]? with
      | none => .outside
      | some op =>
        if op.undoes then
          match semundoAdjust us c suptr op.semNum op.semOp with
          | none => .fault
          | some (_, _, some _) => .panic
          | some (us, suptr, none) => rollbackUndos c rounds (j - 1) us suptr
        else rollbackUndos c rounds (j - 1) us suptr
    else .done us

/-! ## The vector -/

/-- Where the loop over the vector stops. -/
inductive Scan where
  | through (st : State) (doWakeup doUndos : Bool)
  | tooBig (st : State)
  | blocked (st : State) (i : Nat) (op : Sembuf)

def addVal (st : State) (n : Nat) (v : BitVec 16) : State :=
  { st with semval := Function.update st.semval n (st.semval n + v) }

def scan (nsems : Nat) : List Sembuf → Nat → State → Bool → Bool → Scan
  | [], _, st, doWakeup, doUndos => .through st doWakeup doUndos
  | op :: rest, i, st, doWakeup, doUndos =>
    let n := op.semNum.toNat
    let undo := decide (op.semFlg &&& semUndo ≠ 0#16)
    if nsems ≤ n then .tooBig st
    else if op.semOp.toInt < 0 then
      if ((st.semval n).toNat : Int) + op.semOp.toInt < 0 then .blocked st i op
      else
        let st := addVal st n op.semOp
        let wake := decide (st.semval n = 0#16) && decide (0 < (st.semzcnt n).toNat)
        scan nsems rest (i + 1) st (doWakeup || wake) (doUndos || undo)
    else if op.semOp = 0#16 then
      if 0 < (st.semval n).toNat then .blocked st i op
      else scan nsems rest (i + 1) st doWakeup doUndos
    else
      let wake := decide (0 < (st.semncnt n).toNat)
      scan nsems rest (i + 1) (addVal st n op.semOp) (doWakeup || wake) (doUndos || undo)

/-- Take back operations that were applied. -/
def rollback (ops : List Sembuf) (st : State) : State :=
  ops.foldl (fun st op => addVal st op.semNum.toNat (-op.semOp)) st

/-- Wait for the semaphore until a signal comes. -/
def sleepOn (st : State) (op : Sembuf) : State :=
  let n := op.semNum.toNat
  if op.semOp = 0#16 then
    let st := { st with semzcnt := Function.update st.semzcnt n (st.semzcnt n + 1) }
    { st with semzcnt := Function.update st.semzcnt n (st.semzcnt n - 1) }
  else
    let st := { st with semncnt := Function.update st.semncnt n (st.semncnt n + 1) }
    { st with semncnt := Function.update st.semncnt n (st.semncnt n - 1) }

inductive Outcome where
  | ok (st : State) (wakeup : Bool)
  | error (e : Errno) (st : State)
  | fault
  /-- The rollback of undo entries does not come back. -/
  | stuck (how : Rollback)

/-- From `done` on. -/
def finish (c : Call) (rounds : Nat) (st : State) (doWakeup doUndos : Bool) : Outcome :=
  let ok (st : State) : Outcome :=
    .ok { st with
      sempid := c.sops.foldl (fun pid op => Function.update pid op.semNum.toNat c.pr) st.sempid
      semOtime := c.timeSecond } doWakeup
  if doUndos then
    match recordUndos c c.sops 0 st.undos .null with
    | .all us => ok { st with undos := us }
    | .fault => .fault
    | .refused us suptr i e =>
      if i ≠ 0 then
        match rollbackUndos c rounds (BitVec.ofNat 64 i - 1) us suptr with
        | .done us => .error e (rollback c.sops { st with undos := us })
        | how => .stuck how
      else .error e (rollback c.sops { st with undos := us })
  else ok st

def sysSemop (st : State) (c : Call) (rounds : Nat) : Outcome :=
  if !c.exist then .error .einval st
  else match c.ipcperm with
    | some e => .error e st
    | none =>
      if c.sops.length = 0 then .ok st false
      else if c.semopm < c.sops.length then .error .e2big st
      else match c.copyin with
        | some e => .error e st
        | none =>
          match scan c.nsems c.sops 0 st false false with
          | .tooBig st => .error .efbig st
          | .through st doWakeup doUndos => finish c rounds st doWakeup doUndos
          | .blocked st i op =>
            let st := rollback (c.sops.take i) st
            if op.semFlg &&& ipcNowait ≠ 0#16 then .error .eagain st
            else .error .eintr (sleepOn st op)

end Obsd.Semop
