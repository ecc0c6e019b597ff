import Obsd.Bitmap
import Obsd.Runs

/-!
# Descriptor tables

The allocation of descriptors in `kern/kern_descrip.c`. A table has its
files and, to find a free descriptor, a bitmap of those in use
(`fd_lomap`) with a bitmap of its full words (`fd_himap`). The arrays have
`NDLOSLOTS` and `NDHISLOTS` words; what `find_next_zero` reads behind
their end is not known and is part of a request. So are the limit on
descriptors and whether the system has run out of files.
-/

namespace Obsd.Fdesc

open Bitmap

/-! ## Sizes -/

def ndfile : Nat := 20
def ndextent : Nat := 50
def ndentries : Nat := 32

def ndreduce (x : Nat) : Nat := (x + ndentries - 1) / ndentries
def ndhislots (x : Nat) : Nat := ndreduce (ndreduce x)
def ndloslots (x : Nat) : Nat := ndhislots x * ndentries

/-! ## Data -/

/-- A `struct filedesc`. -/
structure Filedesc where
  fdOfiles : Nat → Option Nat := fun _ => none
  fdNfiles : Nat := ndfile
  fdHimap : Nat → BitVec 32 := fun _ => 0#32
  fdLomap : Nat → BitVec 32 := fun _ => 0#32
  fdLastfile : Nat := 0
  fdFreefile : Nat := 0
  fdKnlistsize : Int := -1

/-- The fields of a `struct file` that matter here. -/
structure File where
  fCount : Nat := 0
  larval : Bool := false
  kqueue : Bool := false

/-! ## Searching the bitmaps -/

/-- The loop of `find_next_zero`, over `n` words from `off` on. -/
def scanWords (bitmap : Nat → BitVec 32) : (n off : Nat) → Option Nat
  | 0, _ => none
  | n + 1, off =>
    if bitmap off ≠ BitVec.allOnes 32 then some (off * 32 + ffs (~~~bitmap off) - 1)
    else scanWords bitmap n (off + 1)

/-- `find_next_zero`. The number of words it looks at is `NDLOSLOTS(bits)`, a multiple of
32, whatever the number of bits. -/
def findNextZero (bitmap : Nat → BitVec 32) (want bits : Nat) : Option Nat :=
  if want > bits then none
  else
    let off := want / ndentries
    let i := want % ndentries
    let maxoff := ndloslots bits
    if i ≠ 0 then
      let sub := bitmap off ||| (BitVec.allOnes 32 >>> (ndentries - i))
      if sub ≠ BitVec.allOnes 32 then some (off * 32 + ffs (~~~sub) - 1)
      else scanWords bitmap (maxoff - (off + 1)) (off + 1)
    else scanWords bitmap (maxoff - off) off

/-- The first loop of `find_last_set`: the last of the first `n` words that is not 0. -/
def lastWord (bitmap : Nat → BitVec 32) : (n : Nat) → Option Nat
  | 0 => none
  | off + 1 => if bitmap off = 0#32 then lastWord bitmap off else some off

/-- The second: the last open file up to `i`, or 0. -/
def lastOpen (ofiles : Nat → Option Nat) : (i : Nat) → Nat
  | 0 => 0
  | i + 1 => if ofiles (i + 1) = none then lastOpen ofiles i else i + 1

def findLastSet (fd : Filedesc) (last : Nat) : Nat :=
  match lastWord fd.fdLomap (if last = 0 then 0 else (last - 1) / ndentries + 1) with
  | none => 0
  | some off =>
    let i := (off + 1) * ndentries - 1
    lastOpen fd.fdOfiles (if i ≥ last then last - 1 else i)

def fdUsed (fdp : Filedesc) (fd : Nat) : Filedesc :=
  let off := fd / ndentries
  let lomap := set fdp.fdLomap fd
  { fdp with
    fdLomap := lomap
    fdHimap := if lomap off = BitVec.allOnes 32 then set fdp.fdHimap off else fdp.fdHimap
    fdLastfile := if fd > fdp.fdLastfile then fd else fdp.fdLastfile }

def fdUnused (fdp : Filedesc) (fd : Nat) : Filedesc :=
  let off := fd / ndentries
  let fdp :=
    { fdp with
      fdFreefile := if fd < fdp.fdFreefile then fd else fdp.fdFreefile
      fdHimap := if fdp.fdLomap off = BitVec.allOnes 32 then clear fdp.fdHimap off else fdp.fdHimap
      fdLomap := clear fdp.fdLomap fd }
  { fdp with fdLastfile := if fd = fdp.fdLastfile then findLastSet fdp fd else fdp.fdLastfile }

/-! ## Allocation -/

/-- What a request finds outside of the table. -/
structure Env where
  /-- The lower of `RLIMIT_NOFILE` and `maxfiles`. -/
  lim : Nat
  /-- The memory behind the two bitmaps. -/
  junkHi : Nat → BitVec 32 := fun _ => 0#32
  junkLo : Nat → BitVec 32 := fun _ => 0#32

/-- The bitmaps as they are read. -/
def Filedesc.himap (fdp : Filedesc) (env : Env) (j : Nat) : BitVec 32 :=
  if j < ndhislots fdp.fdNfiles then fdp.fdHimap j else env.junkHi j

def Filedesc.lomap (fdp : Filedesc) (env : Env) (j : Nat) : BitVec 32 :=
  if j < ndloslots fdp.fdNfiles then fdp.fdLomap j else env.junkLo j

inductive Alloc where
  | ok (fdp : Filedesc) (i : Nat)
  | emfile
  | enospc

/-- `fdalloc`, which restarts with a higher `want` if a word is full from `want` on. -/
def fdallocLoop (fdp : Filedesc) (env : Env) : (fuel want : Nat) → Option Alloc
  | 0, _ => none
  | fuel + 1, want =>
    let last := min fdp.fdNfiles env.lim
    let i := if want < fdp.fdFreefile then fdp.fdFreefile else want
    let off := i / ndentries
    let full := if fdp.fdNfiles ≥ env.lim then Alloc.emfile else .enospc
    match findNextZero (fdp.himap env) off ((last + ndentries - 1) / ndentries) with
    | none => some full
    | some new =>
      match findNextZero (fun k => fdp.lomap env (new + k)) (if new > off then 0 else i % ndentries) ndentries with
      | none => fdallocLoop fdp env fuel ((new + 1) * ndentries)
      | some j =>
        let i := j + new * ndentries
        if i < last then
          let fdp := fdUsed fdp i
          some (.ok { fdp with fdFreefile := if want ≤ fdp.fdFreefile then i else fdp.fdFreefile } i)
        else some full

/-- Each restart is at least one word further. -/
def fdalloc (fdp : Filedesc) (env : Env) (want : Nat) : Option Alloc :=
  fdallocLoop fdp env (ndreduce (min fdp.fdNfiles env.lim) + 2) want

def fdexpand (fdp : Filedesc) : Filedesc :=
  let nfiles := if fdp.fdNfiles < ndextent then ndextent else 2 * fdp.fdNfiles
  let fdp' := { fdp with
    fdNfiles := nfiles
    fdOfiles := fun i => if i < fdp.fdNfiles then fdp.fdOfiles i else none }
  if ndhislots nfiles > ndhislots fdp.fdNfiles then
    { fdp' with
      fdHimap := fun j => if j < ndhislots fdp.fdNfiles then fdp.fdHimap j else 0#32
      fdLomap := fun j => if j < ndloslots fdp.fdNfiles then fdp.fdLomap j else 0#32 }
  else fdp'

inductive Errno where
  | ebadf
  | einval
  | emfile
  | enfile
  | edeadlk
deriving DecidableEq, Repr

/-- The callers of `fdalloc` expand the table and start again as long as there is no space. -/
def allocExpand (env : Env) : (fuel : Nat) → Filedesc → (want : Nat) → Option (Filedesc × Except Errno Nat)
  | 0, _, _ => none
  | fuel + 1, fdp, want =>
    match fdalloc fdp env want with
    | none => none
    | some (.ok fdp i) => some (fdp, .ok i)
    | some .emfile => some (fdp, .error .emfile)
    | some .enospc => allocExpand env fuel (fdexpand fdp) want

/-! ## Operations on a table and the files it refers to -/

abbrev Files := Nat → File

def Files.modify (files : Files) (fp : Nat) (f : File → File) : Files :=
  fun q => if q = fp then f (files q) else files q

def Files.ref (files : Files) (fp : Nat) : Files :=
  files.modify fp fun f => { f with fCount := f.fCount + 1 }

/-- `closef`, as far as the count goes. -/
def Files.closef (files : Files) (fp : Nat) : Files :=
  files.modify fp fun f => { f with fCount := f.fCount - 1 }

def Filedesc.setFile (fdp : Filedesc) (fd : Nat) (fp : Option Nat) : Filedesc :=
  { fdp with fdOfiles := fun i => if i = fd then fp else fdp.fdOfiles i }

def fdGetfile (fdp : Filedesc) (files : Files) (fd : Nat) : Option Nat :=
  if fd < fdp.fdNfiles then (fdp.fdOfiles fd).filter fun fp => !(files fp).larval else none

/-- Common code for `dup`, `dup2` and `fcntl(F_DUPFD)`. -/
def finishdup (longMax : Nat) (fdp : Filedesc) (files : Files) (fp new : Nat) :
    Filedesc × Files × Except Errno Nat :=
  if (files fp).fCount = longMax - 2 then (fdp, files, .error .edeadlk)
  else
    let oldfp := fdp.fdOfiles new
    let fdp := fdp.setFile new (some fp)
    let files := files.ref fp
    match oldfp with
    | none => (fdUsed fdp new, files, .ok new)
    | some oldfp => (fdp, files.closef oldfp, .ok new)

def sysDup (longMax : Nat) (env : Env) (fdp : Filedesc) (files : Files) (old : Nat) :
    Option (Filedesc × Files × Except Errno Nat) :=
  match fdGetfile fdp files old with
  | none => some (fdp, files, .error .ebadf)
  | some fp =>
    (allocExpand env (env.lim + 1) fdp 0).map fun
      | (fdp, .error e) => (fdp, files, .error e)
      | (fdp, .ok new) => finishdup longMax fdp files fp new

/-- `dup2` makes room for the descriptor by asking for it until there is. -/
def dup2Room (env : Env) : (fuel : Nat) → Filedesc → (new : Nat) → Option (Filedesc × Except Errno Unit)
  | 0, _, _ => none
  | fuel + 1, fdp, new =>
    if new ≥ fdp.fdNfiles then
      match fdalloc fdp env new with
      | none => none
      -- anything else is a panic
      | some (.ok fdp i) => if new = i then some (fdp, .ok ()) else none
      | some .emfile => some (fdp, .error .emfile)
      | some .enospc => dup2Room env fuel (fdexpand fdp) new
    else some (fdp, .ok ())

def sysDup2 (longMax : Nat) (env : Env) (fdp : Filedesc) (files : Files) (old new : Nat) :
    Option (Filedesc × Files × Except Errno Nat) :=
  match fdGetfile fdp files old with
  | none => some (fdp, files, .error .ebadf)
  | some fp =>
    if new ≥ env.lim then some (fdp, files, .error .ebadf)
    else if old = new then some (fdp, files, .ok new)
    else
      (dup2Room env (env.lim + 1) fdp new).map fun
        | (fdp, .error e) => (fdp, files, .error e)
        | (fdp, .ok _) => finishdup longMax fdp files fp new

/-- `fcntl(F_DUPFD)`. -/
def fDupfd (longMax : Nat) (env : Env) (fdp : Filedesc) (files : Files) (fd newmin : Nat) :
    Option (Filedesc × Files × Except Errno Nat) :=
  match fdGetfile fdp files fd with
  | none => some (fdp, files, .error .ebadf)
  | some fp =>
    if newmin ≥ env.lim then some (fdp, files, .error .einval)
    else
      (allocExpand env (env.lim + 1) fdp newmin).map fun
        | (fdp, .error e) => (fdp, files, .error e)
        | (fdp, .ok i) => finishdup longMax fdp files fp i

/-- `falloc` of the file `fp`; `tablefull` if `nfiles >= maxfiles`. -/
def falloc (env : Env) (fdp : Filedesc) (files : Files) (fp : Nat) (tablefull kqueue : Bool) :
    Option (Filedesc × Files × Except Errno Nat) :=
  (allocExpand env (env.lim + 1) fdp 0).map fun
    | (fdp, .error e) => (fdp, files, .error e)
    | (fdp, .ok i) =>
      if tablefull then (fdUnused fdp i, files, .error .enfile)
      else (fdp.setFile i (some fp), files.modify fp fun _ => ⟨1, true, kqueue⟩, .ok i)

def fdremove (fdp : Filedesc) (fd : Nat) : Filedesc := fdUnused (fdp.setFile fd none) fd

def fdrelease (fdp : Filedesc) (files : Files) (fd : Nat) : Filedesc × Files × Except Errno Nat :=
  match fdp.fdOfiles fd with
  | none => (fdp, files, .error .ebadf)
  | some fp => (fdremove fdp fd, files.closef fp, .ok fd)

/-! ## `fdcopy` -/

/-- How far the table may shrink. -/
def shrink (lastfile : Nat) : (fuel i : Nat) → Nat
  | 0, i => i
  | fuel + 1, i => if i ≥ 2 * ndextent ∧ i > lastfile * 2 then shrink lastfile fuel (i / 2) else i

/-- kq descriptors cannot be copied. -/
def dropKqueues (files : Files) : (fuel i : Nat) → Filedesc → Filedesc
  | 0, _, fdp => fdp
  | fuel + 1, i, fdp =>
    if i ≤ fdp.fdLastfile then
      match fdp.fdOfiles i with
      | none => dropKqueues files fuel (i + 1) fdp
      | some fp => dropKqueues files fuel (i + 1) (if (files fp).kqueue then fdremove fdp i else fdp)
    else fdp

/-- Each file gets one reference more, or is left out if it has too many. -/
def copyRefs (longMax : Nat) : (fuel i : Nat) → Filedesc → Files → Filedesc × Files
  | 0, _, fdp, files => (fdp, files)
  | fuel + 1, i, fdp, files =>
    if i ≤ fdp.fdLastfile then
      match fdp.fdOfiles i with
      | none => copyRefs longMax fuel (i + 1) fdp files
      | some fp =>
        if (files fp).fCount = longMax - 2 then copyRefs longMax fuel (i + 1) (fdremove fdp i) files
        else copyRefs longMax fuel (i + 1) fdp (files.ref fp)
    else (fdp, files)

/-- The arrays are copied as far as the new ones go. -/
def copyTable (fdp : Filedesc) (i : Nat) : Filedesc :=
  { fdp with
    fdNfiles := i
    fdOfiles := fun k => if k < i then fdp.fdOfiles k else none
    fdHimap := fun j => if j < ndhislots i then fdp.fdHimap j else 0#32
    fdLomap := fun j => if j < ndloslots i then fdp.fdLomap j else 0#32 }

def fdcopy (longMax : Nat) (fdp : Filedesc) (files : Files) : Filedesc × Files :=
  let i := if fdp.fdLastfile < ndfile then ndfile else shrink fdp.fdLastfile fdp.fdNfiles fdp.fdNfiles
  let newfdp := copyTable fdp i
  let newfdp :=
    if newfdp.fdKnlistsize ≠ -1 then
      { dropKqueues files (newfdp.fdLastfile + 1) 0 newfdp with fdKnlistsize := -1 }
    else newfdp
  copyRefs longMax (newfdp.fdLastfile + 1) 0 newfdp files

/-! ## The system -/

/-- The tables of the processes, and the files. -/
structure State where
  tables : List Filedesc := [{}]
  files : Files := fun _ => {}
  nextFile : Nat := 0

inductive Act where
  | dup (t old : Nat) (env : Env)
  | dup2 (t old new : Nat) (env : Env)
  | dupfd (t fd newmin : Nat) (env : Env)
  | falloc (t : Nat) (env : Env) (tablefull kqueue : Bool)
  /-- The file of a descriptor is set up. -/
  | mature (fp : Nat)
  | release (t fd : Nat)
  | expand (t : Nat)
  | copy (t : Nat)
  /-- A process uses kqueue for the first time. -/
  | knlist (t : Nat) (size : Nat)
  /-- A descriptor is passed in a message (`unp_internalize`). -/
  | internalize (fp : Nat)

def State.update (s : State) (t : Nat) (r : Option (Filedesc × Files × Except Errno Nat)) : Option State :=
  r.map fun (fdp, files, _) => { s with tables := s.tables.set t fdp, files := files }

def step (longMax : Nat) (s : State) : Act → Option State
  | .dup t old env => s.tables[t]?.bind fun fdp => s.update t (sysDup longMax env fdp s.files old)
  | .dup2 t old new env => s.tables[t]?.bind fun fdp => s.update t (sysDup2 longMax env fdp s.files old new)
  | .dupfd t fd newmin env => s.tables[t]?.bind fun fdp => s.update t (fDupfd longMax env fdp s.files fd newmin)
  | .falloc t env tablefull kqueue => s.tables[t]?.bind fun fdp =>
      (s.update t (falloc env fdp s.files s.nextFile tablefull kqueue)).map fun s =>
        { s with nextFile := s.nextFile + 1 }
  | .mature fp => some { s with files := s.files.modify fp fun f => { f with larval := false } }
  | .release t fd => s.tables[t]?.bind fun fdp =>
      if fd < fdp.fdNfiles then s.update t (some (fdrelease fdp s.files fd)) else none
  | .expand t => s.tables[t]?.map fun fdp => { s with tables := s.tables.set t (fdexpand fdp) }
  | .copy t => s.tables[t]?.map fun fdp =>
      let (newfdp, files) := fdcopy longMax fdp s.files
      { s with tables := s.tables ++ [newfdp], files := files }
  | .knlist t size => s.tables[t]?.map fun fdp =>
      { s with tables := s.tables.set t { fdp with fdKnlistsize := size } }
  | .internalize fp =>
      if (s.files fp).fCount = longMax - 2 then some s else some { s with files := s.files.ref fp }

end Obsd.Fdesc
