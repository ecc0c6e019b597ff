import Obsd.ByteMap

/-!
# Inodes of an FFS2 file system

The allocation of inodes of `ufs/ffs/ffs_alloc.c`: one bit map for each
cylinder group, with the number of free inodes kept three times, a rotor
that says where to look next, and the number of inodes that have been
initialised on disk so far. Reading a cylinder group may fail, and
`ffs_dirpref` may pick any group: both are arguments. `zeroed` is not in
the source; it lists the blocks of inodes in the order in which they are
initialised.

Left out are the times, the soft updates, and the inode on disk, with the
panic for one that is free in the map and in use there.
-/

namespace Obsd.Ffs

open Bytes

/-! ## Data -/

/-- The part of a `struct csum` that is about inodes. -/
structure Csum where
  csNdir : Int
  csNifree : Int

/-- The part of a `struct cg` that is about inodes. -/
structure Cg where
  cgCs : Csum
  cgIrotor : Nat
  cgInosused : Bytes
  cgFfs2Niblk : Nat
  cgInitediblk : Nat

structure Fs where
  fsNcg : Nat
  fsIpg : Nat
  fsInopb : Nat
  fsCs : Nat → Csum
  fsCstotal : Csum
  fsContigdirs : Nat → Nat
  cg : Nat → Cg
  zeroed : List (Nat × Nat)

def inoToCg (fs : Fs) (x : Nat) : Nat := x / fs.fsIpg

/-- The group and the block in it that an inode is in, as in `ino_to_fsba`. -/
def inoToBlock (fs : Fs) (x : Nat) : Nat × Nat := (inoToCg fs x, x % fs.fsIpg / fs.fsInopb)

/-! ## In a cylinder group -/

/-- The byte of the map to look in, from the rotor on and then from the beginning. `none` is
that all inodes are in use. -/
def findByte (fs : Fs) (cgp : Cg) : Option Nat :=
  let start := cgp.cgIrotor / 8
  let len := (fs.fsIpg - cgp.cgIrotor + 7) / 8
  let loc := skpc 0xff#8 cgp.cgInosused len start
  if loc = 0 then
    let len := start + 1
    let loc := skpc 0xff#8 cgp.cgInosused len 0
    if loc = 0 then none else some (0 + len - loc)
  else some (start + len - loc)

/-- The first clear bit of a byte, of `n` bits from `ipref` on. -/
def findBit (a : Bytes) : Nat → Nat → Option Nat
  | 0, _ => none
  | n + 1, ipref => if isclr a ipref then some ipref else findBit a n (ipref + 1)

/-- `none` is a panic. -/
def findInode (fs : Fs) (cgp : Cg) : Option Nat :=
  (findByte fs cgp).bind fun i => findBit cgp.cgInosused 8 (i * 8)

/-- Initialise the next block of inodes, when this one comes close to the end of those that are. -/
def initBlock (fs : Fs) (cg ipref : Nat) (cgp : Cg) : Fs × Cg :=
  if cgp.cgInitediblk < ipref + fs.fsInopb ∧ cgp.cgInitediblk < cgp.cgFfs2Niblk then
    ({ fs with zeroed := fs.zeroed ++ [inoToBlock fs (cg * fs.fsIpg + cgp.cgInitediblk)] },
      { cgp with cgInitediblk := cgp.cgInitediblk + fs.fsInopb })
  else (fs, cgp)

/-- A `csum` with an inode in use more, or a number of them less, which is a directory or not. -/
def Csum.alloc (cs : Csum) (dir : Bool) : Csum :=
  { csNifree := cs.csNifree - 1, csNdir := if dir then cs.csNdir + 1 else cs.csNdir }

def Csum.free (cs : Csum) (dir : Bool) : Csum :=
  { csNifree := cs.csNifree + 1, csNdir := if dir then cs.csNdir - 1 else cs.csNdir }

/-- From `gotit` on: the inode is taken, and its number is returned. -/
def gotit (fs : Fs) (cg ipref : Nat) (cgp : Cg) (dir : Bool) : Fs × Nat :=
  let (fs, cgp) := initBlock fs cg ipref cgp
  let cgp := { cgp with cgInosused := setbit cgp.cgInosused ipref, cgCs := cgp.cgCs.alloc dir }
  ({ fs with
      cg := Function.update fs.cg cg cgp
      fsCstotal := fs.fsCstotal.alloc dir
      fsCs := Function.update fs.fsCs cg ((fs.fsCs cg).alloc dir) },
    cg * fs.fsIpg + ipref)

/-- The number 0 is that there is none; `none` is a panic. -/
def ffsNodealloccg (fs : Fs) (cg ipref : Nat) (dir readOk : Bool) : Option (Fs × Nat) :=
  if (fs.fsCs cg).csNifree = 0 then some (fs, 0)
  else if !readOk then some (fs, 0)
  else
    let cgp := fs.cg cg
    if cgp.cgCs.csNifree = 0 then some (fs, 0)
    else if ipref ≠ 0 ∧ isclr cgp.cgInosused (ipref % fs.fsIpg) = true then
      some (gotit fs cg (ipref % fs.fsIpg) cgp dir)
    else (findInode fs cgp).map fun ipref => gotit fs cg ipref { cgp with cgIrotor := ipref } dir

/-! ## In the file system -/

/-- The tries of `ffs_hashalloc`. -/
inductive Try where
  | preferred
  | rehash (i : Nat)
  | brute (i : Nat)

/-- The quadratic rehash, from `i` on, for at most a number of rounds. -/
def rehash (dir : Bool) (readOk : Try → Bool) : Nat → Nat → Nat → Fs → Option (Fs × Nat)
  | 0, _, _, fs => some (fs, 0)
  | rounds + 1, i, cg, fs =>
    if i < fs.fsNcg then
      let cg := if fs.fsNcg ≤ cg + i then cg + i - fs.fsNcg else cg + i
      (ffsNodealloccg fs cg 0 dir (readOk (.rehash i))).bind fun (fs, result) =>
        if result ≠ 0 then some (fs, result) else rehash dir readOk rounds (i * 2) cg fs
    else some (fs, 0)

/-- The brute force search, with `n` groups to go from `i` on. -/
def brute (dir : Bool) (readOk : Try → Bool) : Nat → Nat → Nat → Fs → Option (Fs × Nat)
  | 0, _, _, fs => some (fs, 0)
  | n + 1, i, cg, fs =>
    (ffsNodealloccg fs cg 0 dir (readOk (.brute i))).bind fun (fs, result) =>
      if result ≠ 0 then some (fs, result)
      else brute dir readOk n (i + 1) (if cg + 1 = fs.fsNcg then 0 else cg + 1) fs

def ffsHashalloc (fs : Fs) (cg pref : Nat) (dir : Bool) (readOk : Try → Bool) : Option (Fs × Nat) :=
  (ffsNodealloccg fs cg pref dir (readOk .preferred)).bind fun (fs, result) =>
    if result ≠ 0 then some (fs, result)
    else
      (rehash dir readOk fs.fsNcg 1 cg fs).bind fun (fs, result) =>
        if result ≠ 0 then some (fs, result)
        else brute dir readOk (fs.fsNcg - 2) 2 ((cg + 2) % fs.fsNcg) fs

/-- `none` is a panic. -/
def ffsFreefile (fs : Fs) (ino : Nat) (dir readOk : Bool) : Option Fs :=
  if fs.fsIpg * fs.fsNcg ≤ ino then none
  else if !readOk then some fs
  else
    let cg := inoToCg fs ino
    let cgp := fs.cg cg
    let ino := ino % fs.fsIpg
    if isclr cgp.cgInosused ino then none
    else
      let cgp := { cgp with
        cgInosused := clrbit cgp.cgInosused ino
        cgIrotor := if ino < cgp.cgIrotor then ino else cgp.cgIrotor
        cgCs := cgp.cgCs.free dir }
      some { fs with
        cg := Function.update fs.cg cg cgp
        fsCstotal := fs.fsCstotal.free dir
        fsCs := Function.update fs.fsCs cg ((fs.fsCs cg).free dir) }

/-- `ffs_dirpref` has picked the group `dirpref`. -/
def preference (fs : Fs) (parent dirpref : Nat) (dir : Bool) : Nat :=
  let ipref := if dir then fs.fsIpg * dirpref else parent
  if fs.fsNcg * fs.fsIpg ≤ ipref then 0 else ipref

def noteContigdirs (fs : Fs) (cg : Nat) (dir : Bool) : Fs :=
  let n := fs.fsContigdirs cg
  let n := if dir then (if n < 255 then n + 1 else n) else (if 0 < n then n - 1 else n)
  { fs with fsContigdirs := Function.update fs.fsContigdirs cg n }

/-- The new inode has the number returned; 0 is an error, which may come from `VFS_VGET`. `none`
is a panic. -/
def ffsInodeAlloc (fs : Fs) (parent dirpref : Nat) (dir : Bool) (readOk : Try → Bool) (vgetOk freeReadOk : Bool) :
    Option (Fs × Nat) :=
  if fs.fsCstotal.csNifree = 0 then some (fs, 0)
  else
    let ipref := preference fs parent dirpref dir
    let cg := inoToCg fs ipref
    let fs := noteContigdirs fs cg dir
    (ffsHashalloc fs cg ipref dir readOk).bind fun (fs, ino) =>
      if ino = 0 then some (fs, 0)
      else if vgetOk then some (fs, ino)
      else (ffsFreefile fs ino dir freeReadOk).map fun fs => (fs, 0)

end Obsd.Ffs
