import Obsd.LeBytes
import Obsd.Bitmap

/-!
# The file allocation table of msdosfs

The functions of msdosfs/msdosfs_fat.c that read and write the table. They
work on blocks: `fatblock` says which block holds an entry, and what is
changed in the block is written back to every copy of the table by
`updatefats`. A block that cannot be read fails the operation, and an
access outside of the block's buffer shows up as the error `outside`.

The FSInfo block and `pm_fmod` are left out.
-/

namespace Obsd.Fat

/-- DEV_BSIZE -/
def devBsize : Nat := 512

/-- MAXBSIZE -/
def maxbsize : Nat := 65536

/-- CLUST_FIRST -/
def clustFirst : Nat := 2

/-- CLUST_RSRVD -/
def clustRsrvd : BitVec 32 := 0xfffffff6

/-- CLUST_EOFE -/
def clustEofe : BitVec 32 := 0xffffffff

/-- MSDOSFSFREE -/
def msdosfsfree : BitVec 32 := 0

/-! ## The volume -/

inductive FatType where
  | fat12 | fat16 | fat32
deriving DecidableEq

/-- pm_fatmask -/
def FatType.mask : FatType → BitVec 32
  | fat12 => 0xfff
  | fat16 => 0xffff
  | fat32 => 0xfffffff

/-- pm_fatmult -/
def FatType.mult : FatType → Nat
  | fat12 => 3
  | fat16 => 2
  | fat32 => 4

/-- pm_fatdiv -/
def FatType.div : FatType → Nat
  | fat12 => 2
  | _ => 1

/-- What `msdosfs_mountfs` finds out about a volume. The table has an entry
for every cluster (`fits`; the size of the table is a 32-bit number), a
12-bit table is only used for few clusters, and the copies of the table lie
where 32-bit sector numbers reach. -/
structure Volume where
  type : FatType
  blkPerSec : Nat
  fatblk : Nat
  fatSecs : Nat
  fats : Nat
  curfat : Nat
  mirror : Bool
  maxcluster : Nat
  blk_pos : 0 < blkPerSec
  fits : maxcluster < fatSecs * devBsize % 2 ^ 32 / type.mult * type.div
  few : type = .fat12 → maxcluster ≤ 0xff4
  current : mirror = true → curfat = 0
  reach : fatblk + max fats (curfat + 1) * fatSecs < 2 ^ 32

variable (v : Volume)

/-- pm_fatblocksize -/
def Volume.fatblocksize : Nat :=
  match v.type with
  | .fat12 => 3 * (v.blkPerSec * devBsize)
  | _ => maxbsize

/-- pm_fatblocksec -/
def Volume.fatblocksec : Nat := v.fatblocksize / devBsize

/-- FATOFS -/
def Volume.fatofs (cn : Nat) : Nat := cn * v.type.mult % 2 ^ 32 / v.type.div

/-- A mounted volume in use: the device, `pm_inusemap` and
`pm_freeclustercount`. `words` lists the words of the map that have been
read or written. -/
structure St where
  disk : Mem
  inuse : Nat → BitVec 32
  freecount : BitVec 32
  words : List Nat

inductive Err where
  | outside | einval | eio | enospc | turns
deriving DecidableEq

/-! ## Blocks -/

structure Buf where
  data : Mem
  size : Nat

/-- The block of the table with the byte `ofs`: its number, its size and
where in it the byte is. -/
structure Blk where
  bn : Nat
  size : Nat
  bo : Nat

/-- fatblock -/
def fatblock (ofs : Nat) : Blk :=
  let bn := ofs / v.fatblocksize * v.fatblocksec
  { bn := bn + (v.fatblk + v.curfat * v.fatSecs)
    size := min v.fatblocksec (v.fatSecs - bn) * devBsize
    bo := ofs % v.fatblocksize }

/-- `io` says which blocks can be read. -/
def bread (io : Nat → Bool) (disk : Mem) (b : Blk) : Option Buf :=
  if io b.bn then some ⟨fun i => disk (b.bn * devBsize + i), b.size⟩ else none

def bwrite (disk : Mem) (bn : Nat) (buf : Buf) : Mem := fun a =>
  if bn * devBsize ≤ a ∧ a < bn * devBsize + buf.size then buf.data (a - bn * devBsize) else disk a

/-- updatefats: the other copies first. -/
def updatefats (disk : Mem) (bn : Nat) (buf : Buf) : Mem :=
  let copies := if v.mirror then List.range' 1 (v.fats - 1) else []
  bwrite (copies.foldl (fun d i => bwrite d (bn + i * v.fatSecs) buf) disk) bn buf

def getushort (buf : Buf) (o : Nat) : Option (BitVec 32) :=
  if o + 2 ≤ buf.size then some (BitVec.ofNat 32 (getLe buf.data o 2)) else none

def getulong (buf : Buf) (o : Nat) : Option (BitVec 32) :=
  if o + 4 ≤ buf.size then some (BitVec.ofNat 32 (getLe buf.data o 4)) else none

def putushort (buf : Buf) (o : Nat) (x : BitVec 32) : Option Buf :=
  if o + 2 ≤ buf.size then some { buf with data := putLe buf.data o 2 x.toNat } else none

def putulong (buf : Buf) (o : Nat) (x : BitVec 32) : Option Buf :=
  if o + 4 ≤ buf.size then some { buf with data := putLe buf.data o 4 x.toNat } else none

/-! ## fatentry -/

/-- The FAT_GET part of fatentry. -/
def readEntry (buf : Buf) (bo cn : Nat) : Option (BitVec 32) := do
  let readcn ← (if v.type = .fat32 then getulong buf bo else getushort buf bo)
  let readcn := if v.type = .fat12 ∧ cn % 2 = 1 then readcn >>> 4 else readcn
  let readcn := readcn &&& v.type.mask
  some (if clustRsrvd ≤ readcn ||| ~~~v.type.mask then readcn ||| ~~~v.type.mask else readcn)

/-- The FAT_SET part of fatentry. -/
def writeEntry (buf : Buf) (bo cn : Nat) (new : BitVec 32) : Option Buf :=
  match v.type with
  | .fat12 => do
    let readcn ← getushort buf bo
    putushort buf bo (if cn % 2 = 1 then readcn &&& (0x000f : BitVec 32) ||| new <<< 4
      else readcn &&& 0xf000 ||| new &&& 0xfff)
  | .fat16 => putushort buf bo new
  | .fat32 => do
    let readcn ← getulong buf bo
    putulong buf bo (readcn &&& ~~~0xfffffff ||| new &&& 0xfffffff)

/-- fatentry; `get` and `set` are FAT_GET and FAT_SET. -/
def fatentry (io : Nat → Bool) (get set : Bool) (cn : Nat) (new : BitVec 32) (s : St) :
    St × Except Err (BitVec 32) :=
  if cn < clustFirst ∨ v.maxcluster < cn then (s, .error .einval)
  else
    let b := fatblock v (v.fatofs cn)
    match bread io s.disk b with
    | none => (s, .error .eio)
    | some buf =>
      match if get then readEntry v buf b.bo cn else some 0 with
      | none => (s, .error .outside)
      | some old =>
        if set then
          match writeEntry v buf b.bo cn new with
          | none => (s, .error .outside)
          | some buf' => ({ s with disk := updatefats v s.disk b.bn buf' }, .ok old)
        else (s, .ok old)

/-! ## fatchain -/

/-- One entry of fatchain: `start` is already the number of the next
cluster. -/
def chainEntry (buf : Buf) (bo start : Nat) (newc : BitVec 32) : Option Buf :=
  match v.type with
  | .fat12 => do
    let readcn ← getushort buf bo
    putushort buf bo (if start % 2 = 1 then readcn &&& 0xf000 ||| newc &&& 0xfff
      else readcn &&& (0x000f : BitVec 32) ||| newc <<< 4)
  | .fat16 => putushort buf bo newc
  | .fat32 => do
    let readcn ← getulong buf bo
    putulong buf bo (readcn &&& ~~~v.type.mask ||| newc &&& v.type.mask)

/-- How far `bo` moves on. -/
def chainStep (start : Nat) : Nat :=
  match v.type with
  | .fat12 => if start % 2 = 1 then 1 else 2
  | .fat16 => 2
  | .fat32 => 4

/-- The inner loop of fatchain, over the entries of one block; it returns
how many clusters are left. -/
def chainBlock (fill : BitVec 32) : Nat → Nat → Nat → Buf → Option (Buf × Nat)
  | 0, _, _, buf => some (buf, 0)
  | count + 1, start, bo, buf => do
    let newc := if 0 < count then BitVec.ofNat 32 (start + 1) else fill
    let buf' ← chainEntry v buf bo (start + 1) newc
    let bo' := bo + chainStep v (start + 1)
    if buf.size ≤ bo' then some (buf', count) else chainBlock fill count (start + 1) bo' buf'

/-- The outer loop of fatchain; a turn takes a cluster at least. -/
def chainLoop (io : Nat → Bool) (fill : BitVec 32) : Nat → Nat → Nat → St → St × Except Err Unit
  | 0, _, _, s => (s, .ok ())
  | turns + 1, start, count, s =>
    if count = 0 then (s, .ok ())
    else
      let b := fatblock v (v.fatofs start)
      match bread io s.disk b with
      | none => (s, .error .eio)
      | some buf =>
        match chainBlock v fill count start b.bo buf with
        | none => (s, .error .outside)
        | some (buf', left) =>
          chainLoop io fill turns (start + (count - left)) left
            { s with disk := updatefats v s.disk b.bn buf' }

/-- fatchain -/
def fatchain (io : Nat → Bool) (start count : Nat) (fill : BitVec 32) (s : St) :
    St × Except Err Unit :=
  if start < clustFirst ∨ v.maxcluster < (start + count + (2 ^ 32 - 1)) % 2 ^ 32 then
    (s, .error .einval)
  else chainLoop v io fill count start count s

/-! ## freeclusterchain -/

def usemapFree (cn : Nat) (s : St) : St :=
  { s with
    freecount := s.freecount + 1
    inuse := Bitmap.clear s.inuse cn
    words := cn / 32 :: s.words }

def usemapAlloc (cn : Nat) (s : St) : St :=
  { s with
    freecount := s.freecount - 1
    inuse := Bitmap.set s.inuse cn
    words := cn / 32 :: s.words }

/-- The entry of `cluster` is made free; the result is what it was. -/
def freeEntry (buf : Buf) (bo cluster : Nat) : Option (Buf × BitVec 32) :=
  match v.type with
  | .fat12 => do
    let readcn ← getushort buf bo
    let buf' ← putushort buf bo (if cluster % 2 = 1
      then readcn &&& (0x000f : BitVec 32) ||| msdosfsfree <<< 4
      else readcn &&& 0xf000 ||| msdosfsfree &&& 0xfff)
    some (buf', if cluster % 2 = 1 then readcn >>> 4 else readcn)
  | .fat16 => do
    let next ← getushort buf bo
    let buf' ← putushort buf bo msdosfsfree
    some (buf', next)
  | .fat32 => do
    let next ← getulong buf bo
    let buf' ← putulong buf bo (msdosfsfree &&& 0xfffffff ||| next &&& ~~~0xfffffff)
    some (buf', next)

/-- From an entry to the next cluster of the chain. -/
def follow (next : BitVec 32) : BitVec 32 :=
  let cluster := next &&& v.type.mask
  if clustRsrvd ≤ cluster ||| ~~~v.type.mask then cluster ||| v.type.mask else cluster

/-- The block for the next entry: the one at hand, or another one read
after the one at hand has been written. -/
def nextBlock (io : Nat → Bool) (held : Option (Nat × Buf)) (b : Blk) (s : St) :
    St × Option Buf :=
  match held with
  | none => (s, bread io s.disk b)
  | some (lbn, buf) =>
    if lbn = b.bn then (s, some buf)
    else
      let disk := updatefats v s.disk lbn buf
      ({ s with disk := disk }, bread io disk b)

/-- The loop of freeclusterchain; `held` is the block in the buffer, with
its number. -/
def freeLoop (io : Nat → Bool) :
    Nat → BitVec 32 → Option (Nat × Buf) → St → St × Except Err Unit
  | turns, cluster, held, s =>
    if clustFirst ≤ cluster.toNat ∧ cluster.toNat ≤ v.maxcluster then
      match turns with
      | 0 => (s, .error .turns)
      | turns + 1 =>
        let b := fatblock v (v.fatofs cluster.toNat)
        match nextBlock v io held b s with
        | (s, none) => (s, .error .eio)
        | (s, some buf) =>
          let s := usemapFree cluster.toNat s
          match freeEntry v buf b.bo cluster.toNat with
          | none => (s, .error .outside)
          | some (buf', next) => freeLoop io turns (follow v next) (some (b.bn, buf')) s
    else
      match held with
      | none => (s, .ok ())
      | some (lbn, buf) => ({ s with disk := updatefats v s.disk lbn buf }, .ok ())

/-- freeclusterchain. Every turn makes an entry free, and the walk stops
behind a free entry, so that it visits no more entries than there are and
one of them again. -/
def freeclusterchain (io : Nat → Bool) (cluster : BitVec 32) (s : St) : St × Except Err Unit :=
  freeLoop v io (v.maxcluster + 1) cluster none s

end Obsd.Fat
