import Obsd.MsdosFat

/-!
# Allocation of clusters

The bitmap `pm_inusemap` has a bit for every cluster of a volume, which is
set if the cluster is in use, and `clusteralloc` looks there for a run of
clear bits before it writes the table. Every word of the bitmap that is
read or written is put on the list `words`, whether the bitmap has it or
not.

What `extendfile` needs of `pcbmap`, which only reads, is an argument of
it. The clearing of new clusters is left out, as are the counters of cache
hits.
-/

namespace Obsd.Fat

variable (v : Volume)

/-- The number of words that `msdosfs_mountfs` allocates for the
bitmap. -/
def Volume.bmapsiz : Nat := (v.maxcluster + 32 - 1) / 32

/-- A word of the bitmap is read. -/
def touch (idx : Nat) (s : St) : St := { s with words := idx :: s.words }

/-! ## fillinusemap -/

/-- All clusters are marked in use. -/
def fillWords : Nat → St → St
  | 0, s => s
  | n + 1, s =>
    let s := fillWords n s
    { s with
      inuse := Bitmap.setWord s.inuse n (BitVec.allOnes 32)
      words := n :: s.words }

/-- The loop of fillinusemap over `n` clusters from `cn` on; `held` is the
block in the buffer. -/
def fillLoop (io : Nat → Bool) : Nat → Nat → Option Buf → St → St × Except Err Unit
  | 0, _, _, s => (s, .ok ())
  | n + 1, cn, held, s =>
    let b := fatblock v (v.fatofs cn)
    match if b.bo = 0 ∨ held.isNone then bread io s.disk b else held with
    | none => (s, .error .eio)
    | some buf =>
      match if v.type = .fat32 then getulong buf b.bo else getushort buf b.bo with
      | none => (s, .error .outside)
      | some readcn =>
        let readcn := if v.type = .fat12 ∧ cn % 2 = 1 then readcn >>> 4 else readcn
        let readcn := readcn &&& v.type.mask
        fillLoop io n (cn + 1) (some buf) (if readcn = 0 then usemapFree cn s else s)

/-- fillinusemap -/
def fillinusemap (io : Nat → Bool) (s : St) : St × Except Err Unit :=
  let s := fillWords ((v.maxcluster + 32) / 32) s
  fillLoop v io (v.maxcluster + 1 - clustFirst) clustFirst none { s with freecount := 0 }

/-! ## clusteralloc -/

/-- The loop of chainlength over `n` more words behind `idx`. -/
def lengthLoop (count : Nat) : Nat → Nat → Nat → St → St × Nat
  | 0, _, len, s => (s, len)
  | n + 1, idx, len, s =>
    if count ≤ len then (s, len)
    else
      let s := touch (idx + 1) s
      let map := s.inuse (idx + 1)
      if map ≠ 0 then (s, len + (Bitmap.ffs map - 1))
      else lengthLoop count n (idx + 1) (len + 32) s

/-- chainlength -/
def chainlength (start count : Nat) (s : St) : St × Nat :=
  let maxIdx := v.maxcluster / 32
  let idx := start / 32
  let start := start % 32
  let s := touch idx s
  let map := s.inuse idx &&& ~~~(1#32 <<< start - 1#32)
  if map ≠ 0 then (s, min (Bitmap.ffs map - 1 - start) count)
  else
    let len := 32 - start
    if count ≤ len then (s, count)
    else
      let (s, len) := lengthLoop count (maxIdx - idx) idx len s
      (s, min len count)

def usemapAllocRun : Nat → Nat → St → St
  | 0, _, s => s
  | n + 1, cl, s => usemapAllocRun n (cl + 1) (usemapAlloc cl s)

/-- chainalloc; the result is the first cluster and how many there are. -/
def chainalloc (io : Nat → Bool) (start count : Nat) (fill : BitVec 32) (s : St) :
    St × Except Err (Nat × Nat) :=
  match fatchain v io start count fill (usemapAllocRun count start s) with
  | (s, .error e) => (s, .error e)
  | (s, .ok ()) => (s, .ok (start, count))

/-- What a search has come to: a run that is long enough, or the longest
that has been found. -/
inductive Search where
  | hit (cn : Nat)
  | best (foundcn foundl : Nat)

/-- The two loops of clusteralloc, from `cn` on up to `bound`; `cn` is
larger in every turn. -/
def search (count bound : Nat) : Nat → Nat → Nat → Nat → St → St × Search
  | 0, _, foundcn, foundl, s => (s, .best foundcn foundl)
  | turns + 1, cn, foundcn, foundl, s =>
    if bound ≤ cn then (s, .best foundcn foundl)
    else
      let idx := cn / 32
      let s := touch idx s
      let map := s.inuse idx ||| (1#32 <<< (cn % 32) - 1#32)
      if map ≠ BitVec.allOnes 32 then
        let cn := idx * 32 + (Bitmap.ffs (~~~map) - 1)
        let (s, l) := chainlength v cn count s
        if count ≤ l then (s, .hit cn)
        else if foundl < l then search count bound turns (cn + l + 1) cn l s
        else search count bound turns (cn + l + 1) foundcn foundl s
      else search count bound turns (cn + (32 - cn % 32)) foundcn foundl s

/-- A pseudo-random place to start from. -/
def newst (start : Nat) : Nat := (12345 + 1103515245 * start) % 2 ^ 32 % (v.maxcluster + 1)

/-- clusteralloc from where the search starts; `len` is the length of the
run at `start`. -/
def allocFrom (io : Nat → Bool) (start len count : Nat) (fill : BitVec 32) (s : St) :
    St × Except Err (Nat × Nat) :=
  match search v count (v.maxcluster + 1) (v.maxcluster + 1 - newst v start) (newst v start) 0 0
    s with
  | (s, .hit cn) => chainalloc v io cn count fill s
  | (s, .best foundcn foundl) =>
    match search v count (newst v start) (newst v start) 0 foundcn foundl s with
    | (s, .hit cn) => chainalloc v io cn count fill s
    | (s, .best foundcn foundl) =>
      if foundl = 0 then (s, .error .enospc)
      else if len ≠ 0 then chainalloc v io start len fill s
      else chainalloc v io foundcn foundl fill s

/-- clusteralloc; `usec` is the microsecond of the call. -/
def clusteralloc (io : Nat → Bool) (usec start count : Nat) (fill : BitVec 32) (s : St) :
    St × Except Err (Nat × Nat) :=
  if start ≠ 0 then
    let (s, len) := chainlength v start count s
    if count ≤ len then chainalloc v io start count fill s
    else allocFrom v io start len count fill s
  else allocFrom v io (usec >>> 10 ||| usec) 0 count fill s

/-- clusterfree -/
def clusterfree (io : Nat → Bool) (cluster : Nat) (s : St) : St × Except Err (BitVec 32) :=
  match fatentry v io true true cluster msdosfsfree (usemapFree cluster s) with
  | (s, .error e) => (usemapAlloc cluster s, .error e)
  | (s, .ok oldcn) => (s, .ok oldcn)

/-! ## extendfile -/

/-- FCE_EMPTY -/
def fceEmpty : Nat := 0xffffffff

/-- The fields of a denode for its clusters: the first one, and the entry
FC_LASTFC of the fat cache. -/
structure Denode where
  startCluster : Nat
  directory : Bool
  frcn : Nat
  fsrcn : Nat

/-- The loop of extendfile; every turn allocates a cluster at least. -/
def extendLoop (io : Nat → Bool) (usec : Nat) : Nat → Nat → Denode → St → St × Except Err Denode
  | 0, _, dep, s => (s, .ok dep)
  | turns + 1, count, dep, s =>
    if count = 0 then (s, .ok dep)
    else
      let cn := if dep.startCluster = 0 then 0 else (dep.fsrcn + 1) % 2 ^ 32
      match clusteralloc v io usec cn count clustEofe s with
      | (s, .error e) => (s, .error e)
      | (s, .ok (cn, got)) =>
        if dep.startCluster = 0 then
          extendLoop io usec turns (count - got)
            { dep with startCluster := cn, frcn := got - 1, fsrcn := cn + got - 1 } s
        else
          match fatentry v io false true dep.fsrcn (BitVec.ofNat 32 cn) s with
          | (s, .error e) => ((clusterfree v io cn s).1, .error e)
          | (s, .ok _) =>
            extendLoop io usec turns (count - got)
              { dep with frcn := (dep.frcn + 1 + got - 1) % 2 ^ 32, fsrcn := cn + got - 1 } s

/-- What a call of pcbmap for a cluster behind the end of a file comes
to: there is such a cluster, an error, or E2BIG with an entry for
FC_LASTFC. -/
inductive Pcbmap where
  | found
  | failed (e : Err)
  | e2big (frcn fsrcn : Nat)

/-- extendfile; `pcb` is the answer of pcbmap, if it is asked. -/
def extendfile (io : Nat → Bool) (usec : Nat) (pcb : Pcbmap) (count : Nat) (dep : Denode) (s : St) :
    St × Except Err Denode :=
  if dep.startCluster = 0 ∧ dep.directory then (s, .error .enospc)
  else if dep.frcn = fceEmpty ∧ dep.startCluster ≠ 0 then
    match pcb with
    | .found => (s, .ok dep)
    | .failed e => (s, .error e)
    | .e2big frcn fsrcn =>
      extendLoop v io usec count count { dep with frcn := frcn, fsrcn := fsrcn } s
  else extendLoop v io usec count count dep s

end Obsd.Fat
