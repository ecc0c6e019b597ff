import Obsd.ByteMap

/-!
# Blocks of a file system

The allocation of blocks and fragments of `ufs/ffs/ffs_alloc.c`, with the
tables of `ffs_tables.c` and the block operations of `ffs_subr.c`. In the
map of a cylinder group a bit is set if the fragment is free; a block is
`fs_frag` fragments, and the map of clusters has a bit for each block that
is free as a whole.

A number of type `daddr64_t` or `int` that is used as an index is not
negative, and is a `Nat`; an address that may be negative is an `Int`. All
the numbers of one group are less than `fs_fpg` and fit into an `int`, and
so do the numbers of groups, as `fs_cssize` is one. `ffs_clusteralloc` keeps
an address in an `int`; there it is cut to 32 bits.

Left out are the times, the soft updates, and the rotational tables of FFS1
and `fs_fmod`, which nothing here reads. The kernel is one with
`DIAGNOSTIC`.
-/

namespace Obsd.FfsBlk

open Bytes

inductive Fault where
  | panic (msg : String)
deriving DecidableEq

/-! ## Data -/

/-- The part of a `struct csum` that is about blocks. -/
structure Csum where
  csNbfree : Int
  csNffree : Int

/-- The part of a `struct cg` that is about blocks. -/
structure Cg where
  cgCgx : Nat
  cgCs : Csum
  cgRotor : Nat
  cgFrotor : Nat
  cgFrsum : Nat → Int
  cgBlksfree : Bytes
  cgClustersum : Nat → Int
  cgClustersfree : Bytes
  cgNclusterblks : Nat

structure Fs where
  fsNcg : Nat
  fsFpg : Nat
  fsFrag : Nat
  fsFragshift : Nat
  fsBsize : Nat
  fsFshift : Nat
  /-- There are no clusters if this is 0. -/
  fsContigsumsize : Nat
  fsCs : Nat → Csum
  fsCstotal : Csum
  fsMaxcluster : Nat → Int
  cg : Nat → Cg
  /-- What `ffs_cgread` finds: the group can be read, and has the magic number. -/
  cgread : Nat → Bool

/-- A number in a variable of type `int`. -/
def int32 (x : Int) : Int := x.bmod (2 ^ 32)

def howmany (x y : Nat) : Nat := (x + (y - 1)) / y

def cgbase (fs : Fs) (c : Nat) : Int := (fs.fsFpg : Int) * c

def dtog (fs : Fs) (d : Int) : Int := d.tdiv fs.fsFpg

def dtogd (fs : Fs) (d : Int) : Int := d.tmod fs.fsFpg

def numfrags (fs : Fs) (loc : Nat) : Nat := loc >>> fs.fsFshift

def fragstoblks (fs : Fs) (frags : Nat) : Nat := frags >>> fs.fsFragshift

def blkstofrags (fs : Fs) (blks : Nat) : Nat := blks <<< fs.fsFragshift

/-- `rounddown(fsb, fs->fs_frag)`. -/
def blknum (fs : Fs) (fsb : Int) : Int := fsb / fs.fsFrag * fs.fsFrag

/-- The bits of a block. -/
def blkmap (fs : Fs) (map : Bytes) (loc : Nat) : Nat :=
  ((map (loc / 8)).toNat >>> (loc % 8)) &&& (0xff >>> (8 - fs.fsFrag))

/-! ## Tables -/

def around : List Nat := [0x3, 0x7, 0xf, 0x1f, 0x3f, 0x7f, 0xff, 0x1ff, 0x3ff]

def inside : List Nat := [0x0, 0x2, 0x6, 0xe, 0x1e, 0x3e, 0x7e, 0xfe, 0x1fe]

def fragtbl124 : List Nat :=
  [0x00, 0x16, 0x16, 0x2a, 0x16, 0x16, 0x26, 0x4e, 0x16, 0x16, 0x16, 0x3e, 0x2a, 0x3e, 0x4e, 0x8a,
   0x16, 0x16, 0x16, 0x3e, 0x16, 0x16, 0x36, 0x5e, 0x16, 0x16, 0x16, 0x3e, 0x3e, 0x3e, 0x5e, 0x9e,
   0x16, 0x16, 0x16, 0x3e, 0x16, 0x16, 0x36, 0x5e, 0x16, 0x16, 0x16, 0x3e, 0x3e, 0x3e, 0x5e, 0x9e,
   0x2a, 0x3e, 0x3e, 0x2a, 0x3e, 0x3e, 0x2e, 0x6e, 0x3e, 0x3e, 0x3e, 0x3e, 0x2a, 0x3e, 0x6e, 0xaa,
   0x16, 0x16, 0x16, 0x3e, 0x16, 0x16, 0x36, 0x5e, 0x16, 0x16, 0x16, 0x3e, 0x3e, 0x3e, 0x5e, 0x9e,
   0x16, 0x16, 0x16, 0x3e, 0x16, 0x16, 0x36, 0x5e, 0x16, 0x16, 0x16, 0x3e, 0x3e, 0x3e, 0x5e, 0x9e,
   0x26, 0x36, 0x36, 0x2e, 0x36, 0x36, 0x26, 0x6e, 0x36, 0x36, 0x36, 0x3e, 0x2e, 0x3e, 0x6e, 0xae,
   0x4e, 0x5e, 0x5e, 0x6e, 0x5e, 0x5e, 0x6e, 0x4e, 0x5e, 0x5e, 0x5e, 0x7e, 0x6e, 0x7e, 0x4e, 0xce,
   0x16, 0x16, 0x16, 0x3e, 0x16, 0x16, 0x36, 0x5e, 0x16, 0x16, 0x16, 0x3e, 0x3e, 0x3e, 0x5e, 0x9e,
   0x16, 0x16, 0x16, 0x3e, 0x16, 0x16, 0x36, 0x5e, 0x16, 0x16, 0x16, 0x3e, 0x3e, 0x3e, 0x5e, 0x9e,
   0x16, 0x16, 0x16, 0x3e, 0x16, 0x16, 0x36, 0x5e, 0x16, 0x16, 0x16, 0x3e, 0x3e, 0x3e, 0x5e, 0x9e,
   0x3e, 0x3e, 0x3e, 0x3e, 0x3e, 0x3e, 0x3e, 0x7e, 0x3e, 0x3e, 0x3e, 0x3e, 0x3e, 0x3e, 0x7e, 0xbe,
   0x2a, 0x3e, 0x3e, 0x2a, 0x3e, 0x3e, 0x2e, 0x6e, 0x3e, 0x3e, 0x3e, 0x3e, 0x2a, 0x3e, 0x6e, 0xaa,
   0x3e, 0x3e, 0x3e, 0x3e, 0x3e, 0x3e, 0x3e, 0x7e, 0x3e, 0x3e, 0x3e, 0x3e, 0x3e, 0x3e, 0x7e, 0xbe,
   0x4e, 0x5e, 0x5e, 0x6e, 0x5e, 0x5e, 0x6e, 0x4e, 0x5e, 0x5e, 0x5e, 0x7e, 0x6e, 0x7e, 0x4e, 0xce,
   0x8a, 0x9e, 0x9e, 0xaa, 0x9e, 0x9e, 0xae, 0xce, 0x9e, 0x9e, 0x9e, 0xbe, 0xaa, 0xbe, 0xce, 0x8a]

def fragtbl8 : List Nat :=
  [0x00, 0x01, 0x01, 0x02, 0x01, 0x01, 0x02, 0x04, 0x01, 0x01, 0x01, 0x03, 0x02, 0x03, 0x04, 0x08,
   0x01, 0x01, 0x01, 0x03, 0x01, 0x01, 0x03, 0x05, 0x02, 0x03, 0x03, 0x02, 0x04, 0x05, 0x08, 0x10,
   0x01, 0x01, 0x01, 0x03, 0x01, 0x01, 0x03, 0x05, 0x01, 0x01, 0x01, 0x03, 0x03, 0x03, 0x05, 0x09,
   0x02, 0x03, 0x03, 0x02, 0x03, 0x03, 0x02, 0x06, 0x04, 0x05, 0x05, 0x06, 0x08, 0x09, 0x10, 0x20,
   0x01, 0x01, 0x01, 0x03, 0x01, 0x01, 0x03, 0x05, 0x01, 0x01, 0x01, 0x03, 0x03, 0x03, 0x05, 0x09,
   0x01, 0x01, 0x01, 0x03, 0x01, 0x01, 0x03, 0x05, 0x03, 0x03, 0x03, 0x03, 0x05, 0x05, 0x09, 0x11,
   0x02, 0x03, 0x03, 0x02, 0x03, 0x03, 0x02, 0x06, 0x03, 0x03, 0x03, 0x03, 0x02, 0x03, 0x06, 0x0a,
   0x04, 0x05, 0x05, 0x06, 0x05, 0x05, 0x06, 0x04, 0x08, 0x09, 0x09, 0x0a, 0x10, 0x11, 0x20, 0x40,
   0x01, 0x01, 0x01, 0x03, 0x01, 0x01, 0x03, 0x05, 0x01, 0x01, 0x01, 0x03, 0x03, 0x03, 0x05, 0x09,
   0x01, 0x01, 0x01, 0x03, 0x01, 0x01, 0x03, 0x05, 0x03, 0x03, 0x03, 0x03, 0x05, 0x05, 0x09, 0x11,
   0x01, 0x01, 0x01, 0x03, 0x01, 0x01, 0x03, 0x05, 0x01, 0x01, 0x01, 0x03, 0x03, 0x03, 0x05, 0x09,
   0x03, 0x03, 0x03, 0x03, 0x03, 0x03, 0x03, 0x07, 0x05, 0x05, 0x05, 0x07, 0x09, 0x09, 0x11, 0x21,
   0x02, 0x03, 0x03, 0x02, 0x03, 0x03, 0x02, 0x06, 0x03, 0x03, 0x03, 0x03, 0x02, 0x03, 0x06, 0x0a,
   0x03, 0x03, 0x03, 0x03, 0x03, 0x03, 0x03, 0x07, 0x02, 0x03, 0x03, 0x02, 0x06, 0x07, 0x0a, 0x12,
   0x04, 0x05, 0x05, 0x06, 0x05, 0x05, 0x06, 0x04, 0x05, 0x05, 0x05, 0x07, 0x06, 0x07, 0x04, 0x0c,
   0x08, 0x09, 0x09, 0x0a, 0x09, 0x09, 0x0a, 0x0c, 0x10, 0x11, 0x11, 0x12, 0x20, 0x21, 0x40, 0x80]

def fragtbl : Nat → List Nat
  | 1 => fragtbl124
  | 2 => fragtbl124
  | 4 => fragtbl124
  | 8 => fragtbl8
  | _ => []

/-! ## Operations on a map -/

/-- How many bytes are left where the first is found for which the table has a bit of `mask`. -/
def scanc (table : List Nat) (mask : Nat) (a : Bytes) : (size cp : Nat) → Nat
  | 0, _ => 0
  | size + 1, cp =>
    if table.getD (a cp).toNat 0 &&& mask = 0 then scanc table mask a size (cp + 1) else size + 1

/-- The block is free. -/
def ffsIsblock (fs : Fs) (cp : Bytes) (h : Nat) : Bool :=
  match fs.fsFrag with
  | 4 =>
    let mask := 0x0f#8 <<< ((h &&& 0x1) <<< 2)
    cp (h >>> 1) &&& mask == mask
  | 2 =>
    let mask := 0x03#8 <<< ((h &&& 0x3) <<< 1)
    cp (h >>> 2) &&& mask == mask
  | 1 =>
    let mask := 0x01#8 <<< (h &&& 0x7)
    cp (h >>> 3) &&& mask == mask
  | _ => cp h == 0xff#8

/-- Take a block out of the map. -/
def ffsClrblock (fs : Fs) (cp : Bytes) (h : Nat) : Bytes :=
  match fs.fsFrag with
  | 4 => Bitmap.setWord cp (h >>> 1) (cp (h >>> 1) &&& ~~~(0x0f#8 <<< ((h &&& 0x1) <<< 2)))
  | 2 => Bitmap.setWord cp (h >>> 2) (cp (h >>> 2) &&& ~~~(0x03#8 <<< ((h &&& 0x3) <<< 1)))
  | 1 => Bitmap.setWord cp (h >>> 3) (cp (h >>> 3) &&& ~~~(0x01#8 <<< (h &&& 0x7)))
  | _ => Bitmap.setWord cp h 0

/-- `n` bits from `i` on. -/
def setbits (a : Bytes) : (n i : Nat) → Bytes
  | 0, _ => a
  | n + 1, i => setbits (setbit a i) n (i + 1)

def clrbits (a : Bytes) : (n i : Nat) → Bytes
  | 0, _ => a
  | n + 1, i => clrbits (clrbit a i) n (i + 1)

/-! ## Clusters -/

/-- Where the free blocks from `i` on end, at most `n` of them. `map` is the byte before `mapp`,
and `bit` is that of `i` in it. -/
def forward (freemapp : Bytes) : (n i mapp map bit : Nat) → Nat
  | 0, i, _, _, _ => i
  | n + 1, i, mapp, map, bit =>
    if map &&& bit = 0 then i
    else if i % 8 ≠ 7 then forward freemapp n (i + 1) mapp map (bit <<< 1)
    else forward freemapp n (i + 1) (mapp + 1) (freemapp mapp).toNat 1

/-- How many free blocks there are from `i` backwards, at most `n`. `map` is the byte after
`mapp`. -/
def backward (freemapp : Bytes) : (n i mapp map bit : Nat) → Nat
  | 0, _, _, _, _ => 0
  | n + 1, i, mapp, map, bit =>
    if map &&& bit = 0 then 0
    else if i % 8 ≠ 0 then backward freemapp n (i - 1) mapp map (bit >>> 1) + 1
    else backward freemapp n (i - 1) (mapp - 1) (freemapp mapp).toNat (1 <<< 7) + 1

/-- The greatest length of a cluster that there is, up to a length. -/
def maxcluster (sump : Nat → Int) : Nat → Nat
  | 0 => 0
  | i + 1 => if sump (i + 1) > 0 then i + 1 else maxcluster sump i

def addSum (sump : Nat → Int) (i : Nat) (cnt : Int) : Nat → Int := Function.update sump i (sump i + cnt)

def ffsClusteracct (fs : Fs) (cgp : Cg) (blkno : Nat) (cnt : Int) : Fs × Cg :=
  if fs.fsContigsumsize = 0 then (fs, cgp)
  else
    let freemapp := if cnt > 0 then setbit cgp.cgClustersfree blkno else clrbit cgp.cgClustersfree blkno
    -- the size of the cluster going forward
    let start := blkno + 1
    let stop := if start + fs.fsContigsumsize ≥ cgp.cgNclusterblks then cgp.cgNclusterblks
      else start + fs.fsContigsumsize
    let forw := forward freemapp (stop - start) start (start / 8 + 1) (freemapp (start / 8)).toNat
      (1 <<< (start % 8)) - start
    -- the size of the cluster going backward; before the first block there is none
    let start := blkno - 1
    let n := if blkno < fs.fsContigsumsize + 1 then blkno else fs.fsContigsumsize
    let back := backward freemapp n start (start / 8 - 1) (freemapp (start / 8)).toNat (1 <<< (start % 8))
    -- account for the old cluster and the new ones
    let i := if back + forw + 1 > fs.fsContigsumsize then fs.fsContigsumsize else back + forw + 1
    let sump := addSum cgp.cgClustersum i cnt
    let sump := if back > 0 then addSum sump back (-cnt) else sump
    let sump := if forw > 0 then addSum sump forw (-cnt) else sump
    ({ fs with fsMaxcluster := Function.update fs.fsMaxcluster cgp.cgCgx (maxcluster sump fs.fsContigsumsize) },
      { cgp with cgClustersfree := freemapp, cgClustersum := sump })

/-! ## Searching the map -/

/-- The place of `subfield` in a block, if it is at one of `n` places from `pos` on. -/
def sift (blk : Nat) : (n pos field subfield : Nat) → Option Nat
  | 0, _, _, _ => none
  | n + 1, pos, field, subfield =>
    if blk &&& field = subfield then some pos else sift blk n (pos + 1) (field <<< 1) (subfield <<< 1)

/-- The fragments in one of `n` blocks from `bno` on. -/
def siftBlocks (fs : Fs) (map : Bytes) (allocsiz : Nat) : (n bno : Nat) → Option Nat
  | 0, _ => none
  | n + 1, bno =>
    match sift (blkmap fs map bno <<< 1) (fs.fsFrag - allocsiz + 1) 0 (around.getD allocsiz 0)
        (inside.getD allocsiz 0) with
    | some pos => some (bno + pos)
    | none => siftBlocks fs map allocsiz n (bno + fs.fsFrag)

/-- The byte that the search finds, from `start` on and then from the beginning. -/
def findByte (fs : Fs) (map : Bytes) (start allocsiz : Nat) : Option Nat :=
  let mask := 1 <<< (allocsiz - 1 + fs.fsFrag % 8)
  let len := howmany fs.fsFpg 8 - start
  let loc := scanc (fragtbl fs.fsFrag) mask map len start
  if loc = 0 then
    let len := start + 1
    let loc := scanc (fragtbl fs.fsFrag) mask map len 0
    if loc = 0 then none else some (0 + len - loc)
  else some (start + len - loc)

def ffsMapsearch (fs : Fs) (cgp : Cg) (bpref allocsiz : Nat) : Except Fault (Cg × Nat) :=
  let start := if bpref ≠ 0 then (dtogd fs bpref).toNat / 8 else cgp.cgFrotor / 8
  match findByte fs cgp.cgBlksfree start allocsiz with
  | none => .error (.panic "ffs_alloccg: map corrupted")
  | some i =>
    let bno := i * 8
    let cgp := { cgp with cgFrotor := bno }
    match siftBlocks fs cgp.cgBlksfree allocsiz (8 / fs.fsFrag) bno with
    | none => .error (.panic "ffs_alloccg: block not in map")
    | some bno => .ok (cgp, bno)

/-! ## Allocating in a group -/

/-- From `gotit` on: the block is taken, and its address is returned. -/
def gotit (fs : Fs) (cgp : Cg) (bno : Nat) : Fs × Cg × Int :=
  let blkno := fragstoblks fs bno
  let cgp := { cgp with cgBlksfree := ffsClrblock fs cgp.cgBlksfree blkno }
  let (fs, cgp) := ffsClusteracct fs cgp blkno (-1)
  let cgp := { cgp with cgCs := { cgp.cgCs with csNbfree := cgp.cgCs.csNbfree - 1 } }
  let cs := fs.fsCs cgp.cgCgx
  let fs := { fs with
    fsCstotal := { fs.fsCstotal with csNbfree := fs.fsCstotal.csNbfree - 1 }
    fsCs := Function.update fs.fsCs cgp.cgCgx { cs with csNbfree := cs.csNbfree - 1 } }
  (fs, cgp, cgbase fs cgp.cgCgx + bno)

/-- Take the next available block in the group. -/
def nextBlock (fs : Fs) (cgp : Cg) (bpref : Nat) : Except Fault (Fs × Cg × Int) :=
  (ffsMapsearch fs cgp bpref fs.fsFrag).map fun (cgp, bno) => gotit fs { cgp with cgRotor := bno } bno

def ffsAlloccgblk (fs : Fs) (cgp : Cg) (bpref : Int) : Except Fault (Fs × Cg × Int) :=
  if bpref = 0 ∨ dtog fs bpref ≠ cgp.cgCgx then nextBlock fs cgp cgp.cgRotor
  else
    let bpref := blknum fs bpref
    let bno := (dtogd fs bpref).toNat
    -- if the requested block is available, use it
    if ffsIsblock fs cgp.cgBlksfree (fragstoblks fs bno) then .ok (gotit fs cgp bno)
    else nextBlock fs cgp bpref.toNat

/-- The number of fragments that there is a run of, among `n` numbers from `allocsiz` on, or the
one after them. -/
def allocsize (frsum : Nat → Int) : (n allocsiz : Nat) → Nat
  | 0, allocsiz => allocsiz
  | n + 1, allocsiz => if frsum allocsiz ≠ 0 then allocsiz else allocsize frsum n (allocsiz + 1)

def Csum.addNffree (cs : Csum) (n : Int) : Csum := { cs with csNffree := cs.csNffree + n }

/-- The group and the summaries, with `n` free fragments more. -/
def Fs.addNffree (fs : Fs) (c : Nat) (cgp : Cg) (n : Int) : Fs :=
  { fs with
    cg := Function.update fs.cg c { cgp with cgCs := cgp.cgCs.addNffree n }
    fsCstotal := fs.fsCstotal.addNffree n
    fsCs := Function.update fs.fsCs c ((fs.fsCs c).addNffree n) }

/-- No address is 0: there is none. -/
def ffsAlloccg (fs : Fs) (c : Nat) (bpref size : Nat) : Except Fault (Fs × Int) :=
  if (fs.fsCs c).csNbfree = 0 ∧ size = fs.fsBsize then .ok (fs, 0)
  else if fs.cgread c = false then .ok (fs, 0)
  else
    let cgp := fs.cg c
    if cgp.cgCs.csNbfree = 0 ∧ size = fs.fsBsize then .ok (fs, 0)
    else if size = fs.fsBsize then
      (ffsAlloccgblk fs cgp bpref).map fun (fs, cgp, bno) =>
        ({ fs with cg := Function.update fs.cg c cgp }, bno)
    else
      let frags := numfrags fs size
      let allocsiz := allocsize cgp.cgFrsum (fs.fsFrag - frags) frags
      if allocsiz = fs.fsFrag then
        -- no fragments were available, so a block will be allocated, and hacked up
        if cgp.cgCs.csNbfree = 0 then .ok (fs, 0)
        else
          (ffsAlloccgblk fs cgp bpref).map fun (fs, cgp, bno) =>
            let bpref := (dtogd fs bno).toNat
            let i := fs.fsFrag - frags
            let cgp := { cgp with
              cgBlksfree := setbits cgp.cgBlksfree i (bpref + frags)
              cgFrsum := addSum cgp.cgFrsum i 1 }
            (fs.addNffree c cgp i, bno)
      else
        (ffsMapsearch fs cgp bpref allocsiz).map fun (cgp, bno) =>
          let frsum := addSum cgp.cgFrsum allocsiz (-1)
          let cgp := { cgp with
            cgBlksfree := clrbits cgp.cgBlksfree frags bno
            cgFrsum := if frags ≠ allocsiz then addSum frsum (allocsiz - frags) 1 else frsum }
          (fs.addNffree c cgp (-frags), cgbase fs c + bno)

/-! ## Clusters of blocks -/

/-- A run of `len` free blocks in the map of clusters, `got` being its last block; `n` is how
many blocks there are from `got` on, and `run` how many before it are free. -/
def scanRun (mapp : Bytes) (len : Nat) : (n got run p map bit : Nat) → Option (Nat × Nat)
  | 0, _, _, _, _, _ => none
  | n + 1, got, run, p, map, bit =>
    let next (run : Nat) : Option (Nat × Nat) :=
      if got % 8 ≠ 7 then scanRun mapp len n (got + 1) run p map (bit <<< 1)
      else scanRun mapp len n (got + 1) run (p + 1) (mapp p).toNat 1
    if map &&& bit = 0 then next 0
    else if run + 1 = len then some (got, run + 1)
    else next (run + 1)

/-- Allocate `n` blocks from `bno + i` on, the addresses being of type `int`. -/
def takeBlocks (bno : Int) : (n i : Nat) → Fs → Cg → Except Fault (Fs × Cg)
  | 0, _, fs, cgp => .ok (fs, cgp)
  | n + 1, i, fs, cgp => do
    let (fs, cgp, blkno) ← ffsAlloccgblk fs cgp (int32 (bno + i))
    if blkno ≠ int32 (bno + i) then .error (.panic "ffs_clusteralloc: lost block")
    else takeBlocks bno n (i + fs.fsFrag) fs cgp

/-- Allocate the cluster that was found: its last block is `got`. -/
def takeCluster (fs : Fs) (c got run len : Nat) : Except Fault (Fs × Int) :=
  let cgp := fs.cg c
  if !(List.range' 1 len).all fun i => ffsIsblock fs cgp.cgBlksfree (got + i - run) then
    .error (.panic "ffs_clusteralloc: map mismatch")
  else
    let bno := int32 (cgbase fs c + blkstofrags fs (got + 1 - run))
    if dtog fs bno ≠ c then .error (.panic "ffs_clusteralloc: allocated out of group")
    else
      (takeBlocks bno len 0 fs cgp).map fun (fs, cgp) =>
        ({ fs with cg := Function.update fs.cg c cgp }, bno)

def ffsClusteralloc (fs : Fs) (c bpref len : Nat) : Except Fault (Fs × Int) :=
  if fs.fsMaxcluster c < len then .ok (fs, 0)
  else if fs.cgread c = false then .ok (fs, 0)
  else
    let cgp := fs.cg c
    if !(List.range' len (fs.fsContigsumsize + 1 - len)).any fun i => decide (cgp.cgClustersum i > 0) then
      -- update the summary to the true maximum
      let max : Int := if len = 0 then -1 else maxcluster cgp.cgClustersum (len - 1)
      .ok ({ fs with fsMaxcluster := Function.update fs.fsMaxcluster c max }, 0)
    else
      let bpref := if dtog fs bpref ≠ c then 0 else fragstoblks fs (dtogd fs (blknum fs bpref)).toNat
      match scanRun cgp.cgClustersfree len (cgp.cgNclusterblks - bpref) bpref 0 (bpref / 8 + 1)
          (cgp.cgClustersfree (bpref / 8)).toNat (1 <<< (bpref % 8)) with
      | none => .ok (fs, 0)
      | some (got, run) => takeCluster fs c got run len

/-! ## In the file system -/

/-- The quadratic rehash, from `i` on, for at most a number of rounds. -/
def rehash (allocator : Fs → Nat → Nat → Nat → Except Fault (Fs × Int)) (size : Nat) :
    (rounds i cg : Nat) → Fs → Except Fault (Fs × Int)
  | 0, _, _, fs => .ok (fs, 0)
  | rounds + 1, i, cg, fs =>
    if i < fs.fsNcg then do
      let cg := if fs.fsNcg ≤ cg + i then cg + i - fs.fsNcg else cg + i
      let (fs, result) ← allocator fs cg 0 size
      if result ≠ 0 then .ok (fs, result) else rehash allocator size rounds (i * 2) cg fs
    else .ok (fs, 0)

/-- The brute force search, with `n` groups to go from `cg` on. -/
def brute (allocator : Fs → Nat → Nat → Nat → Except Fault (Fs × Int)) (size : Nat) :
    (n cg : Nat) → Fs → Except Fault (Fs × Int)
  | 0, _, fs => .ok (fs, 0)
  | n + 1, cg, fs => do
    let (fs, result) ← allocator fs cg 0 size
    if result ≠ 0 then .ok (fs, result)
    else brute allocator size n (if cg + 1 = fs.fsNcg then 0 else cg + 1) fs

def ffsHashalloc (fs : Fs) (cg pref size : Nat)
    (allocator : Fs → Nat → Nat → Nat → Except Fault (Fs × Int)) : Except Fault (Fs × Int) := do
  let (fs, result) ← allocator fs cg pref size
  if result ≠ 0 then .ok (fs, result)
  else do
    let (fs, result) ← rehash allocator size fs.fsNcg 1 cg fs
    if result ≠ 0 then .ok (fs, result)
    else brute allocator size (fs.fsNcg - 2) ((cg + 2) % fs.fsNcg) fs

end Obsd.FfsBlk
