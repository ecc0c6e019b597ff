import Obsd.OpenTable
import Obsd.UfsDir

/-!
# The hash of a directory (`ufs/ufs/ufs_dirhash.c`)

A large directory gets a hash table from names to offsets, with the free
space of every block beside it. The functions here are those of the file,
on the hash that an inode points to. Where the table is searched, the
two-level array behind `DH_ENTRY` is one function of the slot.

Two things happen to a hash from outside. Its memory can be taken for
another directory whenever its lock is free (`ufsdirhash_recycle`), which a
search that gives up the lock to read a block has to notice; and reading a
block can fail. Both are left to an environment that is an argument of the
functions, as are the sizes and limits `ufsdirhash_build` compares. The
list of all hashes is seen only through the score of the next one on it.

Offsets are of type `doff_t`, so that a directory has fewer than `2 ^ 31`
bytes and none of the sums in `ufsdirhash_build` overflows.
-/

namespace Obsd.Ufs

open OpenTable

/-- Why a function does not return. -/
inductive Fault where
  | panic (msg : String)
  | hang
deriving DecidableEq

/-! ## `struct dirhash` -/

/-- `DIRALIGN`. -/
def diralign : Nat := 4

/-- `DH_NFSTATS`, `DIRECTSIZ(MAXNAMLEN + 1) / DIRALIGN`. -/
def dhNfstats : Nat := 67

/-- `DH_NBLKOFF`. -/
def dhNblkoff : Nat := 256

def dhScoreinit : Int := 8

def dhScoremax : Int := 64

structure Dirhash where
  /-- The bytes of the pointer to this structure, which are hashed after a name. -/
  addr : List UInt8
  /-- `dh_hash` and `dh_blkfree` are `NULL`: the memory was taken away. -/
  dhNull : Bool
  dhHash : Nat → Slot Nat
  dhNarrays : Nat
  dhHlen : Nat
  dhHused : Int
  dhBlkfree : Nat → Nat
  dhNblk : Nat
  dhDirblks : Nat
  /-- The first block of each class, or -1. -/
  dhFirstfree : Nat → Int
  dhSeqopt : Bool
  dhSeqoff : Nat
  dhScore : Int
  dhOnlist : Bool

/-- What the functions use of a directory's inode and its file system. -/
structure Inode where
  iDirhash : Option Dirhash
  size : Nat
  iEffnlink : Nat
  ofsfmt : Bool
  /-- The size of a block of the file system, `bmask + 1`. -/
  iosize : Nat

def howmany (x y : Nat) : Nat := (x + (y - 1)) / y

/-- `BLKFREE2IDX`. -/
def blkfree2idx (n : Nat) : Nat := if n > dhNfstats then dhNfstats else n

/-! ## The parts -/

/-- `hash32_buf`. -/
def hash32Buf (buf : List UInt8) (hash : UInt32) : UInt32 :=
  buf.foldl (fun h c => ((h <<< 5) + h) + c.toUInt32) hash

/-- `HASHINIT`. -/
def hashinit : UInt32 := 5381

def ufsdirhashHash (dh : Dirhash) (name : Name) : Nat :=
  (hash32Buf dh.addr (hash32Buf name hashinit)).toNat % dh.dhHlen

/-- The first of `n` blocks from `i` on that is in class `idx`, or the one after them. -/
def scanClass (blkfree : Nat → Nat) (idx : Nat) : Nat → Nat → Nat
  | 0, i => i
  | n + 1, i => if blkfree2idx (blkfree i) = idx then i else scanClass blkfree idx n (i + 1)

def ufsdirhashAdjfree (dh : Dirhash) (offset : Nat) (diff : Int) : Except Fault Dirhash :=
  let block := offset / dirblksiz
  if block < dh.dhNblk ∧ block < dh.dhDirblks then
    let ofidx := blkfree2idx (dh.dhBlkfree block)
    -- the sum is stored in a byte
    let free := (((dh.dhBlkfree block : Int) + diff.tdiv diralign) % 256).toNat
    let blkfree := Function.update dh.dhBlkfree block free
    let nfidx := blkfree2idx free
    if ofidx ≠ nfidx then
      -- if removing, scan forward for the next block
      let firstfree :=
        if dh.dhFirstfree ofidx = block then
          let i := scanClass blkfree ofidx (dh.dhDirblks - (block + 1)) (block + 1)
          Function.update dh.dhFirstfree ofidx (if i < dh.dhDirblks then (i : Int) else -1)
        else dh.dhFirstfree
      -- make this the new `first free' if necessary
      let firstfree :=
        if firstfree nfidx > block ∨ firstfree nfidx = -1 then Function.update firstfree nfidx (block : Int)
        else firstfree
      .ok { dh with dhBlkfree := blkfree, dhFirstfree := firstfree }
    else .ok { dh with dhBlkfree := blkfree }
  else .error (.panic "dirhash bad offset")

def ufsdirhashFindslot (dh : Dirhash) (name : Name) (offset : Nat) : Except Fault Nat :=
  if dh.dhHused < dh.dhHlen then
    match probe dh.dhHlen (fun s => decide (dh.dhHash s = .full offset) || isEmpty (dh.dhHash s)) dh.dhHlen
        (ufsdirhashHash dh name) with
    | none => .error .hang
    | some slot =>
      if dh.dhHash slot = .full offset then .ok slot else .error (.panic "ufsdirhash_findslot: not found")
  else .error (.panic "dirhash find full")

/-- The loop that gives deleted slots back, from the last of a chain backwards. -/
def reclaim (hlen : Nat) : Nat → (Nat → Slot Nat) → Int → Nat → Option ((Nat → Slot Nat) × Int)
  | 0, _, _, _ => none
  | fuel + 1, hash, hused, i =>
    if hash i = .del then reclaim hlen fuel (Function.update hash i .empty) (hused - 1) (wrapDecr i hlen)
    else some (hash, hused)

def ufsdirhashDelslot (dh : Dirhash) (slot : Nat) : Except Fault Dirhash :=
  let hash := Function.update dh.dhHash slot .del
  match probe dh.dhHlen (fun s => decide (hash s ≠ .del)) dh.dhHlen slot with
  | none => .error .hang
  | some i =>
    if hash i = .empty then
      match reclaim dh.dhHlen (dh.dhHlen + 1) hash dh.dhHused (wrapDecr i dh.dhHlen) with
      | none => .error .hang
      | some (hash, hused) =>
        if hused ≥ 0 then .ok { dh with dhHash := hash, dhHused := hused }
        else .error (.panic "ufsdirhash_delslot neg hlen")
    else .ok { dh with dhHash := hash }

/-- The loop of `ufsdirhash_getprev`, with entries from the start of the block on. -/
def getprevLoop (m : DirMem) (blkoff entrypos : Nat) : Nat → Nat → Nat → Option Nat
  | 0, _, _ => none
  | fuel + 1, i, prevoff =>
    if i < entrypos then
      let reclen := dReclen m (blkoff + i)
      if reclen = 0 ∨ i + reclen > entrypos then none
      else getprevLoop m blkoff entrypos fuel (i + reclen) (blkoff + i)
    else some prevoff

def ufsdirhashGetprev (m : DirMem) (offset : Nat) : Option Nat :=
  let entrypos := offset % dirblksiz
  let blkoff := offset - entrypos
  if entrypos = 0 then none else getprevLoop m blkoff entrypos (entrypos + 1) 0 blkoff

/-- What `ufsdirhash_recycle` does to a hash it gets to. -/
def recycleOne (dh : Dirhash) : Dirhash :=
  let dh := { dh with dhScore := dh.dhScore - 1 }
  if dh.dhScore > 0 then dh else { dh with dhNull := true, dhOnlist := false }

/-- It gets to the hash `n` times, as long as there is something to take. -/
def recycleMany : Nat → Dirhash → Dirhash
  | 0, dh => dh
  | n + 1, dh => if dh.dhNull then dh else recycleMany n (recycleOne dh)

/-- The hash of an inode is got to `n` times. -/
def Inode.recycle (ip : Inode) (n : Nat) : Inode := { ip with iDirhash := ip.iDirhash.map (recycleMany n) }

/-! ## The functions of the interface -/

def ufsdirhashFree (ip : Inode) : Inode := { ip with iDirhash := none }

/-- The hash of an inode, if there is one that still has its memory; one
that was taken away is freed. -/
def locked {α : Type} (ip : Inode) (gone : Inode → α) (use : Dirhash → α) : α :=
  match ip.iDirhash with
  | none => gone ip
  | some dh => if dh.dhNull then gone (ufsdirhashFree ip) else use dh

def ufsdirhashAdd (ip : Inode) (name : Name) (offset : Nat) : Except Fault Inode :=
  locked ip .ok fun dh =>
    if offset < dh.dhDirblks * dirblksiz then
      if dh.dhHused ≥ (dh.dhHlen * 3 / 4 : Nat) then .ok (ufsdirhashFree ip)
      else
        -- a slot that is empty or deleted
        match probe dh.dhHlen (fun s => !isFull (dh.dhHash s)) dh.dhHlen (ufsdirhashHash dh name) with
        | none => .error .hang
        | some slot => do
          let dh := { dh with
            dhHused := if dh.dhHash slot = .empty then dh.dhHused + 1 else dh.dhHused
            dhHash := Function.update dh.dhHash slot (.full offset) }
          let dh ← ufsdirhashAdjfree dh offset (-(dirsiz name.length : Int))
          .ok { ip with iDirhash := some dh }
    else .error (.panic "ufsdirhash_add: bad offset")

def ufsdirhashRemove (ip : Inode) (name : Name) (offset : Nat) : Except Fault Inode :=
  locked ip .ok fun dh =>
    if offset < dh.dhDirblks * dirblksiz then do
      let slot ← ufsdirhashFindslot dh name offset
      let dh ← ufsdirhashDelslot dh slot
      let dh ← ufsdirhashAdjfree dh offset (dirsiz name.length)
      .ok { ip with iDirhash := some dh }
    else .error (.panic "ufsdirhash_remove: bad offset")

def ufsdirhashMove (ip : Inode) (name : Name) (oldoff newoff : Nat) : Except Fault Inode :=
  locked ip .ok fun dh =>
    if oldoff < dh.dhDirblks * dirblksiz ∧ newoff < dh.dhDirblks * dirblksiz then do
      let slot ← ufsdirhashFindslot dh name oldoff
      .ok { ip with iDirhash := some { dh with dhHash := Function.update dh.dhHash slot (.full newoff) } }
    else .error (.panic "ufsdirhash_move: bad offset")

def ufsdirhashNewblk (ip : Inode) (offset : Nat) : Except Fault Inode :=
  locked ip .ok fun dh =>
    if offset = dh.dhDirblks * dirblksiz then
      let block := offset / dirblksiz
      if block ≥ dh.dhNblk then .ok (ufsdirhashFree ip)
      else
        .ok { ip with iDirhash := some { dh with
          dhDirblks := block + 1
          dhBlkfree := Function.update dh.dhBlkfree block (dirblksiz / diralign)
          dhFirstfree :=
            if dh.dhFirstfree dhNfstats = -1 then Function.update dh.dhFirstfree dhNfstats (block : Int)
            else dh.dhFirstfree } }
    else .error (.panic "ufsdirhash_newblk: bad offset")

def ufsdirhashDirtrunc (ip : Inode) (offset : Nat) : Except Fault Inode :=
  locked ip .ok fun dh =>
    if offset ≤ dh.dhDirblks * dirblksiz then
      let block := howmany offset dirblksiz
      if block < dh.dhNblk / 8 ∧ dh.dhNarrays > 1 then .ok (ufsdirhashFree ip)
      else
        let firstfree :=
          if dh.dhFirstfree dhNfstats ≥ block then Function.update dh.dhFirstfree dhNfstats (-1)
          else dh.dhFirstfree
        if ∃ i < dh.dhDirblks, block ≤ i ∧ dh.dhBlkfree i ≠ dirblksiz / diralign then
          .error (.panic "ufsdirhash_dirtrunc: blocks in use")
        else if ∃ i < dhNfstats, firstfree i ≥ block then
          .error (.panic "ufsdirhash_dirtrunc: first free corrupt")
        else .ok { ip with iDirhash := some { dh with dhFirstfree := firstfree, dhDirblks := block } }
    else .error (.panic "ufsdirhash_dirtrunc: bad offset")

/-- The first of `n` classes from `i` on that has a block, or -1. -/
def firstClass (firstfree : Nat → Int) : Nat → Nat → Int
  | 0, _ => -1
  | n + 1, i => if firstfree i ≠ -1 then firstfree i else firstClass firstfree n (i + 1)

/-- Find the first entry of the block at `pos` with free space. `none` is a
record length of zero. -/
def skipFull (m : DirMem) (pos : Nat) : Nat → Nat → Option Nat
  | 0, _ => none
  | fuel + 1, i =>
    if i < dirblksiz then
      if dReclen m (pos + i) = 0 then none
      else if dIno m (pos + i) = 0 ∨ dReclen m (pos + i) > dirsiz (dNamlen false m (pos + i)) then some i
      else skipFull m pos fuel (i + dReclen m (pos + i))
    else some i

/-- Find the range of entries needed to get enough space. -/
def gather (m : DirMem) (pos : Nat) (slotneeded : Nat) : Nat → Nat → Int → Option (Nat × Int)
  | 0, _, _ => none
  | fuel + 1, i, freebytes =>
    if i < dirblksiz ∧ freebytes < slotneeded then
      if dReclen m (pos + i) = 0 then none
      else gather m pos slotneeded fuel (i + dReclen m (pos + i))
        (freebytes + dReclen m (pos + i)
          - if dIno m (pos + i) ≠ 0 then (dirsiz (dNamlen false m (pos + i)) : Int) else 0)
    else some (i, freebytes)

/-- The offset of the free space and the size of the region, or `none` for -1. `err`
is whether the block cannot be read. -/
def ufsdirhashFindfree (m : DirMem) (err : Bool) (ip : Inode) (slotneeded : Nat) :
    Except Fault (Option (Nat × Nat) × Inode) :=
  locked ip (fun ip => .ok (none, ip)) fun dh =>
    let words := howmany slotneeded diralign
    let dirblock := firstClass dh.dhFirstfree (dhNfstats + 1 - words) words
    if dirblock = -1 then .ok (none, ip)
    else if dirblock < dh.dhNblk ∧ dh.dhBlkfree dirblock.toNat ≥ words then
      let pos := dirblock.toNat * dirblksiz
      if err then .ok (none, ip)
      else
        match skipFull m pos (dirblksiz + 1) 0 with
        | none => .ok (none, ip)
        | some i =>
          if i > dirblksiz then .ok (none, ip)
          else
            let slotstart := pos + i
            match gather m pos slotneeded (dirblksiz + 1) i 0 with
            | none => .ok (none, ip)
            | some (i, freebytes) =>
              if i > dirblksiz then .ok (none, ip)
              else if freebytes < slotneeded then .error (.panic "ufsdirhash_findfree: free mismatch")
              else .ok (some (slotstart, pos + i - slotstart), ip)
    else .error (.panic "ufsdirhash_findfree: bad stats")

/-- The number of blocks up to the last that is not all free. -/
def usefulBlks (blkfree : Nat → Nat) : Nat → Nat
  | 0 => 0
  | i + 1 => if blkfree i ≠ dirblksiz / diralign then i + 1 else usefulBlks blkfree i

/-- The start of the unused space at the end, or `none` for -1. -/
def ufsdirhashEnduseful (ip : Inode) : Option Nat × Inode :=
  locked ip (fun ip => (none, ip)) fun dh =>
    if dh.dhBlkfree (dh.dhDirblks - 1) ≠ dirblksiz / diralign then (none, ip)
    else (some (usefulBlks dh.dhBlkfree dh.dhDirblks * dirblksiz), ip)

/-! ### `ufsdirhash_lookup` -/

inductive Found where
  | found (offset : Nat) (prevoff : Option Nat)
  | enoent
  | ejustreturn
deriving DecidableEq

/-- What a search meets: the score of the next hash on the list; for every
read whether it fails; and how often the hash is got to by
`ufsdirhash_recycle` each time its lock is given up. -/
structure LookEnv where
  next : Option Int
  bufatoff : Nat → Bool
  steal : Nat → Nat

/-- The search proper, from `slot` on. `blkoff` is the block in the buffer, and `k`
how many entries were looked at. -/
def lookLoop (env : LookEnv) (m : DirMem) (ip : Inode) (name : Name) (prevoffp : Bool) :
    Nat → Dirhash → Nat → Option Nat → Nat → Except Fault (Found × Inode)
  | 0, _, _, _, _ => .error .hang
  | fuel + 1, dh, slot, blkoff, k =>
    let keep (dh : Dirhash) : Inode := { ip with iDirhash := some dh }
    match dh.dhHash slot with
    | .empty => .ok (.enoent, keep dh)
    | .del => lookLoop env m ip name prevoffp fuel dh (wrapIncr slot dh.dhHlen) blkoff k
    | .full offset =>
      if offset ≥ ip.size then .error (.panic "ufsdirhash_lookup: bad offset in hash array")
      else
        let blk := offset / ip.iosize * ip.iosize
        if blkoff ≠ some blk ∧ env.bufatoff k then .ok (.ejustreturn, keep dh)
        else if dReclen m offset = 0 ∨ dReclen m offset > dirblksiz - offset % dirblksiz then
          .ok (.ejustreturn, keep dh)
        else if dNamlen false m offset = name.length ∧ dName false m offset = name then
          let seen : Dirhash := { dh with
            dhSeqopt := dh.dhSeqopt || decide (dh.dhSeqoff = offset)
            dhSeqoff := offset + dirsiz (dNamlen false m offset) }
          if prevoffp then
            if offset % dirblksiz ≠ 0 then
              match ufsdirhashGetprev m offset with
              | none => .ok (.ejustreturn, keep dh)
              | some prevoff => .ok (.found offset (some prevoff), keep seen)
            else .ok (.found offset (some offset), keep seen)
          else .ok (.found offset none, keep seen)
        else
          let dh := recycleMany (env.steal k) dh
          if dh.dhNull then .ok (.ejustreturn, ufsdirhashFree ip)
          else if dh.dhSeqopt then
            -- go back and search normally
            let dh := { dh with dhSeqopt := false }
            lookLoop env m ip name prevoffp fuel dh (ufsdirhashHash dh name) (some blk) (k + 1)
          else lookLoop env m ip name prevoffp fuel dh (wrapIncr slot dh.dhHlen) (some blk) (k + 1)

def ufsdirhashLookup (env : LookEnv) (m : DirMem) (ip : Inode) (name : Name) (prevoffp : Bool) :
    Except Fault (Found × Inode) :=
  match ip.iDirhash with
  | none => .ok (.ejustreturn, ip)
  | some dh =>
    if dh.dhNull then .ok (.ejustreturn, ufsdirhashFree ip)
    else if env.next.any (fun score => decide (dh.dhScore ≥ score)) && !dh.dhOnlist then
      .error (.panic "dirhash: not on list")
    else
      let dh := { dh with dhScore := if dh.dhScore < dhScoremax then dh.dhScore + 1 else dh.dhScore }
      let slot := ufsdirhashHash dh name
      let fuel := 2 * dh.dhHlen + 1
      if dh.dhSeqopt then
        match probe dh.dhHlen (fun s => decide (dh.dhHash s = .full dh.dhSeqoff) || isEmpty (dh.dhHash s))
            dh.dhHlen slot with
        | none => .error .hang
        | some i =>
          if dh.dhHash i = .full dh.dhSeqoff then lookLoop env m ip name prevoffp fuel dh i none 0
          else lookLoop env m ip name prevoffp fuel { dh with dhSeqopt := false } slot none 0
      else lookLoop env m ip name prevoffp fuel dh slot none 0

/-! ### `ufsdirhash_build` -/

/-- What `ufsdirhash_build` meets: the sizes and limits, whether the memory can be had
(`ufsdirhash_recycle`, `malloc`, `pool_get`), where the structure lies, and which reads fail. -/
structure BuildEnv where
  mindirhashsize : Nat
  dirhashmaxmem : Nat
  dirhashmem : Nat
  sizeofDirhash : Nat
  sizeofPointer : Nat
  recycle : Bool
  malloc : Bool
  addr : List UInt8
  bufatoff : Nat → Bool

/-- The loop over all entries; `none` is `goto fail`. -/
def buildLoop (env : BuildEnv) (m : DirMem) (ip : Inode) : Nat → Nat → Dirhash → Except Fault (Option Dirhash)
  | 0, _, _ => .error .hang
  | fuel + 1, pos, dh =>
    if pos < ip.size then
      if pos % ip.iosize = 0 ∧ env.bufatoff pos then .ok none
      else if dReclen m pos = 0 ∨ dReclen m pos > dirblksiz - pos % dirblksiz then .ok none
      else if dIno m pos ≠ 0 then
        let name := dName false m pos
        match probe dh.dhHlen (fun s => isEmpty (dh.dhHash s)) dh.dhHlen (ufsdirhashHash dh name) with
        | none => .error .hang
        | some slot => do
          let dh := { dh with
            dhHused := dh.dhHused + 1
            dhHash := Function.update dh.dhHash slot (.full pos) }
          let dh ← ufsdirhashAdjfree dh pos (-(dirsiz (dNamlen false m pos) : Int))
          buildLoop env m ip fuel (pos + dReclen m pos) dh
      else buildLoop env m ip fuel (pos + dReclen m pos) dh
    else .ok (some dh)

/-- The hash before any entry is in it. -/
def newDirhash (env : BuildEnv) (narrays nblocks dirblocks : Nat) : Dirhash where
  addr := env.addr
  dhNull := false
  dhHash := fun _ => .empty
  dhNarrays := narrays
  dhHlen := narrays * dhNblkoff
  dhHused := 0
  dhBlkfree := fun i => if i < dirblocks then dirblksiz / diralign else 0
  dhNblk := nblocks
  dhDirblks := dirblocks
  dhFirstfree := fun i => if i = dhNfstats then 0 else -1
  dhSeqopt := false
  dhSeqoff := 0
  dhScore := dhScoreinit
  dhOnlist := false

/-- Everything after the checks of a hash that is there already. -/
def buildNew (env : BuildEnv) (m : DirMem) (ip : Inode) : Except Fault (Int × Inode) :=
  -- don't hash removed directories
  if ip.iEffnlink = 0 then .ok (-1, ip)
  else if ip.size < dirblksiz then .error (.panic "ufsdirhash_build size")
  else
    -- allocate 50% more entries than this directory could ever need
    let nslots := (ip.size / dirsiz 1 * 3 + 1) / 2
    let narrays := howmany nslots dhNblkoff
    let dirblocks := howmany ip.size dirblksiz
    let nblocks := (dirblocks * 3 + 1) / 2
    let memreqd := env.sizeofDirhash + narrays * env.sizeofPointer + narrays * dhNblkoff * 4 + nblocks
    if memreqd + env.dirhashmem > env.dirhashmaxmem
        ∧ (memreqd > env.dirhashmaxmem / 2 ∨ env.recycle = false) then .ok (-1, ip)
    else if env.malloc = false then .ok (-1, ip)
    else do
      match ← buildLoop env m ip (ip.size + 1) 0 (newDirhash env narrays nblocks dirblocks) with
      | none => .ok (-1, ufsdirhashFree ip)
      | some dh => .ok (0, { ip with iDirhash := some { dh with dhOnlist := true } })

def ufsdirhashBuild (env : BuildEnv) (m : DirMem) (ip : Inode) : Except Fault (Int × Inode) :=
  match ip.iDirhash with
  | none => if ip.size < env.mindirhashsize ∨ ip.ofsfmt then .ok (-1, ip) else buildNew env m ip
  | some dh =>
    if ip.size < env.mindirhashsize ∨ env.dirhashmem > env.dirhashmaxmem then .ok (-1, ufsdirhashFree ip)
    else if dh.dhNull = false then .ok (0, ip)
    else buildNew env m (ufsdirhashFree ip)

end Obsd.Ufs
