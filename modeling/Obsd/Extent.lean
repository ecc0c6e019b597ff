import Mathlib

/-!
# The extent manager

`kern/subr_extent.c`: an extent `[ex_start, ex_end]` of `u_long`
addresses and the list of its allocated regions, kept sorted so that a
search stops early. `u_long` is `BitVec w`, so every addition wraps as
the code's does.

The region list is a list; a `struct extent_region *` into it (`last`,
`after`, `bestlast`) is a *cut*: the regions up to and including the
pointed-to one, nearest first, and the regions behind it. `NULL` is the
cut with nothing before.

An activation that sleeps leaves the machine as a `Wait`, which says
where it will go on and what it holds. `goto alloc_start` is recursion
on a fuel argument; `allocRegionLoop_ne_spins` says the fuel given is
enough. `diag` selects the `#ifdef DIAGNOSTIC` text.
-/

namespace Obsd.Extent

/-! ## Data -/

/-- A region descriptor; `erAlloc` is the `ER_ALLOC` bit of `er_flags`. -/
structure Region (w : Nat) where
  erStart : BitVec w
  erEnd : BitVec w
  erAlloc : Bool
deriving DecidableEq, Repr

/-- The `EX_*` bits a caller passes. -/
structure Flags where
  exWaitok : Bool := false
  exFast : Bool := false
  exCatch : Bool := false
  exNocoalesce : Bool := false
  exMallocok : Bool := false
  exWaitspace : Bool := false
  exBoundzero : Bool := false
  exConflictok : Bool := false
  exFilled : Bool := false
deriving DecidableEq, Repr

/-- An extent, with the freelist that `struct extent_fixed` adds and the
four `EXF_*` bits of `ex_flags`. -/
structure Map (w : Nat) where
  exStart : BitVec w
  exEnd : BitVec w
  exRegions : List (Region w)
  fexFreelist : List (Region w)
  exfFixed : Bool
  exfNocoalesce : Bool
  exfWanted : Bool
  exfFlwanted : Bool
deriving DecidableEq, Repr

inductive Errno where
  | eagain | einval | enomem | eintr
deriving DecidableEq, Repr

inductive Call (w : Nat) where
  | allocRegion (start size : BitVec w) (fl : Flags)
  | allocSubregion (substart subend size alignment skew boundary : BitVec w) (fl : Flags)
  | free (start size : BitVec w) (fl : Flags)
deriving DecidableEq, Repr

def Call.flags {w : Nat} : Call w → Flags
  | .allocRegion _ _ fl => fl
  | .allocSubregion _ _ _ _ _ _ fl => fl
  | .free _ _ fl => fl

/-- A sleeping activation: on `fex_freelist`, before it has a descriptor,
or on the extent itself, holding `myrp`. -/
inductive Wait (w : Nat) where
  | freelist (c : Call w)
  | space (c : Call w) (myrp : Region w)
deriving DecidableEq, Repr

def Wait.call {w : Nat} : Wait w → Call w
  | .freelist c => c
  | .space c _ => c

/-- What an activation does next: return an error (`none` is 0) and the
`*result`, sleep, panic, or go round `alloc_start` for ever. -/
inductive Outcome (w : Nat) where
  | done (err : Option Errno) (result : Option (BitVec w))
  | asleep (p : Wait w)
  | panic
  | spins
deriving DecidableEq, Repr

variable {w : Nat}

/-! ## Descriptors -/

/-- What `extent_alloc_region_descriptor` comes back with. -/
inductive Descriptor (w : Nat) where
  | got (rp : Region w) (ex : Map w)
  | null
  | sleeps (ex : Map w)
deriving DecidableEq, Repr

/-- `pool` says whether a `PR_NOWAIT` `pool_get` finds memory; a
`PR_WAITOK` one always does. -/
def poolGet (ex : Map w) (fl : Flags) (pool : Bool) : Descriptor w :=
  if fl.exWaitok || pool then .got ⟨0#w, 0#w, true⟩ ex else .null

def extentAllocRegionDescriptor (ex : Map w) (fl : Flags) (pool : Bool) : Descriptor w :=
  if ex.exfFixed then
    match ex.fexFreelist with
    | rp :: rest => .got rp { ex with fexFreelist := rest }
    | [] =>
      if fl.exMallocok then poolGet ex fl pool
      else if !fl.exWaitok then .null
      else .sleeps { ex with exfFlwanted := true }
  else poolGet ex fl pool

def extentFreeRegionDescriptor (ex : Map w) (rp : Region w) : Map w :=
  if ex.exfFixed then
    if rp.erAlloc then
      -- a waiter on the freelist is given a pool descriptor rather than
      -- the pool getting it back
      if ex.exfFlwanted then
        { ex with fexFreelist := rp :: ex.fexFreelist, exfFlwanted := false }
      else ex
    else { ex with fexFreelist := rp :: ex.fexFreelist, exfFlwanted := false }
  else ex

/-! ## Creation -/

/-- The descriptors laid out behind the `struct extent_fixed` in
`storagesize` bytes; the two sizes are the machine's `ALIGN(sizeof)`. -/
def carve (alignFixed alignRegion storagesize : Nat) : List (Region w) :=
  List.replicate ((storagesize - alignFixed) / alignRegion) ⟨0#w, 0#w, false⟩

def extentCreate (alignFixed alignRegion : Nat) (start end_ : BitVec w)
    (storage : Option Nat) (fl : Flags) (pool : Bool) : Option (Map w) :=
  let ex : Map w :=
    { exStart := start
      exEnd := end_
      exRegions := []
      fexFreelist := (storage.map (carve alignFixed alignRegion)).getD []
      exfFixed := storage.isSome
      exfNocoalesce := fl.exNocoalesce
      exfWanted := false
      exfFlwanted := false }
  if fl.exFilled then
    match extentAllocRegionDescriptor ex fl pool with
    | .got rp ex => some { ex with exRegions := [{ rp with erStart := start, erEnd := end_ }] }
    -- nobody else knows the extent yet, so a sleep here has no waker
    | .null | .sleeps _ => none
  else some ex

/-! ## Insertion -/

/-- `before` and `after` cut the region list at the `after` argument of the
source: its head is that region, and the region behind it is the head of
`after`. -/
def extentInsertAndOptimize (ex : Map w) (start size : BitVec w)
    (before after : List (Region w)) (rp : Region w) : Map w :=
  let new : Region w := { rp with erStart := start, erEnd := start + (size - 1#w) }
  match before, after with
  | [], [] => { ex with exRegions := [new] }
  | [], next :: rest =>
    if !ex.exfNocoalesce && start + size == next.erStart then
      extentFreeRegionDescriptor { ex with exRegions := { next with erStart := start } :: rest } rp
    else { ex with exRegions := new :: next :: rest }
  | last :: bs, after =>
    let cantCoalesce : Map w := { ex with exRegions := (new :: last :: bs).reverse ++ after }
    if ex.exfNocoalesce then cantCoalesce
    else
      let appended := last.erEnd + 1#w == start
      let last' := if appended then { last with erEnd := start + (size - 1#w) } else last
      match after with
      | next :: rest =>
        if start + size == next.erStart then
          if appended then
            let ex := { ex with exRegions := ({ last' with erEnd := next.erEnd } :: bs).reverse ++ rest }
            extentFreeRegionDescriptor (extentFreeRegionDescriptor ex next) rp
          else
            extentFreeRegionDescriptor
              { ex with exRegions := (last :: bs).reverse ++ { next with erStart := start } :: rest } rp
        else if appended then
          extentFreeRegionDescriptor { ex with exRegions := (last' :: bs).reverse ++ next :: rest } rp
        else cantCoalesce
      | [] =>
        if appended then
          extentFreeRegionDescriptor { ex with exRegions := (last' :: bs).reverse } rp
        else cantCoalesce

/-! ## Allocating a given region -/

/-- The `LIST_FOREACH` of `extent_alloc_region`: no conflict, with the cut at
`last`, or the first region that conflicts. -/
inductive Scan (w : Nat) where
  | clear (before after : List (Region w))
  | conflict (before : List (Region w)) (rp : Region w) (after : List (Region w))
deriving DecidableEq, Repr

def regionScan (start end_ : BitVec w) : List (Region w) → List (Region w) → Scan w
  | before, [] => .clear before []
  | before, rp :: after =>
    if rp.erStart > end_ then .clear before (rp :: after)
    else if rp.erEnd ≥ start then .conflict before rp after
    else regionScan start end_ (rp :: before) after

def allocRegionLoop (fl : Flags) (myrp : Region w) :
    Nat → Map w → (start size end_ : BitVec w) → Outcome w × Map w
  | 0, ex, _, _, _ => (.spins, ex)
  | fuel + 1, ex, start, size, end_ =>
    match regionScan start end_ [] ex.exRegions with
    | .clear before after =>
      (.done none none, extentInsertAndOptimize ex start size before after myrp)
    | .conflict before rp after =>
      if fl.exWaitspace then
        (.asleep (.space (.allocRegion start size fl) myrp), { ex with exfWanted := true })
      else if fl.exConflictok then
        if rp.erStart ≤ start then
          if rp.erEnd < ex.exEnd then
            let start := rp.erEnd + 1#w
            allocRegionLoop fl myrp fuel ex start (end_ - start + 1#w) end_
          else (.done none none, ex)
        else if rp.erEnd < end_ then
          allocRegionLoop fl myrp fuel
            (extentFreeRegionDescriptor { ex with exRegions := before.reverse ++ after } rp)
            start size end_
        else if rp.erStart < end_ then
          if rp.erStart > ex.exStart then
            let end_ := rp.erStart - 1#w
            allocRegionLoop fl myrp fuel ex start (end_ - start + 1#w) end_
          else (.done none none, ex)
        else (.done none none, ex)
      else (.done (some .eagain) none, extentFreeRegionDescriptor ex myrp)

/-! ## Allocating in a subregion -/

def extentAlign (start align skew : BitVec w) : BitVec w :=
  (((start - skew) + (align - 1#w)) &&& (-align)) + skew

/-- `LE_OV`: `x + y ≤ z`, failing when the sum wraps. -/
def leOv (x y z : BitVec w) : Bool := decide (x + y ≥ x) && decide (x + y ≤ z)

/-- The last address before the next boundary line after `newstart`. -/
def dontcross (ex : Map w) (fl : Flags) (boundary newstart : BitVec w) : BitVec w :=
  extentAlign (newstart + 1#w) boundary (if fl.exBoundzero then 0#w else ex.exStart) - 1#w

inductive Bound (w : Nat) where
  | fits (newstart : BitVec w)
  | nofit
  | fail
deriving DecidableEq, Repr

/-- The boundary check, which the source has twice: `fits` is the `LE_OV` test
the copy at hand repeats after it moved the candidate up to a line. -/
def boundaryCheck (ex : Map w) (fl : Flags) (size boundary : BitVec w)
    (fits : BitVec w → Bool) (newstart : BitVec w) : Bound w :=
  let runsPast (newstart dc : BitVec w) : Bound w :=
    if newstart + size - 1#w > ex.exEnd || dc < newstart then .fail else .fits newstart
  if boundary = 0#w then .fits newstart
  else
    let newend := newstart + (size - 1#w)
    let dc := dontcross ex fl boundary newstart
    if dc < ex.exStart then runsPast newstart ex.exEnd
    else if newend > dc then
      if fits (dc + 1#w) then runsPast (dc + 1#w) (dc + boundary) else .nofit
    else runsPast newstart dc

/-- `bestovh`, `beststart` and the cut at `bestlast`. -/
structure Best (w : Nat) where
  bestovh : BitVec w := 0#w
  beststart : BitVec w := 0#w
  before : List (Region w) := []
  after : List (Region w) := []
deriving DecidableEq, Repr

def Best.improve (b : Best w) (ovh newstart : BitVec w) (before after : List (Region w)) : Best w :=
  if b.bestovh = 0#w || ovh < b.bestovh then ⟨ovh, newstart, before, after⟩ else b

inductive Search (w : Nat) where
  | found (newstart : BitVec w) (before after : List (Region w))
  | fail (best : Best w)
deriving DecidableEq, Repr

/-- The check against the end of the subregion. -/
def finalCheck (ex : Map w) (fl : Flags) (subend size boundary : BitVec w)
    (newstart : BitVec w) (best : Best w) (before after : List (Region w)) (exend : BitVec w) :
    Search w :=
  if leOv newstart (size - 1#w) subend then
    match boundaryCheck ex fl size boundary (fun ns => leOv ns (size - 1#w) subend) newstart with
    | .nofit | .fail => .fail best
    | .fits newstart =>
      let ovh := exend - newstart - (size - 1#w)
      if fl.exFast || ovh = 0#w then .found newstart before after
      else .fail (best.improve ovh newstart before after)
  else .fail best

/-- The loop over the regions from `rp` on; `before` is the cut at `last`. -/
def gapLoop (ex : Map w) (fl : Flags) (subend size alignment skew boundary : BitVec w) :
    (newstart : BitVec w) → Best w → (before after : List (Region w)) → Search w
  | newstart, best, before, [] =>
    finalCheck ex fl subend size boundary newstart best before [] ex.exEnd
  | newstart, best, before, rp :: rest =>
    if rp.erStart > subend then
      finalCheck ex fl subend size boundary newstart best before (rp :: rest) rp.erStart
    else
      let skip (best : Best w) : Search w :=
        let newstart := extentAlign (rp.erEnd + 1#w) alignment skew
        if newstart < rp.erEnd then .fail best
        else gapLoop ex fl subend size alignment skew boundary newstart best (rp :: before) rest
      if leOv newstart size rp.erStart then
        match boundaryCheck ex fl size boundary (fun ns => leOv ns size rp.erStart) newstart with
        | .nofit => skip best
        | .fail => .fail best
        | .fits newstart =>
          let ovh := rp.erStart - newstart - size
          if fl.exFast || ovh = 0#w then .found newstart before (rp :: rest)
          else skip (best.improve ovh newstart before (rp :: rest))
      else skip best

/-- The cut before the first region that starts at or after `newstart`. -/
def cutAt (newstart : BitVec w) :
    List (Region w) → List (Region w) → List (Region w) × List (Region w)
  | before, [] => (before, [])
  | before, rp :: after =>
    if rp.erStart ≥ newstart then (before, rp :: after) else cutAt newstart (rp :: before) after

/-- Move the candidate past the last region before it, when that one reaches
into it. -/
def relocate (alignment skew newstart : BitVec w) (before : List (Region w)) : BitVec w :=
  match before with
  | last :: _ =>
    if last.erEnd ≥ newstart then extentAlign (last.erEnd + 1#w) alignment skew else newstart
  | [] => newstart

def allocSubregionStart (diag : Bool) (ex : Map w)
    (substart subend size alignment skew boundary : BitVec w) (fl : Flags) (myrp : Region w) :
    Outcome w × Map w :=
  let newstart := extentAlign substart alignment skew
  if newstart < ex.exStart then
    if diag then (.panic, ex)
    else (.done (some .einval) none, extentFreeRegionDescriptor ex myrp)
  else
    let (before, after) := cutAt newstart [] ex.exRegions
    let found (newstart : BitVec w) (before after : List (Region w)) : Outcome w × Map w :=
      (.done none (some newstart), extentInsertAndOptimize ex newstart size before after myrp)
    match gapLoop ex fl subend size alignment skew boundary
        (relocate alignment skew newstart before) {} before after with
    | .found newstart before after => found newstart before after
    | .fail best =>
      if !fl.exFast && best.bestovh ≠ 0#w then found best.beststart best.before best.after
      else if fl.exWaitspace then
        (.asleep (.space (.allocSubregion substart subend size alignment skew boundary fl) myrp),
          { ex with exfWanted := true })
      else (.done (some .eagain) none, extentFreeRegionDescriptor ex myrp)

/-! ## Freeing -/

/-- What `extent_free` finds: the whole region, one end of it, or its middle.
The list is the one it leaves, and a split has used `nrp`. -/
inductive Hit (w : Nat) where
  | whole (regions : List (Region w)) (rp : Region w)
  | trim (regions : List (Region w))
  | split (regions : List (Region w))
  | notFound
deriving DecidableEq, Repr

def freeScan (nocoalesce : Bool) (start end_ : BitVec w) (nrp : Region w) :
    List (Region w) → List (Region w) → Hit w
  | _, [] => .notFound
  | before, rp :: after =>
    if rp.erEnd < start then freeScan nocoalesce start end_ nrp (rp :: before) after
    else if rp.erStart > end_ then .notFound
    else if start = rp.erStart ∧ end_ = rp.erEnd then .whole (before.reverse ++ after) rp
    else if nocoalesce then freeScan nocoalesce start end_ nrp (rp :: before) after
    else if start = rp.erStart ∧ end_ < rp.erEnd then
      .trim (before.reverse ++ { rp with erStart := end_ + 1#w } :: after)
    else if start > rp.erStart ∧ end_ = rp.erEnd then
      .trim (before.reverse ++ { rp with erEnd := start - 1#w } :: after)
    else if start > rp.erStart ∧ end_ < rp.erEnd then
      .split (before.reverse ++ { rp with erEnd := start - 1#w } ::
        { nrp with erStart := end_ + 1#w, erEnd := rp.erEnd } :: after)
    else freeScan nocoalesce start end_ nrp (rp :: before) after

/-- `extent_free` from its search on; `nrp` is absent on a non-coalescing
extent, whose search never needs it. -/
def freeStart (ex : Map w) (start size : BitVec w) (nrp : Option (Region w)) :
    Outcome w × Map w :=
  let end_ := start + (size - 1#w)
  let giveBack (ex : Map w) (nrp : Option (Region w)) : Map w :=
    match nrp with
    | some nrp => extentFreeRegionDescriptor ex nrp
    | none => ex
  let wake (ex : Map w) : Map w := { ex with exfWanted := false }
  match freeScan ex.exfNocoalesce start end_ (nrp.getD ⟨0#w, 0#w, false⟩) [] ex.exRegions with
  | .whole regions rp =>
    (.done none none,
      wake (giveBack (extentFreeRegionDescriptor { ex with exRegions := regions } rp) nrp))
  | .trim regions => (.done none none, wake (giveBack { ex with exRegions := regions } nrp))
  | .split regions => (.done none none, wake { ex with exRegions := regions })
  | .notFound => (.panic, ex)

/-! ## Activations -/

/-- The call from `alloc_start` (for `extent_free`, from its search) on, with
the descriptor in hand. -/
def withDescriptor (diag : Bool) (ex : Map w) (myrp : Region w) : Call w → Outcome w × Map w
  | .allocRegion start size fl =>
    allocRegionLoop fl myrp (ex.exRegions.length + 1) ex start size (start + (size - 1#w))
  | .allocSubregion substart subend size alignment skew boundary fl =>
    allocSubregionStart diag ex substart subend size alignment skew boundary fl myrp
  | .free start size _ => freeStart ex start size (some myrp)

/-- From the call of `extent_alloc_region_descriptor` on. -/
def getDescriptor (diag : Bool) (ex : Map w) (pool : Bool) (c : Call w) : Outcome w × Map w :=
  match extentAllocRegionDescriptor ex c.flags pool with
  | .got myrp ex => withDescriptor diag ex myrp c
  | .null => (.done (some .enomem) none, ex)
  | .sleeps ex => (.asleep (.freelist c), ex)

def extentAllocRegion (diag : Bool) (ex : Map w) (start size : BitVec w) (fl : Flags)
    (pool : Bool) : Outcome w × Map w :=
  let end_ := start + (size - 1#w)
  if diag && (size < 1#w || end_ < start || (fl.exConflictok && fl.exWaitspace)) then (.panic, ex)
  else if start < ex.exStart || end_ > ex.exEnd then
    if diag then (.panic, ex) else (.done (some .einval) none, ex)
  else getDescriptor diag ex pool (.allocRegion start size fl)

def extentAllocSubregion (diag : Bool) (ex : Map w)
    (substart subend size alignment skew boundary : BitVec w) (fl : Flags) (pool : Bool) :
    Outcome w × Map w :=
  if diag && (substart < ex.exStart || substart > ex.exEnd || subend > ex.exEnd
      || subend < ex.exStart || size < 1#w || size - 1#w > subend - substart || alignment = 0#w
      || (boundary ≠ 0#w && boundary < size)) then (.panic, ex)
  else getDescriptor diag ex pool
    (.allocSubregion substart subend size alignment skew boundary fl)

def extentFree (diag : Bool) (ex : Map w) (start size : BitVec w) (fl : Flags) (pool : Bool) :
    Outcome w × Map w :=
  let end_ := start + (size - 1#w)
  if diag && (start < ex.exStart || end_ > ex.exEnd || end_ < start) then (.panic, ex)
  else if ex.exfNocoalesce then freeStart ex start size none
  else getDescriptor diag ex pool (.free start size fl)

def Call.run (diag : Bool) (ex : Map w) (pool : Bool) : Call w → Outcome w × Map w
  | .allocRegion start size fl => extentAllocRegion diag ex start size fl pool
  | .allocSubregion substart subend size alignment skew boundary fl =>
    extentAllocSubregion diag ex substart subend size alignment skew boundary fl pool
  | .free start size fl => extentFree diag ex start size fl pool

/-- `tsleep` returns, with `err` when a signal interrupted it. An interrupted
wait for space returns without giving `myrp` back. -/
def Wait.resume (diag : Bool) (ex : Map w) (err pool : Bool) : Wait w → Outcome w × Map w
  | .freelist c =>
    if err then (.done (some .enomem) none, ex) else getDescriptor diag ex pool c
  | .space c myrp =>
    if err then (.done (some .eintr) none, ex) else withDescriptor diag ex myrp c

end Obsd.Extent
