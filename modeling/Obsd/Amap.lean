import Mathlib

/-!
# Anonymous maps

The amaps of `uvm/uvm_amap.c`: three arrays that say which slots have an
anon, and an array of the references to each slot, in runs. An array is a
function, of which only what is below the size of the allocation is ever
meant; an anon is a number. Offsets and lengths are in slots, as they are
after `AMAP_B2SLOT`. What the allocator answers is an argument.

Left out are the pages behind the anons, with their protection, and the
list of all amaps.
-/

namespace Obsd.Amap

/-! ## Data -/

/-- The per-page reference counts: `NULL`, `PPREF_NONE` or an array. -/
inductive Ppref where
  | null
  | none
  | array (a : Nat → Int)

/-- A `struct vm_amap`. -/
structure VmAmap where
  amRef : Int
  amShared : Bool
  amMaxslot : Nat
  amNslot : Nat
  amNused : Nat
  amSlots : Nat → Nat
  amBckptr : Nat → Nat
  amAnon : Nat → Option Nat
  amPpref : Ppref

/-- An amap, and the references to anons. -/
structure State where
  am : VmAmap
  anRef : Nat → Int

/-! ## Slots -/

/-- Take the anon out of a slot. -/
def dropSlot (am : VmAmap) (slot : Nat) : VmAmap :=
  let am := { am with amAnon := Function.update am.amAnon slot none }
  let ptr := am.amBckptr slot
  let am :=
    if ptr ≠ am.amNused - 1 then
      let am := { am with amSlots := Function.update am.amSlots ptr (am.amSlots (am.amNused - 1)) }
      { am with amBckptr := Function.update am.amBckptr (am.amSlots ptr) ptr }
    else am
  { am with amNused := am.amNused - 1 }

/-- `none` is a panic. -/
def amapAdd (am : VmAmap) (slot anon : Nat) (replace : Bool) : Option VmAmap :=
  if am.amNslot ≤ slot then none
  else if replace then
    match am.amAnon slot with
    | none => none
    | some _ => some { am with amAnon := Function.update am.amAnon slot (some anon) }
  else
    match am.amAnon slot with
    | some _ => none
    | none =>
      some { am with
        amBckptr := Function.update am.amBckptr slot am.amNused
        amSlots := Function.update am.amSlots am.amNused slot
        amNused := am.amNused + 1
        amAnon := Function.update am.amAnon slot (some anon) }

/-- `none` is a panic. -/
def amapUnadd (am : VmAmap) (slot : Nat) : Option VmAmap :=
  if am.amNslot ≤ slot then none
  else match am.amAnon slot with
    | none => none
    | some _ => some (dropSlot am slot)

/-- Take an anon out of a slot and drop the reference to it. -/
def wipeSlot (s : State) (slot anon : Nat) : State :=
  { am := dropSlot s.am slot, anRef := Function.update s.anRef anon (s.anRef anon - 1) }

/-- The loop of `amap_wiperange` by `am_anon`, for a number of slots. -/
def wipeByAnon : Nat → Nat → State → State
  | 0, _, s => s
  | n + 1, slot, s =>
    match s.am.amAnon slot with
    | none => wipeByAnon n (slot + 1) s
    | some anon => wipeByAnon n (slot + 1) (wipeSlot s slot anon)

/-- The loop of `amap_wiperange` by `am_slots`, with `stop - lcv` entries to go. `none` is a
slot without an anon. -/
def wipeBySlots (slotoff slotend : Nat) : Nat → Nat → State → Option State
  | 0, _, s => some s
  | n + 1, lcv, s =>
    let curslot := s.am.amSlots lcv
    if curslot < slotoff ∨ slotend ≤ curslot then wipeBySlots slotoff slotend n (lcv + 1) s
    else match s.am.amAnon curslot with
      | none => none
      | some anon => wipeBySlots slotoff slotend n lcv (wipeSlot s curslot anon)

def amapWiperange (s : State) (slotoff slots : Nat) : Option State :=
  if slots < s.am.amNused then some (wipeByAnon slots slotoff s)
  else wipeBySlots slotoff (slotoff + slots) s.am.amNused 0 s

/-! ## Reference counts -/

def ppGetreflen (a : Nat → Int) (offset : Nat) : Int × Int :=
  if 0 < a offset then (a offset - 1, 1) else (-a offset - 1, a (offset + 1))

def ppSetreflen (a : Nat → Int) (offset : Nat) (ref len : Int) : Nat → Int :=
  if len = 1 then Function.update a offset (ref + 1)
  else Function.update (Function.update a offset (-(ref + 1))) (offset + 1) len

/-- The first loop of `amap_pp_adjref`: where the slot is in the array, and the chunk before
it. A chunk that goes past the slot is cut. `none` is that a number of rounds is not enough. -/
def ppAdvance (curslot : Nat) : Nat → (Nat → Int) → Nat → Nat → Option ((Nat → Int) × Nat × Nat)
  | rounds, a, lcv, prevlcv =>
    if lcv < curslot then
      match rounds with
      | 0 => none
      | rounds + 1 =>
        let (ref, len) := ppGetreflen a lcv
        if (curslot : Int) < lcv + len then
          let a := ppSetreflen a lcv ref (curslot - lcv)
          let a := ppSetreflen a curslot ref (len - (curslot - lcv))
          ppAdvance curslot rounds a curslot lcv
        else ppAdvance curslot rounds a (lcv + len.toNat) lcv
    else some (a, lcv, prevlcv)

/-- Wipe out what nothing refers to. -/
def wipeUnref (s : State) (ref : Int) (lcv : Nat) (len : Int) : Option State :=
  if ref = 0 then amapWiperange s lcv len.toNat else some s

/-- The second loop of `amap_pp_adjref`. -/
def ppAdjust (stopslot : Nat) (adjval : Int) (prevlcv : Nat) (prevref prevlen : Int) :
    Nat → (Nat → Int) → Nat → State → Option ((Nat → Int) × State)
  | rounds, a, lcv, s =>
    if lcv < stopslot then
      match rounds with
      | 0 => none
      | rounds + 1 =>
        let (ref, len) := ppGetreflen a lcv
        let past := decide ((stopslot : Int) < lcv + len)
        let a :=
          if past then
            ppSetreflen (ppSetreflen a lcv ref (stopslot - lcv)) stopslot ref (len - (stopslot - lcv))
          else a
        let len := if past then (stopslot : Int) - lcv else len
        let ref := ref + adjval
        if ref < 0 then none
        else
          let a :=
            if (lcv : Int) = prevlcv + prevlen ∧ ref = prevref then ppSetreflen a prevlcv ref (prevlen + len)
            else ppSetreflen a lcv ref len
          (wipeUnref s ref lcv len).bind fun s =>
            ppAdjust stopslot adjval prevlcv prevref prevlen rounds a (lcv + len.toNat) s
    else some (a, s)

/-- `none` is a panic, or that the loops do not end. -/
def amapPpAdjref (s : State) (curslot slotlen : Nat) (adjval : Int) : Option State :=
  match s.am.amPpref with
  | .null => none
  | .none => none
  | .array a =>
    (ppAdvance curslot curslot a 0 0).bind fun (a, lcv, prevlcv) =>
      let (prevref, prevlen) := if lcv ≠ 0 then ppGetreflen a prevlcv else (-1, 0)
      if lcv ≠ curslot then none
      else
        (ppAdjust (curslot + slotlen) adjval prevlcv prevref prevlen slotlen a lcv s).map fun (a, s) =>
          { s with am := { s.am with amPpref := .array a } }

/-- The array comes zeroed; `mallocOk` is whether it comes. -/
def amapPpEstablish (am : VmAmap) (mallocOk : Bool) : VmAmap :=
  if mallocOk then
    { am with amPpref := .array (ppSetreflen (fun _ => 0) 0 am.amRef am.amNslot) }
  else { am with amPpref := .none }

def Ppref.isNull : Ppref → Bool
  | .null => true
  | _ => false

/-- Whether there is an array. -/
def Ppref.inUse : Ppref → Bool
  | .array _ => true
  | _ => false

/-! ## References -/

/-- `flags` says whether the reference is shared and whether it is to the whole amap. -/
def amapRef (s : State) (offset len : Nat) (shared refall mallocOk : Bool) : Option State :=
  let am := { s.am with amRef := s.am.amRef + 1, amShared := s.am.amShared || shared }
  let am := if am.amPpref.isNull && !refall && decide (len ≠ am.amNslot) then amapPpEstablish am mallocOk else am
  let s := { s with am := am }
  if am.amPpref.inUse then
    if refall then amapPpAdjref s 0 am.amNslot 1 else amapPpAdjref s offset len 1
  else some s

/-- `clear shared flag` -/
def unshare (am : VmAmap) : VmAmap := if am.amRef = 1 then { am with amShared := false } else am

inductive Unref where
  | panic
  /-- That was the last reference; the anons' go too. -/
  | freed (anRef : Nat → Int)
  | kept (s : State)

/-- The anons that `amap_wipeout` drops. -/
def wipeoutAnons (am : VmAmap) : Nat → Nat → (Nat → Int) → Option (Nat → Int)
  | 0, _, anRef => some anRef
  | n + 1, lcv, anRef =>
    match am.amAnon (am.amSlots lcv) with
    | none => none
    | some anon =>
      if anRef anon = 0 then none
      else wipeoutAnons am n (lcv + 1) (Function.update anRef anon (anRef anon - 1))

def amapUnref (s : State) (offset len : Nat) (all mallocOk : Bool) : Unref :=
  let am := { s.am with amRef := s.am.amRef - 1 }
  if s.am.amRef = 1 then
    match wipeoutAnons am am.amNused 0 s.anRef with
    | none => .panic
    | some anRef => .freed anRef
  else
    let am := unshare am
    let am := if am.amPpref.isNull && !all && decide (len ≠ am.amNslot) then amapPpEstablish am mallocOk else am
    let s := { s with am := am }
    if am.amPpref.inUse then
      match if all then amapPpAdjref s 0 am.amNslot (-1) else amapPpAdjref s offset len (-1) with
      | none => .panic
      | some s => .kept s
    else .kept s

/-- A reference that begins at `pageoff` is split after some slots. `none` is a panic. -/
def amapSplitref (am : VmAmap) (pageoff leftslots : Nat) (mallocOk : Bool) : Option VmAmap :=
  if leftslots = 0 then none
  else if (am.amNslot : Int) - pageoff - leftslots ≤ 0 then none
  else
    let am := if am.amPpref.isNull then amapPpEstablish am mallocOk else am
    some { am with amRef := am.amRef + 1 }

/-! ## Size -/

def uvmAmapLarge : Nat := 256
def pageSize : Nat := 4096
/-- `MALLOC_SLOT_UNIT` -/
def mallocSlotUnit : Nat := 16

/-- The smallest power of two from `2 ^ b` up that is at least `sz`. -/
def bucket (sz : Nat) : Nat → Nat → Nat
  | 0, b => 2 ^ b
  | n + 1, b => if sz ≤ 2 ^ b then 2 ^ b else bucket sz n (b + 1)

def mallocRoundup (sz : Nat) : Nat :=
  if 2 * pageSize < sz then (sz + pageSize - 1) / pageSize * pageSize else bucket sz 15 4

/-- How many slots an allocation for some has room for. -/
def roundSlots (slots : Nat) : Nat := mallocRoundup (slots * mallocSlotUnit) / mallocSlotUnit

inductive Errno where
  | e2big
  | enomem
deriving DecidableEq, Repr

/-- The references to the slots that are added, when the amap grows to `slotneed` slots. -/
def extendPpref (s : State) (slotend slotneed : Nat) : Option State :=
  (if slotend < s.am.amNslot then amapPpAdjref s slotend (s.am.amNslot - slotend) 1 else some s).map fun s =>
    match s.am.amPpref with
    | .array a =>
      { s with am := { s.am with
        amPpref := .array (ppSetreflen a s.am.amNslot 1 ((slotneed : Int) - s.am.amNslot)) } }
    | _ => s

/-- The arrays are copied to larger ones; what is in the new part is zero, but for the slots
in use, where it is what was in memory. -/
def growArrays (am : VmAmap) (slotalloc : Nat) (junk : Nat → Nat) : VmAmap :=
  { am with
    amSlots := fun i => if i < am.amNused then am.amSlots i else junk i
    amAnon := fun i => if i < am.amNslot then am.amAnon i else none
    amBckptr := fun i => if i < am.amNslot then am.amBckptr i else 0
    amPpref :=
      match am.amPpref with
      | .array a => .array fun i => if i < am.amNslot then a i else 0
      | p => p
    amMaxslot := slotalloc }

/-- `slotoff` and `slotmapped` are the entry's; `pprefOk` and `slotsOk` say what the allocator
answers. `none` is a panic. -/
def amapExtend (s : State) (slotoff slotmapped slotadd : Nat) (pprefOk slotsOk : Bool) (junk : Nat → Nat) :
    Option (State × Option Errno) :=
  let slotneed := slotoff + slotmapped + slotadd
  let am := s.am
  if slotneed ≤ am.amNslot then
    if am.amPpref.inUse then (amapPpAdjref s (slotoff + slotmapped) slotadd 1).map fun s => (s, none)
    else some (s, none)
  else if slotneed ≤ am.amMaxslot then
    (if am.amPpref.inUse then extendPpref s (slotoff + slotmapped) slotneed else some s).map fun s =>
      ({ s with am := { s.am with amNslot := slotneed } }, none)
  else if uvmAmapLarge ≤ slotneed then some (s, some .e2big)
  else
    let am := if am.amPpref.inUse && !pprefOk then { am with amPpref := .none } else am
    if !slotsOk then some ({ s with am := am }, some .enomem)
    else
      let am := growArrays am (roundSlots slotneed) junk
      let s := { s with am := am }
      (if am.amPpref.inUse then extendPpref s (slotoff + slotmapped) slotneed else some s).map fun s =>
        ({ s with am := { s.am with amNslot := slotneed } }, none)

/-! ## New amaps -/

/-- `amap_alloc1`: what the arrays hold is what was in memory. -/
def amapAlloc1 (slots padslots : Nat) (junkSlots junkBck : Nat → Nat) (junkAnon : Nat → Option Nat) : VmAmap where
  amRef := 1
  amShared := false
  amMaxslot := roundSlots (slots + padslots)
  amNslot := slots
  amNused := 0
  amSlots := junkSlots
  amBckptr := junkBck
  amAnon := junkAnon
  amPpref := .null

def amapAlloc (slots padslots : Nat) (junkSlots junkBck : Nat → Nat) : VmAmap :=
  amapAlloc1 slots padslots junkSlots junkBck fun _ => none

/-- The loop of `amap_copy`, from slot `lcv` on. -/
def copySlots (src : VmAmap) (pageoff : Nat) : Nat → Nat → State → State
  | 0, _, s => s
  | n + 1, lcv, s =>
    let anon := src.amAnon (pageoff + lcv)
    let s := { s with am := { s.am with amAnon := Function.update s.am.amAnon lcv anon } }
    match anon with
    | none => copySlots src pageoff n (lcv + 1) s
    | some an =>
      copySlots src pageoff n (lcv + 1)
        { anRef := Function.update s.anRef an (s.anRef an + 1)
          am := { s.am with
            amBckptr := Function.update s.am.amBckptr lcv s.am.amNused
            amSlots := Function.update s.am.amSlots s.am.amNused lcv
            amNused := s.am.amNused + 1 } }

/-- The source and the copy that `amap_copy` makes for an entry of some slots, when another
entry refers to the amap as well. `none` is a panic. -/
def amapCopy (s : State) (pageoff slots : Nat) (junkSlots junkBck : Nat → Nat)
    (junkAnon : Nat → Option Nat) : Option (State × VmAmap) :=
  let new := copySlots s.am pageoff slots 0
    { am := amapAlloc1 slots 0 junkSlots junkBck junkAnon, anRef := s.anRef }
  let new' := { new.am with
    amAnon := fun i => if slots ≤ i ∧ i < new.am.amMaxslot then none else new.am.amAnon i }
  let src := unshare { s.am with amRef := s.am.amRef - 1 }
  let s := { am := src, anRef := new.anRef : State }
  (if src.amPpref.inUse then amapPpAdjref s pageoff slots (-1) else some s).map fun s => (s, new')

end Obsd.Amap
