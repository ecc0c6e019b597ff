import Mathlib
import Obsd.Runs

/-!
# Reassembly of IPv4 fragments

`pf_reassemble` and what it calls in `net/pf_norm.c`. The RB tree of
fragment queues and the list by last use are one list, the most recently
used queue first. An mbuf chain is its bytes, with the IP header they
begin with; `m_adj` cuts from the front, header or not. What the pools
answer and the time are part of a request. The queues of the two address
families never meet; what is common to both has the type of the keys as a
parameter.
-/

namespace Obsd.PfFrag

/-! ## Data -/

/-- A `struct pf_frent`. -/
structure PfFrent where
  feM : List UInt8
  feHdrlen : BitVec 16
  /-- The offset of the last extension header, or 0. -/
  feExtoff : BitVec 16
  feLen : BitVec 16
  feOff : BitVec 16
  feMff : Bool
deriving DecidableEq, Repr

/-- Where the data of the fragment ends, as an `int`. -/
def PfFrent.feEnd (e : PfFrent) : Nat := e.feOff.toNat + e.feLen.toNat

/-- A `struct pf_fragment_cmp` of family `AF_INET`. -/
structure PfFragmentCmp where
  frSrc : BitVec 32
  frDst : BitVec 32
  frId : BitVec 32
  frProto : BitVec 8
  frDirection : BitVec 8
deriving DecidableEq, Repr

/-- `pf_frag_compare(a, b) == 0`: the direction is not compared. -/
def PfFragmentCmp.same (a b : PfFragmentCmp) : Bool :=
  decide (a.frId = b.frId) && decide (a.frProto = b.frProto) && decide (a.frSrc = b.frSrc)
    && decide (a.frDst = b.frDst)

/-- A key of fragment queues, with `pf_frag_compare(a, b) == 0`. -/
class FragCmp (κ : Type) where
  same : κ → κ → Bool

instance : FragCmp PfFragmentCmp := ⟨PfFragmentCmp.same⟩

/-- A `struct pf_fragment`. -/
structure PfFragment (κ : Type := PfFragmentCmp) where
  key : κ
  frTimeout : BitVec 32
  frMaxlen : BitVec 16
  frQueue : List PfFrent
deriving DecidableEq, Repr

structure State (κ : Type := PfFragmentCmp) where
  pfFragqueue : List (PfFragment κ) := []
  pfNfrents : Nat := 0
deriving DecidableEq, Repr

inductive Reason where
  | frag
  | memory
deriving DecidableEq, Repr

variable {κ : Type}

/-! ## Old queues -/

/-- `pf_free_fragment` of the queue that was not used for the longest time. -/
def freeLast (s : State κ) (frag : PfFragment κ) : State κ :=
  ⟨s.pfFragqueue.dropLast, s.pfNfrents - frag.frQueue.length⟩

/-- The loop of `pf_flush_fragments`, which frees one queue a round. -/
def flushLoop (goal : Nat) : (fuel : Nat) → State κ → State κ
  | 0, s => s
  | fuel + 1, s =>
    if goal < s.pfNfrents then
      match s.pfFragqueue.getLast? with
      | none => s
      | some frag => flushLoop goal fuel (freeLast s frag)
    else s

def pfFlushFragments (s : State κ) : State κ :=
  flushLoop (s.pfNfrents * 9 / 10) s.pfFragqueue.length s

def purgeLoop (expire : BitVec 32) : (fuel : Nat) → State κ → State κ
  | 0, s => s
  | fuel + 1, s =>
    match s.pfFragqueue.getLast? with
    | none => s
    | some frag => if frag.frTimeout > expire then s else purgeLoop expire fuel (freeLast s frag)

def pfPurgeExpiredFragments (s : State κ) (timeSecond timeout : BitVec 32) : State κ :=
  purgeLoop (timeSecond - timeout) s.pfFragqueue.length s

/-! ## One queue -/

def ipMaxpacket : Nat := 65535

/-- The first checks of `pf_fillup_fragment`. -/
def badFragment (frent : PfFrent) : Bool :=
  decide (frent.feLen = 0#16) || (frent.feMff && decide (frent.feLen &&& 0x7#16 ≠ 0#16))
    || decide (frent.feEnd > ipMaxpacket)

/-- The checks against the last entry of the queue. -/
def badLast (last frent : PfFrent) : Bool :=
  let total := last.feEnd % 2 ^ 16
  (decide (frent.feEnd < total) && !frent.feMff)
    || (if !last.feMff then decide (frent.feEnd > total) || (decide (frent.feEnd = total) && frent.feMff)
        else decide (frent.feEnd = total) && !frent.feMff)

/-- `m_adj` of the front, with offset and length moved along. -/
def PfFrent.cut (e : PfFrent) (n : BitVec 16) : PfFrent :=
  { e with feM := e.feM.drop n.toNat, feOff := e.feOff + n, feLen := e.feLen - n }

/-- Cuts what an earlier entry has already; `none` if nothing is left. -/
def precut (prev : Option PfFrent) (frent : PfFrent) : Option PfFrent :=
  match prev with
  | none => some frent
  | some prev =>
    if prev.feEnd > frent.feOff.toNat then
      let precut := BitVec.ofNat 16 (prev.feEnd - frent.feOff.toNat)
      if precut ≥ frent.feLen then none else some (frent.cut precut)
    else some frent

/-- Cuts the later entries, or loses them, where the new one has the data. -/
def aftercut (frent : PfFrent) : List PfFrent → List PfFrent
  | [] => []
  | after :: next =>
    if frent.feEnd > after.feOff.toNat then
      let cut := BitVec.ofNat 16 (frent.feEnd - after.feOff.toNat)
      if cut < after.feLen then after.cut cut :: next else aftercut frent next
    else after :: next

/-- Enters a fragment into a queue that is not empty. -/
def enqueue (queue : List PfFrent) (frent : PfFrent) : Option (List PfFrent) :=
  match queue.getLast? with
  | none => none
  | some last =>
    if badLast last frent then none
    else
      let before := queue.takeWhile fun e => !decide (e.feOff > frent.feOff)
      let after := queue.dropWhile fun e => !decide (e.feOff > frent.feOff)
      (precut before.getLast? frent).map fun frent => before ++ frent :: aftercut frent after

/-- The loop of `pf_isfull_fragment`; `off` is the sum of the lengths. -/
def fullLoop (total : BitVec 16) : (off : BitVec 16) → List PfFrent → Bool
  | off, [] => !decide (off < total)
  | off, frent :: next =>
    let off := off + frent.feLen
    if off < total ∧ next.head?.map PfFrent.feOff ≠ some off then false else fullLoop total off next

def pfIsfullFragment (queue : List PfFrent) : Bool :=
  match queue.getLast? with
  | none => false
  | some last => if last.feMff then false else fullLoop (last.feOff + last.feLen) 0#16 queue

/-- The first mbuf keeps its header. -/
def pfJoinFragment : List PfFrent → List UInt8
  | [] => []
  | frent :: next => frent.feM ++ next.flatMap fun e => e.feM.drop e.feHdrlen.toNat

/-! ## Reassembly -/

/-- What the pools answer to the first and the second attempt. -/
structure Pools where
  frent1 : Bool := true
  frent2 : Bool := true
  frag1 : Bool := true
  frag2 : Bool := true
deriving DecidableEq, Repr

/-- `pf_find_fragment` moves what it finds to the front. -/
def pfFindFragment [FragCmp κ] (s : State κ) (key : κ) (timeSecond : BitVec 32) :
    Option (PfFragment κ × State κ) :=
  (s.pfFragqueue.find? fun frag => FragCmp.same frag.key key).map fun frag =>
    let frag := { frag with frTimeout := timeSecond }
    (frag, { s with pfFragqueue := frag :: s.pfFragqueue.eraseP fun frag => FragCmp.same frag.key key })

/-- `pf_fillup_fragment`. The queue that has the fragment is the first of the list then. -/
def pfFillupFragment [FragCmp κ] (s : State κ) (key : κ) (frent : PfFrent) (timeSecond : BitVec 32)
    (pools : Pools) : State κ × Except Reason (PfFragment κ) :=
  let drop (s : State κ) (reason : Reason) :=
    (({ s with pfNfrents := s.pfNfrents - 1 } : State κ), Except.error reason)
  if badFragment frent then drop s .frag
  else
    match pfFindFragment s key timeSecond with
    | none =>
      let s := if pools.frag1 then s else pfFlushFragments s
      if pools.frag1 || pools.frag2 then
        let frag : PfFragment κ := ⟨key, timeSecond, frent.feLen, [frent]⟩
        ({ s with pfFragqueue := frag :: s.pfFragqueue }, .ok frag)
      else drop s .memory
    | some (frag, s) =>
      let frag := { frag with frMaxlen := if frent.feLen > frag.frMaxlen then frent.feLen else frag.frMaxlen }
      let s := { s with pfFragqueue := frag :: s.pfFragqueue.tail }
      match enqueue frag.frQueue frent with
      | none => drop s .frag
      | some queue =>
        let frag' := { frag with frQueue := queue }
        ({ pfFragqueue := frag' :: s.pfFragqueue.tail
           -- the entries that were lost
           pfNfrents := s.pfNfrents - (frag.frQueue.length + 1 - queue.length) }, .ok frag')

/-- The header of an IPv4 packet, in host byte order. -/
structure Ip where
  ipHl : BitVec 4
  ipLen : BitVec 16
  ipOff : BitVec 16
  ipId : BitVec 16
  ipP : BitVec 8
  ipSrc : BitVec 32
  ipDst : BitVec 32
deriving DecidableEq, Repr

def ipMf : BitVec 16 := 0x2000#16
def ipOffmask : BitVec 16 := 0x1fff#16

/-- The entry and the key that `pf_reassemble` makes of a packet. -/
def frentOf (m : List UInt8) (ip : Ip) : PfFrent where
  feM := m
  feHdrlen := ip.ipHl.setWidth 16 <<< 2
  feExtoff := 0#16
  feLen := ip.ipLen - (ip.ipHl.setWidth 16 <<< 2)
  feOff := (ip.ipOff &&& ipOffmask) <<< 3
  feMff := decide (ip.ipOff &&& ipMf ≠ 0#16)

def keyOf (ip : Ip) (dir : BitVec 8) : PfFragmentCmp :=
  ⟨ip.ipSrc, ip.ipDst, ip.ipId.setWidth 32, ip.ipP, dir⟩

inductive Verdict where
  /-- `PF_DROP` of the fragment. -/
  | drop (reason : Reason)
  /-- `PF_DROP` of the mbuf that was joined, whose `ip_len` would not fit. -/
  | tooBig (m : List UInt8) (hdrlen : BitVec 16)
  /-- `PF_PASS` with no mbuf: it is part of a queue now. -/
  | held
  /-- `PF_PASS` with the mbuf that was joined, the length of its header and its `ip_len`. -/
  | complete (m : List UInt8) (hdrlen ipLen : BitVec 16)
deriving DecidableEq, Repr

def pfReassemble (s : State) (m : List UInt8) (ip : Ip) (dir : BitVec 8) (timeSecond : BitVec 32)
    (pools : Pools) : State × Verdict :=
  let s := if pools.frent1 then s else pfFlushFragments s
  if !(pools.frent1 || pools.frent2) then (s, .drop .memory)
  else
    let s := { s with pfNfrents := s.pfNfrents + 1 }
    match pfFillupFragment s (keyOf ip dir) (frentOf m ip) timeSecond pools with
    | (s, .error reason) => (s, .drop reason)
    | (s, .ok frag) =>
      if !pfIsfullFragment frag.frQueue then (s, .held)
      else
        match frag.frQueue.head?, frag.frQueue.getLast? with
        | some frent, some last =>
          let total := last.feOff + last.feLen
          let hdrlen := frent.feHdrlen
          let s := { pfFragqueue := s.pfFragqueue.tail, pfNfrents := s.pfNfrents - frag.frQueue.length }
          if hdrlen.toNat + total.toNat > ipMaxpacket then (s, .tooBig (pfJoinFragment frag.frQueue) hdrlen)
          else (s, .complete (pfJoinFragment frag.frQueue) hdrlen (hdrlen + total))
        | _, _ => (s, .held)

/-! ## The system -/

inductive Act where
  | packet (m : List UInt8) (ip : Ip) (dir : BitVec 8) (timeSecond : BitVec 32) (pools : Pools)
  | purge (timeSecond timeout : BitVec 32)
deriving DecidableEq, Repr

def step (s : State) : Act → Option State
  | .packet m ip dir timeSecond pools => some (pfReassemble s m ip dir timeSecond pools).1
  | .purge timeSecond timeout => some (pfPurgeExpiredFragments s timeSecond timeout)

end Obsd.PfFrag
