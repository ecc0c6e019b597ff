import Mathlib
import Obsd.Runs

/-!
# Reassembly of IPv4 datagrams

`ip_reass` of `ip_input.c`, with the part of `ipv4_input` that finds the
queue and calls it, and what frees queues: `ip_freef`, `ip_slowtimo`,
`ip_drain` and `ip_flush`. Header fields are kept in host order. A packet
is its header and the bytes behind it; `front` counts the bytes `m_adj` has
cut between the two, since in the end `m_data` is moved back by the length
of the header to where the header is meant to be. What the pools answer is
part of a request.
-/

namespace Obsd.IpReass

/-! ## Data -/

/-- The fields of `struct ip` that are looked at. -/
structure Ip where
  hl : BitVec 4
  tos : BitVec 8
  len : BitVec 16
  id : BitVec 16
  off : BitVec 16
  p : BitVec 8
  src : BitVec 32
  dst : BitVec 32
deriving DecidableEq, Repr

/-- `ip_hl << 2`. -/
def Ip.hlen (ip : Ip) : Nat := ip.hl.toNat * 4

/-- A packet with its header. -/
structure Packet where
  ip : Ip
  front : Nat
  data : List UInt8
deriving DecidableEq, Repr

/-- A `struct ipqent`. -/
structure Ipqent where
  mff : Bool
  ip : Ip
  front : Nat
  m : List UInt8
deriving DecidableEq, Repr

def Ipqent.off (e : Ipqent) : Nat := e.ip.off.toNat

def Ipqent.len (e : Ipqent) : Nat := e.ip.len.toNat

/-- Where the data of the fragment ends, as an `int`. -/
def Ipqent.stop (e : Ipqent) : Nat := e.off + e.len

/-- What tells the datagrams apart. -/
structure Key where
  id : BitVec 16
  src : BitVec 32
  dst : BitVec 32
  p : BitVec 8
deriving DecidableEq, Repr

def Ip.key (ip : Ip) : Key := ⟨ip.id, ip.src, ip.dst, ip.p⟩

/-- A `struct ipq`. -/
structure Ipq where
  key : Key
  ttl : BitVec 8
  fragq : List Ipqent
deriving DecidableEq, Repr

/-- The list of queues, and `ip_frags`. -/
structure State where
  ipq : List Ipq := []
  frags : Int := 0
deriving DecidableEq, Repr

/-! ## Queues that go -/

/-- The entries of some queues are freed, one by one. -/
def State.uncount (s : State) (qs : List Ipq) : Int :=
  s.frags - ((qs.map fun fp => fp.fragq.length).sum : Nat)

/-- `ip_freef` of the first queue of the list. -/
def freeFirst (s : State) : State :=
  match s.ipq with
  | [] => s
  | fp :: rest => ⟨rest, s.uncount [fp]⟩

def ipSlowtimo (s : State) : State :=
  let ipq := s.ipq.map fun fp => { fp with ttl := fp.ttl - 1 }
  ⟨ipq.filter fun fp => fp.ttl ≠ 0#8, s.uncount (ipq.filter fun fp => fp.ttl = 0#8)⟩

def ipDrain (s : State) : State := ⟨[], s.uncount s.ipq⟩

/-- The loop of `ip_flush`. -/
def flushLoop (maxqueue : Int) : Nat → State → State
  | 0, s => s
  | max + 1, s =>
    if s.ipq ≠ [] ∧ s.frags > Int.tdiv (maxqueue * 3) 4 then flushLoop maxqueue max (freeFirst s)
    else s

/-- The counter of the loop starts at 50 and is decremented before it is tested. -/
def ipFlush (maxqueue : Int) (s : State) : State := flushLoop maxqueue 49 s

/-! ## One queue -/

/-- `m_adj` of the front, with offset and length moved along. -/
def Ipqent.adj (e : Ipqent) (i : Nat) : Ipqent :=
  { e with
    m := e.m.drop i
    front := e.front + i
    ip := { e.ip with off := BitVec.ofNat 16 (e.off + i), len := BitVec.ofNat 16 (e.len - i) } }

/-- Drops what the preceding entry has already; `none` if that is all. -/
def trimFront (p : Option Ipqent) (e : Ipqent) : Option Ipqent :=
  match p with
  | none => some e
  | some p =>
    if e.off < p.stop then
      if e.len ≤ p.stop - e.off then none else some (e.adj (p.stop - e.off))
    else some e

/-- Trims the succeeding entries, or dequeues them where they are covered: what is left, and
how often `ip_frags` is decremented. -/
def trimNext (e : Ipqent) : List Ipqent → List Ipqent × Nat
  | [] => ([], 0)
  | q :: next =>
    if q.off < e.stop then
      if e.stop - q.off < q.len then (q.adj (e.stop - q.off) :: next, 0)
      else ((trimNext e next).1, (trimNext e next).2 + 1)
    else (q :: next, 0)

def ecnMask : BitVec 8 := 0x03#8
def ecnNotect : BitVec 8 := 0x00#8
def ecnCe : BitVec 8 := 0x03#8

/-- The first entry does not lose a mark of congestion; `none` drops the fragment. -/
def ecn (e first : Ipqent) : Option Ipqent :=
  let ecn := e.ip.tos &&& ecnMask
  let ecn0 := first.ip.tos &&& ecnMask
  if ecn = ecnCe ∧ ecn0 = ecnNotect then none
  else if ecn = ecnNotect ∧ ecn0 ≠ ecnNotect then none
  else if ecn = ecnCe ∧ ecn0 ≠ ecnCe then
    some { first with ip := { first.ip with tos := first.ip.tos ||| ecnCe } }
  else some first

/-- The queue with the fragment in its place and without what it covers, and how many
entries that was. -/
def place (queue : List Ipqent) (e : Ipqent) : Option (List Ipqent × Nat) :=
  let before := queue.takeWhile fun q => !decide (q.off > e.off)
  let after := queue.dropWhile fun q => !decide (q.off > e.off)
  (trimFront before.getLast? e).map fun e =>
    (before ++ e :: (trimNext e after).1, (trimNext e after).2)

/-- Whether there is no gap, and where the last entry ends. -/
def scan : Nat → List Ipqent → Option Nat
  | next, [] => some next
  | next, q :: qs => if q.off ≠ next then none else scan (next + q.len) qs

def ipMaxpacket : Nat := 65535

inductive Outcome where
  | wait
  | toolong
  | done (m : Packet)
deriving DecidableEq, Repr

/-- The end of `ip_reass`, with the fragment inserted. -/
def complete (key : Key) (queue : List Ipqent) : Outcome :=
  match queue with
  | [] => .wait
  | first :: rest =>
    match scan 0 queue with
    | none => .wait
    | some next =>
      if (rest.getLast?.getD first).mff then .wait
      else if next + first.ip.hlen > ipMaxpacket then .toolong
      else .done
        { ip := { first.ip with len := BitVec.ofNat 16 next, src := key.src, dst := key.dst }
          front := first.front
          data := queue.flatMap Ipqent.m }

/-- A queue is replaced by another one, or goes. -/
def replace (key : Key) (new : Option Ipq) : List Ipq → List Ipq
  | [] => []
  | fp :: rest => if fp.key = key then new.toList ++ rest else fp :: replace key new rest

/-- `ip_reass`, for the queue of the fragment's datagram. `ip_frags` counts the fragment
already. `none` looks for the first entry of a queue that has none. -/
def ipReass (s : State) (e : Ipqent) (fpOk : Bool) : Option (State × Option Packet) :=
  let key := e.ip.key
  match s.ipq.find? fun fp => fp.key = key with
  | none =>
    if fpOk then
      match complete key [e] with
      | .wait => some (⟨⟨key, 60#8, [e]⟩ :: s.ipq, s.frags⟩, none)
      | .toolong => some (⟨s.ipq, s.frags - 1⟩, none)
      | .done m => some (⟨s.ipq, s.frags - 1⟩, some m)
    else some (⟨s.ipq, s.frags - 1⟩, none)
  | some fp =>
    match fp.fragq with
    | [] => none
    | first :: rest =>
      match ecn e first with
      | none => some (⟨s.ipq, s.frags - 1⟩, none)
      | some first =>
        match place (first :: rest) e with
        | none => some (⟨replace key (some { fp with fragq := first :: rest }) s.ipq,
            s.frags - 1⟩, none)
        | some (queue, gone) =>
          match complete key queue with
          | .wait => some (⟨replace key (some { fp with fragq := queue }) s.ipq,
              s.frags - gone⟩, none)
          | .toolong => some (⟨replace key none s.ipq, s.frags - gone - queue.length⟩, none)
          | .done m => some (⟨replace key none s.ipq, s.frags - gone - queue.length⟩, some m)

/-! ## The caller -/

def ipRf : BitVec 16 := 0x8000#16
def ipDf : BitVec 16 := 0x4000#16
def ipMf : BitVec 16 := 0x2000#16

/-- The part of `ipv4_input` for packets that are ours. -/
def ours (maxqueue : Int) (s : State) (m : Packet) (entOk fpOk : Bool) :
    Option (State × Option Packet) :=
  if m.ip.off &&& ~~~(ipDf ||| ipRf) = 0#16 then some (s, some m)
  else
    let mff := decide (m.ip.off &&& ipMf ≠ 0#16)
    let len := m.ip.len - BitVec.ofNat 16 m.ip.hlen
    if mff ∧ (len = 0#16 ∨ len &&& 0x7#16 ≠ 0#16) then some (s, none)
    else
      let ip := { m.ip with len := len, off := m.ip.off <<< 3 }
      if mff ∨ ip.off ≠ 0#16 then
        if s.frags + 1 > maxqueue then some (ipFlush maxqueue s, none)
        else if entOk then
          (ipReass ⟨s.ipq, s.frags + 1⟩ ⟨mff, ip, m.front, m.data⟩ fpOk).map fun r =>
            (r.1, r.2.map fun m =>
              { m with ip := { m.ip with len := m.ip.len + BitVec.ofNat 16 m.ip.hlen } })
        else some (s, none)
      else
        match s.ipq.find? fun fp => fp.key = ip.key with
        | none => some (s, some { m with ip := ip })
        | some fp => some (⟨replace ip.key none s.ipq, s.uncount [fp]⟩, some { m with ip := ip })

end Obsd.IpReass
