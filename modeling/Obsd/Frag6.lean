import Mathlib

/-!
# IPv6 reassembly

`frag6_input` and `frag6_freef` of netinet6/frag6.c. A queue collects the
fragments of one packet, in the order of their offsets; the counters of
queues and of fragments bound what an attacker can make the kernel hold.

The doubly linked lists are lists, the queues in the order of `ip6q_next`
and the fragments of a queue in the order of `ip6q_down`. Whether an
allocation works is part of a call. The statistics, the interface's among
them, are left out.
-/

namespace Obsd.Frag6

abbrev Byte := BitVec 8

def ip6HdrSize : Nat := 40
def ip6FragSize : Nat := 8

/-- IPV6_MAXPACKET -/
def ipv6Maxpacket : Nat := 65535

/-- IPV6_FRAGTTL -/
def ipv6Fragttl : Byte := 120

/-- A packet with a fragment header, in host order: `offset` is where the
fragment header stands, and unless the packet is a jumbogram it stands
inside the payload. -/
structure Packet where
  flow : BitVec 32
  plen : BitVec 16
  nxt : Byte
  hlim : Byte
  src : BitVec 128
  dst : BitVec 128
  fragNxt : Byte
  offlg : BitVec 16
  ident : BitVec 32
  offset : Nat
  m : List Byte
  after_header : ip6HdrSize ≤ offset
  inside : plen ≠ 0 → offset + ip6FragSize ≤ ip6HdrSize + plen.toNat

/-- `ip6f_offlg & IP6F_MORE_FRAG` -/
def Packet.more (p : Packet) : Bool := p.offlg.getLsbD 0

/-- `ip6f_offlg & IP6F_OFF_MASK` -/
def Packet.fragoff (p : Packet) : Nat := (p.offlg &&& 0xfff8).toNat

/-- Where the data of the fragment starts. -/
def Packet.dataOffset (p : Packet) : Nat := p.offset + ip6FragSize

def Packet.frgpartlen (p : Packet) : Nat := ip6HdrSize + p.plen.toNat - p.dataOffset

/-- struct ip6asfrag -/
structure Asfrag where
  head : BitVec 32
  len : BitVec 16
  nxt : Byte
  hlim : Byte
  mff : Bool
  off : Nat
  frglen : Nat
  offset : Nat
  m : List Byte
deriving DecidableEq

/-- struct ip6q; its `ip6q_head` lies where a fragment has `ip6af_head`. -/
structure Q where
  head : BitVec 32
  nxt : Byte
  ident : BitVec 32
  ttl : Byte
  src : BitVec 128
  dst : BitVec 128
  unfrglen : Int
  nfrag : Nat
  frags : List Asfrag
deriving DecidableEq

structure State where
  queues : List Q
  nfragpackets : Nat
  nfrags : Nat

/-- ip6_maxfrags and ip6_maxfragpackets -/
structure Limits where
  maxfrags : Int
  maxfragpackets : Int

/-- What the allocations of a call give: of the queue, of the fragment,
and in frag6_deletefraghdr. -/
structure Env where
  q6Ok : Bool
  afOk : Bool
  delOk : Bool

/-- What is sent or let go: ICMP6_PARAM_PROB with its pointer, with the
addresses put back in; a packet freed; ICMP6_TIME_EXCEEDED. -/
inductive Event where
  | paramProb (m : List Byte) (src dst : BitVec 128) (ptr : Nat)
  | freed (m : List Byte)
  | timeExceeded (m : List Byte) (src dst : BitVec 128)
deriving DecidableEq

/-- A reassembled packet: its bytes without the fragment header, where the
next header starts, and what is written into its headers. -/
structure Reassembled where
  m : List Byte
  offset : Nat
  plen : BitVec 16
  src : BitVec 128
  dst : BitVec 128
  nxt : Byte
deriving DecidableEq

/-- `headRead` says that the queue's own head was read as a fragment. -/
structure Result where
  s : State
  events : List Event
  out : Option Reassembled
  headRead : Bool

/-! ## Parts of frag6_input -/

/-- IPTOS_ECN_MASK of the flow's traffic class. -/
def ecnOf (flow : BitVec 32) : BitVec 32 := (flow >>> 20) &&& 3

def ecnNotect : BitVec 32 := 0
def ecnCe : BitVec 32 := 3

/-- `q6->ip6q_down->ip6af_head`, which of a queue without fragments is the
queue's own. -/
def Q.downHead (q : Q) : BitVec 32 :=
  match q.frags with
  | [] => q.head
  | f :: _ => f.head

/-- `q6->ip6q_down->ip6af_head |= IPTOS_ECN_CE << 20` -/
def Q.setCe (q : Q) : Q :=
  match q.frags with
  | [] => { q with head := q.head ||| (ecnCe <<< 20) }
  | f :: rest => { q with frags := { f with head := f.head ||| (ecnCe <<< 20) } :: rest }

/-- The handling of ECN; `none` drops the fragment. -/
def ecn (q : Q) (flow : BitVec 32) : Option Q :=
  let ecn0 := ecnOf q.downHead
  if ecnOf flow = ecnCe then
    if ecn0 = ecnNotect then none
    else if ecn0 ≠ ecnCe then some q.setCe else some q
  else if ecnOf flow = ecnNotect ∧ ecn0 ≠ ecnNotect then none
  else some q

/-- The fragments with the new one before the first that begins after it;
`none` if it overlaps one of its neighbours. -/
def place (frags : List Asfrag) (f : Asfrag) : Option (List Asfrag) :=
  let before := frags.takeWhile fun g => g.off ≤ f.off
  let after := frags.dropWhile fun g => g.off ≤ f.off
  if (∃ g ∈ before.getLast?, f.off < g.off + g.frglen) then none
  else if (∃ g ∈ after.head?, g.off < f.off + f.frglen) then none
  else some (before ++ f :: after)

/-- The scan for complete reassembly: the length of the fragments if there
is no gap. -/
def contiguous (next : Nat) : List Asfrag → Option Nat
  | [] => some next
  | f :: rest => if f.off ≠ next then none else contiguous (next + f.frglen) rest

/-- Fragments put together: the first with its fragment header cut out, the
others from their data on. -/
def join (q : Q) (total : Nat) : List Asfrag → Reassembled
  | [] => ⟨[], 0, 0, q.src, q.dst, q.nxt⟩
  | f :: rest =>
    let offset := f.offset - ip6FragSize
    { m := f.m.take offset ++ f.m.drop f.offset ++ (rest.map fun g => g.m.drop g.offset).flatten
      offset := offset
      plen := BitVec.ofNat 16 (total + offset - ip6HdrSize)
      src := q.src, dst := q.dst, nxt := q.nxt }

/-- The queue is unlinked and no longer counted. -/
def State.remove (s : State) (pre : List Q) (q : Q) (post : List Q) : State :=
  { queues := pre ++ post, nfragpackets := s.nfragpackets - 1, nfrags := s.nfrags - q.nfrag }

/-- From the label `insert` on: the queue holds the new fragment. -/
def finish (s : State) (pre : List Q) (q : Q) (post : List Q) (delOk : Bool)
    (events : List Event) (headRead : Bool) : Result :=
  let s := { s with nfrags := s.nfrags + 1 }
  let q := { q with nfrag := q.nfrag + 1 }
  let stay : Result := ⟨{ s with queues := pre ++ q :: post }, events, none, headRead⟩
  match contiguous 0 q.frags, q.frags.getLast? with
  | some total, some last =>
    if last.mff then stay
    else
      let r := join q total q.frags
      if delOk then ⟨s.remove pre q post, events, some r, headRead⟩
      else ⟨s.remove pre q post, events ++ [.freed r.m], none, headRead⟩
  | _, _ => stay

/-- The 1st fragment records the length of the unfragmentable part and the
next header. -/
def Q.record (q : Q) (p : Packet) : Q :=
  if p.fragoff = 0 then
    { q with unfrglen := (p.dataOffset : Int) - ip6HdrSize - ip6FragSize, nxt := p.fragNxt }
  else q

/-- The reassembled packet would exceed 65535 bytes. -/
def Q.tooBig (q : Q) (off len : Nat) : Bool :=
  if 0 ≤ q.unfrglen then ipv6Maxpacket < q.unfrglen + off + len
  else ipv6Maxpacket < off + len

/-- The 1st fragment throws out those that no longer fit behind it. -/
def Q.purge (q : Q) (p : Packet) : Q × List Event :=
  if p.fragoff = 0 then
    let bad := fun f : Asfrag => decide ((ipv6Maxpacket : Int) < q.unfrglen + f.off + f.frglen)
    ({ q with frags := q.frags.filter fun f => !bad f },
      (q.frags.filter bad).map fun f =>
        .paramProb f.m q.src q.dst (f.offset - ip6FragSize + 2))
  else (q, [])

def Packet.asfrag (p : Packet) : Asfrag :=
  { head := p.flow, len := p.plen, nxt := p.nxt, hlim := p.hlim, mff := p.more, off := p.fragoff,
    frglen := p.frgpartlen, offset := p.dataOffset, m := p.m }

/-- frag6_input once the queue is found or made. -/
def input (s : State) (pre : List Q) (q : Q) (post : List Q) (firstFrag : Bool) (p : Packet)
    (e : Env) : Result :=
  let q := q.record p
  if q.tooBig p.fragoff p.frgpartlen then
    ⟨{ s with queues := pre ++ q :: post },
      [.paramProb p.m p.src p.dst (p.dataOffset - ip6FragSize + 2)], none, false⟩
  else
    let (q, errs) := q.purge p
    let drop : Bool → Result := fun headRead =>
      ⟨{ s with queues := pre ++ q :: post }, errs ++ [.freed p.m], none, headRead⟩
    if e.afOk = false then drop false
    else if firstFrag then
      finish s pre { q with frags := q.frags ++ [p.asfrag] } post e.delOk errs false
    else
      let headRead := q.frags.isEmpty
      match ecn q p.flow with
      | none => drop headRead
      | some q' =>
        match place q'.frags p.asfrag with
        | none =>
          ⟨{ s with queues := pre ++ q' :: post }, errs ++ [.freed p.m], none, headRead⟩
        | some frags => finish s pre { q' with frags := frags } post e.delOk errs headRead

/-- The queue of the packet, with the queues before and after it. -/
def findQ (p : Packet) : List Q → Option (List Q × Q × List Q)
  | [] => none
  | q :: rest =>
    if p.ident = q.ident ∧ p.src = q.src ∧ p.dst = q.dst then some ([], q, rest)
    else (findQ p rest).map fun (pre, found, post) => (q :: pre, found, post)

/-- A new queue. -/
def Packet.newQ (p : Packet) : Q :=
  { head := 0, nxt := 0, ident := p.ident, ttl := ipv6Fragttl, src := p.src, dst := p.dst,
    unfrglen := -1, nfrag := 0, frags := [] }

/-- What makes frag6_input send an error before it looks at the queues,
with the pointer of the error. -/
def Packet.bad (p : Packet) : Option Nat :=
  if p.plen = 0 then some p.offset
  else if p.more ∧ ((p.plen.toNat : Int) - p.offset) % 8 ≠ 0 then some 4
  else none

/-- A limit that is not negative is reached. -/
def reached (limit : Int) (n : Nat) : Bool := 0 ≤ limit ∧ limit ≤ n

/-- frag6_input -/
def frag6Input (lim : Limits) (s : State) (p : Packet) (e : Env) : Result :=
  match p.bad with
  | some ptr => ⟨s, [.paramProb p.m p.src p.dst ptr], none, false⟩
  | none =>
    if reached lim.maxfrags s.nfrags then ⟨s, [.freed p.m], none, false⟩
    else
      match findQ p s.queues with
      | some (pre, q, post) => input s pre q post false p e
      | none =>
        if reached lim.maxfragpackets s.nfragpackets then ⟨s, [.freed p.m], none, false⟩
        else
          let s := { s with nfragpackets := s.nfragpackets + 1 }
          if e.q6Ok = false then ⟨s, [.freed p.m], none, false⟩
          else input s [] p.newQ s.queues true p e

/-- frag6_freef, of the queue at `i`. -/
def frag6Freef (s : State) (i : Nat) : State × List Event :=
  match s.queues[i]? with
  | none => (s, [])
  | some q =>
    (s.remove (s.queues.take i) q (s.queues.drop (i + 1)),
      q.frags.map fun f => if f.off = 0 then .timeExceeded f.m q.src q.dst else .freed f.m)

end Obsd.Frag6
