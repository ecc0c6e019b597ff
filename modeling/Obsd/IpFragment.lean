import Obsd.IpReass

/-!
# Fragmentation of IPv4 packets

`ip_fragment` and `ip_optcopy` of `ip_output.c`. A packet is its header,
the options behind the header and the data; header fields are kept in host
order, and checksums of headers are left out. What the allocations answer
is given, and the mbufs that were allocated and freed are listed.
-/

namespace Obsd.IpFragment

open IpReass (Ip ipMf)

/-! ## Packets -/

/-- A packet. `deferred` is a checksum of the protocol above that has not
been put in: where it belongs in the data, and its bytes. -/
structure Pkt where
  ip : Ip
  opts : List UInt8
  data : List UInt8
  mcast : Bool
  bcast : Bool
  rdomain : Nat
  deferred : Option (Nat × UInt8 × UInt8)
deriving DecidableEq

/-- sizeof (struct ip) -/
def ipSize : Nat := 20

def inProtoCksumOut (m : Pkt) : Pkt :=
  match m.deferred with
  | none => m
  | some (o, x, y) => { m with data := (m.data.set o x).set (o + 1) y, deferred := none }

/-! ## Options -/

def ipoptEol : UInt8 := 0
def ipoptNop : UInt8 := 1

/-- IPOPT_COPIED -/
def ipoptCopied (opt : UInt8) : Bool := opt &&& 0x80 != 0

/-- The loop of ip_optcopy: `cp` is what is left of the options, `dp` what
has been copied. `none` is a panic over a malformed option. -/
def optcopyLoop : Nat → List UInt8 → List UInt8 → Option (List UInt8)
  | 0, _, dp => some dp
  | _ + 1, [], dp => some dp
  | turns + 1, opt :: rest, dp =>
    if opt = ipoptEol then some dp
    else if opt = ipoptNop then optcopyLoop turns rest (dp ++ [ipoptNop])
    else
      match rest with
      | [] => none
      | olen :: _ =>
        if olen.toNat < 2 ∨ (opt :: rest).length < olen.toNat then none
        else optcopyLoop turns ((opt :: rest).drop olen.toNat)
          (if ipoptCopied opt then dp ++ (opt :: rest).take olen.toNat else dp)

/-- The options end on a boundary of four bytes. -/
def padOptions (dp : List UInt8) : List UInt8 :=
  dp ++ List.replicate ((4 - dp.length % 4) % 4) ipoptEol

def ipOptcopy (opts : List UInt8) : Option (List UInt8) :=
  (optcopyLoop opts.length opts []).map padOptions

/-! ## ip_fragment -/

/-- The packet, and the mbufs that are allocated for a fragment: one with
the header, and a copy of data. -/
inductive Mbuf where
  | packet
  | header (i : Nat)
  | copy (i : Nat)
deriving DecidableEq

/-- Whether the allocations for the i-th fragment succeed. -/
structure Env where
  header : Nat → Bool
  copy : Nat → Bool

inductive Err where
  | emsgsize | enobufs
deriving DecidableEq

/-- A fragment on the list, with its mbufs. -/
structure Link where
  frag : Pkt
  mbufs : List Mbuf

structure Chain where
  links : List Link
  created : List Mbuf

/-- The fragment that begins at `off` in the packet, with `n` bytes of
data. -/
def makeFrag (m : Pkt) (opts : List UInt8) (off n : Nat) (last : Bool) : Pkt :=
  let hlen := m.ip.hlen
  let mhlen := opts.length + ipSize
  let ipOff := BitVec.ofNat 16 ((off - hlen) >>> 3) + (m.ip.off &&& ~~~ipMf)
  let ipOff := if m.ip.off &&& ipMf ≠ 0 then ipOff ||| ipMf else ipOff
  let ipOff := if last then ipOff else ipOff ||| ipMf
  { m with
    ip := { m.ip with
      hl := if ipSize < hlen then BitVec.ofNat 4 (mhlen >>> 2) else m.ip.hl
      off := ipOff
      len := BitVec.ofNat 16 (n + mhlen) }
    opts := opts
    data := (m.data.drop (off - hlen)).take n }

/-- The loop of ip_fragment; every turn takes a byte at least. -/
def fragLoop (env : Env) (m : Pkt) (len : Nat) : Nat → Nat → Nat → Chain →
    Option (Chain × Option Err)
  | 0, _, _, c => some (c, none)
  | turns + 1, i, off, c =>
    if m.ip.len.toNat ≤ off then some (c, none)
    else if env.header i = false then some (c, some .enobufs)
    else do
      let opts ← (if ipSize < m.ip.hlen then ipOptcopy m.opts else some [])
      let last := decide (m.ip.len.toNat ≤ off + len)
      let n := if last then m.ip.len.toNat - off else len
      let frag := makeFrag m opts off n last
      if env.copy i = false then
        some (⟨c.links ++ [⟨{ frag with data := [] }, [.header i]⟩], c.created ++ [.header i]⟩,
          some .enobufs)
      else
        fragLoop env m len turns (i + 1) (off + n)
          ⟨c.links ++ [⟨frag, [.header i, .copy i]⟩], c.created ++ [.header i, .copy i]⟩

structure Result where
  error : Option Err
  frags : List Pkt
  created : List Mbuf
  freed : List Mbuf

/-- The packet as the first fragment. -/
def trimFirst (m : Pkt) (firstlen : Nat) : Pkt :=
  { m with
    ip := { m.ip with
      len := BitVec.ofNat 16 (m.ip.hlen + firstlen)
      off := m.ip.off ||| ipMf }
    data := m.data.take firstlen }

def ipFragment (env : Env) (m : Pkt) (mtu : Nat) : Option Result :=
  let hlen := m.ip.hlen
  -- An int, of an unsigned long.
  let len := Int.bmod (((mtu : Int) - hlen) / 8 * 8) (2 ^ 32)
  if len < 8 then some ⟨some .emsgsize, [], [], [.packet]⟩
  else do
    let m := inProtoCksumOut m
    let len := len.toNat
    let (c, error) ← fragLoop env m len m.ip.len.toNat 0 (hlen + len) ⟨[], []⟩
    match error with
    | none => some ⟨none, trimFirst m len :: c.links.map Link.frag, c.created, []⟩
    | some e => some ⟨some e, [], c.created, .packet :: c.links.flatMap Link.mbufs⟩

end Obsd.IpFragment
