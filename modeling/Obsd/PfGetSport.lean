import Obsd.PfLb
import Obsd.ScanLoop

/-!
# Ports for translated connections

`pf_get_sport` of `net/pf_lb.c` looks for an address of the pool, and for
each address for a port that no state uses: from a random port up to the end
of the range, then down to its start. The counter has 16 bits. Up to 65535,
or down to 0, the test of a loop holds for every port, and the loop leaves
the range or does not end; `right_iff` says when that happens.
-/

namespace Obsd.PfLb

open PfState (Af StateKey Table)
open ScanLoop

/-! ## States with a key -/

inductive FindDir where
  | inout | inn | out
deriving DecidableEq, Repr

/-- The words that `pf_addr_compare` looks at. -/
def Addr.words (a : Addr) : Af → List (BitVec 32)
  | .inet => [a.w0]
  | .inet6 => [a.w3, a.w2, a.w1, a.w0]

/-- The state has the key on the side that packets of the direction come from. -/
def hasKey (t : Table) (key : StateKey) (dir : FindDir) (s : Nat) : Bool :=
  match dir with
  | .inout => true
  | .inn => t.key .wire s == some key
  | .out => t.key .stack s == some key

/-- With `more`, how many there are after the first one is added to it. -/
def pfFindStateAll (t : Table) (key : StateKey) (dir : FindDir) (more : Option Int) :
    Option Nat × Option Int :=
  match t.statetbl key with
  | none => (none, more)
  | some states =>
    let found := states.filter (hasKey t key dir)
    (found.head?, more.map fun n => n + (found.length - 1 : Nat))

/-! ## Ports -/

def ipprotoIcmp : BitVec 8 := 1#8
def ipprotoTcp : BitVec 8 := 6#8
def ipprotoUdp : BitVec 8 := 17#8
def ipprotoIcmpv6 : BitVec 8 := 58#8
def icmpEcho : BitVec 16 := 8#16
def icmp6EchoRequest : BitVec 16 := 128#16

/-- `htons` and `ntohs`, which is the same. -/
def htons (bigEndian : Bool) (x : BitVec 16) : BitVec 16 :=
  if bigEndian then x else x.extractLsb' 0 8 ++ x.extractLsb' 8 8

theorem htons_htons (be : Bool) (x : BitVec 16) : htons be (htons be x) = x := by
  cases be
  · simp only [htons, Bool.false_eq_true, if_false]
    refine BitVec.eq_of_getLsbD_eq fun i hi => ?_
    simp only [BitVec.getLsbD_append, BitVec.getLsbD_extractLsb']
    by_cases h8 : i < 8
    · have hdiff : 8 + i - 8 = i := by omega
      have hge : ¬ 8 + i < 8 := by omega
      simp [h8, hdiff, hge]
    · have hlt : i - 8 < 8 := by omega
      have hsum : 8 + (i - 8) = i := by omega
      simp [h8, hlt, hsum]
  · rfl

/-- `baddynamicports`, bits in words, and the port that is not in it for being a sysctl. -/
structure BadDynamic where
  tcp : Nat → BitVec 32
  udp : Nat → BitVec 32
  /-- `udpencap_port`, in kernels with IPsec. -/
  udpencapPort : Option Int

/-- `DP_ISSET` -/
def dpIsset (m : Nat → BitVec 32) (p : BitVec 16) : Bool :=
  (m (p.toNat / 32) &&& (1#32 <<< (p.toNat % 32))) != 0#32

def inBaddynamic (bad : BadDynamic) (port : BitVec 16) (proto : BitVec 8) : Bool :=
  if proto = ipprotoTcp then dpIsset bad.tcp port
  else if proto = ipprotoUdp then
    if bad.udpencapPort = some (port.toNat : Int) then true else dpIsset bad.udp port
  else false

/-! ## `pf_get_sport` -/

/-- What is used of a `struct pf_pdesc`. -/
structure Pdesc where
  af : Af
  proto : BitVec 8
  rdomain : BitVec 16
  nsaddr : Addr
  ndaddr : Addr
  nsport : BitVec 16
  ndport : BitVec 16
deriving DecidableEq, Repr

/-- What a call of `pf_get_sport` works with. Random numbers and nodes are given for each of
the addresses it tries. -/
structure SportEnv where
  env : Env
  arc4random : Nat → Addr
  poolGet : Nat → Option Nat
  uniform : Nat → Nat
  table : Table
  bad : BadDynamic

/-- Some number below `n`. -/
def arc4randomUniform (r n : Nat) : Nat := r % n

/-- An address that is tried: the `n`-th, with the pool and the source nodes at that time. -/
structure Try where
  n : Nat
  naddr : Addr
  initAddr : Option Addr
  nat : Pool
  src : Tracking

structure Sport where
  fail : Bool
  nport : BitVec 16
  last : Try

def portKey (pd : Pdesc) (naddr : Addr) (port : BitVec 16) : StateKey where
  proto := pd.proto
  af := pd.af
  addr0 := pd.ndaddr.words pd.af
  addr1 := naddr.words pd.af
  port0 := pd.ndport
  port1 := port
  rdomain := pd.rdomain

/-- No state is found for a port, in network order. -/
def noState (e : SportEnv) (pd : Pdesc) (naddr : Addr) (port : BitVec 16) : Bool :=
  (pfFindStateAll e.table (portKey pd naddr port) .inn none).1.isNone

/-- The test in the loops. -/
def portFree (e : SportEnv) (pd : Pdesc) (naddr : Addr) (tmp : BitVec 16) : Bool :=
  noState e pd naddr (htons e.env.bigEndian tmp) && !inBaddynamic e.bad tmp pd.proto

/-- The loop from `cut` up to `high`, and the one below `cut` down to `low`. -/
def portLoops (free : BitVec 16 → Bool) (low high cut : BitVec 16) (fuel : Nat) :
    Option (Option (BitVec 16)) :=
  match scan (fun tmp => decide (tmp ≤ high)) free (fun tmp => tmp + 1#16) fuel cut with
  | some none =>
    scan (fun tmp => decide (low ≤ tmp)) free (fun tmp => tmp - 1#16) fuel (cut - 1#16)
  | found => found

def randomCut (low high : BitVec 16) (r : Nat) : BitVec 16 :=
  BitVec.ofNat 16 (arc4randomUniform r (1 + high.toNat - low.toNat) + low.toNat)

/-- The body of the outer loop: a port in network order, or none for this address. -/
def portSearch (e : SportEnv) (pd : Pdesc) (low high : BitVec 16) (fuel : Nat) (s : Try) :
    Option (Option (BitVec 16)) :=
  let only := fun port => if noState e pd s.naddr port then some port else none
  if ¬(pd.proto = ipprotoTcp ∨ pd.proto = ipprotoUdp ∨ pd.proto = ipprotoIcmp) then
    some (only pd.nsport)
  else if low = 0#16 ∧ high = 0#16 then some (only pd.nsport)
  else if low = high then some (only (htons e.env.bigEndian low))
  else
    let (low, high) := if high < low then (high, low) else (low, high)
    let cut := randomCut low high (e.uniform s.n)
    (portLoops (portFree e pd s.naddr) low high cut fuel).map
      (Option.map (htons e.env.bigEndian))

/-- The call of `pf_map_addr` for the `n`-th address, and whether it failed. -/
def mapNat (e : SportEnv) (pd : Pdesc) (r : PfRule) (n : Nat) (naddr : Addr)
    (initAddr : Option Addr) (nat : Pool) (src : Tracking) : Try × Bool :=
  let env := { e.env with arc4random := e.arc4random n, poolGet := e.poolGet n }
  let m := pfMapAddr env src pd.af r pd.nsaddr naddr initAddr nat .nat
  (⟨n, m.naddr, m.initAddr, m.pool, m.src⟩, m.fail)

/-- The end of the outer loop: whether to go on, with the next address. -/
def tryNext (e : SportEnv) (pd : Pdesc) (r : PfRule) (s : Try) : Try × Bool :=
  match s.nat.type with
  | .random | .roundrobin =>
    let (s', fail) := mapNat e pd r (s.n + 1) s.naddr s.initAddr s.nat s.src
    (s', !fail && !pfAeq (s'.initAddr.getD .zero) s'.naddr pd.af)
  | _ => (s, false)

def sportLoop (e : SportEnv) (pd : Pdesc) (r : PfRule) (low high nport : BitVec 16) (fuel : Nat) :
    Nat → Try → Option Sport
  | 0, _ => none
  | tries + 1, s =>
    match portSearch e pd low high fuel s with
    | none => none
    | some (some port) => some ⟨false, port, s⟩
    | some none =>
      match tryNext e pd r s with
      | (s', true) => sportLoop e pd r low high nport fuel tries s'
      | (s', false) => some ⟨true, nport, s'⟩

/-- The range to search: ICMP has identifiers instead, and other messages than echo
requests have none. -/
def portRange (e : SportEnv) (pd : Pdesc) (low high : BitVec 16) : Option (BitVec 16 × BitVec 16) :=
  if pd.proto = ipprotoIcmp ∨ pd.proto = ipprotoIcmpv6 then
    if pd.ndport = htons e.env.bigEndian icmp6EchoRequest ∨
        pd.ndport = htons e.env.bigEndian icmpEcho then
      some (1#16, 65535#16)
    else none
  else some (low, high)

/-- `fuel` bounds the search for a port, and `tries` the addresses. -/
def pfGetSport (e : SportEnv) (pd : Pdesc) (r : PfRule) (nat : Pool) (src : Tracking)
    (naddr : Addr) (nport low high : BitVec 16) (fuel tries : Nat) : Option Sport :=
  match mapNat e pd r 0 naddr (some .zero) nat src with
  | (s, true) => some ⟨true, nport, s⟩
  | (s, false) =>
    match portRange e pd low high with
    | none => some ⟨false, nport, s⟩
    | some (low, high) => sportLoop e pd r low high nport fuel tries s

end Obsd.PfLb
