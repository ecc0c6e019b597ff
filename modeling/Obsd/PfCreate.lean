import Obsd.PfState

/-!
# Making a state for a packet

`pf_state_key_setup` and `pf_create_state` of `net/pf.c`. What the pools
answer, and what the scrubbing of the first packet says, are inputs.
-/

namespace Obsd.PfState

/-! ## Keys from a packet -/

/-- The part of a `struct pf_pdesc` that the keys are made from: the addresses and ports as
they came and as they were translated. -/
structure Pdesc where
  proto : BitVec 8
  af : Af
  dir : Dir
  src : List (BitVec 32)
  dst : List (BitVec 32)
  nsaddr : List (BitVec 32)
  ndaddr : List (BitVec 32)
  osport : BitVec 16
  odport : BitVec 16
  nsport : BitVec 16
  ndport : BitVec 16
  rdomain : BitVec 16
deriving DecidableEq, Repr

/-- A key filled in at `pd->sidx` and `pd->didx`. -/
def Pdesc.key (pd : Pdesc) (src dst : List (BitVec 32)) (sport dport rdomain : BitVec 16) : StateKey :=
  match pd.dir with
  | .inn =>
    { proto := pd.proto, af := pd.af, addr0 := src, addr1 := dst, port0 := sport, port1 := dport
      rdomain := rdomain }
  | .out =>
    { proto := pd.proto, af := pd.af, addr0 := dst, addr1 := src, port0 := dport, port1 := sport
      rdomain := rdomain }

/-- Whether a packet is translated; `wrdom` is the domain of the routing table in use. -/
def Pdesc.nat (pd : Pdesc) (wrdom : BitVec 16) : Bool :=
  decide (pd.nsaddr ≠ pd.src) || decide (pd.ndaddr ≠ pd.dst) || decide (pd.nsport ≠ pd.osport)
    || decide (pd.ndport ≠ pd.odport) || decide (wrdom ≠ pd.rdomain)

/-- The keys at the wire and at the stack, the second `none` if it is the same; `none` is that
there is no memory for them. -/
def pfStateKeySetup (pd : Pdesc) (wrdom : BitVec 16) (sk1Ok sk2Ok : Bool) :
    Option (StateKey × Option StateKey) :=
  let sk1 := pd.key pd.src pd.dst pd.osport pd.odport pd.rdomain
  let sk2 := pd.key pd.nsaddr pd.ndaddr pd.nsport pd.ndport wrdom
  if !sk1Ok then none
  else if pd.nat wrdom then
    if !sk2Ok then none
    else match pd.dir with
      | .inn => some (sk1, some sk2)
      | .out => some (sk2, some sk1)
  else some (sk1, none)

/-! ## The state -/

def ipprotoUdp : BitVec 8 := 17#8
def ipprotoIcmp : BitVec 8 := 1#8
def ipprotoIcmpv6 : BitVec 8 := 58#8
def tcpsSynSent : BitVec 8 := 2#8
def pfTcpsProxySrc : BitVec 8 := 11#8
def pfudpsSingle : BitVec 8 := 1#8
def pfothersSingle : BitVec 8 := 1#8

/-- The states of the peers at first. -/
def Pdesc.peers (pd : Pdesc) : BitVec 8 × BitVec 8 :=
  if pd.proto = ipprotoTcp then (tcpsSynSent, tcpsClosed)
  else if pd.proto = ipprotoUdp then (pfudpsSingle, 0#8)
  else if pd.proto = ipprotoIcmp ∨ pd.proto = ipprotoIcmpv6 then (0#8, 0#8)
  else (pfothersSingle, 0#8)

/-- `PF_SN_MAX` -/
def pfSnMax : Nat := 4

/-- The arguments of `pf_create_state`, and what it is answered. -/
structure Create where
  /-- The rule, its `max_states` and whether it binds states to an interface. -/
  r : Nat
  maxStates : Nat
  ifBound : Bool
  synproxy : Bool
  anchor : Option Nat
  rules : List Nat
  kif : Kif
  pd : Pdesc
  wrdom : BitVec 16
  synOnly : Bool
  /-- The source nodes, each with what the pool says to an item for it. -/
  sns : Fin pfSnMax → Option Nat × Bool
  stateOk : Bool
  scrubOk : Bool
  sk1Ok : Bool
  sk2Ok : Bool
  items : Items

/-- `BOUND_IFACE` -/
def Create.boundIface (c : Create) : Kif := if c.ifBound then c.kif else .all

def Create.newState (c : Create) : NewState where
  direction := c.pd.dir
  peers := c.pd.peers
  id := (0#64, 0#32)
  tcpEst := false
  rule := c.r
  anchor := c.anchor
  matchRules := c.rules

/-- The loop that attaches the source nodes; it ends early without memory for an item. -/
def attachSrcNodes (s : Nat) : List (Option Nat × Bool) → Table → Table × Bool
  | [], t => (t, true)
  | (none, _) :: rest, t => attachSrcNodes s rest t
  | (some _, false) :: _, t => (t, false)
  | (some n, true) :: rest, t =>
    attachSrcNodes s rest { t with
      srcNodes := Function.update t.srcNodes s (n :: t.srcNodes s)
      node := Function.update t.node n { t.node n with states := (t.node n).states + 1 } }

/-- The exit at `csfailed`, with the state if there is one. -/
def csfailed (t : Table) (c : Create) (s : Option Nat) : Table :=
  let t := ((List.ofFn c.sns).filterMap Prod.fst).foldl pfRemoveSrcNode t
  match s with
  | none => t
  | some s => countRules (pfSrcTreeRemoveState t s) s (-1)

inductive Verdict where
  | pass
  | drop
  | synproxyDrop
deriving DecidableEq, Repr

/-- From the insertion on. -/
def createInsert (t : Table) (s : Nat) (c : Create) (skw : StateKey) (sks : Option StateKey) :
    Table × Verdict :=
  match pfStateInsert t c.boundIface skw sks s c.items with
  | (t, false) => (csfailed (pfStateKeyDetach (pfStateKeyDetach t s .stack) s .wire) c (some s), .drop)
  | (t, true) =>
    match attachSrcNodes s (List.ofFn c.sns) t with
    | (t, false) => (countRules (pfSrcTreeRemoveState t s) s (-1), .drop)
    | (t, true) =>
      if c.pd.proto = ipprotoTcp ∧ c.synOnly ∧ c.synproxy then
        ({ t with peers := Function.update t.peers s (pfTcpsProxySrc, (t.peers s).2) }, .synproxyDrop)
      else (t, .pass)

/-- `s` is the memory the pool gives for the state. -/
def pfCreateState (t : Table) (s : Nat) (c : Create) : Table × Verdict :=
  if 0 < c.maxStates ∧ (c.maxStates : Int) ≤ t.statesCur c.r then (t, .drop)
  else if !c.stateOk then (csfailed t c none, .drop)
  else
    let t := countRules (newState t s c.newState) s 1
    if c.pd.proto = ipprotoTcp ∧ c.scrubOk = false then (csfailed t c (some s), .drop)
    else match pfStateKeySetup c.pd c.wrdom c.sk1Ok c.sk2Ok with
      | none => (csfailed t c (some s), .drop)
      | some (skw, sks) => createInsert t s c skw sks

end Obsd.PfState
