import Mathlib

/-!
# The state table of pf

How `net/pf.c` keeps its states: `pf_statetbl`, a tree of keys with the list
of the states that have the key, `tree_id` and `state_list`. A state is
known by its address, and the memory is kept by field: what a state's field
holds is a function from addresses. A key in the tree is known by what
`pf_state_compare_key` looks at, since the tree has no two that compare
equal; so a pointer from a state to one of its keys is that key.

Left out is what no property here is about: packets sent, logging, pfsync,
reference counts of interfaces, statistics, and the rules that
`pf_rm_rule` frees when nothing refers to them any more.
-/

namespace Obsd.PfState

/-! ## Data -/

inductive Af where
  | inet
  | inet6
deriving DecidableEq, Repr

/-- A `struct pf_state_key`. An address is the words that `pf_addr_compare` compares. -/
structure StateKey where
  proto : BitVec 8
  af : Af
  addr0 : List (BitVec 32)
  addr1 : List (BitVec 32)
  port0 : BitVec 16
  port1 : BitVec 16
  rdomain : BitVec 16
deriving DecidableEq, Repr

def ipprotoTcp : BitVec 8 := 6#8

/-- An interface, or `pfi_all` for a state that is not bound to one. -/
inductive Kif where
  | all
  | iface (n : Nat)
deriving DecidableEq, Repr

inductive Dir where
  | inn
  | out
deriving DecidableEq, Repr

/-- `PF_SK_WIRE` and `PF_SK_STACK`. -/
inductive Idx where
  | wire
  | stack
deriving DecidableEq, Repr

def Idx.other : Idx → Idx
  | .wire => .stack
  | .stack => .wire

/-- A `struct pf_src_node`. -/
structure SrcNode where
  rule : Option Nat
  states : Int
  conn : Int
  expire : Nat
deriving DecidableEq, Repr

/-- The table, and the fields of the states in memory. -/
structure Table where
  statetbl : StateKey → Option (List Nat)
  treeId : List Nat
  stateList : List Nat
  states : Int
  stateid : BitVec 64
  hostid : BitVec 32
  kif : Nat → Kif
  direction : Nat → Dir
  key : Idx → Nat → Option StateKey
  /-- `src.state` and `dst.state`. -/
  peers : Nat → BitVec 8 × BitVec 8
  /-- `id` and `creatorid`. -/
  id : Nat → BitVec 64 × BitVec 32
  /-- The timeout is `PFTM_UNLINKED`. -/
  unlinked : Nat → Bool
  tcpEst : Nat → Bool
  rule : Nat → Nat
  anchor : Nat → Option Nat
  matchRules : Nat → List Nat
  srcNodes : Nat → List Nat
  node : Nat → SrcNode
  srcTree : List Nat
  statesCur : Nat → Int
  /-- `timeout[PFTM_SRC_NODE]` of a rule, or the default. -/
  snTimeout : Nat → Nat
  timeSecond : Nat

/-! ## Source nodes -/

/-- One round of `pf_src_tree_remove_state`. -/
def dropSrcNode (t : Table) (s n : Nat) : Table :=
  let sn := t.node n
  { t with node := Function.update t.node n { sn with
      conn := if t.tcpEst s then sn.conn - 1 else sn.conn
      states := sn.states - 1
      expire := if sn.states - 1 ≤ 0 then t.timeSecond + t.snTimeout (t.rule s) else sn.expire } }

def pfSrcTreeRemoveState (t : Table) (s : Nat) : Table :=
  let t' := (t.srcNodes s).foldl (fun t n => dropSrcNode t s n) t
  { t' with srcNodes := Function.update t'.srcNodes s [] }

def pfRemoveSrcNode (t : Table) (n : Nat) : Table :=
  if 0 < (t.node n).states ∨ t.timeSecond < (t.node n).expire then t
  else if (t.node n).rule = none then t
  else { t with srcTree := t.srcTree.erase n }

/-! ## Keys -/

def pfStateKeyDetach (t : Table) (s : Nat) (idx : Idx) : Table :=
  match t.key idx s with
  | none => t
  | some k =>
    let states := ((t.statetbl k).getD []).erase s
    { t with
      statetbl := Function.update t.statetbl k (if states = [] then none else some states)
      key := Function.update t.key idx (Function.update (t.key idx) s none) }

/-- Without the second name of a key that is both. -/
def forgetWire (t : Table) (s : Nat) : Table :=
  if t.key .wire s = t.key .stack s then
    { t with key := Function.update t.key .wire (Function.update (t.key .wire) s none) }
  else t

def pfDetachState (t : Table) (s : Nat) : Table :=
  pfStateKeyDetach (pfStateKeyDetach (forgetWire t s) s .stack) s .wire

def pfUnlinkState (t : Table) (s : Nat) : Table :=
  let t := { t with treeId := t.treeId.erase s }
  let t := { t with unlinked := Function.update t.unlinked s true }
  pfDetachState (pfSrcTreeRemoveState t s) s

def tcpsFinWait2 : BitVec 8 := 9#8
def tcpsClosed : BitVec 8 := 0#8

/-- Both ends have closed. -/
def closing (t : Table) (s : Nat) : Bool :=
  decide (tcpsFinWait2 ≤ (t.peers s).1) && decide (tcpsFinWait2 ≤ (t.peers s).2)

/-- Two states of a key that stand in each other's way. -/
def sameIf (t : Table) (s s' : Nat) : Bool :=
  decide (t.kif s = t.kif s') && decide (t.direction s = t.direction s')

/-- The loop of `pf_state_key_attach` over the states of a key: a state in the way goes if
it is closing, or else there is a collision, `none`. -/
def attachScan (tcp : Bool) (s : Nat) : List Nat → Table → Option Nat → Table × Option (Option Nat)
  | [], t, olds => (t, some olds)
  | si :: rest, t, olds =>
    if sameIf t si s then
      if tcp && closing t si then
        attachScan tcp s rest
          { t with peers := Function.update t.peers si (tcpsClosed, tcpsClosed) } (some si)
      else (t, none)
    else attachScan tcp s rest t olds

/-- A state gets a key, which may be new in the tree. -/
def setKey (t : Table) (s : Nat) (idx : Idx) (k : StateKey) : Table :=
  { t with
    statetbl := Function.update t.statetbl k (some ((t.statetbl k).getD []))
    key := Function.update t.key idx (Function.update (t.key idx) s (some k)) }

/-- The list is sorted, if-bound states before floating. -/
def insertItem (t : Table) (s : Nat) (k : StateKey) : Table :=
  let states := (t.statetbl k).getD []
  let states := if t.kif s = .all then states ++ [s] else s :: states
  { t with statetbl := Function.update t.statetbl k (some states) }

/-- `itemOk` is what the pool of items answers. -/
def pfStateKeyAttach (t : Table) (sk : StateKey) (s : Nat) (idx : Idx) (itemOk : Bool) :
    Table × Bool :=
  match attachScan (sk.proto = ipprotoTcp) s ((t.statetbl sk).getD []) t none with
  | (t, none) => (t, false)
  | (t, some olds) =>
    let t := setKey t s idx sk
    if itemOk then
      let t := insertItem t s sk
      match olds with
      | none => (t, true)
      | some olds => (pfUnlinkState t olds, true)
    else (pfStateKeyDetach t s idx, false)

/-! ## States -/

/-- What the pool of items answers, for the two keys. -/
structure Items where
  wire : Bool := true
  stack : Bool := true
deriving DecidableEq, Repr

/-- What the callers of `pf_state_insert` put into a state. -/
structure NewState where
  direction : Dir
  peers : BitVec 8 × BitVec 8
  id : BitVec 64 × BitVec 32
  tcpEst : Bool
  rule : Nat
  anchor : Option Nat
  matchRules : List Nat
deriving DecidableEq, Repr

/-- A state from the pool; it comes zeroed, and so has no keys and no source nodes. -/
def newState (t : Table) (s : Nat) (n : NewState) : Table :=
  { t with
    direction := Function.update t.direction s n.direction
    key := fun idx => Function.update (t.key idx) s none
    peers := Function.update t.peers s n.peers
    id := Function.update t.id s n.id
    unlinked := Function.update t.unlinked s false
    tcpEst := Function.update t.tcpEst s n.tcpEst
    rule := Function.update t.rule s n.rule
    anchor := Function.update t.anchor s n.anchor
    matchRules := Function.update t.matchRules s n.matchRules
    srcNodes := Function.update t.srcNodes s [] }

/-- The part of `pf_state_insert` about the keys. `sks` is `none` if it is the same pointer
as `skw`. -/
def insertKeys (t : Table) (skw : StateKey) (sks : Option StateKey) (s : Nat) (items : Items) :
    Table × Bool :=
  match sks with
  | none =>
    match pfStateKeyAttach t skw s .wire items.wire with
    | (t, false) => (t, false)
    | (t, true) =>
      let stack := Function.update (t.key .stack) s (t.key .wire s)
      ({ t with key := Function.update t.key .stack stack }, true)
  | some sks =>
    match pfStateKeyAttach t skw s .wire items.wire with
    | (t, false) => (t, false)
    | (t, true) =>
      match pfStateKeyAttach t sks s .stack items.stack with
      | (t, false) => (pfStateKeyDetach t s .wire, false)
      | (t, true) => (t, true)

/-- A state without an id is given one. -/
def assignId (t : Table) (s : Nat) : Table :=
  if t.id s = (0#64, 0#32) then
    { t with
      id := Function.update t.id s (t.stateid, t.hostid)
      stateid := t.stateid + 1 }
  else t

def pfStateInsert (t : Table) (kif : Kif) (skw : StateKey) (sks : Option StateKey) (s : Nat)
    (items : Items) : Table × Bool :=
  match insertKeys { t with kif := Function.update t.kif s kif } skw sks s items with
  | (t, false) => (t, false)
  | (t, true) =>
    let t := assignId t s
    if t.treeId.any fun s' => t.id s' = t.id s then (pfDetachState t s, false)
    else ({ t with
      treeId := t.treeId ++ [s]
      stateList := t.stateList ++ [s]
      states := t.states + 1 }, true)

/-- `STATE_DEC_COUNTERS`, with `d` for `STATE_INC_COUNTERS`. -/
def countRules (t : Table) (s : Nat) (d : Int) : Table :=
  let rules := t.rule s :: ((t.anchor s).toList ++ t.matchRules s)
  { t with statesCur := rules.foldl (fun cur r => Function.update cur r (cur r + d)) t.statesCur }

/-- `none` is the failed assertion that the state is unlinked; `inUse` is what pfsync says. -/
def pfFreeState (t : Table) (s : Nat) (inUse : Bool) : Option Table :=
  if inUse then some t
  else if t.unlinked s then
    let t := countRules t s (-1)
    some { t with stateList := t.stateList.erase s, states := t.states - 1 }
  else none

end Obsd.PfState
