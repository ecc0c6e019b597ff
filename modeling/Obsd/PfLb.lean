import Obsd.PfState

/-!
# Address pools of pf

`pf_map_addr` of `net/pf_lb.c` picks the address that a packet is translated
to: by the type of the pool, with a counter that is kept from call to call,
and with a source node that remembers the choice where the pool is sticky.
The source nodes (`pf_insert_src_node`, `pf_remove_src_node` of `net/pf.c`)
are known by their addresses in memory; the tree is the list of those in it.

What the code takes from elsewhere is in `Env`: random words, the time, what
the pool of nodes answers, and `pfr_pool_get`, which looks into tables.
Left out are statistics, logging, the connection rates of source nodes and
the rules that `pf_rm_rule` frees.
-/

namespace Obsd.PfLb

open PfState (Af)

/-! ## Addresses -/

/-- A `struct pf_addr` as its `addr32`, words as they lie in memory. -/
structure Addr where
  w0 : BitVec 32
  w1 : BitVec 32
  w2 : BitVec 32
  w3 : BitVec 32
deriving DecidableEq, Repr

def Addr.zero : Addr := ⟨0#32, 0#32, 0#32, 0#32⟩

/-- `htonl` and `ntohl`, which is the same. -/
def htonl (bigEndian : Bool) (x : BitVec 32) : BitVec 32 :=
  if bigEndian then x
  else x.extractLsb' 0 8 ++ x.extractLsb' 8 8 ++ x.extractLsb' 16 8 ++ x.extractLsb' 24 8

/-- `PF_ACPY` -/
def pfAddrcpy (dst src : Addr) (af : Af) : Addr :=
  match af with
  | .inet => { dst with w0 := src.w0 }
  | .inet6 => src

/-- `PF_AEQ` -/
def pfAeq (a b : Addr) (af : Af) : Bool :=
  match af with
  | .inet => a.w0 == b.w0
  | .inet6 => a.w3 == b.w3 && a.w2 == b.w2 && a.w1 == b.w1 && a.w0 == b.w0

/-- `PF_AZERO` -/
def pfAzero (a : Addr) (af : Af) : Bool :=
  match af with
  | .inet => a.w0 == 0#32
  | .inet6 => a.w0 == 0#32 && a.w1 == 0#32 && a.w2 == 0#32 && a.w3 == 0#32

def pfMatchAddr (n : Bool) (a m b : Addr) (af : Af) : Bool :=
  let isMatch := match af with
    | .inet => (a.w0 &&& m.w0) == (b.w0 &&& m.w0)
    | .inet6 => (a.w0 &&& m.w0) == (b.w0 &&& m.w0) && (a.w1 &&& m.w1) == (b.w1 &&& m.w1)
        && (a.w2 &&& m.w2) == (b.w2 &&& m.w2) && (a.w3 &&& m.w3) == (b.w3 &&& m.w3)
  if isMatch then !n else n

/-- A word of the pool with the rest of another one. -/
def poolWord (raddr rmask saddr : BitVec 32) : BitVec 32 :=
  (raddr &&& rmask) ||| ((rmask ^^^ 0xffffffff#32) &&& saddr)

def pfPoolmask (naddr raddr rmask saddr : Addr) (af : Af) : Addr :=
  match af with
  | .inet => { naddr with w0 := poolWord raddr.w0 rmask.w0 saddr.w0 }
  | .inet6 =>
    ⟨poolWord raddr.w0 rmask.w0 saddr.w0, poolWord raddr.w1 rmask.w1 saddr.w1,
      poolWord raddr.w2 rmask.w2 saddr.w2, poolWord raddr.w3 rmask.w3 saddr.w3⟩

def pfAddrInc (bigEndian : Bool) (addr : Addr) (af : Af) : Addr :=
  let inc := fun x => htonl bigEndian (htonl bigEndian x + 1#32)
  match af with
  | .inet => { addr with w0 := inc addr.w0 }
  | .inet6 =>
    if addr.w3 = 0xffffffff#32 then
      if addr.w2 = 0xffffffff#32 then
        if addr.w1 = 0xffffffff#32 then ⟨inc addr.w0, 0#32, 0#32, 0#32⟩
        else { addr with w3 := 0#32, w2 := 0#32, w1 := inc addr.w1 }
      else { addr with w3 := 0#32, w2 := inc addr.w2 }
    else { addr with w3 := inc addr.w3 }

/-- The macro `mix`. -/
def mix (a b c : BitVec 32) : BitVec 32 × BitVec 32 × BitVec 32 :=
  let a := (a - b - c) ^^^ (c >>> 13)
  let b := (b - c - a) ^^^ (a <<< 8)
  let c := (c - a - b) ^^^ (b >>> 13)
  let a := (a - b - c) ^^^ (c >>> 12)
  let b := (b - c - a) ^^^ (a <<< 16)
  let c := (c - a - b) ^^^ (b >>> 5)
  let a := (a - b - c) ^^^ (c >>> 3)
  let b := (b - c - a) ^^^ (a <<< 10)
  let c := (c - a - b) ^^^ (b >>> 15)
  (a, b, c)

def pfHash (inaddr hash key : Addr) (af : Af) : Addr :=
  let a := 0x9e3779b9#32
  let b := 0x9e3779b9#32
  let c := key.w0
  match af with
  | .inet =>
    let (_, _, c) := mix (a + inaddr.w0) (b + key.w1) c
    { hash with w0 := c + key.w2 }
  | .inet6 =>
    let (a, b, c₀) := mix (a + inaddr.w0) (b + inaddr.w2) c
    let (a, b, c₁) := mix (a + inaddr.w1) (b + inaddr.w3) (c₀ + key.w1)
    let (a, b, c₂) := mix (a + inaddr.w2) (b + inaddr.w1) (c₁ + key.w2)
    let (_, _, c₃) := mix (a + inaddr.w3) (b + inaddr.w0) (c₂ + key.w3)
    ⟨c₀, c₁, c₂, c₃⟩

/-! ## Pools and source nodes -/

inductive PoolType where
  | none | bitmask | random | srchash | roundrobin
deriving DecidableEq, Repr

inductive AddrType where
  | addrmask | noroute | dyniftl | table | rtlabel | urpffailed | range | none
deriving DecidableEq, Repr

/-- A `struct pfi_dynaddr`: the addresses of an interface. -/
structure Dyn where
  acnt4 : Int := 0
  acnt6 : Int := 0
  addr4 : Addr := .zero
  mask4 : Addr := .zero
  addr6 : Addr := .zero
  mask6 : Addr := .zero
  kt : Nat := 0
deriving DecidableEq, Repr

/-- A `struct pf_pool`; its `opts` are a type and a flag. -/
structure Pool where
  addrType : AddrType
  addr : Addr
  mask : Addr
  dyn : Dyn := {}
  tbl : Nat := 0
  key : Addr := .zero
  counter : Addr := .zero
  kif : Option Nat := .none
  tblidx : Int := 0
  proxyPort : BitVec 16 × BitVec 16 := (0#16, 0#16)
  type : PoolType
  sticky : Bool := false
deriving DecidableEq, Repr

inductive SnType where
  | none | nat | rdr | route
deriving DecidableEq, Repr

/-- A `struct pf_src_node`. -/
structure SrcNode where
  rule : Option Nat
  type : SnType
  af : Af
  addr : Addr
  raddr : Addr
  states : BitVec 32
  expire : BitVec 32
deriving DecidableEq, Repr

/-- What a rule says about source nodes. -/
structure PfRule where
  id : Nat
  maxSrcNodes : BitVec 32 := 0#32
  maxSrcStates : BitVec 32 := 0#32
deriving DecidableEq, Repr

/-- The nodes in memory, those in `tree_src_tracking`, the number of nodes of each rule and
the array `sns`. -/
structure Tracking where
  node : Nat → SrcNode
  tree : List Nat
  srcNodes : Nat → BitVec 32
  sns : SnType → Option Nat

/-- What `pfr_pool_get` leaves in the pool, and whether it failed. -/
structure PoolGet where
  fail : Bool
  tblidx : Int
  counter : Addr
  kif : Option Nat

structure Env where
  bigEndian : Bool := false
  timeSecond : BitVec 32 := 0#32
  /-- What `arc4random` returns for each of the words. -/
  arc4random : Addr
  /-- The node that `pool_get` finds, if there is one. -/
  poolGet : Option Nat
  pfrPoolGet : Nat → Int → Addr → Option Nat → Af → PoolGet
  /-- What happens to be on the stack. -/
  junk : Addr := .zero

/-- Equal for `pf_src_compare`. -/
def sameNode (n : SrcNode) (rule : Option Nat) (type : SnType) (af : Af) (addr : Addr) : Bool :=
  n.rule == rule && n.type == type && n.af == af && pfAeq n.addr addr af

/-- `RB_FIND(pf_src_tree, &tree_src_tracking, &k)` -/
def srcFind (t : Tracking) (rule : Option Nat) (type : SnType) (af : Af) (addr : Addr) :
    Option Nat :=
  t.tree.find? fun n => sameNode (t.node n) rule type af addr

def setSn (t : Tracking) (type : SnType) (n : Option Nat) : Tracking :=
  { t with sns := Function.update t.sns type n }

def pfRemoveSrcNode (env : Env) (t : Tracking) (n : Nat) : Tracking :=
  if 0#32 < (t.node n).states ∨ env.timeSecond < (t.node n).expire then t
  else match (t.node n).rule with
    | none => t
    | some r => { t with
        srcNodes := Function.update t.srcNodes r (t.srcNodes r - 1#32)
        tree := t.tree.erase n }

/-- Whether it fails is the second component. -/
def pfInsertSrcNode (env : Env) (t : Tracking) (rule : PfRule) (type : SnType) (af : Af)
    (src raddr : Addr) (global : Bool) : Tracking × Bool :=
  let owner := if global then none else some rule.id
  let t := match t.sns type with
    | some _ => t
    | none => setSn t type (srcFind t owner type af src)
  match t.sns type with
  | none =>
    if rule.maxSrcNodes = 0#32 ∨ t.srcNodes rule.id < rule.maxSrcNodes then
      match env.poolGet with
      | none => (t, true)
      | some n =>
        -- the key is not in the tree, so RB_INSERT meets no other node
        let node : SrcNode := ⟨owner, type, af, pfAddrcpy .zero src af, pfAddrcpy .zero raddr af,
          0#32, 0#32⟩
        let t := setSn t type (some n)
        ({ t with
          node := Function.update t.node n node
          tree := n :: t.tree
          srcNodes := match owner with
            | none => t.srcNodes
            | some r => Function.update t.srcNodes r (t.srcNodes r + 1#32) }, false)
    else (t, true)
  | some n =>
    if rule.maxSrcStates ≠ 0#32 ∧ rule.maxSrcStates ≤ (t.node n).states then (t, true)
    else (t, false)

/-! ## `pf_map_addr` -/

/-- What a call leaves behind. -/
structure Mapped where
  fail : Bool
  naddr : Addr
  initAddr : Option Addr
  pool : Pool
  src : Tracking

/-- The address and the mask to go by, unless the pool has none. -/
def poolAddr (af : Af) (rpool : Pool) : Option (Addr × Addr) :=
  match rpool.addrType with
  | .noroute => none
  | .dyniftl =>
    match af with
    | .inet =>
      if rpool.dyn.acnt4 < 1 ∧ rpool.type ≠ .roundrobin then none
      else some (rpool.dyn.addr4, rpool.dyn.mask4)
    | .inet6 =>
      if rpool.dyn.acnt6 < 1 ∧ rpool.type ≠ .roundrobin then none
      else some (rpool.dyn.addr6, rpool.dyn.mask6)
  | .table => if rpool.type ≠ .roundrobin then none else some (rpool.addr, rpool.mask)
  | _ => some (rpool.addr, rpool.mask)

/-- The counter of a random pool starts anew; with IPv6, in the words from the last one on
that the mask leaves open. -/
def randomCounter (env : Env) (counter rmask : Addr) (af : Af) : Addr :=
  let new := fun x => htonl env.bigEndian x
  match af with
  | .inet => { counter with w0 := new env.arc4random.w0 }
  | .inet6 =>
    if rmask.w3 = 0xffffffff#32 then counter
    else
      let counter := { counter with w3 := new env.arc4random.w3 }
      if rmask.w2 = 0xffffffff#32 then counter
      else
        let counter := { counter with w2 := new env.arc4random.w2 }
        if rmask.w1 = 0xffffffff#32 then counter
        else
          let counter := { counter with w1 := new env.arc4random.w1 }
          if rmask.w0 = 0xffffffff#32 then counter
          else { counter with w0 := new env.arc4random.w0 }

/-- `init_addr != NULL && PF_AZERO(init_addr, af)` -/
def initZero (initAddr : Option Addr) (af : Af) : Bool :=
  match initAddr with
  | none => false
  | some a => pfAzero a af

/-- `PF_ACPY(init_addr, naddr, af)` if it is there and zero. -/
def setInit (initAddr : Option Addr) (naddr : Addr) (af : Af) : Option Addr :=
  if initZero initAddr af then initAddr.map fun a => pfAddrcpy a naddr af else initAddr

/-- Before the address is taken from the counter: whether there is none to take. -/
def roundRobin (env : Env) (rpool : Pool) (raddr rmask : Addr) (af : Af) : Pool × Bool :=
  let look := fun kt =>
    let g := env.pfrPoolGet kt rpool.tblidx rpool.counter rpool.kif af
    ({ rpool with tblidx := g.tblidx, counter := g.counter, kif := g.kif }, g.fail)
  match rpool.addrType with
  | .table => look rpool.tbl
  | .dyniftl => look rpool.dyn.kt
  | _ => (rpool, pfMatchAddr false raddr rmask rpool.counter af)

/-- The switch on the type of the pool: the address, `init_addr`, the pool, and whether it
failed. -/
def selectAddr (env : Env) (af : Af) (saddr naddr : Addr) (initAddr : Option Addr) (rpool : Pool)
    (raddr rmask : Addr) : Addr × Option Addr × Pool × Bool :=
  match rpool.type with
  | .none => (pfAddrcpy naddr raddr af, initAddr, rpool, false)
  | .bitmask => (pfPoolmask naddr raddr rmask saddr af, initAddr, rpool, false)
  | .random =>
    if initZero initAddr af then
      let counter := randomCounter env rpool.counter rmask af
      let naddr := pfPoolmask naddr raddr rmask counter af
      (naddr, setInit initAddr naddr af, { rpool with counter }, false)
    else
      let counter := pfAddrInc env.bigEndian rpool.counter af
      (pfPoolmask naddr raddr rmask counter af, initAddr, { rpool with counter }, false)
  | .srchash =>
    let hash := pfHash saddr env.junk rpool.key af
    (pfPoolmask naddr raddr rmask hash af, initAddr, rpool, false)
  | .roundrobin =>
    let (rpool, fail) := roundRobin env rpool raddr rmask af
    if fail then (naddr, initAddr, rpool, true)
    else
      let naddr := pfAddrcpy naddr rpool.counter af
      (naddr, setInit initAddr naddr af,
        { rpool with counter := pfAddrInc env.bigEndian rpool.counter af }, false)

/-- The node of an earlier choice; it is looked for if there is none in `sns` yet. -/
def stickyEntry (t : Tracking) (af : Af) (r : PfRule) (saddr : Addr) (rpool : Pool)
    (type : SnType) : Option Nat :=
  if t.sns type = none ∧ rpool.sticky = true ∧ rpool.type ≠ .none then
    srcFind t (some r.id) type af saddr
  else none

/-- The node of the last choice goes before a new one is made. -/
def dropSrcNode (env : Env) (t : Tracking) (type : SnType) : Tracking :=
  match t.sns type with
  | none => t
  | some n => setSn (pfRemoveSrcNode env t n) type none

def pfMapAddr (env : Env) (t : Tracking) (af : Af) (r : PfRule) (saddr naddr : Addr)
    (initAddr : Option Addr) (rpool : Pool) (type : SnType) : Mapped :=
  match stickyEntry t af r saddr rpool type with
  | some n =>
    let raddr := (t.node n).raddr
    let naddr := if !pfAzero raddr af then pfAddrcpy naddr raddr af else naddr
    ⟨false, naddr, initAddr, rpool, setSn t type (some n)⟩
  | none =>
    match poolAddr af rpool with
    | none => ⟨true, naddr, initAddr, rpool, t⟩
    | some (raddr, rmask) =>
      let (naddr, initAddr, rpool, fail) := selectAddr env af saddr naddr initAddr rpool raddr rmask
      if fail then ⟨true, naddr, initAddr, rpool, t⟩
      else if rpool.sticky then
        let (t, fail) := pfInsertSrcNode env (dropSrcNode env t type) r type af saddr naddr false
        ⟨fail, naddr, initAddr, rpool, t⟩
      else ⟨false, naddr, initAddr, rpool, t⟩

end Obsd.PfLb
