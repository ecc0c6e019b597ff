import Mathlib

/-!
# Evaluation of filter rules

The rules of `net/pf.c` and the loop of `pf_test_rule` that finds the last
one a packet matches. When a rule fails one of nine tests the loop goes on
at the first rule behind it that differs in what the test looks at, which
`pf_calc_skip_steps` has computed. A rule may call an anchor, whose rules
are then evaluated in its place; the loop keeps a stack of the calls.

Addresses and ports are taken in host order. What a test asks of the rest
of the system (tables, routes, sockets, the random numbers, the memory for
the list of match rules, the translation of addresses) is a `World`.
-/

namespace Obsd.Pf

/-! ## Addresses and ports -/

abbrev Af := BitVec 8

def afInet : Af := 2#8
def afInet6 : Af := 24#8

structure PfAddr where
  a0 : BitVec 32
  a1 : BitVec 32
  a2 : BitVec 32
  a3 : BitVec 32
deriving DecidableEq, Repr

def PfAddr.and (a m : PfAddr) : PfAddr := ⟨a.a0 &&& m.a0, a.a1 &&& m.a1, a.a2 &&& m.a2, a.a3 &&& m.a3⟩

/-- `PF_AZERO` -/
def PfAddr.zero (a : PfAddr) (af : Af) : Bool :=
  (af == afInet && a.a0 == 0#32)
    || (af == afInet6 && a.a0 == 0#32 && a.a1 == 0#32 && a.a2 == 0#32 && a.a3 == 0#32)

/-- `PF_MATCHA` with `n` 0. -/
def pfMatchAddr (a m b : PfAddr) (af : Af) : Bool :=
  if af = afInet then (a.and m).a0 == (b.and m).a0
  else if af = afInet6 then a.and m == b.and m
  else false

/-- The two loops over the words of an IPv6 address: the first that differs decides. -/
def leWords : List (BitVec 32 × BitVec 32) → Bool
  | [] => true
  | (x, y) :: rest => if x.toNat < y.toNat then true else if y.toNat < x.toNat then false else leWords rest

def pfMatchAddrRange (b e a : PfAddr) (af : Af) : Bool :=
  if af = afInet then !(decide (a.a0.toNat < b.a0.toNat) || decide (a.a0.toNat > e.a0.toNat))
  else if af = afInet6 then
    leWords [(b.a0, a.a0), (b.a1, a.a1), (b.a2, a.a2), (b.a3, a.a3)]
      && leWords [(a.a0, e.a0), (a.a1, e.a1), (a.a2, e.a2), (a.a3, e.a3)]
  else true

inductive Op where
  | none
  | irg
  | eq
  | ne
  | lt
  | le
  | gt
  | ge
  | xrg
  | rrg
  | other (op : BitVec 8)
deriving DecidableEq, Repr

def pfMatch (op : Op) (a1 a2 p : Nat) : Bool :=
  match op with
  | .irg => p > a1 && p < a2
  | .xrg => p < a1 || p > a2
  | .rrg => p ≥ a1 && p ≤ a2
  | .eq => p == a1
  | .ne => p != a1
  | .lt => p < a1
  | .le => p ≤ a1
  | .gt => p > a1
  | .ge => p ≥ a1
  | .none | .other _ => false

def pfMatchPort (op : Op) (a1 a2 p : BitVec 16) : Bool := pfMatch op a1.toNat a2.toNat p.toNat

/-- `pf_match_uid` and `pf_match_gid`; the highest number stands for no socket. -/
def pfMatchId (op : Op) (a1 a2 u : BitVec 32) : Bool :=
  if u = BitVec.allOnes 32 ∧ op ≠ .eq ∧ op ≠ .ne then false else pfMatch op a1.toNat a2.toNat u.toNat

/-! ## Rules -/

/-- The address of an interface. What it stands for is kept in a table. -/
structure Dynaddr where
  pfidKt : Nat
  pfidAf : Af
deriving DecidableEq, Repr

inductive AddrWrap where
  | addrmask (addr mask : PfAddr)
  | range (addr mask : PfAddr)
  | dyniftl (dyn : Dynaddr)
  | none
  | noroute
  | urpffailed
  | table (tbl : Nat)
  | rtlabel (rtlabel : BitVec 32)
  | invalid (type : BitVec 8)
deriving DecidableEq, Repr

/-- `pfi_dynaddr_setup` is given the address family of the rule. -/
def AddrWrap.dynOf (af : Af) : AddrWrap → Bool
  | .dyniftl dyn => dyn.pfidAf == af
  | _ => true

structure RuleAddr where
  addr : AddrWrap := .addrmask ⟨0#32, 0#32, 0#32, 0#32⟩ ⟨0#32, 0#32, 0#32, 0#32⟩
  port : BitVec 16 × BitVec 16 := (0#16, 0#16)
  neg : Bool := false
  portOp : Op := .none
deriving DecidableEq, Repr

/-- A `struct pf_rule`, as far as the loop reads it. -/
structure Rule where
  src : RuleAddr := {}
  dst : RuleAddr := {}
  kif : Option Nat := none
  rcvKif : Option Nat := none
  anchor : Option Nat := none
  /-- 0 is `PF_OSFP_ANY`. -/
  osFingerprint : BitVec 32 := 0#32
  rtableid : Int := -1
  onrdomain : Int := -1
  qid : BitVec 32 := 0#32
  pqid : BitVec 32 := 0#32
  prob : BitVec 32 := 0#32
  maxMss : BitVec 16 := 0#16
  tag : BitVec 16 := 0#16
  matchTag : BitVec 16 := 0#16
  scrubFlags : BitVec 16 := 0#16
  uid : Op × BitVec 32 × BitVec 32 := (.none, 0#32, 0#32)
  gid : Op × BitVec 32 × BitVec 32 := (.none, 0#32, 0#32)
  ruleFlag : BitVec 32 := 0#32
  /-- The action is `PF_MATCH`. -/
  isMatch : Bool := false
  direction : BitVec 8 := 0#8
  log : BitVec 8 := 0#8
  quick : Bool := false
  ifnot : Bool := false
  matchTagNot : Bool := false
  af : Af := 0#8
  proto : BitVec 8 := 0#8
  type : BitVec 8 := 0#8
  code : BitVec 8 := 0#8
  flags : BitVec 8 := 0#8
  flagset : BitVec 8 := 0#8
  minTtl : BitVec 8 := 0#8
  tos : BitVec 8 := 0#8
  setTos : BitVec 8 := 0#8
  anchorWildcard : Bool := false
  src_dyn : src.addr.dynOf af = true := by decide
  dst_dyn : dst.addr.dynOf af = true := by decide

/-- The criteria of the skip steps, in the order of the tests. -/
inductive Skip where
  | ifp
  | dir
  | rdom
  | af
  | proto
  | srcAddr
  | srcPort
  | dstAddr
  | dstPort
deriving DecidableEq, Repr

def Skip.all : List Skip := [.ifp, .dir, .rdom, .af, .proto, .srcAddr, .srcPort, .dstAddr, .dstPort]

/-! ## Skip steps -/

def pfAddrWrapNeq : AddrWrap → AddrWrap → Bool
  | .addrmask a1 m1, .addrmask a2 m2 => a1 != a2 || m1 != m2
  | .range a1 m1, .range a2 m2 => a1 != a2 || m1 != m2
  | .dyniftl d1, .dyniftl d2 => d1.pfidKt != d2.pfidKt
  | .none, .none => false
  | .noroute, .noroute => false
  | .urpffailed, .urpffailed => false
  | .table t1, .table t2 => t1 != t2
  | .rtlabel l1, .rtlabel l2 => l1 != l2
  -- the types differ, or there is no such type
  | _, _ => true

/-- What the rules differ in. -/
def differs (cur prev : Rule) : Skip → Bool
  | .ifp => cur.kif != prev.kif || cur.ifnot != prev.ifnot
  | .dir => cur.direction != prev.direction
  | .rdom => cur.onrdomain != prev.onrdomain || cur.ifnot != prev.ifnot
  | .af => cur.af != prev.af
  | .proto => cur.proto != prev.proto
  | .srcAddr => cur.src.neg != prev.src.neg || pfAddrWrapNeq cur.src.addr prev.src.addr
  | .srcPort => cur.src.port.1 != prev.src.port.1 || cur.src.port.2 != prev.src.port.2
      || cur.src.portOp != prev.src.portOp
  | .dstAddr => cur.dst.neg != prev.dst.neg || pfAddrWrapNeq cur.dst.addr prev.dst.addr
  | .dstPort => cur.dst.port.1 != prev.dst.port.1 || cur.dst.port.2 != prev.dst.port.2
      || cur.dst.portOp != prev.dst.portOp

/-- Rules are numbered from 0 in the list; the number behind the last is `NULL`. -/
structure Steps where
  head : Skip → Nat := fun _ => 0
  skip : Nat → Skip → Nat := fun _ _ => 0

/-- `PF_SET_SKIP_STEPS`, for the `n` rules from `head[i]` up to `cur`. -/
def setSkipSteps (i : Skip) (cur : Nat) : (n : Nat) → Steps → Steps
  | 0, st => st
  | n + 1, st =>
    setSkipSteps i cur n
      { head := Function.update st.head i (st.head i + 1)
        skip := Function.update st.skip (st.head i) (Function.update (st.skip (st.head i)) i cur) }

/-- One iteration for the rule `cur`, whose number is `k`. -/
def skipStep (prev cur : Rule) (k : Nat) (st : Steps) : Steps :=
  Skip.all.foldl (fun st i => if differs cur prev i then setSkipSteps i k (k - st.head i) st else st) st

def skipLoop : (prev : Rule) → (rest : List Rule) → (k : Nat) → Steps → Steps
  | _, [], k, st => Skip.all.foldl (fun st i => setSkipSteps i k (k - st.head i) st) st
  | prev, cur :: rest, k, st => skipLoop cur rest (k + 1) (skipStep prev cur k st)

def pfCalcSkipSteps : List Rule → Steps
  | [] => {}
  | cur :: rest => skipLoop cur (cur :: rest) 0 {}

/-! ## The packet and the world -/

structure Lookup where
  done : Bool := false
  uid : BitVec 32 := BitVec.allOnes 32
  gid : BitVec 32 := BitVec.allOnes 32
deriving DecidableEq, Repr

/-- What of the `struct pf_pdesc` the loop reads. -/
structure Pdesc where
  proto : BitVec 8
  tos : BitVec 8
  rdomain : Int
  nsaddr : PfAddr
  ndaddr : PfAddr
  nsport : BitVec 16
  ndport : BitVec 16
  lookup : Lookup := {}
deriving DecidableEq, Repr

structure Packet where
  af : Af
  direction : BitVec 8
  kif : Nat
  /-- The interface it was received on, if there is one. -/
  rcvKif : Option Nat
  /-- `m_pkthdr.pf.tag` -/
  mtag : BitVec 16
  icmptype : BitVec 8
  icmpcode : BitVec 8
  thFlags : BitVec 8
deriving Repr

structure World (σ : Type) where
  /-- The group an interface entry stands for, and the groups an interface is in. -/
  pfikGroup : Nat → Option Nat
  ifGroups : Nat → List Nat
  pfRoutable : PfAddr → Af → Option Nat → Int → Bool
  pfRtlabelMatch : PfAddr → Af → BitVec 32 → Int → Bool
  pfrMatchAddr : Nat → PfAddr → Af → Bool
  /-- The addresses and masks of a table. -/
  entries : Nat → Af → List (PfAddr × PfAddr)
  pfSocketLookup : Pdesc → Lookup
  /-- The random numbers, from 1 on, and whether there is memory, call by call. -/
  random : Nat → BitVec 32
  poolGet : Nat → Bool
  osfpMatch : BitVec 32 → Bool
  pfGetTransaddr : Rule → Pdesc → σ → Option (Pdesc × σ)
  defaultRule : Rule

section
variable {σ : Type} (w : World σ)

def pfiKifMatch (ruleKif : Option Nat) (packetKif : Nat) : Bool :=
  match ruleKif with
  | none => true
  | some kif => kif == packetKif ||
    match w.pfikGroup kif with
    | none => false
    | some group => (w.ifGroups packetKif).contains group

/-- `pfi_match_addr`, with the number and the first of the addresses as `pfr_dynaddr_update`
sets them. -/
def pfiMatchAddr (dyn : Dynaddr) (a : PfAddr) (af : Af) : Bool :=
  if af = afInet ∨ af = afInet6 then
    match if dyn.pfidAf = 0#8 ∨ dyn.pfidAf = af then w.entries dyn.pfidKt af else [] with
    | [] => false
    | [(addr, mask)] => pfMatchAddr addr mask a af
    | _ => w.pfrMatchAddr dyn.pfidKt a af
  else false

/-- `PF_MISMATCHAW` -/
def pfMismatchaw (aw : AddrWrap) (x : PfAddr) (af : Af) (neg : Bool) (ifp : Option Nat) (rtid : Int) : Bool :=
  (match aw with
    | .noroute => w.pfRoutable x af none rtid
    | .urpffailed => ifp.isSome && w.pfRoutable x af ifp rtid
    | .rtlabel l => !w.pfRtlabelMatch x af l rtid
    | .table tbl => !w.pfrMatchAddr tbl x af
    | .dyniftl dyn => !pfiMatchAddr w dyn x af
    | .range addr mask => !pfMatchAddrRange addr mask x af
    | .addrmask addr mask => !mask.zero af && !pfMatchAddr addr mask x af
    | .none | .invalid _ => false) != neg

/-! ## The state of the loop -/

/-- A rule is known by its list and its place in it. -/
abbrev RulePtr := Nat × Nat

structure Anchor where
  ruleset : Nat
  /-- In the order of the tree. -/
  children : List Nat

/-- The active rules of each ruleset, with the main ruleset as number 0. -/
structure Config where
  rules : Nat → List Rule
  anchors : Nat → Anchor

structure Actions where
  rtableid : Int
  qid : BitVec 16 := 0#16
  pqid : BitVec 16 := 0#16
  maxMss : BitVec 16 := 0#16
  log : BitVec 8 := 0#8
  setTos : BitVec 8 := 0#8
  minTtl : BitVec 8 := 0#8
  flags : BitVec 16 := 0#16

/-- A `struct pf_anchor_stackframe`; for a wildcard the children behind `child` are at hand. -/
structure Frame where
  rs : Option Nat
  r : RulePtr
  /-- `f->r->anchor` -/
  anchor : Nat
  child : Option Nat := none
  rest : List Nat := []

/-- The variables of `pf_test_rule`; `asd` is the length of the stack. No `rm` is
`pf_default_rule`. -/
structure Eval (σ : Type) where
  r : Option RulePtr
  a : Option RulePtr := none
  ruleset : Option Nat := none
  rm : Option RulePtr := none
  am : Option RulePtr := none
  rsm : Option Nat := none
  /-- The match rules, last one first. -/
  rules : List RulePtr := []
  pd : Pdesc
  act : Actions
  sns : σ
  tag : Int := -1
  isMatch : Bool := false
  stack : List Frame := []
  /-- `anchor->match` -/
  anchorMatch : Nat → Bool := fun _ => false
  randoms : Nat := 0
  pools : Nat := 0

namespace Config

variable (cfg : Config)

/-- `TAILQ_FIRST` -/
def first (rs : Nat) : Option RulePtr := if 0 < (cfg.rules rs).length then some (rs, 0) else none

def ptr (rs i : Nat) : Option RulePtr := if i < (cfg.rules rs).length then some (rs, i) else none

/-- `TAILQ_NEXT` -/
def next (p : RulePtr) : Option RulePtr := cfg.ptr p.1 (p.2 + 1)

/-- `r->skip[i].ptr` -/
def skip (p : RulePtr) (i : Skip) : Option RulePtr := cfg.ptr p.1 ((pfCalcSkipSteps (cfg.rules p.1)).skip p.2 i)

end Config

variable (cfg : Config) (pkt : Packet)

def Config.rule (p : RulePtr) : Rule := (cfg.rules p.1)[p.2]?.getD w.defaultRule

/-! ## Tests -/

/-- The tests with a skip step. -/
def fails (r : Rule) (s : Eval σ) : Skip → Bool
  | .ifp => pfiKifMatch w r.kif pkt.kif == r.ifnot
  | .dir => r.direction != 0#8 && r.direction != pkt.direction
  | .rdom => decide (r.onrdomain ≥ 0) && decide (r.onrdomain = s.pd.rdomain) == r.ifnot
  | .af => r.af != 0#8 && r.af != pkt.af
  | .proto => r.proto != 0#8 && r.proto != s.pd.proto
  | .srcAddr => pfMismatchaw w r.src.addr s.pd.nsaddr pkt.af r.src.neg (some pkt.kif) s.act.rtableid
  | .srcPort => r.src.portOp != .none && !pfMatchPort r.src.portOp r.src.port.1 r.src.port.2 s.pd.nsport
  | .dstAddr => pfMismatchaw w r.dst.addr s.pd.ndaddr pkt.af r.dst.neg none s.act.rtableid
  | .dstPort => r.dst.portOp != .none && !pfMatchPort r.dst.portOp r.dst.port.1 r.dst.port.2 s.pd.ndport

def firstFail (r : Rule) (s : Eval σ) : Option Skip := Skip.all.find? (fails w pkt r s)

/-- `pd->lookup.done || (pd->lookup.done = pf_socket_lookup(direction, pd), 1)`; whatever it
finds it has been done. -/
def lookup (s : Eval σ) : Eval σ :=
  if s.pd.lookup.done then s
  else { s with pd := { s.pd with lookup := { w.pfSocketLookup s.pd with done := true } } }

/-- The test of the tag takes it from the packet if no rule has set it. -/
def pfMatchTag (r : Rule) (s : Eval σ) : Bool × Eval σ :=
  let s := if s.tag = -1 then { s with tag := pkt.mtag.toNat } else s
  ((!r.matchTagNot && decide ((r.matchTag.toNat : Int) = s.tag))
    || (r.matchTagNot && decide ((r.matchTag.toNat : Int) ≠ s.tag)), s)

def pfMatchRcvif (r : Rule) : Bool :=
  match pkt.rcvKif with
  | none => false
  | some kif => pfiKifMatch w r.rcvKif kif

def pfruleFragment : BitVec 32 := 0x0002#32
def ipprotoTcp : BitVec 8 := 6#8

/-- The tests that look something up, each made only if the rule asks for it. -/
def lookupTests (r : Rule) (s : Eval σ) : Bool × Eval σ :=
  let s := if r.uid.1 ≠ .none then lookup w s else s
  if r.uid.1 ≠ .none ∧ ¬pfMatchId r.uid.1 r.uid.2.1 r.uid.2.2 s.pd.lookup.uid then (false, s)
  else
    let s := if r.gid.1 ≠ .none then lookup w s else s
    if r.gid.1 ≠ .none ∧ ¬pfMatchId r.gid.1 r.gid.2.1 r.gid.2.2 s.pd.lookup.gid then (false, s)
    else
      let n := s.randoms
      let s := if r.prob ≠ 0#32 then { s with randoms := n + 1 } else s
      if r.prob ≠ 0#32 ∧ r.prob.toNat ≤ (w.random n).toNat then (false, s)
      else
        let (tagged, s) := if r.matchTag ≠ 0#16 then pfMatchTag pkt r s else (true, s)
        if !tagged then (false, s)
        else if r.rcvKif ≠ none ∧ ¬pfMatchRcvif w pkt r then (false, s)
        else if r.osFingerprint ≠ 0#32 ∧ (s.pd.proto ≠ ipprotoTcp ∨ ¬w.osfpMatch r.osFingerprint) then (false, s)
        else (true, s)

/-- The other tests. -/
def restTests (r : Rule) (s : Eval σ) : Bool × Eval σ :=
  if r.type ≠ 0#8 ∧ r.type.toNat ≠ pkt.icmptype.toNat + 1 then (false, s)
  else if r.code ≠ 0#8 ∧ r.code.toNat ≠ pkt.icmpcode.toNat + 1 then (false, s)
  else if r.tos ≠ 0#8 ∧ r.tos ≠ s.pd.tos then (false, s)
  else if r.ruleFlag &&& pfruleFragment ≠ 0#32 then (false, s)
  else if s.pd.proto = ipprotoTcp ∧ r.flagset &&& pkt.thFlags ≠ r.flags then (false, s)
  else lookupTests w pkt r s

/-! ## Anchors -/

def stackLimit : Nat := 64

def pfStepIntoAnchor (s : Eval σ) (p : RulePtr) (wildcard : Bool) (anchor : Nat) : Eval σ :=
  let s := { s with anchorMatch := Function.update s.anchorMatch anchor false, isMatch := false }
  if s.stack.length ≥ stackLimit then { s with r := cfg.next p }
  else
    let s := if s.stack.length = 0 then { s with a := some p } else s
    let f : Frame := { rs := s.ruleset, r := p, anchor := anchor }
    if wildcard then
      match (cfg.anchors anchor).children with
      | [] => { s with stack := f :: s.stack, r := none }
      | child :: rest =>
        let rs := (cfg.anchors child).ruleset
        { s with
          stack := { f with child := some child, rest := rest } :: s.stack
          ruleset := some rs
          r := cfg.first rs }
    else
      let rs := (cfg.anchors anchor).ruleset
      { s with stack := f :: s.stack, ruleset := some rs, r := cfg.first rs }

/-- Leaving the anchor for good. -/
def popFrame (s : Eval σ) (f : Frame) (fs : List Frame) (quick : Bool) : Eval σ × Bool :=
  ({ s with
      stack := fs
      a := if fs.length = 0 then none else s.a
      ruleset := f.rs
      r := cfg.next f.r },
    if s.anchorMatch f.anchor || s.isMatch then (cfg.rule w f.r).quick else quick)

/-- One iteration of `pf_step_out_of_anchor`: on to the next child of a wildcard, or back. -/
def stepOutBody (s : Eval σ) (f : Frame) (fs : List Frame) (quick : Bool) : Eval σ × Bool :=
  match f.child with
  | none => popFrame w cfg s f fs quick
  | some child =>
    let s :=
      if s.anchorMatch child || s.isMatch then
        { s with anchorMatch := Function.update s.anchorMatch f.anchor true, isMatch := false }
      else s
    match f.rest with
    | [] => popFrame w cfg s f fs quick
    | child :: rest =>
      let rs := (cfg.anchors child).ruleset
      ({ s with
          stack := { f with child := some child, rest := rest } :: fs
          ruleset := some rs
          r := cfg.first rs }, quick)

def stepOutLoop : (fuel : Nat) → Eval σ → (quick : Bool) → Eval σ × Bool
  | 0, s, quick => (s, quick)
  | fuel + 1, s, quick =>
    match s.stack with
    | [] => (s, quick)
    | f :: fs =>
      let (s, quick) := stepOutBody w cfg s f fs quick
      if s.r = none then stepOutLoop fuel s quick else (s, quick)

/-- Each iteration leaves a frame or a child behind. -/
def stackSize (stack : List Frame) : Nat := (stack.map fun f => f.rest.length + 1).sum

def pfStepOutOfAnchor (s : Eval σ) : Eval σ × Bool := stepOutLoop w cfg (stackSize s.stack) s false

/-! ## The loop -/

def pfstateSettos : BitVec 16 := 0x0040#16

/-- `PFSTATE_NODF|PFSTATE_RANDOMID|PFSTATE_SETTOS|PFSTATE_SCRUB_TCP` -/
def pfstateScrub : BitVec 16 := 0x01e0#16

def pfRuleToActions (r : Rule) (act : Actions) : Actions where
  rtableid := if r.rtableid ≥ 0 then r.rtableid else act.rtableid
  qid := if r.qid ≠ 0#32 then r.qid.setWidth 16 else act.qid
  pqid := if r.pqid ≠ 0#32 then r.pqid.setWidth 16 else act.pqid
  maxMss := if r.maxMss ≠ 0#16 then r.maxMss else act.maxMss
  log := act.log ||| r.log
  setTos := if r.scrubFlags &&& pfstateSettos ≠ 0#16 then r.setTos else act.setTos
  minTtl := if r.minTtl ≠ 0#8 then r.minTtl else act.minTtl
  flags := act.flags ||| (r.scrubFlags &&& pfstateScrub)

inductive Next (σ : Type) where
  | go (s : Eval σ)
  /-- Out of the loop, by `break`. -/
  | stop (s : Eval σ)
  /-- `goto cleanup` -/
  | cleanup (s : Eval σ)

/-- At the end of a list of rules, back to where the anchor was called. -/
def leave (s : Eval σ) : Next σ :=
  match s.r with
  | some _ => .go s
  | none =>
    let (s, quick) := pfStepOutOfAnchor w cfg s
    if quick then .stop s else .go s

/-- A rule that matches. -/
def applyRule (p : RulePtr) (r : Rule) (s : Eval σ) : Next σ :=
  let s := if r.tag ≠ 0#16 then { s with tag := r.tag.toNat } else s
  match r.anchor with
  | some anchor => leave w cfg (pfStepIntoAnchor cfg s p r.anchorWildcard anchor)
  | none =>
    let finish (s : Eval σ) : Next σ :=
      if (match s.rm with | some q => cfg.rule w q | none => w.defaultRule).quick then .stop s
      else leave w cfg { s with r := cfg.next p }
    if r.isMatch then
      let n := s.pools
      let s := { s with pools := n + 1 }
      if w.poolGet n then
        let s := { s with rules := p :: s.rules, act := pfRuleToActions r s.act }
        match w.pfGetTransaddr r s.pd s.sns with
        | none => .cleanup s
        | some (pd, sns) => finish { s with pd := pd, sns := sns }
      else .cleanup s
    else finish { s with isMatch := true, rm := some p, am := s.a, rsm := s.ruleset }

/-- The body of the loop; `follow` says where to go on after a test with a skip step. -/
def evalRule (follow : RulePtr → Skip → Option RulePtr) (p : RulePtr) (s : Eval σ) : Next σ :=
  let r := cfg.rule w p
  match firstFail w pkt r s with
  | some i => leave w cfg { s with r := follow p i }
  | none =>
    match restTests w pkt r s with
    | (false, s) => leave w cfg { s with r := cfg.next p }
    | (true, s) => applyRule w cfg p r s

inductive Result (σ : Type) where
  | done (s : Eval σ)
  | cleanup (s : Eval σ)

def evalLoop (follow : RulePtr → Skip → Option RulePtr) : (fuel : Nat) → Eval σ → Option (Result σ)
  | 0, _ => none
  | fuel + 1, s =>
    match s.r with
    | none => some (.done s)
    | some p =>
      match evalRule w cfg pkt follow p s with
      | .go s => evalLoop follow fuel s
      | .stop s => some (.done s)
      | .cleanup s => some (.cleanup s)

/-- How many iterations the rules of a list can take, with `k` more anchors inside each
other. -/
def listCost : (k : Nat) → List Rule → Nat
  | 0, rules => rules.length
  | k + 1, rules => (rules.map fun r =>
      match r.anchor with
      | none => 1
      | some a =>
        if r.anchorWildcard then
          2 + ((cfg.anchors a).children.map fun c => 1 + listCost k (cfg.rules (cfg.anchors c).ruleset)).sum
        else 2 + listCost k (cfg.rules (cfg.anchors a).ruleset)).sum

/-- The loop of `pf_test_rule` from the first rule of the main ruleset on. -/
def pfTestRule (follow : RulePtr → Skip → Option RulePtr) (pd : Pdesc) (sns : σ) : Option (Result σ) :=
  evalLoop w cfg pkt follow (listCost cfg stackLimit (cfg.rules 0) + 1)
    { r := cfg.first 0, pd := pd, act := { rtableid := pd.rdomain }, sns := sns }

end

end Obsd.Pf
