import Obsd.Runs
import Obsd.Tcp

/-!
# The SYN cache

`syn_cache_insert`, `syn_cache_rm`, `syn_cache_lookup` and their callers
in `netinet/tcp_input.c`. Entries are known by their pointer, a number;
`sc` is what each of them holds. The buckets and the lists of the
listening sockets are lists of pointers. What `arc4random`, `pool_get` and
`syn_cache_respond` answer is part of a request. A call that panics, or
would follow a null pointer, has no next state.
-/

namespace Obsd.Syn

/-! ## Addresses and their hash -/

/-- A `union syn_cache_sa`; `rest` stands for the bytes that are compared and not hashed. -/
inductive Sockaddr where
  | inet (sinAddr : BitVec 32) (sinPort : BitVec 16)
  | inet6 (s6Addr32 : Vector (BitVec 32) 4) (sin6Port : BitVec 16) (rest : BitVec 64)
  | other (bytes : List UInt8)
deriving DecidableEq, Repr

/-- The port is at the same place in both families. -/
def Sockaddr.port : Sockaddr → BitVec 16
  | .inet _ port => port
  | .inet6 _ port _ => port
  | .other _ => 0#16

def ports (sp dp : BitVec 16) : BitVec 32 := (dp.setWidth 32 <<< 16) + sp.setWidth 32

/-- `SYN_HASHALL`, with the secrets `synHash1` and `synHash2`. -/
def synHashall (synHash1 synHash2 : BitVec 32) (src dst : Sockaddr) : BitVec 32 :=
  match src with
  | .inet sa sp => (sa ^^^ synHash1) * (ports sp dst.port ^^^ synHash2)
  | .inet6 sa sp _ =>
    ((sa[0] ^^^ sa[3] ^^^ synHash1) * (ports sp dst.port ^^^ synHash2)) &&& 0x7fffffff#32
  | .other _ => 0#32

/-! ## Entries -/

/-- A `struct syn_cache`. -/
structure SynCache where
  scHash : BitVec 32 := 0#32
  scBucketidx : Nat := 0
  scSrc : Sockaddr
  scDst : Sockaddr
  scRtableid : Nat
  scIrs : BitVec 32
  scIss : BitVec 32
  scWin : BitVec 32
  scRxtcur : Nat := 0
  scRxttot : Nat := 0
  scRxtshift : Nat := 0
  scfUnreach : Bool := false
  scfDead : Bool := false
  scTp : Option Nat := none
deriving DecidableEq, Repr

/-- A `struct syn_cache_head`. -/
structure SynCacheHead where
  schBucket : List Nat := []
  schLength : BitVec 16 := 0#16
deriving DecidableEq, Repr

/-- What does not change while the system runs. -/
structure Config where
  tcpSynCacheSize : Nat
  tcpSynCacheLimit : Nat
  tcpSynBucketLimit : Nat
  tcptvKeepInit : Nat := 150
  rtableL2 : Nat → Nat := id

structure State where
  tcpSynCache : Nat → SynCacheHead := fun _ => {}
  sc : Nat → SynCache := fun _ => ⟨0#32, 0, .other [], .other [], 0, 0#32, 0#32, 0#32, 0, 0, 0, false, true, none⟩
  next : Nat := 0
  tSc : Nat → List Nat := fun _ => []
  synCacheCount : Nat := 0
  synHash1 : BitVec 32 := 0#32
  synHash2 : BitVec 32 := 0#32

/-- What one bucket, one entry or the lists of the sockets are changed to. -/
def State.setHead (s : State) (i : Nat) (h : SynCacheHead) : State :=
  { s with tcpSynCache := fun j => if j = i then h else s.tcpSynCache j }

def State.setSc (s : State) (p : Nat) (sc : SynCache) : State :=
  { s with sc := fun q => if q = p then sc else s.sc q }

/-! ## Removal -/

def synCacheRm (s : State) (p : Nat) : State :=
  let sc := s.sc p
  let scp := s.tcpSynCache sc.scBucketidx
  let s := s.setSc p { sc with scfDead := true, scTp := none }
  let s := s.setHead sc.scBucketidx ⟨scp.schBucket.erase p, scp.schLength - 1#16⟩
  { s with
    tSc := fun tp => (s.tSc tp).erase p
    synCacheCount := s.synCacheCount - 1 }

/-! ## Timers -/

def prSlowhz : Nat := 2
def tcptvSrttdflt : Nat := 3 * prSlowhz
def tcptvMin : Nat := 1 * prSlowhz
def tcptvRexmtmax : Nat := 64 * prSlowhz
def tcpMaxrxtshift : Nat := 12
def tcpBackoff : List Nat := [1, 2, 4, 8, 16, 32, 64, 64, 64, 64, 64, 64, 64]

/-- `SYN_CACHE_TIMER_ARM`. -/
def timerArm (sc : SynCache) : SynCache :=
  let tv := tcptvSrttdflt * tcpBackoff.getD sc.scRxtshift 0
  { sc with scRxtcur := if tv < tcptvMin then tcptvMin else if tv > tcptvRexmtmax then tcptvRexmtmax else tv }

/-! ## Insertion -/

/-- The search for a bucket with an entry, that starts behind `scp` and goes round. Back at
`scp` it gives up. -/
def victim (cfg : Config) (s : State) (scp : Nat) : (fuel scp2 : Nat) → Option Nat
  | 0, _ => none
  | fuel + 1, scp2 =>
    if scp2 = scp then none
    else
      let scp2 := if scp2 ≥ cfg.tcpSynCacheSize then 0 else scp2
      if (s.tcpSynCache scp2).schBucket ≠ [] then some scp2
      else victim cfg s scp fuel (scp2 + 1)

/-- Makes room in the cache for an entry of bucket `scp`. -/
def makeRoom (cfg : Config) (s : State) (scp : Nat) : Option State :=
  if (s.tcpSynCache scp).schLength.toNat ≥ cfg.tcpSynBucketLimit then
    match (s.tcpSynCache scp).schBucket with
    | [] => none
    | sc2 :: _ => some (synCacheRm s sc2)
  else if s.synCacheCount ≥ cfg.tcpSynCacheLimit then
    let scp2 :=
      if (s.tcpSynCache scp).schBucket = [] then victim cfg s scp cfg.tcpSynCacheSize (scp + 1)
      else some scp
    match scp2 with
    | none => none
    | some scp2 =>
      match (s.tcpSynCache scp2).schBucket with
      | [] => none
      | sc2 :: _ => some (synCacheRm s sc2)
  else some s

/-- Links a new entry into its bucket and into the list of its socket. -/
def linkEntry (s : State) (sc : SynCache) (tp : Nat) : State :=
  let p := s.next
  let scp := s.tcpSynCache sc.scBucketidx
  let s := s.setSc p sc
  let s := s.setHead sc.scBucketidx ⟨scp.schBucket ++ [p], scp.schLength + 1#16⟩
  { s with
    next := p + 1
    tSc := fun t => if t = tp then p :: s.tSc t else s.tSc t
    synCacheCount := s.synCacheCount + 1 }

/-- `syn_cache_insert` of the new entry `sc` for the socket `tp`. -/
def synCacheInsert (cfg : Config) (s : State) (sc : SynCache) (tp : Nat) (rnd1 rnd2 : BitVec 32) :
    Option State :=
  let s := if s.synCacheCount = 0 then { s with synHash1 := rnd1, synHash2 := rnd2 } else s
  let scHash := synHashall s.synHash1 s.synHash2 sc.scSrc sc.scDst
  let scp := scHash.toNat % cfg.tcpSynCacheSize
  let sc := timerArm { sc with scHash := scHash, scBucketidx := scp, scRxttot := 0, scRxtshift := 0 }
  (makeRoom cfg s scp).map fun s => linkEntry s sc tp

/-! ## Lookup and what is done with what it finds -/

def synCacheLookup (cfg : Config) (s : State) (src dst : Sockaddr) (rtableid : Nat) : Option Nat :=
  let hash := synHashall s.synHash1 s.synHash2 src dst
  (s.tcpSynCache (hash.toNat % cfg.tcpSynCacheSize)).schBucket.find? fun p =>
    decide ((s.sc p).scHash = hash) && decide ((s.sc p).scSrc = src) && decide ((s.sc p).scDst = dst)
      && decide (cfg.rtableL2 rtableid = cfg.rtableL2 (s.sc p).scRtableid)

/-- `syn_cache_add`. A duplicate SYN and a failed allocation leave the cache alone, and so
does a SYN,ACK that cannot be sent. -/
def synCacheAdd (cfg : Config) (s : State) (src dst : Sockaddr) (rtableid : Nat) (irs iss win : BitVec 32)
    (tp : Nat) (pool responds : Bool) (rnd1 rnd2 : BitVec 32) : Option State :=
  match synCacheLookup cfg s src dst rtableid with
  | some _ => some s
  | none =>
    if pool && responds then
      synCacheInsert cfg s ⟨0#32, 0, src, dst, rtableid, irs, iss, win, 0, 0, 0, false, false, some tp⟩ tp rnd1 rnd2
    else some s

/-- `syn_cache_get`, as far as the cache goes: what becomes of the connection does not
matter to it. -/
def synCacheGet (cfg : Config) (s : State) (src dst : Sockaddr) (rtableid : Nat) (thSeq thAck : BitVec 32) : State :=
  match synCacheLookup cfg s src dst rtableid with
  | none => s
  | some p =>
    let sc := s.sc p
    if thAck ≠ sc.scIss + 1#32 ∨ Tcp.seqLeq thSeq sc.scIrs ∨ Tcp.seqGt thSeq (sc.scIrs + 1#32 + sc.scWin) then s
    else synCacheRm s p

def synCacheReset (cfg : Config) (s : State) (src dst : Sockaddr) (rtableid : Nat) (thSeq : BitVec 32) : State :=
  match synCacheLookup cfg s src dst rtableid with
  | none => s
  | some p =>
    let sc := s.sc p
    if Tcp.seqLt thSeq sc.scIrs ∨ Tcp.seqGt thSeq (sc.scIrs + 1#32) then s else synCacheRm s p

def synCacheUnreach (cfg : Config) (s : State) (src dst : Sockaddr) (rtableid : Nat) (thSeq : BitVec 32) : State :=
  match synCacheLookup cfg s src dst rtableid with
  | none => s
  | some p =>
    let sc := s.sc p
    if thSeq ≠ sc.scIss then s
    else if ¬sc.scfUnreach ∨ sc.scRxtshift < 3 then s.setSc p { sc with scfUnreach := true }
    else synCacheRm s p

def synCacheTimer (cfg : Config) (s : State) (p : Nat) : State :=
  let sc := s.sc p
  if sc.scfDead then s
  else if sc.scRxtshift = tcpMaxrxtshift then synCacheRm s p
  else
    let sc := { sc with scRxttot := sc.scRxttot + sc.scRxtcur }
    if sc.scRxttot ≥ cfg.tcptvKeepInit then synCacheRm (s.setSc p sc) p
    else s.setSc p (timerArm { sc with scRxtshift := sc.scRxtshift + 1 })

def synCacheCleanup (s : State) (tp : Nat) : State :=
  let s := (s.tSc tp).foldl synCacheRm s
  { s with tSc := fun t => if t = tp then [] else s.tSc t }

/-! ## The system -/

inductive Act where
  | add (src dst : Sockaddr) (rtableid : Nat) (irs iss win : BitVec 32) (tp : Nat) (pool responds : Bool)
      (rnd1 rnd2 : BitVec 32)
  | get (src dst : Sockaddr) (rtableid : Nat) (thSeq thAck : BitVec 32)
  | reset (src dst : Sockaddr) (rtableid : Nat) (thSeq : BitVec 32)
  | unreach (src dst : Sockaddr) (rtableid : Nat) (thSeq : BitVec 32)
  | timer (p : Nat)
  | cleanup (tp : Nat)

def step (cfg : Config) (s : State) : Act → Option State
  | .add src dst rtableid irs iss win tp pool responds rnd1 rnd2 =>
    synCacheAdd cfg s src dst rtableid irs iss win tp pool responds rnd1 rnd2
  | .get src dst rtableid thSeq thAck => some (synCacheGet cfg s src dst rtableid thSeq thAck)
  | .reset src dst rtableid thSeq => some (synCacheReset cfg s src dst rtableid thSeq)
  | .unreach src dst rtableid thSeq => some (synCacheUnreach cfg s src dst rtableid thSeq)
  -- only an entry that was inserted has its timer armed
  | .timer p => if p < s.next then some (synCacheTimer cfg s p) else none
  | .cleanup tp => some (synCacheCleanup s tp)

end Obsd.Syn
