import Mathlib

/-!
# TCP options read twice

The option block of a TCP header is walked by the packet filter, which
wants the window scale and the MSS of a connection (net/pf.c), and by the
stack that receives the segment (netinet/tcp_input.c).

A read of the option block is `opts[i]?`, and a walker that reads past its
end returns `none`.
-/

namespace Obsd.TcpOpt

abbrev Byte := BitVec 8

/-! ## Options (netinet/tcp.h) -/

def tcpoptEol : Byte := 0
def tcpoptNop : Byte := 1
def tcpoptMaxseg : Byte := 2
def tcpoptWindow : Byte := 3
def tcpoptSackPermitted : Byte := 4
def tcpoptSack : Byte := 5
def tcpoptTimestamp : Byte := 8
def tcpoptSignature : Byte := 19

def tcpolenMaxseg : Nat := 4
def tcpolenWindow : Nat := 3
def tcpolenSackPermitted : Nat := 2
def tcpolenTimestamp : Nat := 10
def tcpolenSignature : Nat := 18

/-- TCP_MAX_WINSHIFT -/
def tcpMaxWinshift : Byte := 14

/-- PF_WSCALE_FLAG -/
def pfWscaleFlag : Byte := 0x80

/-- `sizeof(struct tcphdr)` -/
def tcphdrSize : Nat := 20

/-! ## The packet filter -/

/-- pf_pull_hdr, of a packet that is not a fragment and starts with its TCP
header. -/
def pfPullHdr (m : List Byte) (len : Nat) : Option (List Byte) :=
  if m.length < len then none else some (m.take len)

/-- The loop that pf_get_wscale and pf_get_mss have in common: `need` bytes
are needed for a turn, and `take` reads the wanted option at `opt`. Every
turn takes a byte at least. -/
def pfWalk {β : Type} (opts : List Byte) (need : Nat) (want : Byte) (take : Nat → Option β) :
    Nat → Nat → Int → β → Option β
  | 0, _, _, acc => some acc
  | turns + 1, opt, hlen, acc =>
    if (need : Int) ≤ hlen then do
      let kind ← opts[opt]?
      if kind = tcpoptEol ∨ kind = tcpoptNop then
        pfWalk opts need want take turns (opt + 1) (hlen - 1) acc
      else do
        let acc' ← (if kind = want then take opt else some acc)
        let len ← opts[opt + 1]?
        let optlen := if len < 2 then 2 else len
        pfWalk opts need want take turns (opt + optlen.toNat) (hlen - optlen.toNat) acc'
    else some acc

def takeWscale (opts : List Byte) (opt : Nat) : Option Byte := do
  let wscale ← opts[opt + 2]?
  some ((if tcpMaxWinshift < wscale then tcpMaxWinshift else wscale) ||| pfWscaleFlag)

/-- pf_get_wscale -/
def pfGetWscale (m : List Byte) (thOff : Nat) : Option Byte :=
  let hlen := thOff <<< 2
  if hlen ≤ tcphdrSize then some 0
  else
    match pfPullHdr m hlen with
    | none => some 0
    | some hdr =>
      let opts := hdr.drop tcphdrSize
      pfWalk opts 3 tcpoptWindow (takeWscale opts) opts.length 0 (hlen - tcphdrSize : Int) 0

def takeMss (opts : List Byte) (opt : Nat) : Option (BitVec 16) := do
  let hi ← opts[opt + 2]?
  let lo ← opts[opt + 3]?
  some (hi ++ lo)

/-- pf_get_mss -/
def pfGetMss (tcpMssdflt : BitVec 16) (m : List Byte) (thOff : Nat) : Option (BitVec 16) :=
  let hlen := thOff <<< 2
  if hlen ≤ tcphdrSize then some 0
  else
    match pfPullHdr m hlen with
    | none => some 0
    | some hdr =>
      let opts := hdr.drop tcphdrSize
      pfWalk opts tcpolenMaxseg tcpoptMaxseg (takeMss opts) opts.length 0 (hlen - tcphdrSize : Int)
        tcpMssdflt

/-! ## The stack -/

/-- What tcp_dooptions reads besides the options: the segment's SYN flag,
whether the connection has received a SYN, `sack_enable`, `tcp_now`, and
the check of the signature after the walk. -/
structure OptCtx where
  syn : Bool
  haveRcvdSyn : Bool
  sackEnable : Bool
  tcpNow : BitVec 32
  signed : Option (List Byte) → Bool

/-- What tcp_dooptions sets in the tcpcb and in `oi`. `sacks` are the
options given to tcp_sack_option, and `sig` is what `sigp` points to. -/
structure OptState where
  rcvdScale : Bool := false
  requestedSScale : Byte := 0
  maxseg : BitVec 16 := 0
  tsPresent : Bool := false
  tsVal : BitVec 32 := 0
  tsEcr : BitVec 32 := 0
  rcvdTstmp : Bool := false
  tsRecent : BitVec 32 := 0
  tsRecentAge : BitVec 32 := 0
  sackPermit : Bool := false
  sacks : List (List Byte) := []
  sig : Option (List Byte) := none
deriving DecidableEq

/-- `len` bytes from `cp` on. -/
def readBytes (opts : List Byte) (cp len : Nat) : Option (List Byte) :=
  if cp + len ≤ opts.length then some ((opts.drop cp).take len) else none

/-- Four bytes in network order. -/
def readWord (opts : List Byte) (cp : Nat) : Option (BitVec 32) := do
  let a ← opts[cp]?
  let b ← opts[cp + 1]?
  let c ← opts[cp + 2]?
  let d ← opts[cp + 3]?
  some (a ++ b ++ c ++ d)

/-- The body of the loop for the option `opt` at `cp`. The inner `none` is
`return (-1)`. -/
def doOption (ctx : OptCtx) (opts : List Byte) (cp : Nat) (opt : Byte) (optlen : Nat)
    (st : OptState) : Option (Option OptState) :=
  if opt = tcpoptMaxseg then
    if optlen ≠ tcpolenMaxseg ∨ ctx.syn = false ∨ ctx.haveRcvdSyn then some (some st)
    else do
      let hi ← opts[cp + 2]?
      let lo ← opts[cp + 3]?
      some (some { st with maxseg := hi ++ lo })
  else if opt = tcpoptWindow then
    if optlen ≠ tcpolenWindow ∨ ctx.syn = false ∨ ctx.haveRcvdSyn then some (some st)
    else do
      let scale ← opts[cp + 2]?
      some (some { st with
        rcvdScale := true
        requestedSScale := if scale < tcpMaxWinshift then scale else tcpMaxWinshift })
  else if opt = tcpoptTimestamp then
    if optlen ≠ tcpolenTimestamp then some (some st)
    else do
      let val ← readWord opts (cp + 2)
      let ecr ← readWord opts (cp + 6)
      let st' := { st with tsPresent := true, tsVal := val, tsEcr := ecr }
      if ctx.syn = false ∨ ctx.haveRcvdSyn then some (some st')
      else some (some { st' with rcvdTstmp := true, tsRecent := val, tsRecentAge := ctx.tcpNow })
  else if opt = tcpoptSackPermitted then
    if ctx.sackEnable = false ∨ optlen ≠ tcpolenSackPermitted ∨ ctx.syn = false
        ∨ ctx.haveRcvdSyn then some (some st)
    else some (some { st with sackPermit := true })
  else if opt = tcpoptSack then do
    let blocks ← readBytes opts (cp + 2) (optlen - 2)
    some (some { st with sacks := st.sacks ++ [blocks] })
  else if opt = tcpoptSignature then
    if optlen ≠ tcpolenSignature then some (some st)
    else do
      let sig ← readBytes opts (cp + 2) 16
      if st.sig.isSome ∧ st.sig ≠ some sig then some none
      else some (some { st with sig := some sig })
  else some (some st)

/-- The length of the option `opt` at `cp`, with `cnt` bytes left; the inner
`none` is `break`. -/
def optionLen (opts : List Byte) (cp cnt : Nat) (opt : Byte) : Option (Option Nat) :=
  if opt = tcpoptNop then some (some 1)
  else if cnt < 2 then some none
  else do
    let optlen ← opts[cp + 1]?
    if optlen.toNat < 2 ∨ cnt < optlen.toNat then some none else some (some optlen.toNat)

/-- The loop of tcp_dooptions; every turn takes a byte at least. -/
def dooptionsLoop (ctx : OptCtx) (opts : List Byte) :
    Nat → Nat → Nat → OptState → Option (Option OptState)
  | 0, _, _, st => some (some st)
  | turns + 1, cp, cnt, st =>
    if 0 < cnt then do
      let opt ← opts[cp]?
      if opt = tcpoptEol then some (some st)
      else do
        match ← optionLen opts cp cnt opt with
        | none => some (some st)
        | some optlen =>
          match ← doOption ctx opts cp opt optlen st with
          | none => some none
          | some st' => dooptionsLoop ctx opts turns (cp + optlen) (cnt - optlen) st'
    else some (some st)

/-- tcp_dooptions -/
def tcpDooptions (ctx : OptCtx) (opts : List Byte) (st : OptState) : Option (Option OptState) := do
  match ← dooptionsLoop ctx opts opts.length 0 opts.length st with
  | none => some none
  | some st' => if ctx.signed st'.sig then some (some st') else some none

end Obsd.TcpOpt
