import Obsd.TcpReass
import Obsd.TcpSack

/-!
# `tcp_input` on an established connection

From "Segment received on connection" on, in the states from
`ESTABLISHED` on. The function is cut where the source has its labels
and headings, one definition a stage; a `goto drop` and its relatives
leave through `Except.error`. What the stages pass on is `Ctx`: the
control block, the socket, and the header and text of the segment as
trimmed so far.

`tiflags` starts as a copy of `th_flags`, and from then on each stage
clears bits in one or the other. Statistics, round-trip times, path MTU
bookkeeping, buffer sizing and tracing are left out.
-/

namespace Obsd.Tcp

/-! ## Arguments -/

/-- `tcp_output`: whatever it does to the send side, it leaves the state, the
reassembly queue and `rcv_nxt` alone. -/
structure Output where
  run : Tcpcb → Tcpcb
  tState : ∀ tp, (run tp).tState = tp.tState
  tSegq : ∀ tp, (run tp).tSegq = tp.tSegq
  rcvNxt : ∀ tp, (run tp).rcvNxt = tp.rcvNxt

/-- The tunables and the surroundings of one call. -/
structure Kern where
  output : Output
  tcpNow : BitVec 32 := 0#32
  tcpDoEcn : Bool := false
  tcpAckOnPush : Bool := false
  loopback : Bool := false
  sbMax : Nat := 0
  iptosCe : Bool := false
  poolOk : Bool := true
  ackdropOk : Bool := true

/-- `struct tcp_opt_info`: the timestamps of the segment. -/
structure OptInfo where
  tsPresent : Bool := false
  tsVal : BitVec 32 := 0#32
deriving DecidableEq, Repr

/-- A segment: header, window field, SACK options with the results of the
`pool_get` calls they make, timestamps, and data. -/
structure Segment where
  th : Tcphdr
  thWin : Nat
  opti : OptInfo
  sackOpts : List (List UInt8 × List Bool)
  m : List UInt8
deriving DecidableEq, Repr

/-- What the stages pass on. `hdrop` bytes at the head of `m` are to be dropped
with the header, and `tlen` is the length of what remains. -/
structure Ctx where
  tp : Tcpcb
  so : Socket
  th : Tcphdr
  tiflags : ThFlags
  tlen : Nat
  hdrop : Nat
  m : List UInt8
deriving DecidableEq, Repr

/-- The other ways out of `tcp_input`. -/
inductive Exit where
  | drop (tp : Tcpcb) (so : Socket)
  | dropafterack (tp : Tcpcb) (so : Socket) (tiflags : ThFlags)
  | done (tp : Tcpcb) (so : Socket)
  | closed
deriving DecidableEq, Repr

def TcpMaxwin : Nat := 65535

/-- `TCP_PAWS_IDLE`, 24 days of `PR_SLOWHZ` ticks. -/
def TcpPawsIdle : Int := 24 * 24 * 60 * 60 * 2

/-- `tcp_seq_subtract` on `u_long` of 64 bits. -/
def tcpSeqSubtract (a b : Seq) : Nat := (a.toNat + (2 ^ 64 - b.toNat)) % 2 ^ 64

/-- Subtraction in `u_long`. -/
def ulsub (a b : Nat) : Nat := (a + (2 ^ 64 - b)) % 2 ^ 64

/-! ## Header prediction -/

def tcpSetupAck (k : Kern) (tiflags : ThFlags) (tp : Tcpcb) : Tcpcb :=
  if tp.tfDelack || (k.tcpAckOnPush && tiflags.push) || k.loopback then { tp with tfAcknow := true }
  else { tp with tfDelack := true }

/-- A pure acknowledgment, or data in sequence with nothing queued, in
`ESTABLISHED`; anything else goes the long way. -/
def headerPrediction (k : Kern) (seg : Segment) (tiwin : Nat) (c : Ctx) : Except Exit Ctx :=
  let fl := c.tiflags
  if c.tp.tState = .established
      && !fl.syn && !fl.fin && !fl.rst && !fl.urg && !fl.ece && !fl.cwr && fl.ack
      && (!seg.opti.tsPresent || seqGeq seg.opti.tsVal c.tp.tsRecent)
      && decide (c.th.thSeq = c.tp.rcvNxt) && decide (tiwin ≠ 0) && decide (tiwin = c.tp.sndWnd)
      && decide (c.tp.sndNxt = c.tp.sndMax) then
    let tp :=
      if seg.opti.tsPresent && seqLeq c.th.thSeq c.tp.lastAckSent then
        { c.tp with tsRecentAge := k.tcpNow, tsRecent := seg.opti.tsVal }
      else c.tp
    if c.tlen = 0 then
      if seqGt c.th.thAck tp.sndUna && seqLeq c.th.thAck tp.sndMax
          && decide (tp.sndCwnd ≥ tp.sndWnd) && decide (tp.tDupacks = 0) then
        let acked := (c.th.thAck - tp.sndUna).toNat
        let so : Socket := { c.so with soSnd := c.so.soSnd.drop acked }
        let tp : Tcpcb := { tp with
          sndUna := c.th.thAck
          sndLast := if seqGt c.th.thAck tp.sndLast then c.th.thAck else tp.sndLast
          rexmtArmed :=
            if c.th.thAck = tp.sndMax then false else if !tp.persistArmed then true else tp.rexmtArmed }
        .error (.done (if so.soSnd ≠ [] ∨ tp.tfNeedoutput = true then k.output.run tp else tp) so)
      else .ok { c with tp := tp }
    else if c.th.thAck = tp.sndUna ∧ tp.tSegq = [] ∧ (c.tlen : Int) ≤ c.so.sbspaceRcv then
      let tp := tcpSetupAck k c.tiflags { tp with rcvNxt := tp.rcvNxt + BitVec.ofNat 32 c.tlen }
      let so := sbAppend c.so c.m
      .error (.done (if tp.tfAcknow || tp.tfNeedoutput then k.output.run tp else tp) so)
    else .ok { c with tp := tp }
  else .ok c

/-! ## Trimming -/

/-- The receive window: the space there is, but not less than was advertised. -/
def rcvWindow (tp : Tcpcb) (so : Socket) : Nat :=
  (max (max 0 so.sbspaceRcv) (tp.rcvAdv - tp.rcvNxt).toInt).toNat

/-- `TIME_WAIT` gives way to a new connection. -/
def timeWaitReuse (seg : Segment) (c : Ctx) : Except Exit Ctx :=
  if c.tp.tState = .timeWait ∧ c.tiflags.syn = true ∧ c.tiflags.ack = false
      ∧ ((seg.opti.tsPresent && seqLt c.tp.tsRecent seg.opti.tsVal)
        || seqGt c.th.thSeq c.tp.rcvNxt) = true then .error .closed
  else .ok c

/-- Protection against wrapped sequence numbers. -/
def pawsCheck (k : Kern) (seg : Segment) (c : Ctx) : Except Exit Ctx :=
  if seg.opti.tsPresent && !c.tiflags.rst && decide (c.tp.tsRecent ≠ 0#32)
      && seqLt seg.opti.tsVal c.tp.tsRecent then
    if (k.tcpNow - c.tp.tsRecentAge).toInt > TcpPawsIdle then
      .ok { c with tp := { c.tp with tsRecent := 0#32 } }
    else .error (.dropafterack c.tp c.so c.tiflags)
  else .ok c

/-- Drop `todrop` bytes at the head. A segment that is all old keeps its `RST` and
`ACK` only. -/
def dropHead (todrop : Int) (c : Ctx) : Ctx :=
  let old := todrop > c.tlen ∨ (todrop = c.tlen ∧ c.tiflags.fin = false)
  let drop := if old then c.tlen else todrop.toNat
  let urgent := decide (c.th.thUrp > drop)
  { tp := if old then { c.tp with tfAcknow := true } else c.tp
    so := c.so
    th := { c.th with
      thSeq := c.th.thSeq + BitVec.ofNat 32 drop
      thUrp := if urgent then c.th.thUrp - drop else 0 }
    tiflags := { c.tiflags with
      fin := if old then false else c.tiflags.fin
      urg := if urgent then c.tiflags.urg else false }
    tlen := c.tlen - drop
    hdrop := c.hdrop + drop
    m := c.m }

/-- Drop what lies before `rcv_nxt`; a SYN takes up the first number. -/
def trimHead (c : Ctx) : Ctx :=
  let todrop := (c.tp.rcvNxt - c.th.thSeq).toInt
  if todrop > 0 then
    if c.tiflags.syn then
      dropHead (todrop - 1) { c with
        th := { c.th with
          thSeq := c.th.thSeq + 1#32
          thUrp := if c.th.thUrp > 1 then c.th.thUrp - 1 else c.th.thUrp }
        tiflags := { c.tiflags with
          syn := false
          urg := if c.th.thUrp > 1 then c.tiflags.urg else false } }
    else dropHead todrop c
  else c

/-- Data for a socket nobody has open any more. -/
def afterClose (c : Ctx) : Except Exit Ctx :=
  if c.so.ssNofdref && decide (c.tp.tState.num > State.closeWait.num) && decide (c.tlen ≠ 0) then
    .error .closed
  else .ok c

/-- How far the segment reaches beyond the window. -/
def tailDrop (c : Ctx) : Int :=
  (c.th.thSeq + BitVec.ofNat 32 c.tlen - (c.tp.rcvNxt + BitVec.ofNat 32 c.tp.rcvWnd)).toInt

/-- Drop what lies beyond the window, and with it `PUSH` and `FIN` in `tiflags`. -/
def trimTail (c : Ctx) : Except Exit Ctx :=
  let todrop := tailDrop c
  if todrop > 0 then
    let cut (tp : Tcpcb) : Ctx :=
      { c with
        tp := tp
        m := c.m.take (c.m.length - todrop.toNat)
        tlen := c.tlen - todrop.toNat
        tiflags := { c.tiflags with push := false, fin := false } }
    if todrop ≥ c.tlen then
      if c.tp.rcvWnd = 0 ∧ c.th.thSeq = c.tp.rcvNxt then .ok (cut { c.tp with tfAcknow := true })
      else .error (.dropafterack c.tp c.so c.tiflags)
    else .ok (cut c.tp)
  else .ok c

/-! ## Flags -/

/-- Record the timestamp of a segment that holds the last number acknowledged. -/
def recordTimestamp (k : Kern) (seg : Segment) (c : Ctx) : Ctx :=
  if seg.opti.tsPresent && seqGeq seg.opti.tsVal c.tp.tsRecent
      && seqLeq c.th.thSeq c.tp.lastAckSent then
    let one := if c.tiflags.syn || c.tiflags.fin then 1 else 0
    let reach := c.th.thSeq + BitVec.ofNat 32 c.tlen + BitVec.ofNat 32 one
    { c with tp := { c.tp with
        tsRecent := if seqLeq c.tp.lastAckSent reach then seg.opti.tsVal else 0#32
        tsRecentAge := k.tcpNow } }
  else c

def rstCheck (c : Ctx) : Except Exit Ctx :=
  if c.tiflags.rst then
    if c.th.thSeq ≠ c.tp.lastAckSent ∧ c.th.thSeq ≠ c.tp.rcvNxt
        ∧ c.th.thSeq ≠ c.tp.rcvNxt + 1#32 then .error (.drop c.tp c.so)
    else .error .closed
  else .ok c

/-- A SYN in the window, or no acknowledgment. -/
def synAckCheck (k : Kern) (c : Ctx) : Except Exit Ctx :=
  if c.tiflags.syn then
    if k.ackdropOk then .error (.dropafterack c.tp c.so c.tiflags) else .error (.drop c.tp c.so)
  else if !c.tiflags.ack then
    if c.tp.tfAcknow then .error (.dropafterack c.tp c.so c.tiflags) else .error (.drop c.tp c.so)
  else .ok c

/-! ## Acknowledgments -/

/-- ECN: halve the congestion window once a round trip, and stop echoing. -/
def ecnStage (k : Kern) (c : Ctx) : Ctx :=
  let win := min (c.tp.sndWnd % 2 ^ 32) (c.tp.sndCwnd % 2 ^ 32) / c.tp.tMaxseg
  let tp :=
    if k.tcpDoEcn && c.tiflags.ece && c.tp.tfEcnPermit && seqGeq c.tp.sndUna c.tp.sndLast
        && decide (win > 1) then
      { c.tp with
        sndSsthresh := win / 2 * c.tp.tMaxseg
        sndCwnd := win / 2 * c.tp.tMaxseg
        sndLast := c.tp.sndMax
        tfSendCwr := true }
    else c.tp
  { c with tp := if c.tiflags.cwr then { tp with tfRcvdCe := false } else tp }

/-- The third duplicate acknowledgment: fast retransmit. -/
def fastRetransmit (k : Kern) (c : Ctx) (tp : Tcpcb) : Tcpcb :=
  let win := max 2 (min tp.sndWnd tp.sndCwnd / 2 / tp.tMaxseg)
  let tp := { tp with sndSsthresh := win * tp.tMaxseg, sndLast := tp.sndMax }
  let inflate (tp : Tcpcb) : Tcpcb :=
    { tp with sndCwnd := tp.sndSsthresh + tp.tMaxseg * tp.tDupacks }
  if tp.sackEnable then
    inflate (k.output.run { tp with rexmtArmed := false, tfSendCwr := true })
  else
    let onxt := tp.sndNxt
    let tp := inflate (k.output.run { tp with
      rexmtArmed := false, sndNxt := c.th.thAck, sndCwnd := tp.tMaxseg, tfSendCwr := true })
    { tp with sndNxt := if seqGt onxt tp.sndNxt then onxt else tp.sndNxt }

/-- An acknowledgment that is not new. -/
def dupAck (k : Kern) (tiwin : Nat) (c : Ctx) : Except Exit Ctx :=
  if c.tlen ≠ 0 then
    if c.th.thSeq ≠ c.tp.rcvNxt
        ∧ seqLt c.th.thAck (c.tp.sndUna - BitVec.ofNat 32 c.tp.maxSndwnd) = true then
      .error (.drop c.tp c.so)
    else .ok c
  else if c.th.thAck ≠ c.tp.sndUna then .ok { c with tp := { c.tp with tDupacks := 0 } }
  else if tiwin = c.tp.sndWnd then
    if !c.tp.rexmtArmed then .ok { c with tp := { c.tp with tDupacks := 0 } }
    else
      let tp := { c.tp with tDupacks := c.tp.tDupacks + 1 }
      if tp.tDupacks = tcprexmtthresh then
        if seqLt c.th.thAck tp.sndLast then .error (.drop { tp with tDupacks := 0 } c.so)
        else .error (.drop (fastRetransmit k c tp) c.so)
      else if tp.tDupacks > tcprexmtthresh then
        .error (.drop (k.output.run { tp with sndCwnd := tp.sndCwnd + tp.tMaxseg }) c.so)
      else .ok { c with tp := tp }
  else if tiwin < c.tp.sndWnd then .ok { c with tp := { c.tp with tDupacks := 0 } }
  else .ok c

/-- Out of fast recovery. -/
def leaveRecovery (thAck : Seq) (tp : Tcpcb) : Tcpcb :=
  { tp with
    sndCwnd := min tp.sndSsthresh (tcpSeqSubtract tp.sndMax thAck)
    tDupacks := 0 }

/-- A partial acknowledgment during recovery: `tcp_sack_partialack` and
`tcp_newreno`, with what `tcp_input` does after each. -/
def partialAck (k : Kern) (thAck : Seq) (tp : Tcpcb) : Tcpcb :=
  let acked := (thAck - tp.sndUna).toNat
  if tp.sackEnable then
    let cwnd := if tp.sndCwnd > acked then tp.sndCwnd - acked + tp.tMaxseg else tp.tMaxseg
    { tp with rexmtArmed := false, sndCwnd := cwnd + tp.tMaxseg, tfNeedoutput := true }
  else
    let onxt := tp.sndNxt
    let ocwnd := tp.sndCwnd
    let tp := k.output.run { tp with
      rexmtArmed := false, sndNxt := thAck, sndCwnd := tp.tMaxseg + acked }
    { tp with
      sndNxt := if seqGt onxt tp.sndNxt then onxt else tp.sndNxt
      sndCwnd := (if ocwnd > (thAck - tp.sndUna).toNat then ocwnd - (thAck - tp.sndUna).toNat else 0)
        + tp.tMaxseg }

/-- Retract a congestion window that duplicate acknowledgments have inflated. -/
def recoveryStage (k : Kern) (thAck : Seq) (tp : Tcpcb) : Tcpcb :=
  let tp :=
    if tp.tDupacks ≥ tcprexmtthresh then
      if seqLt thAck tp.sndLast then partialAck k thAck tp else leaveRecovery thAck tp
    else tp
  if tp.tDupacks < tcprexmtthresh then { tp with tDupacks := 0 } else tp

/-- Open the congestion window. -/
def openCwnd (tp : Tcpcb) : Tcpcb :=
  let cw := tp.sndCwnd % 2 ^ 32
  let incr := if cw > tp.sndSsthresh then tp.tMaxseg * tp.tMaxseg % 2 ^ 32 / cw else tp.tMaxseg
  if tp.tDupacks < tcprexmtthresh then
    { tp with sndCwnd := min ((cw + incr) % 2 ^ 32) (TcpMaxwin * 2 ^ tp.sndScale) }
  else tp

/-- New data is acknowledged: timers, windows and send buffer. The Boolean is
`ourfinisacked`. -/
def takeAck (thAck : Seq) (tp : Tcpcb) (so : Socket) : Bool × Tcpcb × Socket :=
  let acked := (thAck - tp.sndUna).toNat
  let tp :=
    if thAck = tp.sndMax then { tp with rexmtArmed := false, tfNeedoutput := true }
    else if !tp.persistArmed then { tp with rexmtArmed := true }
    else tp
  let tp := openCwnd tp
  let all := decide (acked > so.soSnd.length)
  let gone := if all then so.soSnd.length else acked
  let so := { so with soSnd := so.soSnd.drop gone }
  let tp := { tp with
    sndWnd := ulsub tp.sndWnd gone
    sndUna := thAck
    sndLast := if seqGt thAck tp.sndLast then thAck else tp.sndLast
    sndNxt := if seqLt tp.sndNxt thAck then thAck else tp.sndNxt }
  (all, tp, so)

/-- Our FIN may have been acknowledged. -/
def finAcked (ourfinisacked : Bool) (c : Ctx) : Except Exit Ctx :=
  match c.tp.tState with
  | .finWait1 =>
    if ourfinisacked then .ok { c with tp := { c.tp with tState := .finWait2 } } else .ok c
  | .closing =>
    if ourfinisacked then .ok { c with tp := { c.tp with tState := .timeWait } } else .ok c
  | .lastAck => if ourfinisacked then .error .closed else .ok c
  | .timeWait => .error (.dropafterack c.tp c.so c.tiflags)
  | _ => .ok c

def ackStage (k : Kern) (tiwin : Nat) (c : Ctx) : Except Exit Ctx :=
  let c := ecnStage k c
  if seqLeq c.th.thAck c.tp.sndUna then dupAck k tiwin c
  else
    let tp := recoveryStage k c.th.thAck c.tp
    if seqGt c.th.thAck tp.sndMax then
      if k.ackdropOk then .error (.dropafterack tp c.so c.tiflags) else .error (.drop tp c.so)
    else
      let (ourfinisacked, tp, so) := takeAck c.th.thAck tp c.so
      finAcked ourfinisacked { c with tp := tp, so := so }

/-! ## Window, urgent data, text -/

/-- `step6`: the window update. -/
def windowUpdate (tiwin : Nat) (c : Ctx) : Ctx :=
  if c.tiflags.ack && (seqLt c.tp.sndWl1 c.th.thSeq || (decide (c.tp.sndWl1 = c.th.thSeq)
      && (seqLt c.tp.sndWl2 c.th.thAck || (decide (c.tp.sndWl2 = c.th.thAck)
        && decide (tiwin > c.tp.sndWnd))))) then
    { c with tp := { c.tp with
        sndWnd := tiwin
        sndWl1 := c.th.thSeq
        sndWl2 := c.th.thAck
        maxSndwnd := max c.tp.maxSndwnd tiwin
        tfNeedoutput := true } }
  else c

/-- Segments with `URG`. The urgent byte is taken out of the mbuf, not out of
`tlen`. -/
def urgentStage (k : Kern) (sbCc : Nat) (c : Ctx) : Ctx :=
  if c.tiflags.urg && decide (c.th.thUrp ≠ 0) && !haveRcvdFin c.tp.tState then
    if c.th.thUrp + sbCc > k.sbMax then
      { c with th := { c.th with thUrp := 0 }, tiflags := { c.tiflags with urg := false } }
    else
      let up := c.th.thSeq + BitVec.ofNat 32 c.th.thUrp
      let tp := if seqGt up c.tp.rcvUp then { c.tp with rcvUp := up } else c.tp
      let m := if c.th.thUrp ≤ c.tlen % 2 ^ 16 ∧ c.so.soOobinline = false then
          c.m.eraseIdx (c.hdrop + c.th.thUrp - 1)
        else c.m
      { c with tp := tp, m := m }
  else if seqGt c.tp.rcvNxt c.tp.rcvUp then { c with tp := { c.tp with rcvUp := c.tp.rcvNxt } }
  else c

/-- `dodata`: the text goes to the socket or to the reassembly queue. The FIN is
taken from the header, where no stage before has cleared it. -/
def dodata (k : Kern) (c : Ctx) : Ctx :=
  if (c.tlen ≠ 0 ∨ c.tiflags.fin = true) ∧ haveRcvdFin c.tp.tState = false then
    if c.th.thSeq = c.tp.rcvNxt ∧ c.tp.tSegq = [] ∧ c.tp.tState = .established then
      let tp := tcpSetupAck k c.tiflags c.tp
      { c with
        tp := { tp with rcvNxt := tp.rcvNxt + BitVec.ofNat 32 c.tlen }
        so := sbAppend c.so (c.m.drop c.hdrop)
        tiflags := { fin := c.th.thFlags.fin } }
    else
      let (fin, tp, so) := tcpReass k.poolOk c.tp c.so c.th (c.m.drop c.hdrop) c.tlen
      { c with tp := { tp with tfAcknow := true }, so := so, tiflags := { fin := fin } }
  else { c with tiflags := { c.tiflags with fin := false } }

/-- The stages up to the text. -/
def textStages (k : Kern) (seg : Segment) (sbCc : Nat) (tp : Tcpcb) (so : Socket) :
    Except Exit Ctx := do
  let tiwin := if seg.th.thFlags.syn then seg.thWin else seg.thWin * 2 ^ tp.sndScale
  let tp := if k.iptosCe then { tp with tfRcvdCe := true } else tp
  let c ← headerPrediction k seg tiwin ⟨tp, so, seg.th, seg.th.thFlags, seg.m.length, 0, seg.m⟩
  let c ← timeWaitReuse seg { c with tp := { c.tp with rcvWnd := rcvWindow c.tp c.so } }
  let c ← pawsCheck k seg c
  let c ← afterClose (trimHead c)
  let c ← trimTail c
  let c ← rstCheck (recordTimestamp k seg c)
  let c ← synAckCheck k c
  let c ← ackStage k tiwin c
  return dodata k (urgentStage k sbCc (windowUpdate tiwin c))

/-! ## The FIN -/

/-- The FIN of the peer is acted on. -/
def actsOnFin (c : Ctx) : Bool :=
  c.tiflags.fin && haveEstablished c.tp.tState && !haveRcvdFin c.tp.tState

def finStage (c : Ctx) : Ctx :=
  if c.tiflags.fin && haveEstablished c.tp.tState then
    let tp := if !haveRcvdFin c.tp.tState then
        { c.tp with tfAcknow := true, rcvNxt := c.tp.rcvNxt + 1#32 }
      else c.tp
    let so := if !haveRcvdFin c.tp.tState then { c.so with ssCantrcvmore := true } else c.so
    let state := match tp.tState with
      | .established => .closeWait
      | .finWait1 => .closing
      | .finWait2 => .timeWait
      | s => s
    { c with tp := { tp with tState := state }, so := so }
  else c

/-! ## The whole function -/

/-- What a segment leaves, and the value of `rcv_nxt` at which a FIN was acted on.
There is nothing left of a connection that `tcp_close` has ended. -/
def tcpInput (k : Kern) (seg : Segment) (sbCc : Nat) (tp : Tcpcb) (so : Socket) :
    Option (Tcpcb × Socket × Option Seq) :=
  (sackOptions seg.th (tcpDelSackholes tp seg.th) seg.sackOpts).bind fun tp =>
    match textStages k seg sbCc tp so with
    | .ok c =>
      let c' := finStage c
      let tp := if c'.tp.tfAcknow || c'.tp.tfNeedoutput then k.output.run c'.tp else c'.tp
      some (tp, c'.so, if actsOnFin c then some c.tp.rcvNxt else none)
    | .error (.drop tp so) => some (tp, so, none)
    | .error (.dropafterack tp so tiflags) =>
      some (if tiflags.rst then tp else k.output.run { tp with tfAcknow := true }, so, none)
    | .error (.done tp so) => some (tp, so, none)
    | .error .closed => none

end Obsd.Tcp
