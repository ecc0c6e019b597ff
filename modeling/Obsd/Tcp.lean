import Obsd.Serial

/-!
# TCP control blocks

The data of `netinet/tcp_var.h`, `tcp_seq.h` and `tcp_fsm.h` that the
receive path and the sender's loss recovery work on. `tcp_seq` is
`BitVec 32` and is compared by the sign of the difference, as the
`SEQ_*` macros do. An mbuf chain is its bytes.
-/

namespace Obsd.Tcp

/-! ## Sequence numbers -/

abbrev Seq := BitVec 32

def seqLt (a b : Seq) : Bool := decide ((a - b).toInt < 0)
def seqLeq (a b : Seq) : Bool := decide ((a - b).toInt ≤ 0)
def seqGt (a b : Seq) : Bool := decide ((a - b).toInt > 0)
def seqGeq (a b : Seq) : Bool := decide ((a - b).toInt ≥ 0)
def seqMin (a b : Seq) : Seq := if seqLt a b then a else b
def seqMax (a b : Seq) : Seq := if seqGt a b then a else b

/-! ## Comparing within a window -/

section Window

variable (base : Seq) {n m : Int}

/-- Positions that half the sequence space holds. -/
def Near (n m : Int) : Prop := -2 ^ 31 ≤ n - m ∧ n - m < 2 ^ 31

theorem toInt_nth_sub (h : Near n m) :
    (Serial.nth base n - Serial.nth base m).toInt = n - m := by
  obtain ⟨h1, h2⟩ := h
  exact Serial.toInt_nth_sub_of_near base (by omega) (by omega)

theorem nth_inj (h : Near n m) : Serial.nth base n = Serial.nth base m ↔ n = m := by
  obtain ⟨h1, h2⟩ := h
  exact Serial.nth_inj_of_near base (by omega) (by omega)

theorem seqLeq_nth (h : Near n m) :
    seqLeq (Serial.nth base n) (Serial.nth base m) = decide (n ≤ m) := by
  rw [seqLeq, toInt_nth_sub base h, decide_eq_decide]
  omega

theorem seqGt_nth (h : Near n m) :
    seqGt (Serial.nth base n) (Serial.nth base m) = decide (m < n) := by
  rw [seqGt, toInt_nth_sub base h, decide_eq_decide]
  omega

end Window

/-! ## Comparing from another origin -/

section Origin

variable (k a b : Seq)

theorem shift_sub_shift : a + k - (b + k) = a - b := by grind

@[simp] theorem seqLt_shift : seqLt (a + k) (b + k) = seqLt a b := by
  rw [seqLt, shift_sub_shift, seqLt]

@[simp] theorem seqLeq_shift : seqLeq (a + k) (b + k) = seqLeq a b := by
  rw [seqLeq, shift_sub_shift, seqLeq]

@[simp] theorem seqGt_shift : seqGt (a + k) (b + k) = seqGt a b := by
  rw [seqGt, shift_sub_shift, seqGt]

@[simp] theorem seqGeq_shift : seqGeq (a + k) (b + k) = seqGeq a b := by
  rw [seqGeq, shift_sub_shift, seqGeq]

@[simp] theorem seqMax_shift : seqMax (a + k) (b + k) = seqMax a b + k := by
  simp only [seqMax, seqGt_shift]
  split <;> rfl

@[simp] theorem seqMin_shift : seqMin (a + k) (b + k) = seqMin a b + k := by
  simp only [seqMin, seqLt_shift]
  split <;> rfl

end Origin

/-! ## States and flags -/

inductive State where
  | closed | listen | synSent | synReceived | established | closeWait
  | finWait1 | closing | lastAck | finWait2 | timeWait
deriving DecidableEq, Repr

/-- The numbers of `tcp_fsm.h`, which the macros below compare. -/
def State.num : State → Nat
  | .closed => 0
  | .listen => 1
  | .synSent => 2
  | .synReceived => 3
  | .established => 4
  | .closeWait => 5
  | .finWait1 => 6
  | .closing => 7
  | .lastAck => 8
  | .finWait2 => 9
  | .timeWait => 10

def haveEstablished (s : State) : Bool := decide (s.num ≥ State.established.num)

/-- `TCPS_HAVERCVDFIN`, which is true of `TIME_WAIT` only. -/
def haveRcvdFin (s : State) : Bool := decide (s.num ≥ State.timeWait.num)

/-- The bits of `th_flags`. -/
structure ThFlags where
  fin : Bool := false
  syn : Bool := false
  rst : Bool := false
  push : Bool := false
  ack : Bool := false
  urg : Bool := false
  ece : Bool := false
  cwr : Bool := false
deriving DecidableEq, Repr

/-- A TCP header in host order. `th_reseqlen` is another name of `th_urp`. -/
structure Tcphdr where
  thSeq : Seq
  thAck : Seq
  thFlags : ThFlags
  thUrp : Nat
deriving DecidableEq, Repr

/-! ## Queues -/

/-- A `struct tcpqent` with the header it points to: `thReseqlen` is a
`u_int16_t`. -/
structure Tcpqent where
  thSeq : Seq
  thReseqlen : Nat
  thFlags : ThFlags
  tcpqeM : List UInt8
deriving DecidableEq, Repr

structure Sackhole where
  start : Seq
  end_ : Seq
  dups : Nat
  rxmit : Seq
deriving DecidableEq, Repr

/-! ## The control block -/

/-- A `struct tcpcb`, zeroed as `tcp_newtcpcb` gets it: the reassembly queue,
the send and receive sequence variables, the windows, the holes of the SACK
sender and the timestamps. A timer is whether it is armed. -/
structure Tcpcb where
  tState : State := .closed
  tSegq : List Tcpqent := []
  tDupacks : Nat := 0
  tMaxseg : Nat := 0
  tfAcknow : Bool := false
  tfDelack : Bool := false
  tfNeedoutput : Bool := false
  tfEcnPermit : Bool := false
  tfRcvdCe : Bool := false
  tfSendCwr : Bool := false
  sndUna : Seq := 0#32
  sndNxt : Seq := 0#32
  sndMax : Seq := 0#32
  sndWl1 : Seq := 0#32
  sndWl2 : Seq := 0#32
  sndLast : Seq := 0#32
  sndWnd : Nat := 0
  sndScale : Nat := 0
  maxSndwnd : Nat := 0
  sndCwnd : Nat := 0
  sndSsthresh : Nat := 0
  sackEnable : Bool := false
  sndNumholes : Int := 0
  sndHoles : List Sackhole := []
  rcvLastsack : Seq := 0#32
  rcvNxt : Seq := 0#32
  rcvUp : Seq := 0#32
  rcvAdv : Seq := 0#32
  rcvWnd : Nat := 0
  lastAckSent : Seq := 0#32
  tsRecent : BitVec 32 := 0#32
  tsRecentAge : BitVec 32 := 0#32
  rexmtArmed : Bool := false
  persistArmed : Bool := false
deriving DecidableEq, Repr

/-- A socket; `soRcv` is all that was ever appended to the receive buffer, whose
space is `sbspaceRcv`, and `soSnd` is what the send buffer holds. -/
structure Socket where
  ssCantrcvmore : Bool := false
  ssNofdref : Bool := false
  soOobinline : Bool := false
  soRcv : List UInt8 := []
  sbspaceRcv : Int := 0
  soSnd : List UInt8 := []
deriving DecidableEq, Repr

end Obsd.Tcp
