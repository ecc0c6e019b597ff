import Obsd.TcpSack

/-!
# Tracking a modulated connection

`pf_tcp_track_full` follows the sequence numbers of both ends of a
connection, and with `modulate state` it also rewrites them: what an end
sends has its modulator added to `th_seq`, and the other end's taken from
`th_ack`. The window checks compare differences modulo `2^32`, so where an
end starts should not matter. But `seqlo` is 0 and `seqhi` is 1 as long as
nothing was seen from an end, and both are numbers an end can get to: with
`seqlo` back at 0 the next packet is taken for the first one, and the
translation is skipped because there is a modulator already.

A state is the part of a `struct pf_state` that the function reads or
writes. What other functions find out about the packet (the options, the
normalization, the limits of the source) comes with it, and none of them
looks at a sequence number.
-/

namespace Obsd.PfTrack

open Tcp (Seq State ThFlags Sackblk seqGeq seqGt)

/-! ## The code -/

/-- A `struct pf_state_peer`; of `scrub` only whether it is there. -/
structure Peer where
  scrub : Bool := false
  seqlo : Seq := 0#32
  seqhi : Seq := 0#32
  seqdiff : Seq := 0#32
  maxWin : BitVec 16 := 0#16
  state : State := .closed
  wscale : BitVec 8 := 0#8
deriving DecidableEq, Repr

def pfWscaleFlag : BitVec 8 := 0x80#8

/-- `wscale & PF_WSCALE_MASK` -/
def Peer.shiftCount (p : Peer) : Nat := (p.wscale &&& 0x0f#8).toNat

/-- The timeouts of a TCP state. -/
inductive Pftm where
  | firstPacket | opening | established | closing | finWait | closed
deriving DecidableEq, Repr

/-- A `struct pf_state`: `scrubTcp` is `PFSTATE_SCRUB_TCP`, and `srcNodes` says that the
list of source nodes is not empty. -/
structure PfState where
  src : Peer
  dst : Peer
  scrubTcp : Bool
  srcNodes : Bool
  timeout : Pftm
  expire : Nat
deriving DecidableEq, Repr

/-- Whether a packet goes the way of the one that made the state. -/
inductive Dir where
  | fwd | rev
deriving DecidableEq, Repr

def PfState.sender (st : PfState) : Dir → Peer
  | .fwd => st.src
  | .rev => st.dst

def PfState.receiver (st : PfState) : Dir → Peer
  | .fwd => st.dst
  | .rev => st.src

/-- Both peers, written back where they came from. -/
def PfState.put (st : PfState) (d : Dir) (snd rcv : Peer) : PfState :=
  match d with
  | .fwd => { st with src := snd, dst := rcv }
  | .rev => { st with src := rcv, dst := snd }

/-- A packet in host order, with the blocks of its SACK options. `wscale` is what
`pf_get_wscale` returns and `ipReas` is `PFDESC_IP_REAS`. -/
structure Pd where
  dir : Dir
  thSeq : Seq
  thAck : Seq
  thFlags : ThFlags
  thWin : BitVec 16
  pLen : Seq := 0#32
  sack : List Sackblk := []
  wscale : BitVec 8 := 0#8
  ipReas : Bool := false
deriving DecidableEq, Repr

/-- What the other functions say about the packet. `random` is the modulator that comes
out of the loop around `arc4random`. -/
structure Env where
  initFails : Bool := false
  statefulDrops : Bool := false
  srcConnlimit : Bool := false
  random : { r : Seq // r ≠ 0#32 } := ⟨1#32, by decide⟩
  timeSecond : Nat := 0
deriving DecidableEq, Repr

inductive Verdict where
  | pass | drop
deriving DecidableEq, Repr

/-- The packet as it leaves, and the reset that may be sent: its sequence number. -/
structure Out where
  verdict : Verdict
  thSeq : Seq
  thAck : Seq
  sack : List Sackblk
  rst : Option Seq := none
deriving DecidableEq, Repr

/-- `w << s`, an `int`. -/
def shl (w : BitVec 16) (s : Nat) : Seq := w.setWidth 32 <<< s

/-- `MAX(w, 1)` on `int`. -/
def atLeastOne (w : Seq) : Seq := if w.toInt > 1 then w else 1#32

/-- The number after the packet. -/
def seqEnd (pd : Pd) : Seq :=
  pd.thSeq + pd.pLen + (if pd.thFlags.syn then 1#32 else 0#32)
    + (if pd.thFlags.fin then 1#32 else 0#32)

/-- The variables of the function, and the header with `th_seq` and `th_ack` rewritten. -/
structure Vars where
  src : Peer
  dst : Peer
  win : BitVec 16
  seq : Seq
  ack : Seq
  end_ : Seq
  sws : Nat
  dws : Nat
  thSeq : Seq
  thAck : Seq
deriving DecidableEq, Repr

/-- The scale factors, which do not apply to a SYN. -/
def scales (src dst : Peer) (pd : Pd) : Nat × Nat :=
  if src.wscale ≠ 0#8 ∧ dst.wscale ≠ 0#8 ∧ pd.thFlags.syn = false then
    (src.shiftCount, dst.shiftCount)
  else (0, 0)

/-- Deferred generation of the modulator, for the end that did not open the
connection. -/
def deferredModulator (env : Env) (pd : Pd) (v : Vars) : Vars :=
  if v.dst.seqdiff ≠ 0#32 ∧ v.src.seqdiff = 0#32 then
    { v with
      src := { v.src with seqdiff := env.random.val }
      ack := pd.thAck - v.dst.seqdiff
      thSeq := pd.thSeq + env.random.val
      thAck := pd.thAck - v.dst.seqdiff }
  else { v with ack := pd.thAck }

/-- The answer to a SYN with a scale factor says whether there is scaling at all. -/
def synScale (pd : Pd) (v : Vars) : Vars :=
  if pd.thFlags.syn = true ∧ v.dst.wscale &&& pfWscaleFlag ≠ 0#8 then
    let src := { v.src with wscale := pd.wscale }
    if src.wscale &&& pfWscaleFlag ≠ 0#8 then
      { v with
        src := src
        sws := src.shiftCount
        -- remove scale factor from initial window
        win := ((v.win.setWidth 32 + (1#32 <<< src.shiftCount) - 1#32) >>> src.shiftCount).setWidth 16
        dws := v.dst.shiftCount }
    else
      { v with
        src := src
        dst := { v.dst with maxWin := v.dst.maxWin <<< v.dst.shiftCount, wscale := 0#8 } }
  else v

/-- The state of an end nothing was seen of. -/
def openPeer (v : Vars) : Vars :=
  let top := v.end_ + atLeastOne (shl v.dst.maxWin v.dws)
  { v with
    src := { v.src with
      seqlo := v.seq
      state := if v.src.state.num < State.synSent.num then .synSent else v.src.state
      seqhi := if v.src.seqhi = 1#32 ∨ seqGeq top v.src.seqhi = true then top else v.src.seqhi
      maxWin := if v.win > v.src.maxWin then v.win else v.src.maxWin } }

/-- `seqlo` is 0: the packet counts as the first from its end. -/
def firstPacket (st : PfState) (env : Env) (pd : Pd) (v : Vars) : Option Vars :=
  let init := (st.scrubTcp || v.dst.scrub) && !v.src.scrub
  if init && env.initFails then none
  else
    let v := { v with src := { v.src with scrub := v.src.scrub || init } }
    some (openPeer (synScale pd (deferredModulator env pd v)))

/-- Any later packet. -/
def nextPacket (pd : Pd) (v : Vars) : Vars :=
  let ack := pd.thAck - v.dst.seqdiff
  if v.src.seqdiff ≠ 0#32 then
    { v with ack := ack, thSeq := pd.thSeq + v.src.seqdiff, thAck := ack }
  else { v with ack := ack }

/-- A packet without an acknowledgment gets through the skew check, and so does a reset of
a stack that leaves it 0. -/
def easeAck (pd : Pd) (v : Vars) : Vars :=
  if pd.thFlags.ack = false then { v with ack := v.dst.seqlo }
  else if (v.ack = 0#32 ∧ pd.thFlags.rst = true) ∨ v.dst.state.num < State.synSent.num then
    { v with ack := v.dst.seqlo }
  else v

/-- So does a packet without data through the sequence check. -/
def easeSeq (v : Vars) : Vars :=
  if v.seq = v.end_ then { v with seq := v.src.seqlo, end_ := v.src.seqlo } else v

/-- `MAXACKWINDOW` -/
def maxackwindow : Seq := 67035#32

def ackskew (v : Vars) : Int := (v.dst.seqlo - v.ack).toInt

def inWindow (pd : Pd) (v : Vars) : Bool :=
  seqGeq v.src.seqhi v.end_
    && seqGeq v.seq (v.src.seqlo - shl v.dst.maxWin v.dws)
    && decide (ackskew v ≥ -maxackwindow.toInt)
    && decide (ackskew v ≤ (maxackwindow <<< v.sws).toInt)
    && (!pd.thFlags.rst || pd.thSeq == v.src.seqlo || pd.thSeq == v.src.seqlo + 1#32
      || pd.thSeq + 1#32 == v.src.seqlo || !pd.ipReas)

/-- The awkward establishments and the time after the connection closed. -/
def looseMatch (v : Vars) : Bool :=
  (decide (v.dst.state.num < State.synSent.num) || decide (v.dst.state.num ≥ State.finWait2.num)
      || decide (v.src.state.num ≥ State.finWait2.num))
    && seqGeq (v.src.seqhi + maxackwindow) v.end_
    && seqGeq v.seq (v.src.seqlo - maxackwindow)

/-- The updates of the windows, the same in both branches. -/
def slide (v : Vars) : Vars :=
  { v with
    src := { v.src with
      maxWin := if v.src.maxWin < v.win then v.win else v.src.maxWin
      seqlo := if seqGt v.end_ v.src.seqlo then v.end_ else v.src.seqlo }
    dst := { v.dst with
      seqhi := if seqGeq (v.ack + shl v.win v.sws) v.dst.seqhi then
        v.ack + atLeastOne (shl v.win v.sws) else v.dst.seqhi } }

/-- The state of the sender after a SYN or a FIN. -/
def sentState (f : ThFlags) (s : State) : State :=
  let s := if f.syn = true ∧ s.num < State.synSent.num then .synSent else s
  if f.fin = true ∧ s.num < State.closing.num then .closing else s

/-- The state of the receiver after an acknowledgment of its SYN or its FIN. -/
def ackedState (f : ThFlags) (s : State) : State :=
  if f.ack = true then
    if s = .synSent then .established else if s = .closing then .finWait2 else s
  else s

/-- A reset closes both ends. -/
def resetState (f : ThFlags) (s : State) : State := if f.rst then .timeWait else s

def timeoutOf (src dst : State) : Pftm :=
  if src.num ≥ State.finWait2.num ∧ dst.num ≥ State.finWait2.num then .closed
  else if src.num ≥ State.closing.num ∧ dst.num ≥ State.closing.num then .finWait
  else if src.num < State.established.num ∨ dst.num < State.established.num then .opening
  else if src.num ≥ State.closing.num ∨ dst.num ≥ State.closing.num then .closing
  else .established

def Vars.setStates (v : Vars) (src dst : State) : Vars :=
  { v with src := { v.src with state := src }, dst := { v.dst with state := dst } }

/-- The state with the peers as the variables have them. -/
def PfState.store (st : PfState) (pd : Pd) (v : Vars) : PfState := st.put pd.dir v.src v.dst

/-- Update of the expire time. -/
def PfState.touch (st : PfState) (timeout : Pftm) (timeSecond : Nat) : PfState :=
  { st with expire := timeSecond, timeout := timeout }

/-- The verdict of a branch, a reset to be sent and the state it leaves. -/
abbrev Branch := Verdict × Option Seq × PfState

/-- The packet is inside the windows. -/
def accept (st : PfState) (env : Env) (pd : Pd) (v : Vars) : Branch :=
  if (v.dst.scrub || v.src.scrub) && env.statefulDrops then (.drop, none, st.store pd v)
  else
    let v := slide v
    let src := sentState pd.thFlags v.src.state
    let dst := ackedState pd.thFlags v.dst.state
    if pd.thFlags.ack = true ∧ v.dst.state = .synSent ∧ src = .established ∧ st.srcNodes = true
        ∧ env.srcConnlimit = true then
      (.drop, none, st.store pd (v.setStates src dst))
    else
      let src := resetState pd.thFlags src
      let dst := resetState pd.thFlags dst
      (.pass, none, (st.store pd (v.setStates src dst)).touch (timeoutOf src dst) env.timeSecond)

/-- It is not, but the connection is being opened or was closed. -/
def acceptLoose (st : PfState) (env : Env) (pd : Pd) (v : Vars) : Branch :=
  if (v.dst.scrub || v.src.scrub) && env.statefulDrops then (.drop, none, st.store pd v)
  else
    let v := slide v
    let src := if pd.thFlags.fin = true ∧ v.src.state.num < State.closing.num then .closing
      else v.src.state
    let src := resetState pd.thFlags src
    let dst := resetState pd.thFlags v.dst.state
    (.pass, none, st.store pd (v.setStates src dst))

/-- A mismatch during the handshake is answered, and the end starts over. -/
def mismatch (st : PfState) (pd : Pd) (v : Vars) : Branch :=
  if v.dst.state = .synSent ∧ v.src.state = .synSent then
    (.drop, if pd.thFlags.rst then none else some v.thAck,
      st.store pd { v with src := { v.src with seqlo := 0#32, seqhi := 1#32, maxWin := 1#16 } })
  else (.drop, none, st.store pd v)

/-- The variables as the function starts. -/
def enter (st : PfState) (pd : Pd) : Vars :=
  let src := st.sender pd.dir
  let dst := st.receiver pd.dir
  { src := src, dst := dst, win := pd.thWin, seq := pd.thSeq, ack := pd.thAck, end_ := seqEnd pd
    sws := (scales src dst pd).1, dws := (scales src dst pd).2
    thSeq := pd.thSeq, thAck := pd.thAck }

/-- `pf_modulate_sack` -/
def pfModulateSack (dst : Peer) (sack : List Sackblk) : List Sackblk :=
  if dst.seqdiff ≠ 0#32 then
    sack.map fun b => { b with start := b.start - dst.seqdiff, end_ := b.end_ - dst.seqdiff }
  else sack

/-- The checks, and the branch they lead to. -/
def decideBranch (st : PfState) (env : Env) (pd : Pd) (v : Vars) : Branch :=
  if inWindow pd v then accept st env pd v
  else if looseMatch v then acceptLoose st env pd v
  else mismatch st pd v

def pfTcpTrackFull (st : PfState) (env : Env) (pd : Pd) : Out × PfState :=
  let v := enter st pd
  let opened := if v.src.seqlo = 0#32 then firstPacket st env pd v else some (nextPacket pd v)
  match opened with
  | none => ({ verdict := .drop, thSeq := pd.thSeq, thAck := pd.thAck, sack := pd.sack }, st)
  | some v =>
    let v := easeSeq (easeAck pd v)
    let (verdict, rst, st') := decideBranch st env pd v
    ({ verdict, thSeq := v.thSeq, thAck := v.thAck, sack := pfModulateSack v.dst pd.sack, rst }, st')

/-- The state that `pf_create_state` makes of a SYN with `modulate state`; `iss` is what
`pf_tcp_iss` gives. -/
def pfCreateState (pd : Pd) (iss : Seq) (scrubTcp srcNodes : Bool) (timeSecond : Nat) : PfState :=
  let wscale := if pd.thFlags.syn then pd.wscale else 0#8
  let shift := (wscale &&& 0x0f#8).toNat
  let win := if pd.thWin > 1#16 then pd.thWin else 1#16
  { src :=
      { scrub := scrubTcp
        seqlo := pd.thSeq
        seqhi := seqEnd pd + 1#32
        seqdiff := if iss - pd.thSeq = 0#32 then 1#32 else iss - pd.thSeq
        maxWin := if shift = 0 then win
          else ((win.setWidth 32 + (1#32 <<< shift) - 1#32) >>> shift).setWidth 16
        state := .synSent
        wscale := wscale }
    dst := { seqhi := 1#32, maxWin := 1#16, state := .closed }
    scrubTcp := scrubTcp, srcNodes := srcNodes, timeout := .firstPacket, expire := timeSecond }

/-! ## Modulators stay

Once both are set no packet draws another one, and a packet leaves as the
branch for its end wrote it. -/

/-- Both modulators are set. -/
def Modulated (st : PfState) : Prop := st.src.seqdiff ≠ 0#32 ∧ st.dst.seqdiff ≠ 0#32

/-- The modulators of a state. -/
def PfState.seqdiffs (st : PfState) : Seq × Seq := (st.src.seqdiff, st.dst.seqdiff)

/-- The modulators among the variables. -/
def Vars.seqdiffs (v : Vars) : Seq × Seq := (v.src.seqdiff, v.dst.seqdiff)

variable {st : PfState} {env : Env} {pd : Pd} {v v' : Vars}

theorem put_seqdiffs {d : Dir} {snd rcv : Peer} (hs : snd.seqdiff = (st.sender d).seqdiff)
    (hr : rcv.seqdiff = (st.receiver d).seqdiff) : (st.put d snd rcv).seqdiffs = st.seqdiffs := by
  cases d with
  | fwd => exact Prod.ext hs hr
  | rev => exact Prod.ext hr hs

theorem Modulated.sender (h : Modulated st) (d : Dir) : (st.sender d).seqdiff ≠ 0#32 := by
  cases d with
  | fwd => exact h.1
  | rev => exact h.2

theorem modulated_of_seqdiffs {st' : PfState} (h : st'.seqdiffs = st.seqdiffs) (hm : Modulated st) :
    Modulated st' := by
  obtain ⟨hs, hd⟩ := Prod.mk.injEq .. ▸ h
  exact ⟨hs ▸ hm.1, hd ▸ hm.2⟩

theorem sender_seqdiff_of_seqdiffs {st' : PfState} (h : st'.seqdiffs = st.seqdiffs) (d : Dir) :
    (st'.sender d).seqdiff = (st.sender d).seqdiff ∧ (st'.receiver d).seqdiff = (st.receiver d).seqdiff := by
  obtain ⟨hs, hd⟩ := Prod.mk.injEq .. ▸ h
  cases d with
  | fwd => exact ⟨hs, hd⟩
  | rev => exact ⟨hd, hs⟩

theorem easeAck_frame (pd : Pd) (v : Vars) : ∃ ack, easeAck pd v = { v with ack := ack } := by
  unfold easeAck
  split
  · exact ⟨_, rfl⟩
  · split
    · exact ⟨_, rfl⟩
    · exact ⟨v.ack, rfl⟩

theorem easeSeq_frame (v : Vars) : ∃ seq end_, easeSeq v = { v with seq := seq, end_ := end_ } := by
  unfold easeSeq
  split
  · exact ⟨_, _, rfl⟩
  · exact ⟨v.seq, v.end_, rfl⟩

/-- Easing the checks changes neither the peers nor the header. -/
theorem ease_frame (pd : Pd) (v : Vars) :
    (easeSeq (easeAck pd v)).src = v.src ∧ (easeSeq (easeAck pd v)).dst = v.dst
      ∧ (easeSeq (easeAck pd v)).thSeq = v.thSeq ∧ (easeSeq (easeAck pd v)).thAck = v.thAck := by
  obtain ⟨ack, hack⟩ := easeAck_frame pd v
  obtain ⟨seq, end_, hseq⟩ := easeSeq_frame { v with ack := ack }
  rw [hack, hseq]
  exact ⟨rfl, rfl, rfl, rfl⟩

/-- No branch touches a modulator. -/
theorem decideBranch_seqdiffs (hs : v.src.seqdiff = (st.sender pd.dir).seqdiff)
    (hr : v.dst.seqdiff = (st.receiver pd.dir).seqdiff) :
    (decideBranch st env pd v).2.2.seqdiffs = st.seqdiffs := by
  unfold decideBranch
  split
  · unfold accept
    split
    · exact put_seqdiffs hs hr
    · dsimp only
      split
      · exact put_seqdiffs hs hr
      · exact put_seqdiffs hs hr
  · split
    · unfold acceptLoose
      split
      · exact put_seqdiffs hs hr
      · exact put_seqdiffs hs hr
    · unfold mismatch
      split
      · exact put_seqdiffs hs hr
      · exact put_seqdiffs hs hr

/-- The modulators among the variables, with the header. -/
def Vars.translation (v : Vars) : (Seq × Seq) × Seq × Seq := (v.seqdiffs, v.thSeq, v.thAck)

theorem synScale_translation : (synScale pd v).translation = v.translation := by
  unfold synScale
  dsimp only
  split
  · split <;> rfl
  · rfl

/-- With a modulator in place, none is drawn and the header stays as it came. -/
theorem deferredModulator_translation (h : v.src.seqdiff ≠ 0#32) :
    (deferredModulator env pd v).translation = v.translation := by
  rw [deferredModulator, if_neg fun hc => h hc.2]
  rfl

theorem firstPacket_translation (h : v.src.seqdiff ≠ 0#32) (hf : firstPacket st env pd v = some v') :
    v'.translation = v.translation := by
  unfold firstPacket at hf
  dsimp only at hf
  split at hf
  · cases hf
  · obtain rfl := Option.some.inj hf
    exact synScale_translation.trans (deferredModulator_translation h)

/-- What a packet finds in the header once its end is accounted for. -/
def opened (st : PfState) (env : Env) (pd : Pd) : Option Vars :=
  if (st.sender pd.dir).seqlo = 0#32 then firstPacket st env pd (enter st pd)
  else some (nextPacket pd (enter st pd))

theorem track_none (h : opened st env pd = none) :
    pfTcpTrackFull st env pd
      = ({ verdict := .drop, thSeq := pd.thSeq, thAck := pd.thAck, sack := pd.sack }, st) := by
  have h' : (if (enter st pd).src.seqlo = 0#32 then firstPacket st env pd (enter st pd)
      else some (nextPacket pd (enter st pd))) = none := h
  simp only [pfTcpTrackFull, h']

theorem track_some (h : opened st env pd = some v) :
    pfTcpTrackFull st env pd
      = ({ verdict := (decideBranch st env pd (easeSeq (easeAck pd v))).1
           thSeq := v.thSeq, thAck := v.thAck, sack := pfModulateSack v.dst pd.sack
           rst := (decideBranch st env pd (easeSeq (easeAck pd v))).2.1 },
          (decideBranch st env pd (easeSeq (easeAck pd v))).2.2) := by
  have h' : (if (enter st pd).src.seqlo = 0#32 then firstPacket st env pd (enter st pd)
      else some (nextPacket pd (enter st pd))) = some v := h
  obtain ⟨-, hd, hs, ha⟩ := ease_frame pd v
  simp only [pfTcpTrackFull, h', hd, hs, ha]

/-- What is known of the variables after the first branch. -/
theorem opened_spec (hm : Modulated st) (h : opened st env pd = some v) :
    v.seqdiffs = ((st.sender pd.dir).seqdiff, (st.receiver pd.dir).seqdiff)
      ∧ ((st.sender pd.dir).seqlo = 0#32 → v.thSeq = pd.thSeq ∧ v.thAck = pd.thAck)
      ∧ ((st.sender pd.dir).seqlo ≠ 0#32 → v.thSeq = pd.thSeq + (st.sender pd.dir).seqdiff
        ∧ v.thAck = pd.thAck - (st.receiver pd.dir).seqdiff) := by
  unfold opened at h
  by_cases h0 : (st.sender pd.dir).seqlo = 0#32
  · rw [if_pos h0] at h
    have ht : v.translation = (enter st pd).translation := firstPacket_translation (hm.sender pd.dir) h
    obtain ⟨hd, hs, ha⟩ : v.seqdiffs = (enter st pd).seqdiffs ∧ v.thSeq = pd.thSeq
        ∧ v.thAck = pd.thAck := by
      simp only [Vars.translation, Prod.mk.injEq] at ht
      exact ht
    exact ⟨hd, fun _ => ⟨hs, ha⟩, fun hc => absurd h0 hc⟩
  · rw [if_neg h0] at h
    have hn : nextPacket pd (enter st pd) = { enter st pd with
        ack := pd.thAck - (st.receiver pd.dir).seqdiff
        thSeq := pd.thSeq + (st.sender pd.dir).seqdiff
        thAck := pd.thAck - (st.receiver pd.dir).seqdiff } := if_pos (hm.sender pd.dir)
    obtain rfl := (Option.some.inj h).symm.trans hn
    exact ⟨rfl, fun hc => absurd hc h0, fun _ => ⟨rfl, rfl⟩⟩

/-- A modulated state keeps its modulators. -/
theorem track_seqdiffs (hm : Modulated st) : (pfTcpTrackFull st env pd).2.seqdiffs = st.seqdiffs := by
  cases h : opened st env pd with
  | none => rw [track_none h]
  | some v =>
    rw [track_some h]
    obtain ⟨hs, hd⟩ := Prod.mk.injEq .. ▸ (opened_spec hm h).1
    obtain ⟨hsrc, hdst, -, -⟩ := ease_frame pd v
    refine decideBranch_seqdiffs ?_ ?_
    · rw [hsrc]
      exact hs
    · rw [hdst]
      exact hd

/-- A packet that passes is translated, unless it is taken for the first of its end. -/
theorem track_translates (hm : Modulated st) (hp : (pfTcpTrackFull st env pd).1.verdict = .pass) :
    ((pfTcpTrackFull st env pd).1.thSeq = pd.thSeq + (st.sender pd.dir).seqdiff
        ∧ (pfTcpTrackFull st env pd).1.thAck = pd.thAck - (st.receiver pd.dir).seqdiff)
      ↔ (st.sender pd.dir).seqlo ≠ 0#32 := by
  cases h : opened st env pd with
  | none =>
    rw [track_none h] at hp
    cases hp
  | some v =>
    rw [track_some h]
    obtain ⟨-, hfirst, hnext⟩ := opened_spec hm h
    constructor
    · rintro ⟨hs, -⟩ h0
      have hs : pd.thSeq = pd.thSeq + (st.sender pd.dir).seqdiff := (hfirst h0).1.symm.trans hs
      exact hm.sender pd.dir (BitVec.self_eq_add_right.mp hs)
    · exact hnext

/-! ## Where the ends start

Two runs side by side: in the second, each end counts from somewhere else.
`k` says by how much, for the end that packets of a direction come from. -/

def Dir.flip : Dir → Dir
  | .fwd => .rev
  | .rev => .fwd

def Peer.shift (k : Seq) (p : Peer) : Peer := { p with seqlo := p.seqlo + k, seqhi := p.seqhi + k }

def PfState.shift (k : Dir → Seq) (st : PfState) : PfState :=
  { st with src := st.src.shift (k .fwd), dst := st.dst.shift (k .rev) }

def shiftSack (k : Seq) (b : Sackblk) : Sackblk := { b with start := b.start + k, end_ := b.end_ + k }

/-- An acknowledgment counts in the numbers of the other end. -/
def Pd.shift (k : Dir → Seq) (pd : Pd) : Pd :=
  { pd with
    thSeq := pd.thSeq + k pd.dir
    thAck := pd.thAck + k pd.dir.flip
    sack := pd.sack.map (shiftSack (k pd.dir.flip)) }

def Vars.shift (ks kd : Seq) (v : Vars) : Vars :=
  { v with
    src := v.src.shift ks, dst := v.dst.shift kd
    seq := v.seq + ks, end_ := v.end_ + ks, ack := v.ack + kd
    thSeq := v.thSeq + ks, thAck := v.thAck + kd }

def Out.shift (ks kd : Seq) (o : Out) : Out :=
  { o with
    thSeq := o.thSeq + ks, thAck := o.thAck + kd
    sack := o.sack.map (shiftSack kd), rst := o.rst.map (· + kd) }

section Shift

variable (k : Dir → Seq) (ks kd : Seq)

@[simp] theorem shift_dir : (pd.shift k).dir = pd.dir := rfl
@[simp] theorem shift_thFlags : (pd.shift k).thFlags = pd.thFlags := rfl

theorem sender_shift (d : Dir) : (st.shift k).sender d = (st.sender d).shift (k d) := by
  cases d <;> rfl

theorem receiver_shift (d : Dir) : (st.shift k).receiver d = (st.receiver d).shift (k d.flip) := by
  cases d <;> rfl

theorem store_shift (st : PfState) (pd : Pd) (v : Vars) :
    (st.shift k).store (pd.shift k) (v.shift (k pd.dir) (k pd.dir.flip)) = (st.store pd v).shift k := by
  unfold PfState.store
  rw [shift_dir]
  cases pd.dir <;> rfl

theorem enter_shift :
    enter (st.shift k) (pd.shift k) = (enter st pd).shift (k pd.dir) (k pd.dir.flip) := by
  have hend : seqEnd (pd.shift k) = seqEnd pd + k pd.dir := by
    simp only [seqEnd, Pd.shift]
    ac_rfl
  have hscale : scales ((st.shift k).sender pd.dir) ((st.shift k).receiver pd.dir) (pd.shift k)
      = scales (st.sender pd.dir) (st.receiver pd.dir) pd := by
    rw [sender_shift, receiver_shift]
    rfl
  simp only [enter, shift_dir, hend, hscale]
  rw [sender_shift, receiver_shift]
  rfl

theorem nextPacket_shift :
    nextPacket (pd.shift k) (v.shift (k pd.dir) (k pd.dir.flip))
      = (nextPacket pd v).shift (k pd.dir) (k pd.dir.flip) := by
  have hack : pd.thAck + k pd.dir.flip - v.dst.seqdiff = pd.thAck - v.dst.seqdiff + k pd.dir.flip := by
    rw [BitVec.add_sub_comm]
  have hseq : pd.thSeq + k pd.dir + v.src.seqdiff = pd.thSeq + v.src.seqdiff + k pd.dir := by
    ac_rfl
  simp only [nextPacket, Vars.shift, Pd.shift, Peer.shift, hack, hseq]
  split <;> rfl

/-- The reset of a stack that leaves the acknowledgment 0 looks the same in both runs. -/
theorem easeAck_shift
    (h0 : pd.thFlags.ack = true → pd.thFlags.rst = true → (v.ack + kd = 0#32 ↔ v.ack = 0#32)) :
    easeAck (pd.shift k) (v.shift ks kd) = (easeAck pd v).shift ks kd := by
  unfold easeAck
  cases hack : pd.thFlags.ack with
  | false => simp [hack, Vars.shift, Peer.shift]
  | true =>
    have hiff : (v.ack + kd = 0#32 ∧ pd.thFlags.rst = true) ↔ (v.ack = 0#32 ∧ pd.thFlags.rst = true) :=
      and_congr_left fun hr => h0 hack hr
    have hc : ((v.ack + kd = 0#32 ∧ pd.thFlags.rst = true) ∨ v.dst.state.num < State.synSent.num)
        ↔ ((v.ack = 0#32 ∧ pd.thFlags.rst = true) ∨ v.dst.state.num < State.synSent.num) :=
      or_congr_left hiff
    simp only [shift_thFlags, hack, Bool.true_eq_false, if_false]
    by_cases h : (v.ack = 0#32 ∧ pd.thFlags.rst = true) ∨ v.dst.state.num < State.synSent.num
    · rw [if_pos h]
      exact if_pos (hc.mpr h)
    · rw [if_neg h]
      exact if_neg fun hn => h (hc.mp hn)

theorem easeSeq_shift : easeSeq (v.shift ks kd) = (easeSeq v).shift ks kd := by
  unfold easeSeq
  by_cases h : v.seq = v.end_
  · rw [if_pos h]
    exact if_pos (congrArg (· + ks) h)
  · rw [if_neg h]
    exact if_neg fun hn => h ((BitVec.add_left_inj _).mp hn)

theorem inWindow_shift :
    inWindow (pd.shift k) (v.shift (k pd.dir) kd) = inWindow pd v := by
  have hskew : ackskew (v.shift (k pd.dir) kd) = ackskew v := by
    simp only [ackskew, Vars.shift, Peer.shift, Tcp.shift_sub_shift]
  have hlow (w : Seq) : v.src.seqlo + k pd.dir - w = v.src.seqlo - w + k pd.dir :=
    BitVec.add_sub_comm
  have hplus : v.src.seqlo + k pd.dir + 1#32 = v.src.seqlo + 1#32 + k pd.dir := by ac_rfl
  have hseq : pd.thSeq + k pd.dir + 1#32 = pd.thSeq + 1#32 + k pd.dir := by ac_rfl
  have heq (a b : Seq) : (a + k pd.dir == b + k pd.dir) = (a == b) := by
    rw [Bool.eq_iff_iff, beq_iff_eq, beq_iff_eq, BitVec.add_left_inj]
  simp only [inWindow, hskew]
  simp only [Vars.shift, Peer.shift, Pd.shift, hlow, hplus, hseq, heq, Tcp.seqGeq_shift]
  rfl

theorem looseMatch_shift : looseMatch (v.shift ks kd) = looseMatch v := by
  have hlow : v.src.seqlo + ks - maxackwindow = v.src.seqlo - maxackwindow + ks :=
    BitVec.add_sub_comm
  have hhigh : v.src.seqhi + ks + maxackwindow = v.src.seqhi + maxackwindow + ks := by ac_rfl
  simp only [looseMatch, Vars.shift, Peer.shift, hlow, hhigh, Tcp.seqGeq_shift]
  rfl

theorem slide_shift : slide (v.shift ks kd) = (slide v).shift ks kd := by
  have hack (w : Seq) : v.ack + kd + w = v.ack + w + kd := by ac_rfl
  simp only [slide, Vars.shift, Peer.shift, hack, Tcp.seqGeq_shift, Tcp.seqGt_shift]
  congr 2
  · split <;> rfl
  · split <;> rfl

/-- A branch, with the reset and the state it leaves shifted. -/
def shiftBranch (b : Branch) : Branch := (b.1, b.2.1.map (· + kd), b.2.2.shift k)

theorem accept_shift :
    accept (st.shift k) env (pd.shift k) (v.shift (k pd.dir) (k pd.dir.flip))
      = shiftBranch k (k pd.dir.flip) (accept st env pd v) := by
  unfold accept
  rw [slide_shift]
  by_cases hn : ((v.dst.scrub || v.src.scrub) && env.statefulDrops) = true
  · rw [if_pos hn, shiftBranch, ← store_shift]
    exact if_pos hn
  · rw [if_neg hn]
    refine (if_neg hn).trans ?_
    by_cases hl : pd.thFlags.ack = true ∧ (slide v).dst.state = .synSent
        ∧ sentState pd.thFlags (slide v).src.state = .established ∧ st.srcNodes = true
        ∧ env.srcConnlimit = true
    · rw [if_pos hl, shiftBranch, ← store_shift]
      exact if_pos hl
    · rw [if_neg hl, shiftBranch]
      refine (if_neg hl).trans ?_
      have hst := store_shift k st pd ((slide v).setStates
        (resetState pd.thFlags (sentState pd.thFlags (slide v).src.state))
        (resetState pd.thFlags (ackedState pd.thFlags (slide v).dst.state)))
      exact congrArg (fun s : PfState => (Verdict.pass, none, s.touch (timeoutOf
        (resetState pd.thFlags (sentState pd.thFlags (slide v).src.state))
        (resetState pd.thFlags (ackedState pd.thFlags (slide v).dst.state))) env.timeSecond)) hst

theorem acceptLoose_shift :
    acceptLoose (st.shift k) env (pd.shift k) (v.shift (k pd.dir) (k pd.dir.flip))
      = shiftBranch k (k pd.dir.flip) (acceptLoose st env pd v) := by
  unfold acceptLoose
  rw [slide_shift]
  by_cases hn : ((v.dst.scrub || v.src.scrub) && env.statefulDrops) = true
  · rw [if_pos hn, shiftBranch, ← store_shift]
    exact if_pos hn
  · rw [if_neg hn, shiftBranch, ← store_shift]
    exact if_neg hn

/-! ### Two runs

After a mismatch in the handshake the end has its markers back, and they
are the same in both runs. -/

/-- Nothing was seen of the end, or nothing that counts. -/
def Peer.Unseen (p : Peer) : Prop := p.seqlo = 0#32 ∧ p.seqhi = 1#32

instance (p : Peer) : Decidable p.Unseen := inferInstanceAs (Decidable (_ ∧ _))

def PeerShifted (s : Seq) (p q : Peer) : Prop := q = p.shift s ∨ q = p ∧ p.Unseen

/-- `b` tracks what `a` tracks, with the ends counting from somewhere else. -/
structure Shifted (a b : PfState) : Prop where
  sender : ∀ d, PeerShifted (k d) (a.sender d) (b.sender d)
  rest : b = { a with src := b.src, dst := b.dst }

theorem Shifted.of_shift (a : PfState) : Shifted k a (a.shift k) where
  sender d := .inl (sender_shift k d)
  rest := rfl

theorem receiver_eq_sender (d : Dir) : st.receiver d = st.sender d.flip := by
  cases d <;> rfl

/-- The packet does not meet a marker: its end was seen in both runs, the other end was seen
in one of them, and a reset acknowledges 0 in both or in neither. -/
def Unmarked (ab : PfState × PfState) (act : Env × Pd) : Prop :=
  let d := act.2.dir
  (ab.1.sender d).seqlo ≠ 0#32 ∧ (ab.2.sender d).seqlo ≠ 0#32
    ∧ ¬((ab.1.receiver d).Unseen ∧ (ab.2.receiver d).Unseen)
    ∧ (act.2.thFlags.ack = true → act.2.thFlags.rst = true →
      (act.2.thAck - (ab.1.receiver d).seqdiff + k d.flip = 0#32
        ↔ act.2.thAck - (ab.1.receiver d).seqdiff = 0#32))

variable {k} {a b : PfState}

theorem Shifted.eq_shift (h : Shifted k a b) (hok : Unmarked k (a, b) (env, pd)) : b = a.shift k := by
  obtain ⟨hsnd, -, hrcv, -⟩ := hok
  have hs : b.sender pd.dir = (a.sender pd.dir).shift (k pd.dir) := by
    obtain hs | ⟨-, hu, -⟩ := h.sender pd.dir
    · exact hs
    · exact absurd hu hsnd
  have hr : b.sender pd.dir.flip = (a.sender pd.dir.flip).shift (k pd.dir.flip) := by
    obtain hr | ⟨hr, hu⟩ := h.sender pd.dir.flip
    · exact hr
    · refine absurd ⟨?_, ?_⟩ hrcv
      · rw [receiver_eq_sender]
        exact hu
      · rw [receiver_eq_sender, hr]
        exact hu
  have hboth : b.src = a.src.shift (k .fwd) ∧ b.dst = a.dst.shift (k .rev) := by
    cases hd : pd.dir with
    | fwd =>
      rw [hd] at hs hr
      exact ⟨hs, hr⟩
    | rev =>
      rw [hd] at hs hr
      exact ⟨hr, hs⟩
  rw [h.rest, hboth.1, hboth.2]
  rfl

/-- A mismatch leaves the end with its markers in both runs, or as it was in both. -/
theorem mismatch_shift {m m' : Branch} (hm : m = mismatch st pd v)
    (hm' : m' = mismatch (st.shift k) (pd.shift k) (v.shift (k pd.dir) (k pd.dir.flip))) :
    m'.1 = m.1 ∧ m'.2.1 = m.2.1.map (· + k pd.dir.flip) ∧ Shifted k m.2.2 m'.2.2 := by
  unfold mismatch at hm hm'
  by_cases h : v.dst.state = .synSent ∧ v.src.state = .synSent
  · rw [if_pos h] at hm
    obtain rfl := hm
    obtain rfl := hm'.trans (if_pos h)
    refine ⟨rfl, ?_, ?_, ?_⟩
    · by_cases hr : pd.thFlags.rst = true
      · rw [if_pos hr]
        exact if_pos hr
      · rw [if_neg hr]
        exact if_neg hr
    · have hreset : PeerShifted (k pd.dir)
          { v.src with seqlo := 0#32, seqhi := 1#32, maxWin := 1#16 }
          { v.src with seqlo := 0#32, seqhi := 1#32, maxWin := 1#16 } := .inr ⟨rfl, rfl, rfl⟩
      intro d
      simp only [PfState.store, shift_dir]
      revert hreset
      cases pd.dir <;> cases d <;> intro hreset
      · exact hreset
      · exact .inl rfl
      · exact .inl rfl
      · exact hreset
    · simp only [PfState.store, shift_dir]
      cases pd.dir <;> rfl
  · rw [if_neg h] at hm
    obtain rfl := hm
    obtain rfl := hm'.trans (if_neg h)
    refine ⟨rfl, rfl, ?_⟩
    rw [store_shift]
    exact Shifted.of_shift k _

theorem decideBranch_shift (st : PfState) (env : Env) (pd : Pd) (v : Vars) {m m' : Branch} (hm : m = decideBranch st env pd v)
    (hm' : m' = decideBranch (st.shift k) env (pd.shift k) (v.shift (k pd.dir) (k pd.dir.flip))) :
    m'.1 = m.1 ∧ m'.2.1 = m.2.1.map (· + k pd.dir.flip) ∧ Shifted k m.2.2 m'.2.2 := by
  rw [decideBranch] at hm
  rw [decideBranch, inWindow_shift, looseMatch_shift, accept_shift, acceptLoose_shift] at hm'
  by_cases hin : inWindow pd v = true
  · rw [if_pos hin] at hm hm'
    rw [hm', hm]
    exact ⟨rfl, rfl, Shifted.of_shift k _⟩
  · rw [if_neg hin] at hm hm'
    by_cases hl : looseMatch v = true
    · rw [if_pos hl] at hm hm'
      rw [hm', hm]
      exact ⟨rfl, rfl, Shifted.of_shift k _⟩
    · rw [if_neg hl] at hm hm'
      exact mismatch_shift hm hm'

theorem pfModulateSack_shift (dst : Peer) (sack : List Sackblk) (s : Seq) :
    pfModulateSack (dst.shift s) (sack.map (shiftSack s)) = (pfModulateSack dst sack).map (shiftSack s) := by
  unfold pfModulateSack
  by_cases h : dst.seqdiff = 0#32
  · rw [if_neg (not_not.mpr h)]
    exact if_neg (not_not.mpr h)
  · rw [if_pos h]
    refine (if_pos h).trans ?_
    rw [List.map_map, List.map_map]
    refine List.map_congr_left fun blk _ => ?_
    simp only [Function.comp, shiftSack, Peer.shift, BitVec.add_sub_comm]

/-- Away from the markers, the packet gets the same verdict in both runs, leaves shifted and
leaves the state shifted. -/
theorem track_shift (h : Shifted k a b) (hok : Unmarked k (a, b) (env, pd)) :
    (pfTcpTrackFull b env (pd.shift k)).1
        = (pfTcpTrackFull a env pd).1.shift (k pd.dir) (k pd.dir.flip)
      ∧ Shifted k (pfTcpTrackFull a env pd).2 (pfTcpTrackFull b env (pd.shift k)).2 := by
  obtain rfl := h.eq_shift hok
  obtain ⟨hsa, hsb, -, hzero⟩ := hok
  have hoa : opened a env pd = some (nextPacket pd (enter a pd)) := if_neg hsa
  have hob : opened (a.shift k) env (pd.shift k)
      = some ((nextPacket pd (enter a pd)).shift (k pd.dir) (k pd.dir.flip)) := by
    rw [← nextPacket_shift, ← enter_shift]
    exact if_neg hsb
  have hnext : (nextPacket pd (enter a pd)).ack = pd.thAck - (a.receiver pd.dir).seqdiff := by
    unfold nextPacket
    split <;> rfl
  have hease : easeSeq (easeAck (pd.shift k)
        ((nextPacket pd (enter a pd)).shift (k pd.dir) (k pd.dir.flip)))
      = (easeSeq (easeAck pd (nextPacket pd (enter a pd)))).shift (k pd.dir) (k pd.dir.flip) := by
    rw [easeAck_shift, easeSeq_shift]
    rw [hnext]
    exact hzero
  rw [track_some hoa, track_some hob, hease]
  obtain ⟨hv, hr, hst⟩ := decideBranch_shift a env pd
    (easeSeq (easeAck pd (nextPacket pd (enter a pd)))) rfl rfl
  refine ⟨?_, hst⟩
  simp only [Out.shift, hv, hr]
  exact congrArg (fun l => Out.mk _ _ _ l _) (pfModulateSack_shift ..)

end Shift

/-! ## Runs -/

/-- A packet of either end. -/
def step (st : PfState) (act : Env × Pd) : Option PfState := some (pfTcpTrackFull st act.1 act.2).2

/-- The packet in both runs. -/
def stepBoth (k : Dir → Seq) (ab : PfState × PfState) (act : Env × Pd) : Option (PfState × PfState) :=
  some ((pfTcpTrackFull ab.1 act.1 act.2).2, (pfTcpTrackFull ab.2 act.1 (act.2.shift k)).2)

theorem run_seqdiffs {st₀ st : PfState} (hm : Modulated st₀)
    (h : Runs step (fun _ _ => True) st₀ st) : st.seqdiffs = st₀.seqdiffs := by
  have hstep : ∀ s act s', True → step s act = some s' → s.seqdiffs = st₀.seqdiffs →
      s'.seqdiffs = st₀.seqdiffs := by
    intro s act s' _ hs hi
    obtain rfl := Option.some.inj hs
    exact (track_seqdiffs (modulated_of_seqdiffs hi hm)).trans hi
  have hend := Runs.invariant hstep h
  exact hend rfl

theorem run_shifted {k : Dir → Seq} {st₀ a b : PfState}
    (h : Runs (stepBoth k) (Unmarked k) (st₀, st₀.shift k) (a, b)) : Shifted k a b := by
  have hstep : ∀ (ab : PfState × PfState) act ab', Unmarked k ab act → stepBoth k ab act = some ab' →
      Shifted k ab.1 ab.2 → Shifted k ab'.1 ab'.2 := by
    intro ab act ab' hok hs hi
    obtain rfl := Option.some.inj hs
    exact (track_shift hi hok).2
  have hend := Runs.invariant hstep h
  exact hend (Shifted.of_shift k st₀)

/-- From a state with both modulators on, a packet that passes is translated by them exactly
if `seqlo` of its end is not 0. And as long as no packet meets a marker, it makes no
difference where the ends start: all verdicts are the same, and packets and states are
shifted. -/
theorem modulation_translates (st₀ : PfState) :
    (∀ (st : PfState) (env : Env) (pd : Pd), Modulated st₀ →
        Runs step (fun _ _ => True) st₀ st → (pfTcpTrackFull st env pd).1.verdict = .pass →
        (((pfTcpTrackFull st env pd).1.thSeq = pd.thSeq + (st₀.sender pd.dir).seqdiff
          ∧ (pfTcpTrackFull st env pd).1.thAck = pd.thAck - (st₀.receiver pd.dir).seqdiff)
            ↔ (st.sender pd.dir).seqlo ≠ 0#32))
      ∧ ∀ (k : Dir → Seq) (a b : PfState),
        Runs (stepBoth k) (Unmarked k) (st₀, st₀.shift k) (a, b) →
        Shifted k a b ∧ ∀ (env : Env) (pd : Pd), Unmarked k (a, b) (env, pd) →
          (pfTcpTrackFull b env (pd.shift k)).1.verdict = (pfTcpTrackFull a env pd).1.verdict
          ∧ (pfTcpTrackFull b env (pd.shift k)).1
            = (pfTcpTrackFull a env pd).1.shift (k pd.dir) (k pd.dir.flip) := by
  constructor
  · intro st env pd hm hrun hp
    have hd := run_seqdiffs hm hrun
    have ht := track_translates (modulated_of_seqdiffs hd hm) hp
    obtain ⟨hs, hr⟩ := sender_seqdiff_of_seqdiffs hd pd.dir
    rw [hs, hr] at ht
    exact ht
  · intro k a b hrun
    have hsh := run_shifted hrun
    refine ⟨hsh, fun env pd hok => ?_⟩
    have hout := (track_shift hsh hok).1
    exact ⟨by rw [hout]; rfl, hout⟩

/-- A connection whose first end starts three numbers before the wrap. -/
def early : PfState :=
  (pfTcpTrackFull
    (pfCreateState { dir := .fwd, thSeq := 0xFFFFFFFD#32, thAck := 0#32
                     thFlags := { syn := true }, thWin := 1000#16 } 4997#32 false false 0)
    { random := ⟨0x40000000#32, by decide⟩ }
    { dir := .rev, thSeq := 100#32, thAck := 4998#32
      thFlags := { syn := true, ack := true }, thWin := 1000#16 }).2

/-- A segment of the first end. -/
def segment (seq len : Seq) (flags : ThFlags) : Pd :=
  { dir := .fwd, thSeq := seq, thAck := 0x40000065#32, thFlags := flags, thWin := 1000#16, pLen := len }

/-- Two bytes later its next number is 0. -/
def wrapped : PfState :=
  (pfTcpTrackFull early {} (segment 0xFFFFFFFE#32 2#32 { ack := true })).2

theorem modulation_translates_early :
    (pfTcpTrackFull early {} (segment 0xFFFFFFFE#32 1#32 { ack := true })).1.thSeq = 0xFFFFFFFE#32 + 5000#32
      ∧ (pfTcpTrackFull (early.shift fun _ => 9#32) {}
          ((segment 0xFFFFFFFE#32 1#32 { ack := true }).shift fun _ => 9#32)).1.verdict = .pass := by
  have hm : Modulated early := by
    unfold Modulated
    decide +kernel
  have h1 := ((modulation_translates early).1 early {} (segment 0xFFFFFFFE#32 1#32 { ack := true }) hm
    .refl (by decide +kernel)).mpr (by decide +kernel)
  have hok : Unmarked (fun _ => 9#32) (early, early.shift fun _ => 9#32)
      ({}, segment 0xFFFFFFFE#32 1#32 { ack := true }) := by
    unfold Unmarked
    decide +kernel
  have h2 := (((modulation_translates early).2 (fun _ => 9#32) early _ .refl).2 {} _ hok).1
  refine ⟨h1.1.trans ?_, h2.trans ?_⟩
  · decide +kernel
  · decide +kernel

/-- After the wrap a reset passes as it came, and a data segment is dropped that passes when
the end starts one number later. -/
theorem wrapped_untranslated :
    Modulated early ∧ Runs step (fun _ _ => True) early wrapped
      ∧ (pfTcpTrackFull wrapped {} (segment 0#32 0#32 { rst := true })).1.verdict = .pass
      ∧ (pfTcpTrackFull wrapped {} (segment 0#32 0#32 { rst := true })).1.thSeq ≠ 0#32 + early.src.seqdiff
      ∧ (pfTcpTrackFull wrapped {} (segment 0#32 1#32 { ack := true })).1.verdict = .drop
      ∧ (pfTcpTrackFull (wrapped.shift fun d => if d = .fwd then 1#32 else 0#32) {}
          ((segment 0#32 1#32 { ack := true }).shift fun d => if d = .fwd then 1#32 else 0#32)).1.verdict
        = .pass := by
  refine ⟨?_, .single ⟨({}, segment 0xFFFFFFFE#32 2#32 { ack := true }), trivial, rfl⟩, ?_⟩
  · unfold Modulated
    decide +kernel
  · decide +kernel

end Obsd.PfTrack
