import Obsd.RingBuf

/-!
# Block Ack reordering

The receive side of an HT-immediate Block Ack agreement
(net80211/ieee80211_input.c). Received MPDUs wait in a ring of
`IEEE80211_BA_MAX_WINSZ` slots until the frames before them have arrived;
the ring's head stands for `ba_winstart`, and sequence numbers are 12 bits
wide and compared by half of their space.

`ieee80211_input` on a buffered frame is the way up the stack: the frames
handed to it are the list each function returns. The inactivity timer is
left out.
-/

namespace Obsd.BlockAck

/-- IEEE80211_BA_MAX_WINSZ -/
def baMaxWinsz : Nat := 128

/-- IEEE80211_RXI_AMPDU_DONE -/
def rxiAmpduDone : BitVec 32 := 0x2

/-- `x & 0xfff` of an `int`. -/
def low12 (x : Int) : Nat := (x % 4096).toNat

/-- SEQ_LT -/
def seqLt (a b : Nat) : Bool := 2048 < low12 ((a : Int) - b)

structure Rxinfo where
  flags : BitVec 32
  tstamp : BitVec 32
  rssi : Int
deriving DecidableEq

/-- A received MPDU: its sequence control field, and the rest of it. -/
structure Mpdu (α : Type*) where
  iSeq : BitVec 16
  body : α
deriving DecidableEq

variable {α : Type*}

/-- `letoh16(wh->i_seq) >> IEEE80211_SEQ_SEQ_SHIFT` -/
def Mpdu.sn (m : Mpdu α) : Nat := m.iSeq.toNat >>> 4

/-- One entry of `ba_buf`. -/
structure Slot (α : Type*) where
  m : Mpdu α
  rxi : Rxinfo
deriving DecidableEq

structure RxBa (α : Type*) where
  buf : Nat → Option (Slot α)
  winstart : Nat
  winend : Nat
  winsize : Nat
  head : Nat

/-! ## The functions -/

/-- `ba_buf[i].m = m` with its meta-data; `none` clears the slot. -/
def RxBa.put (ba : RxBa α) (i : Nat) (slot : Option (Slot α)) : RxBa α :=
  { ba with buf := Function.update ba.buf i slot }

/-- `ba_head = (ba_head + 1) % IEEE80211_BA_MAX_WINSZ` -/
def RxBa.nextHead (ba : RxBa α) : RxBa α := { ba with head := (ba.head + 1) % baMaxWinsz }

/-- The loop that leaves `count` slots behind and passes up what they
hold; gaps may exist. -/
def flush : Nat → RxBa α → List (Slot α) × RxBa α
  | 0, ba => ([], ba)
  | count + 1, ba =>
    match ba.buf ba.head with
    | some slot =>
      let (up, ba') := flush count (ba.put ba.head none).nextHead
      (slot :: up, ba')
    | none => flush count ba.nextHead

/-- The loop that passes reordered MPDUs up while the head's slot is
filled. Every turn empties a slot, so one turn for each slot is enough. -/
def passUp : Nat → RxBa α → List (Slot α) × RxBa α
  | 0, ba => ([], ba)
  | turns + 1, ba =>
    match ba.buf ba.head with
    | some slot =>
      let ba' := (ba.put ba.head none).nextHead
      let (up, ba'') := passUp turns { ba' with winstart := low12 (ba'.winstart + 1) }
      (slot :: up, ba'')
    | none => ([], ba)

/-- `ba_winend = (ba_winstart + ba_winsize - 1) & 0xfff` -/
def RxBa.setWinend (ba : RxBa α) : RxBa α :=
  { ba with winend := low12 (ba.winstart + ba.winsize - 1) }

/-- What the functions that receive frames leave: the frames passed up,
the state, and the input errors counted. -/
structure Result (α : Type*) where
  up : List (Slot α)
  ba : RxBa α
  ierrors : Nat

/-- The part of `ieee80211_input_ba` that makes room for a frame behind
the window. -/
def makeRoom (ba : RxBa α) (sn : Nat) : List (Slot α) × RxBa α :=
  if seqLt ba.winend sn then
    let count := low12 ((sn : Int) - ba.winend)
    let (up, ba') := flush (if ba.winsize < count then ba.winsize else count) ba
    (up, { ba' with winend := sn, winstart := low12 ((sn : Int) - ba'.winsize + 1) })
  else ([], ba)

/-- The part of `ieee80211_input_ba` that stores the frame and passes up
what is in order. -/
def storeMpdu (ba : RxBa α) (m : Mpdu α) (rxi : Rxinfo) : Result α :=
  let idx := (ba.head + low12 ((m.sn : Int) - ba.winstart)) % baMaxWinsz
  match ba.buf idx with
  | some _ => ⟨[], ba, 1⟩
  | none =>
    let (up, ba') := passUp baMaxWinsz (ba.put idx
      (some ⟨m, { rxi with flags := rxi.flags ||| rxiAmpduDone }⟩))
    ⟨up, ba'.setWinend, 0⟩

/-- ieee80211_input_ba -/
def inputBa (ba : RxBa α) (m : Mpdu α) (rxi : Rxinfo) : Result α :=
  if seqLt m.sn ba.winstart then ⟨[], ba, 1⟩
  else
    let (up, ba') := makeRoom ba m.sn
    let r := storeMpdu ba' m rxi
    { r with up := up ++ r.up }

/-- ieee80211_ba_move_window -/
def baMoveWindow (ba : RxBa α) (ssn : Nat) : Result α :=
  let count := low12 ((ssn : Int) - ba.winstart)
  let (up, ba') := flush (if ba.winsize < count then ba.winsize else count) ba
  let (up', ba'') := passUp baMaxWinsz { ba' with winstart := ssn }
  ⟨up ++ up', ba''.setWinend, 0⟩

/-- ieee80211_bar_tid, of an agreement that is not protected; the ADDBA
Request of a protected one has the same test. -/
def barTid (ba : RxBa α) (ssn : Nat) : Result α :=
  if seqLt ba.winstart ssn then baMoveWindow ba ssn else ⟨[], ba, 0⟩

/-- The agreement that ieee80211_recv_addba_req sets up, from the buffer
size and the starting sequence number of the request. -/
def recvAddbaReq (bufsz ssn : Nat) : RxBa α :=
  let winsize := if bufsz = 0 ∨ baMaxWinsz < bufsz then baMaxWinsz else bufsz
  { buf := fun _ => none, winstart := ssn, winend := low12 ((ssn : Int) + winsize - 1),
    winsize := winsize, head := 0 }

end Obsd.BlockAck
