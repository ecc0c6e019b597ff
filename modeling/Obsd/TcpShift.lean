import Mathlib
import Obsd.TcpStages

/-!
# Loss recovery and the origin of sequence numbers

Where a connection starts in the sequence space should make no difference:
with all numbers shifted by some `k`, the sender should do the same. The
`SEQ_*` macros only see differences modulo `2^32`, so the holes come out
shifted and everything that counts bytes comes out the same.
`tcp_seq_subtract` is another matter. It takes its arguments as `u_long`
and subtracts there: with 64 bits the difference of two numbers on either
side of the wrap is not the number of bytes between them.

The control block has the fields of `TCP_FACK` here, and `Build` says
whether the kernel has them and how wide its `u_long` is.
-/

namespace Obsd.Tcp

/-! ## The code -/

/-- The data models of the ports: how many bits a `u_long` has. -/
inductive Ulong where
  | ilp32 | lp64
deriving DecidableEq, Repr

def Ulong.bits : Ulong → Nat
  | .ilp32 => 32
  | .lp64 => 64

/-- A kernel, as far as it matters here. -/
structure Build where
  ulong : Ulong
  tcpFack : Bool
deriving DecidableEq, Repr

/-- `tcp_seq_subtract`: both numbers are widened first. -/
def Ulong.seqSubtract (u : Ulong) (a b : Seq) : Nat := (a.toNat + (2 ^ u.bits - b.toNat)) % 2 ^ u.bits

/-- A control block with the fields of `TCP_FACK`; `retran_data` is an `int`. -/
structure FackTcpcb extends Tcpcb where
  sndFack : Seq := 0#32
  sndAwnd : Nat := 0
  retranData : BitVec 32 := 0#32
deriving DecidableEq, Repr

/-- `snd_nxt - snd_fack + retran_data`, in `u_long`. -/
def FackTcpcb.awnd (u : Ulong) (tp : FackTcpcb) : Nat :=
  (u.seqSubtract tp.sndNxt tp.sndFack + (tp.retranData.signExtend u.bits).toNat) % 2 ^ u.bits

/-- A block that is neither bad nor old may move `snd_fack`. -/
def sackFack (b : Build) (tp : FackTcpcb) (sack : Sackblk) : FackTcpcb :=
  if b.tcpFack && !seqLeq sack.end_ sack.start && !seqLeq sack.end_ tp.sndUna
      && seqGt sack.end_ tp.sndFack then { tp with sndFack := sack.end_ }
  else tp

/-- What an option leads to. -/
inductive FackSacked where
  | done (tp : FackTcpcb)
  | spins
  | panic
deriving DecidableEq, Repr

/-- The loop over the blocks. What it does to `retran_data` is left out: at `done` this
is computed anew. -/
def fackLoop (b : Build) (thAck : Seq) : FackTcpcb → List Bool → List Sackblk → FackSacked
  | tp, _, [] => .done tp
  | tp, pools, sack :: rest =>
    let tp := sackFack b tp sack
    match sackBlock thAck tp.toTcpcb pools sack with
    | .next tp' pools => fackLoop b thAck { tp with toTcpcb := tp' } pools rest
    | .done tp' => .done { tp with toTcpcb := tp' }
    | .spins => .spins
    | .panic => .panic

/-- `done`: `retran_data` and `snd_awnd`. -/
def fackDone (b : Build) (tp : FackTcpcb) : FackTcpcb :=
  if b.tcpFack then
    let tp := { tp with retranData := (tp.sndHoles.map fun cur : Sackhole => cur.rxmit - cur.start).sum }
    { tp with sndAwnd := tp.awnd b.ulong }
  else tp

/-- The tests before the loop. -/
def sackIgnored (tp : Tcpcb) (th : Tcphdr) (cp : List UInt8) : Bool :=
  !tp.sackEnable || !th.thFlags.ack || seqLt th.thAck tp.sndUna || seqGt th.thAck tp.sndMax
    || decide (cp.length ≤ 2) || decide ((cp.length - 2) % 8 ≠ 0)

/-- `tcp_sack_option`, with or without `TCP_FACK`. -/
def fackSackOption (b : Build) (tp : FackTcpcb) (th : Tcphdr) (cp : List UInt8) (pools : List Bool) :
    FackSacked :=
  if sackIgnored tp.toTcpcb th cp then .done tp
  else if tp.tMaxseg = 0 then .panic
  else
    let tp := { tp with sndNumholes := if tp.sndNumholes < 0 then 0 else tp.sndNumholes }
    match fackLoop b th.thAck tp pools (sackBlocks (cp.drop 2)) with
    | .done tp => .done (fackDone b tp)
    | r => r

/-- Out of fast recovery. -/
def recoveryExit (b : Build) (thAck : Seq) (tp : FackTcpcb) : FackTcpcb :=
  let tp := { tp with
    sndCwnd := min tp.sndSsthresh (b.ulong.seqSubtract tp.sndMax thAck)
    tDupacks := 0 }
  if b.tcpFack && tp.sackEnable && seqGt thAck tp.sndFack then { tp with sndFack := thAck } else tp

/-- `tcp_sack_partialack`, and what `tcp_input` does when it was one. -/
def sackPartialack (b : Build) (thAck : Seq) (tp : FackTcpcb) : FackTcpcb :=
  let acked := (thAck - tp.sndUna).toNat
  let tp := { tp with rexmtArmed := false }
  if b.tcpFack then
    if tp.sndAwnd < tp.sndCwnd then { tp with tfNeedoutput := true } else tp
  else
    { tp with
      sndCwnd := (if tp.sndCwnd > acked then tp.sndCwnd - acked + tp.tMaxseg else tp.tMaxseg)
        + tp.tMaxseg
      tfNeedoutput := true }

/-- Retract an inflated window; `none` is a partial acknowledgment without SACK, which
is up to `tcp_newreno`. -/
def fastRecovery (b : Build) (thAck : Seq) (tp : FackTcpcb) : Option FackTcpcb :=
  if tp.tDupacks < tcprexmtthresh then some { tp with tDupacks := 0 }
  else if seqLt thAck tp.sndLast then
    if tp.sackEnable then some (sackPartialack b thAck tp) else none
  else some (recoveryExit b thAck tp)

/-- `snd_una` moves to the acknowledgment, and with it `snd_last`, `snd_nxt` and
`snd_fack`. -/
def fackAck (b : Build) (thAck : Seq) (tp : FackTcpcb) : FackTcpcb :=
  let tp := { tp with
    sndUna := thAck
    sndLast := if seqGt thAck tp.sndLast then thAck else tp.sndLast
    sndNxt := if seqLt tp.sndNxt thAck then thAck else tp.sndNxt }
  if b.tcpFack && seqGt thAck tp.sndFack then
    let tp := { tp with sndFack := thAck }
    { tp with sndAwnd := tp.awnd b.ulong }
  else tp

/-! ## Without the new fields -/

def FackSacked.base : FackSacked → Sacked
  | .done tp => .done tp.toTcpcb
  | .spins => .spins
  | .panic => .panic

theorem sackFack_base (b : Build) (tp : FackTcpcb) (sack : Sackblk) :
    (sackFack b tp sack).toTcpcb = tp.toTcpcb := by
  unfold sackFack
  split <;> rfl

theorem fackLoop_base (b : Build) (thAck : Seq) :
    ∀ (tp : FackTcpcb) (pools : List Bool) (blks : List Sackblk),
      (fackLoop b thAck tp pools blks).base = sackLoop thAck tp.toTcpcb pools blks
  | tp, _, [] => rfl
  | tp, pools, sack :: rest => by
      rw [fackLoop, sackLoop, sackFack_base]
      cases sackBlock thAck tp.toTcpcb pools sack with
      | next tp' pools => exact fackLoop_base b thAck _ pools rest
      | done tp' => rfl
      | spins => rfl
      | panic => rfl

theorem fackDone_base (b : Build) (tp : FackTcpcb) : (fackDone b tp).toTcpcb = tp.toTcpcb := by
  unfold fackDone
  split <;> rfl

/-- With 64 bits and without `TCP_FACK` this is the stage of `tcp_input`. -/
theorem fastRecovery_base (k : Kern) (thAck : Seq) {tp tp' : FackTcpcb}
    (h : fastRecovery ⟨.lp64, false⟩ thAck tp = some tp') :
    tp'.toTcpcb = recoveryStage k thAck tp.toTcpcb := by
  unfold fastRecovery at h
  unfold recoveryStage
  by_cases hdup : tp.tDupacks < tcprexmtthresh
  · rw [if_pos hdup] at h
    obtain rfl := Option.some.inj h
    rw [if_neg (Nat.not_le.mpr hdup), if_pos hdup]
  · rw [if_neg hdup] at h
    rw [if_pos (Nat.not_lt.mp hdup)]
    by_cases hpart : seqLt thAck tp.sndLast
    · rw [if_pos hpart] at h ⊢
      cases hs : tp.sackEnable with
      | true =>
          rw [hs, if_pos rfl] at h
          obtain rfl := Option.some.inj h
          simp [partialAck, sackPartialack, hs, hdup]
      | false =>
          rw [hs] at h
          cases h
    · rw [if_neg hpart] at h ⊢
      obtain rfl := Option.some.inj h
      simp [recoveryExit, leaveRecovery, tcprexmtthresh, Ulong.seqSubtract, tcpSeqSubtract, Ulong.bits]

/-! ## Shifting -/

def Sackhole.shift (k : Seq) (h : Sackhole) : Sackhole :=
  { h with start := h.start + k, end_ := h.end_ + k, rxmit := h.rxmit + k }

def Sackblk.shift (k : Seq) (s : Sackblk) : Sackblk := ⟨s.start + k, s.end_ + k⟩

def Tcpqent.shift (k : Seq) (e : Tcpqent) : Tcpqent := { e with thSeq := e.thSeq + k }

def Tcphdr.shift (k : Seq) (th : Tcphdr) : Tcphdr :=
  { th with thSeq := th.thSeq + k, thAck := th.thAck + k }

/-- All the sequence numbers of a control block, of either direction. -/
def Tcpcb.shift (k : Seq) (tp : Tcpcb) : Tcpcb :=
  { tp with
    tSegq := tp.tSegq.map (Tcpqent.shift k)
    sndUna := tp.sndUna + k
    sndNxt := tp.sndNxt + k
    sndMax := tp.sndMax + k
    sndWl1 := tp.sndWl1 + k
    sndWl2 := tp.sndWl2 + k
    sndLast := tp.sndLast + k
    sndHoles := tp.sndHoles.map (Sackhole.shift k)
    rcvLastsack := tp.rcvLastsack + k
    rcvNxt := tp.rcvNxt + k
    rcvUp := tp.rcvUp + k
    rcvAdv := tp.rcvAdv + k
    lastAckSent := tp.lastAckSent + k }

/-- Four bytes, network order. -/
def htonl (x : Seq) : List UInt8 :=
  [⟨x.extractLsb' 24 8⟩, ⟨x.extractLsb' 16 8⟩, ⟨x.extractLsb' 8 8⟩, ⟨x.extractLsb' 0 8⟩]

/-- The numbers of the blocks of an option. -/
def shiftBlocks (k : Seq) : List UInt8 → List UInt8
  | a :: b :: c :: d :: e :: f :: g :: h :: rest =>
    htonl (ntohl a b c d + k) ++ htonl (ntohl e f g h + k) ++ shiftBlocks k rest
  | l => l

def shiftOption (k : Seq) (cp : List UInt8) : List UInt8 := cp.take 2 ++ shiftBlocks k (cp.drop 2)

theorem ntohl_htonl (x : Seq) :
    ntohl ⟨x.extractLsb' 24 8⟩ ⟨x.extractLsb' 16 8⟩ ⟨x.extractLsb' 8 8⟩ ⟨x.extractLsb' 0 8⟩ = x := by
  unfold ntohl
  rw [BitVec.extractLsb'_append_extractLsb'_eq_extractLsb' (show 24 = 16 + 8 from rfl),
    BitVec.extractLsb'_append_extractLsb'_eq_extractLsb' (show 16 = 8 + 8 from rfl),
    BitVec.extractLsb'_append_extractLsb'_eq_extractLsb' (show 8 = 0 + 8 from rfl)]
  exact BitVec.extractLsb'_eq_self

theorem sackBlocks_shiftBlocks (k : Seq) :
    ∀ l : List UInt8, sackBlocks (shiftBlocks k l) = (sackBlocks l).map (Sackblk.shift k)
  | a :: b :: c :: d :: e :: f :: g :: h :: rest => by
      have ih := sackBlocks_shiftBlocks k rest
      simp only [shiftBlocks, htonl, List.cons_append, List.nil_append, sackBlocks, ntohl_htonl, ih,
        List.map_cons, Sackblk.shift]
  | [] => rfl
  | [_] => rfl
  | [_, _] => rfl
  | [_, _, _] => rfl
  | [_, _, _, _] => rfl
  | [_, _, _, _, _] => rfl
  | [_, _, _, _, _, _] => rfl
  | [_, _, _, _, _, _, _] => rfl

theorem shiftBlocks_length (k : Seq) : ∀ l : List UInt8, (shiftBlocks k l).length = l.length
  | a :: b :: c :: d :: e :: f :: g :: h :: rest => by
      simp [shiftBlocks, htonl, shiftBlocks_length k rest]
  | [] => rfl
  | [_] => rfl
  | [_, _] => rfl
  | [_, _, _] => rfl
  | [_, _, _, _] => rfl
  | [_, _, _, _, _] => rfl
  | [_, _, _, _, _, _] => rfl
  | [_, _, _, _, _, _, _] => rfl

theorem shiftOption_length (k : Seq) (cp : List UInt8) : (shiftOption k cp).length = cp.length := by
  simp only [shiftOption, List.length_append, List.length_take, shiftBlocks_length, List.length_drop]
  omega

theorem sackBlocks_shiftOption (k : Seq) (cp : List UInt8) :
    sackBlocks ((shiftOption k cp).drop 2) = (sackBlocks (cp.drop 2)).map (Sackblk.shift k) := by
  have hdrop : (shiftOption k cp).drop 2 = shiftBlocks k (cp.drop 2) := by
    match cp with
    | [] => rfl
    | [_] => rfl
    | _ :: _ :: _ => rfl
  rw [hdrop, sackBlocks_shiftBlocks]

/-! ## The holes -/

def Walk.shift (k : Seq) : Walk → Walk
  | .done n pre post pools => .done n (pre.map (Sackhole.shift k)) (post.map (Sackhole.shift k)) pools
  | .enobufs n holes => .enobufs n (holes.map (Sackhole.shift k))
  | .spins => .spins

def Sacked.shift (k : Seq) : Sacked → Sacked
  | .next tp pools => .next (tp.shift k) pools
  | .done tp => .done (tp.shift k)
  | .spins => .spins
  | .panic => .panic

section Holes

variable (k : Seq)

theorem blkSegs_shift (maxseg : Nat) (sack : Sackblk) (from_ : Seq) :
    blkSegs maxseg (sack.shift k) (from_ + k) = blkSegs maxseg sack from_ := by
  simp only [blkSegs, Sackblk.shift, shift_sub_shift]

theorem bumpDups_shift (maxseg : Nat) (sack : Sackblk) (cur : Sackhole) :
    bumpDups maxseg (sack.shift k) (cur.shift k) = (bumpDups maxseg sack cur).shift k := by
  simp only [bumpDups, Sackhole.shift, blkSegs_shift]

theorem moveStart_shift (sack : Sackblk) (cur : Sackhole) :
    ({ cur.shift k with
        start := (sack.shift k).end_
        rxmit := seqMax (cur.shift k).rxmit (sack.shift k).end_ } : Sackhole)
      = Sackhole.shift k { cur with start := sack.end_, rxmit := seqMax cur.rxmit sack.end_ } := by
  simp only [Sackhole.shift, Sackblk.shift, seqMax_shift]

theorem moveEnd_shift (sack : Sackblk) (cur : Sackhole) :
    ({ cur.shift k with
        end_ := (sack.shift k).start
        rxmit := seqMin (cur.shift k).rxmit (sack.shift k).start } : Sackhole)
      = Sackhole.shift k { cur with end_ := sack.start, rxmit := seqMin cur.rxmit sack.start } := by
  simp only [Sackhole.shift, Sackblk.shift, seqMin_shift]

theorem holeWalk_shift (maxseg : Nat) (sack : Sackblk) :
    ∀ (cur : List Sackhole) (pools : List Bool) (n : Int) (before : List Sackhole),
      holeWalk maxseg (sack.shift k) pools n (before.map (Sackhole.shift k))
        (cur.map (Sackhole.shift k)) = (holeWalk maxseg sack pools n before cur).shift k
  | [], pools, n, before => by simp [holeWalk, Walk.shift]
  | cur :: next, pools, n, before => by
      have ih := holeWalk_shift maxseg sack next
      have h1 : seqLeq (sack.shift k).end_ (cur.shift k).start = seqLeq sack.end_ cur.start :=
        seqLeq_shift ..
      have h2 : seqGeq (sack.shift k).start (cur.shift k).end_ = seqGeq sack.start cur.end_ :=
        seqGeq_shift ..
      have h3 : seqLeq (sack.shift k).start (cur.shift k).start = seqLeq sack.start cur.start :=
        seqLeq_shift ..
      have h4 : seqGeq (sack.shift k).end_ (cur.shift k).end_ = seqGeq sack.end_ cur.end_ :=
        seqGeq_shift ..
      have h5 : seqLt (cur.shift k).start (sack.shift k).start = seqLt cur.start sack.start :=
        seqLt_shift ..
      have h6 : seqGt (cur.shift k).end_ (sack.shift k).end_ = seqGt cur.end_ sack.end_ :=
        seqGt_shift ..
      rw [List.map_cons, holeWalk.eq_def, holeWalk.eq_def]
      dsimp only
      rw [h1, h2, h3, h4, h5, h6]
      by_cases c1 : seqLeq sack.end_ cur.start
      · rw [if_pos c1, if_pos c1]
        cases before with
        | nil => rfl
        | cons b bs => simp [Walk.shift]
      rw [if_neg c1, if_neg c1]
      by_cases c2 : seqGeq sack.start cur.end_
      · rw [if_pos c2, if_pos c2, bumpDups_shift, ← List.map_cons]
        exact ih ..
      rw [if_neg c2, if_neg c2]
      by_cases c3 : seqLeq sack.start cur.start
      · rw [if_pos c3, if_pos c3]
        by_cases c4 : seqGeq sack.end_ cur.end_
        · rw [if_pos c4, if_pos c4]
          exact ih ..
        · rw [if_neg c4, if_neg c4, moveStart_shift, ← List.map_cons]
          exact ih ..
      rw [if_neg c3, if_neg c3]
      by_cases c4 : seqGeq sack.end_ cur.end_
      · rw [if_pos c4, if_pos c4, moveEnd_shift, bumpDups_shift, ← List.map_cons]
        exact ih ..
      rw [if_neg c4, if_neg c4]
      split
      · cases poolNext pools with
        | mk ok pools =>
            cases ok with
            | true =>
                rw [moveStart_shift, moveEnd_shift, bumpDups_shift, ← List.map_cons, ← List.map_cons]
                exact ih ..
            | false => simp [Walk.shift]
      · rfl

theorem blkSkip_shift (thAck : Seq) (tp : Tcpcb) (sack : Sackblk) :
    blkSkip (thAck + k) (tp.shift k) (sack.shift k) = blkSkip thAck tp sack := by
  simp only [blkSkip, Sackblk.shift, Tcpcb.shift, seqLeq_shift, seqGt_shift, seqLt_shift]

theorem sackBlock_shift (thAck : Seq) (tp : Tcpcb) (pools : List Bool) (sack : Sackblk) :
    sackBlock (thAck + k) (tp.shift k) pools (sack.shift k)
      = (sackBlock thAck tp pools sack).shift k := by
  have hsegs := blkSegs_shift k tp.tMaxseg sack sack.start
  have hlast : seqLt (tp.shift k).rcvLastsack (sack.shift k).start
      = seqLt tp.rcvLastsack sack.start := seqLt_shift ..
  rw [sackBlock, sackBlock, blkSkip_shift]
  by_cases hskip : blkSkip thAck tp sack
  · rw [if_pos hskip, if_pos hskip]
    rfl
  rw [if_neg hskip, if_neg hskip]
  cases hholes : tp.sndHoles with
  | nil =>
      have hnil : (tp.shift k).sndHoles = [] := by simp [Tcpcb.shift, hholes]
      rw [hnil]
      cases poolNext pools with
      | mk ok pools =>
          cases ok with
          | true =>
              simp only [Sacked.shift, Tcpcb.shift, List.map_cons, List.map_nil, Sackhole.shift,
                Sacked.next.injEq, and_true]
              simp only [Sackblk.shift] at hsegs ⊢
              rw [hsegs]
          | false => rfl
  | cons h hs =>
      have hcons : (tp.shift k).sndHoles = h.shift k :: hs.map (Sackhole.shift k) := by
        simp [Tcpcb.shift, hholes]
      have hwalk := holeWalk_shift k tp.tMaxseg sack (h :: hs) pools tp.sndNumholes []
      rw [List.map_nil, List.map_cons] at hwalk
      rw [hcons]
      dsimp only
      rw [show (tp.shift k).tMaxseg = tp.tMaxseg from rfl,
        show (tp.shift k).sndNumholes = tp.sndNumholes from rfl, hwalk]
      cases holeWalk tp.tMaxseg sack pools tp.sndNumholes [] (h :: hs) with
      | spins => rfl
      | enobufs n holes => rfl
      | done n pre post pools =>
          simp only [Walk.shift, List.map_eq_nil_iff]
          rw [hlast]
          by_cases hnew : seqLt tp.rcvLastsack sack.start
          · rw [if_pos hnew, if_pos hnew]
            cases poolNext pools with
            | mk ok pools =>
                cases ok with
                | true =>
                    dsimp only
                    by_cases hpre : pre = []
                    · rw [if_pos hpre, if_pos hpre]
                      rfl
                    · rw [if_neg hpre, if_neg hpre]
                      simp only [Sacked.shift, Tcpcb.shift, List.map_append, List.map_cons,
                        List.map_nil, Sackhole.shift, Sacked.next.injEq, and_true]
                      simp only [Sackblk.shift] at hsegs ⊢
                      rw [hsegs]
                | false => simp [Sacked.shift, Tcpcb.shift]
          · rw [if_neg hnew, if_neg hnew]
            simp [Sacked.shift, Tcpcb.shift]

theorem delHoles_shift (lastack : Seq) :
    ∀ (n : Int) (holes : List Sackhole), delHoles (lastack + k) n (holes.map (Sackhole.shift k))
      = ((delHoles lastack n holes).1, (delHoles lastack n holes).2.map (Sackhole.shift k))
  | n, [] => rfl
  | n, cur :: next => by
      have h1 : seqLeq (cur.shift k).end_ (lastack + k) = seqLeq cur.end_ lastack := seqLeq_shift ..
      have h2 : seqLt (cur.shift k).start (lastack + k) = seqLt cur.start lastack := seqLt_shift ..
      have h3 : seqLt (cur.shift k).rxmit (lastack + k) = seqLt cur.rxmit lastack := seqLt_shift ..
      rw [List.map_cons, delHoles, delHoles, h1, h2, h3]
      by_cases c1 : seqLeq cur.end_ lastack
      · rw [if_pos c1, if_pos c1]
        exact delHoles_shift lastack (n - 1) next
      rw [if_neg c1, if_neg c1]
      by_cases c2 : seqLt cur.start lastack
      · rw [if_pos c2, if_pos c2]
        split <;> rfl
      · rw [if_neg c2, if_neg c2]
        rfl

theorem tcpDelSackholes_shift (tp : Tcpcb) (th : Tcphdr) :
    tcpDelSackholes (tp.shift k) (th.shift k) = (tcpDelSackholes tp th).shift k := by
  have hack : (if seqGt (th.shift k).thAck (tp.shift k).sndUna then (th.shift k).thAck
      else (tp.shift k).sndUna) = (if seqGt th.thAck tp.sndUna then th.thAck else tp.sndUna) + k := by
    simp only [Tcphdr.shift, Tcpcb.shift, seqGt_shift]
    split <;> rfl
  unfold tcpDelSackholes
  rw [hack]
  by_cases hon : tp.sackEnable ∧ tp.tState ≠ .listen
  · have hon' : (tp.shift k).sackEnable ∧ (tp.shift k).tState ≠ .listen := hon
    rw [if_pos hon, if_pos hon']
    simp only [show (tp.shift k).sndHoles = tp.sndHoles.map (Sackhole.shift k) from rfl,
      show (tp.shift k).sndNumholes = tp.sndNumholes from rfl, delHoles_shift]
    rfl
  · have hon' : ¬ ((tp.shift k).sackEnable ∧ (tp.shift k).tState ≠ .listen) := hon
    rw [if_neg hon, if_neg hon']

end Holes

/-! ## Differences -/

/-- The difference of two numbers borrows before the shift and after it, or neither
time. -/
def Agree (k a b : Seq) : Prop := a.toNat < b.toNat ↔ (a + k).toNat < (b + k).toNat

/-- With 64 bits, a difference that borrows is too large by nearly all of them. -/
theorem seqSubtract_eq (u : Ulong) (a b : Seq) : u.seqSubtract a b
    = (a - b).toNat + if u = .lp64 ∧ a.toNat < b.toNat then 2 ^ 64 - 2 ^ 32 else 0 := by
  rw [BitVec.toNat_sub]
  cases u with
  | ilp32 =>
      simp only [Ulong.seqSubtract, Ulong.bits, reduceCtorEq, false_and, if_false, Nat.add_zero]
      rw [Nat.add_comm]
  | lp64 =>
      simp only [Ulong.seqSubtract, Ulong.bits, true_and]
      split <;> omega

section Differences

variable (u : Ulong) (k a b : Seq)

theorem seqSubtract_shift :
    u.seqSubtract (a + k) (b + k) = u.seqSubtract a b ↔ u = .ilp32 ∨ Agree k a b := by
  rw [seqSubtract_eq, seqSubtract_eq, shift_sub_shift, Agree]
  cases u with
  | ilp32 => simp
  | lp64 =>
      simp only [true_and, reduceCtorEq, false_or]
      split_ifs <;> omega

/-- Against a bound that the bytes in between reach, the error does not show. -/
theorem min_seqSubtract_shift (n : Nat) :
    min n (u.seqSubtract (a + k) (b + k)) = min n (u.seqSubtract a b)
      ↔ u = .ilp32 ∨ Agree k a b ∨ n ≤ (a - b).toNat := by
  rw [← or_assoc, ← seqSubtract_shift, seqSubtract_eq, seqSubtract_eq, shift_sub_shift]
  cases u with
  | ilp32 => simp
  | lp64 =>
      split_ifs <;> omega

theorem awnd_shift (r : Nat) :
    (u.seqSubtract (a + k) (b + k) + r) % 2 ^ u.bits = (u.seqSubtract a b + r) % 2 ^ u.bits
      ↔ u = .ilp32 ∨ Agree k a b := by
  have hlt : ∀ x y : Seq, u.seqSubtract x y < 2 ^ u.bits := fun x y =>
    Nat.mod_lt _ (Nat.two_pow_pos _)
  rw [← seqSubtract_shift]
  refine ⟨fun h => ?_, fun h => by rw [h]⟩
  have hmod : u.seqSubtract (a + k) (b + k) ≡ u.seqSubtract a b [MOD 2 ^ u.bits] :=
    Nat.ModEq.add_right_cancel' r h
  rwa [Nat.ModEq, Nat.mod_eq_of_lt (hlt _ _), Nat.mod_eq_of_lt (hlt _ _)] at hmod

end Differences

/-! ## The four computations -/

def FackTcpcb.shift (k : Seq) (tp : FackTcpcb) : FackTcpcb :=
  { tp with toTcpcb := tp.toTcpcb.shift k, sndFack := tp.sndFack + k }

def FackSacked.shift (k : Seq) : FackSacked → FackSacked
  | .done tp => .done (tp.shift k)
  | .spins => .spins
  | .panic => .panic

section Compute

variable (b : Build) (k : Seq)

theorem sackFack_shift (tp : FackTcpcb) (sack : Sackblk) :
    sackFack b (tp.shift k) (sack.shift k) = (sackFack b tp sack).shift k := by
  simp only [sackFack, FackTcpcb.shift, Tcpcb.shift, Sackblk.shift, seqLeq_shift, seqGt_shift]
  split <;> rfl

theorem fackLoop_shift (thAck : Seq) :
    ∀ (tp : FackTcpcb) (pools : List Bool) (blks : List Sackblk),
      fackLoop b (thAck + k) (tp.shift k) pools (blks.map (Sackblk.shift k))
        = (fackLoop b thAck tp pools blks).shift k
  | tp, _, [] => rfl
  | tp, pools, sack :: rest => by
      have hblock := sackBlock_shift k thAck (sackFack b tp sack).toTcpcb pools sack
      rw [List.map_cons, fackLoop, fackLoop, sackFack_shift]
      rw [show ((sackFack b tp sack).shift k).toTcpcb = (sackFack b tp sack).toTcpcb.shift k from rfl,
        hblock]
      cases sackBlock thAck (sackFack b tp sack).toTcpcb pools sack with
      | next tp' pools => exact fackLoop_shift thAck { sackFack b tp sack with toTcpcb := tp' } pools rest
      | done tp' => rfl
      | spins => rfl
      | panic => rfl

theorem fackDone_shift (tp : FackTcpcb) : fackDone b (tp.shift k) = (fackDone b tp).shift k
    ↔ (b.tcpFack = true → b.ulong = .ilp32 ∨ Agree k tp.sndNxt tp.sndFack) := by
  cases hb : b.tcpFack with
  | false => simp [fackDone, hb]
  | true =>
      have hsum : ((tp.shift k).sndHoles.map fun cur : Sackhole => cur.rxmit - cur.start).sum
          = (tp.sndHoles.map fun cur : Sackhole => cur.rxmit - cur.start).sum := by
        simp only [FackTcpcb.shift, Tcpcb.shift, List.map_map]
        congr 2
        funext cur
        exact shift_sub_shift ..
      simp only [fackDone, hb, if_true, forall_const]
      rw [hsum, ← awnd_shift b.ulong k tp.sndNxt tp.sndFack]
      refine ⟨fun h => congrArg FackTcpcb.sndAwnd h, fun h => ?_⟩
      simp only [FackTcpcb.shift, FackTcpcb.awnd, FackTcpcb.mk.injEq, and_true, true_and]
      exact h

theorem recoveryExit_shift (thAck : Seq) (tp : FackTcpcb) :
    recoveryExit b (thAck + k) (tp.shift k) = (recoveryExit b thAck tp).shift k
      ↔ b.ulong = .ilp32 ∨ Agree k tp.sndMax thAck ∨ tp.sndSsthresh ≤ (tp.sndMax - thAck).toNat := by
  have hcwnd : ∀ (thAck : Seq) (tp : FackTcpcb), (recoveryExit b thAck tp).sndCwnd
      = min tp.sndSsthresh (b.ulong.seqSubtract tp.sndMax thAck) := by
    intro thAck tp
    unfold recoveryExit
    dsimp only
    split <;> rfl
  rw [← min_seqSubtract_shift b.ulong k tp.sndMax thAck]
  refine ⟨fun h => ?_, fun h => ?_⟩
  · have hc := congrArg (fun tp : FackTcpcb => tp.sndCwnd) h
    rw [hcwnd] at hc
    exact hc.trans (hcwnd thAck tp)
  · simp only [recoveryExit, FackTcpcb.shift, Tcpcb.shift, seqGt_shift, h]
    split <;> rfl

theorem sackPartialack_shift (thAck : Seq) (tp : FackTcpcb) :
    sackPartialack b (thAck + k) (tp.shift k) = (sackPartialack b thAck tp).shift k := by
  have hacked : thAck + k - (tp.shift k).sndUna = thAck - tp.sndUna := shift_sub_shift ..
  unfold sackPartialack
  dsimp only
  rw [hacked]
  cases b.tcpFack with
  | true =>
      by_cases h : tp.sndAwnd < tp.sndCwnd
      · have h' : (tp.shift k).sndAwnd < (tp.shift k).sndCwnd := h
        rw [if_pos h, if_pos h']
        rfl
      · have h' : ¬ (tp.shift k).sndAwnd < (tp.shift k).sndCwnd := h
        rw [if_neg h, if_neg h']
        rfl
  | false => rfl

theorem fastRecovery_shift (thAck : Seq) (tp : FackTcpcb) :
    fastRecovery b (thAck + k) (tp.shift k) = (fastRecovery b thAck tp).map (FackTcpcb.shift k)
      ↔ (tcprexmtthresh ≤ tp.tDupacks → seqLt thAck tp.sndLast = false →
          b.ulong = .ilp32 ∨ Agree k tp.sndMax thAck ∨ tp.sndSsthresh ≤ (tp.sndMax - thAck).toNat) := by
  have hlast : seqLt (thAck + k) (tp.shift k).sndLast = seqLt thAck tp.sndLast := seqLt_shift ..
  have hdups : (tp.shift k).tDupacks = tp.tDupacks := rfl
  have hsack : (tp.shift k).sackEnable = tp.sackEnable := rfl
  unfold fastRecovery
  rw [hlast, hdups, hsack, sackPartialack_shift]
  by_cases hdup : tp.tDupacks < tcprexmtthresh
  · rw [if_pos hdup, if_pos hdup]
    exact ⟨fun _ h => absurd h (Nat.not_le.mpr hdup), fun _ => rfl⟩
  rw [if_neg hdup, if_neg hdup]
  cases hpart : seqLt thAck tp.sndLast with
  | true =>
      simp only [if_true, reduceCtorEq, false_implies, implies_true, iff_true]
      split <;> rfl
  | false =>
      simp only [Bool.false_eq_true, if_false, Option.map_some, Option.some.injEq, forall_const,
        Nat.not_lt.mp hdup]
      exact recoveryExit_shift b k thAck tp

theorem fackAck_shift (thAck : Seq) (tp : FackTcpcb) :
    fackAck b (thAck + k) (tp.shift k) = (fackAck b thAck tp).shift k
      ↔ (b.tcpFack = true → seqGt thAck tp.sndFack = true → seqLt tp.sndNxt thAck = false →
          b.ulong = .ilp32 ∨ Agree k tp.sndNxt thAck) := by
  have hnxt : (if seqLt (tp.shift k).sndNxt (thAck + k) then thAck + k else (tp.shift k).sndNxt)
      = (if seqLt tp.sndNxt thAck then thAck else tp.sndNxt) + k := by
    simp only [FackTcpcb.shift, Tcpcb.shift, seqLt_shift]
    split <;> rfl
  have hlast : (if seqGt (thAck + k) (tp.shift k).sndLast then thAck + k else (tp.shift k).sndLast)
      = (if seqGt thAck tp.sndLast then thAck else tp.sndLast) + k := by
    simp only [FackTcpcb.shift, Tcpcb.shift, seqGt_shift]
    split <;> rfl
  have hfack : seqGt (thAck + k) (tp.shift k).sndFack = seqGt thAck tp.sndFack := seqGt_shift ..
  unfold fackAck
  dsimp only
  rw [hnxt, hlast, hfack]
  cases hb : b.tcpFack && seqGt thAck tp.sndFack with
  | false =>
      refine ⟨fun _ h1 h2 => ?_, fun _ => rfl⟩
      rw [h1, h2] at hb
      cases hb
  | true =>
      rw [Bool.and_eq_true] at hb
      simp only [if_true, hb.1, hb.2, forall_const]
      have hagree : (seqLt tp.sndNxt thAck = false → b.ulong = .ilp32 ∨ Agree k tp.sndNxt thAck)
          ↔ b.ulong = .ilp32 ∨ Agree k (if seqLt tp.sndNxt thAck then thAck else tp.sndNxt) thAck := by
        cases seqLt tp.sndNxt thAck <;> simp [Agree]
      rw [hagree, ← awnd_shift b.ulong k _ thAck (tp.retranData.signExtend b.ulong.bits).toNat]
      refine ⟨fun h => congrArg FackTcpcb.sndAwnd h, fun h => ?_⟩
      simp only [FackTcpcb.shift, FackTcpcb.awnd, FackTcpcb.mk.injEq, and_true]
      exact ⟨rfl, trivial, h⟩

end Compute

/-! ## What an option subtracts -/

/-- The higher of `fack` and the end of a block, unless the block is bad or old. -/
def higher (una fack : Seq) (sack : Sackblk) : Seq :=
  if !seqLeq sack.end_ sack.start && !seqLeq sack.end_ una && seqGt sack.end_ fack then sack.end_
  else fack

/-- The highest number that has been reported, with the blocks `read`. -/
def highest (una fack : Seq) (read : List Sackblk) : Seq := read.foldl (higher una) fack

/-- The blocks that are read if the loop comes to an end: all of them, or those up to
one for which there is no hole to be had. -/
def sackRead (thAck : Seq) : Tcpcb → List Bool → List Sackblk → Option (List Sackblk)
  | _, _, [] => some []
  | tp, pools, sack :: rest =>
    match sackBlock thAck tp pools sack with
    | .next tp pools => (sackRead thAck tp pools rest).map (sack :: ·)
    | .done _ => some [sack]
    | _ => none

/-- The blocks of an option that is not ignored. -/
def optionRead (tp : Tcpcb) (th : Tcphdr) (cp : List UInt8) (pools : List Bool) :
    Option (List Sackblk) :=
  if sackIgnored tp th cp || decide (tp.tMaxseg = 0) then none
  else
    sackRead th.thAck
      { tp with sndNumholes := if tp.sndNumholes < 0 then 0 else tp.sndNumholes } pools
      (sackBlocks (cp.drop 2))

section Option

variable {b : Build}

theorem sackFack_higher (hb : b.tcpFack = true) (tp : FackTcpcb) (sack : Sackblk) :
    sackFack b tp sack = { tp with sndFack := higher tp.sndUna tp.sndFack sack } := by
  unfold sackFack higher
  rw [hb, Bool.true_and]
  split <;> rfl

/-- When the loop ends, `snd_fack` is the highest number reported. -/
theorem fackLoop_read (hb : b.tcpFack = true) (thAck : Seq) :
    ∀ (tp : FackTcpcb) (pools : List Bool) (blks : List Sackblk) (tp' : FackTcpcb),
      fackLoop b thAck tp pools blks = .done tp' →
      ∃ read, sackRead thAck tp.toTcpcb pools blks = some read ∧ tp'.sndNxt = tp.sndNxt
        ∧ tp'.sndFack = highest tp.sndUna tp.sndFack read
  | tp, _, [], tp', h => by
      obtain rfl := FackSacked.done.inj h
      exact ⟨[], rfl, rfl, rfl⟩
  | tp, pools, sack :: rest, tp', h => by
      have honly := sackBlock_holesOnly thAck tp.toTcpcb pools sack
      rw [fackLoop, sackFack_base, sackFack_higher hb] at h
      rw [sackRead]
      cases hblock : sackBlock thAck tp.toTcpcb pools sack with
      | next tp₁ pools₁ =>
          rw [hblock] at h honly
          obtain ⟨read, hread, hnxt, hfack⟩ := fackLoop_read hb thAck _ pools₁ rest tp' h
          obtain ⟨_, _, _, rfl⟩ := honly
          refine ⟨sack :: read, ?_, hnxt, hfack⟩
          dsimp only at hread ⊢
          rw [hread]
          rfl
      | done tp₁ =>
          rw [hblock] at h honly
          obtain ⟨_, _, _, rfl⟩ := honly
          obtain rfl := FackSacked.done.inj h
          exact ⟨[sack], rfl, rfl, rfl⟩
      | spins =>
          rw [hblock] at h
          cases h
      | panic =>
          rw [hblock] at h
          cases h

/-- And it ends when there are blocks that are read. -/
theorem fackLoop_of_read (thAck : Seq) :
    ∀ (tp : FackTcpcb) (pools : List Bool) (blks read : List Sackblk),
      sackRead thAck tp.toTcpcb pools blks = some read →
      ∃ tp', fackLoop b thAck tp pools blks = .done tp'
  | tp, _, [], _, _ => ⟨tp, rfl⟩
  | tp, pools, sack :: rest, read, h => by
      rw [sackRead] at h
      rw [fackLoop, sackFack_base]
      cases hblock : sackBlock thAck tp.toTcpcb pools sack with
      | next tp₁ pools₁ =>
          rw [hblock] at h
          obtain ⟨read', hread, -⟩ := Option.map_eq_some_iff.mp h
          exact fackLoop_of_read thAck { sackFack b tp sack with toTcpcb := tp₁ } pools₁ rest read' hread
      | done tp₁ => exact ⟨_, rfl⟩
      | spins =>
          rw [hblock] at h
          cases h
      | panic =>
          rw [hblock] at h
          cases h

theorem sackIgnored_shift (k : Seq) (tp : Tcpcb) (th : Tcphdr) (cp : List UInt8) :
    sackIgnored (tp.shift k) (th.shift k) (shiftOption k cp) = sackIgnored tp th cp := by
  simp only [sackIgnored, Tcpcb.shift, Tcphdr.shift, seqLt_shift, seqGt_shift, shiftOption_length]

/-- The loop and what is computed at `done`. -/
theorem fackFinish_shift (b : Build) (k thAck : Seq) (tp : FackTcpcb) (pools : List Bool)
    (blks : List Sackblk) :
    (match fackLoop b (thAck + k) (tp.shift k) pools (blks.map (Sackblk.shift k)) with
        | .done tp => .done (fackDone b tp)
        | r => r)
        = FackSacked.shift k (match fackLoop b thAck tp pools blks with
          | .done tp => .done (fackDone b tp)
          | r => r)
      ↔ (b.tcpFack = true → ∀ read, sackRead thAck tp.toTcpcb pools blks = some read →
          b.ulong = .ilp32 ∨ Agree k tp.sndNxt (highest tp.sndUna tp.sndFack read)) := by
  rw [fackLoop_shift]
  have hof := fackLoop_of_read (b := b) thAck tp pools blks
  cases hres : fackLoop b thAck tp pools blks with
  | done tp₁ =>
      simp only [FackSacked.shift, FackSacked.done.injEq]
      rw [fackDone_shift]
      refine forall_congr' fun hb => ?_
      obtain ⟨read, heq, hnxt, hfack⟩ := fackLoop_read hb thAck tp pools blks tp₁ hres
      rw [hnxt, hfack, heq]
      simp
  | spins =>
      refine ⟨fun _ _ read h => ?_, fun _ => rfl⟩
      obtain ⟨tp₁, htp₁⟩ := hof read h
      rw [hres] at htp₁
      cases htp₁
  | panic =>
      refine ⟨fun _ _ read h => ?_, fun _ => rfl⟩
      obtain ⟨tp₁, htp₁⟩ := hof read h
      rw [hres] at htp₁
      cases htp₁

theorem fackSackOption_shift (b : Build) (k : Seq) (tp : FackTcpcb) (th : Tcphdr) (cp : List UInt8)
    (pools : List Bool) :
    fackSackOption b (tp.shift k) (th.shift k) (shiftOption k cp) pools
        = (fackSackOption b tp th cp pools).shift k
      ↔ (b.tcpFack = true → ∀ read, optionRead tp.toTcpcb th cp pools = some read →
          b.ulong = .ilp32 ∨ Agree k tp.sndNxt (highest tp.sndUna tp.sndFack read)) := by
  have hign : sackIgnored (tp.shift k).toTcpcb (th.shift k) (shiftOption k cp)
      = sackIgnored tp.toTcpcb th cp := sackIgnored_shift k tp.toTcpcb th cp
  unfold fackSackOption optionRead
  rw [hign]
  cases sackIgnored tp.toTcpcb th cp with
  | true => simp [FackSacked.shift]
  | false =>
      simp only [Bool.false_eq_true, if_false, Bool.false_or, decide_eq_true_eq]
      by_cases hmax : tp.tMaxseg = 0
      · have hmax' : (tp.shift k).tMaxseg = 0 := hmax
        rw [if_pos hmax', if_pos hmax, if_pos hmax]
        simp [FackSacked.shift]
      · have hmax' : ¬ (tp.shift k).tMaxseg = 0 := hmax
        rw [if_neg hmax', if_neg hmax, if_neg hmax, sackBlocks_shiftOption]
        exact fackFinish_shift b k th.thAck
          { tp with sndNumholes := if tp.sndNumholes < 0 then 0 else tp.sndNumholes } pools
          (sackBlocks (cp.drop 2))

end Option

/-! ## The sender -/

/-- What is computed for a segment, shifted, is what is computed for the shifted
segment. -/
structure Translates (b : Build) (k : Seq) (tp : FackTcpcb) (th : Tcphdr) (cp : List UInt8)
    (pools : List Bool) : Prop where
  option : fackSackOption b (tp.shift k) (th.shift k) (shiftOption k cp) pools
    = (fackSackOption b tp th cp pools).shift k
  holes : tcpDelSackholes (tp.shift k).toTcpcb (th.shift k) = (tcpDelSackholes tp.toTcpcb th).shift k
  recovery : fastRecovery b (th.shift k).thAck (tp.shift k)
    = (fastRecovery b th.thAck tp).map (FackTcpcb.shift k)
  ack : fackAck b (th.shift k).thAck (tp.shift k) = (fackAck b th.thAck tp).shift k

/-- No difference that is taken for a segment, and that is of consequence, borrows on
one side of the shift only. -/
structure NoBorrow (b : Build) (k : Seq) (tp : FackTcpcb) (th : Tcphdr) (cp : List UInt8)
    (pools : List Bool) : Prop where
  option : b.tcpFack = true → ∀ read, optionRead tp.toTcpcb th cp pools = some read →
    Agree k tp.sndNxt (highest tp.sndUna tp.sndFack read)
  recovery : tcprexmtthresh ≤ tp.tDupacks → seqLt th.thAck tp.sndLast = false →
    Agree k tp.sndMax th.thAck ∨ tp.sndSsthresh ≤ (tp.sndMax - th.thAck).toNat
  ack : b.tcpFack = true → seqGt th.thAck tp.sndFack = true → seqLt tp.sndNxt th.thAck = false →
    Agree k tp.sndNxt th.thAck

/-- Loss recovery does not depend on the origin of the sequence numbers where a `u_long`
has 32 bits; where it has 64, this is so exactly for the segments that have no
difference with a borrow on one side only. -/
theorem loss_recovery_translates (b : Build) (k : Seq) (tp : FackTcpcb) (th : Tcphdr)
    (cp : List UInt8) (pools : List Bool) :
    Translates b k tp th cp pools ↔ b.ulong = .ilp32 ∨ NoBorrow b k tp th cp pools := by
  have hoption := fackSackOption_shift b k tp th cp pools
  have hrecovery : fastRecovery b (th.shift k).thAck (tp.shift k) = _ ↔ _ :=
    fastRecovery_shift b k th.thAck tp
  have hack : fackAck b (th.shift k).thAck (tp.shift k) = _ ↔ _ := fackAck_shift b k th.thAck tp
  constructor
  · rintro ⟨h1, -, h3, h4⟩
    rw [hoption] at h1
    rw [hrecovery] at h3
    rw [hack] at h4
    by_cases hu : b.ulong = .ilp32
    · exact Or.inl hu
    · refine Or.inr ⟨fun hb read hread => ?_, fun hdup hlast => ?_, fun hb hgt hlt => ?_⟩
      · exact (h1 hb read hread).resolve_left hu
      · exact (h3 hdup hlast).resolve_left hu
      · exact (h4 hb hgt hlt).resolve_left hu
  · rintro (hu | ⟨h1, h3, h4⟩)
    · exact ⟨hoption.mpr fun _ _ _ => Or.inl hu, tcpDelSackholes_shift k tp.toTcpcb th,
        hrecovery.mpr fun _ _ => Or.inl hu, hack.mpr fun _ _ _ => Or.inl hu⟩
    · exact ⟨hoption.mpr fun hb read hread => Or.inr (h1 hb read hread),
        tcpDelSackholes_shift k tp.toTcpcb th,
        hrecovery.mpr fun hdup hlast => Or.inr (h3 hdup hlast),
        hack.mpr fun hb hgt hlt => Or.inr (h4 hb hgt hlt)⟩

/-- Recovery ends with the data up to `snd_last` acknowledged and 21 bytes more in
flight, the last 5 of them past the wrap. The window should become 21, and does when the
numbers are shifted by 16; as they are, it becomes `snd_ssthresh`. -/
theorem recovery_window_not_shifted :
    ∃ (tp : FackTcpcb) (th : Tcphdr), ¬ Translates ⟨.lp64, false⟩ 16#32 tp th [] []
      ∧ (fastRecovery ⟨.lp64, false⟩ th.thAck tp).map (·.sndCwnd) = some 4096
      ∧ (fastRecovery ⟨.lp64, false⟩ (th.shift 16#32).thAck (tp.shift 16#32)).map (·.sndCwnd)
          = some 21 := by
  let tp : FackTcpcb :=
    { tState := .established, sackEnable := true, tDupacks := 3, tMaxseg := 1460,
      sndUna := 0xFFFFF000#32, sndNxt := 5#32, sndMax := 5#32, sndLast := 0xFFFFFFF0#32,
      sndWnd := 65535, sndCwnd := 8476, sndSsthresh := 4096 }
  let th : Tcphdr :=
    { thSeq := 1000#32, thAck := 0xFFFFFFF0#32, thFlags := { ack := true }, thUrp := 0 }
  have hplain : (fastRecovery ⟨.lp64, false⟩ th.thAck tp).map (·.sndCwnd) = some 4096 := by
    decide +kernel
  have hshift : (fastRecovery ⟨.lp64, false⟩ (th.shift 16#32).thAck (tp.shift 16#32)).map
      (·.sndCwnd) = some 21 := by decide +kernel
  refine ⟨tp, th, fun h => ?_, hplain, hshift⟩
  rw [h.recovery, Option.map_map] at hshift
  exact absurd hshift (by decide)

end Obsd.Tcp
