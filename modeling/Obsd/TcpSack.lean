import Obsd.Cut
import Obsd.Runs
import Obsd.Tcp

/-!
# The holes of the SACK sender

`tcp_sack_option` and `tcp_del_sackholes` of `netinet/tcp_input.c` and
`tcp_sack_output` of `netinet/tcp_output.c`, without `TCP_FACK`.

The holes are what the peer has not acknowledged below the highest block
it reported, `rcv_lastsack`. The walk over them is written with the holes
passed, nearest first, and the holes ahead; where none of its branches
fires it would go round for ever, and says so.
-/

namespace Obsd.Tcp

/-! ## The code -/

def tcprexmtthresh : Nat := 3

structure Sackblk where
  start : Seq
  end_ : Seq
deriving DecidableEq, Repr

/-- Four bytes in network order. -/
def ntohl (a b c d : UInt8) : Seq :=
  a.toBitVec ++ b.toBitVec ++ c.toBitVec ++ d.toBitVec

/-- The blocks of an option, eight bytes each. -/
def sackBlocks : List UInt8 → List Sackblk
  | a :: b :: c :: d :: e :: f :: g :: h :: rest => ⟨ntohl a b c d, ntohl e f g h⟩ :: sackBlocks rest
  | _ => []

/-- The results of the `pool_get` calls to come; past the end they succeed. -/
def poolNext : List Bool → Bool × List Bool
  | [] => (true, [])
  | ok :: rest => (ok, rest)

/-- How many segments lie between `from_` and the end of the block. -/
def blkSegs (maxseg : Nat) (sack : Sackblk) (from_ : Seq) : Nat := (sack.end_ - from_).toNat / maxseg

/-- One more duplicate ack for a hole, or enough of them at once. -/
def bumpDups (maxseg : Nat) (sack : Sackblk) (cur : Sackhole) : Sackhole :=
  { cur with
    dups := if blkSegs maxseg sack cur.end_ ≥ tcprexmtthresh then tcprexmtthresh else cur.dups + 1 }

/-- How the walk over the holes ends: with `p` the last of `pre`, out of
memory, or not at all. -/
inductive Walk where
  | done (numholes : Int) (pre post : List Sackhole) (pools : List Bool)
  | enobufs (numholes : Int) (holes : List Sackhole)
  | spins
deriving DecidableEq, Repr

def holeWalk (maxseg : Nat) (sack : Sackblk) :
    (pools : List Bool) → (numholes : Int) → (before cur : List Sackhole) → Walk
  | pools, n, before, [] => .done n before.reverse [] pools
  | pools, n, before, cur :: next =>
    if seqLeq sack.end_ cur.start then
      match before with
      -- `p` still is the first hole
      | [] => .done n [cur] next pools
      | _ :: _ => .done n before.reverse (cur :: next) pools
    else if seqGeq sack.start cur.end_ then
      holeWalk maxseg sack pools n (bumpDups maxseg sack cur :: before) next
    else if seqLeq sack.start cur.start then
      if seqGeq sack.end_ cur.end_ then holeWalk maxseg sack pools (n - 1) before next
      else
        holeWalk maxseg sack pools n
          ({ cur with start := sack.end_, rxmit := seqMax cur.rxmit sack.end_ } :: before) next
    else if seqGeq sack.end_ cur.end_ then
      holeWalk maxseg sack pools n
        (bumpDups maxseg sack
          { cur with end_ := sack.start, rxmit := seqMin cur.rxmit sack.start } :: before) next
    else if seqLt cur.start sack.start && seqGt cur.end_ sack.end_ then
      match poolNext pools with
      | (true, pools) =>
        let temp : Sackhole :=
          { cur with start := sack.end_, rxmit := seqMax cur.rxmit sack.end_ }
        let cur := bumpDups maxseg sack
          { cur with end_ := sack.start, rxmit := seqMin cur.rxmit sack.start }
        holeWalk maxseg sack pools (n + 1) (temp :: cur :: before) next
      | (false, _) => .enobufs n (before.reverse ++ cur :: next)
    else .spins

/-- What a block, or a whole option, leads to. -/
inductive Sacked where
  | next (tp : Tcpcb) (pools : List Bool)
  | done (tp : Tcpcb)
  | spins
  | panic
deriving DecidableEq, Repr

/-- The blocks that are skipped: empty, old, begun before the new
acknowledgment, or ending beyond what was sent. -/
def blkSkip (thAck : Seq) (tp : Tcpcb) (sack : Sackblk) : Bool :=
  seqLeq sack.end_ sack.start || seqLeq sack.end_ tp.sndUna
    || (seqGt thAck tp.sndUna && seqLt sack.start thAck) || seqGt sack.end_ tp.sndMax

def sackBlock (thAck : Seq) (tp : Tcpcb) (pools : List Bool) (sack : Sackblk) : Sacked :=
  if blkSkip thAck tp sack then .next tp pools
  else
    match tp.sndHoles with
    | [] =>
      match poolNext pools with
      | (true, pools) =>
        let cur : Sackhole :=
          { start := thAck
            end_ := sack.start
            rxmit := thAck
            dups := max 1 (min tcprexmtthresh (blkSegs tp.tMaxseg sack sack.start)) }
        .next { tp with sndHoles := [cur], sndNumholes := 1, rcvLastsack := sack.end_ } pools
      | (false, _) => .done tp
    | holes =>
      match holeWalk tp.tMaxseg sack pools tp.sndNumholes [] holes with
      | .spins => .spins
      | .enobufs n holes => .done { tp with sndHoles := holes, sndNumholes := n }
      | .done n pre post pools =>
        if seqLt tp.rcvLastsack sack.start then
          match poolNext pools with
          | (true, pools) =>
            -- `p->next = temp`: what followed `p` is lost, and `p` may be `NULL`
            if pre = [] then .panic
            else
              let temp : Sackhole :=
                { start := tp.rcvLastsack
                  end_ := sack.start
                  rxmit := tp.rcvLastsack
                  dups := max 1 (min tcprexmtthresh (blkSegs tp.tMaxseg sack sack.start)) }
              .next { tp with
                sndHoles := pre ++ [temp], sndNumholes := n + 1, rcvLastsack := sack.end_ } pools
          | (false, _) => .done { tp with sndHoles := pre ++ post, sndNumholes := n }
        else .next { tp with sndHoles := pre ++ post, sndNumholes := n } pools

def sackLoop (thAck : Seq) : Tcpcb → List Bool → List Sackblk → Sacked
  | tp, _, [] => .done tp
  | tp, pools, sack :: rest =>
    match sackBlock thAck tp pools sack with
    | .next tp pools => sackLoop thAck tp pools rest
    | r => r

/-- `cp` is the whole option, its kind and length byte first. -/
def tcpSackOption (tp : Tcpcb) (th : Tcphdr) (cp : List UInt8) (pools : List Bool) : Sacked :=
  if !tp.sackEnable || !th.thFlags.ack then .done tp
  else if seqLt th.thAck tp.sndUna || seqGt th.thAck tp.sndMax then .done tp
  else if cp.length ≤ 2 ∨ (cp.length - 2) % 8 ≠ 0 then .done tp
  else
    let tp := if tp.sndNumholes < 0 then { tp with sndNumholes := 0 } else tp
    if tp.tMaxseg = 0 then .panic
    else sackLoop th.thAck tp pools (sackBlocks (cp.drop 2))

/-- The loop of `tcp_del_sackholes`: the holes and how many are left. -/
def delHoles (lastack : Seq) : Int → List Sackhole → Int × List Sackhole
  | n, [] => (n, [])
  | n, cur :: next =>
    if seqLeq cur.end_ lastack then delHoles lastack (n - 1) next
    else if seqLt cur.start lastack then
      (n, { cur with
        start := lastack
        rxmit := if seqLt cur.rxmit lastack then lastack else cur.rxmit } :: next)
    else (n, cur :: next)

def tcpDelSackholes (tp : Tcpcb) (th : Tcphdr) : Tcpcb :=
  if tp.sackEnable ∧ tp.tState ≠ .listen then
    let lastack := if seqGt th.thAck tp.sndUna then th.thAck else tp.sndUna
    let (n, holes) := delHoles lastack tp.sndNumholes tp.sndHoles
    { tp with sndNumholes := n, sndHoles := holes }
  else tp

/-- The hole `tcp_sack_output` picks for retransmission, cut out of the list. -/
def tcpSackOutput (sndUna : Seq) :
    List Sackhole → List Sackhole → Option (List Sackhole × Sackhole × List Sackhole)
  | _, [] => none
  | before, p :: next =>
    if p.dups ≥ tcprexmtthresh && seqLt p.rxmit p.end_ && !seqLt p.rxmit sndUna then
      some (before, p, next)
    else tcpSackOutput sndUna (p :: before) next

/-! ## Distances from `snd_una` -/

/-- How far `x` is ahead of `una`. -/
def off (una x : Seq) : Int := (x - una).toInt

theorem off_bounds (una x : Seq) : -2 ^ 31 ≤ off una x ∧ off una x < 2 ^ 31 := by
  have h1 := BitVec.le_two_mul_toInt (x := x - una)
  have h2 := BitVec.two_mul_toInt_lt (x := x - una)
  unfold off
  omega

@[simp] theorem off_self (una : Seq) : off una una = 0 := by simp [off]

section Off

variable (una : Seq) {x y : Seq}

theorem nth_off : Serial.nth una (off una x) = x := (Serial.eq_nth una x).symm

theorem toInt_sub_off (h : Near (off una x) (off una y)) :
    (x - y).toInt = off una x - off una y := by
  have hd := toInt_nth_sub una h
  rwa [nth_off, nth_off] at hd

theorem seqLt_off (h : Near (off una x) (off una y)) :
    seqLt x y = decide (off una x < off una y) := by
  rw [seqLt, toInt_sub_off una h, decide_eq_decide]
  omega

theorem seqLeq_off (h : Near (off una x) (off una y)) :
    seqLeq x y = decide (off una x ≤ off una y) := by
  rw [seqLeq, toInt_sub_off una h, decide_eq_decide]
  omega

theorem seqGt_off (h : Near (off una x) (off una y)) :
    seqGt x y = decide (off una y < off una x) := by
  rw [seqGt, toInt_sub_off una h, decide_eq_decide]
  omega

theorem seqGeq_off (h : Near (off una x) (off una y)) :
    seqGeq x y = decide (off una y ≤ off una x) := by
  rw [seqGeq, toInt_sub_off una h, decide_eq_decide]
  omega

theorem toInt_sub_bmod : (x - y).toInt = (off una x - off una y).bmod (2 ^ 32) := by
  have hd := Serial.toInt_nth_sub una (off una x) (off una y)
  rwa [nth_off, nth_off] at hd

/-- A number more than half the space behind another is taken to be ahead of it. -/
theorem seqGeq_of_far (h : off una x - off una y < -2 ^ 31) : seqGeq x y = true := by
  have hx := off_bounds una x
  have hy := off_bounds una y
  rw [seqGeq, toInt_sub_bmod una, decide_eq_true_eq, Int.bmod_def]
  split_ifs <;> omega

end Off

/-! ## The walk keeps the holes in order -/

/-- A hole that is not empty, between `lo` and `hi`, with its retransmission
pointer inside. -/
structure HoleIn (una : Seq) (lo hi : Int) (h : Sackhole) : Prop where
  lo : lo ≤ off una h.start
  nonempty : off una h.start < off una h.end_
  rxmitLo : off una h.start ≤ off una h.rxmit
  rxmitHi : off una h.rxmit ≤ off una h.end_
  hi : off una h.end_ < hi

/-- Holes cut in two, apart from each other and all below `hi`. -/
abbrev HolesCut (una : Seq) (lo hi : Int) (before after : List Sackhole) : Prop :=
  Cut (fun a b => off una a.end_ < off una b.start) (HoleIn una lo hi) before after

/-- A block that passed the tests before the walk: it ends ahead of `snd_una` and
within the window, and begins less than half the space before that. -/
structure BlkIn (una : Seq) (sack : Sackblk) : Prop where
  pos : 0 < off una sack.end_
  small : off una sack.end_ < 2 ^ 30
  order : off una sack.start < off una sack.end_
  near : off una sack.end_ - off una sack.start < 2 ^ 31

theorem off_seqMax (una : Seq) {x y : Seq} (h : Near (off una x) (off una y)) :
    off una (seqMax x y) = max (off una x) (off una y) := by
  rw [seqMax, seqGt_off una h]
  split <;> rename_i hc <;> simp only [decide_eq_true_eq] at hc <;> omega

theorem off_seqMin (una : Seq) {x y : Seq} (h : Near (off una x) (off una y)) :
    off una (seqMin x y) = min (off una x) (off una y) := by
  rw [seqMin, seqLt_off una h]
  split <;> rename_i hc <;> simp only [decide_eq_true_eq] at hc <;> omega

theorem HoleIn.bump {una : Seq} {lo hi : Int} {h : Sackhole} (hh : HoleIn una lo hi h) (maxseg : Nat)
    (sack : Sackblk) : HoleIn una lo hi (bumpDups maxseg sack h) :=
  ⟨hh.lo, hh.nonempty, hh.rxmitLo, hh.rxmitHi, hh.hi⟩

section Walk

variable {una : Seq} {lo hi : Int} {sack : Sackblk} {cur : Sackhole}

/-- The rest of a hole behind a block that covers its beginning. -/
theorem HoleIn.moveStart (hh : HoleIn una lo hi cur) (hlo : 0 ≤ lo) (hhi : hi ≤ 2 ^ 30)
    (hblk : BlkIn una sack) (h1 : off una cur.start < off una sack.end_)
    (h2 : off una sack.end_ < off una cur.end_) :
    HoleIn una lo hi { cur with start := sack.end_, rxmit := seqMax cur.rxmit sack.end_ } := by
  obtain ⟨a, b, c, d, e⟩ := hh
  obtain ⟨p, q, r, t⟩ := hblk
  have hnear : Near (off una cur.rxmit) (off una sack.end_) := ⟨by omega, by omega⟩
  have hmax := off_seqMax una hnear
  constructor <;> dsimp only <;> omega

/-- The rest of a hole before a block that covers its end. -/
theorem HoleIn.moveEnd (hh : HoleIn una lo hi cur) (hlo : 0 ≤ lo) (hhi : hi ≤ 2 ^ 30)
    (h1 : off una cur.start < off una sack.start) (h2 : off una sack.start < off una cur.end_) :
    HoleIn una lo hi { cur with end_ := sack.start, rxmit := seqMin cur.rxmit sack.start } := by
  obtain ⟨a, b, c, d, e⟩ := hh
  have hnear : Near (off una cur.rxmit) (off una sack.start) := ⟨by omega, by omega⟩
  have hmin := off_seqMin una hnear
  constructor <;> dsimp only <;> omega

/-- The walk ends, with the holes in order and `n` ahead of their number by as
much as it was. -/
def Walk.Ok (una : Seq) (lo hi ahead : Int) : Walk → Prop
  | .done n pre post _ => HolesCut una lo hi [] (pre ++ post) ∧ n = (pre ++ post).length + ahead
  | .enobufs n holes => HolesCut una lo hi [] holes ∧ n = holes.length + ahead
  | .spins => False

theorem holeWalk_ok (maxseg : Nat) (hlo : 0 ≤ lo) (hhi : hi ≤ 2 ^ 30) (hblk : BlkIn una sack) :
    ∀ (rest : List Sackhole) (pools : List Bool) (n ahead : Int) (before : List Sackhole),
      HolesCut una lo hi before rest → n = before.length + rest.length + ahead →
      (holeWalk maxseg sack pools n before rest).Ok una lo hi ahead
  | [], pools, n, ahead, before, h, hn => by
      exact ⟨by simpa using h.join, by simp at hn ⊢; omega⟩
  | cur :: next, pools, n, ahead, before, h, hn => by
      have ih := holeWalk_ok maxseg hlo hhi hblk next
      rw [List.length_cons] at hn
      obtain ⟨b1, b2, b3, b4⟩ := hblk
      have hcur := h.after_each cur (by simp)
      obtain ⟨c1, c2, c3, c4, c5⟩ := hcur
      have hes : Near (off una sack.end_) (off una cur.start) := ⟨by omega, by omega⟩
      have hee : Near (off una sack.end_) (off una cur.end_) := ⟨by omega, by omega⟩
      unfold holeWalk
      rw [seqLeq_off una hes]
      split
      · -- the block is before the hole
        split
        · exact ⟨by simpa using h.join, by simp at hn ⊢; omega⟩
        · exact ⟨h.join, by simp at hn ⊢; omega⟩
      rename_i hbefore
      simp only [decide_eq_true_eq, not_le] at hbefore
      -- the hole is passed, with one more duplicate ack
      have hpass : HolesCut una lo hi (bumpDups maxseg sack cur :: before) next :=
        Cut.snoc.mpr (h.replace (HoleIn.bump ⟨c1, c2, c3, c4, c5⟩ maxseg sack) (fun _ hb => hb)
          fun _ hb => hb)
      by_cases hfar : off una sack.start - off una cur.end_ < -2 ^ 31
      · rw [if_pos (seqGeq_of_far una hfar)]
        exact ih pools n ahead _ hpass (by rw [List.length_cons]; omega)
      have hse : Near (off una sack.start) (off una cur.end_) := ⟨by omega, by omega⟩
      have hss : Near (off una sack.start) (off una cur.start) := ⟨by omega, by omega⟩
      rw [seqGeq_off una hse, seqLeq_off una hss, seqGeq_off una hee]
      split
      · exact ih pools n ahead _ hpass (by rw [List.length_cons]; omega)
      rename_i hreach
      simp only [decide_eq_true_eq, not_le] at hreach
      have hblk : BlkIn una sack := ⟨b1, b2, b3, b4⟩
      split
      · split
        · -- all of the hole
          exact ih pools (n - 1) ahead _ h.drop (by omega)
        · -- its beginning
          rename_i hstart hend
          simp only [decide_eq_true_eq, not_le] at hstart hend
          refine ih pools n ahead _ (Cut.snoc.mpr (h.replace
            (HoleIn.moveStart ⟨c1, c2, c3, c4, c5⟩ hlo hhi hblk hbefore hend) (fun b hb => ?_)
            fun _ hb => hb)) (by rw [List.length_cons]; omega)
          dsimp only at hb ⊢
          omega
      rename_i hstart
      simp only [decide_eq_true_eq, not_le] at hstart
      have hfront : HoleIn una lo hi (bumpDups maxseg sack
          { cur with end_ := sack.start, rxmit := seqMin cur.rxmit sack.start }) :=
        (HoleIn.moveEnd ⟨c1, c2, c3, c4, c5⟩ hlo hhi hstart hreach).bump maxseg sack
      have hcut : HolesCut una lo hi (bumpDups maxseg sack
          { cur with end_ := sack.start, rxmit := seqMin cur.rxmit sack.start } :: before) next := by
        refine Cut.snoc.mpr (h.replace hfront (fun _ hb => hb) fun b hb => ?_)
        dsimp only [bumpDups] at hb ⊢
        omega
      split
      · -- its end
        exact ih pools n ahead _ hcut (by rw [List.length_cons]; omega)
      · -- its middle
        rename_i hend
        simp only [decide_eq_true_eq, not_le] at hend
        rw [seqLt_off una ⟨by omega, by omega⟩, seqGt_off una ⟨by omega, by omega⟩]
        simp only [hstart, hend, decide_true, Bool.and_self, if_true]
        split
        · refine ih _ (n + 1) ahead _ (hcut.insert
            (HoleIn.moveStart ⟨c1, c2, c3, c4, c5⟩ hlo hhi hblk hbefore hend) (fun b hb => ?_)
            fun b hb => h.after_first b hb)
            (by rw [List.length_cons, List.length_cons]; omega)
          dsimp only
          rcases List.mem_cons.mp hb with rfl | hb
          · dsimp only [bumpDups]; omega
          · have := h.cross b hb cur (by simp)
            omega
        · exact ⟨h.join, by simp; omega⟩

/-- A block beyond every hole passes them all. -/
theorem holeWalk_beyond (maxseg : Nat) (hlo : 0 ≤ lo) (hhi : hi ≤ 2 ^ 30) (hblk : BlkIn una sack)
    (hpast : hi ≤ off una sack.start) :
    ∀ (rest : List Sackhole) (pools : List Bool) (n : Int) (before : List Sackhole),
      HolesCut una lo hi before rest →
      holeWalk maxseg sack pools n before rest
        = .done n (before.reverse ++ rest.map (bumpDups maxseg sack)) [] pools
  | [], pools, n, before, _ => by simp [holeWalk]
  | cur :: next, pools, n, before, h => by
      obtain ⟨b1, b2, b3, b4⟩ := hblk
      obtain ⟨c1, c2, c3, c4, c5⟩ := h.after_each cur (by simp)
      unfold holeWalk
      rw [seqLeq_off una ⟨by omega, by omega⟩, seqGeq_off una ⟨by omega, by omega⟩,
        if_neg (by simp only [decide_eq_true_eq]; omega),
        if_pos (by simp only [decide_eq_true_eq]; omega),
        holeWalk_beyond maxseg hlo hhi ⟨b1, b2, b3, b4⟩ hpast next pools n
          (bumpDups maxseg sack cur :: before)]
      · simp
      · exact Cut.snoc.mpr (h.replace (HoleIn.bump ⟨c1, c2, c3, c4, c5⟩ maxseg sack)
          (fun _ hb => hb) fun _ hb => hb)

end Walk

/-! ## Blocks -/

/-- The holes between `lo` and `last`, in order, as many as are counted, with the
window from `una` to `max` less than `2^30`. -/
structure HolesInv (lo : Int) (una max last : Seq) (holes : List Sackhole) (n : Int) : Prop where
  loNonneg : 0 ≤ lo
  maxLo : 0 ≤ off una max
  maxHi : off una max < 2 ^ 30
  cut : HolesCut una lo (off una last) [] holes
  lastLe : holes ≠ [] → off una last ≤ off una max
  count : n = holes.length

abbrev SackInv (lo : Int) (tp : Tcpcb) : Prop :=
  HolesInv lo tp.sndUna tp.sndMax tp.rcvLastsack tp.sndHoles tp.sndNumholes

/-- The blocks that do no harm, told from the holes they find: with no holes, the
block begins after the acknowledgment; with some, it does not begin so far
behind `snd_una` that it seems to be ahead of `rcv_lastsack`. -/
def BlockOk (thAck : Seq) (tp : Tcpcb) (sack : Sackblk) : Prop :=
  blkSkip thAck tp sack = false →
    if tp.sndHoles = [] then seqLt sack.start tp.sndUna = false ∧ seqGt sack.start thAck = true
    else seqLt sack.start tp.sndUna = false ∨ seqLt tp.rcvLastsack sack.start = false

instance (thAck : Seq) (tp : Tcpcb) (sack : Sackblk) : Decidable (BlockOk thAck tp sack) := by
  unfold BlockOk; infer_instance

/-- No branch is missing and no `NULL` followed; what is left is in order, and
only the holes have changed. -/
def Sacked.Ok (lo : Int) (tp : Tcpcb) : Sacked → Prop
  | .next tp' _ => SackInv lo tp' ∧ ∃ holes n last,
      tp' = { tp with sndHoles := holes, sndNumholes := n, rcvLastsack := last }
  | .done tp' => SackInv lo tp' ∧ ∃ holes n last,
      tp' = { tp with sndHoles := holes, sndNumholes := n, rcvLastsack := last }
  | .spins => False
  | .panic => False

theorem blkIn_of_not_skip {thAck : Seq} {tp : Tcpcb} {sack : Sackblk} {lo : Int}
    (h : SackInv lo tp) (hs : blkSkip thAck tp sack = false) :
    BlkIn tp.sndUna sack ∧ off tp.sndUna sack.end_ ≤ off tp.sndUna tp.sndMax := by
  simp only [blkSkip, Bool.or_eq_false_iff] at hs
  obtain ⟨⟨⟨h1, h2⟩, -⟩, h4⟩ := hs
  have hmax := h.maxHi
  have hmax' := h.maxLo
  have he := off_bounds tp.sndUna sack.end_
  have hst := off_bounds tp.sndUna sack.start
  rw [seqLeq_off tp.sndUna (by rw [off_self]; exact ⟨by omega, by omega⟩), off_self,
    decide_eq_false_iff_not] at h2
  rw [seqGt_off tp.sndUna ⟨by omega, by omega⟩, decide_eq_false_iff_not] at h4
  -- a start too far behind would make the block look empty
  have hd : 0 < (off tp.sndUna sack.end_ - off tp.sndUna sack.start).bmod (2 ^ 32) := by
    rw [← toInt_sub_bmod]
    simpa [seqLeq] using h1
  rw [Int.bmod_def] at hd
  refine ⟨⟨by omega, by omega, ?_, ?_⟩, by omega⟩ <;> split_ifs at hd <;> omega

theorem HoleIn.mono_hi {una : Seq} {lo hi hi' : Int} {h : Sackhole} (hh : HoleIn una lo hi h)
    (hle : hi ≤ hi') : HoleIn una lo hi' h :=
  ⟨hh.lo, hh.nonempty, hh.rxmitLo, hh.rxmitHi, Int.lt_of_lt_of_le hh.hi hle⟩

/-- One block keeps the holes in order. -/
theorem sackBlock_ok {thAck : Seq} {tp : Tcpcb} {lo : Int} (h : SackInv lo tp) (pools : List Bool)
    {sack : Sackblk} (hlo : off tp.sndUna thAck = lo) (hok : BlockOk thAck tp sack) :
    (sackBlock thAck tp pools sack).Ok lo tp := by
  unfold sackBlock
  split
  · exact ⟨h, _, _, _, rfl⟩
  rename_i hskip
  have hskip : blkSkip thAck tp sack = false := by simpa using hskip
  obtain ⟨hblk, hend⟩ := blkIn_of_not_skip h hskip
  have hok := hok hskip
  obtain ⟨b1, b2, b3, b4⟩ := hblk
  have h0 := h.loNonneg
  have hmax := h.maxHi
  have hnear0 : Near (off tp.sndUna sack.start) (off tp.sndUna tp.sndUna) := by
    rw [off_self]; exact ⟨by omega, by omega⟩
  rw [seqLt_off tp.sndUna hnear0, off_self, decide_eq_false_iff_not] at hok
  split
  · -- the first hole, from the acknowledgment to the block
    rename_i hnil
    rw [if_pos hnil] at hok
    have hA := off_bounds tp.sndUna thAck
    obtain ⟨hx, hgt⟩ := hok
    rw [seqGt_off tp.sndUna ⟨by omega, by omega⟩, decide_eq_true_eq] at hgt
    split
    · refine ⟨⟨h0, h.maxLo, h.maxHi, ⟨by simp, ?_⟩, fun _ => hend, by simp⟩, _, _, _, rfl⟩
      intro a ha
      obtain rfl : a = _ := by simpa using ha
      constructor <;> dsimp only <;> omega
    · exact ⟨h, _, _, _, rfl⟩
  · rename_i holes hne
    rw [if_neg hne] at hok
    have hlast := h.lastLe hne
    have hhi : off tp.sndUna tp.rcvLastsack ≤ 2 ^ 30 := by omega
    have hwalk := holeWalk_ok tp.tMaxseg h0 hhi ⟨b1, b2, b3, b4⟩ tp.sndHoles pools
      tp.sndNumholes 0 [] h.cut (by simp [h.count])
    split
    · rename_i hw
      rw [hw] at hwalk
      exact hwalk
    · rename_i n holes' hw
      rw [hw] at hwalk
      exact ⟨⟨h0, h.maxLo, h.maxHi, hwalk.1, fun _ => hlast, by simpa using hwalk.2⟩, _, _, _, rfl⟩
    · rename_i n pre post pools' hw
      split
      · -- the block is beyond `rcv_lastsack`, so every hole was passed
        rename_i hbeyond
        have hx : 0 ≤ off tp.sndUna sack.start := by
          rcases hok with hok | hok
          · omega
          · rw [hok] at hbeyond; cases hbeyond
        obtain ⟨first, rest, hcons⟩ := List.exists_cons_of_ne_nil hne
        have hfirst := h.cut.after_each first (by simp [hcons])
        obtain ⟨c1, c2, -, -, c5⟩ := hfirst
        rw [seqLt_off tp.sndUna ⟨by omega, by omega⟩, decide_eq_true_eq] at hbeyond
        have hall := holeWalk_beyond tp.tMaxseg h0 hhi ⟨b1, b2, b3, b4⟩ (Int.le_of_lt hbeyond)
          tp.sndHoles pools tp.sndNumholes [] h.cut
        rw [hall] at hw hwalk
        obtain ⟨rfl, rfl, rfl, rfl⟩ : tp.sndNumholes = n
            ∧ [].reverse ++ tp.sndHoles.map (bumpDups tp.tMaxseg sack) = pre ∧ [] = post
            ∧ pools = pools' := by simpa using hw
        have hcut : HolesCut tp.sndUna lo (off tp.sndUna tp.rcvLastsack) []
            (tp.sndHoles.map (bumpDups tp.tMaxseg sack)) := by simpa using hwalk.1
        have hmap : ¬ tp.sndHoles.map (bumpDups tp.tMaxseg sack) = [] := by simpa using hne
        simp only [List.reverse_nil, List.nil_append, List.append_nil, hmap, if_false]
        split
        · refine ⟨⟨h0, h.maxLo, h.maxHi, ?_, fun _ => hend, by simp [h.count]⟩, _, _, _, rfl⟩
          refine (hcut.mono fun a ha => ha.mono_hi ?_).append ?_ fun a ha => ?_
          · dsimp only; omega
          · constructor <;> dsimp only <;> omega
          · exact (hcut.after_each a ha).hi
        · exact ⟨⟨h0, h.maxLo, h.maxHi, hcut, fun _ => hlast, by simp [h.count]⟩, _, _, _, rfl⟩
      · rw [hw] at hwalk
        exact ⟨⟨h0, h.maxLo, h.maxHi, hwalk.1, fun _ => hlast, by simpa using hwalk.2⟩, _, _, _, rfl⟩

/-! ## Options -/

/-- Every block, in the state the blocks before it have left, does no harm. -/
def BlocksOk (thAck : Seq) : Tcpcb → List Bool → List Sackblk → Prop
  | _, _, [] => True
  | tp, pools, sack :: rest =>
    BlockOk thAck tp sack ∧
      match sackBlock thAck tp pools sack with
      | .next tp pools => BlocksOk thAck tp pools rest
      | _ => True

instance decidableBlocksOk (thAck : Seq) :
    ∀ (tp : Tcpcb) (pools : List Bool) (blocks : List Sackblk),
      Decidable (BlocksOk thAck tp pools blocks)
  | _, _, [] => isTrue trivial
  | tp, pools, sack :: rest =>
    match h : sackBlock thAck tp pools sack with
    | .next tp' pools' =>
      haveI := decidableBlocksOk thAck tp' pools' rest
      decidable_of_iff (BlockOk thAck tp sack ∧ BlocksOk thAck tp' pools' rest) (by simp [BlocksOk, h])
    | .done _ => decidable_of_iff (BlockOk thAck tp sack) (by simp [BlocksOk, h])
    | .spins => decidable_of_iff (BlockOk thAck tp sack) (by simp [BlocksOk, h])
    | .panic => decidable_of_iff (BlockOk thAck tp sack) (by simp [BlocksOk, h])

theorem Sacked.Ok.trans {lo : Int} {tp tp' : Tcpcb} {r : Sacked} (h : r.Ok lo tp')
    (heq : ∃ holes n last,
      tp' = { tp with sndHoles := holes, sndNumholes := n, rcvLastsack := last }) : r.Ok lo tp := by
  obtain ⟨holes, n, last, rfl⟩ := heq
  cases r with
  | next tp'' pools => exact ⟨h.1, h.2⟩
  | done tp'' => exact ⟨h.1, h.2⟩
  | spins => exact h
  | panic => exact h

theorem sackLoop_ok {thAck : Seq} {lo : Int} :
    ∀ (blocks : List Sackblk) {tp : Tcpcb} (pools : List Bool), SackInv lo tp →
      off tp.sndUna thAck = lo → BlocksOk thAck tp pools blocks →
      (sackLoop thAck tp pools blocks).Ok lo tp
  | [], tp, pools, h, _, _ => ⟨h, _, _, _, rfl⟩
  | sack :: rest, tp, pools, h, hlo, hok => by
      obtain ⟨hblk, hrest⟩ := hok
      have hb := sackBlock_ok h pools hlo hblk
      rw [sackLoop]
      cases hs : sackBlock thAck tp pools sack with
      | next tp' pools' =>
          rw [hs] at hb
          simp only [hs] at hrest
          obtain ⟨hinv, heq⟩ := hb
          refine Sacked.Ok.trans (sackLoop_ok rest pools' hinv ?_ hrest) heq
          obtain ⟨holes, n, last, rfl⟩ := heq
          exact hlo
      | done tp' => rw [hs] at hb; exact hb
      | spins => rw [hs] at hb; exact hb
      | panic => rw [hs] at hb; exact hb

/-- The blocks of an option that is looked at do no harm. -/
def OptionOk (tp : Tcpcb) (th : Tcphdr) (cp : List UInt8) (pools : List Bool) : Prop :=
  tp.sackEnable = true → th.thFlags.ack = true → seqLt th.thAck tp.sndUna = false →
    seqGt th.thAck tp.sndMax = false → BlocksOk th.thAck tp pools (sackBlocks (cp.drop 2))

instance (tp : Tcpcb) (th : Tcphdr) (cp : List UInt8) (pools : List Bool) :
    Decidable (OptionOk tp th cp pools) := by
  unfold OptionOk; infer_instance

theorem tcpSackOption_ok {tp : Tcpcb} {th : Tcphdr} {lo : Int} (h : SackInv lo tp)
    (hlo : seqGt th.thAck tp.sndMax = false → seqLt th.thAck tp.sndUna = false →
      off tp.sndUna th.thAck = lo)
    {cp : List UInt8} {pools : List Bool} (hok : OptionOk tp th cp pools) :
    tcpSackOption tp th cp pools = .panic ∨ (tcpSackOption tp th cp pools).Ok lo tp := by
  have hcount : ¬ tp.sndNumholes < 0 := by rw [h.count]; omega
  unfold tcpSackOption
  dsimp only
  split_ifs with h1 h2
  · exact Or.inr ⟨h, _, _, _, rfl⟩
  · exact Or.inr ⟨h, _, _, _, rfl⟩
  · exact Or.inr ⟨h, _, _, _, rfl⟩
  · exact Or.inl rfl
  · obtain ⟨he, ha⟩ : tp.sackEnable = true ∧ th.thFlags.ack = true := by simpa using h1
    obtain ⟨hl, hg⟩ : seqLt th.thAck tp.sndUna = false ∧ seqGt th.thAck tp.sndMax = false := by
      simpa using h2
    exact Or.inr (sackLoop_ok _ pools h (hlo hg hl) (hok he ha hl hg))

/-! ## Acknowledged holes -/

/-- What is left after `delHoles` begins at or after the acknowledgment. -/
theorem delHoles_ok {una : Seq} (lastack : Seq) {lo hi : Int} (hlo : 0 ≤ lo) (hle : lo ≤ off una lastack)
    (hhi : hi ≤ 2 ^ 30) :
    ∀ (holes : List Sackhole) (n : Int), HolesCut una lo hi [] holes → n = holes.length →
      HolesCut una (off una lastack) hi [] (delHoles lastack n holes).2
        ∧ (delHoles lastack n holes).1 = (delHoles lastack n holes).2.length
        ∧ ((delHoles lastack n holes).2 ≠ [] → holes ≠ [])
  | [], n, _, hn => ⟨⟨by simp [delHoles], by simp [delHoles]⟩, hn, fun h => h⟩
  | cur :: next, n, h, hn => by
      obtain ⟨c1, c2, c3, c4, c5⟩ := h.after_each cur (by simp)
      have hl := off_bounds una lastack
      have hbehind : ∀ b ∈ next, off una cur.end_ < off una b.start := h.after_first
      rw [List.length_cons] at hn
      rw [delHoles, seqLeq_off una ⟨by omega, by omega⟩, seqLt_off una ⟨by omega, by omega⟩,
        seqLt_off una ⟨by omega, by omega⟩]
      split
      · obtain ⟨h1, h2, -⟩ := delHoles_ok lastack hlo hle hhi next (n - 1) h.drop (by omega)
        exact ⟨h1, h2, by simp⟩
      · rename_i hend
        simp only [decide_eq_true_eq, not_le] at hend
        have hnext : HolesCut una (off una lastack) hi [] next := by
          refine ⟨by simpa using h.drop.apart, fun b hb => ?_⟩
          have hb : b ∈ next := by simpa using hb
          have hin := h.after_each b (by simp [hb])
          have := hbehind b hb
          exact ⟨by omega, hin.nonempty, hin.rxmitLo, hin.rxmitHi, hin.hi⟩
        split
        · rename_i hstart
          refine ⟨Cut.snoc.mp (hnext.insert ?_ (by simp) hbehind), by simp; omega, by simp⟩
          by_cases hr : off una cur.rxmit < off una lastack
          · constructor <;> simp [hr] <;> omega
          · constructor <;> simp [hr] <;> omega
        · rename_i hstart
          simp only [decide_eq_true_eq, not_lt] at hstart
          exact ⟨Cut.snoc.mp (hnext.insert ⟨by omega, c2, c3, c4, c5⟩ (by simp) hbehind),
            by simp; omega, by simp⟩

theorem tcpDelSackholes_ok {tp : Tcpcb} (th : Tcphdr) (h : SackInv 0 tp)
    (hstate : tp.tState ≠ .listen) (hoff : tp.sackEnable = false → tp.sndHoles = []) :
    SackInv (max 0 (off tp.sndUna th.thAck)) (tcpDelSackholes tp th)
      ∧ ∃ holes n, tcpDelSackholes tp th = { tp with sndHoles := holes, sndNumholes := n }
        ∧ (tp.sackEnable = false → holes = []) := by
  have hA := off_bounds tp.sndUna th.thAck
  have hla : off tp.sndUna (if seqGt th.thAck tp.sndUna then th.thAck else tp.sndUna)
      = max 0 (off tp.sndUna th.thAck) := by
    rw [seqGt_off tp.sndUna (by rw [off_self]; exact ⟨by omega, by omega⟩), off_self]
    split <;> rename_i hc <;> simp only [decide_eq_true_eq] at hc
    · omega
    · rw [off_self]; omega
  have hmax := h.maxHi
  unfold tcpDelSackholes
  split
  · dsimp only
    by_cases hnil : tp.sndHoles = []
    · have hn : tp.sndNumholes = 0 := by simp [h.count, hnil]
      rw [hnil, hn, delHoles]
      exact ⟨⟨by omega, h.maxLo, h.maxHi, ⟨by simp, by simp⟩, fun h => absurd rfl h, by simp⟩,
        _, _, rfl, fun _ => rfl⟩
    · have hlast := h.lastLe hnil
      obtain ⟨h1, h2, -⟩ := delHoles_ok (if seqGt th.thAck tp.sndUna then th.thAck else tp.sndUna)
        (Int.le_refl 0) (by omega) (by omega) tp.sndHoles tp.sndNumholes h.cut h.count
      rw [hla] at h1
      exact ⟨⟨by omega, h.maxLo, h.maxHi, h1, fun _ => hlast, h2⟩, _, _, rfl,
        fun he => absurd (hoff he) hnil⟩
  · rename_i hdis
    have hdis : tp.sackEnable = false := by
      by_contra hc
      exact hdis ⟨by simpa using hc, hstate⟩
    have hnil := hoff hdis
    exact ⟨⟨by omega, h.maxLo, h.maxHi, by rw [hnil]; exact ⟨by simp, by simp⟩, h.lastLe, h.count⟩,
      _, _, rfl, fun _ => hnil⟩

/-! ## Runs -/

/-- What a segment's options do, one SACK option after the other. -/
def sackOptions (th : Tcphdr) : Tcpcb → List (List UInt8 × List Bool) → Option Tcpcb
  | tp, [] => some tp
  | tp, (cp, pools) :: rest =>
    match tcpSackOption tp th cp pools with
    | .next tp _ => sackOptions th tp rest
    | .done tp => sackOptions th tp rest
    | .spins => none
    | .panic => none

inductive SackAct where
  /-- A segment arrives with its SACK options; `accept` if `tcp_input` goes on to
  take its acknowledgment. -/
  | segment (th : Tcphdr) (opts : List (List UInt8 × List Bool)) (accept : Bool)
  /-- `tcp_output` retransmits `len` bytes of a hole. -/
  | rexmit (len : Nat)
  /-- `tcp_output` sends new data up to `x`. -/
  | send (x : Seq)
deriving DecidableEq, Repr

def sackStep (tp : Tcpcb) : SackAct → Option Tcpcb
  | .segment th opts accept =>
    (sackOptions th (tcpDelSackholes tp th) opts).map fun tp =>
      if accept && th.thFlags.ack && seqGt th.thAck tp.sndUna && seqLeq th.thAck tp.sndMax then
        { tp with sndUna := th.thAck }
      else tp
  | .rexmit len =>
    match tcpSackOutput tp.sndUna [] tp.sndHoles with
    | some (before, p, next) =>
      if tp.sackEnable && decide (len ≤ (p.end_ - p.rxmit).toNat) then
        some { tp with
          sndHoles := before.reverse ++ { p with rxmit := p.rxmit + BitVec.ofNat 32 len } :: next }
      else none
    | none => none
  | .send x => if seqGt x tp.sndMax then some { tp with sndMax := x } else none

/-- All the options of a segment do no harm. -/
def OptionsOk (th : Tcphdr) : Tcpcb → List (List UInt8 × List Bool) → Prop
  | _, [] => True
  | tp, (cp, pools) :: rest =>
    OptionOk tp th cp pools ∧
      match tcpSackOption tp th cp pools with
      | .next tp _ => OptionsOk th tp rest
      | .done tp => OptionsOk th tp rest
      | _ => True

instance decidableOptionsOk (th : Tcphdr) :
    ∀ (tp : Tcpcb) (opts : List (List UInt8 × List Bool)), Decidable (OptionsOk th tp opts)
  | _, [] => isTrue trivial
  | tp, (cp, pools) :: rest =>
    match h : tcpSackOption tp th cp pools with
    | .next tp' _ =>
      haveI := decidableOptionsOk th tp' rest
      decidable_of_iff (OptionOk tp th cp pools ∧ OptionsOk th tp' rest) (by simp [OptionsOk, h])
    | .done tp' =>
      haveI := decidableOptionsOk th tp' rest
      decidable_of_iff (OptionOk tp th cp pools ∧ OptionsOk th tp' rest) (by simp [OptionsOk, h])
    | .spins => decidable_of_iff (OptionOk tp th cp pools) (by simp [OptionsOk, h])
    | .panic => decidable_of_iff (OptionOk tp th cp pools) (by simp [OptionsOk, h])

/-- What is outstanding stays below `2^30`. -/
def WindowGuard (tp : Tcpcb) : SackAct → Prop
  | .segment _ _ _ => True
  | .rexmit _ => True
  | .send x => (x - tp.sndUna).toNat < 2 ^ 30

/-- In addition, the SACK options of a segment do no harm. -/
def SackGuard (tp : Tcpcb) : SackAct → Prop
  | .segment th opts _ => OptionsOk th (tcpDelSackholes tp th) opts
  | .rexmit _ => True
  | .send x => (x - tp.sndUna).toNat < 2 ^ 30

instance (tp : Tcpcb) (a : SackAct) : Decidable (WindowGuard tp a) := by
  cases a <;> (unfold WindowGuard; infer_instance)

instance (tp : Tcpcb) (a : SackAct) : Decidable (SackGuard tp a) := by
  cases a <;> (unfold SackGuard; infer_instance)

/-- The holes as the retransmission code relies on them. -/
@[mk_iff]
structure HolesOk (tp : Tcpcb) : Prop where
  nonempty : ∀ h ∈ tp.sndHoles, seqLt h.start h.end_ = true
  increasing : tp.sndHoles.Pairwise fun a b => seqLt a.start b.start = true
  disjoint : tp.sndHoles.Pairwise fun a b => seqLeq a.end_ b.start = true
  inside : ∀ h ∈ tp.sndHoles, seqLeq tp.sndUna h.start = true ∧ seqLeq h.end_ tp.sndMax = true
  rxmit : ∀ h ∈ tp.sndHoles, seqLeq h.start h.rxmit = true ∧ seqLeq h.rxmit h.end_ = true
  count : tp.sndNumholes = tp.sndHoles.length

instance (tp : Tcpcb) : Decidable (HolesOk tp) := decidable_of_iff _ (holesOk_iff tp).symm

theorem SackInv.holesOk {tp : Tcpcb} (h : SackInv 0 tp) : HolesOk tp := by
  have hmax := h.maxHi
  -- all the numbers at hand are between `snd_una` and `snd_max`
  have hin : ∀ a ∈ tp.sndHoles, HoleIn tp.sndUna 0 (2 ^ 30) a := fun a ha => by
    have hlast := h.lastLe (List.ne_nil_of_mem ha)
    exact (h.cut.after_each a ha).mono_hi (by omega)
  have hapart : tp.sndHoles.Pairwise fun a b => off tp.sndUna a.end_ < off tp.sndUna b.start := by
    simpa using h.cut.apart
  refine ⟨fun a ha => ?_, ?_, ?_, fun a ha => ?_, fun a ha => ?_, h.count⟩
  · obtain ⟨c1, c2, c3, c4, c5⟩ := hin a ha
    rw [seqLt_off tp.sndUna ⟨by omega, by omega⟩]
    simpa using c2
  · refine hapart.imp_of_mem fun {a b} ha hb hab => ?_
    obtain ⟨c1, c2, c3, c4, c5⟩ := hin a ha
    obtain ⟨d1, d2, d3, d4, d5⟩ := hin b hb
    rw [seqLt_off tp.sndUna ⟨by omega, by omega⟩, decide_eq_true_eq]
    omega
  · refine hapart.imp_of_mem fun {a b} ha hb hab => ?_
    obtain ⟨c1, c2, c3, c4, c5⟩ := hin a ha
    obtain ⟨d1, d2, d3, d4, d5⟩ := hin b hb
    rw [seqLeq_off tp.sndUna ⟨by omega, by omega⟩, decide_eq_true_eq]
    omega
  · obtain ⟨c1, c2, c3, c4, c5⟩ := hin a ha
    have hlast := h.lastLe (List.ne_nil_of_mem ha)
    have hhi := (h.cut.after_each a ha).hi
    constructor
    · rw [seqLeq_off tp.sndUna (by rw [off_self]; exact ⟨by omega, by omega⟩), off_self]
      simpa using c1
    · rw [seqLeq_off tp.sndUna ⟨by omega, by omega⟩, decide_eq_true_eq]
      omega
  · obtain ⟨c1, c2, c3, c4, c5⟩ := hin a ha
    constructor
    · rw [seqLeq_off tp.sndUna ⟨by omega, by omega⟩, decide_eq_true_eq]
      exact c3
    · rw [seqLeq_off tp.sndUna ⟨by omega, by omega⟩, decide_eq_true_eq]
      exact c4

/-- The acknowledgment is taken: distances count from it now. -/
theorem HolesInv.advance {una max last x : Seq} {holes : List Sackhole} {n : Int}
    (h : HolesInv (off una x) una max last holes n) (hle : off una x ≤ off una max) :
    HolesInv 0 x max last holes n := by
  have h0 := h.loNonneg
  have hmax := h.maxHi
  have hmove : ∀ y : Seq, off una x ≤ off una y → off una y ≤ 2 ^ 30 →
      off x y = off una y - off una x := fun y h1 h2 =>
    toInt_sub_off una ⟨by omega, by omega⟩
  have hM := hmove max hle (by omega)
  have hL : holes ≠ [] → off x last = off una last - off una x := fun hne => by
    obtain ⟨first, rest, hcons⟩ := List.exists_cons_of_ne_nil hne
    obtain ⟨c1, c2, -, -, c5⟩ := h.cut.after_each first (by simp [hcons])
    have hlast := h.lastLe hne
    exact hmove last (by omega) (by omega)
  refine ⟨Int.le_refl 0, by omega, by omega, ⟨?_, ?_⟩, fun hne => ?_, h.count⟩
  · refine h.cut.apart.imp_of_mem fun {a b} ha hb hab => ?_
    have hlast := h.lastLe (List.ne_nil_of_mem (by simpa using ha))
    obtain ⟨c1, c2, c3, c4, c5⟩ := h.cut.each a ha
    obtain ⟨d1, d2, d3, d4, d5⟩ := h.cut.each b hb
    rw [hmove a.end_ (by omega) (by omega), hmove b.start (by omega) (by omega)]
    omega
  · intro a ha
    have hne : holes ≠ [] := List.ne_nil_of_mem (by simpa using ha)
    have hlast := h.lastLe hne
    obtain ⟨c1, c2, c3, c4, c5⟩ := h.cut.each a ha
    have hs := hmove a.start c1 (by omega)
    have he := hmove a.end_ (by omega) (by omega)
    have hr := hmove a.rxmit (by omega) (by omega)
    have hl := hL hne
    constructor <;> omega
  · have hl := hL hne
    have hlast := h.lastLe hne
    omega

theorem tcpSackOutput_cut {una : Seq} :
    ∀ {before holes : List Sackhole} {before' next : List Sackhole} {p : Sackhole},
      tcpSackOutput una before holes = some (before', p, next) →
      before'.reverse ++ p :: next = before.reverse ++ holes
  | _, [], _, _, _, h => by simp [tcpSackOutput] at h
  | before, q :: holes, before', next, p, h => by
      rw [tcpSackOutput] at h
      split at h
      · obtain ⟨rfl, rfl, rfl⟩ : before = before' ∧ q = p ∧ holes = next := by simpa using h
        rfl
      · simpa using tcpSackOutput_cut h

theorem off_add_ofNat {una x : Seq} {len : Nat} (h : off una x + len < 2 ^ 31) :
    off una (x + BitVec.ofNat 32 len) = off una x + len := by
  have hb := off_bounds una x
  have hx : x + BitVec.ofNat 32 len = Serial.nth una (off una x + len) := by
    rw [← Serial.nth_add_ofNat, nth_off]
  have hnear : Near (off una x + len) 0 := ⟨by omega, by omega⟩
  have hd := toInt_nth_sub una hnear
  rw [Serial.nth_zero, ← hx] at hd
  rw [off, hd]
  omega

/-- A retransmission moves the pointer of one hole towards its end. -/
theorem HolesInv.rexmit {una max last : Seq} {before next : List Sackhole} {p : Sackhole} {n : Int}
    (h : HolesInv 0 una max last (before.reverse ++ p :: next) n) {len : Nat}
    (hlen : len ≤ (p.end_ - p.rxmit).toNat) :
    HolesInv 0 una max last
      (before.reverse ++ { p with rxmit := p.rxmit + BitVec.ofNat 32 len } :: next) n := by
  have hmax := h.maxHi
  have hlast := h.lastLe (by simp)
  have hcut : HolesCut una 0 (off una last) before (p :: next) := h.cut.move (by simp)
  obtain ⟨c1, c2, c3, c4, c5⟩ := hcut.after_each p (by simp)
  have hd : (p.end_ - p.rxmit).toInt = off una p.end_ - off una p.rxmit :=
    toInt_sub_off una ⟨by omega, by omega⟩
  have hle : (len : Int) ≤ off una p.end_ - off una p.rxmit := by
    have := BitVec.toInt_eq_toNat_cond (p.end_ - p.rxmit)
    split_ifs at this <;> omega
  have hnew : off una (p.rxmit + BitVec.ofNat 32 len) = off una p.rxmit + len :=
    off_add_ofNat (by omega)
  have hp : HoleIn una 0 (off una last) { p with rxmit := p.rxmit + BitVec.ofNat 32 len } := by
    constructor <;> dsimp only <;> omega
  exact ⟨Int.le_refl 0, h.maxLo, h.maxHi, (hcut.replace hp (fun _ hb => hb) fun _ hb => hb).join,
    fun _ => hlast, by simpa using h.count⟩

/-- The invariant of a run. -/
structure SackSysInv (tp : Tcpcb) : Prop where
  holes : SackInv 0 tp
  state : tp.tState ≠ .listen
  disabled : tp.sackEnable = false → tp.sndHoles = []

theorem sackOptions_ok {th : Tcphdr} {lo : Int} :
    ∀ (opts : List (List UInt8 × List Bool)) {tp tp' : Tcpcb}, SackInv lo tp →
      (seqGt th.thAck tp.sndMax = false → seqLt th.thAck tp.sndUna = false →
        off tp.sndUna th.thAck = lo) →
      OptionsOk th tp opts → (tp.sackEnable = false → tp.sndHoles = []) →
      sackOptions th tp opts = some tp' →
      SackInv lo tp' ∧ (tp'.sackEnable = false → tp'.sndHoles = []) ∧ tp'.sndUna = tp.sndUna
        ∧ tp'.sndMax = tp.sndMax ∧ tp'.tState = tp.tState
  | [], tp, tp', h, _, _, hdis, heq => by
      obtain rfl : tp = tp' := by simpa [sackOptions] using heq
      exact ⟨h, hdis, rfl, rfl, rfl⟩
  | (cp, pools) :: rest, tp, tp', h, hlo, hok, hdis, heq => by
      obtain ⟨hopt, hrest⟩ := hok
      have hres := tcpSackOption_ok h hlo hopt
      -- a connection that does not use SACK looks at no option
      have hskip : tp.sackEnable = false → tcpSackOption tp th cp pools = .done tp := fun he => by
        simp [tcpSackOption, he]
      have hgo : ∀ tp₁, (SackInv lo tp₁ ∧ ∃ holes n last,
            tp₁ = { tp with sndHoles := holes, sndNumholes := n, rcvLastsack := last }) →
          (tp₁.sackEnable = false → tp₁.sndHoles = []) → OptionsOk th tp₁ rest →
          sackOptions th tp₁ rest = some tp' →
          SackInv lo tp' ∧ (tp'.sackEnable = false → tp'.sndHoles = []) ∧ tp'.sndUna = tp.sndUna
            ∧ tp'.sndMax = tp.sndMax ∧ tp'.tState = tp.tState := by
        rintro tp₁ ⟨hinv, holes, n, last, rfl⟩ hd ho hs
        obtain ⟨h1, h2, h3, h4, h5⟩ := sackOptions_ok rest hinv hlo ho hd hs
        exact ⟨h1, h2, h3, h4, h5⟩
      simp only [sackOptions] at heq
      cases hr : tcpSackOption tp th cp pools with
      | next tp₁ pools₁ =>
          rw [hr] at hres heq
          simp only [hr] at hrest
          have hinv : Sacked.Ok lo tp (.next tp₁ pools₁) := hres.resolve_left (by simp)
          refine hgo tp₁ hinv (fun he => ?_) hrest heq
          obtain ⟨-, holes, n, last, rfl⟩ := hinv
          rw [hskip he] at hr
          cases hr
      | done tp₁ =>
          rw [hr] at hres heq
          simp only [hr] at hrest
          have hinv : Sacked.Ok lo tp (.done tp₁) := hres.resolve_left (by simp)
          refine hgo tp₁ hinv (fun he => ?_) hrest heq
          have he' : tp.sackEnable = false := by
            obtain ⟨-, holes, n, last, rfl⟩ := hinv
            exact he
          obtain rfl : tp = tp₁ := by simpa [hskip he'] using hr
          exact hdis he'
      | spins => rw [hr] at heq; cases heq
      | panic => rw [hr] at heq; cases heq

theorem sackStep_inv {tp tp' : Tcpcb} {a : SackAct} (hg : SackGuard tp a)
    (hst : sackStep tp a = some tp') (h : SackSysInv tp) : SackSysInv tp' := by
  obtain ⟨hinv, hstate, hdis⟩ := h
  have hmax := hinv.maxHi
  have hmax' := hinv.maxLo
  cases a with
  | segment th opts accept =>
      obtain ⟨hdel, holes, n, hdeq, hdis'⟩ := tcpDelSackholes_ok th hinv hstate hdis
      obtain ⟨tp₁, hopts, rfl⟩ := Option.map_eq_some_iff.mp hst
      have hA := off_bounds tp.sndUna th.thAck
      have hfr : (tcpDelSackholes tp th).sndUna = tp.sndUna
          ∧ (tcpDelSackholes tp th).sndMax = tp.sndMax
          ∧ (tcpDelSackholes tp th).tState = tp.tState
          ∧ ((tcpDelSackholes tp th).sackEnable = false →
              (tcpDelSackholes tp th).sndHoles = []) := by
        rw [hdeq]; exact ⟨rfl, rfl, rfl, hdis'⟩
      obtain ⟨hu, hm, hs, hd⟩ := hfr
      have hnear0 : Near (off tp.sndUna th.thAck) (off tp.sndUna tp.sndUna) := by
        rw [off_self]; exact ⟨by omega, by omega⟩
      obtain ⟨h1, h2, h3, h4, h5⟩ := sackOptions_ok opts hdel (fun _ hl => by
        rw [hu, seqLt_off tp.sndUna hnear0, off_self, decide_eq_false_iff_not] at hl
        rw [hu]; omega) hg hd hopts
      rw [hu] at h3
      rw [hm] at h4
      rw [hs] at h5
      split
      · -- the acknowledgment is taken
        rename_i hacc
        simp only [Bool.and_eq_true] at hacc
        obtain ⟨⟨-, hgt⟩, hle⟩ := hacc
        rw [h3, seqGt_off tp.sndUna hnear0, off_self, decide_eq_true_eq] at hgt
        rw [h4, seqLeq_off tp.sndUna ⟨by omega, by omega⟩, decide_eq_true_eq] at hle
        have hlo : max 0 (off tp.sndUna th.thAck) = off tp₁.sndUna th.thAck := by rw [h3]; omega
        have hadv : SackInv (off tp₁.sndUna th.thAck) tp₁ := hlo ▸ h1
        exact ⟨hadv.advance (by rw [h3, h4]; exact hle), by rw [h5]; exact hstate, h2⟩
      · refine ⟨⟨Int.le_refl 0, h1.maxLo, h1.maxHi, h1.cut.mono fun a ha => ?_, h1.lastLe, h1.count⟩,
          by rw [h5]; exact hstate, h2⟩
        exact ⟨by have := ha.lo; omega, ha.nonempty, ha.rxmitLo, ha.rxmitHi, ha.hi⟩
  | rexmit len =>
      simp only [sackStep] at hst
      split at hst
      · rename_i before p next hp
        split at hst
        · rename_i hcond
          simp only [Bool.and_eq_true, decide_eq_true_eq] at hcond
          obtain rfl := Option.some.inj hst
          have heq : before.reverse ++ p :: next = tp.sndHoles := by
            simpa using tcpSackOutput_cut hp
          have hinv' : HolesInv 0 tp.sndUna tp.sndMax tp.rcvLastsack (before.reverse ++ p :: next)
              tp.sndNumholes := by rw [heq]; exact hinv
          exact ⟨hinv'.rexmit hcond.2, hstate, fun he => by rw [hcond.1] at he; cases he⟩
        · cases hst
      · cases hst
  | send x =>
      simp only [sackStep] at hst
      split at hst
      · rename_i hgt
        obtain rfl := Option.some.inj hst
        have hlt : (x - tp.sndUna).toNat < 2 ^ 30 := hg
        have hx : off tp.sndUna x = (x - tp.sndUna).toNat :=
          BitVec.toInt_eq_toNat_of_lt (by omega)
        rw [seqGt_off tp.sndUna ⟨by omega, by omega⟩, decide_eq_true_eq] at hgt
        refine ⟨⟨Int.le_refl 0, by dsimp only; omega, by dsimp only; omega, hinv.cut, fun hne => ?_,
          hinv.count⟩, hstate, hdis⟩
        have := hinv.lastLe hne
        dsimp only
        omega
      · cases hst

/-- In every run of segments with any SACK options, acknowledgments, sends and
retransmissions whose blocks meet `SackGuard`, from a connection with nothing
sacked, the holes are in order. -/
theorem sack_runs_holesOk {tp₀ tp : Tcpcb} (hholes : tp₀.sndHoles = []) (hnum : tp₀.sndNumholes = 0)
    (hstate : tp₀.tState ≠ .listen) (hwin : (tp₀.sndMax - tp₀.sndUna).toNat < 2 ^ 30)
    (h : Runs sackStep SackGuard tp₀ tp) : HolesOk tp := by
  have hoff : off tp₀.sndUna tp₀.sndMax = (tp₀.sndMax - tp₀.sndUna).toNat :=
    BitVec.toInt_eq_toNat_of_lt (by omega)
  have hinit : SackSysInv tp₀ := by
    refine ⟨⟨Int.le_refl 0, by omega, by omega, ?_, fun hne => absurd hholes hne, ?_⟩, hstate,
      fun _ => hholes⟩
    · rw [hholes]; exact ⟨by simp, by simp⟩
    · rw [hholes, hnum]; rfl
  exact (h.invariant (fun _ _ _ hg hst hi => sackStep_inv hg hst hi) hinit).holes.holesOk

/-! ## Concrete runs -/

/-- A connection with 2000 bytes outstanding and nothing sacked. -/
def outstanding (una : Seq) : Tcpcb :=
  { tState := .established
    tMaxseg := 100
    sackEnable := true
    sndUna := una
    sndNxt := una + 2000#32
    sndMax := una + 2000#32 }

/-- Two blocks, a retransmission, and an acknowledgment into the first hole; the
numbers wrap between them. -/
def sackActs : List SackAct :=
  let th (ack : Seq) : Tcphdr := ⟨0#32, ack, { ack := true }, 0⟩
  [.segment (th (-100#32)) [([5, 18, 0, 0, 0, 100, 0, 0, 0, 200, 0, 0, 1, 144, 0, 0, 3, 32], [])] true,
   .rexmit 50,
   .send 2500#32,
   .segment (th 0#32) [] true]

theorem sack_runs_holesOk_wrapping :
    ∃ tp : Tcpcb, Runs sackStep SackGuard (outstanding (-100#32)) tp
      ∧ tp.sndHoles = [⟨0#32, 100#32, 3, 0#32⟩, ⟨200#32, 400#32, 3, 200#32⟩] ∧ HolesOk tp := by
  have hok : ∀ tp a, decide (SackGuard tp a) = true → SackGuard tp a := fun _ _ => of_decide_eq_true
  have hrun : Runs sackStep SackGuard (outstanding (-100#32))
      { outstanding (-100#32) with
        sndUna := 0#32
        sndMax := 2500#32
        sndHoles := [⟨0#32, 100#32, 3, 0#32⟩, ⟨200#32, 400#32, 3, 200#32⟩]
        sndNumholes := 2
        rcvLastsack := 800#32 } :=
    Runs.of_exec hok sackActs (by decide +kernel)
  exact ⟨_, hrun, rfl, sack_runs_holesOk rfl rfl (by decide) (by decide) hrun⟩

/-- A block that begins before the acknowledgment, reported while there are no
holes, makes a hole that ends before it begins. -/
theorem sack_runs_inverted :
    ∃ tp : Tcpcb, Runs sackStep WindowGuard (outstanding 1000#32) tp
      ∧ tp.sndHoles = [⟨1000#32, 900#32, 2, 1000#32⟩] ∧ ¬ HolesOk tp := by
  have hok : ∀ tp a, decide (WindowGuard tp a) = true → WindowGuard tp a :=
    fun _ _ => of_decide_eq_true
  refine ⟨{ outstanding 1000#32 with
    sndHoles := [⟨1000#32, 900#32, 2, 1000#32⟩]
    sndNumholes := 1
    rcvLastsack := 1100#32 }, ?_, rfl, by decide⟩
  exact Runs.of_exec hok
    [.segment ⟨0#32, 1000#32, { ack := true }, 0⟩ [([5, 10, 0, 0, 3, 132, 0, 0, 4, 76], [])] true]
    (by decide +kernel)

end Obsd.Tcp
