import Obsd.Runs
import Obsd.Tcp

/-!
# Reassembly

`tcp_reass` and `tcp_flush_queue` of `netinet/tcp_input.c`.

The bytes of a connection are a function `stream` from their position,
counted from the initial `rcv_nxt`, and a segment in flight is a piece of
it, `Piece`. On the queue a piece is an entry whose sequence number has
wrapped; `entry` says which. The proofs are about pieces: what the code
computes from 32-bit differences is, within a window, what it would
compute from positions.
-/

namespace Obsd.Tcp

/-! ## The code -/

/-- Where a new segment goes: `p` is the head of the first list, `q` of the
second. -/
def segqFind (thSeq : Seq) : List Tcpqent → List Tcpqent → List Tcpqent × List Tcpqent
  | before, [] => (before, [])
  | before, q :: after =>
    if seqGt q.thSeq thSeq then (before, q :: after) else segqFind thSeq (q :: before) after

/-- Trim or dequeue what the new segment, which ends at `segEnd`, overlaps. -/
def segqTrim (segEnd : Seq) : List Tcpqent → List Tcpqent
  | [] => []
  | q :: after =>
    let i := (segEnd - q.thSeq).toInt
    if i ≤ 0 then q :: after
    else if i < q.thReseqlen then
      { q with
        thSeq := q.thSeq + BitVec.ofInt 32 i
        thReseqlen := q.thReseqlen - i.toNat
        tcpqeM := q.tcpqeM.drop i.toNat } :: after
    else segqTrim segEnd after

/-- The data of a flushed entry goes to the socket, unless nobody will read it. -/
def sbAppend (so : Socket) (m : List UInt8) : Socket :=
  if so.ssCantrcvmore then so else { so with soRcv := so.soRcv ++ m }

/-- The loop of `tcp_flush_queue`: the flag it returns, `rcv_nxt` and the queue. -/
def flushLoop (so : Socket) (rcvNxt : Seq) (flags : Bool) :
    List Tcpqent → Bool × Seq × Socket × List Tcpqent
  | [] => (flags, rcvNxt, so, [])
  | q :: nq =>
    if q.thSeq = rcvNxt then
      flushLoop (sbAppend so q.tcpqeM) (rcvNxt + BitVec.ofNat 32 q.thReseqlen) q.thFlags.fin nq
    else (flags, rcvNxt, so, q :: nq)

/-- The result is `TH_FIN` or 0. The `SYN_RECEIVED` test of the source comes
after one that is stronger. -/
def tcpFlushQueue (tp : Tcpcb) (so : Socket) : Bool × Tcpcb × Socket :=
  if !haveEstablished tp.tState then (false, tp, so)
  else
    match tp.tSegq with
    | [] => (false, tp, so)
    | q :: nq =>
      if q.thSeq ≠ tp.rcvNxt then (false, tp, so)
      else if tp.tState = .synReceived ∧ q.thReseqlen ≠ 0 then (false, tp, so)
      else
        let (flags, rcvNxt, so, segq) := flushLoop so tp.rcvNxt false (q :: nq)
        (flags, { tp with rcvNxt := rcvNxt, tSegq := segq }, so)

/-- The segment goes between `before` and what it leaves of `after`. -/
def reassPlace (tp : Tcpcb) (so : Socket) (flags : ThFlags) (before after : List Tcpqent)
    (thSeq : Seq) (m : List UInt8) (tlen : Nat) : Bool × Tcpcb × Socket :=
  let tiqe : Tcpqent := ⟨thSeq, tlen % 2 ^ 16, flags, m⟩
  let after := segqTrim (thSeq + BitVec.ofNat 32 tlen) after
  let tp := { tp with tSegq := before.reverse ++ tiqe :: after }
  if thSeq ≠ tp.rcvNxt then (false, tp, so) else tcpFlushQueue tp so

/-- `tcp_reass` once it has a queue entry. -/
def reassInsert (tp : Tcpcb) (so : Socket) (th : Tcphdr) (m : List UInt8) (tlen : Nat) :
    Bool × Tcpcb × Socket :=
  let (before, after) := segqFind th.thSeq [] tp.tSegq
  match before with
  | p :: _ =>
    let i := (p.thSeq + BitVec.ofNat 32 p.thReseqlen - th.thSeq).toInt
    if i > 0 then
      if i ≥ tlen then (false, tp, so)
      else
        reassPlace tp so th.thFlags before after (th.thSeq + BitVec.ofInt 32 i) (m.drop i.toNat)
          (tlen - i.toNat)
    else reassPlace tp so th.thFlags before after th.thSeq m tlen
  | [] => reassPlace tp so th.thFlags before after th.thSeq m tlen

/-- `pool` says whether `pool_get` finds an entry. If it does not, the last one
on the queue is used for a segment that fills a hole, and otherwise the whole
queue goes. -/
def tcpReass (pool : Bool) (tp : Tcpcb) (so : Socket) (th : Tcphdr) (m : List UInt8)
    (tlen : Nat) : Bool × Tcpcb × Socket :=
  if pool then reassInsert tp so th m tlen
  else if tp.tSegq ≠ [] ∧ th.thSeq = tp.rcvNxt then
    reassInsert { tp with tSegq := tp.tSegq.dropLast } so th m tlen
  else (false, { tp with tSegq := [] }, so)

/-! ## Pieces of the stream -/

/-- `len` bytes from `off` on, with the flags of the segment that brought them. -/
structure Piece where
  off : Nat
  len : Nat
  flags : ThFlags

def slice (stream : Nat → UInt8) (off len : Nat) : List UInt8 :=
  (List.range len).map fun k => stream (off + k)

theorem slice_append (stream : Nat → UInt8) (off len len' : Nat) :
    slice stream off len ++ slice stream (off + len) len' = slice stream off (len + len') := by
  rw [slice, slice, slice, List.range_add, List.map_append, List.map_map]
  congr 2
  funext k
  simp [Nat.add_assoc]

theorem slice_drop (stream : Nat → UInt8) (off len i : Nat) :
    (slice stream off len).drop i = slice stream (off + i) (len - i) := by
  refine List.ext_getElem (by simp [slice]) fun k h1 h2 => ?_
  simp [slice, Nat.add_assoc]

/-- The queue entry of a piece. -/
def entry (irs : Seq) (stream : Nat → UInt8) (p : Piece) : Tcpqent :=
  ⟨Serial.nth irs p.off, p.len, p.flags, slice stream p.off p.len⟩

/-- Pieces that follow each other between `lo` and `hi`, none too long for
`th_reseqlen`. -/
def Laid : Nat → Nat → List Piece → Prop
  | lo, hi, [] => lo ≤ hi
  | lo, hi, p :: ps => lo ≤ p.off ∧ p.len < 2 ^ 16 ∧ Laid (p.off + p.len) hi ps

theorem Laid.le : ∀ {ps : List Piece} {lo hi : Nat}, Laid lo hi ps → lo ≤ hi
  | [], _, _, h => h
  | _ :: _, _, _, ⟨h1, _, h3⟩ => by have := h3.le; omega

theorem Laid.mono_lo : ∀ {ps : List Piece} {lo lo' hi : Nat}, Laid lo hi ps → lo' ≤ lo → Laid lo' hi ps
  | [], _, _, _, h, hle => Nat.le_trans hle h
  | _ :: _, _, _, _, ⟨h1, h2, h3⟩, hle => ⟨Nat.le_trans hle h1, h2, h3⟩

theorem Laid.mono_hi : ∀ {ps : List Piece} {lo hi hi' : Nat}, Laid lo hi ps → hi ≤ hi' → Laid lo hi' ps
  | [], _, _, _, h, hle => Nat.le_trans h hle
  | _ :: _, _, _, _, ⟨h1, h2, h3⟩, hle => ⟨h1, h2, h3.mono_hi hle⟩

theorem laid_append : ∀ {ps qs : List Piece} {lo hi : Nat},
    Laid lo hi (ps ++ qs) ↔ ∃ mid, Laid lo mid ps ∧ Laid mid hi qs
  | [], qs, lo, hi => ⟨fun h => ⟨lo, Nat.le_refl lo, h⟩, fun ⟨_, h1, h2⟩ => h2.mono_lo h1⟩
  | p :: ps, qs, lo, hi => by
      simp only [List.cons_append, Laid, laid_append, exists_and_left, and_assoc]

theorem Laid.mem : ∀ {ps : List Piece} {lo hi : Nat}, Laid lo hi ps →
    ∀ p ∈ ps, lo ≤ p.off ∧ p.off + p.len ≤ hi
  | [], _, _, _, p, hp => by simp at hp
  | q :: ps, lo, hi, ⟨h1, _, h3⟩, p, hp => by
      rcases List.mem_cons.mp hp with rfl | hp
      · exact ⟨h1, h3.le⟩
      · have := h3.mem p hp
        omega

/-- Later pieces begin where earlier ones have ended. -/
theorem Laid.pairwise : ∀ {ps : List Piece} {lo hi : Nat}, Laid lo hi ps →
    ps.Pairwise fun p q => p.off + p.len ≤ q.off
  | [], _, _, _ => List.Pairwise.nil
  | _ :: _, _, _, ⟨_, _, h3⟩ =>
      List.Pairwise.cons (fun q hq => (h3.mem q hq).1) h3.pairwise

/-! ## What the code does to pieces -/

section Stream

variable (irs : Seq) (stream : Nat → UInt8)

@[simp] theorem entry_thSeq (p : Piece) : (entry irs stream p).thSeq = Serial.nth irs p.off := rfl
@[simp] theorem entry_thReseqlen (p : Piece) : (entry irs stream p).thReseqlen = p.len := rfl
@[simp] theorem entry_thFlags (p : Piece) : (entry irs stream p).thFlags = p.flags := rfl
@[simp] theorem entry_tcpqeM (p : Piece) :
    (entry irs stream p).tcpqeM = slice stream p.off p.len := rfl

/-- The search splits the queue at the first piece that begins after the segment. -/
theorem segqFind_pieces (off : Nat) :
    ∀ (bs ps : List Piece), (∀ p ∈ ps, Near p.off off) →
      ∃ bs' ps' : List Piece, segqFind (Serial.nth irs off) (bs.map (entry irs stream)) (ps.map (entry irs stream))
          = (bs'.map (entry irs stream), ps'.map (entry irs stream))
        ∧ bs'.reverse ++ ps' = bs.reverse ++ ps ∧ (∀ b ∈ bs', b ∈ bs ∨ b.off ≤ off)
        ∧ ∀ p rest, ps' = p :: rest → off < p.off
  | bs, [], _ => ⟨bs, [], rfl, rfl, fun b hb => Or.inl hb, by simp⟩
  | bs, p :: ps, hnear => by
      have hp := hnear p (by simp)
      by_cases hgt : off < p.off
      · refine ⟨bs, p :: ps, ?_, rfl, fun b hb => Or.inl hb, ?_⟩
        · simp [segqFind, seqGt_nth irs hp, hgt]
        · rintro q rest ⟨⟩
          exact hgt
      · obtain ⟨bs', ps', heq, hcat, hb, ha⟩ :=
          segqFind_pieces off (p :: bs) ps fun q hq => hnear q (by simp [hq])
        refine ⟨bs', ps', ?_, by simpa using hcat, fun b hm => ?_, ha⟩
        · simpa [segqFind, seqGt_nth irs hp, hgt] using heq
        · rcases hb b hm with hm | hle
          · rcases List.mem_cons.mp hm with rfl | hm
            · exact Or.inr (Nat.not_lt.mp hgt)
            · exact Or.inl hm
          · exact Or.inr hle

/-- After trimming, what is left begins where the new segment ends. -/
theorem segqTrim_pieces (e : Nat) :
    ∀ {ps : List Piece} {lo hi : Nat}, Laid lo hi ps → e ≤ hi → (∀ p ∈ ps, Near e p.off) →
      ∃ ps' : List Piece, segqTrim (Serial.nth irs e) (ps.map (entry irs stream)) = ps'.map (entry irs stream)
        ∧ Laid e hi ps'
  | [], _, _, _, he, _ => ⟨[], rfl, he⟩
  | p :: ps, lo, hi, ⟨h1, h2, h3⟩, he, hnear => by
      have hi' := toInt_nth_sub irs (hnear p (by simp))
      by_cases hle : (e : Int) - p.off ≤ 0
      · refine ⟨p :: ps, ?_, ?_, h2, h3⟩
        · simp only [List.map_cons, segqTrim, entry_thSeq, hi', if_pos hle]
        · omega
      · by_cases hlt : (e : Int) - p.off < p.len
        · refine ⟨⟨e, p.off + p.len - e, p.flags⟩ :: ps, ?_, ?_, ?_, ?_⟩
          · simp only [List.map_cons, segqTrim, entry_thSeq, hi', if_neg hle, entry_thReseqlen,
              if_pos hlt, List.cons.injEq, and_true]
            have hto : ((e : Int) - p.off).toNat = e - p.off := by omega
            simp only [entry, hto, Serial.nth_add, slice_drop]
            congr 1
            · congr 1; omega
            · omega
            · congr 1 <;> omega
          · exact Nat.le_refl e
          · dsimp only; omega
          · dsimp only
            exact h3.mono_lo (by omega)
        · obtain ⟨ps', heq, hlaid⟩ := segqTrim_pieces e h3 he fun q hq => hnear q (by simp [hq])
          refine ⟨ps', ?_, hlaid⟩
          simpa only [List.map_cons, segqTrim, entry_thSeq, hi', if_neg hle, entry_thReseqlen,
              if_neg hlt] using heq

theorem sbAppend_sbAppend (so : Socket) (m m' : List UInt8) :
    sbAppend (sbAppend so m) m' = sbAppend so (m ++ m') := by
  unfold sbAppend
  split_ifs <;> simp_all

theorem sbAppend_nil (so : Socket) : sbAppend so [] = so := by
  unfold sbAppend
  split_ifs <;> simp

/-- Flushing moves `rcv_nxt` from `pos` to some `pos'`, hands over the bytes in
between, and leaves pieces that begin after `pos'`. -/
theorem flushLoop_pieces :
    ∀ {ps : List Piece} {pos hi : Nat} (so : Socket) (flags : Bool), Laid pos hi ps →
      hi ≤ pos + 2 ^ 30 →
      ∃ (flags' : Bool) (pos' : Nat) (ps' : List Piece),
        flushLoop so (Serial.nth irs pos) flags (ps.map (entry irs stream))
          = (flags', Serial.nth irs pos', sbAppend so (slice stream pos (pos' - pos)),
              ps'.map (entry irs stream))
        ∧ pos ≤ pos' ∧ pos' ≤ hi ∧ Laid (pos' + 1) (pos' + 2 ^ 30) ps'
  | [], pos, hi, so, flags, h, _ => by
      refine ⟨flags, pos, [], ?_, Nat.le_refl pos, h, by simp [Laid]⟩
      simp [flushLoop, slice, sbAppend_nil]
  | p :: ps, pos, hi, so, flags, ⟨h1, h2, h3⟩, hhi => by
      have hle := h3.le
      have hnear : Near p.off pos := ⟨by omega, by omega⟩
      by_cases heq : p.off = pos
      · obtain ⟨flags', pos', ps', hf, hp1, hp2, hlaid⟩ := flushLoop_pieces
          (sbAppend so (slice stream p.off p.len)) p.flags.fin h3 (by omega)
        refine ⟨flags', pos', ps', ?_, by omega, hp2, hlaid⟩
        have hcat := slice_append stream p.off p.len (pos' - (p.off + p.len))
        rw [show p.len + (pos' - (p.off + p.len)) = pos' - pos by omega] at hcat
        simp only [List.map_cons, flushLoop, entry_thSeq, heq, if_true, entry_tcpqeM,
          entry_thReseqlen, entry_thFlags, Serial.nth_add_ofNat]
        rw [heq] at hf hcat
        rw [show (pos : Int) + (p.len : Int) = ((pos + p.len : Nat) : Int) by rfl, hf,
          sbAppend_sbAppend, hcat]
      · refine ⟨flags, pos, p :: ps, ?_, Nat.le_refl pos, by omega, by omega, h2, h3.mono_hi hhi⟩
        have hne : ¬ Serial.nth irs p.off = Serial.nth irs pos := fun h =>
          heq (by exact_mod_cast (nth_inj irs hnear).mp h)
        simp only [List.map_cons, flushLoop, entry_thSeq, hne, if_false, Nat.sub_self]
        simp [slice, sbAppend_nil]

/-- What a call of `tcp_reass` leaves: `rcv_nxt` at `pos'`, the bytes from `pos`
to there handed over, and the queue laid out behind it. -/
def Reassembled (tp : Tcpcb) (so : Socket) (pos : Nat) (r : Bool × Tcpcb × Socket) : Prop :=
  ∃ (pos' : Nat) (ps : List Piece), pos ≤ pos' ∧ pos' ≤ pos + 2 ^ 30
    ∧ Laid (pos' + 1) (pos' + 2 ^ 30) ps
    ∧ r.2 = ({ tp with rcvNxt := Serial.nth irs pos', tSegq := ps.map (entry irs stream) },
        sbAppend so (slice stream pos (pos' - pos)))

theorem reassPlace_pieces {tp : Tcpcb} (so : Socket) (flags : ThFlags) {bs as : List Piece}
    {pos off len lo : Nat} (hest : haveEstablished tp.tState = true)
    (hnxt : tp.rcvNxt = Serial.nth irs pos)
    (hb : (off = pos ∧ bs = []) ∨ Laid (pos + 1) off bs.reverse)
    (ha : Laid lo (pos + 2 ^ 30) as) (hlo : pos ≤ lo) (hlen : len < 2 ^ 16)
    (hend : off + len ≤ pos + 2 ^ 30) :
    Reassembled irs stream tp so pos
      (reassPlace tp so flags (bs.map (entry irs stream)) (as.map (entry irs stream))
        (Serial.nth irs off) (slice stream off len) len) := by
  have hpos : pos ≤ off := by
    rcases hb with ⟨rfl, -⟩ | hb
    · exact le_rfl
    · have := hb.le; omega
  obtain ⟨as', htrim, hlaid⟩ := segqTrim_pieces irs stream (off + len) ha hend fun p hp => by
    have := ha.mem p hp
    exact ⟨by omega, by omega⟩
  have hnear : Near off pos := ⟨by omega, by omega⟩
  set new : Piece := ⟨off, len, flags⟩ with hnew
  have hentry : (⟨Serial.nth irs off, len % 2 ^ 16, flags, slice stream off len⟩ : Tcpqent)
      = entry irs stream new := by
    rw [Nat.mod_eq_of_lt hlen]; rfl
  have hsum : (off : Int) + (len : Int) = ((off + len : Nat) : Int) := by rfl
  have hqueue : (bs.map (entry irs stream)).reverse ++ entry irs stream new ::
      as'.map (entry irs stream) = (bs.reverse ++ new :: as').map (entry irs stream) := by simp
  unfold reassPlace
  dsimp only
  rw [Serial.nth_add_ofNat, hsum, htrim, hentry, hqueue]
  split
  · -- there is a gap before the segment
    rename_i hne
    have hoff : off ≠ pos := fun h => hne (by rw [hnxt, h])
    refine ⟨pos, bs.reverse ++ new :: as', le_rfl, by omega, ?_, ?_⟩
    · refine laid_append.mpr ⟨off, ?_, le_rfl, hlen, hlaid⟩
      rcases hb with ⟨h, -⟩ | hb
      · exact absurd h hoff
      · exact hb
    · simp [slice, sbAppend_nil, hnxt]
  · -- it is the next one, so it stands first
    rename_i heq
    have hoff : off = pos := by
      have h := Decidable.not_not.mp heq
      rw [hnxt] at h
      exact_mod_cast (nth_inj irs hnear).mp h
    have hbs : bs = [] := by
      rcases hb with ⟨-, h⟩ | hb
      · exact h
      · have := hb.le; omega
    subst hbs
    subst hoff
    obtain ⟨flags', pos', ps', hf, h1, h2, h3⟩ := flushLoop_pieces irs stream so false
      (show Laid off (off + 2 ^ 30) (new :: as') from ⟨le_rfl, hlen, hlaid⟩) le_rfl
    refine ⟨pos', ps', h1, h2, h3, ?_⟩
    have hsyn : tp.tState ≠ .synReceived := fun h => by rw [h] at hest; simp [haveEstablished, State.num] at hest
    rw [List.map_cons] at hf
    simp only [List.reverse_nil, List.nil_append, List.map_cons, tcpFlushQueue, hest, Bool.not_true,
      Bool.false_eq_true, if_false, hnxt, hnew, entry_thSeq, ne_eq, not_true_eq_false, hsyn,
      false_and]
    rw [← hnew, hf]

theorem reassInsert_pieces {tp : Tcpcb} (so : Socket) {th : Tcphdr} {ps : List Piece}
    {pos off len : Nat} (hest : haveEstablished tp.tState = true)
    (hnxt : tp.rcvNxt = Serial.nth irs pos) (hq : tp.tSegq = ps.map (entry irs stream))
    (hlaid : Laid (pos + 1) (pos + 2 ^ 30) ps) (hseq : th.thSeq = Serial.nth irs off)
    (hpos : pos ≤ off) (hlen : len < 2 ^ 16) (hend : off + len ≤ pos + 2 ^ 30) :
    Reassembled irs stream tp so pos (reassInsert tp so th (slice stream off len) len) := by
  obtain ⟨bs, as, hfind, hcat, hb, ha⟩ := segqFind_pieces irs stream off [] ps fun p hp => by
    have := hlaid.mem p hp
    exact ⟨by omega, by omega⟩
  rw [List.reverse_nil, List.nil_append] at hcat
  rw [← hcat] at hlaid
  unfold reassInsert
  rw [hseq, hq, ← List.map_nil (f := entry irs stream), hfind]
  cases bs with
  | nil =>
      refine reassPlace_pieces irs stream so th.thFlags hest hnxt ?_ hlaid (by omega) hlen hend
      by_cases h : off = pos
      · exact Or.inl ⟨h, rfl⟩
      · exact Or.inr (show pos + 1 ≤ off by omega)
  | cons p bs =>
      -- `p` begins at or before the segment, and may reach into it
      have hp : p.off ≤ off := by simpa using hb p (by simp)
      rw [List.reverse_cons, List.append_assoc] at hlaid
      obtain ⟨mid, hbs, hrest⟩ := laid_append.mp hlaid
      obtain ⟨h1, h2, h3⟩ : mid ≤ p.off ∧ p.len < 2 ^ 16
          ∧ Laid (p.off + p.len) (pos + 2 ^ 30) as := hrest
      have hbefore : ∀ {e : Nat}, p.off + p.len ≤ e → Laid (pos + 1) e (p :: bs).reverse := by
        intro e he
        rw [List.reverse_cons]
        exact laid_append.mpr ⟨mid, hbs, h1, h2, he⟩
      have hmid := hbs.le
      have hi : (Serial.nth irs ((p.off + p.len : Nat) : Int) - Serial.nth irs off).toInt
          = ((p.off + p.len : Nat) : Int) - off :=
        toInt_nth_sub irs ⟨by omega, by omega⟩
      have hsum : (p.off : Int) + (p.len : Int) = ((p.off + p.len : Nat) : Int) := by rfl
      simp only [List.map_cons, entry_thSeq, entry_thReseqlen, Serial.nth_add_ofNat]
      rw [hsum, hi, ← List.map_cons]
      split_ifs with hgt hall
      · refine ⟨pos, ps, le_rfl, by omega, ?_, ?_⟩
        · rw [← hcat, List.reverse_cons, List.append_assoc]
          exact hlaid
        · simp [slice, sbAppend_nil, ← hnxt, ← hq]
      · rw [Serial.nth_add, slice_drop]
        have hoff : (off : Int) + (((p.off + p.len : Nat) : Int) - off)
            = ((p.off + p.len : Nat) : Int) := by omega
        have hcut : off + (((p.off + p.len : Nat) : Int) - off).toNat = p.off + p.len := by omega
        rw [hoff, hcut]
        exact reassPlace_pieces irs stream so th.thFlags hest hnxt
          (Or.inr (hbefore le_rfl)) h3 (by omega) (by omega) (by omega)
      · exact reassPlace_pieces irs stream so th.thFlags hest hnxt
          (Or.inr (hbefore (by omega))) h3 (by omega) hlen hend

end Stream

/-! ## Runs -/

/-- A connection, and how far `rcv_nxt` has moved since it was established. -/
structure Conn where
  tp : Tcpcb
  so : Socket
  pos : Nat
deriving DecidableEq, Repr

inductive ReassAct where
  | segment (th : Tcphdr) (m : List UInt8)
  | socantrcvmore
deriving DecidableEq, Repr

def reassStep (s : Conn) : ReassAct → Option Conn
  | .segment th m =>
    let (_, tp, so) := tcpReass true s.tp s.so th m m.length
    some ⟨tp, so, s.pos + (tp.rcvNxt - s.tp.rcvNxt).toNat⟩
  | .socantrcvmore => some { s with so := { s.so with ssCantrcvmore := true } }

/-- A segment carries bytes of the stream from its position on, which is not
behind `rcv_nxt`, and ends within the window; an IP packet is shorter than
`2^16`. -/
def InWindow (irs : Seq) (stream : Nat → UInt8) (s : Conn) : ReassAct → Prop
  | .segment th m =>
    ∃ off : Nat, th.thSeq = Serial.nth irs off ∧ m = slice stream off m.length ∧ s.pos ≤ off
      ∧ off + m.length < s.pos + 2 ^ 30 ∧ m.length < 2 ^ 16
  | .socantrcvmore => True

section Runs

variable (irs : Seq) (stream : Nat → UInt8)

structure ReassInv (s : Conn) : Prop where
  established : haveEstablished s.tp.tState = true
  rcvNxt : s.tp.rcvNxt = Serial.nth irs s.pos
  segq : ∃ ps : List Piece, s.tp.tSegq = ps.map (entry irs stream)
    ∧ Laid (s.pos + 1) (s.pos + 2 ^ 30) ps
  delivered : ∃ n ≤ s.pos, s.so.soRcv = slice stream 0 n
    ∧ (s.so.ssCantrcvmore = false → n = s.pos)

theorem reassStep_inv {s s' : Conn} {a : ReassAct} (hg : InWindow irs stream s a)
    (h : reassStep s a = some s') (hi : ReassInv irs stream s) : ReassInv irs stream s' := by
  obtain ⟨hest, hnxt, ⟨ps, hq, hlaid⟩, n, hn, hdel, hlive⟩ := hi
  cases a with
  | socantrcvmore =>
      obtain rfl := Option.some.inj h
      exact ⟨hest, hnxt, ⟨ps, hq, hlaid⟩, n, hn, hdel, by simp⟩
  | segment th m =>
      obtain ⟨off, hseq, hm, hpos, hend, hlen⟩ := hg
      have hr : Reassembled irs stream s.tp s.so s.pos
          (reassInsert s.tp s.so th (slice stream off m.length) m.length) :=
        reassInsert_pieces irs stream s.so hest hnxt hq hlaid hseq hpos hlen (by omega)
      rw [← hm] at hr
      obtain ⟨pos', ps', h1, h2, h3, heq⟩ := hr
      rcases hres : reassInsert s.tp s.so th m m.length with ⟨fin, tp, so⟩
      rw [hres] at heq
      obtain ⟨rfl, rfl⟩ := Prod.mk.inj heq
      simp only [reassStep, tcpReass, if_true, hres, Option.some.injEq] at h
      -- the distance `rcv_nxt` moved is read off its 32 bits
      have hmove : (Serial.nth irs (pos' : Int) - Serial.nth irs (s.pos : Int)).toNat
          = pos' - s.pos := Serial.toNat_nth_sub irs h1 (by omega)
      rw [hnxt, hmove, show s.pos + (pos' - s.pos) = pos' by omega] at h
      subst h
      refine ⟨hest, rfl, ⟨ps', rfl, h3⟩, ?_⟩
      by_cases hc : s.so.ssCantrcvmore = true
      · exact ⟨n, Nat.le_trans hn h1, by simp [sbAppend, hc, hdel], by simp [sbAppend, hc]⟩
      · have hn' := hlive (by simpa using hc)
        subst hn'
        refine ⟨pos', le_rfl, ?_, fun _ => rfl⟩
        have hcat := slice_append stream 0 s.pos (pos' - s.pos)
        rw [Nat.zero_add, show s.pos + (pos' - s.pos) = pos' by omega] at hcat
        simp [sbAppend, hc, hdel, hcat]

/-- Any segments of a stream, in any order and with any overlaps, each within the
window when it arrives: the queue is sorted, its segments are disjoint and
begin after `rcv_nxt`; and while the socket takes data, it has been given
exactly the stream up to `rcv_nxt`. After `socantrcvmore` it is given nothing
more. -/
theorem reass_runs {s₀ s : Conn} (hest : haveEstablished s₀.tp.tState = true)
    (hseg : s₀.tp.tSegq = []) (hnxt : s₀.tp.rcvNxt = irs) (hpos : s₀.pos = 0)
    (hrcv : s₀.so.soRcv = []) (h : Runs reassStep (InWindow irs stream) s₀ s) :
    s.tp.rcvNxt = irs + BitVec.ofNat 32 s.pos
      ∧ (s.tp.tSegq.Pairwise fun p q => seqLeq p.thSeq q.thSeq = true
          ∧ seqLeq (p.thSeq + BitVec.ofNat 32 p.thReseqlen) q.thSeq = true)
      ∧ (∀ q ∈ s.tp.tSegq, seqGt q.thSeq s.tp.rcvNxt = true)
      ∧ (s.so.ssCantrcvmore = false → s.so.soRcv = slice stream 0 s.pos)
      ∧ ∃ n ≤ s.pos, s.so.soRcv = slice stream 0 n := by
  have hinit : ReassInv irs stream s₀ :=
    ⟨hest, by rw [hnxt, hpos]; simp, ⟨[], by simpa using hseg, by simp [Laid]⟩,
      0, by omega, by simp [hrcv, slice], fun _ => hpos.symm⟩
  obtain ⟨-, hnxt', ⟨ps, hq, hlaid⟩, n, hn, hdel, hlive⟩ :=
    h.invariant (fun _ _ _ hg hst hi => reassStep_inv irs stream hg hst hi) hinit
  have hmem := hlaid.mem
  refine ⟨?_, ?_, ?_, fun hc => ?_, n, hn, hdel⟩
  · rw [hnxt', Serial.nth, BitVec.ofInt_natCast]
  · rw [hq, List.pairwise_map]
    refine hlaid.pairwise.imp_of_mem fun {p q} hp hq' hpq => ?_
    have h1 := hmem p hp
    have h2 := hmem q hq'
    have hsum : (p.off : Int) + (p.len : Int) = ((p.off + p.len : Nat) : Int) := by rfl
    rw [entry_thSeq, entry_thSeq, entry_thReseqlen, Serial.nth_add_ofNat, hsum,
      seqLeq_nth irs ⟨by omega, by omega⟩, seqLeq_nth irs ⟨by omega, by omega⟩]
    simp only [decide_eq_true_eq]
    omega
  · intro q hq'
    rw [hq] at hq'
    obtain ⟨p, hp, rfl⟩ := List.mem_map.mp hq'
    have h1 := hmem p hp
    rw [hnxt', entry_thSeq, seqGt_nth irs ⟨by omega, by omega⟩]
    simp only [decide_eq_true_eq]
    omega
  · rw [hdel, hlive hc]

/-- `InWindow`, with the position read off the distance to `rcv_nxt`. -/
def inWindow (s : Conn) : ReassAct → Bool
  | .segment th m =>
    let off := s.pos + (th.thSeq - s.tp.rcvNxt).toNat
    decide (th.thSeq = Serial.nth irs off) && decide (m = slice stream off m.length)
      && decide (off + m.length < s.pos + 2 ^ 30) && decide (m.length < 2 ^ 16)
  | .socantrcvmore => true

theorem inWindow_sound (s : Conn) (a : ReassAct) (h : inWindow irs stream s a = true) :
    InWindow irs stream s a := by
  cases a with
  | segment th m =>
      simp only [inWindow, Bool.and_eq_true, decide_eq_true_eq] at h
      exact ⟨_, h.1.1.1, h.1.1.2, Nat.le_add_right _ _, h.1.2, h.2⟩
  | socantrcvmore => trivial

end Runs

/-! ## Concrete runs -/

/-- The stream of bytes 0, 1, 2, … -/
def counting (k : Nat) : UInt8 := UInt8.ofNat k

/-- A connection that wraps after three bytes. -/
def wrapping : Conn where
  tp := { tState := .established, rcvNxt := BitVec.ofNat 32 (2 ^ 32 - 3) }
  so := {}
  pos := 0

/-- Bytes `off` to `off + len` of `counting` on that connection. -/
def countingSegment (off len : Nat) : ReassAct :=
  .segment ⟨BitVec.ofNat 32 (2 ^ 32 - 3 + off), 0#32, { ack := true }, 0⟩ (slice counting off len)

/-- Out of order, overlapping and repeated; the last one fills the hole. -/
def reassActs : List ReassAct :=
  [countingSegment 8 4, countingSegment 2 3, countingSegment 2 3, countingSegment 4 6,
   countingSegment 20 2, countingSegment 0 3]

theorem reass_runs_wrapping :
    ∃ s : Conn, Runs reassStep (InWindow (BitVec.ofNat 32 (2 ^ 32 - 3)) counting) wrapping s
      ∧ s.pos = 12 ∧ s.tp.rcvNxt = 9#32 ∧ s.so.soRcv = slice counting 0 12 := by
  have hrun : Runs reassStep (InWindow (BitVec.ofNat 32 (2 ^ 32 - 3)) counting) wrapping
      { wrapping with
        tp := { wrapping.tp with
          rcvNxt := 9#32
          tSegq := [⟨17#32, 2, { ack := true }, slice counting 20 2⟩] }
        so := { soRcv := slice counting 0 12 }
        pos := 12 } :=
    Runs.of_exec (inWindow_sound _ counting) reassActs (by decide +kernel)
  have hest : haveEstablished wrapping.tp.tState = true := rfl
  exact ⟨_, hrun, rfl, rfl, (reass_runs _ counting hest rfl rfl rfl rfl hrun).2.2.2.1 rfl⟩

/-- A socket that cannot receive any more is given no bytes, although `rcv_nxt`
moves on. -/
theorem reass_runs_cantrcvmore :
    ∃ s : Conn, Runs reassStep (InWindow (BitVec.ofNat 32 (2 ^ 32 - 3)) counting) wrapping s
      ∧ s.tp.rcvNxt = wrapping.tp.rcvNxt + 5#32 ∧ s.so.soRcv ≠ slice counting 0 5 := by
  refine ⟨{ wrapping with
    tp := { wrapping.tp with rcvNxt := 2#32 }
    so := { ssCantrcvmore := true }
    pos := 5 }, ?_, by decide, by decide⟩
  exact Runs.of_exec (inWindow_sound _ counting) [.socantrcvmore, countingSegment 0 5]
    (by decide +kernel)

end Obsd.Tcp
