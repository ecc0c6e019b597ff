import Mathlib
import Obsd.TcpStages

/-!
# Header prediction and the general path

A segment that passes the test of header prediction is a pure
acknowledgment or data in sequence, and a few statements take care of it.
The general path would have taken care of it as well, and whoever reads
the shortcut takes it for one: `snd_una`, the windows, the buffers and
the timestamp should come out the same.

Either path may end with a call of `tcp_output`. The paths are compared
where they come to it: what is sent then is not up to them.
-/

namespace Obsd.Tcp

/-! ## The predicted path -/

/-- `sbdrop`; `none` is its panic, on a buffer with less than `len` bytes. -/
def sbdrop (sb : List UInt8) (len : Nat) : Option (List UInt8) :=
  if len ≤ sb.length then some (sb.drop len) else none

/-- The test: no control flags, in sequence, the window has not changed and nothing is
being retransmitted. -/
def predicts (seg : Segment) (tiwin : Nat) (c : Ctx) : Bool :=
  let fl := c.tiflags
  c.tp.tState = .established
    && !fl.syn && !fl.fin && !fl.rst && !fl.urg && !fl.ece && !fl.cwr && fl.ack
    && (!seg.opti.tsPresent || seqGeq seg.opti.tsVal c.tp.tsRecent)
    && decide (c.th.thSeq = c.tp.rcvNxt) && decide (tiwin ≠ 0) && decide (tiwin = c.tp.sndWnd)
    && decide (c.tp.sndNxt = c.tp.sndMax)

/-- A pure acknowledgment of outstanding data. -/
def pureAck (c : Ctx) : Bool :=
  decide (c.tlen = 0) && (seqGt c.th.thAck c.tp.sndUna && seqLeq c.th.thAck c.tp.sndMax
    && decide (c.tp.sndCwnd ≥ c.tp.sndWnd) && decide (c.tp.tDupacks = 0))

/-- Pure data, with nothing queued and space for it. -/
def pureData (c : Ctx) : Bool :=
  decide (c.tlen ≠ 0)
    && decide (c.th.thAck = c.tp.sndUna ∧ c.tp.tSegq = [] ∧ (c.tlen : Int) ≤ c.so.sbspaceRcv)

/-- The segments that do not go the general path. -/
def predicted (seg : Segment) (tiwin : Nat) (c : Ctx) : Bool :=
  predicts seg tiwin c && (pureAck c || pureData c)

/-- The timestamp is recorded. -/
def predictedStamp (k : Kern) (seg : Segment) (c : Ctx) : Tcpcb :=
  if seg.opti.tsPresent && seqLeq c.th.thSeq c.tp.lastAckSent then
    { c.tp with tsRecentAge := k.tcpNow, tsRecent := seg.opti.tsVal }
  else c.tp

def predictedAck (k : Kern) (seg : Segment) (c : Ctx) : Option (Tcpcb × Socket) :=
  let tp := predictedStamp k seg c
  (sbdrop c.so.soSnd (c.th.thAck - tp.sndUna).toNat).map fun sb =>
    ({ tp with
        sndUna := c.th.thAck
        sndLast := if seqGt c.th.thAck tp.sndLast then c.th.thAck else tp.sndLast
        rexmtArmed :=
          if c.th.thAck = tp.sndMax then false else if !tp.persistArmed then true else tp.rexmtArmed },
      { c.so with soSnd := sb })

def predictedData (k : Kern) (seg : Segment) (c : Ctx) : Tcpcb × Socket :=
  let tp := predictedStamp k seg c
  (tcpSetupAck k c.tiflags { tp with rcvNxt := tp.rcvNxt + BitVec.ofNat 32 c.tlen }, sbAppend c.so c.m)

/-- The predicted path up to `tcp_output`. -/
def predictedPath (k : Kern) (seg : Segment) (c : Ctx) : Option (Tcpcb × Socket) :=
  if c.tlen = 0 then predictedAck k seg c else some (predictedData k seg c)

/-- The general path up to `tcp_output`; `none` if there is no connection left. -/
def generalPath (k : Kern) (seg : Segment) (sbCc tiwin : Nat) (c : Ctx) : Option (Tcpcb × Socket) :=
  match longWay k seg sbCc tiwin c with
  | .ok c => some ((finStage (dodata k c)).tp, (finStage (dodata k c)).so)
  | .error (.drop tp so) => some (tp, so)
  | .error (.dropafterack tp so _) => some (tp, so)
  | .error (.done tp so) => some (tp, so)
  | .error .closed => none

/-! ## Header prediction -/

section Prediction

variable {k : Kern} {seg : Segment} {tiwin : Nat} {c : Ctx}

theorem predictedStamp_tp (k : Kern) (seg : Segment) (c : Ctx) :
    ∃ ts age, predictedStamp k seg c = { c.tp with tsRecent := ts, tsRecentAge := age } := by
  unfold predictedStamp
  split
  · exact ⟨_, _, rfl⟩
  · exact ⟨_, _, rfl⟩

/-- The shape of header prediction. -/
theorem headerPrediction_eq (k : Kern) (seg : Segment) (tiwin : Nat) (c : Ctx) :
    headerPrediction k seg tiwin c =
      if predicts seg tiwin c then
        let tp := predictedStamp k seg c
        if c.tlen = 0 then
          if seqGt c.th.thAck tp.sndUna && seqLeq c.th.thAck tp.sndMax
              && decide (tp.sndCwnd ≥ tp.sndWnd) && decide (tp.tDupacks = 0) then
            let so : Socket := { c.so with soSnd := c.so.soSnd.drop (c.th.thAck - tp.sndUna).toNat }
            let tp : Tcpcb := { tp with
              sndUna := c.th.thAck
              sndLast := if seqGt c.th.thAck tp.sndLast then c.th.thAck else tp.sndLast
              rexmtArmed := if c.th.thAck = tp.sndMax then false
                else if !tp.persistArmed then true else tp.rexmtArmed }
            .error (.done (if so.soSnd ≠ [] ∨ tp.tfNeedoutput = true then k.output.run tp else tp) so)
          else .ok { c with tp := tp }
        else if c.th.thAck = tp.sndUna ∧ tp.tSegq = [] ∧ (c.tlen : Int) ≤ c.so.sbspaceRcv then
          let (tp, so) := predictedData k seg c
          .error (.done (if tp.tfAcknow || tp.tfNeedoutput then k.output.run tp else tp) so)
        else .ok { c with tp := tp }
      else .ok c := rfl

/-- Where the buffer has what is acknowledged, header prediction ends with the
predicted path. -/
theorem headerPrediction_predicted (h : predicted seg tiwin c = true) {tp : Tcpcb} {so : Socket}
    (hpath : predictedPath k seg c = some (tp, so)) :
    ∃ tp', headerPrediction k seg tiwin c = .error (.done tp' so)
      ∧ (tp' = tp ∨ tp' = k.output.run tp) := by
  have hite : ∀ (p : Prop) [Decidable p] (tp : Tcpcb),
      (if p then k.output.run tp else tp) = tp
        ∨ (if p then k.output.run tp else tp) = k.output.run tp := by
    intro p _ tp
    split
    · exact Or.inr rfl
    · exact Or.inl rfl
  obtain ⟨ts, age, hstamp⟩ := predictedStamp_tp k seg c
  obtain ⟨htest, hpure⟩ := Bool.and_eq_true_iff.mp h
  rw [headerPrediction_eq, if_pos htest]
  unfold predictedPath at hpath
  by_cases hlen : c.tlen = 0
  · have hack : pureAck c = true := by simpa [pureData, hlen] using hpure
    rw [if_pos hlen] at hpath ⊢
    rw [pureAck, Bool.and_eq_true] at hack
    obtain ⟨sb, hsb, heq⟩ := Option.map_eq_some_iff.mp hpath
    have hdrop : c.so.soSnd.drop (c.th.thAck - (predictedStamp k seg c).sndUna).toNat = sb := by
      unfold sbdrop at hsb
      split at hsb
      · exact Option.some.inj hsb
      · cases hsb
    obtain ⟨rfl, rfl⟩ := Prod.mk.inj heq
    rw [if_pos (by rw [hstamp]; exact hack.2), hdrop]
    exact ⟨_, rfl, hite _ _⟩
  · have hdata : pureData c = true := by simpa [pureAck, hlen] using hpure
    rw [if_neg hlen] at hpath ⊢
    rw [pureData, Bool.and_eq_true, decide_eq_true_eq, decide_eq_true_eq] at hdata
    rw [if_pos (by rw [hstamp]; exact hdata.2), Option.some.inj hpath]
    exact ⟨_, rfl, hite _ _⟩

/-- Every other segment goes on. -/
theorem headerPrediction_not_predicted (h : predicted seg tiwin c = false) :
    ∃ tp, headerPrediction k seg tiwin c = .ok { c with tp := tp } := by
  obtain ⟨ts, age, hstamp⟩ := predictedStamp_tp k seg c
  rw [headerPrediction_eq]
  by_cases htest : predicts seg tiwin c = true
  · rw [predicted, htest, Bool.true_and, Bool.or_eq_false_iff] at h
    rw [if_pos htest]
    by_cases hlen : c.tlen = 0
    · have hack := h.1
      rw [pureAck, decide_eq_true hlen, Bool.true_and] at hack
      rw [if_pos hlen, if_neg (by rw [hstamp]; exact ne_true_of_eq_false hack)]
      exact ⟨_, rfl⟩
    · have hdata := h.2
      rw [pureData, decide_eq_true hlen, Bool.true_and, decide_eq_false_iff_not] at hdata
      rw [if_neg hlen, if_neg (by rw [hstamp]; exact hdata)]
      exact ⟨_, rfl⟩
  · rw [if_neg htest]
    exact ⟨_, rfl⟩

end Prediction

/-! ## The general path -/

/-- What C bounds by type: `snd_wnd` is a `u_long`, and `sbspace` is put into an
`int`. -/
structure InType (c : Ctx) : Prop where
  sndWnd : c.tp.sndWnd < 2 ^ 64
  sbspaceRcv : c.so.sbspaceRcv < 2 ^ 31

section General

variable {k : Kern} {seg : Segment} {sbCc tiwin : Nat} {c : Ctx}

/-- The test, one condition at a time. -/
theorem predicts_iff : predicts seg tiwin c = true ↔
    c.tp.tState = .established ∧ c.tiflags.syn = false ∧ c.tiflags.fin = false
      ∧ c.tiflags.rst = false ∧ c.tiflags.urg = false ∧ c.tiflags.ece = false ∧ c.tiflags.cwr = false
      ∧ c.tiflags.ack = true
      ∧ (seg.opti.tsPresent = true → seqGeq seg.opti.tsVal c.tp.tsRecent = true)
      ∧ c.th.thSeq = c.tp.rcvNxt ∧ tiwin ≠ 0 ∧ tiwin = c.tp.sndWnd ∧ c.tp.sndNxt = c.tp.sndMax := by
  have hts : (!seg.opti.tsPresent || seqGeq seg.opti.tsVal c.tp.tsRecent) = true
      ↔ (seg.opti.tsPresent = true → seqGeq seg.opti.tsVal c.tp.tsRecent = true) := by
    cases seg.opti.tsPresent <;> simp
  simp only [predicts, Bool.and_eq_true, decide_eq_true_eq, Bool.not_eq_true', hts, and_assoc]

/-- What fits into the buffer is within the window. -/
theorem tailDrop_predicted (hseq : c.th.thSeq = c.tp.rcvNxt) (hspace : c.so.sbspaceRcv < 2 ^ 31)
    (hlen : (c.tlen : Int) ≤ max 0 c.so.sbspaceRcv) :
    tailDrop { c with tp := { c.tp with rcvWnd := rcvWindow c.tp c.so } } ≤ 0 := by
  have hadv : (c.tp.rcvAdv - c.tp.rcvNxt).toInt < 2 ^ 31 := BitVec.toInt_lt
  have hle : c.tlen ≤ rcvWindow c.tp c.so := by
    unfold rcvWindow
    omega
  have hlt : rcvWindow c.tp c.so < 2 ^ 31 := by
    unfold rcvWindow
    omega
  have hnth : ∀ n : Nat, c.tp.rcvNxt + BitVec.ofNat 32 n = Serial.nth c.tp.rcvNxt n := by
    intro n
    have h := Serial.nth_add_ofNat c.tp.rcvNxt 0 n
    rwa [Serial.nth_zero, Int.zero_add] at h
  have hnear : Near (c.tlen : Int) (rcvWindow c.tp c.so : Int) := ⟨by omega, by omega⟩
  unfold tailDrop
  rw [hseq, hnth, hnth, toInt_nth_sub _ hnear]
  omega

theorem recordTimestamp_tp (k : Kern) (seg : Segment) (c : Ctx) :
    ∃ ts age, recordTimestamp k seg c
      = { c with tp := { c.tp with tsRecent := ts, tsRecentAge := age } } := by
  unfold recordTimestamp
  split
  · exact ⟨_, _, rfl⟩
  · exact ⟨_, _, rfl⟩

/-- An acknowledgment moves the send side; what it does to timer, flag and congestion
window does not matter here. -/
theorem takeAck_tp (thAck : Seq) (tp : Tcpcb) (so : Socket) :
    ∃ armed need cwnd, (takeAck thAck tp so).2.1 = { tp with
      rexmtArmed := armed
      tfNeedoutput := need
      sndCwnd := cwnd
      sndWnd := ulsub tp.sndWnd (min (thAck - tp.sndUna).toNat so.soSnd.length)
      sndUna := thAck
      sndLast := if seqGt thAck tp.sndLast then thAck else tp.sndLast
      sndNxt := if seqLt tp.sndNxt thAck then thAck else tp.sndNxt } := by
  have hcwnd : ∀ tp : Tcpcb, ∃ cwnd, openCwnd tp = { tp with sndCwnd := cwnd } := by
    intro tp
    unfold openCwnd
    split
    · exact ⟨_, rfl⟩
    · exact ⟨_, rfl⟩
  have hgone : (if decide ((thAck - tp.sndUna).toNat > so.soSnd.length) = true then so.soSnd.length
      else (thAck - tp.sndUna).toNat) = min (thAck - tp.sndUna).toNat so.soSnd.length := by
    simp only [decide_eq_true_eq]
    split <;> omega
  unfold takeAck
  dsimp only
  rw [hgone]
  generalize htp : ite (thAck = tp.sndMax) { tp with rexmtArmed := false, tfNeedoutput := true }
    (ite (!tp.persistArmed) { tp with rexmtArmed := true } tp) = tp'
  have htimer : ∃ armed need, tp' = { tp with rexmtArmed := armed, tfNeedoutput := need } := by
    rw [← htp]
    split_ifs
    · exact ⟨_, _, rfl⟩
    · exact ⟨_, _, rfl⟩
    · exact ⟨_, _, rfl⟩
  obtain ⟨armed, need, htimer⟩ := htimer
  obtain ⟨cwnd, hc⟩ := hcwnd tp'
  rw [hc, htimer]
  exact ⟨armed, need, cwnd, rfl⟩

/-- What is acknowledged goes off the buffer, up to all of it. -/
theorem takeAck_so (thAck : Seq) (tp : Tcpcb) (so : Socket) :
    (takeAck thAck tp so).2.2 = { so with soSnd := so.soSnd.drop (thAck - tp.sndUna).toNat } := by
  unfold takeAck
  simp only [decide_eq_true_eq]
  split_ifs with hall
  · rw [List.drop_length, List.drop_of_length_le (Nat.le_of_lt hall)]
  · rfl

/-- Nothing before the acknowledgment stops a segment of header prediction, or takes
anything off it. -/
theorem longWay_predicts (h : predicts seg tiwin c = true) (hspace : c.so.sbspaceRcv < 2 ^ 31)
    (hlen : (c.tlen : Int) ≤ max 0 c.so.sbspaceRcv) :
    longWay k seg sbCc tiwin c = do
      let c ← ackStage k tiwin
        (recordTimestamp k seg { c with tp := { c.tp with rcvWnd := rcvWindow c.tp c.so } })
      return urgentStage k sbCc (windowUpdate tiwin c) := by
  obtain ⟨hest, hsyn, hfin, hrst, hurg, hece, hcwr, hack, hts, hseq, hwin, hwnd, hnxt⟩ :=
    predicts_iff.mp h
  have htail := tailDrop_predicted hseq hspace hlen
  obtain ⟨c₁, hc₁⟩ : ∃ c₁ : Ctx, c₁ = { c with tp := { c.tp with rcvWnd := rcvWindow c.tp c.so } } :=
    ⟨_, rfl⟩
  have hreuse : timeWaitReuse seg c₁ = .ok c₁ := by
    rw [timeWaitReuse, if_neg]
    rintro ⟨hw, -⟩
    rw [hc₁] at hw
    rw [hest] at hw
    cases hw
  have hpaws : pawsCheck k seg c₁ = .ok c₁ := by
    rw [pawsCheck, if_neg]
    simp only [Bool.and_eq_true, not_and]
    rintro ⟨⟨hp, -⟩, -⟩
    have hgeq := hts hp
    rw [hc₁]
    simp only [seqGeq, seqLt, decide_eq_true_eq] at hgeq ⊢
    omega
  have htrim : trimHead c₁ = c₁ := by
    rw [trimHead, if_neg]
    rw [hc₁]
    rw [hseq, BitVec.sub_self, BitVec.toInt_zero]
    omega
  have hclose : afterClose c₁ = .ok c₁ := by
    rw [afterClose, if_neg]
    rw [hc₁]
    simp [hest, State.num]
  have htailok : trimTail c₁ = .ok c₁ := by
    rw [trimTail, if_neg]
    rw [hc₁]
    omega
  obtain ⟨ts, age, hstamp⟩ := recordTimestamp_tp k seg c₁
  have hflags : (recordTimestamp k seg c₁).tiflags = c.tiflags := by
    rw [hstamp, hc₁]
  have hrstok : rstCheck (recordTimestamp k seg c₁) = .ok (recordTimestamp k seg c₁) := by
    rw [rstCheck, hflags, hrst]
    rfl
  have hsynok : synAckCheck k (recordTimestamp k seg c₁) = .ok (recordTimestamp k seg c₁) := by
    rw [synAckCheck, hflags, hsyn, hack]
    rfl
  unfold longWay
  rw [← hc₁, hreuse]
  change (do
    let c ← pawsCheck k seg c₁
    _) = _
  rw [hpaws]
  change (do
    let c ← afterClose (trimHead c₁)
    _) = _
  rw [htrim, hclose]
  change (do
    let c ← trimTail c₁
    _) = _
  rw [htailok]
  change (do
    let c ← rstCheck (recordTimestamp k seg c₁)
    _) = _
  rw [hrstok]
  change (do
    let c ← synAckCheck k (recordTimestamp k seg c₁)
    _) = _
  rw [hsynok]
  rfl

/-- No ECN in the header, nothing for ECN to do. -/
theorem ecnStage_plain (hece : c.tiflags.ece = false) (hcwr : c.tiflags.cwr = false) :
    ecnStage k c = c := by
  simp [ecnStage, hece, hcwr]

theorem ackStage_data (k : Kern) (tiwin : Nat) (hece : c.tiflags.ece = false) (hcwr : c.tiflags.cwr = false)
    (hack : c.th.thAck = c.tp.sndUna) (hseq : c.th.thSeq = c.tp.rcvNxt) (hlen : c.tlen ≠ 0) :
    ackStage k tiwin c = .ok c := by
  have hleq : seqLeq c.th.thAck c.tp.sndUna = true := by simp [seqLeq, hack]
  have hold : ¬ (c.th.thSeq ≠ c.tp.rcvNxt
      ∧ seqLt c.th.thAck (c.tp.sndUna - BitVec.ofNat 32 c.tp.maxSndwnd) = true) :=
    fun h => h.1 hseq
  unfold ackStage
  rw [ecnStage_plain hece hcwr, if_pos hleq, dupAck, if_pos hlen, if_neg hold]

theorem ackStage_new (k : Kern) (tiwin : Nat) (hece : c.tiflags.ece = false) (hcwr : c.tiflags.cwr = false)
    (hest : c.tp.tState = .established) (hdup : c.tp.tDupacks = 0)
    (hgt : seqGt c.th.thAck c.tp.sndUna = true) (hleq : seqLeq c.th.thAck c.tp.sndMax = true) :
    ackStage k tiwin c = .ok { c with
      tp := (takeAck c.th.thAck c.tp c.so).2.1
      so := (takeAck c.th.thAck c.tp c.so).2.2 } := by
  have hnot : ¬ seqLeq c.th.thAck c.tp.sndUna = true := by
    simp only [seqGt, seqLeq, decide_eq_true_eq] at hgt ⊢
    omega
  have hmax : ¬ seqGt c.th.thAck c.tp.sndMax = true := by
    simp only [seqGt, seqLeq, decide_eq_true_eq] at hleq ⊢
    omega
  have hrec : recoveryStage k c.th.thAck c.tp = c.tp := by
    have hlt : c.tp.tDupacks < tcprexmtthresh := by
      rw [hdup]
      decide
    unfold recoveryStage
    rw [if_neg (Nat.not_le.mpr hlt), if_pos hlt, ← hdup]
  have hstate : (takeAck c.th.thAck c.tp c.so).2.1.tState = .established := by
    obtain ⟨_, _, _, htp⟩ := takeAck_tp c.th.thAck c.tp c.so
    rw [htp]
    exact hest
  unfold ackStage
  dsimp only
  rw [ecnStage_plain hece hcwr, if_neg hnot, hrec, if_neg hmax, finAcked, hstate]

/-- What the general path makes of `ts_recent`. -/
theorem recordTimestamp_tsRecent (h : predicts seg tiwin c = true) (wnd : Nat) :
    (recordTimestamp k seg { c with tp := { c.tp with rcvWnd := wnd } }).tp.tsRecent =
      if seg.opti.tsPresent && seqLeq c.th.thSeq c.tp.lastAckSent then
        if seqLeq c.tp.lastAckSent (c.th.thSeq + BitVec.ofNat 32 c.tlen) then seg.opti.tsVal else 0#32
      else c.tp.tsRecent := by
  obtain ⟨-, hsyn, hfin, -, -, -, -, -, hts, -⟩ := predicts_iff.mp h
  unfold recordTimestamp
  rw [hsyn, hfin]
  cases hp : seg.opti.tsPresent with
  | false => rfl
  | true =>
      rw [hts hp]
      cases seqLeq c.th.thSeq c.tp.lastAckSent with
      | false => rfl
      | true => simp

end General

/-! ## What the paths leave -/

/-- The part of a connection that the paths are to agree on. -/
structure Outcome where
  sndUna : Seq
  sndNxt : Seq
  sndMax : Seq
  sndWnd : Nat
  rcvNxt : Seq
  tsRecent : BitVec 32
  tState : State
  soSnd : List UInt8
  soRcv : List UInt8
deriving DecidableEq, Repr

def outcome (p : Tcpcb × Socket) : Outcome :=
  ⟨p.1.sndUna, p.1.sndNxt, p.1.sndMax, p.1.sndWnd, p.1.rcvNxt, p.1.tsRecent, p.1.tState,
    p.2.soSnd, p.2.soRcv⟩

section Left

variable {k : Kern} {seg : Segment} {sbCc tiwin : Nat} {c : Ctx}

theorem tcpSetupAck_tp (k : Kern) (tiflags : ThFlags) (tp : Tcpcb) :
    ∃ now del, tcpSetupAck k tiflags tp = { tp with tfAcknow := now, tfDelack := del } := by
  unfold tcpSetupAck
  split
  · exact ⟨_, _, rfl⟩
  · exact ⟨_, _, rfl⟩

theorem predictedStamp_tsRecent (k : Kern) (seg : Segment) (c : Ctx) :
    (predictedStamp k seg c).tsRecent
      = if seg.opti.tsPresent && seqLeq c.th.thSeq c.tp.lastAckSent then seg.opti.tsVal
        else c.tp.tsRecent := by
  unfold predictedStamp
  split <;> rfl

theorem outcome_predictedAck (k : Kern) (seg : Segment) (c : Ctx) :
    (predictedAck k seg c).map outcome
      = (sbdrop c.so.soSnd (c.th.thAck - c.tp.sndUna).toNat).map fun sb =>
        ⟨c.th.thAck, c.tp.sndNxt, c.tp.sndMax, c.tp.sndWnd, c.tp.rcvNxt,
          (predictedStamp k seg c).tsRecent, c.tp.tState, sb, c.so.soRcv⟩ := by
  obtain ⟨ts, age, hstamp⟩ := predictedStamp_tp k seg c
  rw [predictedAck, Option.map_map, hstamp]
  rfl

theorem outcome_predictedData (k : Kern) (seg : Segment) (c : Ctx) :
    outcome (predictedData k seg c)
      = ⟨c.tp.sndUna, c.tp.sndNxt, c.tp.sndMax, c.tp.sndWnd, c.tp.rcvNxt + BitVec.ofNat 32 c.tlen,
          (predictedStamp k seg c).tsRecent, c.tp.tState, c.so.soSnd, (sbAppend c.so c.m).soRcv⟩ := by
  obtain ⟨ts, age, hstamp⟩ := predictedStamp_tp k seg c
  have hsnd : (sbAppend c.so c.m).soSnd = c.so.soSnd := by
    unfold sbAppend
    split <;> rfl
  obtain ⟨now, del, hsetup⟩ := tcpSetupAck_tp k c.tiflags
    { predictedStamp k seg c with rcvNxt := (predictedStamp k seg c).rcvNxt + BitVec.ofNat 32 c.tlen }
  unfold predictedData outcome
  dsimp only
  rw [hsetup, hsnd, hstamp]

/-- Whether `step6` takes over the window. -/
def updatesWindow (tiwin : Nat) (c : Ctx) : Bool :=
  c.tiflags.ack && (seqLt c.tp.sndWl1 c.th.thSeq || (decide (c.tp.sndWl1 = c.th.thSeq)
    && (seqLt c.tp.sndWl2 c.th.thAck || (decide (c.tp.sndWl2 = c.th.thAck)
      && decide (tiwin > c.tp.sndWnd)))))

theorem windowUpdate_tp (tiwin : Nat) (c : Ctx) :
    ∃ wl1 wl2 mx need, windowUpdate tiwin c = { c with tp := { c.tp with
      sndWnd := if updatesWindow tiwin c then tiwin else c.tp.sndWnd
      sndWl1 := wl1
      sndWl2 := wl2
      maxSndwnd := mx
      tfNeedoutput := need } } := by
  change ∃ wl1 wl2 mx need, (if updatesWindow tiwin c = true then _ else c) = _
  cases updatesWindow tiwin c with
  | true => exact ⟨_, _, _, _, rfl⟩
  | false => exact ⟨c.tp.sndWl1, c.tp.sndWl2, c.tp.maxSndwnd, c.tp.tfNeedoutput, rfl⟩

theorem urgentStage_plain (k : Kern) (sbCc : Nat) (hurg : c.tiflags.urg = false) :
    ∃ up, urgentStage k sbCc c = { c with tp := { c.tp with rcvUp := up } } := by
  unfold urgentStage
  rw [hurg, Bool.false_and, Bool.false_and, if_neg Bool.false_ne_true]
  split
  · exact ⟨_, rfl⟩
  · exact ⟨c.tp.rcvUp, rfl⟩

/-- The general path from the acknowledgment on, without text and FIN. -/
theorem finish_ack (hurg : c.tiflags.urg = false) (hfin : c.tiflags.fin = false) (hlen : c.tlen = 0) :
    let c' := finStage (dodata k (urgentStage k sbCc (windowUpdate tiwin c)))
    outcome (c'.tp, c'.so) = { outcome (c.tp, c.so) with
      sndWnd := if updatesWindow tiwin c then tiwin else c.tp.sndWnd } := by
  obtain ⟨wl1, wl2, mx, need, hwin⟩ := windowUpdate_tp tiwin c
  have hurg' : (windowUpdate tiwin c).tiflags.urg = false := by
    rw [hwin]
    exact hurg
  obtain ⟨up, hup⟩ := urgentStage_plain k sbCc hurg'
  intro c'
  have hc' : c' = finStage (dodata k (urgentStage k sbCc (windowUpdate tiwin c))) := rfl
  rw [hup, hwin] at hc'
  have hnone : ¬ ((c.tlen ≠ 0 ∨ c.tiflags.fin = true) ∧ haveRcvdFin c.tp.tState = false) := by
    rw [hlen, hfin]
    simp
  rw [dodata, if_neg hnone, finStage, if_neg (by simp)] at hc'
  rw [hc']
  rfl

/-- And with text in sequence. -/
theorem finish_data (hurg : c.tiflags.urg = false) (hfin : c.th.thFlags.fin = false)
    (hlen : c.tlen ≠ 0) (hest : c.tp.tState = .established) (hseq : c.th.thSeq = c.tp.rcvNxt)
    (hq : c.tp.tSegq = []) :
    let c' := finStage (dodata k (urgentStage k sbCc (windowUpdate tiwin c)))
    outcome (c'.tp, c'.so) = { outcome (c.tp, sbAppend c.so (c.m.drop c.hdrop)) with
      sndWnd := if updatesWindow tiwin c then tiwin else c.tp.sndWnd
      rcvNxt := c.tp.rcvNxt + BitVec.ofNat 32 c.tlen } := by
  obtain ⟨wl1, wl2, mx, need, hwin⟩ := windowUpdate_tp tiwin c
  have hurg' : (windowUpdate tiwin c).tiflags.urg = false := by
    rw [hwin]
    exact hurg
  obtain ⟨up, hup⟩ := urgentStage_plain k sbCc hurg'
  intro c'
  have hc' : c' = finStage (dodata k (urgentStage k sbCc (windowUpdate tiwin c))) := rfl
  rw [hup, hwin] at hc'
  have htext : (c.tlen ≠ 0 ∨ c.tiflags.fin = true) ∧ haveRcvdFin c.tp.tState = false := by
    rw [hest]
    exact ⟨Or.inl hlen, rfl⟩
  have hinseq : c.th.thSeq = c.tp.rcvNxt ∧ c.tp.tSegq = [] ∧ c.tp.tState = .established :=
    ⟨hseq, hq, hest⟩
  rw [dodata, if_pos htext, if_pos hinseq, finStage, if_neg (by simp [hfin])] at hc'
  obtain ⟨now, del, hsetup⟩ := tcpSetupAck_tp k c.tiflags { c.tp with
    sndWnd := if updatesWindow tiwin c then tiwin else c.tp.sndWnd
    sndWl1 := wl1
    sndWl2 := wl2
    maxSndwnd := mx
    tfNeedoutput := need
    rcvUp := up }
  rw [hc', hsetup]
  rfl

/-- From the acknowledgment on. -/
theorem generalPath_of_ack (h : predicts seg tiwin c = true) (hspace : c.so.sbspaceRcv < 2 ^ 31)
    (hlen : (c.tlen : Int) ≤ max 0 c.so.sbspaceRcv) {c₁ c₂ : Ctx}
    (hc₁ : c₁ = recordTimestamp k seg { c with tp := { c.tp with rcvWnd := rcvWindow c.tp c.so } })
    (hack : ackStage k tiwin c₁ = .ok c₂) :
    (generalPath k seg sbCc tiwin c).map outcome
      = some (outcome ((finStage (dodata k (urgentStage k sbCc (windowUpdate tiwin c₂)))).tp,
          (finStage (dodata k (urgentStage k sbCc (windowUpdate tiwin c₂)))).so)) := by
  rw [generalPath, longWay_predicts h hspace hlen, ← hc₁, hack]
  rfl

/-- What the general path leaves of a pure acknowledgment. -/
theorem outcome_general_ack (k : Kern) (sbCc : Nat) (h : predicts seg tiwin c = true) (hpure : pureAck c = true)
    (hspace : c.so.sbspaceRcv < 2 ^ 31) :
    let acked := (c.th.thAck - c.tp.sndUna).toNat
    let wnd := ulsub c.tp.sndWnd (min acked c.so.soSnd.length)
    (generalPath k seg sbCc tiwin c).map outcome = some
      ⟨c.th.thAck, if seqLt c.tp.sndNxt c.th.thAck then c.th.thAck else c.tp.sndNxt, c.tp.sndMax,
        if updatesWindow tiwin { c with tp := { c.tp with sndWnd := wnd } } then tiwin else wnd,
        c.tp.rcvNxt,
        (recordTimestamp k seg { c with tp := { c.tp with rcvWnd := rcvWindow c.tp c.so } }).tp.tsRecent,
        c.tp.tState, c.so.soSnd.drop acked, c.so.soRcv⟩ := by
  obtain ⟨hest, -, hfin, -, hurg, hece, hcwr, -⟩ := predicts_iff.mp h
  simp only [pureAck, Bool.and_eq_true, decide_eq_true_eq] at hpure
  obtain ⟨hlen, ⟨⟨hgt, hleq⟩, -⟩, hdup⟩ := hpure
  obtain ⟨ts, age, hstamp⟩ := recordTimestamp_tp k seg
    { c with tp := { c.tp with rcvWnd := rcvWindow c.tp c.so } }
  obtain ⟨c₁, hc₁⟩ : ∃ c₁, c₁
      = recordTimestamp k seg { c with tp := { c.tp with rcvWnd := rcvWindow c.tp c.so } } := ⟨_, rfl⟩
  have heq := hc₁.trans hstamp
  have hok := ackStage_new k tiwin (c := c₁) (by rw [heq]; exact hece)
    (by rw [heq]; exact hcwr) (by rw [heq]; exact hest) (by rw [heq]; exact hdup)
    (by rw [heq]; exact hgt) (by rw [heq]; exact hleq)
  obtain ⟨armed, need, cwnd, htp⟩ := takeAck_tp c₁.th.thAck c₁.tp c₁.so
  have hso := takeAck_so c₁.th.thAck c₁.tp c₁.so
  intro acked wnd
  rw [generalPath_of_ack h hspace (by omega) hc₁ hok,
    finish_ack (by rw [heq]; exact hurg) (by rw [heq]; exact hfin) (by rw [heq]; exact hlen),
    htp, hso, ← hc₁, heq]
  rfl

/-- And of data in sequence. -/
theorem outcome_general_data (k : Kern) (sbCc : Nat) (h : predicts seg tiwin c = true) (hpure : pureData c = true)
    (hspace : c.so.sbspaceRcv < 2 ^ 31) (hflags : c.th.thFlags.fin = c.tiflags.fin)
    (hdrop : c.hdrop = 0) :
    (generalPath k seg sbCc tiwin c).map outcome = some
      ⟨c.tp.sndUna, c.tp.sndNxt, c.tp.sndMax, c.tp.sndWnd, c.tp.rcvNxt + BitVec.ofNat 32 c.tlen,
        (recordTimestamp k seg { c with tp := { c.tp with rcvWnd := rcvWindow c.tp c.so } }).tp.tsRecent,
        c.tp.tState, c.so.soSnd, (sbAppend c.so c.m).soRcv⟩ := by
  obtain ⟨hest, -, hfin, -, hurg, hece, hcwr, -, -, hseq, -, hwnd, -⟩ := predicts_iff.mp h
  simp only [pureData, Bool.and_eq_true, decide_eq_true_eq] at hpure
  obtain ⟨hlen, hack, hq, hfits⟩ := hpure
  obtain ⟨ts, age, hstamp⟩ := recordTimestamp_tp k seg
    { c with tp := { c.tp with rcvWnd := rcvWindow c.tp c.so } }
  obtain ⟨c₁, hc₁⟩ : ∃ c₁, c₁
      = recordTimestamp k seg { c with tp := { c.tp with rcvWnd := rcvWindow c.tp c.so } } := ⟨_, rfl⟩
  have heq := hc₁.trans hstamp
  have hok := ackStage_data k tiwin (c := c₁) (by rw [heq]; exact hece)
    (by rw [heq]; exact hcwr) (by rw [heq]; exact hack) (by rw [heq]; exact hseq)
    (by rw [heq]; exact hlen)
  have hsnd : (sbAppend c.so c.m).soSnd = c.so.soSnd := by
    unfold sbAppend
    split <;> rfl
  have hwin : (if updatesWindow tiwin c₁ then tiwin else c₁.tp.sndWnd) = c.tp.sndWnd := by
    rw [heq]
    split
    · exact hwnd
    · rfl
  rw [generalPath_of_ack h hspace (by omega) hc₁ hok,
    finish_data (by rw [heq]; exact hurg) (by rw [heq]; exact hflags.trans hfin)
      (by rw [heq]; exact hlen) (by rw [heq]; exact hest) (by rw [heq]; exact hseq)
      (by rw [heq]; exact hq), hwin, ← hc₁, heq]
  simp only [outcome, hdrop, List.drop_zero, hsnd]

end Left

/-! ## Where they drift apart -/

/-- Nothing about a segment of header prediction sets the paths apart. -/
structure NoDrift (seg : Segment) (c : Ctx) : Prop where
  /-- A timestamp is recorded only if the last number acknowledged is within the segment. -/
  stamp : seg.opti.tsPresent = true → seqLeq c.th.thSeq c.tp.lastAckSent = true →
    seg.opti.tsVal = 0#32
      ∨ seqLeq c.tp.lastAckSent (c.th.thSeq + BitVec.ofNat 32 c.tlen) = true
  /-- The send buffer has what is acknowledged. -/
  buffer : c.tlen = 0 → (c.th.thAck - c.tp.sndUna).toNat ≤ c.so.soSnd.length
  /-- The acknowledgment and `snd_max` are not opposite in the sequence space. -/
  opposite : c.tlen = 0 → c.tp.sndMax - c.th.thAck ≠ 0x80000000#32
  /-- The segment is newer than the last window update. -/
  window : c.tlen = 0 → seqLt c.tp.sndWl1 c.th.thSeq = true
    ∨ (c.tp.sndWl1 = c.th.thSeq ∧ (seqLt c.tp.sndWl2 c.th.thAck = true
      ∨ (c.tp.sndWl2 = c.th.thAck ∧ (c.th.thAck - c.tp.sndUna).toNat ≤ c.tp.sndWnd)))

section Drift

variable {k : Kern} {seg : Segment} {sbCc tiwin : Nat} {c : Ctx}

theorem stamp_agrees (h : predicts seg tiwin c = true) (wnd : Nat) :
    (predictedStamp k seg c).tsRecent
        = (recordTimestamp k seg { c with tp := { c.tp with rcvWnd := wnd } }).tp.tsRecent
      ↔ (seg.opti.tsPresent = true → seqLeq c.th.thSeq c.tp.lastAckSent = true →
          seg.opti.tsVal = 0#32
            ∨ seqLeq c.tp.lastAckSent (c.th.thSeq + BitVec.ofNat 32 c.tlen) = true) := by
  rw [recordTimestamp_tsRecent h, predictedStamp_tsRecent]
  cases seg.opti.tsPresent with
  | false => simp
  | true =>
      cases seqLeq c.th.thSeq c.tp.lastAckSent with
      | false => simp
      | true =>
          cases seqLeq c.tp.lastAckSent (c.th.thSeq + BitVec.ofNat 32 c.tlen) <;> simp

theorem seqLt_of_leq {a m : Seq} (h : seqLeq a m = true) :
    seqLt m a = true ↔ m - a = 0x80000000#32 := by
  simp only [seqLeq, seqLt, decide_eq_true_eq] at *
  rw [BitVec.toInt_eq_toNat_cond] at *
  constructor
  · intro h1
    split at h <;> split at h1 <;> bv_omega
  · intro h1
    split at h <;> split <;> bv_omega

/-- `snd_nxt` is moved up to an acknowledgment that it only seems to be behind. -/
theorem next_agrees {thAck sndMax : Seq} (h : seqLeq thAck sndMax = true) :
    (if seqLt sndMax thAck then thAck else sndMax) = sndMax ↔ sndMax - thAck ≠ 0x80000000#32 := by
  rw [Ne, ← seqLt_of_leq h]
  cases hlt : seqLt sndMax thAck with
  | false => simp
  | true =>
      simp only [if_true, not_true_eq_false, iff_false]
      intro heq
      rw [heq] at hlt
      simp [seqLt] at hlt

/-- `step6` gives back what the acknowledgment took off the window. -/
theorem window_agrees (hack : c.tiflags.ack = true) (hwin : tiwin = c.tp.sndWnd)
    (hfits : c.tp.sndWnd < 2 ^ 64) {acked : Nat} (hpos : 0 < acked) (hlt : acked < 2 ^ 64) :
    (if updatesWindow tiwin { c with tp := { c.tp with sndWnd := ulsub c.tp.sndWnd acked } } then tiwin
        else ulsub c.tp.sndWnd acked) = c.tp.sndWnd
      ↔ seqLt c.tp.sndWl1 c.th.thSeq = true
        ∨ (c.tp.sndWl1 = c.th.thSeq ∧ (seqLt c.tp.sndWl2 c.th.thAck = true
          ∨ (c.tp.sndWl2 = c.th.thAck ∧ acked ≤ c.tp.sndWnd))) := by
  have hne : ulsub c.tp.sndWnd acked ≠ c.tp.sndWnd := by
    unfold ulsub
    omega
  have hgt : tiwin > ulsub c.tp.sndWnd acked ↔ acked ≤ c.tp.sndWnd := by
    unfold ulsub
    omega
  have hupd : updatesWindow tiwin { c with tp := { c.tp with sndWnd := ulsub c.tp.sndWnd acked } } = true
      ↔ seqLt c.tp.sndWl1 c.th.thSeq = true
        ∨ (c.tp.sndWl1 = c.th.thSeq ∧ (seqLt c.tp.sndWl2 c.th.thAck = true
          ∨ (c.tp.sndWl2 = c.th.thAck ∧ acked ≤ c.tp.sndWnd))) := by
    simp only [updatesWindow, hack, Bool.true_and, Bool.or_eq_true, Bool.and_eq_true,
      decide_eq_true_eq, hgt]
  rw [← hupd]
  split
  · next hyes => exact ⟨fun _ => hyes, fun _ => hwin⟩
  · next hno => exact ⟨fun h => absurd h hne, fun h => absurd h hno⟩

theorem paths_agree_ack (h : predicts seg tiwin c = true) (hpure : pureAck c = true)
    (hfits : InType c) :
    (predictedPath k seg c).map outcome = (generalPath k seg sbCc tiwin c).map outcome
      ↔ NoDrift seg c := by
  obtain ⟨-, -, -, -, -, -, -, hack, -, -, -, hwin, hnxt⟩ := predicts_iff.mp h
  have hgeneral := outcome_general_ack k sbCc h hpure hfits.sbspaceRcv
  simp only [pureAck, Bool.and_eq_true, decide_eq_true_eq] at hpure
  obtain ⟨hlen, ⟨⟨hgt, hleq⟩, -⟩, -⟩ := hpure
  rw [predictedPath, if_pos hlen, outcome_predictedAck, hgeneral, sbdrop]
  by_cases hbuf : (c.th.thAck - c.tp.sndUna).toNat ≤ c.so.soSnd.length
  · have hpos : 0 < (c.th.thAck - c.tp.sndUna).toNat := by
      rw [Nat.pos_iff_ne_zero]
      intro hzero
      simp [seqGt, BitVec.toInt_eq_toNat_cond, hzero] at hgt
    have hlt : (c.th.thAck - c.tp.sndUna).toNat < 2 ^ 64 := by
      have := (c.th.thAck - c.tp.sndUna).isLt
      omega
    have hwindow := window_agrees hack hwin hfits.sndWnd hpos hlt
    have hnext := next_agrees hleq
    have hstamp := stamp_agrees (k := k) h (rcvWindow c.tp c.so)
    rw [if_pos hbuf, Nat.min_eq_left hbuf, hnxt]
    simp only [Option.map_some, Option.some.injEq, Outcome.mk.injEq, true_and, and_true]
    rw [hstamp, eq_comm, hnext, @eq_comm _ c.tp.sndWnd, hwindow]
    refine ⟨fun h => ⟨h.2.2, fun _ => hbuf, fun _ => h.1, fun _ => h.2.1⟩, fun h => ?_⟩
    exact ⟨h.opposite hlen, h.window hlen, h.stamp⟩
  · rw [if_neg hbuf]
    refine ⟨fun h => ?_, fun h => absurd (h.buffer hlen) hbuf⟩
    cases h

theorem paths_agree_data (h : predicts seg tiwin c = true) (hpure : pureData c = true)
    (hfits : InType c) (hflags : c.th.thFlags.fin = c.tiflags.fin) (hdrop : c.hdrop = 0) :
    (predictedPath k seg c).map outcome = (generalPath k seg sbCc tiwin c).map outcome
      ↔ NoDrift seg c := by
  have hgeneral := outcome_general_data k sbCc h hpure hfits.sbspaceRcv hflags hdrop
  simp only [pureData, Bool.and_eq_true, decide_eq_true_eq] at hpure
  have hlen := hpure.1
  have hstamp := stamp_agrees (k := k) h (rcvWindow c.tp c.so)
  rw [predictedPath, if_neg hlen, Option.map_some, outcome_predictedData, hgeneral]
  simp only [Option.some.injEq, Outcome.mk.injEq, true_and, and_true]
  rw [hstamp]
  refine ⟨fun h => ⟨h, fun h0 => absurd h0 hlen, fun h0 => absurd h0 hlen, fun h0 => absurd h0 hlen⟩,
    fun h => h.stamp⟩

end Drift

/-- On the segments of header prediction the predicted path leaves what the general
path would have left, exactly if nothing sets them apart. -/
theorem prediction_agrees (k : Kern) (seg : Segment) (sbCc : Nat) (tp : Tcpcb) (so : Socket)
    (hfits : InType (received k seg tp so))
    (h : predicted seg (tiwinOf seg tp) (received k seg tp so) = true) :
    (predictedPath k seg (received k seg tp so)).map outcome
        = (generalPath k seg sbCc (tiwinOf seg tp) (received k seg tp so)).map outcome
      ↔ NoDrift seg (received k seg tp so) := by
  obtain ⟨htest, hpure⟩ := Bool.and_eq_true_iff.mp h
  rcases Bool.or_eq_true_iff.mp hpure with hack | hdata
  · exact paths_agree_ack htest hack hfits
  · exact paths_agree_data htest hdata hfits rfl rfl

/-! ## Two segments -/

/-- `tcp_output` with nothing to send. -/
def idle : Output where
  run tp := tp
  tState _ := rfl
  tSegq _ := rfl
  rcvNxt _ := rfl

/-- An established connection with four bytes in flight. The last window update came
with the segment `wl1`. -/
def exchanging (wl1 : Seq) : Tcpcb where
  tState := .established
  tMaxseg := 1460
  sndUna := 5000#32
  sndNxt := 5004#32
  sndMax := 5004#32
  sndWl1 := wl1
  sndWl2 := 5000#32
  sndWnd := 16384
  maxSndwnd := 16384
  sndCwnd := 65535
  rcvNxt := 0x80000400#32
  rcvAdv := 0x80004400#32
  lastAckSent := 0x80000400#32
  rexmtArmed := true

def flight : Socket where
  sbspaceRcv := 16384
  soSnd := [1, 2, 3, 4]

/-- All four are acknowledged. -/
def ackSegment : Segment where
  th := ⟨0x80000400#32, 5004#32, { ack := true }, 0⟩
  thWin := 16384
  opti := {}
  sackOpts := []
  m := []

/-- After an exchange that has updated the window a while ago, the paths agree. -/
theorem prediction_agrees_recent :
    (predictedPath { output := idle } ackSegment
        (received { output := idle } ackSegment (exchanging 0x80000000#32) flight)).map outcome
      = (generalPath { output := idle } ackSegment 0 16384
        (received { output := idle } ackSegment (exchanging 0x80000000#32) flight)).map outcome :=
  (prediction_agrees { output := idle } ackSegment 0 (exchanging 0x80000000#32) flight
    ⟨by decide, by decide⟩ (by decide +kernel)).mpr
    ⟨fun h => absurd h (by decide), fun _ => by decide +kernel, fun _ => by decide +kernel,
      fun _ => Or.inl (by decide +kernel)⟩

/-- After more than `2^31` bytes of predicted data, `snd_wl1` is ahead of the segment.
The general path takes the four bytes off the window and does not give them back. -/
theorem prediction_window_stale :
    predicted ackSegment 16384 (received { output := idle } ackSegment (exchanging 1000#32) flight) = true
      ∧ (predictedPath { output := idle } ackSegment
          (received { output := idle } ackSegment (exchanging 1000#32) flight)).map
          (fun p => (outcome p).sndWnd) = some 16384
      ∧ (generalPath { output := idle } ackSegment 0 16384
          (received { output := idle } ackSegment (exchanging 1000#32) flight)).map
          (fun p => (outcome p).sndWnd) = some 16380
      ∧ (predictedPath { output := idle } ackSegment
          (received { output := idle } ackSegment (exchanging 1000#32) flight)).map outcome
        ≠ (generalPath { output := idle } ackSegment 0 16384
          (received { output := idle } ackSegment (exchanging 1000#32) flight)).map outcome := by
  refine ⟨by decide +kernel, by decide +kernel, by decide +kernel, by decide +kernel⟩

end Obsd.Tcp
