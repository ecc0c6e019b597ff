import Mathlib

/-!
# The round-trip time estimate

`tcp_xmit_timer` of `netinet/tcp_input.c`. The smoothed round-trip time
and its variance are fixed point numbers in fields of 16 bits, computed
with `int`s; each value that is assigned to a `short` is recorded, so that
it can be said that none is cut. Round-trip times are limited to
`TCP_RTT_MAX`, so the two averages stay in a range (`Estimate`) that the
shifts and sums of a further sample do not leave.
-/

namespace Obsd.TcpXmit

/-! ## Assignments to a `short` -/

/-- A computation, with the values assigned to a `short` as they were before. -/
abbrev ShortM := StateM (List Int)

def assign (v : Int) : ShortM (BitVec 16) := fun assigned => (BitVec.ofInt 16 v, assigned ++ [v])

/-- The value is one of a `short`. -/
def Fits (v : Int) : Prop := -2 ^ 15 ≤ v ∧ v < 2 ^ 15

/-- All the values assigned are kept, and the result has property `Q`. -/
def Exact {α : Type} (m : ShortM α) (Q : α → Prop) : Prop :=
  ∀ assigned, Q (m assigned).1 ∧ ((∀ v ∈ assigned, Fits v) → ∀ v ∈ (m assigned).2, Fits v)

theorem toInt_ofInt_of_fits {v : Int} (h : Fits v) : (BitVec.ofInt 16 v).toInt = v :=
  BitVec.toInt_ofInt_eq_self (by decide) h.1 h.2

namespace Exact

variable {α β : Type} {P Q : α → Prop}

theorem pure {a : α} (h : Q a) : Exact (Pure.pure a) Q := fun _ => ⟨h, id⟩

theorem assign {v : Int} (h : Fits v) : Exact (assign v) fun x => x.toInt = v := by
  intro assigned
  refine ⟨toInt_ofInt_of_fits h, fun hall w hw => ?_⟩
  rcases List.mem_append.mp hw with hw | hw
  · exact hall w hw
  · rwa [List.mem_singleton.mp hw]

theorem bind {m : ShortM α} {f : α → ShortM β} {R : β → Prop} (hm : Exact m P)
    (hf : ∀ a, P a → Exact (f a) R) : Exact (m >>= f) R := by
  intro assigned
  obtain ⟨ha, hkeep⟩ := hm assigned
  obtain ⟨hr, hkeep'⟩ := hf _ ha (m assigned).2
  exact ⟨hr, fun hall => hkeep' (hkeep hall)⟩

theorem ite {c : Prop} [Decidable c] {m n : ShortM α} (hm : c → Exact m Q) (hn : ¬c → Exact n Q) :
    Exact (if c then m else n) Q := by
  split_ifs with hc
  · exact hm hc
  · exact hn hc

theorem imp {m : ShortM α} (hm : Exact m P) (h : ∀ a, P a → Q a) : Exact m Q :=
  fun assigned => ⟨h _ (hm assigned).1, (hm assigned).2⟩

end Exact

/-! ## The function -/

def tcpRttShift : Nat := 3
def tcpRttvarShift : Nat := 2
def tcpRttBaseShift : Nat := 2
/-- `TCP_RTT_MAX`. -/
def tcpRttMax : Int := 2 ^ 9
/-- `TCPTV_REXMTMAX`, 64 seconds in slow timeouts. -/
def tcptvRexmtmax : Int := 128

/-- The fields of a `struct tcpcb` that are read or set. -/
structure Tcpcb where
  tSrtt : BitVec 16
  tRttvar : BitVec 16
  tRttmin : BitVec 16
  tRxtcur : BitVec 16
  tRxtshift : BitVec 16
  tRtttime : BitVec 32
  tSofterror : BitVec 16
deriving DecidableEq, Repr

/-- `rtt` is cut to the range of round-trip times. -/
def limitRtt (rtt : Int) : Int :=
  if rtt < 0 then 0 else if rtt > tcpRttMax then tcpRttMax else rtt

/-- `if ((field += delta) <= 0) field = 1 << TCP_RTT_BASE_SHIFT`. -/
def addDelta (field delta : BitVec 16) : ShortM (BitVec 16) := do
  let field ← assign (field.toInt + delta.toInt)
  if field.toInt ≤ 0 then assign (1 <<< tcpRttBaseShift) else pure field

/-- `if (delta < 0) delta = -delta`. -/
def absDelta (delta : BitVec 16) : ShortM (BitVec 16) :=
  if delta.toInt < 0 then assign (-delta.toInt) else pure delta

/-- The averages with one sample more. -/
def smooth (srtt rttvar : BitVec 16) (rtt : Int) : ShortM (BitVec 16 × BitVec 16) := do
  let delta ← assign (rtt <<< tcpRttBaseShift - srtt.toInt >>> tcpRttShift)
  let srtt ← addDelta srtt delta
  let delta ← absDelta delta
  let delta ← assign (delta.toInt - rttvar.toInt >>> tcpRttvarShift)
  let rttvar ← addDelta rttvar delta
  return (srtt, rttvar)

/-- No measurement yet. -/
def unsmoothed (rtt : Int) : ShortM (BitVec 16 × BitVec 16) := do
  let srtt ← assign ((rtt + 1) <<< (tcpRttShift + tcpRttBaseShift))
  let rttvar ← assign ((rtt + 1) <<< (tcpRttvarShift + tcpRttBaseShift - 1))
  return (srtt, rttvar)

/-- The averages after a sample. -/
def averages (tp : Tcpcb) (rtt : Int) : ShortM (BitVec 16 × BitVec 16) :=
  if tp.tSrtt ≠ 0 then smooth tp.tSrtt tp.tRttvar rtt else unsmoothed rtt

/-- `TCP_REXMTVAL`. -/
def tcpRexmtval (srtt rttvar : BitVec 16) : Int :=
  (srtt.toInt >>> tcpRttShift + rttvar.toInt) >>> tcpRttBaseShift

/-- `TCPT_RANGESET`. -/
def tcptRangeset (value tvmin tvmax : Int) : ShortM (BitVec 16) := do
  let tv ← assign value
  if tv.toInt < tvmin then assign tvmin
  else if tv.toInt > tvmax then assign tvmax
  else pure tv

def tcpXmitTimer (tp : Tcpcb) (rtt : BitVec 32) : ShortM Tcpcb := do
  let rtt := limitRtt rtt.toInt
  let (srtt, rttvar) ← averages tp rtt
  let rttmin ← assign (min (max (rtt + 2) tp.tRttmin.toNat) tcptvRexmtmax)
  let rxtcur ← tcptRangeset (tcpRexmtval srtt rttvar) rttmin.toInt tcptvRexmtmax
  return { tp with
    tSrtt := srtt, tRttvar := rttvar, tRxtcur := rxtcur
    tRtttime := 0, tRxtshift := 0, tSofterror := 0 }

/-- A sequence of samples. -/
def samples (tp : Tcpcb) (rtts : List (BitVec 32)) : ShortM Tcpcb := rtts.foldlM tcpXmitTimer tp

/-! ## One sample -/

theorem limitRtt_bounds (rtt : Int) : 0 ≤ limitRtt rtt ∧ limitRtt rtt ≤ 512 := by
  unfold limitRtt tcpRttMax
  split_ifs <;> omega

/-- The range of the averages. It is as wide as the first sample makes it, or the deviation
from it of further ones. -/
structure Estimate (srtt rttvar : Int) : Prop where
  srtt_pos : 0 < srtt
  srtt_le : srtt ≤ 16416
  rttvar_pos : 0 < rttvar
  rttvar_le : rttvar ≤ 8208

theorem unsmoothed_exact {rtt : Int} (h0 : 0 ≤ rtt) (hmax : rtt ≤ 512) :
    Exact (unsmoothed rtt) fun r => Estimate r.1.toInt r.2.toInt := by
  have hs : (rtt + 1) <<< (tcpRttShift + tcpRttBaseShift) = (rtt + 1) * 32 := Int.shiftLeft_eq _ _
  have hv : (rtt + 1) <<< (tcpRttvarShift + tcpRttBaseShift - 1) = (rtt + 1) * 8 := Int.shiftLeft_eq _ _
  refine .bind (.assign ⟨by omega, by omega⟩) fun srtt hsrtt => ?_
  refine .bind (.assign ⟨by omega, by omega⟩) fun rttvar hrttvar => .pure ?_
  show Estimate srtt.toInt rttvar.toInt
  exact ⟨by omega, by omega, by omega, by omega⟩

/-- A field that stays positive is not reset. -/
theorem addDelta_exact {field delta : BitVec 16} (hpos : 0 < field.toInt + delta.toInt)
    (hfits : Fits (field.toInt + delta.toInt)) :
    Exact (addDelta field delta) fun f => f.toInt = field.toInt + delta.toInt := by
  refine .bind (.assign hfits) fun f hf => ?_
  exact .ite (fun hle => absurd hle (by omega)) (fun _ => .pure hf)

theorem absDelta_exact {delta : BitVec 16} (hfits : Fits (-delta.toInt)) :
    Exact (absDelta delta) fun d => d.toInt = |delta.toInt| := by
  refine .ite (fun hneg => (Exact.assign hfits).imp fun d hd => ?_) (fun hneg => .pure ?_)
  · rw [hd, abs_of_neg hneg]
  · rw [abs_of_nonneg (by omega)]

/-- The averages stay in their range. -/
theorem smooth_exact {srtt rttvar : BitVec 16} {rtt : Int} (hest : Estimate srtt.toInt rttvar.toInt)
    (h0 : 0 ≤ rtt) (hmax : rtt ≤ 512) :
    Exact (smooth srtt rttvar rtt) fun r => Estimate r.1.toInt r.2.toInt := by
  obtain ⟨hspos, hsle, hvpos, hvle⟩ := hest
  have hr : rtt <<< tcpRttBaseShift = rtt * 4 := Int.shiftLeft_eq _ _
  have hs : srtt.toInt >>> tcpRttShift = srtt.toInt / 8 := Int.shiftRight_eq_div_pow _ _
  have hv : rttvar.toInt >>> tcpRttvarShift = rttvar.toInt / 4 := Int.shiftRight_eq_div_pow _ _
  refine .bind (.assign ⟨by omega, by omega⟩) fun delta hdelta => ?_
  refine .bind (addDelta_exact (by omega) ⟨by omega, by omega⟩) fun srtt' hsrtt => ?_
  refine .bind (absDelta_exact ⟨by omega, by omega⟩) fun delta' hdelta' => ?_
  have hd0 : 0 ≤ delta'.toInt := hdelta' ▸ abs_nonneg _
  have hdmax : delta'.toInt ≤ 2052 := hdelta' ▸ abs_le.mpr ⟨by omega, by omega⟩
  refine .bind (.assign ⟨by omega, by omega⟩) fun delta'' hdelta'' => ?_
  refine .bind (addDelta_exact (by omega) ⟨by omega, by omega⟩) fun rttvar' hrttvar => .pure ?_
  show Estimate srtt'.toInt rttvar'.toInt
  exact ⟨by omega, by omega, by omega, by omega⟩

theorem tcptRangeset_exact {value tvmin tvmax : Int} (hv : Fits value) (hmin : Fits tvmin)
    (hmax : Fits tvmax) (hle : tvmin ≤ tvmax) :
    Exact (tcptRangeset value tvmin tvmax) fun tv => tvmin ≤ tv.toInt ∧ tv.toInt ≤ tvmax := by
  refine .bind (.assign hv) fun tv htv => ?_
  refine .ite (fun _ => (Exact.assign hmin).imp fun t ht => ⟨by omega, by omega⟩) fun hge => ?_
  exact .ite (fun _ => (Exact.assign hmax).imp fun t ht => ⟨by omega, by omega⟩)
    (fun hle' => .pure ⟨by omega, by omega⟩)

theorem tcpRexmtval_fits {srtt rttvar : BitVec 16} (hest : Estimate srtt.toInt rttvar.toInt) :
    Fits (tcpRexmtval srtt rttvar) := by
  have hs : srtt.toInt >>> tcpRttShift = srtt.toInt / 8 := Int.shiftRight_eq_div_pow _ _
  have hv : tcpRexmtval srtt rttvar = (srtt.toInt >>> tcpRttShift + rttvar.toInt) / 4 :=
    Int.shiftRight_eq_div_pow _ _
  obtain ⟨hspos, hsle, hvpos, hvle⟩ := hest
  exact ⟨by omega, by omega⟩

/-- The averages are those of an earlier sample, or there is none. -/
def Started (tp : Tcpcb) : Prop := tp.tSrtt = 0 ∨ Estimate tp.tSrtt.toInt tp.tRttvar.toInt

/-- What a sample makes of a control block. -/
structure Sampled (tp : Tcpcb) (rtt : BitVec 32) (tp' : Tcpcb) : Prop where
  estimate : Estimate tp'.tSrtt.toInt tp'.tRttvar.toInt
  rttmin : tp'.tRttmin = tp.tRttmin
  rxtcur_ge : min (max (limitRtt rtt.toInt + 2) tp.tRttmin.toNat) tcptvRexmtmax ≤ tp'.tRxtcur.toInt
  rxtcur_le : tp'.tRxtcur.toInt ≤ tcptvRexmtmax

/-- **One sample**, the first or one after others. -/
theorem tcpXmitTimer_exact {tp : Tcpcb} (h : Started tp) (rtt : BitVec 32) :
    Exact (tcpXmitTimer tp rtt) (Sampled tp rtt) := by
  obtain ⟨h0, hmax⟩ := limitRtt_bounds rtt.toInt
  have hest : Exact (averages tp (limitRtt rtt.toInt)) fun r => Estimate r.1.toInt r.2.toInt :=
    .ite (fun hne => smooth_exact (h.resolve_left hne) h0 hmax) (fun _ => unsmoothed_exact h0 hmax)
  refine .bind hest fun r hr => ?_
  have hrange : Fits (min (max (limitRtt rtt.toInt + 2) tp.tRttmin.toNat) tcptvRexmtmax) := by
    unfold Fits tcptvRexmtmax
    omega
  have hrexmt : Fits tcptvRexmtmax := by
    unfold Fits tcptvRexmtmax
    omega
  refine .bind (.assign hrange) fun rttmin hrttmin => ?_
  have hset := tcptRangeset_exact (tcpRexmtval_fits hr) (hrttmin ▸ hrange) hrexmt
    (hrttmin ▸ min_le_right _ _)
  refine .bind hset fun rxtcur hcur => .pure ?_
  exact ⟨hr, rfl, hrttmin ▸ hcur.1, hcur.2⟩

/-! ## Any number of samples -/

/-- What holds after the samples taken so far holds before the next. -/
theorem samples_exact (rtts : List (BitVec 32)) : ∀ tp, Started tp →
    Exact (samples tp rtts) fun tp' => Started tp' ∧ tp'.tRttmin = tp.tRttmin := by
  induction rtts with
  | nil => exact fun tp h => .pure ⟨h, rfl⟩
  | cons rtt rtts ih =>
    intro tp h
    refine .bind (tcpXmitTimer_exact h rtt) fun tp' hs => ?_
    exact (ih tp' (.inr hs.estimate)).imp fun tp'' hs' => ⟨hs'.1, hs'.2.trans hs.rttmin⟩

/-- **The estimate of the round-trip time.** After any samples, of which the first is taken
with `t_srtt = 0`: both averages are positive, no value assigned to a `short` on the way was
cut, and the retransmit timer is in its range, for the last sample as it was passed as well as
for what was made of it. -/
theorem xmit_timer_samples (tp : Tcpcb) (hfirst : tp.tSrtt = 0) (rtts : List (BitVec 32))
    (rtt : BitVec 32) :
    let r := samples tp (rtts ++ [rtt]) []
    0 < r.1.tSrtt.toInt ∧ 0 < r.1.tRttvar.toInt
      ∧ (∀ v ∈ r.2, (BitVec.ofInt 16 v).toInt = v)
      ∧ min (max (rtt.toInt + 2) tp.tRttmin.toNat) tcptvRexmtmax ≤ r.1.tRxtcur.toInt
      ∧ min (max (limitRtt rtt.toInt + 2) tp.tRttmin.toNat) tcptvRexmtmax ≤ r.1.tRxtcur.toInt
      ∧ r.1.tRxtcur.toInt ≤ tcptvRexmtmax := by
  have hlast : Exact (samples tp (rtts ++ [rtt])) fun tp' => ∃ tp₀, tp₀.tRttmin = tp.tRttmin
      ∧ Sampled tp₀ rtt tp' := by
    unfold samples
    rw [List.foldlM_append]
    refine .bind (samples_exact rtts tp (.inl hfirst)) fun tp₀ h₀ => ?_
    refine .bind (tcpXmitTimer_exact h₀.1 rtt) fun tp' hs => .pure ⟨tp₀, h₀.2, hs⟩
  obtain ⟨⟨tp₀, hmin, hest, -, hge, hle⟩, hfits⟩ := hlast []
  rw [hmin] at hge
  have hlow : min (max (rtt.toInt + 2) tp.tRttmin.toNat) tcptvRexmtmax ≤
      min (max (limitRtt rtt.toInt + 2) tp.tRttmin.toNat) tcptvRexmtmax := by
    unfold limitRtt tcpRttMax tcptvRexmtmax
    split_ifs <;> omega
  exact ⟨hest.srtt_pos, hest.rttvar_pos, fun v hv => toInt_ofInt_of_fits (hfits nofun v hv),
    hlow.trans hge, hge, hle⟩

/-- A first sample of 3, one that is negative and one that is too large. -/
theorem xmit_timer_three :
    let tp : Tcpcb := ⟨0, 24, 2, 6, 1, 7, 65⟩
    let r := samples tp ([3, -1] ++ [100000]) []
    (r.1.tSrtt.toInt, r.1.tRttvar.toInt, r.1.tRxtcur.toInt) = (2146, 2064, 128)
      ∧ 0 < r.1.tSrtt.toInt ∧ 0 < r.1.tRttvar.toInt
      ∧ (∀ v ∈ r.2, (BitVec.ofInt 16 v).toInt = v)
      ∧ min (max ((100000#32).toInt + 2) tp.tRttmin.toNat) tcptvRexmtmax ≤ r.1.tRxtcur.toInt
      ∧ min (max (limitRtt (100000#32).toInt + 2) tp.tRttmin.toNat) tcptvRexmtmax ≤ r.1.tRxtcur.toInt
      ∧ r.1.tRxtcur.toInt ≤ tcptvRexmtmax :=
  ⟨by decide +kernel, xmit_timer_samples ⟨0, 24, 2, 6, 1, 7, 65⟩ rfl [3, -1] 100000⟩

end Obsd.TcpXmit
