import Mathlib

/-!
# When a state of pf expires

`pf_state_expires` of `net/pf.c`. Between the adaptive limits a timeout is
scaled down linearly by the number of states; the product is formed in 32
bits, so the scaling is right as long as the largest product fits
(`adapts_iff`).
-/

namespace Obsd.PfExpire

/-- The indices into `timeout[]`. -/
inductive Pftm where
  | tcpFirstPacket | tcpOpening | tcpEstablished | tcpClosing | tcpFinWait | tcpClosed
  | udpFirstPacket | udpSingle | udpMultiple
  | icmpFirstPacket | icmpErrorReply
  | otherFirstPacket | otherSingle | otherMultiple
  | frag | interval | adaptiveStart | adaptiveEnd | srcNode | tsDiff
deriving DecidableEq, Repr

/-- `state->timeout`: an index, or one of the cases past `PFTM_MAX`. -/
inductive StateTimeout where
  | index (i : Pftm)
  | purge
  | unlinked
  | untilPacket
deriving DecidableEq, Repr

structure PfRule where
  timeout : Pftm → BitVec 32
  statesCur : BitVec 32

structure PfState where
  timeout : StateTimeout
  expire : BitVec 32
  rule : PfRule

/-- `pf_default_rule`, `pf_status.states` and `time_second`. -/
structure Globals where
  pfDefaultRule : PfRule
  states : BitVec 32
  timeSecond : BitVec 32

/-- The timeout of the rule, or the default. -/
def timeoutOf (g : Globals) (state : PfState) (i : Pftm) : BitVec 32 :=
  if state.rule.timeout i = 0#32 then g.pfDefaultRule.timeout i else state.rule.timeout i

/-- The adaptive limits, and the number of states they are about. -/
structure Adaptive where
  start : BitVec 32
  stop : BitVec 32
  states : BitVec 32

def adaptive (g : Globals) (state : PfState) : Adaptive :=
  if state.rule.timeout .adaptiveStart ≠ 0#32 then
    ⟨state.rule.timeout .adaptiveStart, state.rule.timeout .adaptiveEnd, state.rule.statesCur⟩
  else
    ⟨g.pfDefaultRule.timeout .adaptiveStart, g.pfDefaultRule.timeout .adaptiveEnd, g.states⟩

/-- `none` is a failed assertion. -/
def pfStateExpires (g : Globals) (state : PfState) : Option (BitVec 32) :=
  match state.timeout with
  | .purge => some g.timeSecond
  | .untilPacket => some 0#32
  | .unlinked => none
  | .index i =>
    let timeout := timeoutOf g state i
    let a := adaptive g state
    if a.stop ≠ 0#32 ∧ a.states > a.start ∧ a.start < a.stop then
      if a.states < a.stop then
        some (state.expire + timeout * (a.stop - a.states) / (a.stop - a.start))
      else some g.timeSecond
    else some (state.expire + timeout)

/-! ## The number of states -/

/-- With `n` states, whichever count it is. -/
def Globals.count (g : Globals) (n : BitVec 32) : Globals := { g with states := n }

def PfState.count (state : PfState) (n : BitVec 32) : PfState :=
  { state with rule := { state.rule with statesCur := n } }

/-- What it returns with `n` states. -/
def expiresWith (g : Globals) (state : PfState) (n : BitVec 32) : Option (BitVec 32) :=
  pfStateExpires (g.count n) (state.count n)

theorem adaptive_count (g : Globals) (state : PfState) (n : BitVec 32) :
    adaptive (g.count n) (state.count n)
      = ⟨(adaptive g state).start, (adaptive g state).stop, n⟩ := by
  have hcount : (state.count n).rule.timeout = state.rule.timeout := rfl
  rw [adaptive, adaptive, hcount]
  by_cases h : state.rule.timeout .adaptiveStart ≠ 0#32
  · rw [if_pos h, if_pos h]
    rfl
  · rw [if_neg h, if_neg h]
    rfl

/-! ## Scaling -/

/-- The timeout scaled to `n` states, between `start` and `stop`. -/
def scaled (timeout start stop n : Nat) : Nat := timeout * (stop - n) / (stop - start)

theorem scaled_le {timeout start stop n : Nat} (hn : start ≤ n) :
    scaled timeout start stop n ≤ timeout := by
  refine Nat.div_le_of_le_mul ?_
  rw [Nat.mul_comm (stop - start)]
  exact Nat.mul_le_mul_left timeout (Nat.sub_le_sub_left hn stop)

theorem scaled_start {timeout start stop : Nat} (hlt : start < stop) :
    scaled timeout start stop start = timeout :=
  Nat.mul_div_cancel timeout (Nat.sub_pos_of_lt hlt)

theorem scaled_anti {timeout start stop n n' : Nat} (h : n ≤ n') :
    scaled timeout start stop n' ≤ scaled timeout start stop n :=
  Nat.div_le_div_right (Nat.mul_le_mul_left timeout (Nat.sub_le_sub_left h stop))

/-- A product cut to `m` has the right quotient only if nothing was cut off. -/
theorem mod_div_eq_iff {p m d : Nat} (hd : 0 < d) (hdm : d ≤ m) : p % m / d = p / d ↔ p < m := by
  refine ⟨fun h => ?_, fun h => by rw [Nat.mod_eq_of_lt h]⟩
  by_contra hge
  have hle : p % m + d ≤ p := by
    have hsub := Nat.mod_eq_sub_mod (Nat.le_of_not_lt hge)
    have := Nat.mod_le (p - m) m
    omega
  have hstep : p % m / d + 1 ≤ p / d := by
    rw [← Nat.add_div_right _ hd]
    exact Nat.div_le_div_right hle
  omega

section Expires

variable {g : Globals} {state : PfState} {i : Pftm}

/-- The scaled time as the code forms it. -/
theorem expiresWith_eq (hi : state.timeout = .index i)
    (hlt : (adaptive g state).start < (adaptive g state).stop) {n : BitVec 32}
    (hn : n < (adaptive g state).stop) :
    expiresWith g state n = some (state.expire +
      if (adaptive g state).start < n then
        timeoutOf g state i * ((adaptive g state).stop - n)
          / ((adaptive g state).stop - (adaptive g state).start)
      else timeoutOf g state i) := by
  have hstop : (adaptive g state).stop ≠ 0#32 := fun h0 => by
    rw [h0] at hlt
    exact absurd hlt (by simp)
  have hi' : (state.count n).timeout = .index i := hi
  rw [expiresWith, pfStateExpires, hi']
  dsimp only
  rw [adaptive_count, show timeoutOf (g.count n) (state.count n) i = timeoutOf g state i from rfl,
    show (state.count n).expire = state.expire from rfl]
  by_cases hs : (adaptive g state).start < n
  · rw [if_pos ⟨hstop, hs, hlt⟩, if_pos hn, if_pos hs]
  · rw [if_neg fun h => hs h.2.1, if_neg hs]

/-- The same as a number: the product is cut to 32 bits before it is divided. -/
theorem expiresWith_toNat (hi : state.timeout = .index i)
    (hlt : (adaptive g state).start < (adaptive g state).stop)
    (htime : state.expire.toNat + (timeoutOf g state i).toNat < 2 ^ 32) {n : BitVec 32}
    (hge : (adaptive g state).start ≤ n) (hn : n < (adaptive g state).stop) :
    ∃ r, expiresWith g state n = some r ∧
      r.toNat = state.expire.toNat +
        if (adaptive g state).start < n then
          (timeoutOf g state i).toNat * ((adaptive g state).stop.toNat - n.toNat) % 2 ^ 32
            / ((adaptive g state).stop.toNat - (adaptive g state).start.toNat)
        else (timeoutOf g state i).toNat := by
  refine ⟨_, expiresWith_eq hi hlt hn, ?_⟩
  have hle : (adaptive g state).start.toNat ≤ n.toNat := BitVec.le_def.mp hge
  by_cases hs : (adaptive g state).start < n
  · rw [if_pos hs, if_pos hs, BitVec.toNat_add, BitVec.toNat_udiv, BitVec.toNat_mul,
      BitVec.toNat_sub_of_le (BitVec.le_of_lt hn), BitVec.toNat_sub_of_le (BitVec.le_of_lt hlt)]
    refine Nat.mod_eq_of_lt (lt_of_le_of_lt (Nat.add_le_add_left ?_ _) htime)
    exact Nat.le_trans (Nat.div_le_div_right (Nat.mod_le _ _)) (scaled_le hle)
  · rw [if_neg hs, if_neg hs, BitVec.toNat_add, Nat.mod_eq_of_lt htime]

/-- With `n` states: a time from the last use to a whole timeout later. -/
def Within (g : Globals) (state : PfState) (i : Pftm) (n : BitVec 32) : Prop :=
  ∃ r, expiresWith g state n = some r ∧ state.expire.toNat ≤ r.toNat ∧
    r.toNat ≤ state.expire.toNat + (timeoutOf g state i).toNat

/-- With `n` states: the scaled time, computed without overflow. -/
def Exact (g : Globals) (state : PfState) (i : Pftm) (n : BitVec 32) : Prop :=
  ∃ r, expiresWith g state n = some r ∧
    r.toNat = state.expire.toNat + scaled (timeoutOf g state i).toNat
      (adaptive g state).start.toNat (adaptive g state).stop.toNat n.toNat

/-- The timeout adapts to the number of states. -/
structure Adapts (g : Globals) (state : PfState) (i : Pftm) : Prop where
  within : ∀ n < (adaptive g state).stop, Within g state i n
  exact : ∀ n < (adaptive g state).stop, (adaptive g state).start ≤ n → Exact g state i n
  anti : ∀ n n' r r', (adaptive g state).start ≤ n → n ≤ n' → n' < (adaptive g state).stop →
    expiresWith g state n = some r → expiresWith g state n' = some r' → r' ≤ r

theorem within_of_lt (hi : state.timeout = .index i)
    (hlt : (adaptive g state).start < (adaptive g state).stop)
    (htime : state.expire.toNat + (timeoutOf g state i).toNat < 2 ^ 32) {n : BitVec 32}
    (hn : n < (adaptive g state).stop) : Within g state i n := by
  by_cases hge : (adaptive g state).start ≤ n
  · obtain ⟨r, hr, heq⟩ := expiresWith_toNat hi hlt htime hge hn
    refine ⟨r, hr, by omega, ?_⟩
    rw [heq]
    refine Nat.add_le_add_left ?_ _
    split
    · exact Nat.le_trans (Nat.div_le_div_right (Nat.mod_le _ _))
        (scaled_le (BitVec.le_def.mp hge))
    · exact le_rfl
  · have hs : ¬ (adaptive g state).start < n := fun h => hge (BitVec.le_of_lt h)
    refine ⟨_, expiresWith_eq hi hlt hn, ?_⟩
    rw [if_neg hs, BitVec.toNat_add, Nat.mod_eq_of_lt htime]
    exact ⟨Nat.le_add_right _ _, le_rfl⟩

/-- For one number of states. -/
theorem exact_iff (hi : state.timeout = .index i)
    (hlt : (adaptive g state).start < (adaptive g state).stop)
    (htime : state.expire.toNat + (timeoutOf g state i).toNat < 2 ^ 32) {n : BitVec 32}
    (hge : (adaptive g state).start ≤ n) (hn : n < (adaptive g state).stop) :
    Exact g state i n ↔ n = (adaptive g state).start ∨
      (timeoutOf g state i).toNat * ((adaptive g state).stop.toNat - n.toNat) < 2 ^ 32 := by
  obtain ⟨r, hr, heq⟩ := expiresWith_toNat hi hlt htime hge hn
  have hlt' : (adaptive g state).start.toNat < (adaptive g state).stop.toNat := BitVec.lt_def.mp hlt
  have hle : (adaptive g state).start.toNat ≤ n.toNat := BitVec.le_def.mp hge
  have hexact : Exact g state i n ↔ r.toNat = state.expire.toNat +
      scaled (timeoutOf g state i).toNat (adaptive g state).start.toNat
        (adaptive g state).stop.toNat n.toNat :=
    ⟨fun ⟨r', hr', h⟩ => by rw [hr, Option.some.injEq] at hr'; rwa [hr'], fun h => ⟨r, hr, h⟩⟩
  rw [hexact, heq]
  by_cases hs : (adaptive g state).start < n
  · have hne : n ≠ (adaptive g state).start := fun h => absurd (h ▸ hs) (by simp)
    rw [if_pos hs, Nat.add_left_cancel_iff, scaled, or_iff_right hne]
    exact mod_div_eq_iff (by omega) (Nat.le_trans (Nat.sub_le _ _) (Nat.le_of_lt (BitVec.isLt _)))
  · have heqn : n = (adaptive g state).start := BitVec.eq_of_toNat_eq
      (le_antisymm (Nat.le_of_not_lt fun h => hs (BitVec.lt_def.mpr h)) hle)
    rw [if_neg hs, heqn, scaled_start hlt']
    exact ⟨fun _ => .inl rfl, fun _ => rfl⟩

/-- The timeout adapts as it should exactly when the largest product, for the first
number of states past `start`, fits in 32 bits. -/
theorem adapts_iff (g : Globals) (state : PfState) (i : Pftm) (hi : state.timeout = .index i)
    (hlt : (adaptive g state).start < (adaptive g state).stop)
    (htime : state.expire.toNat + (timeoutOf g state i).toNat < 2 ^ 32) :
    Adapts g state i ↔ (timeoutOf g state i).toNat
      * ((adaptive g state).stop.toNat - (adaptive g state).start.toNat - 1) < 2 ^ 32 := by
  refine ⟨fun h => ?_, fun h => ?_⟩
  · by_cases hnext : (adaptive g state).start.toNat + 1 < (adaptive g state).stop.toNat
    · -- the first number past the start has the largest product
      have hval : ((adaptive g state).start + 1#32).toNat = (adaptive g state).start.toNat + 1 := by
        exact Nat.mod_eq_of_lt (by simp only [BitVec.toNat_ofNat]; omega)
      have hn : (adaptive g state).start + 1#32 < (adaptive g state).stop :=
        BitVec.lt_def.mpr (by omega)
      have hge : (adaptive g state).start ≤ (adaptive g state).start + 1#32 :=
        BitVec.le_def.mpr (by omega)
      rcases (exact_iff hi hlt htime hge hn).mp (h.exact _ hn hge) with heq | hfit
      · exact absurd (congrArg BitVec.toNat heq) (by omega)
      · rwa [hval, Nat.sub_add_eq] at hfit
    · have hzero : (adaptive g state).stop.toNat - (adaptive g state).start.toNat - 1 = 0 := by omega
      rw [hzero, Nat.mul_zero]
      decide
  · have hexact : ∀ n < (adaptive g state).stop, (adaptive g state).start ≤ n →
        Exact g state i n := by
      intro n hn hge
      refine (exact_iff hi hlt htime hge hn).mpr ?_
      by_cases heq : n = (adaptive g state).start
      · exact .inl heq
      · refine .inr (lt_of_le_of_lt (Nat.mul_le_mul_left _ ?_) h)
        have hne : n.toNat ≠ (adaptive g state).start.toNat := fun h0 => heq (BitVec.eq_of_toNat_eq h0)
        have := BitVec.le_def.mp hge
        omega
    refine ⟨fun n hn => within_of_lt hi hlt htime hn, hexact, fun n n' r r' hge hle hn hr hr' => ?_⟩
    obtain ⟨r₁, hr₁, heq₁⟩ := hexact n
      (BitVec.lt_def.mpr (lt_of_le_of_lt (BitVec.le_def.mp hle) (BitVec.lt_def.mp hn))) hge
    obtain ⟨r₂, hr₂, heq₂⟩ := hexact n' hn (BitVec.le_trans hge hle)
    rw [hr, Option.some.injEq] at hr₁
    rw [hr', Option.some.injEq] at hr₂
    rw [BitVec.le_def, hr₁, hr₂, heq₁, heq₂]
    exact Nat.add_le_add_left (scaled_anti (BitVec.le_def.mp hle)) _

end Expires

/-! A limit of 100000 states, with the adaptive limits at 60% and 120% of it, and the
default timeout of an established connection, a day. -/

def largeRule : PfRule where
  timeout
    | .tcpEstablished => 86400#32
    | .adaptiveStart => 60000#32
    | .adaptiveEnd => 120000#32
    | _ => 0#32
  statesCur := 0#32

def established (rule : PfRule) : PfState := ⟨.index .tcpEstablished, 1000#32, rule⟩

def started : Globals := ⟨largeRule, 0#32, 2000#32⟩

/-- With 6000 and 12000, the default limits, a day fits. -/
theorem adapts_default : Adapts started
    (established ⟨fun | .adaptiveStart => 6000#32 | .adaptiveEnd => 12000#32 | _ => 0#32, 0#32⟩)
    .tcpEstablished :=
  (adapts_iff started _ .tcpEstablished rfl (by decide) (by decide)).mpr (by decide)

/-- With 65000 states the scaled timeout is 79200, and 7617 is what comes out. -/
theorem overflow_expires_early :
    (adaptive started (established largeRule)).start < (adaptive started (established largeRule)).stop ∧
      1000 + (timeoutOf started (established largeRule) .tcpEstablished).toNat < 2 ^ 32 ∧
      ¬ Adapts started (established largeRule) .tcpEstablished ∧
      expiresWith started (established largeRule) 65000#32 = some (1000#32 + 7617#32) ∧
      scaled 86400 60000 120000 65000 = 79200 := by
  refine ⟨by decide, by decide, fun h => ?_, by decide, by decide⟩
  obtain ⟨r, hr, heq⟩ := h.exact 65000#32 (by decide) (by decide)
  have hval : expiresWith started (established largeRule) 65000#32 = some 8617#32 := by decide
  rw [hval, Option.some.injEq] at hr
  rw [← hr] at heq
  exact absurd heq (by decide)

end Obsd.PfExpire
