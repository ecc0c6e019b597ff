import Obsd.PfRule

/-!
# Skip steps

A rule's skip step for a criterion leads to a later rule, and no rule on
the way differs from the one before it in that criterion
(`pfCalcSkipSteps_ok`). Rules that do not differ give a test the same
answer, so if one fails it, those on the way would not have matched
(`firstFail_skipped`). The address of an interface needs care: rules with
the same table may be for different address families, and then the later
rule fails the test of the address family instead.
-/

namespace Obsd.Pf

/-! ## Setting the steps of one criterion -/

section
variable (i : Skip) (cur : Nat)

theorem setSkipSteps_head (n : Nat) : ∀ (st : Steps) (c : Skip),
    (setSkipSteps i cur n st).head c = if c = i then st.head c + n else st.head c := by
  induction n with
  | zero =>
    intro st c
    simp [setSkipSteps]
  | succ n ih =>
    intro st c
    unfold setSkipSteps
    rw [ih]
    by_cases hc : c = i
    · subst hc
      simp only [if_true, Function.update_self]
      omega
    · simp [hc]

theorem setSkipSteps_skip (n : Nat) : ∀ (st : Steps) (j : Nat) (c : Skip),
    (setSkipSteps i cur n st).skip j c
      = if c = i ∧ st.head i ≤ j ∧ j < st.head i + n then cur else st.skip j c := by
  induction n with
  | zero =>
    intro st j c
    have hno : ¬(c = i ∧ st.head i ≤ j ∧ j < st.head i + 0) := by omega
    rw [if_neg hno]
    rfl
  | succ n ih =>
    intro st j c
    unfold setSkipSteps
    rw [ih]
    simp only [Function.update_self]
    by_cases hc : c = i
    · subst hc
      by_cases hj : j = st.head c
      · subst hj
        simp
      · simp only [true_and, ne_eq, hj, not_false_eq_true, Function.update_of_ne]
        have hiff : (st.head c + 1 ≤ j ∧ j < st.head c + 1 + n) ↔ (st.head c ≤ j ∧ j < st.head c + (n + 1)) := by
          omega
        simp only [hiff]
    · by_cases hj : j = st.head i
      · subst hj
        simp [hc]
      · simp [hc, hj]

end

/-! ## All of them -/

section
variable (rules : List Rule)

/-- Rule `m` does not differ from the one before it. -/
def NoDiff (c : Skip) (m : Nat) : Prop :=
  ∀ cur prev, rules[m]? = some cur → rules[m - 1]? = some prev → differs cur prev c = false

def SkipOk (c : Skip) (j t : Nat) : Prop :=
  j < t ∧ t ≤ rules.length ∧ ∀ m, j < m → m < t → NoDiff rules c m

/-- The rules before `head` have their step, and those from there up to `k` are alike. -/
def StepsOk (k : Nat) (st : Steps) (c : Skip) : Prop :=
  st.head c ≤ k ∧ (∀ j < st.head c, SkipOk rules c j (st.skip j c)) ∧
    ∀ m, st.head c < m → m < k → NoDiff rules c m

variable {rules}

theorem StepsOk.congr {k : Nat} {st st' : Steps} {c : Skip} (h : StepsOk rules k st c)
    (hhead : st'.head c = st.head c) (hskip : ∀ j, st'.skip j c = st.skip j c) : StepsOk rules k st' c := by
  unfold StepsOk
  rw [hhead]
  exact ⟨h.1, fun j hj => by rw [hskip]; exact h.2.1 j hj, h.2.2⟩

theorem setSkipSteps_other {i c : Skip} (hc : c ≠ i) {k : Nat} (cur n : Nat) {st : Steps} (h : StepsOk rules k st c) :
    StepsOk rules k (setSkipSteps i cur n st) c := by
  refine h.congr ?_ fun j => ?_
  · rw [setSkipSteps_head, if_neg hc]
  · rw [setSkipSteps_skip, if_neg fun hi => hc hi.1]

/-- All rules up to `k` get the step that leads there. -/
theorem setSkipSteps_self {c : Skip} {k : Nat} {st : Steps} (hk : k ≤ rules.length) (h : StepsOk rules k st c) :
    StepsOk rules k (setSkipSteps c k (k - st.head c) st) c ∧
      (setSkipSteps c k (k - st.head c) st).head c = k := by
  obtain ⟨hle, hok, hsame⟩ := h
  have hhead : (setSkipSteps c k (k - st.head c) st).head c = k := by
    rw [setSkipSteps_head, if_pos rfl]
    omega
  refine ⟨⟨Nat.le_of_eq hhead, fun j hj => ?_, fun m hm1 hm2 => ?_⟩, hhead⟩
  · rw [hhead] at hj
    rw [setSkipSteps_skip]
    by_cases hjh : st.head c ≤ j
    · rw [if_pos ⟨rfl, hjh, by omega⟩]
      exact ⟨hj, hk, fun m hm1 hm2 => hsame m (by omega) hm2⟩
    · rw [if_neg fun hc => hjh hc.2.1]
      exact hok j (by omega)
  · omega

theorem StepsOk.head_eq {k : Nat} {st : Steps} {c : Skip} (h : StepsOk rules k st c) (hhead : st.head c = k) :
    StepsOk rules (k + 1) st c :=
  ⟨by omega, h.2.1, fun m hm1 hm2 => by omega⟩

/-- One criterion at one rule. -/
theorem skipStep_one {prev cur : Rule} {k : Nat} (hk : k < rules.length) (hcur : rules[k]? = some cur)
    (hprev : 0 < k → rules[k - 1]? = some prev) {c : Skip} {st : Steps} (h : StepsOk rules k st c) :
    StepsOk rules (k + 1) (if differs cur prev c then setSkipSteps c k (k - st.head c) st else st) c := by
  split_ifs with hdiff
  · obtain ⟨hok, hhead⟩ := setSkipSteps_self (Nat.le_of_lt hk) h
    exact hok.head_eq hhead
  · obtain ⟨hle, hok, hsame⟩ := h
    refine ⟨by omega, hok, fun m hm1 hm2 => ?_⟩
    rcases Nat.lt_or_ge m k with hlt | hge
    · exact hsame m hm1 hlt
    · obtain rfl : m = k := by omega
      intro cur' prev' hcur' hprev'
      rw [hcur] at hcur'
      rw [hprev (by omega)] at hprev'
      obtain rfl := Option.some.inj hcur'
      obtain rfl := Option.some.inj hprev'
      exact Bool.eq_false_iff.mpr hdiff

/-- A pass over the criteria does to each what it does to it alone. -/
theorem foldl_criteria {f : Steps → Skip → Steps} {P Q : Steps → Skip → Prop}
    (hself : ∀ st c, P st c → Q (f st c) c)
    (hother : ∀ st i c, c ≠ i → (P st c → P (f st i) c) ∧ (Q st c → Q (f st i) c)) :
    ∀ (is : List Skip) (st : Steps), is.Nodup → (∀ c ∈ is, P st c) →
      (∀ c ∈ is, Q (is.foldl f st) c) ∧ ∀ c ∉ is, Q st c → Q (is.foldl f st) c := by
  intro is
  induction is with
  | nil => exact fun st _ _ => ⟨nofun, fun c _ hq => hq⟩
  | cons i is ih =>
    intro st hnd hP
    obtain ⟨hi, hnd⟩ := List.nodup_cons.mp hnd
    have hne : ∀ c ∈ is, c ≠ i := fun c hc heq => hi (heq ▸ hc)
    obtain ⟨hin, hout⟩ := ih (f st i) hnd fun c hc =>
      (hother st i c (hne c hc)).1 (hP c (List.mem_cons_of_mem i hc))
    refine ⟨fun c hc => ?_, fun c hc hq => ?_⟩
    · rcases List.mem_cons.mp hc with rfl | hc
      · exact hout c hi (hself st c (hP c List.mem_cons_self))
      · exact hin c hc
    · have hci : c ≠ i := List.ne_of_not_mem_cons hc
      exact hout c (List.not_mem_of_not_mem_cons hc) ((hother st i c hci).2 hq)

theorem Skip.mem_all (c : Skip) : c ∈ Skip.all := by
  cases c <;> decide

theorem skipStep_ok {prev cur : Rule} {k : Nat} (hk : k < rules.length) (hcur : rules[k]? = some cur)
    (hprev : 0 < k → rules[k - 1]? = some prev) {st : Steps} (h : ∀ c, StepsOk rules k st c) (c : Skip) :
    StepsOk rules (k + 1) (skipStep prev cur k st) c := by
  have hother : ∀ (n : Nat) (st : Steps) (i c : Skip), c ≠ i → StepsOk rules n st c →
      StepsOk rules n (if differs cur prev i then setSkipSteps i k (k - st.head i) st else st) c := by
    intro n st i c hc hst
    split_ifs
    · exact setSkipSteps_other hc _ _ hst
    · exact hst
  exact (foldl_criteria (fun st c hst => skipStep_one hk hcur hprev hst)
    (fun st i c hc => ⟨hother k st i c hc, hother (k + 1) st i c hc⟩) Skip.all st (by decide)
    fun c _ => h c).1 c c.mem_all

/-- The last pass gives every rule that is left the step that leads to the end. -/
theorem lastPass_ok {st : Steps} (h : ∀ c, StepsOk rules rules.length st c) (c : Skip) :
    StepsOk rules rules.length
        (Skip.all.foldl (fun st i => setSkipSteps i rules.length (rules.length - st.head i) st) st) c ∧
      (Skip.all.foldl (fun st i => setSkipSteps i rules.length (rules.length - st.head i) st) st).head c
        = rules.length := by
  have hself : ∀ st c, StepsOk rules rules.length st c →
      StepsOk rules rules.length (setSkipSteps c rules.length (rules.length - st.head c) st) c ∧
        (setSkipSteps c rules.length (rules.length - st.head c) st).head c = rules.length :=
    fun st c hst => setSkipSteps_self le_rfl hst
  refine (foldl_criteria (Q := fun st c => StepsOk rules rules.length st c ∧ st.head c = rules.length)
    hself (fun st i c hc => ⟨setSkipSteps_other hc _ _, fun hq => ⟨setSkipSteps_other hc _ _ hq.1, ?_⟩⟩)
    Skip.all st (by decide) fun c _ => h c).1 c c.mem_all
  rw [setSkipSteps_head, if_neg hc]
  exact hq.2

theorem skipLoop_ok (rest : List Rule) : ∀ (prev : Rule) (k : Nat) (st : Steps), rules.drop k = rest →
    k ≤ rules.length → (0 < k → rules[k - 1]? = some prev) → (∀ c, StepsOk rules k st c) →
    ∀ j < rules.length, ∀ c, SkipOk rules c j ((skipLoop prev rest k st).skip j c) := by
  induction rest with
  | nil =>
    intro prev k st hdrop hk _ h j hj c
    obtain rfl : k = rules.length := Nat.le_antisymm hk (List.drop_eq_nil_iff.mp hdrop)
    obtain ⟨⟨-, hok, -⟩, hhead⟩ := lastPass_ok h c
    rw [hhead] at hok
    rw [skipLoop]
    exact hok j hj
  | cons cur rest ih =>
    intro prev k st hdrop hk hprev h
    have hlt : k < rules.length := by
      by_contra hge
      rw [List.drop_eq_nil_of_le (by omega)] at hdrop
      cases hdrop
    have hcur : rules[k]? = some cur := by
      rw [← List.head?_drop, hdrop]
      rfl
    refine ih cur (k + 1) _ ?_ hlt (fun _ => hcur) fun c => skipStep_ok hlt hcur hprev h c
    rw [← List.tail_drop, hdrop]
    rfl

/-- **Skip steps lead to a later rule, over rules that do not differ.** -/
theorem pfCalcSkipSteps_ok (rules : List Rule) : ∀ j < rules.length, ∀ c,
    SkipOk rules c j ((pfCalcSkipSteps rules).skip j c) := by
  cases rules with
  | nil => exact fun j hj => absurd hj (Nat.not_lt_zero j)
  | cons cur rest =>
    refine skipLoop_ok (cur :: rest) cur 0 {} rfl (Nat.zero_le _) (fun h => absurd h (Nat.lt_irrefl 0)) fun c => ?_
    exact ⟨Nat.le_refl 0, fun j hj => absurd hj (Nat.not_lt_zero j), fun m hm1 hm2 => absurd hm2 (Nat.not_lt_zero m)⟩

end

/-! ## Rules that do not differ -/

/-- The address for whatever address family. -/
def AddrWrap.anyAf : AddrWrap → AddrWrap
  | .dyniftl dyn => .dyniftl { dyn with pfidAf := 0#8 }
  | aw => aw

theorem anyAf_of_not_neq {a b : AddrWrap} (h : pfAddrWrapNeq a b = false) : a.anyAf = b.anyAf := by
  cases a <;> cases b <;> simp_all [pfAddrWrapNeq, AddrWrap.anyAf]

/-- Two rules agree in all that the test of a criterion looks at, the address family of
interface addresses aside. -/
def Same (r r' : Rule) : Skip → Prop
  | .ifp => r.kif = r'.kif ∧ r.ifnot = r'.ifnot
  | .dir => r.direction = r'.direction
  | .rdom => r.onrdomain = r'.onrdomain ∧ r.ifnot = r'.ifnot
  | .af => r.af = r'.af
  | .proto => r.proto = r'.proto
  | .srcAddr => r.src.neg = r'.src.neg ∧ r.src.addr.anyAf = r'.src.addr.anyAf
  | .srcPort => r.src.port = r'.src.port ∧ r.src.portOp = r'.src.portOp
  | .dstAddr => r.dst.neg = r'.dst.neg ∧ r.dst.addr.anyAf = r'.dst.addr.anyAf
  | .dstPort => r.dst.port = r'.dst.port ∧ r.dst.portOp = r'.dst.portOp

theorem Same.refl (r : Rule) (c : Skip) : Same r r c := by
  cases c <;> simp [Same]

theorem Same.trans {r r' r'' : Rule} {c : Skip} (h : Same r r' c) (h' : Same r' r'' c) : Same r r'' c := by
  cases c <;> simp_all [Same]

theorem Same.symm {r r' : Rule} {c : Skip} (h : Same r r' c) : Same r' r c := by
  cases c <;> simp_all [Same]

theorem same_of_not_differs {cur prev : Rule} {c : Skip} (h : differs cur prev c = false) : Same cur prev c := by
  cases c with
  | srcAddr | dstAddr =>
    simp only [differs, Bool.or_eq_false_iff, bne_eq_false_iff_eq] at h
    exact ⟨h.1, anyAf_of_not_neq h.2⟩
  | srcPort | dstPort =>
    simp only [differs, Bool.or_eq_false_iff, bne_eq_false_iff_eq] at h
    exact ⟨Prod.ext h.1.1 h.1.2, h.2⟩
  | ifp | rdom =>
    simp only [differs, Bool.or_eq_false_iff, bne_eq_false_iff_eq] at h
    exact h
  | dir | af | proto =>
    simp only [differs, bne_eq_false_iff_eq] at h
    exact h

section
variable {σ : Type} (w : World σ) (pkt : Packet)

/-- Where the address family of a rule allows for the packet, an interface address is what it
would be for any. -/
theorem pfMismatchaw_anyAf {aw : AddrWrap} {raf : Af} (hdyn : aw.dynOf raf = true) {af : Af}
    (haf : raf = 0#8 ∨ raf = af) (x : PfAddr) (neg : Bool) (ifp : Option Nat) (rtid : Int) :
    pfMismatchaw w aw x af neg ifp rtid = pfMismatchaw w aw.anyAf x af neg ifp rtid := by
  cases aw with
  | dyniftl dyn =>
    have hd : dyn.pfidAf = raf := by simpa [AddrWrap.dynOf] using hdyn
    rw [← hd] at haf
    simp [pfMismatchaw, AddrWrap.anyAf, pfiMatchAddr, haf]
  | _ => rfl

variable {r r' : Rule} {s : Eval σ}

theorem not_fails_af (h : fails w pkt r s .af = false) : r.af = 0#8 ∨ r.af = pkt.af := by
  simp only [fails, Bool.and_eq_false_iff, bne_eq_false_iff_eq] at h
  exact h

/-- The tests that look at addresses. -/
def Skip.isAddr (c : Skip) : Bool := c == .srcAddr || c == .dstAddr

theorem fails_congr {c : Skip} (h : Same r r' c)
    (haf : c.isAddr = true → (r.af = 0#8 ∨ r.af = pkt.af) ∧ (r'.af = 0#8 ∨ r'.af = pkt.af)) :
    fails w pkt r s c = fails w pkt r' s c := by
  cases c with
  | srcAddr =>
    obtain ⟨hr, hr'⟩ := haf rfl
    unfold fails
    rw [pfMismatchaw_anyAf w r.src_dyn hr, pfMismatchaw_anyAf w r'.src_dyn hr', h.1, h.2]
  | dstAddr =>
    obtain ⟨hr, hr'⟩ := haf rfl
    unfold fails
    rw [pfMismatchaw_anyAf w r.dst_dyn hr, pfMismatchaw_anyAf w r'.dst_dyn hr', h.1, h.2]
  | ifp | rdom | srcPort | dstPort => simp only [fails, h.1, h.2]
  | dir | af | proto =>
    unfold Same at h
    simp only [fails, h]

/-- The address family is tested before the addresses. -/
theorem not_fails_af_of_addr {c : Skip} (hfail : firstFail w pkt r s = some c) (hc : c.isAddr = true) :
    fails w pkt r s .af = false := by
  by_contra haf
  rw [Bool.not_eq_false] at haf
  simp only [firstFail, Skip.all, List.find?_cons, haf] at hfail
  cases h0 : fails w pkt r s .ifp <;> simp only [h0] at hfail
  · cases h1 : fails w pkt r s .dir <;> simp only [h1] at hfail
    · cases h2 : fails w pkt r s .rdom <;> simp only [h2] at hfail
      all_goals
        obtain rfl := Option.some.inj hfail
        cases hc
    · obtain rfl := Option.some.inj hfail
      cases hc
  · obtain rfl := Option.some.inj hfail
    cases hc

/-- A rule that agrees with one in the criterion that one fails does not match either. -/
theorem firstFail_of_same {c : Skip} (hfail : firstFail w pkt r s = some c) (h : Same r r' c) :
    ∃ c', firstFail w pkt r' s = some c' := by
  have hc : fails w pkt r s c = true := List.find?_some hfail
  suffices hex : ∃ c' ∈ Skip.all, fails w pkt r' s c' = true from
    Option.isSome_iff_exists.mp (List.find?_isSome.mpr hex)
  by_cases hr' : fails w pkt r' s .af = true
  · exact ⟨.af, by decide, hr'⟩
  · refine ⟨c, c.mem_all, ?_⟩
    rw [← fails_congr w pkt h]
    · exact hc
    · intro haddr
      exact ⟨not_fails_af w pkt (not_fails_af_of_addr w pkt hfail haddr),
        not_fails_af w pkt (Bool.eq_false_iff.mpr hr')⟩

/-- Along a skip step all rules agree in its criterion. -/
theorem same_skipped {rules : List Rule} {c : Skip} {j t : Nat} (hskip : SkipOk rules c j t) {r : Rule}
    (hr : rules[j]? = some r) (n : Nat) : ∀ {r'}, j + n < t → rules[j + n]? = some r' → Same r r' c := by
  induction n with
  | zero =>
    intro r' _ hr'
    obtain rfl : r = r' := Option.some.inj (hr.symm.trans hr')
    exact .refl r c
  | succ n ih =>
    intro r' hlt hr'
    have hlen : j + n < rules.length := by
      have := hskip.2.1
      omega
    have hprev : rules[j + n]? = some rules[j + n] := List.getElem?_eq_getElem hlen
    have hsame := same_of_not_differs (hskip.2.2 (j + (n + 1)) (by omega) hlt r' _ hr' hprev)
    exact (ih (by omega) hprev).trans hsame.symm

end

end Obsd.Pf
