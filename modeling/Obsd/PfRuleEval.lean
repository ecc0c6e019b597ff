import Obsd.PfSkip

/-!
# Evaluation with and without skip steps

The loop ends: every iteration lowers a cost that counts the rules still to
come, those of anchors included, down to the depth of the stack
(`evalLoop_ends`). Where the loop with skip steps jumps, the loop that
tests every rule goes through rules that all fail and changes nothing but
its place (`evalLoop_catchUp`), so both come to the same end
(`pfTestRule_skip`).
-/

namespace Obsd.Pf

section
variable {σ : Type} (w : World σ) (cfg : Config) (pkt : Packet)

/-! ## Cost -/

/-- What one rule adds to the cost of a list. -/
def ruleCost : (k : Nat) → Rule → Nat
  | 0, _ => 1
  | k + 1, r =>
    match r.anchor with
    | none => 1
    | some a =>
      if r.anchorWildcard then
        2 + ((cfg.anchors a).children.map fun c => 1 + listCost cfg k (cfg.rules (cfg.anchors c).ruleset)).sum
      else 2 + listCost cfg k (cfg.rules (cfg.anchors a).ruleset)

theorem listCost_eq (k : Nat) (rules : List Rule) : listCost cfg k rules = (rules.map (ruleCost cfg k)).sum := by
  cases k with
  | zero =>
    have hone : ruleCost cfg 0 = fun _ => 1 := rfl
    simp [listCost, hone]
  | succ k => rfl

theorem ruleCost_pos (k : Nat) (r : Rule) : 0 < ruleCost cfg k r := by
  cases k with
  | zero => exact Nat.one_pos
  | succ k =>
    rw [ruleCost]
    split
    · exact Nat.one_pos
    · split_ifs <;> omega

theorem listCost_drop_le (k n : Nat) (rules : List Rule) : listCost cfg k (rules.drop n) ≤ listCost cfg k rules := by
  rw [listCost_eq, listCost_eq, List.map_drop, ← List.sum_take_add_sum_drop (rules.map (ruleCost cfg k)) n]
  omega

theorem listCost_drop_mono (k : Nat) {i t : Nat} (h : i ≤ t) (rules : List Rule) :
    listCost cfg k (rules.drop t) ≤ listCost cfg k (rules.drop i) := by
  obtain ⟨n, rfl⟩ : ∃ n, t = i + n := ⟨t - i, by omega⟩
  rw [← List.drop_drop]
  exact listCost_drop_le cfg k n _

theorem listCost_drop_eq (k : Nat) {i : Nat} {rules : List Rule} {r : Rule} (hr : rules[i]? = some r) :
    listCost cfg k (rules.drop i) = ruleCost cfg k r + listCost cfg k (rules.drop (i + 1)) := by
  obtain ⟨hi, rfl⟩ := List.getElem?_eq_some_iff.mp hr
  rw [List.drop_eq_getElem_cons hi, listCost_eq, listCost_eq, List.map_cons, List.sum_cons]

/-- The rules that are left at depth `d`. -/
def ptrCost (d : Nat) : Option RulePtr → Nat
  | none => 0
  | some p => listCost cfg (stackLimit - d) ((cfg.rules p.1).drop p.2)

theorem ptrCost_ptr (d rs i : Nat) :
    ptrCost cfg d (cfg.ptr rs i) = listCost cfg (stackLimit - d) ((cfg.rules rs).drop i) := by
  unfold Config.ptr
  split_ifs with hi
  · rfl
  · rw [List.drop_eq_nil_of_le (by omega), listCost_eq]
    rfl

theorem ptrCost_first (d rs : Nat) : ptrCost cfg d (cfg.first rs) = listCost cfg (stackLimit - d) (cfg.rules rs) :=
  ptrCost_ptr cfg d rs 0

/-- What is left to do in the callers. -/
def stackCost : List Frame → Nat
  | [] => 0
  | f :: fs =>
    1 + (f.rest.map fun c => 1 + listCost cfg (stackLimit - (fs.length + 1)) (cfg.rules (cfg.anchors c).ruleset)).sum
      + listCost cfg (stackLimit - fs.length) ((cfg.rules f.r.1).drop (f.r.2 + 1)) + stackCost fs

def cost (s : Eval σ) : Nat := stackCost cfg s.stack + ptrCost cfg s.stack.length s.r

/-- The place is in its list. -/
def Valid (s : Eval σ) : Prop := ∀ p, s.r = some p → p.2 < (cfg.rules p.1).length

theorem valid_ptr {rs i : Nat} {p : RulePtr} (h : cfg.ptr rs i = some p) : p.2 < (cfg.rules p.1).length := by
  unfold Config.ptr at h
  split_ifs at h with hi
  obtain rfl := Option.some.inj h
  exact hi

/-! ## Leaving anchors -/

theorem popFrame_ok (s : Eval σ) (f : Frame) (fs : List Frame) (quick : Bool) :
    cost cfg (popFrame w cfg s f fs quick).1 + 1 ≤ stackCost cfg (f :: fs) ∧ Valid cfg (popFrame w cfg s f fs quick).1
      ∧ stackSize (popFrame w cfg s f fs quick).1.stack < stackSize (f :: fs) := by
  refine ⟨?_, fun p hp => valid_ptr cfg hp, ?_⟩
  · show stackCost cfg fs + ptrCost cfg fs.length (cfg.ptr f.r.1 (f.r.2 + 1)) + 1 ≤ _
    rw [ptrCost_ptr, stackCost]
    omega
  · show stackSize fs < _
    simp only [stackSize, List.map_cons, List.sum_cons]
    omega

theorem stepOutBody_ok (s : Eval σ) (f : Frame) (fs : List Frame) (quick : Bool) :
    cost cfg (stepOutBody w cfg s f fs quick).1 + 1 ≤ stackCost cfg (f :: fs)
      ∧ Valid cfg (stepOutBody w cfg s f fs quick).1
      ∧ stackSize (stepOutBody w cfg s f fs quick).1.stack < stackSize (f :: fs) := by
  unfold stepOutBody
  cases f.child with
  | none => exact popFrame_ok w cfg s f fs quick
  | some child =>
    cases hrest : f.rest with
    | nil => exact popFrame_ok w cfg _ f fs quick
    | cons child rest =>
      refine ⟨?_, fun p hp => valid_ptr cfg hp, ?_⟩
      · show stackCost cfg ({ f with child := some child, rest := rest } :: fs)
          + ptrCost cfg (fs.length + 1) (cfg.first (cfg.anchors child).ruleset) + 1 ≤ _
        rw [ptrCost_first, stackCost, stackCost, hrest, List.map_cons, List.sum_cons]
        dsimp only
        omega
      · simp only [stackSize, List.map_cons, List.sum_cons, hrest, List.length_cons]
        omega

theorem stepOutLoop_ok (fuel : Nat) : ∀ (s : Eval σ) (quick : Bool), s.r = none → stackSize s.stack ≤ fuel →
    cost cfg (stepOutLoop w cfg fuel s quick).1 ≤ stackCost cfg s.stack
      ∧ Valid cfg (stepOutLoop w cfg fuel s quick).1
      ∧ ((stepOutLoop w cfg fuel s quick).1.r = none → (stepOutLoop w cfg fuel s quick).1.stack = []) := by
  induction fuel with
  | zero =>
    intro s quick hr hsize
    refine ⟨?_, fun p hp => ?_, fun _ => ?_⟩
    · show stackCost cfg s.stack + ptrCost cfg s.stack.length s.r ≤ _
      rw [hr]
      exact le_rfl
    · have hp' : s.r = some p := hp
      rw [hr] at hp'
      cases hp'
    · show s.stack = []
      cases hstack : s.stack with
      | nil => rfl
      | cons f fs =>
        rw [hstack] at hsize
        simp only [stackSize, List.map_cons, List.sum_cons] at hsize
        omega
  | succ fuel ih =>
    intro s quick hr hsize
    unfold stepOutLoop
    cases hstack : s.stack with
    | nil =>
      refine ⟨?_, fun p hp => ?_, fun _ => hstack⟩
      · show stackCost cfg s.stack + ptrCost cfg s.stack.length s.r ≤ _
        rw [hr, hstack]
        exact le_rfl
      · have hp' : s.r = some p := hp
        rw [hr] at hp'
        cases hp'
    | cons f fs =>
      obtain ⟨hcost, hvalid, hsmaller⟩ := stepOutBody_ok w cfg s f fs quick
      rw [hstack] at hsize
      simp only
      split_ifs with hnone
      · obtain ⟨hcost', hrest⟩ := ih (stepOutBody w cfg s f fs quick).1 (stepOutBody w cfg s f fs quick).2 hnone (by omega)
        refine ⟨?_, hrest⟩
        have hle : stackCost cfg (stepOutBody w cfg s f fs quick).1.stack
            ≤ cost cfg (stepOutBody w cfg s f fs quick).1 := Nat.le_add_right _ _
        omega
      · exact ⟨Nat.le_of_succ_le hcost, hvalid, fun h => absurd h hnone⟩

/-- Back from an anchor there is a rule to go on with, or nothing is left. -/
theorem pfStepOutOfAnchor_ok (s : Eval σ) (hr : s.r = none) :
    cost cfg (pfStepOutOfAnchor w cfg s).1 ≤ cost cfg s ∧ Valid cfg (pfStepOutOfAnchor w cfg s).1
      ∧ ((pfStepOutOfAnchor w cfg s).1.r = none → (pfStepOutOfAnchor w cfg s).1.stack = []) := by
  obtain ⟨hcost, hrest⟩ := stepOutLoop_ok w cfg (stackSize s.stack) s false hr le_rfl
  exact ⟨Nat.le_trans hcost (Nat.le_add_right _ _), hrest⟩

/-- The end of an iteration. -/
theorem leave_ok {s s' : Eval σ} (hvalid : Valid cfg s) (h : leave w cfg s = .go s') :
    cost cfg s' ≤ cost cfg s ∧ Valid cfg s' := by
  unfold leave at h
  cases hr : s.r with
  | some p =>
    rw [hr] at h
    obtain rfl := Next.go.inj h
    exact ⟨le_rfl, hvalid⟩
  | none =>
    rw [hr] at h
    simp only at h
    split_ifs at h
    obtain rfl := Next.go.inj h
    obtain ⟨hcost, hvalid', -⟩ := pfStepOutOfAnchor_ok w cfg s hr
    exact ⟨hcost, hvalid'⟩

/-! ## One iteration -/

theorem lookup_stack (s : Eval σ) : (lookup w s).stack = s.stack := by
  unfold lookup
  split_ifs <;> rfl

theorem pfMatchTag_stack (r : Rule) (s : Eval σ) : (pfMatchTag pkt r s).2.stack = s.stack := by
  unfold pfMatchTag
  split_ifs <;> rfl

theorem lookupTests_stack (r : Rule) (s : Eval σ) : (lookupTests w pkt r s).2.stack = s.stack := by
  have hlookup : ∀ (op : Op) (s : Eval σ), (if op ≠ .none then lookup w s else s).stack = s.stack := by
    intro op s
    split_ifs
    · exact lookup_stack w s
    · rfl
  have hrandom : ∀ s : Eval σ, (if r.prob ≠ 0#32 then { s with randoms := s.randoms + 1 } else s).stack = s.stack := by
    intro s
    split_ifs <;> rfl
  have htag : ∀ s : Eval σ, (if r.matchTag ≠ 0#16 then pfMatchTag pkt r s else (true, s)).2.stack = s.stack := by
    intro s
    split_ifs
    · exact pfMatchTag_stack pkt r s
    · rfl
  unfold lookupTests
  extract_lets s1 s2 n s3
  have h1 : s1.stack = s.stack := hlookup _ s
  have h2 : s2.stack = s.stack := (hlookup _ s1).trans h1
  have h3 : s3.stack = s.stack := (hrandom s2).trans h2
  have h4 := (htag s3).trans h3
  by_cases huid : r.uid.1 ≠ .none ∧ ¬pfMatchId r.uid.1 r.uid.2.1 r.uid.2.2 s1.pd.lookup.uid
  · rw [if_pos huid]
    exact h1
  rw [if_neg huid]
  by_cases hgid : r.gid.1 ≠ .none ∧ ¬pfMatchId r.gid.1 r.gid.2.1 r.gid.2.2 s2.pd.lookup.gid
  · rw [if_pos hgid]
    exact h2
  rw [if_neg hgid]
  by_cases hprob : r.prob ≠ 0#32 ∧ r.prob.toNat ≤ (w.random n).toNat
  · rw [if_pos hprob]
    exact h3
  generalize (if r.matchTag ≠ 0#16 then pfMatchTag pkt r s3 else (true, s3)) = x at h4
  obtain ⟨tagged, s4⟩ := x
  dsimp only at h4 ⊢
  split_ifs <;> exact h4

theorem restTests_stack (r : Rule) (s : Eval σ) : (restTests w pkt r s).2.stack = s.stack := by
  unfold restTests
  split_ifs <;> first | rfl | exact lookupTests_stack w pkt r s

section
variable {s : Eval σ} {p : RulePtr} {r : Rule} (hr : (cfg.rules p.1)[p.2]? = some r)
include hr

/-- What the rules from `p` on cost, with the stack of `s`. -/
theorem cost_at (hp : s.r = some p) : cost cfg s = stackCost cfg s.stack
    + (ruleCost cfg (stackLimit - s.stack.length) r
      + listCost cfg (stackLimit - s.stack.length) ((cfg.rules p.1).drop (p.2 + 1))) := by
  unfold cost
  rw [hp, ptrCost, listCost_drop_eq cfg _ hr]

/-- Going on at a later rule. -/
theorem cost_ptr_lt (hp : s.r = some p) {t : Nat} (ht : p.2 < t) {s' : Eval σ} (hstack : s'.stack = s.stack)
    (hr' : s'.r = cfg.ptr p.1 t) : cost cfg s' < cost cfg s := by
  rw [cost_at cfg hr hp, cost, hstack, hr', ptrCost_ptr]
  have hpos := ruleCost_pos cfg (stackLimit - s.stack.length) r
  have hle := listCost_drop_mono cfg (stackLimit - s.stack.length) (show p.2 + 1 ≤ t from ht) (cfg.rules p.1)
  omega

/-- Going on in an anchor. -/
theorem pfStepIntoAnchor_ok (hp : s.r = some p) {anchor : Nat} (hanchor : r.anchor = some anchor) {s' : Eval σ}
    (hstack : s'.stack = s.stack) :
    cost cfg (pfStepIntoAnchor cfg s' p r.anchorWildcard anchor) < cost cfg s
      ∧ Valid cfg (pfStepIntoAnchor cfg s' p r.anchorWildcard anchor) := by
  rw [cost_at cfg hr hp]
  unfold pfStepIntoAnchor
  extract_lets s1 s2 f rs
  have hs1 : s1.stack = s.stack := hstack
  have hs2 : s2.stack = s.stack := by
    show (if s1.stack.length = 0 then { s1 with a := some p } else s1).stack = s.stack
    split_ifs <;> exact hs1
  have hpos := ruleCost_pos cfg (stackLimit - s.stack.length) r
  by_cases hfull : s1.stack.length ≥ stackLimit
  · rw [if_pos hfull]
    refine ⟨?_, fun q hq => valid_ptr cfg hq⟩
    show stackCost cfg s1.stack + ptrCost cfg s1.stack.length (cfg.ptr p.1 (p.2 + 1)) < _
    rw [hs1, ptrCost_ptr]
    omega
  rw [if_neg hfull]
  rw [hs1] at hfull
  obtain ⟨k, hk⟩ : ∃ k, stackLimit - s.stack.length = k + 1 := ⟨stackLimit - s.stack.length - 1, by omega⟩
  have hk' : stackLimit - (s.stack.length + 1) = k := by omega
  have hrule : ruleCost cfg (k + 1) r = if r.anchorWildcard then
      2 + ((cfg.anchors anchor).children.map fun c => 1 + listCost cfg k (cfg.rules (cfg.anchors c).ruleset)).sum
      else 2 + listCost cfg k (cfg.rules (cfg.anchors anchor).ruleset) := by
    rw [ruleCost, hanchor]
  rw [hk, hrule]
  -- the frame costs one more than what is left for the caller
  have hframe : ∀ g : Frame, g.r = p → stackCost cfg (g :: s.stack) = 1
      + (g.rest.map fun c => 1 + listCost cfg k (cfg.rules (cfg.anchors c).ruleset)).sum
      + listCost cfg (k + 1) ((cfg.rules p.1).drop (p.2 + 1)) + stackCost cfg s.stack := by
    rintro g rfl
    rw [stackCost, hk', hk]
  by_cases hwild : r.anchorWildcard = true
  · rw [if_pos hwild, if_pos hwild]
    cases hchildren : (cfg.anchors anchor).children with
    | nil =>
      refine ⟨?_, nofun⟩
      show stackCost cfg (f :: s2.stack) + 0 < _
      rw [hs2, hframe f rfl]
      show 1 + 0 + _ + _ + 0 < _
      omega
    | cons child rest =>
      refine ⟨?_, fun q hq => valid_ptr cfg hq⟩
      show stackCost cfg ({ f with child := some child, rest := rest } :: s2.stack)
        + ptrCost cfg (s2.stack.length + 1) (cfg.first (cfg.anchors child).ruleset) < _
      rw [hs2, hframe _ rfl, ptrCost_first, hk', List.map_cons, List.sum_cons]
      dsimp only
      omega
  · rw [if_neg hwild, if_neg hwild]
    refine ⟨?_, fun q hq => valid_ptr cfg hq⟩
    show stackCost cfg (f :: s2.stack) + ptrCost cfg (s2.stack.length + 1) (cfg.first (cfg.anchors anchor).ruleset) < _
    rw [hs2, hframe f rfl, ptrCost_first, hk']
    show 1 + 0 + _ + _ + _ < _
    omega

/-- A rule that matches. -/
theorem applyRule_ok (hp : s.r = some p) {s1 s' : Eval σ} (hstack : s1.stack = s.stack)
    (h : applyRule w cfg p r s1 = .go s') : cost cfg s' < cost cfg s ∧ Valid cfg s' := by
  have hnext : ∀ {s2 s' : Eval σ}, s2.stack = s.stack → leave w cfg { s2 with r := cfg.next p } = .go s' →
      cost cfg s' < cost cfg s ∧ Valid cfg s' := by
    intro s2 s' hs2 hleave
    obtain ⟨hcost, hvalid⟩ := leave_ok w cfg (fun q hq => valid_ptr cfg hq) hleave
    have hlt : cost cfg { s2 with r := cfg.next p } < cost cfg s :=
      cost_ptr_lt cfg hr hp (Nat.lt_succ_self p.2) hs2 rfl
    exact ⟨Nat.lt_of_le_of_lt hcost hlt, hvalid⟩
  unfold applyRule at h
  extract_lets s2 finish n s3 s4 at h
  have hfinish : ∀ {s2 s' : Eval σ}, s2.stack = s.stack → finish s2 = .go s' →
      cost cfg s' < cost cfg s ∧ Valid cfg s' := by
    intro s2 s' hs2 hfin
    simp only [finish] at hfin
    split_ifs at hfin
    exact hnext hs2 hfin
  clear_value finish
  have hs2 : s2.stack = s.stack := by
    show (if r.tag ≠ 0#16 then { s1 with tag := r.tag.toNat } else s1).stack = s.stack
    split_ifs <;> exact hstack
  cases hanchor : r.anchor with
  | some anchor =>
    rw [hanchor] at h
    obtain ⟨hlt, hvalid⟩ := pfStepIntoAnchor_ok cfg hr hp hanchor hs2
    obtain ⟨hcost, hvalid'⟩ := leave_ok w cfg hvalid h
    exact ⟨Nat.lt_of_le_of_lt hcost hlt, hvalid'⟩
  | none =>
    rw [hanchor] at h
    by_cases hmatch : r.isMatch = true
    · rw [if_pos hmatch] at h
      by_cases hpool : w.poolGet n = true
      · rw [if_pos hpool] at h
        cases htrans : w.pfGetTransaddr r s4.pd s4.sns with
        | none =>
          rw [htrans] at h
          cases h
        | some x =>
          rw [htrans] at h
          refine hfinish ?_ h
          exact hs2
      · rw [if_neg hpool] at h
        cases h
    · rw [if_neg hmatch] at h
      refine hfinish ?_ h
      exact hs2

/-- Where a test with a skip step leads on is a later rule. -/
def Forward (cfg : Config) (follow : RulePtr → Skip → Option RulePtr) : Prop :=
  ∀ p c, p.2 < (cfg.rules p.1).length → ∃ t, p.2 < t ∧ follow p c = cfg.ptr p.1 t

theorem evalRule_ok {follow : RulePtr → Skip → Option RulePtr} (hf : Forward cfg follow) (hp : s.r = some p)
    {s' : Eval σ} (h : evalRule w cfg pkt follow p s = .go s') : cost cfg s' < cost cfg s ∧ Valid cfg s' := by
  have hrule : cfg.rule w p = r := by
    unfold Config.rule
    rw [hr]
    rfl
  have hp2 : p.2 < (cfg.rules p.1).length := (List.getElem?_eq_some_iff.mp hr).1
  have hlater : ∀ {s1 s' : Eval σ} {t : Nat}, p.2 < t → s1.stack = s.stack →
      leave w cfg { s1 with r := cfg.ptr p.1 t } = .go s' → cost cfg s' < cost cfg s ∧ Valid cfg s' := by
    intro s1 s' t ht hs1 hleave
    obtain ⟨hcost, hvalid⟩ := leave_ok w cfg (fun q hq => valid_ptr cfg hq) hleave
    have hlt : cost cfg { s1 with r := cfg.ptr p.1 t } < cost cfg s := cost_ptr_lt cfg hr hp ht hs1 rfl
    exact ⟨Nat.lt_of_le_of_lt hcost hlt, hvalid⟩
  unfold evalRule at h
  simp only [hrule] at h
  cases hfail : firstFail w pkt r s with
  | some c =>
    obtain ⟨t, ht, hfollow⟩ := hf p c hp2
    rw [hfail] at h
    simp only [hfollow] at h
    exact hlater ht rfl h
  | none =>
    rw [hfail] at h
    have hstack := restTests_stack w pkt r s
    cases hrest : restTests w pkt r s with
    | mk ok s1 =>
      rw [hrest] at h hstack
      cases ok with
      | false => exact hlater (Nat.lt_succ_self p.2) hstack h
      | true => exact applyRule_ok w cfg hr hp hstack h

end

/-! ## The loop -/

/-- What the loop does with the result of an iteration. -/
def after (follow : RulePtr → Skip → Option RulePtr) (fuel : Nat) : Next σ → Option (Result σ)
  | .go s => evalLoop w cfg pkt follow fuel s
  | .stop s => some (.done s)
  | .cleanup s => some (.cleanup s)

theorem evalLoop_succ (follow : RulePtr → Skip → Option RulePtr) (fuel : Nat) {s : Eval σ} {p : RulePtr}
    (hp : s.r = some p) :
    evalLoop w cfg pkt follow (fuel + 1) s = after w cfg pkt follow fuel (evalRule w cfg pkt follow p s) := by
  rw [evalLoop, hp]
  dsimp only
  cases evalRule w cfg pkt follow p s <;> rfl

theorem evalLoop_none (follow : RulePtr → Skip → Option RulePtr) (fuel : Nat) {s : Eval σ} (hp : s.r = none) :
    evalLoop w cfg pkt follow (fuel + 1) s = some (.done s) := by
  rw [evalLoop, hp]

theorem exists_rule {s : Eval σ} (hvalid : Valid cfg s) {p : RulePtr} (hp : s.r = some p) :
    ∃ r, (cfg.rules p.1)[p.2]? = some r :=
  ⟨_, List.getElem?_eq_getElem (hvalid p hp)⟩

/-- **The loop ends**, within as many iterations as there are rules to come. -/
theorem evalLoop_ends {follow : RulePtr → Skip → Option RulePtr} (hf : Forward cfg follow) (fuel : Nat) :
    ∀ s : Eval σ, Valid cfg s → cost cfg s < fuel → ∃ res, evalLoop w cfg pkt follow fuel s = some res := by
  induction fuel with
  | zero =>
    intro s _ hlt
    omega
  | succ fuel ih =>
    intro s hvalid hlt
    cases hp : s.r with
    | none => exact ⟨_, evalLoop_none w cfg pkt follow fuel hp⟩
    | some p =>
      obtain ⟨r, hr⟩ := exists_rule cfg hvalid hp
      rw [evalLoop_succ w cfg pkt follow fuel hp]
      cases hnext : evalRule w cfg pkt follow p s with
      | go s' =>
        obtain ⟨hcost, hvalid'⟩ := evalRule_ok w cfg pkt hr hf hp hnext
        exact ih s' hvalid' (by omega)
      | stop s' => exact ⟨_, rfl⟩
      | cleanup s' => exact ⟨_, rfl⟩

/-- More fuel does not change the result. -/
theorem evalLoop_mono {follow : RulePtr → Skip → Option RulePtr} {res : Result σ} (fuel : Nat) :
    ∀ (s : Eval σ) (fuel' : Nat), fuel ≤ fuel' → evalLoop w cfg pkt follow fuel s = some res →
      evalLoop w cfg pkt follow fuel' s = some res := by
  induction fuel with
  | zero => exact fun s fuel' _ h => nomatch h
  | succ fuel ih =>
    intro s fuel' hle h
    obtain ⟨n, rfl⟩ : ∃ n, fuel' = n + 1 := ⟨fuel' - 1, by omega⟩
    cases hp : s.r with
    | none =>
      rw [evalLoop_none w cfg pkt follow fuel hp] at h
      rw [evalLoop_none w cfg pkt follow n hp, h]
    | some p =>
      rw [evalLoop_succ w cfg pkt follow fuel hp] at h
      rw [evalLoop_succ w cfg pkt follow n hp]
      cases hnext : evalRule w cfg pkt follow p s with
      | go s' =>
        rw [hnext] at h
        exact ih s' n (by omega) h
      | stop s' =>
        rw [hnext] at h
        exact h
      | cleanup s' =>
        rw [hnext] at h
        exact h

/-! ## Both loops -/

/-- Testing every rule one after another. -/
def plain (cfg : Config) (p : RulePtr) (_ : Skip) : Option RulePtr := cfg.next p

theorem forward_plain : Forward cfg (plain cfg) := fun p _ _ => ⟨p.2 + 1, Nat.lt_succ_self _, rfl⟩

theorem forward_skip : Forward cfg cfg.skip := fun p c hp =>
  ⟨_, (pfCalcSkipSteps_ok (cfg.rules p.1) p.2 hp c).1, rfl⟩

theorem rule_eq {rs i : Nat} {r : Rule} (hr : (cfg.rules rs)[i]? = some r) : cfg.rule w (rs, i) = r := by
  unfold Config.rule
  rw [hr]
  rfl

/-- Over rules that all fail the plain loop changes nothing but its place. -/
theorem evalLoop_catchUp (n rs : Nat) (s : Eval σ) (d : Nat) : ∀ j, j + d + 1 ≤ (cfg.rules rs).length →
    (∀ k, j ≤ k → k < j + d + 1 → ∃ c, firstFail w pkt (cfg.rule w (rs, k)) s = some c) →
    evalLoop w cfg pkt (plain cfg) (n + (d + 1)) { s with r := some (rs, j) }
      = after w cfg pkt (plain cfg) n (leave w cfg { s with r := cfg.ptr rs (j + d + 1) }) := by
  -- one iteration
  have hone : ∀ j, (∃ c, firstFail w pkt (cfg.rule w (rs, j)) s = some c) →
      evalRule w cfg pkt (plain cfg) (rs, j) { s with r := some (rs, j) }
        = leave w cfg { s with r := cfg.ptr rs (j + 1) } := by
    rintro j ⟨c, hc⟩
    have hc' : firstFail w pkt (cfg.rule w (rs, j)) { s with r := some (rs, j) } = some c := hc
    unfold evalRule
    simp only [hc']
    rfl
  induction d with
  | zero =>
    intro j _ hfail
    rw [evalLoop_succ w cfg pkt (plain cfg) n rfl, hone j (hfail j (Nat.le_refl j) (by omega))]
  | succ d ih =>
    intro j hlen hfail
    have hptr : cfg.ptr rs (j + 1) = some (rs, j + 1) := if_pos (by omega)
    rw [show n + (d + 1 + 1) = (n + (d + 1)) + 1 by omega, evalLoop_succ w cfg pkt (plain cfg) _ rfl,
      hone j (hfail j (Nat.le_refl j) (by omega)), hptr]
    show evalLoop w cfg pkt (plain cfg) (n + (d + 1)) { s with r := some (rs, j + 1) } = _
    rw [ih (j + 1) (by omega) fun k hk1 hk2 => hfail k (by omega) (by omega)]
    rw [show j + 1 + d + 1 = j + (d + 1) + 1 by omega]

/-- What the loop with skip steps comes to, the plain loop comes to as well. -/
theorem evalLoop_plain {res : Result σ} (fuel : Nat) : ∀ s : Eval σ, Valid cfg s →
    evalLoop w cfg pkt cfg.skip fuel s = some res → ∃ n, evalLoop w cfg pkt (plain cfg) n s = some res := by
  induction fuel with
  | zero => exact fun s _ h => nomatch h
  | succ fuel ih =>
    intro s hvalid h
    cases hp : s.r with
    | none =>
      rw [evalLoop_none w cfg pkt _ fuel hp] at h
      exact ⟨1, (evalLoop_none w cfg pkt _ 0 hp).trans h⟩
    | some p =>
      obtain ⟨r, hr⟩ := exists_rule cfg hvalid hp
      rw [evalLoop_succ w cfg pkt _ fuel hp] at h
      -- the rest of the plain loop after the same iteration
      have hafter : ∀ x, (∀ s', x = .go s' → Valid cfg s') → after w cfg pkt cfg.skip fuel x = some res →
          ∃ n, after w cfg pkt (plain cfg) n x = some res := by
        intro x hx hres
        cases x with
        | go s' => exact ih s' (hx s' rfl) hres
        | stop s' => exact ⟨0, hres⟩
        | cleanup s' => exact ⟨0, hres⟩
      have hvalid' : ∀ s', evalRule w cfg pkt cfg.skip p s = .go s' → Valid cfg s' :=
        fun s' hs' => (evalRule_ok w cfg pkt hr (forward_skip cfg) hp hs').2
      obtain ⟨n, hn⟩ := hafter _ hvalid' h
      cases hfail : firstFail w pkt (cfg.rule w p) s with
      | none =>
        have hsame : evalRule w cfg pkt (plain cfg) p s = evalRule w cfg pkt cfg.skip p s := by
          unfold evalRule
          simp only [hfail]
        exact ⟨n + 1, by rw [evalLoop_succ w cfg pkt _ n hp, hsame, hn]⟩
      | some c =>
        obtain ⟨rs, j⟩ := p
        have hskip := pfCalcSkipSteps_ok (cfg.rules rs) j (hvalid _ hp) c
        generalize ht : (pfCalcSkipSteps (cfg.rules rs)).skip j c = t at hskip
        have hjump : evalRule w cfg pkt cfg.skip (rs, j) s = leave w cfg { s with r := cfg.ptr rs t } := by
          unfold evalRule
          simp only [hfail, Config.skip, ht]
        rw [hjump] at hn
        obtain ⟨d, rfl⟩ : ∃ d, t = j + d + 1 := ⟨t - j - 1, by have := hskip.1; omega⟩
        refine ⟨n + (d + 1), ?_⟩
        have hs : s = { s with r := some (rs, j) } := by rw [← hp]
        rw [hs, evalLoop_catchUp w cfg pkt n rs s d j hskip.2.1, hn]
        intro k hk1 hk2
        obtain ⟨m, rfl⟩ : ∃ m, k = j + m := ⟨k - j, by omega⟩
        have hlen : j + m < (cfg.rules rs).length := by
          have := hskip.2.1
          omega
        have hr' : (cfg.rules rs)[j + m]? = some (cfg.rules rs)[j + m] := List.getElem?_eq_getElem hlen
        rw [rule_eq w cfg hr] at hfail
        rw [rule_eq w cfg hr']
        exact firstFail_of_same w pkt hfail (same_skipped hskip hr m hk2 hr')

/-- From the same state both loops come to the same end. -/
theorem evalLoop_skip {s : Eval σ} (hvalid : Valid cfg s) {fuel : Nat} (hfuel : cost cfg s < fuel) :
    ∃ res, evalLoop w cfg pkt cfg.skip fuel s = some res ∧ evalLoop w cfg pkt (plain cfg) fuel s = some res := by
  obtain ⟨res, hres⟩ := evalLoop_ends w cfg pkt (forward_skip cfg) fuel s hvalid hfuel
  obtain ⟨res', hres'⟩ := evalLoop_ends w cfg pkt (forward_plain cfg) fuel s hvalid hfuel
  obtain ⟨n, hn⟩ := evalLoop_plain w cfg pkt fuel s hvalid hres
  have hmax := evalLoop_mono w cfg pkt n s (max n fuel) (Nat.le_max_left _ _) hn
  have hmax' := evalLoop_mono w cfg pkt fuel s (max n fuel) (Nat.le_max_right _ _) hres'
  obtain rfl : res = res' := Option.some.inj (hmax.symm.trans hmax')
  exact ⟨res, hres, hres'⟩

end

end Obsd.Pf
