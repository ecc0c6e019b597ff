import Obsd.TcpOptions
import Obsd.Walk

/-!
# When the packet filter and the stack read the same options

Both walkers keep the last option of a kind that they take. The stack
takes the options of the right length up to the end-of-list option or the
first length that is wrong. The packet filter walks on behind both and
looks at no length, so it takes all that the stack does and may take more:
options that only it takes are stray. The two agree exactly when the last
option that the packet filter takes is not stray, or repeats the stack's.
-/

namespace Obsd.TcpOpt

open Walk

variable {opts : List Byte} {need p q turns : Nat} {want : Byte}

/-- The byte at `i`. -/
def byteAt (opts : List Byte) (i : Nat) : Byte := opts.getD i 0

theorem getElem?_of_lt (h : p < opts.length) : opts[p]? = some (byteAt opts p) := by
  rw [byteAt, List.getElem?_eq_getElem h, List.getD_eq_getElem?_getD,
    List.getElem?_eq_getElem h, Option.getD_some]

/-- What the header says of the option's length, in the packet filter's
eyes. -/
def pfLen (opts : List Byte) (p : Nat) : Nat :=
  (if byteAt opts (p + 1) < 2 then 2 else byteAt opts (p + 1)).toNat

/-- From an option to the next one in pf_get_wscale and pf_get_mss. -/
def pfNext (need : Nat) (opts : List Byte) (p : Nat) : Option Nat :=
  if p + need ≤ opts.length then
    if byteAt opts p = tcpoptEol ∨ byteAt opts p = tcpoptNop then some (p + 1)
    else some (p + pfLen opts p)
  else none

/-- From an option to the next one in tcp_dooptions. -/
def stackNext (opts : List Byte) (p : Nat) : Option Nat :=
  if opts.length ≤ p ∨ byteAt opts p = tcpoptEol then none
  else if byteAt opts p = tcpoptNop then some (p + 1)
  else if opts.length < p + 2 ∨ (byteAt opts (p + 1)).toNat < 2
      ∨ opts.length < p + (byteAt opts (p + 1)).toNat then none
  else some (p + (byteAt opts (p + 1)).toNat)

/-- The packet filter takes an option of the wanted kind. -/
def pfHit {β : Type} (need : Nat) (want : Byte) (val : Nat → β) (opts : List Byte) (p : Nat) :
    Option β :=
  if p + need ≤ opts.length ∧ byteAt opts p = want then some (val p) else none

/-- The stack takes it if it has the right length as well. -/
def stackHit {β : Type} (need : Nat) (want : Byte) (val : Nat → β) (opts : List Byte) (p : Nat) :
    Option β :=
  if p + need ≤ opts.length ∧ byteAt opts p = want ∧ (byteAt opts (p + 1)).toNat = need then
    some (val p)
  else none

section

variable {β : Type} {val : Nat → β}

theorem pfLen_pos (opts : List Byte) (p : Nat) : 0 < pfLen opts p := by
  unfold pfLen
  split
  · decide
  · rename_i h
    have h' : ¬ (byteAt opts (p + 1)).toNat < 2 := fun hlt => h (BitVec.lt_def.mpr hlt)
    omega

theorem pf_bounded (hneed : 0 < need) :
    Bounded (pfNext need opts) (pfHit need want val opts) opts.length where
  forward := by
    intro p q hq
    have hpos := pfLen_pos opts p
    unfold pfNext at hq
    split at hq
    · split at hq <;> · cases hq; omega
    · cases hq
  stops := fun p hp => if_neg (by omega)
  misses := fun p hp => if_neg (by omega)

theorem stackNext_forward (h : stackNext opts p = some q) : p < q := by
  unfold stackNext at h
  split at h
  · cases h
  · split at h
    · cases h
      omega
    · split at h
      · cases h
      · cases h
        omega

theorem stack_bounded (hneed : 0 < need) :
    Bounded (stackNext opts) (stackHit need want val opts) opts.length where
  forward := fun _ _ => stackNext_forward
  stops := fun p hp => if_pos (.inl hp)
  misses := fun p hp => if_neg (by omega)

/-! ## The walkers are walks -/

/-- pf_get_wscale and pf_get_mss keep the last option they take, and read
no byte behind the header. -/
theorem pfWalk_eq {take : Nat → Option β} (hneed : 2 ≤ need)
    (hwant : want ≠ tcpoptEol ∧ want ≠ tcpoptNop)
    (htake : ∀ p, p + need ≤ opts.length → take p = some (val p)) (opt : Nat) (hlen : Int)
    (hl : hlen = opts.length - opt) (acc : Option β) (dflt : β) :
    pfWalk opts need want take turns opt hlen (acc.getD dflt)
      = some ((scan (pfNext need opts) (pfHit need want val opts) turns opt acc).getD dflt) := by
  induction turns generalizing opt hlen acc with
  | zero => rfl
  | succ turns ih =>
    rw [pfWalk, scan]
    by_cases hin : opt + need ≤ opts.length
    · rw [if_pos (by omega), getElem?_of_lt (by omega : opt < opts.length), Option.bind_eq_bind,
        Option.bind_some]
      by_cases hpad : byteAt opts opt = tcpoptEol ∨ byteAt opts opt = tcpoptNop
      · have hmiss : pfHit need want val opts opt = none := by
          refine if_neg fun h => ?_
          rcases hpad with he | he
          · exact hwant.1 (h.2.symm.trans he)
          · exact hwant.2 (h.2.symm.trans he)
        rw [if_pos hpad, ih (opt + 1) (hlen - 1) (by omega) acc, pfNext, if_pos hin, if_pos hpad,
          hmiss]
        rfl
      · have hacc : (if byteAt opts opt = want then take opt else some (acc.getD dflt))
            = some (((pfHit need want val opts opt).or acc).getD dflt) := by
          by_cases hk : byteAt opts opt = want
          · rw [if_pos hk, htake opt hin, pfHit, if_pos ⟨hin, hk⟩]
            rfl
          · rw [if_neg hk, pfHit, if_neg fun h => hk h.2]
            rfl
        rw [if_neg hpad, hacc, Option.bind_eq_bind, Option.bind_some,
          getElem?_of_lt (by omega : opt + 1 < opts.length), Option.bind_some, pfNext, if_pos hin,
          if_neg hpad]
        exact ih _ _ (by omega) _
    · have hmiss : pfHit need want val opts opt = none := if_neg fun h => hin h.1
      rw [if_neg (by omega), pfNext, if_neg hin, hmiss]
      rfl

end

/-- The capped shift of the window option at `p`. -/
def shiftAt (opts : List Byte) (p : Nat) : Byte :=
  if byteAt opts (p + 2) < tcpMaxWinshift then byteAt opts (p + 2) else tcpMaxWinshift

/-- The value of the MSS option at `p`. -/
def mssAt (opts : List Byte) (p : Nat) : BitVec 16 := byteAt opts (p + 2) ++ byteAt opts (p + 3)

/-- What tcp_dooptions has found about the window scale. -/
def OptState.wscale (st : OptState) : Option Byte :=
  if st.rcvdScale then some st.requestedSScale else none

/-- The segment is a SYN and the connection has received none. -/
def OptCtx.FirstSyn (ctx : OptCtx) : Prop := ctx.syn = true ∧ ctx.haveRcvdSyn = false

theorem readWord_of_lt (h : p + 3 < opts.length) : ∃ w, readWord opts p = some w := by
  simp only [readWord, getElem?_of_lt (show p < opts.length by omega),
    getElem?_of_lt (show p + 1 < opts.length by omega),
    getElem?_of_lt (show p + 2 < opts.length by omega), getElem?_of_lt h]
  exact ⟨_, rfl⟩

theorem stackHit_of_kind {β : Type} {val : Nat → β} (h : byteAt opts p ≠ want) :
    stackHit need want val opts p = none := if_neg fun hit => h hit.2.1

/-- What the option at `p` changes of the things that the packet filter
looks at. -/
def Changes (opts : List Byte) (p : Nat) (st st' : OptState) : Prop :=
  st'.wscale = (stackHit 3 tcpoptWindow (shiftAt opts) opts p).or st.wscale
    ∧ st'.maxseg = (stackHit 4 tcpoptMaxseg (mssAt opts) opts p).getD st.maxseg

theorem Changes.of_other {st st' : OptState} (hw : byteAt opts p ≠ tcpoptWindow)
    (hm : byteAt opts p ≠ tcpoptMaxseg) (hscale : st'.wscale = st.wscale)
    (hmss : st'.maxseg = st.maxseg) : Changes opts p st st' := by
  rw [Changes, stackHit_of_kind hw, stackHit_of_kind hm]
  exact ⟨hscale, hmss⟩

section

variable {ctx : OptCtx} {optlen : Nat}

theorem doOption_maxseg (hctx : ctx.FirstSyn) (hfit : p + optlen ≤ opts.length)
    (hlen : optlen = (byteAt opts (p + 1)).toNat) (hkind : byteAt opts p = tcpoptMaxseg)
    (st : OptState) :
    ∃ st', doOption ctx opts p tcpoptMaxseg optlen st = some (some st')
      ∧ Changes opts p st st' := by
  have hwin : stackHit 3 tcpoptWindow (shiftAt opts) opts p = none :=
    stackHit_of_kind (by rw [hkind]; decide)
  rw [doOption, if_pos rfl]
  by_cases h4 : optlen = 4
  · have hmss : stackHit 4 tcpoptMaxseg (mssAt opts) opts p = some (mssAt opts p) :=
      if_pos ⟨by omega, hkind, by omega⟩
    rw [if_neg (by simp [hctx.1, hctx.2, h4, tcpolenMaxseg]),
      getElem?_of_lt (show p + 2 < opts.length by omega),
      getElem?_of_lt (show p + 3 < opts.length by omega)]
    refine ⟨_, rfl, ?_, ?_⟩
    · rw [hwin]
      rfl
    · rw [hmss]
      rfl
  · have hmss : stackHit 4 tcpoptMaxseg (mssAt opts) opts p = none :=
      if_neg fun h => h4 (hlen.trans h.2.2)
    rw [if_pos (.inl h4)]
    refine ⟨st, rfl, ?_⟩
    rw [Changes, hwin, hmss]
    exact ⟨rfl, rfl⟩

theorem doOption_window (hctx : ctx.FirstSyn) (hfit : p + optlen ≤ opts.length)
    (hlen : optlen = (byteAt opts (p + 1)).toNat) (hkind : byteAt opts p = tcpoptWindow)
    (st : OptState) :
    ∃ st', doOption ctx opts p tcpoptWindow optlen st = some (some st')
      ∧ Changes opts p st st' := by
  have hmss : stackHit 4 tcpoptMaxseg (mssAt opts) opts p = none :=
    stackHit_of_kind (by rw [hkind]; decide)
  rw [doOption, if_neg (by decide), if_pos rfl]
  by_cases h3 : optlen = 3
  · have hwin : stackHit 3 tcpoptWindow (shiftAt opts) opts p = some (shiftAt opts p) :=
      if_pos ⟨by omega, hkind, by omega⟩
    rw [if_neg (by simp [hctx.1, hctx.2, h3, tcpolenWindow]),
      getElem?_of_lt (show p + 2 < opts.length by omega)]
    refine ⟨_, rfl, ?_, ?_⟩
    · rw [hwin]
      rfl
    · rw [hmss]
      rfl
  · have hwin : stackHit 3 tcpoptWindow (shiftAt opts) opts p = none :=
      if_neg fun h => h3 (hlen.trans h.2.2)
    rw [if_pos (.inl h3)]
    refine ⟨st, rfl, ?_⟩
    rw [Changes, hwin, hmss]
    exact ⟨rfl, rfl⟩

/-- An option that fits is read inside the block, and only the window and
the MSS option of the right length change what the packet filter wants. -/
theorem doOption_spec (hctx : ctx.FirstSyn) (hfit : p + optlen ≤ opts.length)
    (hlen : byteAt opts p ≠ tcpoptNop → 2 ≤ optlen ∧ optlen = (byteAt opts (p + 1)).toNat)
    (st : OptState) :
    ∃ r, doOption ctx opts p (byteAt opts p) optlen st = some r
      ∧ ∀ st', r = some st' → Changes opts p st st' := by
  by_cases hm : byteAt opts p = tcpoptMaxseg
  · obtain ⟨st', hdo, hch⟩ :=
      doOption_maxseg hctx hfit (hlen (by rw [hm]; decide)).2 hm st
    exact ⟨_, hm ▸ hdo, fun _ he => Option.some.inj he ▸ hch⟩
  by_cases hw : byteAt opts p = tcpoptWindow
  · obtain ⟨st', hdo, hch⟩ :=
      doOption_window hctx hfit (hlen (by rw [hw]; decide)).2 hw st
    exact ⟨_, hw ▸ hdo, fun _ he => Option.some.inj he ▸ hch⟩
  have hother : ∀ {st' st'' : OptState}, some st' = some st'' → st'.wscale = st.wscale →
      st'.maxseg = st.maxseg → Changes opts p st st'' := by
    rintro st' _ ⟨⟩ hscale hmss
    exact .of_other hw hm hscale hmss
  rw [doOption, if_neg hm, if_neg hw]
  split
  · rename_i hts
    split
    · exact ⟨_, rfl, fun _ he => hother he rfl rfl⟩
    · rename_i h10
      have hten : optlen = 10 := not_not.mp h10
      obtain ⟨val, hval⟩ := readWord_of_lt (show p + 2 + 3 < opts.length by omega)
      obtain ⟨ecr, hecr⟩ := readWord_of_lt (show p + 6 + 3 < opts.length by omega)
      rw [hval, hecr]
      split <;> exact ⟨_, rfl, fun _ he => hother he rfl rfl⟩
  split
  · split <;> exact ⟨_, rfl, fun _ he => hother he rfl rfl⟩
  split
  · rename_i hsack
    obtain ⟨h2, -⟩ := hlen (by rw [hsack]; decide)
    rw [readBytes, if_pos (by omega)]
    exact ⟨_, rfl, fun _ he => hother he rfl rfl⟩
  split
  · split
    · exact ⟨_, rfl, fun _ he => hother he rfl rfl⟩
    · rename_i h18
      have height : optlen = 18 := not_not.mp h18
      rw [readBytes, if_pos (by omega)]
      simp only [Option.bind_eq_bind, Option.bind_some]
      split
      · exact ⟨_, rfl, nofun⟩
      · exact ⟨_, rfl, fun _ he => hother he rfl rfl⟩
  · exact ⟨_, rfl, fun _ he => hother he rfl rfl⟩

/-- The length that tcp_dooptions goes on by is the walk's. -/
theorem optionLen_spec (hin : p < opts.length) (heol : byteAt opts p ≠ tcpoptEol) :
    ∃ r, optionLen opts p (opts.length - p) (byteAt opts p) = some r
      ∧ stackNext opts p = r.map (p + ·)
      ∧ ∀ optlen, r = some optlen → 0 < optlen ∧ p + optlen ≤ opts.length
        ∧ (byteAt opts p ≠ tcpoptNop → 2 ≤ optlen ∧ optlen = (byteAt opts (p + 1)).toNat) := by
  have hout : ¬ (opts.length ≤ p ∨ byteAt opts p = tcpoptEol) := by
    rintro (h | h)
    · omega
    · exact heol h
  rw [optionLen, stackNext, if_neg hout]
  by_cases hnop : byteAt opts p = tcpoptNop
  · rw [if_pos hnop, if_pos hnop]
    refine ⟨_, rfl, rfl, ?_⟩
    rintro _ ⟨⟩
    exact ⟨Nat.one_pos, hin, fun h => absurd hnop h⟩
  rw [if_neg hnop, if_neg hnop]
  by_cases h2 : opts.length - p < 2
  · rw [if_pos h2, if_pos (.inl (by omega))]
    exact ⟨_, rfl, rfl, nofun⟩
  rw [if_neg h2, getElem?_of_lt (show p + 1 < opts.length by omega), Option.bind_eq_bind,
    Option.bind_some]
  by_cases hbad : (byteAt opts (p + 1)).toNat < 2 ∨ opts.length - p < (byteAt opts (p + 1)).toNat
  · rw [if_pos hbad, if_pos (by omega)]
    exact ⟨_, rfl, rfl, nofun⟩
  · rw [if_neg hbad, if_neg (by omega)]
    refine ⟨_, rfl, rfl, ?_⟩
    rintro _ ⟨⟩
    omega

/-- Where the stack's walk stops it takes nothing. -/
theorem stackHit_of_stop {β : Type} {val : Nat → β} (hneed : 2 ≤ need)
    (hwant : want ≠ tcpoptEol ∧ want ≠ tcpoptNop) (h : stackNext opts p = none) :
    stackHit need want val opts p = none := by
  refine if_neg fun hit => ?_
  rw [stackNext, if_neg, if_neg (by rw [hit.2.1]; exact hwant.2), if_neg (by omega)] at h
  · cases h
  · rw [hit.2.1, not_or]
    exact ⟨by omega, hwant.1⟩

theorem dooptionsLoop_spec (turns : Nat) (hctx : ctx.FirstSyn) (hp : p ≤ opts.length) (st : OptState) :
    ∃ r, dooptionsLoop ctx opts turns p (opts.length - p) st = some r
      ∧ ∀ st', r = some st' →
        st'.wscale = scan (stackNext opts) (stackHit 3 tcpoptWindow (shiftAt opts) opts) turns p
          st.wscale
        ∧ ∀ a : Option (BitVec 16), st.maxseg = a.getD 0 →
          st'.maxseg = (scan (stackNext opts) (stackHit 4 tcpoptMaxseg (mssAt opts) opts) turns p
            a).getD 0 := by
  induction turns generalizing p st with
  | zero =>
    refine ⟨_, rfl, ?_⟩
    rintro _ ⟨⟩
    exact ⟨rfl, fun a ha => ha⟩
  | succ turns ih =>
    -- where the loop stops, the walk does, with nothing taken
    have hstop : stackNext opts p = none → ∀ st', some st = some st' →
        st'.wscale = scan (stackNext opts) (stackHit 3 tcpoptWindow (shiftAt opts) opts)
          (turns + 1) p st.wscale
        ∧ ∀ a : Option (BitVec 16), st.maxseg = a.getD 0 →
          st'.maxseg = (scan (stackNext opts) (stackHit 4 tcpoptMaxseg (mssAt opts) opts)
            (turns + 1) p a).getD 0 := by
      rintro hnone _ ⟨⟩
      simp only [scan, hnone, stackHit_of_stop (show 2 ≤ 3 by decide)
        (show tcpoptWindow ≠ tcpoptEol ∧ tcpoptWindow ≠ tcpoptNop by decide) hnone,
        stackHit_of_stop (show 2 ≤ 4 by decide)
        (show tcpoptMaxseg ≠ tcpoptEol ∧ tcpoptMaxseg ≠ tcpoptNop by decide) hnone,
        Option.none_or]
      exact ⟨trivial, fun a ha => ha⟩
    rw [dooptionsLoop]
    by_cases hin : p < opts.length
    · rw [if_pos (by omega), getElem?_of_lt hin, Option.bind_eq_bind, Option.bind_some]
      by_cases heol : byteAt opts p = tcpoptEol
      · rw [if_pos heol]
        exact ⟨_, rfl, hstop (if_pos (.inr heol))⟩
      rw [if_neg heol]
      obtain ⟨r, hlen, hnext, hr⟩ := optionLen_spec hin heol
      rw [hlen, Option.bind_eq_bind, Option.bind_some]
      cases r with
      | none => exact ⟨_, rfl, hstop hnext⟩
      | some optlen =>
        obtain ⟨hpos, hfit, hlen'⟩ := hr optlen rfl
        obtain ⟨r', hdo, hch⟩ := doOption_spec hctx hfit hlen' st
        simp only [hdo, Option.bind_eq_bind, Option.bind_some]
        cases r' with
        | none => exact ⟨none, rfl, by simp⟩
        | some st₁ =>
          obtain ⟨hscale, hmss⟩ := hch st₁ rfl
          obtain ⟨r'', hloop, hrest⟩ := ih hfit st₁
          rw [Nat.sub_add_eq] at hloop
          refine ⟨r'', hloop, fun st' he => ?_⟩
          obtain ⟨hscale', hmss'⟩ := hrest st' he
          rw [scan, hnext]
          refine ⟨hscale'.trans (by rw [hscale]; rfl), fun a ha => ?_⟩
          rw [scan, hnext]
          refine hmss' _ ?_
          rw [hmss, ha]
          cases stackHit 4 tcpoptMaxseg (mssAt opts) opts p <;> rfl
    · rw [if_neg (by omega)]
      exact ⟨_, rfl, hstop (if_pos (.inl (Nat.not_lt.mp hin)))⟩

end

/-! ## The comparison -/

/-- An option of the kind `want` that the packet filter takes. -/
def PfTakes (need : Nat) (want : Byte) (opts : List Byte) (p : Nat) : Prop :=
  Visits (pfNext need opts) 0 p ∧ p + need ≤ opts.length ∧ byteAt opts p = want

/-- An option of the kind `want` that the stack takes. -/
def StackTakes (need : Nat) (want : Byte) (opts : List Byte) (p : Nat) : Prop :=
  Visits (stackNext opts) 0 p ∧ p + need ≤ opts.length ∧ byteAt opts p = want
    ∧ (byteAt opts (p + 1)).toNat = need

/-- If the last option that the packet filter takes is one that the stack
does not take, then it has the value of the last one the stack takes. -/
def StrayRepeats {β : Type} (need : Nat) (want : Byte) (val : Nat → β) (opts : List Byte) : Prop :=
  ∀ p, PfTakes need want opts p → (∀ q, PfTakes need want opts q → q ≤ p) →
    ¬ StackTakes need want opts p →
    ∃ g, StackTakes need want opts g ∧ (∀ q, StackTakes need want opts q → q ≤ g)
      ∧ val g = val p

section

variable {β : Type} {val : Nat → β}

theorem pfTakes_iff (val : Nat → β) :
    PfTakes need want opts p
      ↔ Visits (pfNext need opts) 0 p ∧ pfHit need want val opts p = some (val p) := by
  rw [PfTakes, pfHit]
  refine and_congr_right fun _ => ⟨fun h => if_pos h, fun h => ?_⟩
  by_contra hne
  rw [if_neg hne] at h
  cases h

theorem stackTakes_iff (val : Nat → β) :
    StackTakes need want opts p
      ↔ Visits (stackNext opts) 0 p ∧ stackHit need want val opts p = some (val p) := by
  rw [StackTakes, stackHit]
  refine and_congr_right fun _ => ⟨fun h => if_pos h, fun h => ?_⟩
  by_contra hne
  rw [if_neg hne] at h
  cases h

theorem pfHit_val {v : β} (h : pfHit need want val opts p = some v) : val p = v := by
  unfold pfHit at h
  split at h
  · exact Option.some.inj h
  · cases h

theorem stackHit_val {v : β} (h : stackHit need want val opts p = some v) : val p = v := by
  unfold stackHit at h
  split at h
  · exact Option.some.inj h
  · cases h

/-- The packet filter goes on as the stack does, as long as there is room
for what it wants. -/
theorem pfNext_of_stackNext (h : stackNext opts p = some q) (hroom : p + need ≤ opts.length) :
    pfNext need opts p = some q := by
  unfold stackNext at h
  split at h
  · cases h
  rename_i hin
  rw [not_or] at hin
  rw [pfNext, if_pos hroom]
  split at h
  · rename_i hnop
    rw [if_pos (.inr hnop), h]
  · rename_i hnop
    rw [if_neg (not_or.mpr ⟨hin.2, hnop⟩)]
    split at h
    · cases h
    · rename_i hlen
      have h2 : ¬ byteAt opts (p + 1) < 2 := fun hlt => by
        have hlt' : (byteAt opts (p + 1)).toNat < 2 := BitVec.lt_def.mp hlt
        omega
      rw [pfLen, if_neg h2, h]

theorem visits_of_stack (h : Visits (stackNext opts) 0 q) (hroom : q + need ≤ opts.length) :
    Visits (pfNext need opts) 0 q := by
  induction h with
  | refl => exact .refl
  | @tail a b _ hstep ih =>
    have hlt := stackNext_forward hstep
    exact .tail (ih (by omega)) (pfNext_of_stackNext hstep (by omega))

/-- The walks agree exactly when a stray last option repeats the stack's
last one. -/
theorem scans_agree_iff (hneed : 0 < need) :
    scan (pfNext need opts) (pfHit need want val opts) opts.length 0 none
        = scan (stackNext opts) (stackHit need want val opts) opts.length 0 none
      ↔ StrayRepeats need want val opts := by
  rw [scan_eq_scan_iff (pf_bounded hneed) (stack_bounded hneed) (by omega)]
  · constructor
    · intro hcond p hp hlast hstray
      have hp' := (pfTakes_iff val).mp hp
      have hl : LastHit (pfNext need opts) (pfHit need want val opts) 0 p (val p) :=
        ⟨hp'.1, hp'.2, fun r w hr hw => hlast r ((pfTakes_iff val).mpr ⟨hr, pfHit_val hw ▸ hw⟩)⟩
      obtain ⟨g, hg⟩ := hcond p (val p) hl fun h => hstray ((stackTakes_iff val).mpr h)
      have hval := stackHit_val hg.value
      refine ⟨g, (stackTakes_iff val).mpr ⟨hg.visited, hval ▸ hg.value⟩, fun q hq => ?_, hval⟩
      have hq' := (stackTakes_iff val).mp hq
      exact hg.last q _ hq'.1 hq'.2
    · intro hcond q v hq hboth
      obtain rfl := pfHit_val hq.value
      have hnot : ¬ StackTakes need want opts q := fun h => hboth ((stackTakes_iff val).mp h)
      obtain ⟨g, hg, hglast, hval⟩ := hcond q ((pfTakes_iff val).mpr ⟨hq.visited, hq.value⟩)
        (fun r hr => by
          have hr' := (pfTakes_iff val).mp hr
          exact hq.last r _ hr'.1 hr'.2) hnot
      have hg' := (stackTakes_iff val).mp hg
      exact ⟨g, hg'.1, hval ▸ hg'.2, fun r w hr hw =>
        hglast r ((stackTakes_iff val).mpr ⟨hr, stackHit_val hw ▸ hw⟩)⟩
  · intro q v hq hv
    obtain rfl := stackHit_val hv
    obtain ⟨-, hroom, hkind, -⟩ := (stackTakes_iff val).mpr ⟨hq, hv⟩
    exact ⟨visits_of_stack hq hroom, if_pos ⟨hroom, hkind⟩⟩

end

/-- A TCP segment whose header is there as a whole; `thOff` counts it in
words and is four bits wide. -/
structure Segment where
  fixed : List Byte
  opts : List Byte
  data : List Byte
  thOff : Nat
  fixed_length : fixed.length = tcphdrSize
  length : tcphdrSize + opts.length = thOff <<< 2
  off_lt : thOff < 16

def Segment.bytes (m : Segment) : List Byte := m.fixed ++ m.opts ++ m.data

/-- What pf_get_wscale returns when it finds what the stack found. -/
def OptState.pfWscale (st : OptState) : Byte :=
  (st.wscale.map (· ||| pfWscaleFlag)).getD 0

theorem Segment.pull (m : Segment) :
    ∃ hdr, pfPullHdr m.bytes (m.thOff <<< 2) = some hdr ∧ hdr.drop tcphdrSize = m.opts := by
  have hlen := m.length
  have hfix := m.fixed_length
  refine ⟨m.fixed ++ m.opts, ?_, by rw [← hfix, List.drop_left]⟩
  rw [pfPullHdr, Segment.bytes, if_neg (by simp only [List.length_append]; omega),
    List.take_left' (by simp only [List.length_append]; omega)]

theorem takeWscale_of_lt (h : p + 3 ≤ opts.length) :
    takeWscale opts p = some (shiftAt opts p ||| pfWscaleFlag) := by
  have hcap : (if tcpMaxWinshift < byteAt opts (p + 2) then tcpMaxWinshift else byteAt opts (p + 2))
      = shiftAt opts p := by
    rw [shiftAt]
    simp only [BitVec.lt_def]
    split <;> split
    · omega
    · rfl
    · rfl
    · exact BitVec.eq_of_toNat_eq (by omega)
  rw [takeWscale, getElem?_of_lt (show p + 2 < opts.length by omega), Option.bind_eq_bind,
    Option.bind_some, hcap]

theorem takeMss_of_lt (h : p + 4 ≤ opts.length) : takeMss opts p = some (mssAt opts p) := by
  rw [takeMss, getElem?_of_lt (show p + 2 < opts.length by omega),
    getElem?_of_lt (show p + 3 < opts.length by omega)]
  rfl

theorem pfHit_map {β γ : Type} (f : β → γ) (val : Nat → β) :
    pfHit need want (fun p => f (val p)) opts = fun p => (pfHit need want val opts p).map f := by
  funext p
  unfold pfHit
  split <;> rfl

theorem pfGetWscale_eq (m : Segment) :
    pfGetWscale m.bytes m.thOff = some (((scan (pfNext 3 m.opts)
      (pfHit 3 tcpoptWindow (shiftAt m.opts) m.opts) m.opts.length 0 none).map
        (· ||| pfWscaleFlag)).getD 0) := by
  have hlen := m.length
  rw [pfGetWscale]
  by_cases hno : m.thOff <<< 2 ≤ tcphdrSize
  · have hnil : m.opts = [] := List.eq_nil_of_length_eq_zero (by omega)
    rw [if_pos hno, hnil]
    rfl
  obtain ⟨hdr, hpull, hopts⟩ := m.pull
  rw [if_neg hno, hpull, ← scan_map, ← pfHit_map]
  simp only [hopts]
  exact pfWalk_eq (by decide) (by decide) (fun p hp => takeWscale_of_lt hp) 0 _ (by omega) none 0

theorem pfGetMss_eq (m : Segment) (tcpMssdflt : BitVec 16) (hopts : m.opts ≠ []) :
    pfGetMss tcpMssdflt m.bytes m.thOff = some ((scan (pfNext 4 m.opts)
      (pfHit 4 tcpoptMaxseg (mssAt m.opts) m.opts) m.opts.length 0 none).getD tcpMssdflt) := by
  have hlen := m.length
  have hpos := List.length_pos_of_ne_nil hopts
  obtain ⟨hdr, hpull, hdrop⟩ := m.pull
  rw [pfGetMss, if_neg (by omega), hpull]
  simp only [hdrop]
  exact pfWalk_eq (by decide) (by decide) (fun p hp => takeMss_of_lt hp) 0 _ (by omega) none
    tcpMssdflt

/-- The flag tells an option from none, and leaves room for the shift. -/
theorem wscale_flag_inj {a b : Option Byte} (ha : ∀ x, a = some x → x ≤ tcpMaxWinshift)
    (hb : ∀ x, b = some x → x ≤ tcpMaxWinshift) :
    (a.map (· ||| pfWscaleFlag)).getD 0 = (b.map (· ||| pfWscaleFlag)).getD 0 ↔ a = b := by
  have hflag : ∀ x : Byte, x ||| pfWscaleFlag ≠ 0 := by decide
  have hmask : ∀ x : Byte, x ≤ tcpMaxWinshift → (x ||| pfWscaleFlag) &&& 0x0f = x := by decide
  refine ⟨fun h => ?_, fun h => h ▸ rfl⟩
  rcases a with _ | x <;> rcases b with _ | y
  · rfl
  · exact absurd h.symm (hflag y)
  · exact absurd h (hflag x)
  · have h' : x ||| pfWscaleFlag = y ||| pfWscaleFlag := h
    rw [← hmask x (ha x rfl), ← hmask y (hb y rfl), h']

theorem shiftAt_le (opts : List Byte) (p : Nat) : shiftAt opts p ≤ tcpMaxWinshift := by
  rw [shiftAt, BitVec.le_def]
  split
  · rename_i h
    exact (BitVec.lt_def.mp h).le
  · exact le_rfl

theorem pf_shift_le (v : Byte) (h : scan (pfNext 3 opts)
    (pfHit 3 tcpoptWindow (shiftAt opts) opts) opts.length 0 none = some v) :
    v ≤ tcpMaxWinshift := by
  obtain ⟨q, hq⟩ := ((pf_bounded (by decide)).scan_eq_some_iff (Nat.zero_add opts.length).ge).mp h
  exact pfHit_val hq.value ▸ shiftAt_le opts q

theorem stack_shift_le (v : Byte) (h : scan (stackNext opts)
    (stackHit 3 tcpoptWindow (shiftAt opts) opts) opts.length 0 none = some v) :
    v ≤ tcpMaxWinshift := by
  obtain ⟨q, hq⟩ :=
    ((stack_bounded (by decide)).scan_eq_some_iff (Nat.zero_add opts.length).ge).mp h
  exact stackHit_val hq.value ▸ shiftAt_le opts q

/-- Either side takes an MSS option of the segment. -/
def TakesMss (opts : List Byte) : Prop :=
  (∃ p, PfTakes 4 tcpoptMaxseg opts p) ∨ ∃ p, StackTakes 4 tcpoptMaxseg opts p

theorem exists_pfTakes_iff (hneed : 0 < need) {β : Type} (val : Nat → β) :
    (∃ p, PfTakes need want opts p)
      ↔ scan (pfNext need opts) (pfHit need want val opts) opts.length 0 none ≠ none := by
  rw [(pf_bounded hneed).scan_ne_none_iff (Nat.zero_add opts.length).ge]
  refine exists_congr fun p => (pfTakes_iff val).trans ⟨fun h => ⟨_, h⟩, ?_⟩
  rintro ⟨v, hp, hv⟩
  exact ⟨hp, pfHit_val hv ▸ hv⟩

theorem exists_stackTakes_iff (hneed : 0 < need) {β : Type} (val : Nat → β) :
    (∃ p, StackTakes need want opts p)
      ↔ scan (stackNext opts) (stackHit need want val opts) opts.length 0 none ≠ none := by
  rw [(stack_bounded hneed).scan_ne_none_iff (Nat.zero_add opts.length).ge]
  refine exists_congr fun p => (stackTakes_iff val).trans ⟨fun h => ⟨_, h⟩, ?_⟩
  rintro ⟨v, hp, hv⟩
  exact ⟨hp, stackHit_val hv ▸ hv⟩

theorem pfTakes_of_stackTakes (h : StackTakes need want opts p) : PfTakes need want opts p :=
  ⟨visits_of_stack h.1 h.2.1, h.2.1, h.2.2.1⟩

/-- The MSS that the packet filter derives is the stack's, whenever either
takes an option, exactly when the walks agree. -/
theorem mss_agree_iff (m : Segment) (tcpMssdflt maxseg : BitVec 16)
    (hst : maxseg = (scan (stackNext m.opts) (stackHit 4 tcpoptMaxseg (mssAt m.opts) m.opts)
      m.opts.length 0 none).getD 0) :
    (TakesMss m.opts → (∃ p, StackTakes 4 tcpoptMaxseg m.opts p)
        ∧ pfGetMss tcpMssdflt m.bytes m.thOff = some maxseg)
      ↔ StrayRepeats 4 tcpoptMaxseg (mssAt m.opts) m.opts := by
  rw [← scans_agree_iff (by decide), TakesMss, exists_pfTakes_iff (by decide) (mssAt m.opts),
    exists_stackTakes_iff (by decide) (mssAt m.opts), hst]
  cases hpf : scan (pfNext 4 m.opts) (pfHit 4 tcpoptMaxseg (mssAt m.opts) m.opts)
      m.opts.length 0 none with
  | none =>
    have hstack : scan (stackNext m.opts) (stackHit 4 tcpoptMaxseg (mssAt m.opts) m.opts)
        m.opts.length 0 none = none := by
      by_contra hne
      obtain ⟨p, hp⟩ := (exists_stackTakes_iff (by decide) (mssAt m.opts)).mpr hne
      exact (exists_pfTakes_iff (by decide) (mssAt m.opts)).mp ⟨p, pfTakes_of_stackTakes hp⟩ hpf
    rw [hstack]
    simp
  | some v =>
    have hopts : m.opts ≠ [] := by
      intro hnil
      rw [hnil] at hpf
      cases hpf
    rw [pfGetMss_eq m tcpMssdflt hopts, hpf]
    cases scan (stackNext m.opts) (stackHit 4 tcpoptMaxseg (mssAt m.opts) m.opts)
      m.opts.length 0 none <;> simp

/-- Neither parser reads behind the header. On a SYN that the stack does
not drop, the packet filter's window scale is the stack's, and so is its
MSS if either takes one, exactly when the last window option and the last
MSS option that the packet filter takes are not stray, or repeat the ones
of the stack. -/
theorem pf_options_agree_iff (ctx : OptCtx) (hctx : ctx.FirstSyn) (m : Segment)
    (tcpMssdflt : BitVec 16) :
    pfGetWscale m.bytes m.thOff ≠ none
    ∧ pfGetMss tcpMssdflt m.bytes m.thOff ≠ none
    ∧ tcpDooptions ctx m.opts {} ≠ none
    ∧ ∀ st, tcpDooptions ctx m.opts {} = some (some st) →
      ((pfGetWscale m.bytes m.thOff = some st.pfWscale
          ∧ (TakesMss m.opts → (∃ p, StackTakes 4 tcpoptMaxseg m.opts p)
            ∧ pfGetMss tcpMssdflt m.bytes m.thOff = some st.maxseg))
        ↔ StrayRepeats 3 tcpoptWindow (shiftAt m.opts) m.opts
          ∧ StrayRepeats 4 tcpoptMaxseg (mssAt m.opts) m.opts) := by
  obtain ⟨r, hloop, hr⟩ := dooptionsLoop_spec m.opts.length hctx
    (Nat.zero_le m.opts.length) {}
  rw [Nat.sub_zero] at hloop
  have hdo : tcpDooptions ctx m.opts {} = some (r.bind fun st' =>
      if ctx.signed st'.sig then some st' else none) := by
    rw [tcpDooptions, hloop, Option.bind_eq_bind, Option.bind_some]
    cases r with
    | none => rfl
    | some st' =>
      exact (apply_ite some _ _ _).symm
  refine ⟨by simp [pfGetWscale_eq], ?_, hdo ▸ nofun, fun st hst => ?_⟩
  · by_cases hopts : m.opts = []
    · have hlen := m.length
      rw [hopts, List.length_nil, Nat.add_zero] at hlen
      rw [pfGetMss, if_pos (Nat.le_of_eq hlen.symm)]
      nofun
    · rw [pfGetMss_eq m tcpMssdflt hopts]
      nofun
  · have hrst : r = some st := by
      rw [hdo] at hst
      cases r with
      | none => cases hst
      | some st' =>
        rw [Option.bind_some] at hst
        split at hst
        · exact Option.some.inj hst
        · cases hst
    obtain ⟨hscale, hmss⟩ := hr st hrst
    refine and_congr ?_ (mss_agree_iff m tcpMssdflt st.maxseg (hmss none rfl))
    have hinit : ({} : OptState).wscale = none := rfl
    rw [hinit] at hscale
    rw [pfGetWscale_eq, Option.some_inj, OptState.pfWscale, hscale,
      wscale_flag_inj pf_shift_le stack_shift_le, scans_agree_iff (by decide)]

/-- A segment with a header of zeros and the options `opts`. -/
def Segment.ofOpts (opts : List Byte) (thOff : Nat) (h : tcphdrSize + opts.length = thOff <<< 2)
    (hlt : thOff < 16) : Segment :=
  ⟨List.replicate tcphdrSize 0, opts, [], thOff, List.length_replicate .., h, hlt⟩

/-- A kernel that accepts segments without a signature. -/
def unsignedCtx : OptCtx := ⟨true, false, true, 0, fun sig => sig.isNone⟩

/-- MSS 1460, a pad and a window shift of 7: no option is stray. -/
theorem pf_options_agree_common :
    tcpDooptions unsignedCtx [2, 4, 5, 0xb4, 1, 3, 3, 7] {}
      = some (some { rcvdScale := true, requestedSScale := 7, maxseg := 1460 })
    ∧ StrayRepeats 3 tcpoptWindow (shiftAt [2, 4, 5, 0xb4, 1, 3, 3, 7]) [2, 4, 5, 0xb4, 1, 3, 3, 7]
    ∧ StrayRepeats 4 tcpoptMaxseg (mssAt [2, 4, 5, 0xb4, 1, 3, 3, 7]) [2, 4, 5, 0xb4, 1, 3, 3, 7] :=
  ⟨by decide,
    ((pf_options_agree_iff unsignedCtx ⟨rfl, rfl⟩
      (.ofOpts [2, 4, 5, 0xb4, 1, 3, 3, 7] 7 rfl (by decide)) 512).2.2.2
      { rcvdScale := true, requestedSScale := 7, maxseg := 1460 } (by decide)).mp
      ⟨by decide, fun _ => ⟨⟨0, .refl, by decide⟩, by decide⟩⟩⟩

/-- A window option behind the end of the list: the packet filter takes its
shift, the stack finds none. -/
theorem pf_reads_past_eol :
    pfGetWscale (Segment.ofOpts [0, 3, 3, 7] 6 rfl (by decide)).bytes 6 = some 0x87
    ∧ tcpDooptions unsignedCtx [0, 3, 3, 7] {} = some (some {})
    ∧ ¬ ∀ (ctx : OptCtx) (m : Segment) (st : OptState), ctx.FirstSyn →
      tcpDooptions ctx m.opts {} = some (some st) →
      pfGetWscale m.bytes m.thOff = some st.pfWscale := by
  refine ⟨by decide, by decide, fun h => ?_⟩
  have hagree := h unsignedCtx (.ofOpts [0, 3, 3, 7] 6 rfl (by decide)) {} ⟨rfl, rfl⟩ (by decide)
  exact absurd hagree (by decide)

end Obsd.TcpOpt
