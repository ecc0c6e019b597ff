import Obsd.PfGetSport

/-!
# When the search for a port is right

The search stays in the range and ends if it finds a port on its way up, or
comes to the end of a loop; and by luck if it wraps around and meets a port
of the range first (`portLoops_correct_iff`). A call of `pf_get_sport` is
right exactly if this is so for every address that it tries (`right_iff`).
-/

namespace Obsd.PfLb

open PfState (Af StateKey Table)
open ScanLoop

/-! ## Counting -/

section Count

variable {free : BitVec 16 → Bool} {low high cut x p : BitVec 16}

theorem up_iterate (x : BitVec 16) (i : Nat) :
    ((fun tmp => tmp + 1#16)^[i] x).toNat = (x.toNat + i) % 65536 := by
  induction i generalizing x with
  | zero => exact (Nat.mod_eq_of_lt x.isLt).symm
  | succ i ih =>
    rw [Function.iterate_succ_apply, ih, BitVec.toNat_add]
    change ((x.toNat + 1) % 65536 + i) % 65536 = (x.toNat + (i + 1)) % 65536
    omega

theorem down_iterate (x : BitVec 16) {i : Nat} (hi : i ≤ x.toNat) :
    ((fun tmp => tmp - 1#16)^[i] x).toNat = x.toNat - i := by
  induction i generalizing x with
  | zero => rfl
  | succ i ih =>
    have hsub : (x - 1#16).toNat = x.toNat - 1 := by
      change (65536 - 1 + x.toNat) % 65536 = x.toNat - 1
      omega
    rw [Function.iterate_succ_apply, ih _ (by omega), hsub]
    omega

theorem up_reach (h : x ≤ p) : (fun tmp => tmp + 1#16)^[p.toNat - x.toNat] x = p := by
  have hle : x.toNat ≤ p.toNat := BitVec.le_def.mp h
  refine BitVec.eq_of_toNat_eq ?_
  rw [up_iterate, Nat.add_sub_cancel' hle]
  exact Nat.mod_eq_of_lt p.isLt

theorem down_reach (h : p ≤ x) : (fun tmp => tmp - 1#16)^[x.toNat - p.toNat] x = p := by
  have hle : p.toNat ≤ x.toNat := BitVec.le_def.mp h
  refine BitVec.eq_of_toNat_eq ?_
  rw [down_iterate x (Nat.sub_le _ _)]
  omega

/-- With a free port between the start and the end. -/
theorem up_finds (hx : x ≤ p) (hp : p ≤ high) (hfree : free p = true) :
    ∃ fuel q, scan (fun tmp => decide (tmp ≤ high)) free (fun tmp => tmp + 1#16) fuel x
        = some (some q) ∧ x ≤ q ∧ q ≤ high ∧ free q = true := by
  have hxp := BitVec.le_def.mp hx
  have hph := BitVec.le_def.mp hp
  have hin : ∀ i ≤ p.toNat - x.toNat,
      ((fun tmp => tmp + 1#16)^[i] x).toNat = x.toNat + i := fun i hi => by
    rw [up_iterate]
    exact Nat.mod_eq_of_lt (by have := p.isLt; omega)
  obtain ⟨m, hm, hhit, hscan⟩ := @scan_first _ (fun tmp => decide (tmp ≤ high))
    free (fun tmp => tmp + 1#16) x (p.toNat - x.toNat)
    (fun i hi => decide_eq_true (BitVec.le_def.mpr (by rw [hin i hi]; omega)))
    (by rw [up_reach hx]; exact hfree)
  refine ⟨_, _, hscan, BitVec.le_def.mpr ?_, BitVec.le_def.mpr ?_, hhit⟩
  · rw [hin m hm]; omega
  · rw [hin m hm]; omega

theorem down_finds (hx : p ≤ x) (hp : low ≤ p) (hfree : free p = true) :
    ∃ fuel q, scan (fun tmp => decide (low ≤ tmp)) free (fun tmp => tmp - 1#16) fuel x
        = some (some q) ∧ q ≤ x ∧ low ≤ q ∧ free q = true := by
  have hxp := BitVec.le_def.mp hx
  have hlp := BitVec.le_def.mp hp
  have hin : ∀ i ≤ x.toNat - p.toNat,
      ((fun tmp => tmp - 1#16)^[i] x).toNat = x.toNat - i := fun i hi =>
    down_iterate x (by omega)
  obtain ⟨m, hm, hhit, hscan⟩ := @scan_first _ (fun tmp => decide (low ≤ tmp))
    free (fun tmp => tmp - 1#16) x (x.toNat - p.toNat)
    (fun i hi => decide_eq_true (BitVec.le_def.mpr (by rw [hin i hi]; omega)))
    (by rw [down_reach hx]; exact hfree)
  refine ⟨_, _, hscan, BitVec.le_def.mpr ?_, BitVec.le_def.mpr ?_, hhit⟩
  · rw [hin m hm]; omega
  · rw [hin m hm]; omega

/-- With none, the loop ends, unless every port passes the test. -/
theorem up_exits (hhigh : high ≠ 65535#16) (hx : x ≤ high)
    (hnone : ∀ q, x ≤ q → q ≤ high → free q = false) :
    ∃ fuel, scan (fun tmp => decide (tmp ≤ high)) free (fun tmp => tmp + 1#16) fuel x
      = some none := by
  have hlt : high.toNat < 65535 := by
    have hne : high.toNat ≠ 65535 := fun h => hhigh (BitVec.eq_of_toNat_eq h)
    have := high.isLt
    omega
  have hin : ∀ i ≤ high.toNat + 1 - x.toNat,
      ((fun tmp => tmp + 1#16)^[i] x).toNat = x.toNat + i := fun i hi => by
    rw [up_iterate]
    exact Nat.mod_eq_of_lt (by omega)
  have hpass : Passes (fun tmp => decide (tmp ≤ high)) free (fun tmp => tmp + 1#16) x
      (high.toNat + 1 - x.toNat) := by
    intro i hi
    have hle : (fun tmp => tmp + 1#16)^[i] x ≤ high :=
      BitVec.le_def.mpr (by rw [hin i (by omega)]; omega)
    exact ⟨decide_eq_true hle, hnone _ (BitVec.le_def.mpr (by rw [hin i (by omega)]; omega)) hle⟩
  refine ⟨_, scan_eq_exit hpass (decide_eq_false fun hle => ?_)⟩
  have := BitVec.le_def.mp hle
  rw [hin _ le_rfl] at this
  omega

theorem down_exits (hlow : low ≠ 0#16) (hcut : low ≤ cut)
    (hnone : ∀ q, low ≤ q → q < cut → free q = false) :
    ∃ fuel, scan (fun tmp => decide (low ≤ tmp)) free (fun tmp => tmp - 1#16) fuel (cut - 1#16)
      = some none := by
  have hlc := BitVec.le_def.mp hcut
  have hpos : 0 < low.toNat := Nat.pos_of_ne_zero fun h => hlow (BitVec.eq_of_toNat_eq h)
  have hx : (cut - 1#16).toNat = cut.toNat - 1 := by
    have := cut.isLt
    change (65536 - 1 + cut.toNat) % 65536 = cut.toNat - 1
    omega
  have hin : ∀ i ≤ cut.toNat - low.toNat,
      ((fun tmp => tmp - 1#16)^[i] (cut - 1#16)).toNat = cut.toNat - 1 - i := fun i hi => by
    rw [down_iterate _ (by omega), hx]
  have hpass : Passes (fun tmp => decide (low ≤ tmp)) free (fun tmp => tmp - 1#16) (cut - 1#16)
      (cut.toNat - low.toNat) := by
    intro i hi
    have hle : low ≤ (fun tmp => tmp - 1#16)^[i] (cut - 1#16) :=
      BitVec.le_def.mpr (by rw [hin i (by omega)]; omega)
    exact ⟨decide_eq_true hle, hnone _ hle (BitVec.lt_def.mpr (by rw [hin i (by omega)]; omega))⟩
  refine ⟨_, scan_eq_exit hpass (decide_eq_false fun hle => ?_)⟩
  have := BitVec.le_def.mp hle
  rw [hin _ le_rfl] at this
  omega

end Count

/-! ## The two loops -/

section Loops

variable {free : BitVec 16 → Bool} {low high cut : BitVec 16}

/-- The loops come to a result. -/
def Comes (free : BitVec 16 → Bool) (low high cut : BitVec 16) (r : Option (BitVec 16)) : Prop :=
  ∃ fuel, portLoops free low high cut fuel = some r

/-- A port in the range that is free, or none where there is none. -/
def Correct (free : BitVec 16 → Bool) (low high : BitVec 16) : Option (BitVec 16) → Prop
  | some p => low ≤ p ∧ p ≤ high ∧ free p = true
  | none => ∀ p, low ≤ p → p ≤ high → free p = false

/-- There is a free port from `cut` on. Or the loop up ends, and so does the one down, with
a port or at the start of the range. Or the loop up wraps around, and the first port it finds
is one of the range. -/
def Suitable (free : BitVec 16 → Bool) (low high cut : BitVec 16) : Prop :=
  (∃ p, cut ≤ p ∧ p ≤ high ∧ free p = true) ∨
  (high ≠ 65535#16 ∧ (low ≠ 0#16 ∨ ∃ p, low ≤ p ∧ p < cut ∧ free p = true)) ∨
  (high = 65535#16 ∧ (∃ p, low ≤ p ∧ p < cut ∧ free p = true) ∧ ∀ p < low, free p = false)

theorem comes_of_up {fuel : Nat} {p : BitVec 16}
    (h : scan (fun tmp => decide (tmp ≤ high)) free (fun tmp => tmp + 1#16) fuel cut
      = some (some p)) : Comes free low high cut (some p) :=
  ⟨fuel, by rw [portLoops, h]⟩

theorem comes_of_down {fuel fuel' : Nat} {r : Option (BitVec 16)}
    (hup : scan (fun tmp => decide (tmp ≤ high)) free (fun tmp => tmp + 1#16) fuel cut = some none)
    (hdown : scan (fun tmp => decide (low ≤ tmp)) free (fun tmp => tmp - 1#16) fuel' (cut - 1#16)
      = some r) : Comes free low high cut r := by
  refine ⟨fuel + fuel', ?_⟩
  rw [portLoops, scan_mono hup]
  have := scan_mono hdown fuel
  rwa [Nat.add_comm] at this

theorem Comes.cases {r : Option (BitVec 16)} (h : Comes free low high cut r) :
    (∃ fuel p, r = some p ∧
      scan (fun tmp => decide (tmp ≤ high)) free (fun tmp => tmp + 1#16) fuel cut
        = some (some p)) ∨
    ∃ fuel, scan (fun tmp => decide (tmp ≤ high)) free (fun tmp => tmp + 1#16) fuel cut
        = some none ∧
      scan (fun tmp => decide (low ≤ tmp)) free (fun tmp => tmp - 1#16) fuel (cut - 1#16)
        = some r := by
  obtain ⟨fuel, h⟩ := h
  unfold portLoops at h
  split at h
  · rename_i hup
    exact .inr ⟨fuel, hup, h⟩
  · rcases r with _ | p
    · rename_i hne
      exact absurd h hne
    · exact .inl ⟨fuel, p, rfl, h⟩

/-- The result does not depend on the fuel. -/
theorem Comes.unique {r r' : Option (BitVec 16)} (h : Comes free low high cut r)
    (h' : Comes free low high cut r') : r = r' := by
  have hmono : ∀ {fuel r}, portLoops free low high cut fuel = some r → ∀ k,
      portLoops free low high cut (fuel + k) = some r := by
    intro fuel r h k
    unfold portLoops at h ⊢
    rcases hup : scan (fun tmp => decide (tmp ≤ high)) free (fun tmp => tmp + 1#16) fuel cut
      with _ | _ | p
    · rw [hup] at h
      exact absurd h (by simp)
    · rw [hup] at h
      rw [scan_mono hup]
      exact scan_mono h k
    · rw [hup] at h
      rw [scan_mono hup]
      exact h
  obtain ⟨fuel, h⟩ := h
  obtain ⟨fuel', h'⟩ := h'
  have h₁ := hmono h fuel'
  have h₂ := hmono h' fuel
  rw [Nat.add_comm, h₁, Option.some.injEq] at h₂
  exact h₂

/-- Where the loops are suitable they come to what is correct. -/
theorem Suitable.correct (hlow : low ≤ cut) (hcut : cut ≤ high) (h : Suitable free low high cut) :
    ∃ r, Comes free low high cut r ∧ Correct free low high r := by
  by_cases hup : ∃ p, cut ≤ p ∧ p ≤ high ∧ free p = true
  · obtain ⟨p, hp, hph, hfree⟩ := hup
    obtain ⟨fuel, q, hscan, hq, hqh, hfree⟩ := up_finds hp hph hfree
    exact ⟨some q, comes_of_up hscan, BitVec.le_trans hlow hq, hqh, hfree⟩
  have hnone : ∀ q, cut ≤ q → q ≤ high → free q = false := fun q hq hqh =>
    eq_false_of_ne_true fun hfree => hup ⟨q, hq, hqh, hfree⟩
  rcases h with hin | ⟨hhigh, hdown⟩ | ⟨hhigh, ⟨p, hp, hpc, hfree⟩, hbelow⟩
  · exact absurd hin hup
  · obtain ⟨fuel, hexit⟩ := up_exits hhigh hcut hnone
    by_cases hex : ∃ p, low ≤ p ∧ p < cut ∧ free p = true
    · obtain ⟨p, hp, hpc, hfree⟩ := hex
      have hsub : (cut - 1#16).toNat = cut.toNat - 1 := by
        have := BitVec.lt_def.mp hpc
        change (65536 - 1 + cut.toNat) % 65536 = cut.toNat - 1
        omega
      have hpc' := BitVec.lt_def.mp hpc
      obtain ⟨fuel', q, hscan, hq, hlq, hfree⟩ := down_finds (x := cut - 1#16)
        (BitVec.le_def.mpr (by omega)) hp hfree
      refine ⟨some q, comes_of_down hexit hscan, hlq, ?_, hfree⟩
      have := BitVec.le_def.mp hq
      have := BitVec.le_def.mp hcut
      exact BitVec.le_def.mpr (by omega)
    · have hnone' : ∀ q, low ≤ q → q < cut → free q = false := fun q hq hqc =>
        eq_false_of_ne_true fun hfree => hex ⟨q, hq, hqc, hfree⟩
      obtain ⟨fuel', hscan⟩ := down_exits (hdown.resolve_right hex) hlow hnone'
      refine ⟨none, comes_of_down hexit hscan, fun q hq hqh => ?_⟩
      by_cases hqc : q < cut
      · exact hnone' q hq hqc
      · exact hnone q (BitVec.not_lt.mp hqc) hqh
  · -- up to the last port and on from 0
    subst hhigh
    have hwrap : (fun tmp => tmp + 1#16)^[65536 - cut.toNat + p.toNat] cut = p := by
      refine BitVec.eq_of_toNat_eq ?_
      rw [up_iterate]
      omega
    have hall : ∀ q : BitVec 16, decide (q ≤ 65535#16) = true := fun q =>
      decide_eq_true (BitVec.le_def.mpr (Nat.le_of_lt_succ q.isLt))
    obtain ⟨m, hm, hhit, hscan⟩ := @scan_first _ (fun tmp => decide (tmp ≤ 65535#16))
      free (fun tmp => tmp + 1#16) cut _ (fun _ _ => hall _)
      (by rw [hwrap]; exact hfree)
    refine ⟨_, comes_of_up hscan, BitVec.not_lt.mp fun hlt => ?_, of_decide_eq_true (hall _), hhit⟩
    exact Bool.noConfusion (hhit.symm.trans (hbelow _ hlt))

/-- And only there. -/
theorem suitable_of_correct {r : Option (BitVec 16)} (hcomes : Comes free low high cut r)
    (h : Correct free low high r) : Suitable free low high cut := by
  by_cases hup : ∃ p, cut ≤ p ∧ p ≤ high ∧ free p = true
  · exact .inl hup
  have hbelow : ∀ p, r = some p → low ≤ p ∧ p < cut ∧ free p = true := by
    rintro p rfl
    obtain ⟨hlp, hph, hfree⟩ := h
    exact ⟨hlp, BitVec.not_le.mp fun hcp => hup ⟨p, hcp, hph, hfree⟩, hfree⟩
  by_cases hhigh : high = 65535#16
  · have hall : ∀ q : BitVec 16, decide (q ≤ high) = true := fun q =>
      decide_eq_true (hhigh ▸ BitVec.le_def.mpr (Nat.le_of_lt_succ q.isLt))
    rcases hcomes.cases with ⟨fuel, p, rfl, hscan⟩ | ⟨fuel, hexit, -⟩
    · obtain ⟨hlp, hpc, hfree⟩ := hbelow p rfl
      refine .inr (.inr ⟨hhigh, ⟨p, hlp, hpc, hfree⟩, fun q hq => ?_⟩)
      obtain ⟨n, hpass, rfl, -⟩ := scan_inv hscan
      -- the loop has passed the ports below the one it stops at
      have hval := up_iterate cut n
      have hpc := BitVec.lt_def.mp hpc
      have hlp := BitVec.le_def.mp hlp
      have hq := BitVec.lt_def.mp hq
      have hn : 65536 - cut.toNat + q.toNat < n := by omega
      have hreach : (fun tmp => tmp + 1#16)^[65536 - cut.toNat + q.toNat] cut = q := by
        refine BitVec.eq_of_toNat_eq ?_
        rw [up_iterate]
        omega
      rw [← hreach]
      exact (hpass _ hn).2
    · exact absurd hexit (scan_ne_exit hall)
  · refine .inr (.inl ⟨hhigh, ?_⟩)
    by_cases hlow : low = 0#16
    · have hall : ∀ q : BitVec 16, decide (low ≤ q) = true := fun q =>
        decide_eq_true (hlow ▸ BitVec.le_def.mpr (Nat.zero_le _))
      rcases r with _ | p
      · rcases hcomes.cases with ⟨fuel, p, hr, -⟩ | ⟨fuel, -, hdown⟩
        · exact absurd hr (by simp)
        · exact absurd hdown (scan_ne_exit hall)
      · exact .inr ⟨p, hbelow p rfl⟩
    · exact .inl hlow

end Loops

/-! ## A call -/

/-- A state has the key on the side that packets come in from. -/
def Used (t : Table) (key : StateKey) : Prop :=
  ∃ states s, t.statetbl key = some states ∧ s ∈ states ∧ t.key .wire s = some key

theorem noState_iff (e : SportEnv) (pd : Pdesc) (naddr : Addr) (port : BitVec 16) :
    noState e pd naddr port = true ↔ ¬ Used e.table (portKey pd naddr port) := by
  unfold noState pfFindStateAll Used
  rcases e.table.statetbl (portKey pd naddr port) with _ | states
  · exact iff_of_true rfl fun ⟨_, _, h, _⟩ => absurd h (by simp)
  · rw [Option.isNone_iff_eq_none, List.head?_eq_none_iff, List.filter_eq_nil_iff]
    refine ⟨fun h ⟨l, s, hl, hs, hkey⟩ => ?_, fun h s hs hkey => h ⟨states, s, rfl, hs, ?_⟩⟩
    · obtain rfl : states = l := Option.some.inj hl
      exact h s hs (beq_iff_eq.mpr hkey)
    · exact beq_iff_eq.mp hkey

/-- A port, in network order, that may be taken. -/
def Avail (e : SportEnv) (pd : Pdesc) (naddr : Addr) (port : BitVec 16) : Prop :=
  ¬ Used e.table (portKey pd naddr port) ∧
    inBaddynamic e.bad (htons e.env.bigEndian port) pd.proto = false

theorem portFree_iff (e : SportEnv) (pd : Pdesc) (naddr : Addr) (tmp : BitVec 16) :
    portFree e pd naddr tmp = true ↔ Avail e pd naddr (htons e.env.bigEndian tmp) := by
  unfold portFree Avail
  rw [Bool.and_eq_true, noState_iff, htons_htons, Bool.not_eq_true']

section Call

variable (e : SportEnv) (pd : Pdesc) (r : PfRule) (nat : Pool) (src : Tracking) (naddr : Addr)
  (low high : BitVec 16)

/-- What the search for a port at an address comes to. -/
def Searched (s : Try) (res : Option (BitVec 16)) : Prop :=
  ∃ fuel, portSearch e pd low high fuel s = some res

/-- The addresses that a call tries. -/
inductive Reached : Try → Prop
  | first {s : Try} : mapNat e pd r 0 naddr (some .zero) nat src = (s, false) → Reached s
  | next {s s' : Try} : Reached s → Searched e pd low high s none → tryNext e pd r s = (s', true) →
      Reached s'

/-- A port of the range, both in network order. -/
def InRange (port : BitVec 16) : Prop :=
  low ≤ htons e.env.bigEndian port ∧ htons e.env.bigEndian port ≤ high

/-- The search ends for each address, a port that is returned is in the range and may be
taken, and an address is left only if it has no such port. -/
structure Right (low₀ high₀ : BitVec 16) : Prop where
  ends : ∀ s, Reached e pd r nat src naddr low high s → ∃ res, Searched e pd low high s res
  found : ∀ s, Reached e pd r nat src naddr low high s → ∀ port,
    Searched e pd low high s (some port) → InRange e low high port ∧ Avail e pd s.naddr port
  returned : ∀ nport fuel tries res,
    pfGetSport e pd r nat src naddr nport low₀ high₀ fuel tries = some res → res.fail = false →
      InRange e low high res.nport ∧ Avail e pd res.last.naddr res.nport
  passed : ∀ s, Reached e pd r nat src naddr low high s → Searched e pd low high s none →
    ∀ port, InRange e low high port → ¬ Avail e pd s.naddr port

variable {e pd r nat src naddr low high}

/-- TCP, UDP or an ICMP echo request. -/
def Searches (e : SportEnv) (pd : Pdesc) : Prop :=
  pd.proto = ipprotoTcp ∨ pd.proto = ipprotoUdp ∨ (pd.proto = ipprotoIcmp ∧
    (pd.ndport = htons e.env.bigEndian icmp6EchoRequest ∨
      pd.ndport = htons e.env.bigEndian icmpEcho))

theorem portSearch_eq (hflow : Searches e pd) (hlt : low < high) (fuel : Nat) (s : Try) :
    portSearch e pd low high fuel s
      = (portLoops (portFree e pd s.naddr) low high (randomCut low high (e.uniform s.n)) fuel).map
          (Option.map (htons e.env.bigEndian)) := by
  have hlt' := BitVec.lt_def.mp hlt
  have hproto : pd.proto = ipprotoTcp ∨ pd.proto = ipprotoUdp ∨ pd.proto = ipprotoIcmp :=
    hflow.imp_right (Or.imp_right And.left)
  have hzero : ¬ (low = 0#16 ∧ high = 0#16) := by
    rintro ⟨rfl, rfl⟩
    exact absurd hlt' (Nat.lt_irrefl _)
  have hne : low ≠ high := by
    rintro rfl
    exact absurd hlt' (Nat.lt_irrefl _)
  have hswap : ¬ high < low := fun h => by have := BitVec.lt_def.mp h; omega
  simp only [portSearch, hproto, not_true_eq_false, if_false, hzero, hne, hswap]

theorem randomCut_mem (hlt : low < high) (n : Nat) :
    low ≤ randomCut low high n ∧ randomCut low high n ≤ high := by
  have hlt' := BitVec.lt_def.mp hlt
  have hmod : n % (1 + high.toNat - low.toNat) < 1 + high.toNat - low.toNat :=
    Nat.mod_lt _ (by omega)
  have hval : (randomCut low high n).toNat = n % (1 + high.toNat - low.toNat) + low.toNat := by
    unfold randomCut arc4randomUniform
    exact Nat.mod_eq_of_lt (by omega)
  exact ⟨BitVec.le_def.mpr (by omega), BitVec.le_def.mpr (by omega)⟩

theorem searched_iff (hflow : Searches e pd) (hlt : low < high) {s : Try}
    {res : Option (BitVec 16)} : Searched e pd low high s res ↔
      ∃ res', Comes (portFree e pd s.naddr) low high (randomCut low high (e.uniform s.n)) res' ∧
        res = res'.map (htons e.env.bigEndian) := by
  constructor
  · rintro ⟨fuel, h⟩
    rw [portSearch_eq hflow hlt] at h
    obtain ⟨res', hres', rfl⟩ := Option.map_eq_some_iff.mp h
    exact ⟨res', ⟨fuel, hres'⟩, rfl⟩
  · rintro ⟨res', ⟨fuel, h⟩, rfl⟩
    exact ⟨fuel, by rw [portSearch_eq hflow hlt, h]; rfl⟩

/-- The state in which the address `s` is tried is one where the loops work. -/
def Works (e : SportEnv) (pd : Pdesc) (low high : BitVec 16) (s : Try) : Prop :=
  Suitable (portFree e pd s.naddr) low high (randomCut low high (e.uniform s.n))

/-- A port that is returned was found for an address that was tried. -/
theorem sportLoop_reached {nport : BitVec 16} {fuel tries : Nat} {s : Try} {res : Sport}
    (hs : Reached e pd r nat src naddr low high s)
    (h : sportLoop e pd r low high nport fuel tries s = some res) (hok : res.fail = false) :
    Reached e pd r nat src naddr low high res.last ∧
      Searched e pd low high res.last (some res.nport) := by
  induction tries generalizing s with
  | zero => exact absurd h (by simp [sportLoop])
  | succ tries ih =>
    rw [sportLoop] at h
    rcases hsearch : portSearch e pd low high fuel s with _ | _ | port
    · rw [hsearch] at h
      exact absurd h (by simp)
    · rw [hsearch] at h
      rcases hnext : tryNext e pd r s with ⟨s', _ | _⟩
      · simp only [hnext, Option.some.injEq] at h
        subst h
        exact Bool.noConfusion hok
      · simp only [hnext] at h
        exact ih (.next hs ⟨fuel, hsearch⟩ hnext) h
    · simp only [hsearch, Option.some.injEq] at h
      subst h
      exact ⟨hs, fuel, hsearch⟩

/-- A call is right exactly if each address that is tried is one for which the loops work. -/
theorem right_iff (e : SportEnv) (pd : Pdesc) (r : PfRule) (nat : Pool) (src : Tracking)
    (naddr : Addr) (low high low₀ high₀ : BitVec 16) (hflow : Searches e pd)
    (hrange : portRange e pd low₀ high₀ = some (low, high)) (hlt : low < high) :
    Right e pd r nat src naddr low high low₀ high₀ ↔
      ∀ s, Reached e pd r nat src naddr low high s → Works e pd low high s := by
  have hcut := fun s : Try => randomCut_mem hlt (e.uniform s.n)
  constructor
  · intro h s hs
    obtain ⟨res, hres⟩ := h.ends s hs
    obtain ⟨res', hcomes, rfl⟩ := (searched_iff hflow hlt).mp hres
    refine suitable_of_correct hcomes ?_
    rcases res' with _ | p
    · intro p hp hph
      refine eq_false_of_ne_true fun hfree => ?_
      refine h.passed s hs hres (htons e.env.bigEndian p) ?_ ((portFree_iff _ _ _ _).mp hfree)
      rw [InRange, htons_htons]
      exact ⟨hp, hph⟩
    · obtain ⟨hin, havail⟩ := h.found s hs _ hres
      rw [InRange, htons_htons] at hin
      exact ⟨hin.1, hin.2, (portFree_iff _ _ _ _).mpr havail⟩
  · intro h
    have hright : ∀ s, Reached e pd r nat src naddr low high s →
        ∃ res, Comes (portFree e pd s.naddr) low high (randomCut low high (e.uniform s.n)) res ∧
          Correct (portFree e pd s.naddr) low high res :=
      fun s hs => (h s hs).correct (hcut s).1 (hcut s).2
    have hfound : ∀ s, Reached e pd r nat src naddr low high s → ∀ port,
        Searched e pd low high s (some port) → InRange e low high port ∧ Avail e pd s.naddr port := by
      intro s hs port hsearched
      obtain ⟨res, hcomes, hcorrect⟩ := hright s hs
      obtain ⟨res', hcomes', hport⟩ := (searched_iff hflow hlt).mp hsearched
      obtain rfl := hcomes.unique hcomes'
      rcases res with _ | p
      · exact absurd hport (by simp)
      · obtain rfl : port = htons e.env.bigEndian p := Option.some.inj hport
        rw [InRange, htons_htons]
        exact ⟨⟨hcorrect.1, hcorrect.2.1⟩, (portFree_iff _ _ _ _).mp hcorrect.2.2⟩
    refine ⟨fun s hs => ?_, hfound, fun nport fuel tries res hcall hok => ?_,
      fun s hs hsearched port hport havail => ?_⟩
    · obtain ⟨res, hcomes, -⟩ := hright s hs
      exact ⟨_, (searched_iff hflow hlt).mpr ⟨res, hcomes, rfl⟩⟩
    · unfold pfGetSport at hcall
      rcases hmap : mapNat e pd r 0 naddr (some .zero) nat src with ⟨s, _ | _⟩
      · simp only [hmap, hrange] at hcall
        obtain ⟨hreached, hsearched⟩ := sportLoop_reached (.first hmap) hcall hok
        exact hfound _ hreached _ hsearched
      · simp only [hmap, Option.some.injEq] at hcall
        subst hcall
        exact Bool.noConfusion hok
    · obtain ⟨res, hcomes, hcorrect⟩ := hright s hs
      obtain ⟨res', hcomes', hnone⟩ := (searched_iff hflow hlt).mp hsearched
      obtain rfl := hcomes.unique hcomes'
      rcases res with _ | p
      · have hfree := (portFree_iff e pd s.naddr (htons e.env.bigEndian port)).mpr
          (by rwa [htons_htons])
        exact Bool.noConfusion (hfree.symm.trans (hcorrect _ hport.1 hport.2))
      · exact absurd hnone (by simp)

end Call

/-! A TCP connection from 192.168.0.2 to 10.1.1.1 that gets the address 10.0.0.1. -/

def toOne : Pool where
  addrType := .addrmask
  addr := ⟨0x0100000a#32, 0#32, 0#32, 0#32⟩
  mask := ⟨0xffffffff#32, 0#32, 0#32, 0#32⟩
  type := .none

def outgoing : Pdesc where
  af := .inet
  proto := ipprotoTcp
  rdomain := 0#16
  nsaddr := ⟨0x0200a8c0#32, 0#32, 0#32, 0#32⟩
  ndaddr := ⟨0x0101010a#32, 0#32, 0#32, 0#32⟩
  nsport := 0x0004#16
  ndport := 0x5000#16

/-- The state table has one state or none. -/
def tableOf (key : Option StateKey) : Table where
  statetbl := fun k => if some k = key then some [0] else none
  treeId := []
  stateList := []
  states := 0
  stateid := 0#64
  hostid := 0#32
  kif := fun _ => .all
  direction := fun _ => .out
  key := fun _ _ => key
  peers := fun _ => (0#8, 0#8)
  id := fun _ => (0#64, 0#32)
  unlinked := fun _ => false
  tcpEst := fun _ => false
  rule := fun _ => 0
  anchor := fun _ => none
  matchRules := fun _ => []
  srcNodes := fun _ => []
  node := fun _ => ⟨none, 0, 0, 0⟩
  srcTree := []
  statesCur := fun _ => 0
  snTimeout := fun _ => 0
  timeSecond := 0

/-- The random numbers are all `r`. -/
def sportEnv (key : Option StateKey) (r : Nat) : SportEnv where
  env := { arc4random := .zero, poolGet := none
           pfrPoolGet := fun _ i counter kif _ => ⟨true, i, counter, kif⟩ }
  arc4random := fun _ => .zero
  poolGet := fun _ => none
  uniform := fun _ => r
  table := tableOf key
  bad := ⟨fun _ => 0#32, fun _ => 0#32, none⟩

def noSources : Tracking :=
  ⟨fun _ => ⟨none, .none, .inet, .zero, .zero, 0#32, 0#32⟩, [], fun _ => 0#32, fun _ => none⟩

theorem works_empty (r : Nat) (s : Try) :
    Works (sportEnv none r) outgoing 50001#16 65535#16 s := by
  have hfree : ∀ p, portFree (sportEnv none r) outgoing s.naddr p = true := by
    intro p
    have hbad : inBaddynamic (sportEnv none r).bad p outgoing.proto = false := by
      simp [inBaddynamic, outgoing, sportEnv, dpIsset, BitVec.zero_and]
    refine (portFree_iff _ _ _ _).mpr ⟨fun ⟨_, _, h, _⟩ => ?_, ?_⟩
    · simp [sportEnv, tableOf] at h
    · rwa [htons_htons]
  exact .inl ⟨65535#16, (randomCut_mem (by decide) _).2, BitVec.le_refl _, hfree _⟩

/-- With no states, in the range of the default rule. -/
theorem right_empty :
    Right (sportEnv none 1) outgoing { id := 0 } toOne noSources .zero 50001#16 65535#16
      50001#16 65535#16 :=
  (right_iff (sportEnv none 1) outgoing { id := 0 } toOne noSources .zero 50001#16 65535#16
    50001#16 65535#16 (.inl rfl) rfl (by decide)).mpr fun s _ => works_empty 1 s

/-- A state that has the last port. -/
def lastTaken : SportEnv :=
  sportEnv (some (portKey outgoing ⟨0x0100000a#32, 0#32, 0#32, 0#32⟩ 0xffff#16)) 1

/-- The range is 65534 to 65535 and the search starts at 65535, which is taken; 65534 is
free. The port is 0. -/
theorem port_outside :
    portFree lastTaken outgoing ⟨0x0100000a#32, 0#32, 0#32, 0#32⟩ 65534#16 = true ∧
      (∃ res, pfGetSport lastTaken outgoing { id := 0 } toOne noSources .zero 0#16 65534#16
        65535#16 2 1 = some res ∧ res.fail = false ∧ res.nport = 0#16) ∧
      ¬ Right lastTaken outgoing { id := 0 } toOne noSources .zero 65534#16 65535#16
        65534#16 65535#16 := by
  have hres : ∃ res, pfGetSport lastTaken outgoing { id := 0 } toOne noSources .zero 0#16 65534#16
      65535#16 2 1 = some res ∧ res.fail = false ∧ res.nport = 0#16 := ⟨_, rfl, by decide, by decide⟩
  refine ⟨by decide, hres, fun h => ?_⟩
  obtain ⟨res, hcall, hok, hport⟩ := hres
  have hin := (h.returned 0#16 2 1 res hcall hok).1
  rw [hport] at hin
  exact absurd hin.1 (by decide)

end Obsd.PfLb
