import Obsd.PfSportRange

/-!
# Ports of redirected connections

`pf_get_transaddr` of `net/pf_lb.c` gives a packet the source that the nat
pool of a rule has for it, and then the destination that its rdr pool has.
The port of the destination is counted on from the start of the range of the
pool, with a remainder as C has it, which may be negative; and the variable
it is put into still has the port of the source. `transaddr_port_iff` says
which packets get a port of the range, and which keep theirs.
-/

namespace Obsd.PfLb

open PfState (Af)

/-! ## `pf_get_transaddr` -/

/-- What is used of a rule: with `r`, its two pools and the `dst.port[0]` that it matches, in
network order. -/
structure TransRule where
  r : PfRule
  nat : Pool
  rdr : Pool
  dstPort : BitVec 16

structure Trans where
  fail : Bool
  pd : Pdesc
  nat : Pool
  rdr : Pool
  src : Tracking

/-- The `int` that the port of a range is made of. -/
def portDiff (be : Bool) (rdr : Pool) (dstPort ndport : BitVec 16) : Int :=
  Int.tmod (((htons be ndport).toNat : Int) - (htons be dstPort).toNat)
    ((rdr.proxyPort.2.toNat : Int) - rdr.proxyPort.1.toNat + 1) + rdr.proxyPort.1.toNat

/-- `tmp_nport` as it is stored, and what is left of it in 16 bits. -/
def tmpNport (n : Int) : BitVec 16 :=
  let tmp := BitVec.ofInt 32 n
  (if 65535 < tmp.toNat then tmp - 65535#32 else tmp).setWidth 16

/-- The last value of `nport`. -/
def rdrPort (be : Bool) (rdr : Pool) (dstPort ndport nport : BitVec 16) : BitVec 16 :=
  if rdr.proxyPort.2 ≠ 0#16 then htons be (tmpNport (portDiff be rdr dstPort ndport))
  else if rdr.proxyPort.1 ≠ 0#16 then htons be rdr.proxyPort.1
  else nport

/-- The part about the destination. -/
def rdrTo (env : Env) (r : TransRule) (pd : Pdesc) (nat : Pool) (src : Tracking) (naddr : Addr)
    (nport : BitVec 16) : Trans :=
  if r.rdr.addrType = .none then ⟨false, pd, nat, r.rdr, src⟩
  else
    let m := pfMapAddr env src pd.af r.r pd.nsaddr naddr none r.rdr .rdr
    if m.fail then ⟨true, pd, nat, m.pool, m.src⟩
    else
      let naddr := if m.pool.type = .bitmask then
          pfPoolmask m.naddr m.naddr m.pool.mask pd.ndaddr pd.af
        else m.naddr
      let nport := rdrPort env.bigEndian m.pool r.dstPort pd.ndport nport
      let pd := { pd with ndaddr := pfAddrcpy pd.ndaddr naddr pd.af }
      ⟨false, if nport ≠ 0#16 then { pd with ndport := nport } else pd, nat, m.pool, m.src⟩

/-- `e` and `env` are what the searches of the two pools work with, and `naddr` what happens to
be on the stack; `fuel` and `tries` bound the search for a source port. -/
def pfGetTransaddr (e : SportEnv) (env : Env) (r : TransRule) (pd : Pdesc) (src : Tracking)
    (naddr : Addr) (fuel tries : Nat) : Option Trans :=
  if r.nat.addrType = .none then some (rdrTo env r pd r.nat src naddr 0#16)
  else
    match pfGetSport e pd r.r r.nat src naddr 0#16 r.nat.proxyPort.1 r.nat.proxyPort.2 fuel tries with
    | none => none
    | some s =>
        if s.fail then some ⟨true, pd, s.last.nat, r.rdr, s.last.src⟩
        else
          some (rdrTo env r
            { pd with nsaddr := pfAddrcpy pd.nsaddr s.last.naddr pd.af, nsport := s.nport }
            s.last.nat s.last.src s.last.naddr s.nport)

/-! ## Which port it is -/

/-- The destination port that the pool asks for. -/
structure PortRight (be : Bool) (rdr : Pool) (before after : BitVec 16) : Prop where
  range : rdr.proxyPort.2 ≠ 0#16 → rdr.proxyPort.1 ≤ rdr.proxyPort.2 →
    rdr.proxyPort.1 ≤ htons be after ∧ htons be after ≤ rdr.proxyPort.2
  one : rdr.proxyPort.2 = 0#16 → rdr.proxyPort.1 ≠ 0#16 → htons be after = rdr.proxyPort.1
  kept : rdr.proxyPort.2 = 0#16 → rdr.proxyPort.1 = 0#16 → after = before

/-- The number is a port of the range, or becomes one when it wraps around; or it becomes 0, and
the port that the packet has is in the range. -/
def DiffOk (be : Bool) (rdr : Pool) (dstPort ndport : BitVec 16) : Prop :=
  let n := portDiff be rdr dstPort ndport
  if n = 0 ∨ n = -1 then
    rdr.proxyPort.1 ≤ htons be ndport ∧ htons be ndport ≤ rdr.proxyPort.2
  else if 0 < n then (rdr.proxyPort.1.toNat : Int) ≤ n
  else 65537 + n ≤ rdr.proxyPort.2.toNat

/-- What is to hold of the rule and the packet. -/
structure PortsOk (e : SportEnv) (env : Env) (r : TransRule) (pd : Pdesc) (src : Tracking)
    (naddr : Addr) (fuel tries : Nat) : Prop where
  range : r.rdr.proxyPort.2 ≠ 0#16 → r.rdr.proxyPort.1 ≤ r.rdr.proxyPort.2 →
    DiffOk env.bigEndian r.rdr r.dstPort pd.ndport
  kept : r.rdr.proxyPort = (0#16, 0#16) → r.nat.addrType ≠ .none → ∀ s,
    pfGetSport e pd r.r r.nat src naddr 0#16 r.nat.proxyPort.1 r.nat.proxyPort.2 fuel tries = some s →
      s.nport = 0#16 ∨ s.nport = pd.ndport

theorem tmpNport_toNat {n : Int} (hlo : -65536 < n) (hhi : n < 65536) : (tmpNport n).toNat =
    (if 0 ≤ n then n else if n = -1 then 0 else 65537 + n).toNat := by
  unfold tmpNport
  have htoNat : (BitVec.ofInt 32 n).toNat = (if 0 ≤ n then n else n + 4294967296).toNat := by
    rw [BitVec.toNat_ofInt]
    split
    · rw [Int.emod_eq_of_lt (by omega) (by omega)]
    · rw [← Int.add_emod_right, Int.emod_eq_of_lt (by omega) (by omega)]
      rfl
  rw [BitVec.toNat_setWidth]
  split
  · change (4294967296 - 65535 + _) % 4294967296 % 65536 = _
    omega
  · omega

theorem portDiff_bounds {be : Bool} {rdr : Pool} (hle : rdr.proxyPort.1 ≤ rdr.proxyPort.2)
    (dstPort ndport : BitVec 16) :
    2 * (rdr.proxyPort.1.toNat : Int) ≤ portDiff be rdr dstPort ndport + rdr.proxyPort.2.toNat ∧
      portDiff be rdr dstPort ndport ≤ rdr.proxyPort.2.toNat := by
  unfold portDiff
  have hle : rdr.proxyPort.1.toNat ≤ rdr.proxyPort.2.toNat := hle
  generalize ((htons be ndport).toNat : Int) - (htons be dstPort).toNat = d
  have hmod := Int.natAbs_tmod d ((rdr.proxyPort.2.toNat : Int) - rdr.proxyPort.1.toNat + 1)
  have hbound := Nat.mod_lt d.natAbs
    (show 0 < ((rdr.proxyPort.2.toNat : Int) - rdr.proxyPort.1.toNat + 1).natAbs by omega)
  omega

theorem htons_eq_zero (be : Bool) (x : BitVec 16) : htons be x = 0#16 ↔ x = 0#16 := by
  have hzero : htons be 0#16 = 0#16 := by cases be <;> rfl
  constructor
  · intro h
    rw [← htons_htons be x, h, hzero]
  · rintro rfl
    exact hzero

/-- A port of the range. -/
theorem range_iff {be : Bool} {rdr : Pool} (h1 : rdr.proxyPort.2 ≠ 0#16)
    (hle : rdr.proxyPort.1 ≤ rdr.proxyPort.2) (dstPort ndport nport : BitVec 16) :
    (let p := rdrPort be rdr dstPort ndport nport
      let after := if p ≠ 0#16 then p else ndport
      rdr.proxyPort.1 ≤ htons be after ∧ htons be after ≤ rdr.proxyPort.2) ↔
      DiffOk be rdr dstPort ndport := by
  obtain ⟨hlo, hhi⟩ := @portDiff_bounds be rdr hle dstPort ndport
  have htmp := @tmpNport_toNat (portDiff be rdr dstPort ndport) (by omega) (by omega)
  rw [rdrPort, if_pos h1, DiffOk]
  dsimp only
  generalize portDiff be rdr dstPort ndport = n at *
  have hzero : htons be (tmpNport n) = 0#16 ↔ n = 0 ∨ n = -1 := by
    rw [htons_eq_zero, ← BitVec.toNat_inj, htmp]
    change _ = 0 ↔ _
    split_ifs <;> omega
  by_cases hn : n = 0 ∨ n = -1
  · rw [if_neg (not_not.mpr (hzero.mpr hn)), if_pos hn]
  · rw [if_pos (mt hzero.mp hn), if_neg hn, htons_htons, BitVec.le_def, BitVec.le_def, htmp]
    split_ifs <;> omega

theorem selectAddr_proxyPort (env : Env) (af : Af) (saddr naddr : Addr) (initAddr : Option Addr)
    (rpool : Pool) (raddr rmask : Addr) :
    (selectAddr env af saddr naddr initAddr rpool raddr rmask).2.2.1.proxyPort = rpool.proxyPort := by
  have hround : (roundRobin env rpool raddr rmask af).1.proxyPort = rpool.proxyPort := by
    unfold roundRobin
    split <;> rfl
  unfold selectAddr
  split
  · rfl
  · rfl
  · split <;> rfl
  · rfl
  · dsimp only
    split <;> exact hround

/-- The ports of a pool stay. -/
theorem map_proxyPort (env : Env) (t : Tracking) (af : Af) (r : PfRule) (saddr naddr : Addr)
    (initAddr : Option Addr) (rpool : Pool) (type : SnType) :
    (pfMapAddr env t af r saddr naddr initAddr rpool type).pool.proxyPort = rpool.proxyPort := by
  unfold pfMapAddr
  split
  · rfl
  · split
    · rfl
    · have hsel := selectAddr_proxyPort env af saddr naddr initAddr rpool
      dsimp only
      split
      · exact hsel ..
      · split <;> exact hsel ..

theorem rdrTo_port {env : Env} {r : TransRule} {pd : Pdesc} {nat : Pool} {src : Tracking}
    {naddr : Addr} {nport : BitVec 16} (hrdr : r.rdr.addrType ≠ .none)
    (hok : (rdrTo env r pd nat src naddr nport).fail = false) :
    (rdrTo env r pd nat src naddr nport).pd.ndport =
      let p := rdrPort env.bigEndian r.rdr r.dstPort pd.ndport nport
      if p ≠ 0#16 then p else pd.ndport := by
  have hpool := map_proxyPort env src pd.af r.r pd.nsaddr naddr none r.rdr .rdr
  unfold rdrTo at hok ⊢
  rw [if_neg hrdr] at hok ⊢
  dsimp only at hok ⊢
  split
  · rename_i hfail
    rw [if_pos hfail] at hok
    cases hok
  · unfold rdrPort portDiff
    rw [hpool]
    split_ifs <;> rfl

/-- The port when both pools could serve, with what the first one has left in `nport`. -/
theorem transaddr_port {e : SportEnv} {env : Env} {r : TransRule} {pd : Pdesc} {src : Tracking}
    {naddr : Addr} {fuel tries : Nat} {t : Trans} (hrdr : r.rdr.addrType ≠ .none)
    (ht : pfGetTransaddr e env r pd src naddr fuel tries = some t) (hok : t.fail = false) :
    ∃ nport, ((r.nat.addrType = .none ∧ nport = 0#16) ∨ (r.nat.addrType ≠ .none ∧ ∃ s, pfGetSport e pd
        r.r r.nat src naddr 0#16 r.nat.proxyPort.1 r.nat.proxyPort.2 fuel tries = some s ∧
          nport = s.nport)) ∧
      t.pd.ndport = let p := rdrPort env.bigEndian r.rdr r.dstPort pd.ndport nport
        if p ≠ 0#16 then p else pd.ndport := by
  unfold pfGetTransaddr at ht
  split at ht
  · rename_i hnone
    obtain rfl := Option.some.inj ht
    exact ⟨0#16, .inl ⟨hnone, rfl⟩, rdrTo_port hrdr hok⟩
  · rename_i hnone
    split at ht
    · cases ht
    · rename_i s hs
      split at ht
      · obtain rfl := Option.some.inj ht
        cases hok
      · obtain rfl := Option.some.inj ht
        exact ⟨s.nport, .inr ⟨hnone, s, hs, rfl⟩, rdrTo_port hrdr hok⟩

/-- In a packet whose pools could serve it, the destination port is the one that the redirection
asks for if and only if the numbers are such. -/
theorem transaddr_port_iff {e : SportEnv} {env : Env} {r : TransRule} {pd : Pdesc} {src : Tracking}
    {naddr : Addr} {fuel tries : Nat} {t : Trans} (hrdr : r.rdr.addrType ≠ .none)
    (ht : pfGetTransaddr e env r pd src naddr fuel tries = some t) (hok : t.fail = false) :
    PortRight env.bigEndian r.rdr pd.ndport t.pd.ndport ↔ PortsOk e env r pd src naddr fuel tries := by
  obtain ⟨nport, hnat, hport⟩ := transaddr_port hrdr ht hok
  rw [hport]
  constructor
  · intro h
    refine ⟨fun h1 hle => (range_iff h1 hle ..).mp (h.range h1 hle), fun h0 hne s hs => ?_⟩
    have hkept := h.kept (congrArg Prod.snd h0) (congrArg Prod.fst h0)
    rw [rdrPort, h0, if_neg (not_not.mpr rfl), if_neg (not_not.mpr rfl)] at hkept
    obtain ⟨-, s', hs', rfl⟩ := hnat.resolve_left fun h => hne h.1
    obtain rfl := Option.some.inj (hs.symm.trans hs')
    by_cases hz : s.nport = 0#16
    · exact .inl hz
    · rw [if_pos hz] at hkept
      exact .inr hkept
  · intro h
    refine ⟨fun h1 hle => (range_iff h1 hle ..).mpr (h.range h1 hle), fun h1 h0 => ?_, fun h1 h0 => ?_⟩
    · rw [rdrPort, if_neg (not_not.mpr h1), if_pos h0]
      have hne : htons env.bigEndian r.rdr.proxyPort.1 ≠ 0#16 := mt (htons_eq_zero ..).mp h0
      rw [if_pos hne, htons_htons]
    · rw [rdrPort, if_neg (not_not.mpr h1), if_neg (not_not.mpr h0)]
      rcases hnat with ⟨-, rfl⟩ | ⟨hne, s, hs, rfl⟩
      · rfl
      · rcases h.kept (Prod.ext h0 h1) hne s hs with hz | hz
        · rw [hz]
          rfl
        · rw [hz]
          exact ite_self _

/-- To ports below 100, redirected to the ports from 1000 to 1009 of one address. -/
def belowHundred : TransRule where
  r := { id := 0 }
  nat := { toOne with addrType := .none }
  rdr := { toOne with proxyPort := (1000#16, 1009#16) }
  dstPort := htons false 100#16

/-- A packet to port 90 gets the first port of the range. -/
theorem transaddr_port_ninety : ∃ t, pfGetTransaddr (sportEnv none 0) (sportEnv none 0).env
    belowHundred { outgoing with ndport := htons false 90#16 } noSources .zero 0 0 = some t ∧
    PortRight false belowHundred.rdr (htons false 90#16) t.pd.ndport := by
  refine ⟨_, rfl, (@transaddr_port_iff (sportEnv none 0) (sportEnv none 0).env belowHundred
    { outgoing with ndport := htons false 90#16 } noSources .zero 0 0 _ (by decide) rfl rfl).mpr
    ⟨fun _ _ => ?_, ?_⟩⟩
  · unfold DiffOk
    decide
  · exact fun h => absurd h (by decide)

/-- A packet to port 95 gets port 995. -/
theorem port_below_range : ∃ t, pfGetTransaddr (sportEnv none 0) (sportEnv none 0).env
    belowHundred { outgoing with ndport := htons false 95#16 } noSources .zero 0 0 = some t ∧
    t.fail = false ∧ htons false t.pd.ndport = 995#16 ∧
    ¬PortRight false belowHundred.rdr (htons false 95#16) t.pd.ndport := by
  refine ⟨_, rfl, rfl, by decide, fun h => ?_⟩
  exact absurd (h.range (by decide) (by decide)).1 (by decide)

end Obsd.PfLb
