import Obsd.PfLb

/-!
# The address lies inside the pool

For a pool that is an address and a mask, every type but one fills the part
that the mask leaves open, from the source, from the counter or from a hash:
the address is inside whatever that is. A round-robin pool takes the counter
as it is. It is tested against the pool, but the other way round from what
`pfr_pool_get` does with an address of a table: a counter inside is a
failure, and one outside is handed out (`map_addr_runs`).
-/

namespace Obsd.PfLb

open PfState (Af)

/-! ## Filling in a word -/

theorem poolWord_and (raddr rmask saddr : BitVec 32) :
    poolWord raddr rmask saddr &&& rmask = raddr &&& rmask := by
  unfold poolWord
  ext i hi
  have hones : (0xffffffff#32)[i] = true := by
    rw [show (0xffffffff#32) = BitVec.allOnes 32 from rfl, BitVec.getElem_allOnes]
  simp only [BitVec.getElem_and, BitVec.getElem_or, BitVec.getElem_xor, hones]
  cases rmask[i] <;> simp

theorem pfPoolmask_match (naddr raddr rmask saddr : Addr) (af : Af) :
    pfMatchAddr false raddr rmask (pfPoolmask naddr raddr rmask saddr af) af = true := by
  cases af
  · simp [pfMatchAddr, pfPoolmask, poolWord_and]
  · simp [pfMatchAddr, pfPoolmask, poolWord_and]

theorem pfAddrcpy_match (naddr raddr rmask saddr : Addr) (af : Af) :
    pfMatchAddr false raddr rmask (pfAddrcpy naddr saddr af) af
      = pfMatchAddr false raddr rmask saddr af := by
  cases af
  · rfl
  · rfl

theorem pfMatchAddr_self (raddr rmask : Addr) (af : Af) :
    pfMatchAddr false raddr rmask raddr af = true := by
  cases af
  · simp [pfMatchAddr]
  · simp [pfMatchAddr]

/-! ## The switch -/

section Select

variable {env : Env} {af : Af} {saddr naddr raddr rmask : Addr} {initAddr : Option Addr}
  {rpool : Pool}

theorem selectAddr_inside (htype : rpool.type ≠ .roundrobin) :
    (selectAddr env af saddr naddr initAddr rpool raddr rmask).2.2.2 = false ∧
      pfMatchAddr false raddr rmask
        (selectAddr env af saddr naddr initAddr rpool raddr rmask).1 af = true := by
  unfold selectAddr
  rcases ht : rpool.type with _ | _ | _ | _ | _
  case none => exact ⟨rfl, (pfAddrcpy_match _ _ _ _ _).trans (pfMatchAddr_self _ _ _)⟩
  case bitmask => exact ⟨rfl, pfPoolmask_match _ _ _ _ _⟩
  case random =>
    dsimp only
    split
    · exact ⟨rfl, pfPoolmask_match _ _ _ _ _⟩
    · exact ⟨rfl, pfPoolmask_match _ _ _ _ _⟩
  case srchash => exact ⟨rfl, pfPoolmask_match _ _ _ _ _⟩
  case roundrobin => exact absurd ht htype

/-- With a counter inside the pool there is no address, and otherwise it is the counter. -/
theorem selectAddr_roundRobin (htype : rpool.type = .roundrobin)
    (haddr : rpool.addrType = .addrmask) :
    (selectAddr env af saddr naddr initAddr rpool raddr rmask).2.2.2
        = pfMatchAddr false raddr rmask rpool.counter af ∧
      ((selectAddr env af saddr naddr initAddr rpool raddr rmask).2.2.2 = false →
        pfMatchAddr false raddr rmask
          (selectAddr env af saddr naddr initAddr rpool raddr rmask).1 af = false) := by
  have hsel : selectAddr env af saddr naddr initAddr rpool raddr rmask
      = if pfMatchAddr false raddr rmask rpool.counter af then (naddr, initAddr, rpool, true)
        else (pfAddrcpy naddr rpool.counter af, setInit initAddr (pfAddrcpy naddr rpool.counter af) af,
          { rpool with counter := pfAddrInc env.bigEndian rpool.counter af }, false) := by
    simp only [selectAddr, htype, roundRobin, haddr]
  rw [hsel]
  by_cases hm : pfMatchAddr false raddr rmask rpool.counter af = true
  · rw [if_pos hm]
    exact ⟨hm.symm, fun h => Bool.noConfusion h⟩
  · rw [if_neg hm]
    refine ⟨(eq_false_of_ne_true hm).symm, fun _ => ?_⟩
    rw [pfAddrcpy_match]
    exact eq_false_of_ne_true hm

/-- The pools differ in where they stand at most. -/
def SamePool (p q : Pool) : Prop :=
  p.addrType = q.addrType ∧ p.addr = q.addr ∧ p.mask = q.mask ∧ p.type = q.type ∧
    p.sticky = q.sticky

theorem SamePool.refl (p : Pool) : SamePool p p := ⟨rfl, rfl, rfl, rfl, rfl⟩

theorem SamePool.counter {p q : Pool} (h : SamePool p q) (counter : Addr) :
    SamePool { p with counter := counter } q := h

theorem roundRobin_pool : SamePool (roundRobin env rpool raddr rmask af).1 rpool := by
  unfold roundRobin
  split
  · exact .refl _
  · exact .refl _
  · exact .refl _

theorem selectAddr_pool :
    SamePool (selectAddr env af saddr naddr initAddr rpool raddr rmask).2.2.1 rpool := by
  unfold selectAddr
  split
  · exact .refl _
  · exact .refl _
  · split
    · exact SamePool.refl _ |>.counter _
    · exact SamePool.refl _ |>.counter _
  · exact .refl _
  · dsimp only
    split
    · exact roundRobin_pool
    · exact roundRobin_pool.counter _

end Select

/-! ## The source node -/

/-- The source node of a sticky pool can be made, or is there and takes another state. -/
def CanTrack (env : Env) (t : Tracking) (af : Af) (r : PfRule) (saddr : Addr) (type : SnType) :
    Prop :=
  let t := dropSrcNode env t type
  match srcFind t (some r.id) type af saddr with
  | none => (r.maxSrcNodes = 0#32 ∨ t.srcNodes r.id < r.maxSrcNodes) ∧ env.poolGet ≠ none
  | some n => r.maxSrcStates = 0#32 ∨ (t.node n).states < r.maxSrcStates

theorem dropSrcNode_sns (env : Env) (t : Tracking) (type : SnType) :
    (dropSrcNode env t type).sns type = none := by
  unfold dropSrcNode
  rcases h : t.sns type with _ | n
  · exact h
  · exact Function.update_self _ _ _

theorem pfInsertSrcNode_fail (env : Env) (t : Tracking) (af : Af) (r : PfRule)
    (saddr naddr : Addr) (type : SnType) :
    (pfInsertSrcNode env (dropSrcNode env t type) r type af saddr naddr false).2 = false ↔
      CanTrack env t af r saddr type := by
  unfold pfInsertSrcNode CanTrack
  simp only [dropSrcNode_sns, Bool.false_eq_true, if_false]
  generalize dropSrcNode env t type = t'
  have hset : ∀ n, (setSn t' type n).sns type = n := fun n => Function.update_self _ _ _
  rcases hfind : srcFind t' (some r.id) type af saddr with _ | n
  · simp only [hset]
    by_cases hmax : r.maxSrcNodes = 0#32 ∨ t'.srcNodes r.id < r.maxSrcNodes
    · have hset' : (setSn t' type none).srcNodes = t'.srcNodes := rfl
      rw [hset', if_pos hmax]
      rcases env.poolGet with _ | n
      · exact iff_of_false (by simp) fun h => h.2 rfl
      · exact iff_of_true rfl ⟨hmax, by simp⟩
    · have hset' : (setSn t' type none).srcNodes = t'.srcNodes := rfl
      rw [hset', if_neg hmax]
      exact iff_of_false (by simp) fun h => hmax h.1
  · simp only [hset]
    have hnode : (setSn t' type (some n)).node = t'.node := rfl
    rw [hnode]
    by_cases hmax : r.maxSrcStates ≠ 0#32 ∧ r.maxSrcStates ≤ (t'.node n).states
    · rw [if_pos hmax]
      refine iff_of_false (by simp) fun h => h.elim hmax.1 fun hlt => ?_
      exact absurd (BitVec.lt_def.mp hlt) (Nat.not_lt.mpr (BitVec.le_def.mp hmax.2))
    · rw [if_neg hmax]
      refine iff_of_true rfl ?_
      by_cases hzero : r.maxSrcStates = 0#32
      · exact .inl hzero
      · exact .inr (BitVec.not_le.mp fun hle => hmax ⟨hzero, hle⟩)

/-! ## Calls -/

/-- The arguments of a call, but for the pool, and the source nodes at that time. -/
structure Call where
  env : Env
  src : Tracking
  af : Af
  r : PfRule
  saddr : Addr
  naddr : Addr
  initAddr : Option Addr
  type : SnType

def Call.map (c : Call) (rpool : Pool) : Mapped :=
  pfMapAddr c.env c.src c.af c.r c.saddr c.naddr c.initAddr rpool c.type

def Call.entry (c : Call) (rpool : Pool) : Option Nat :=
  stickyEntry c.src c.af c.r c.saddr rpool c.type

/-- The call finds an address, and unless a source node had one, it is inside the pool. -/
structure Meets (c : Call) (rpool : Pool) : Prop where
  found : (c.map rpool).fail = false
  inside : (c.map rpool).fail = false → c.entry rpool = none →
    pfMatchAddr false rpool.addr rpool.mask (c.map rpool).naddr c.af = true

/-- There is a source node, or the pool is of a type that works, and sticky only if the new
node can be kept. -/
def Suits (c : Call) (rpool : Pool) : Prop :=
  c.entry rpool ≠ none ∨ (rpool.type ≠ .roundrobin ∧
    (rpool.sticky = true → CanTrack c.env c.src c.af c.r c.saddr c.type))

section Calls

variable {c : Call} {rpool : Pool}

theorem map_sticky {n : Nat} (h : c.entry rpool = some n) :
    (c.map rpool).fail = false ∧ (c.map rpool).pool = rpool := by
  unfold Call.map pfMapAddr
  rw [show stickyEntry c.src c.af c.r c.saddr rpool c.type = some n from h]
  exact ⟨rfl, rfl⟩

/-- What the switch selects. -/
def Call.selected (c : Call) (rpool : Pool) : Addr × Option Addr × Pool × Bool :=
  selectAddr c.env c.af c.saddr c.naddr c.initAddr rpool rpool.addr rpool.mask

theorem map_fresh (h : c.entry rpool = none) (haddr : rpool.addrType = .addrmask) :
    c.map rpool =
      let (naddr, initAddr, rpool, fail) := c.selected rpool
      if fail then ⟨true, naddr, initAddr, rpool, c.src⟩
      else if rpool.sticky then
        let (t, fail) := pfInsertSrcNode c.env (dropSrcNode c.env c.src c.type) c.r c.type c.af
          c.saddr naddr false
        ⟨fail, naddr, initAddr, rpool, t⟩
      else ⟨false, naddr, initAddr, rpool, c.src⟩ := by
  unfold Call.map pfMapAddr Call.selected
  rw [show stickyEntry c.src c.af c.r c.saddr rpool c.type = none from h]
  simp only [poolAddr, haddr]

/-- What a call that makes its choice returns. -/
theorem map_fresh_spec (h : c.entry rpool = none) (haddr : rpool.addrType = .addrmask) :
    (c.map rpool).naddr = (c.selected rpool).1 ∧ (c.map rpool).pool = (c.selected rpool).2.2.1 ∧
      ((c.map rpool).fail = false ↔ (c.selected rpool).2.2.2 = false ∧
        (rpool.sticky = true → CanTrack c.env c.src c.af c.r c.saddr c.type)) := by
  have hsticky : (c.selected rpool).2.2.1.sticky = rpool.sticky := selectAddr_pool.2.2.2.2
  rw [map_fresh h haddr]
  dsimp only
  by_cases hfail : (c.selected rpool).2.2.2 = true
  · rw [if_pos hfail]
    exact ⟨rfl, rfl, iff_of_false (by simp) fun hc => absurd (hfail.symm.trans hc.1) (by decide)⟩
  · rw [if_neg hfail]
    have hok := eq_false_of_ne_true hfail
    by_cases hs : rpool.sticky = true
    · rw [if_pos (hsticky.trans hs)]
      exact ⟨rfl, rfl, (pfInsertSrcNode_fail _ _ _ _ _ _ _).trans
        ⟨fun hc => ⟨hok, fun _ => hc⟩, fun hc => hc.2 hs⟩⟩
    · rw [if_neg fun hc => hs (hsticky.symm.trans hc)]
      exact ⟨rfl, rfl, iff_of_true rfl ⟨hok, fun hc => absurd hc hs⟩⟩

theorem meets_iff (haddr : rpool.addrType = .addrmask) : Meets c rpool ↔ Suits c rpool := by
  rcases hentry : c.entry rpool with _ | n
  · obtain ⟨hnaddr, -, hfail⟩ := map_fresh_spec hentry haddr
    by_cases htype : rpool.type = .roundrobin
    · refine iff_of_false (fun h => ?_) fun h => ?_
      · have hout : (c.selected rpool).2.2.2 = false →
            pfMatchAddr false rpool.addr rpool.mask (c.selected rpool).1 c.af = false :=
          (selectAddr_roundRobin htype haddr).2
        have hin := h.inside h.found hentry
        rw [hnaddr] at hin
        exact absurd (hin.symm.trans (hout (hfail.mp h.found).1)) (by decide)
      · exact h.elim (fun h => h hentry) fun h => h.1 htype
    · have hinside : (c.selected rpool).2.2.2 = false ∧
          pfMatchAddr false rpool.addr rpool.mask (c.selected rpool).1 c.af = true :=
        selectAddr_inside htype
      refine ⟨fun h => .inr ⟨htype, (hfail.mp h.found).2⟩, fun h => ⟨?_, fun _ _ => ?_⟩⟩
      · exact hfail.mpr ⟨hinside.1, h.elim (fun h => absurd hentry h) And.right⟩
      · rw [hnaddr]
        exact hinside.2
  · refine iff_of_true ⟨(map_sticky hentry).1, fun _ h => ?_⟩ (.inl (by rw [hentry]; simp))
    exact absurd (hentry.symm.trans h) (by simp)

theorem map_pool (haddr : rpool.addrType = .addrmask) : SamePool (c.map rpool).pool rpool := by
  rcases hentry : c.entry rpool with _ | n
  · obtain ⟨-, hpool, -⟩ := map_fresh_spec hentry haddr
    rw [hpool]
    exact selectAddr_pool
  · rw [(map_sticky hentry).2]
    exact .refl _

end Calls

/-! ## Calls one after the other -/

/-- The calls of a run, each with the pool as the ones before it left it. -/
def visited (rpool : Pool) : List Call → List (Call × Pool)
  | [] => []
  | c :: calls => (c, rpool) :: visited (c.map rpool).pool calls

theorem suits_congr {c : Call} {p p' : Pool} (h : SamePool p' p) : Suits c p' ↔ Suits c p := by
  obtain ⟨-, -, -, htype, hsticky⟩ := h
  have hentry : c.entry p' = c.entry p := by
    unfold Call.entry stickyEntry
    rw [htype, hsticky]
  unfold Suits
  rw [hentry, htype, hsticky]

/-- A call meets what a pool is for exactly if a source node is found, or the pool is not
round-robin and, if sticky, the new source node can be kept. -/
theorem map_addr_runs (rpool : Pool) (haddr : rpool.addrType = .addrmask) (calls : List Call) :
    ∀ x ∈ visited rpool calls, x.2.addr = rpool.addr ∧ x.2.mask = rpool.mask ∧
      (Meets x.1 x.2 ↔ Suits x.1 rpool) := by
  induction calls generalizing rpool with
  | nil => exact fun x hx => absurd hx List.not_mem_nil
  | cons c calls ih =>
    intro x hx
    rcases List.mem_cons.mp hx with rfl | hx
    · exact ⟨rfl, rfl, meets_iff haddr⟩
    · have hpool : SamePool (c.map rpool).pool rpool := map_pool haddr
      have ⟨haddr', ha, hm, _⟩ := hpool
      obtain ⟨hxa, hxm, hiff⟩ := ih _ (haddr'.trans haddr) x hx
      exact ⟨hxa.trans ha, hxm.trans hm, hiff.trans (suits_congr hpool)⟩

/-! A pool of 256 addresses, as a little-endian machine has them. -/

/-- 10.0.0.0/24 -/
def net24 (type : PoolType) : Pool where
  addrType := .addrmask
  addr := ⟨0x0000000a#32, 0#32, 0#32, 0#32⟩
  mask := ⟨0x00ffffff#32, 0#32, 0#32, 0#32⟩
  type := type

/-- A call for 192.168.0.1, with no source nodes. -/
def oneCall : Call where
  env := { arc4random := ⟨0xcafebabe#32, 0#32, 0#32, 0#32⟩, poolGet := none
           pfrPoolGet := fun _ i counter kif _ => ⟨true, i, counter, kif⟩ }
  src := ⟨fun _ => ⟨none, .none, .inet, .zero, .zero, 0#32, 0#32⟩, [], fun _ => 0#32, fun _ => none⟩
  af := .inet
  r := { id := 0 }
  saddr := ⟨0x0100a8c0#32, 0#32, 0#32, 0#32⟩
  naddr := .zero
  initAddr := some .zero
  type := .nat

/-- The second of two calls of a random pool. -/
theorem map_addr_random : Meets oneCall (oneCall.map (net24 .random)).pool ↔
    Suits oneCall (net24 .random) :=
  (map_addr_runs (net24 .random) rfl [oneCall, oneCall] (oneCall, (oneCall.map (net24 .random)).pool)
    (List.mem_cons_of_mem _ List.mem_cons_self)).2.2

/-- The counter of a new pool is 0.0.0.0, and that is the address. With the first address of
the pool in the counter there is none. -/
theorem round_robin_outside :
    (oneCall.map (net24 .roundrobin)).fail = false ∧
      oneCall.entry (net24 .roundrobin) = none ∧
      (oneCall.map (net24 .roundrobin)).naddr = .zero ∧
      pfMatchAddr false (net24 .roundrobin).addr (net24 .roundrobin).mask .zero .inet = false ∧
      (oneCall.map { net24 .roundrobin with counter := (net24 .roundrobin).addr }).fail = true := by
  decide

end Obsd.PfLb
